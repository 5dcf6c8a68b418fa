import Mathlib.Tactic.Common
import Snooping.Machine.Step

/-!
# The turns of one cycle

Every agent has its place in a cycle, and what it wakes in the same cycle comes after it. So nobody
takes two turns in a cycle, and the fuel of a cycle lasts until nothing is due.

* `Agent.slot`: the place of an agent in a cycle.
* **`WakeQueue.Timed`**: nothing waits for the past, nor for a place of this cycle that is over.
* `WakeQueue.timed_fetch`, `WakeQueue.timed_add`: how it is kept.
* **`Machine.runDue_induct`**: what every turn keeps holds at the end of the cycle, and nothing is
  due then.
-/

namespace Snooping

variable {n : Nat}

/-! ## Places in a cycle -/

/-- **The place of an agent in a cycle.** -/
def Agent.slot : Agent (Fin n) → Nat
  | .forwarder i => i
  | .memory => n
  | .core i => n + 1 + i
  | .cache i => 2 * n + 1 + i

theorem Agent.slot_lt (p : Agent (Fin n)) : p.slot < 3 * n + 1 := by
  cases p <;> simp only [slot] <;> omega

theorem Agent.slot_lt_of_compare {p q : Agent (Fin n)} (h : compare p q = .lt) :
    p.slot < q.slot := by
  have h : (compare p.rank q.rank).then (compare p.index? q.index?) = .lt := h
  rw [Ordering.then_eq_lt, Nat.compare_eq_lt, Nat.compare_eq_eq] at h
  have hfin : ∀ i j : Fin n, compare (some i) (some j) = .lt → (i : Nat) < j := fun i j hij =>
    Nat.compare_eq_lt.mp hij
  cases p <;> cases q <;> simp only [rank, index?, slot] at h ⊢
  case forwarder.forwarder i j _ => exact hfin i j (h.resolve_left (by omega)).2
  case core.core i j _ =>
    have := hfin i j (h.resolve_left (by omega)).2
    omega
  case cache.cache i j _ =>
    have := hfin i j (h.resolve_left (by omega)).2
    omega
  case memory.memory =>
    have h : Ordering.eq = .lt := (h.resolve_left (by omega)).2
    cases h
  all_goals omega

namespace WakeQueue

variable {q q' : WakeQueue (Agent (Fin n))} {k : Nat}

/-- The order of the pairs that wait. -/
abbrev Sorted (l : List (Nat × Agent (Fin n))) : Prop :=
  l.Pairwise fun x y => comparePair x y = .lt

theorem le_of_comparePair {x y : Nat × Agent (Fin n)} (h : comparePair x y = .lt) :
    x.1 < y.1 ∨ (x.1 = y.1 ∧ x.2.slot < y.2.slot) := by
  have h : (compare x.1 y.1).then (compare x.2 y.2) = .lt := h
  rw [Ordering.then_eq_lt, Nat.compare_eq_lt, Nat.compare_eq_eq] at h
  exact h.imp_right fun hx => ⟨hx.1, Agent.slot_lt_of_compare hx.2⟩

/-- **Nothing waits for the past**, nor for a place of this cycle before `k`. -/
structure Timed (q : WakeQueue (Agent (Fin n))) (k : Nat) : Prop where
  sorted : Sorted q.pending
  future : ∀ e ∈ q.pending, q.now ≤ e.1
  later : ∀ p, (q.now, p) ∈ q.pending → k ≤ p.slot

theorem timed_fetch {p : Agent (Fin n)} (h : q.fetch = .ok (some (p, q'))) (ht : q.Timed k) :
    k ≤ p.slot ∧ q'.Timed (p.slot + 1) := by
  obtain ⟨-, hp⟩ := fetch_eq_some h
  have hnow := now_of_fetch h
  have hs := hp ▸ ht.sorted
  refine ⟨ht.later p (by rw [hp]; exact List.mem_cons_self), (List.pairwise_cons.mp hs).2,
    fun e he => ?_, fun p' hp' => ?_⟩
  · rw [hnow]
    exact ht.future e (by rw [hp]; exact List.mem_cons_of_mem _ he)
  · rw [hnow] at hp'
    have := le_of_comparePair ((List.pairwise_cons.mp hs).1 _ hp')
    dsimp only at this
    omega

/-- The queue with one more pair that waits. -/
def add (q : WakeQueue (Agent (Fin n))) (t : Nat) (p : Agent (Fin n)) : WakeQueue (Agent (Fin n)) :=
  { q with pending := insertPair (t, p) q.pending }

theorem mem_add {t : Nat} {p : Agent (Fin n)} {e : Nat × Agent (Fin n)} :
    e ∈ (q.add t p).pending ↔ e = (t, p) ∨ e ∈ q.pending := mem_insertPair

theorem timed_add {t : Nat} {p : Agent (Fin n)} (h : q.Timed k)
    (ht : q.now < t ∨ (q.now = t ∧ k ≤ p.slot)) : (q.add t p).Timed k := by
  refine ⟨sorted_insertPair h.sorted, fun e he => ?_, fun p' hp' => ?_⟩
  · show q.now ≤ e.1
    rcases mem_add.mp he with rfl | he
    · show q.now ≤ t
      omega
    · exact h.future e he
  · change (q.now, p') ∈ _ at hp'
    rcases mem_add.mp hp' with he | he
    · obtain ⟨h1, rfl⟩ := Prod.mk.inj he
      omega
    · exact h.later p' he

theorem schedule_eq_ok {t : Nat} {p : Agent (Fin n)} (h : q.schedule t p = .ok q') :
    q' = q.add t p := by
  unfold schedule at h
  split at h
  · cases h
    rfl
  · cases h

theorem send_eq_ok {d : Nat} {p : Agent (Fin n)} (h : q.send d p = .ok q') :
    q' = q.add (q.now + d) p := by
  unfold send at h
  cases hs : sum64 q.now d with
  | error f =>
    rw [hs] at h
    cases h
  | ok t =>
    rw [hs] at h
    rw [(sum64_eq_ok.mp hs).1]
    exact schedule_eq_ok h

theorem mem_of_nextTime {t : Nat} (h : q.nextTime = some t) : ∃ e ∈ q.pending, e.1 = t := by
  unfold nextTime at h
  obtain ⟨e, he, rfl⟩ := Option.map_eq_some_iff.mp h
  exact ⟨e, List.mem_of_head? he, rfl⟩

theorem nextTime_le {t : Nat} (h : q.nextTime = some t) (hs : Sorted q.pending) :
    ∀ e ∈ q.pending, t ≤ e.1 := by
  unfold nextTime at h
  cases hp : q.pending with
  | nil =>
    rw [hp] at h
    cases h
  | cons x xs =>
    rw [hp] at h hs
    obtain rfl := Option.some.inj h
    intro e he
    rcases List.mem_cons.mp he with rfl | he
    · exact Nat.le_refl _
    · have := le_of_comparePair ((List.pairwise_cons.mp hs).1 e he)
      omega

end WakeQueue

namespace Machine

variable {g : Geometry}

theorem runDueFor_induct {P : Nat → Machine g n → Prop}
    (timed : ∀ {k m}, P k m → m.queue.Timed k)
    (turn : ∀ {k m p q m'}, P k m → m.queue.fetch = .ok (some (p, q)) →
      { m with queue := q }.runAgent p = .ok m' → P (p.slot + 1) m')
    {fuel k : Nat} {m m' : Machine g n} (h : P k m) (hf : 3 * n + 1 < fuel + k)
    (hk : k ≤ 3 * n + 1) (hr : m.runDueFor fuel = .ok m') :
    ∃ k', P k' m' ∧ ∀ e ∈ m'.queue.pending, m'.now < e.1 := by
  induction fuel generalizing k m with
  | zero => omega
  | succ fuel ih =>
    unfold runDueFor at hr
    cases hq : m.queue.fetch with
    | error f =>
      rw [hq] at hr
      cases hr
    | ok o =>
      rw [hq] at hr
      cases o with
      | none =>
        cases hr
        exact ⟨k, h, WakeQueue.fetch_eq_none hq (timed h).sorted⟩
      | some e =>
        obtain ⟨p, q⟩ := e
        cases ha : { m with queue := q }.runAgent p with
        | error f =>
          simp only [ha, bind, Except.bind] at hr
          cases hr
        | ok m₁ =>
          simp only [ha, bind, Except.bind] at hr
          have hslot := (WakeQueue.timed_fetch hq (timed h)).1
          have hp := p.slot_lt
          exact ih (turn h hq ha) (by omega) (by omega) hr

/-- **What every turn keeps holds at the end of the cycle**, and then nothing is due. -/
theorem runDue_induct {P : Nat → Machine g n → Prop} (timed : ∀ {k m}, P k m → m.queue.Timed k)
    (turn : ∀ {k m p q m'}, P k m → m.queue.fetch = .ok (some (p, q)) →
      { m with queue := q }.runAgent p = .ok m' → P (p.slot + 1) m')
    {m m' : Machine g n} (h : P 0 m) (hr : m.runDue = .ok m') :
    ∃ k, P k m' ∧ ∀ e ∈ m'.queue.pending, m'.now < e.1 :=
  runDueFor_induct timed turn h (by simp only [agentCount]; omega) (Nat.zero_le _) hr

end Machine

end Snooping
