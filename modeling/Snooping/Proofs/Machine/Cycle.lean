import Snooping.Proofs.Machine.Turns
import Snooping.Proofs.Protocol.History

/-!
# What holds within a cycle

Between two turns of a cycle the protocol is coherent with the requests that have ended so far.
Besides, the clock orders the turns: whoever has driven something has had its turn, a forwarder that
owes something is awake, and a line that was taken is written in the next cycle.

* `Machine.Recorded`: the requests that have ended are in order, and their reads are right.
* **`Machine.Running`**: what holds between two turns.
* **`Machine.running_turn`**: a turn keeps it.
* **`Machine.running_runDue`**: it holds when nothing is due any more.
-/

namespace Snooping.Machine

variable {g : Geometry} {n : Nat}

/-- The requests that have ended are in order, and their reads are right. -/
structure Recorded (m : Machine g n) : Prop where
  ordered : m.timeline.Pairwise Entry.Before
  faithful : Faithful m.spec.memorySize m.timeline

/-- The protocol is coherent with the requests that have ended, none of which comes from a place of
this cycle after `k`. -/
structure Settled (k : Nat) (m : Machine g n) : Prop where
  sound : m.Sound
  usable : m.spec.Usable
  coherent : m.view.Coherent (valueOf m.timeline)
  recorded : m.Recorded
  past : ∀ e ∈ m.timeline, e.ended.cycle < m.now ∨
    (e.ended.cycle = m.now ∧ (Agent.cache e.core).slot < k)

/-- **What holds between two turns**, when the places of the cycle before `k` are over. -/
structure Running (k : Nat) (m : Machine g n) : Prop extends Settled k m where
  timed : m.queue.Timed k
  quiet : m.bus.shared = false ∧ m.bus.claimed = false
  spoken : ∀ t, m.bus.current = some t → t.func ≠ .nothing
  fresh : ∀ i, m.view.Fresh i → (Agent.cache i).slot < k
  sends : ∀ j : Fin n, m.forwarders[j].parked ∨ (m.now, .forwarder j) ∈ m.queue.pending ∨
    ((m.now + 1, .forwarder j) ∈ m.queue.pending ∧ m.bus.current ≠ none)
  takes : ∀ (i : Fin n) a, m.caches[i].stage = .taken a → (m.now, .cache i) ∈ m.queue.pending ∨
    (m.view.Fresh i ∧ (m.now + 1, .cache i) ∈ m.queue.pending)

/-! ## The requests that end -/

theorem lands_of_lt {m : Machine g n} (h : m.Sound) (hu : m.spec.Usable) {a : Addr}
    (ha : a.val < m.spec.memorySize) : m.memory.lands a := by
  have hl := hu.line_le ha
  rw [← h.capacity] at hl
  exact decide_eq_true hl

theorem word_of_coherent {m : Machine g n} {V : View n} (h : V.Coherent (valueOf m.timeline))
    {i : Fin n} {a : Addr} (hd : (V.copy i a).1.hasData) (hl : V.lands a) (w : Fin lineWords) :
    (V.copy i a).2[w] = lastWrite m.timeline a w := by
  obtain ⟨v, hv, he⟩ := h.agrees a
  rw [hv.copies i hd, he hl, getElem_valueOf]

theorem timeline_congr {m m' : Machine g n} (h : m'.entries = m.entries) :
    m'.timeline = m.timeline := by
  rw [timeline, timeline, h]

section Advance

variable {k : Nat} {m m' : Machine g n} {p : Agent (Fin n)}

theorem Settled.before (h : Settled k m) {i : Fin n} (hk : k ≤ (Agent.cache i).slot) {r : Request}
    {v : Word} {hit : Bool} {e : Entry n} (he : e ∈ m.timeline) :
    e.Before ⟨i, ⟨r, v, hit, m.now⟩⟩ := by
  refine (h.past e he).imp_right fun ⟨hn, hs⟩ => ⟨hn, ?_⟩
  simp only [Agent.slot] at hs hk
  show (e.core : Nat) < i
  omega

/-- **A turn keeps the protocol coherent with the requests that have ended.** -/
theorem Settled.advance (h : Settled k m) (hk : k ≤ p.slot) (ht : m.Took p m') :
    Settled (p.slot + 1) m' := by
  have hpast : ∀ e ∈ m.timeline, e.ended.cycle < m'.now ∨
      (e.ended.cycle = m'.now ∧ (Agent.cache e.core).slot < p.slot + 1) := fun e he => by
    rw [ht.now]
    exact (h.past e he).imp_right fun ⟨hn, hs⟩ => ⟨hn, by omega⟩
  have hu : m'.spec.Usable := ht.spec ▸ h.usable
  cases ht.advance with
  | still hv he =>
    have htime := timeline_congr he
    refine ⟨ht.sound, hu, ?_, ⟨?_, ?_⟩, ?_⟩
    · rw [hv, htime]
      exact h.coherent
    · rw [htime]
      exact h.recorded.ordered
    · rw [htime, ht.spec]
      exact h.recorded.faithful
    · rw [htime]
      exact hpast
  | turn hturn he =>
    have htime := timeline_congr he
    refine ⟨ht.sound, hu, ?_, ⟨?_, ?_⟩, ?_⟩
    · rw [htime]
      exact View.coherent_turn m.lawful_view h.coherent hturn
    · rw [htime]
      exact h.recorded.ordered
    · rw [htime, ht.spec]
      exact h.recorded.faithful
    · rw [htime]
      exact hpast
  | @finish i r hit hp hturn hd he =>
    rw [hp] at hk
    have htime := timeline_append he h.recorded.ordered fun x hx => h.before hk hx
    have hmem : ∀ {e}, e ∈ m'.timeline →
        e ∈ m.timeline ∨ e = ⟨i, ⟨r, r.result (m.view.copy i r.addr).2, hit, m.now⟩⟩ := fun hx => by
      rwa [htime, List.mem_append, List.mem_singleton] at hx
    refine ⟨ht.sound, hu, ?_, ⟨?_, ?_⟩, fun e hx => ?_⟩
    · have hv := View.coherent_turn m.lawful_view h.coherent hturn
      have hvalue : valueOf m'.timeline = fun a => r.update a (valueOf m.timeline a) := by
        funext a
        rw [htime, valueOf_append]
      rw [hvalue]
      exact hv
    · rw [htime]
      exact List.pairwise_append.mpr ⟨h.recorded.ordered, List.pairwise_singleton _ _,
        fun x hx y hy => List.mem_singleton.mp hy ▸ h.before hk hx⟩
    · rw [htime, ht.spec]
      refine faithful_append h.recorded.faithful fun a ha hlt => ?_
      obtain rfl : r = .read a := ha
      exact word_of_coherent h.coherent hd (lands_of_lt h.sound h.usable hlt) a.word
    · obtain hx | rfl := hmem hx
      · exact hpast e hx
      · refine .inr ⟨ht.now.symm, ?_⟩
        rw [hp]
        exact Nat.lt_succ_self _

end Advance

/-! ## Turns -/

section Took

variable {m m' : Machine g n} {p : Agent (Fin n)} (h : m.Took p m')

include h

theorem Took.current_eq {t : Transfer} (hc : m.bus.current = some t) :
    m'.bus.current = some t := by
  obtain he | ⟨hb, -⟩ := h.drives
  · rw [he, hc]
  · cases hb.symm.trans hc

theorem Took.fresh {i : Fin n} (hf : m.view.Fresh i) : m'.view.Fresh i := by
  obtain ⟨t, hc, ht⟩ := hf
  exact ⟨t, h.current_eq hc, ht⟩

theorem Took.of_fresh {i : Fin n} (hf : m'.view.Fresh i) : m.view.Fresh i ∨ p = .cache i := by
  obtain ⟨t, hc, hi, hr⟩ := hf
  obtain he | ⟨-, u, hu, -, hq⟩ := h.drives
  · exact .inl ⟨t, he.symm.trans hc, hi, hr⟩
  · cases hu.symm.trans hc
    obtain ⟨j, hp, hj⟩ := hq hr
    rw [hp, Fin.ext (hj.symm.trans hi)]
    exact .inr rfl

end Took

section Running

variable {k : Nat} {m m' : Machine g n} {p : Agent (Fin n)} {q : WakeQueue (Agent (Fin n))}
  (h : Running k m) (hq : m.queue.fetch = .ok (some (p, q)))

include h hq

theorem Running.settled : Settled k { m with queue := q } where
  sound := h.sound.congr rfl rfl rfl rfl
  usable := h.usable
  coherent := h.coherent
  recorded := ⟨h.recorded.ordered, h.recorded.faithful⟩
  past e he := by
    show e.ended.cycle < q.now ∨ (e.ended.cycle = q.now ∧ _)
    rw [WakeQueue.now_of_fetch hq]
    exact h.past e he

/-- On a free bus every forwarder has found its queue empty by the time the caches have their
turns. -/
theorem Running.jobs_eq_nil {i : Fin n} (hp : p = .cache i) (hb : m.bus.current = none)
    (j : Fin n) : m.view.jobs j = [] := by
  obtain ⟨-, htimed⟩ := WakeQueue.timed_fetch hq h.timed
  obtain ⟨-, hpending⟩ := WakeQueue.fetch_eq_some hq
  have hempty : m.forwarders[j].queue = [] := by
    obtain hs | hs | ⟨-, hs⟩ := h.sends j
    · exact h.sound.resting j hs
    · rw [hpending, List.mem_cons] at hs
      obtain hs | hs := hs
      · cases (Prod.mk.inj hs).2.trans hp
      · have hnow : q.now = m.now := WakeQueue.now_of_fetch hq
        rw [← hnow] at hs
        have := htimed.later _ hs
        rw [hp] at this
        simp only [Agent.slot] at this
        omega
    · exact absurd hb hs
  show m.forwarders[j].queue.filter _ = []
  rw [hempty, List.filter_nil]

theorem Running.took (hr : { m with queue := q }.runAgent p = .ok m') :
    Took { m with queue := q } p m' := by
  obtain ⟨hk, htimed⟩ := WakeQueue.timed_fetch hq h.timed
  refine took_runAgent (h.settled hq).sound htimed h.coherent (fun i hp hf => ?_)
    (fun i hp => h.jobs_eq_nil hq hp) hr
  have := h.fresh i hf
  rw [hp] at hk
  omega

/-- **A turn keeps what holds between turns.** -/
theorem running_turn (hr : { m with queue := q }.runAgent p = .ok m') :
    Running (p.slot + 1) m' := by
  obtain ⟨hk, -⟩ := WakeQueue.timed_fetch hq h.timed
  obtain ⟨-, hpending⟩ := WakeQueue.fetch_eq_some hq
  have ht := h.took hq hr
  have hnow : q.now = m.now := WakeQueue.now_of_fetch hq
  have hwaits : ∀ {e}, e ∈ m.queue.pending → e ≠ (m.now, p) → e ∈ m'.queue.pending :=
    fun he hne => by
      rw [hpending, List.mem_cons] at he
      exact ht.waits _ (he.resolve_left hne)
  have hnow' : m'.now = m.now := ht.now.trans hnow
  have hlater : ∀ {p'}, (m.now + 1, p') ∈ m.queue.pending → (m.now + 1, p') ∈ m'.queue.pending :=
    fun he => hwaits he fun e => absurd (Prod.mk.inj e).1 (Nat.succ_ne_self _)
  refine { (h.settled hq).advance hk ht with
    timed := ht.timed
    quiet := ⟨ht.band.shared.trans h.quiet.1, ht.band.claimed.trans h.quiet.2⟩
    spoken := fun t hc => ?_
    fresh := fun i hf => ?_
    sends := fun j => ?_
    takes := fun i a hs => ?_ }
  · obtain he | ⟨-, u, hu, hn, -⟩ := ht.drives
    · exact h.spoken t (he.symm.trans hc)
    · cases hu.symm.trans hc
      exact hn
  · obtain hf | hp := ht.of_fresh hf
    · exact Nat.lt_succ_of_le (Nat.le_trans (Nat.le_of_lt (h.fresh i hf)) hk)
    · rw [hp]
      exact Nat.lt_succ_self _
  · rw [hnow']
    obtain ⟨hp, he⟩ | ⟨rfl, hs⟩ := ht.sends j
    · rw [he]
      refine (h.sends j).imp_right (Or.imp (fun hs => ?_) fun ⟨hs, hb⟩ => ⟨hlater hs, fun hn => ?_⟩)
      · exact hwaits hs fun e => hp (Prod.mk.inj e).2.symm
      · obtain ⟨t, hc⟩ := Option.ne_none_iff_exists'.mp hb
        cases (ht.current_eq hc).symm.trans hn
    · rw [← hnow]
      exact hs.imp_right .inr
  · rw [hnow']
    obtain ⟨hp, hs⟩ | ⟨rfl, hf, hs⟩ := ht.takes i a hs
    · refine (h.takes i a hs).imp (fun hs => ?_) fun ⟨hf, hs⟩ => ⟨ht.fresh hf, hlater hs⟩
      exact hwaits hs fun e => hp (Prod.mk.inj e).2.symm
    · rw [← hnow]
      exact .inr ⟨hf, hs⟩

end Running

theorem since_advance {s₀ : Fin n → Stage} {m m' : Machine g n} {p : Agent (Fin n)}
    (h : m.view.Since s₀) (ha : m.Advance p m') : m'.view.Since s₀ := by
  cases ha with
  | still hv _ => rwa [hv]
  | turn ht _ => exact View.since_turn h ht
  | finish _ ht _ _ => exact View.since_turn h ht

/-- **What holds when nothing is due any more.** -/
theorem running_runDue {s₀ : Fin n → Stage} {m m' : Machine g n} (h : Running 0 m)
    (hs : m.view.Since s₀) (hr : m.runDue = .ok m') :
    ∃ k, (Running k m' ∧ m'.view.Since s₀ ∧ m'.spec = m.spec ∧ m'.now = m.now) ∧
      ∀ e ∈ m'.queue.pending, m'.now < e.1 := by
  refine runDue_induct
    (P := fun k x => Running k x ∧ x.view.Since s₀ ∧ x.spec = m.spec ∧ x.now = m.now)
    (fun hx => hx.1.timed) ?_ ⟨h, hs, rfl, rfl⟩ hr
  rintro k x p q x' ⟨hx, hsx, hspec, hnow⟩ hq hr
  have ht := hx.took hq hr
  exact ⟨running_turn hx hq hr, since_advance (m := { x with queue := q }) hsx ht.advance,
    ht.spec.trans hspec, (ht.now.trans (WakeQueue.now_of_fetch hq)).trans hnow⟩

end Snooping.Machine
