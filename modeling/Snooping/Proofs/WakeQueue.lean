import Mathlib.Tactic.Common
import Std.Data.ExtTreeSet
import Snooping.Proofs.Fault
import Snooping.Proofs.History
import Snooping.Proofs.WakeQueue.Backlog

/-!
# The wake-up queue is an ordered set

For any messages with a lawful order, the queue answers as a set of pairs with a clock does:
whatever it is asked and however the clock is set, it comes to the same answers and breaks off with
the same faults. So does a queue over a heap, though it drops the copies of a pair only when the
pair comes out. A pair that was scheduled waits until it is delivered, and it is delivered once.

* **`WakeQueue.Op`**, `WakeQueue.perform`, `WakeQueue.answers`: the calls, and what they come to.
* **`Agenda`**, `Agenda.perform`: the ordered set with a clock.
* `WakeQueue.Agrees`: a call of two of them; **`WakeQueue.answers_eq`**: all calls.
* `WakeQueue.Matches.perform`: the queue and the set; `Backlog.StandsFor.perform`: the heap and the
  queue.
* **`WakeQueue.Waits`**, `WakeQueue.mem_pending_iff`: who waits, by the calls so far.
* **`WakeQueue.refines_agenda`**: the queue as a set, and what comes out of it.
-/

namespace Snooping

variable {α σ τ : Type}

namespace WakeQueue

/-! ## Calls -/

/-- **A call of the queue.** -/
inductive Op (α : Type)
  | send (delay : Nat) (m : α)
  | schedule (t : Nat) (m : α)
  | setTime (t : Nat)
  | isDue
  | nextTime
  | isEmpty
  | fetch
  deriving DecidableEq

/-- What a call answers. -/
inductive Answer (α : Type)
  | done
  | flag (b : Bool)
  | time (t : Option Nat)
  | message (m : Option α)
  deriving DecidableEq

/-- **Makes a call.** -/
def perform [Ord α] (q : WakeQueue α) : Op α → Except Fault (Answer α × WakeQueue α)
  | .send delay m => (q.send delay m).map (.done, ·)
  | .schedule t m => (q.schedule t m).map (.done, ·)
  | .setTime t => .ok (.done, q.setTime t)
  | .isDue => q.isDue.map (.flag ·, q)
  | .nextTime => .ok (.time q.nextTime, q)
  | .isEmpty => .ok (.flag q.isEmpty, q)
  | .fetch => q.fetch.map fun
    | none => (.message none, q)
    | some (m, q') => (.message (some m), q')

/-- **What the calls come to**, one after the other; a fault is the end of them. -/
def answers (perform : σ → Op α → Except Fault (Answer α × σ)) :
    σ → List (Op α) → List (Except Fault (Answer α))
  | _, [] => []
  | s, op :: ops =>
    match perform s op with
    | .error f => [.error f]
    | .ok (a, s') => .ok a :: answers perform s' ops

/-- Two calls come to the same answer, and their states belong together afterwards. -/
inductive Agrees (R : σ → τ → Prop) :
    Except Fault (Answer α × σ) → Except Fault (Answer α × τ) → Prop
  | fault (f : Fault) : Agrees R (.error f) (.error f)
  | answer (a : Answer α) {s : σ} {t : τ} (h : R s t) : Agrees R (.ok (a, s)) (.ok (a, t))

/-- **Whatever they are asked, they answer the same** if they do so call by call. -/
theorem answers_eq {R : σ → τ → Prop} {f : σ → Op α → Except Fault (Answer α × σ)}
    {f' : τ → Op α → Except Fault (Answer α × τ)}
    (hcall : ∀ {s t}, R s t → ∀ op, Agrees R (f s op) (f' t op)) {s : σ} {t : τ} (h : R s t)
    (ops : List (Op α)) : answers f s ops = answers f' t ops := by
  induction ops generalizing s t with
  | nil => rfl
  | cons op ops ih =>
    unfold answers
    have hop := hcall h op
    generalize f s op = x, f' t op = y at hop
    cases hop with
    | fault e => rfl
    | answer a h' => exact congrArg (Except.ok a :: ·) (ih h')

end WakeQueue

/-! ## The ordered set -/

/-- A pair comes before another one by its cycle, and then by its message. -/
def Agenda.order [Ord α] (x y : Nat × α) : Ordering :=
  (compare x.1 y.1).then (compare x.2 y.2)

/-- **An ordered set of pairs** of a cycle and a message, with a clock. -/
structure Agenda (α : Type) [Ord α] where
  now : Nat
  pairs : Std.ExtTreeSet (Nat × α) Agenda.order

namespace Agenda

open WakeQueue (Op Answer)

variable [Ord α] [Std.TransOrd α]

instance : Std.TransCmp (order (α := α)) :=
  inferInstanceAs (Std.TransCmp (WakeQueue.comparePair (α := α)))

def empty : Agenda α := ⟨0, ∅⟩

/-- A pair is put into the set, unless its cycle is over. -/
def insert (s : Agenda α) (t : Nat) (m : α) : Except Fault (Agenda α) :=
  if t < s.now then .error .scheduledInPast else .ok { s with pairs := s.pairs.insert (t, m) }

/-- The least pair if its cycle is now; its cycle must not be over. -/
def due (s : Agenda α) : Except Fault (Option (Nat × α)) :=
  match s.pairs.min? with
  | none => .ok none
  | some p =>
    if p.1 < s.now then .error .missedMessage else .ok (if p.1 = s.now then some p else none)

/-- **Makes a call** of the set. -/
def perform (s : Agenda α) : Op α → Except Fault (Answer α × Agenda α)
  | .send delay m =>
    if s.now + delay < UInt64.size then (s.insert (s.now + delay) m).map (.done, ·)
    else .error .overflow
  | .schedule t m => (s.insert t m).map (.done, ·)
  | .setTime t => .ok (.done, { s with now := t })
  | .isDue => s.due.map fun p => (.flag p.isSome, s)
  | .nextTime => .ok (.time (s.pairs.min?.map Prod.fst), s)
  | .isEmpty => .ok (.flag s.pairs.isEmpty, s)
  | .fetch => s.due.map fun
    | none => (.message none, s)
    | some p => (.message (some p.2), { s with pairs := s.pairs.erase p })

end Agenda

namespace WakeQueue

section Matching

variable [Ord α] [Std.TransOrd α]

/-- **A queue and a set with the same pairs** and the same clock. -/
structure Matches (q : WakeQueue α) (s : Agenda α) : Prop where
  now : s.now = q.now
  sorted : q.pending.Pairwise fun x y => comparePair x y = .lt
  mem : ∀ p, p ∈ s.pairs ↔ p ∈ q.pending

theorem matches_empty : Matches (empty : WakeQueue α) Agenda.empty :=
  ⟨rfl, .nil, fun p => by simp [empty, Agenda.empty]⟩

variable [Std.LawfulEqOrd α] {q : WakeQueue α} {s : Agenda α}

instance : Std.LawfulEqCmp (Agenda.order (α := α)) where
  eq_of_compare := eq_of_comparePair

namespace Matches

variable (h : Matches q s)

include h

theorem min? : s.pairs.min? = q.pending.head? := by
  cases hq : q.pending with
  | nil =>
    rw [List.head?_nil, Std.ExtTreeSet.min?_eq_none_iff]
    apply Std.ExtTreeSet.ext_mem
    intro p
    simp [h.mem, hq]
  | cons x xs =>
    have hs := hq ▸ h.sorted
    rw [List.head?_cons, Std.ExtTreeSet.min?_eq_some_iff_mem_and_forall]
    refine ⟨(h.mem x).mpr (by simp [hq]), fun y hy => ?_⟩
    rw [h.mem, hq] at hy
    rcases List.mem_cons.mp hy with rfl | hy
    · exact Std.ReflCmp.isLE_rfl
    · have hlt : Agenda.order x y = .lt := (List.pairwise_cons.mp hs).1 y hy
      rw [hlt]
      rfl

theorem isEmpty : s.pairs.isEmpty = q.isEmpty := by
  have hmin := h.min?
  rw [Bool.eq_iff_iff, Std.ExtTreeSet.isEmpty_iff, ← Std.ExtTreeSet.min?_eq_none_iff, hmin]
  simp [WakeQueue.isEmpty]

theorem schedule (t : Nat) (m : α) :
    Agrees Matches (q.perform (.schedule t m)) (s.perform (.schedule t m)) := by
  simp only [WakeQueue.perform, Agenda.perform, WakeQueue.schedule, Agenda.insert, h.now]
  by_cases ht : q.now ≤ t
  · rw [if_pos ht, if_neg (Nat.not_lt.mpr ht)]
    refine .answer .done ⟨rfl, sorted_insertPair h.sorted, fun p => ?_⟩
    rw [Std.ExtTreeSet.mem_insert, mem_insertPair, h.mem, Std.LawfulEqCmp.compare_eq_iff_eq]
    exact or_congr_left eq_comm
  · rw [if_neg ht, if_pos (Nat.not_le.mp ht)]
    exact .fault .scheduledInPast

theorem erase {x : Nat × α} {xs : List (Nat × α)} (hq : q.pending = x :: xs) :
    Matches { q with pending := xs } ⟨q.now, s.pairs.erase x⟩ := by
  have hs := List.pairwise_cons.mp (hq ▸ h.sorted)
  refine ⟨rfl, hs.2, fun p => ?_⟩
  rw [Std.ExtTreeSet.mem_erase, h.mem, hq, List.mem_cons]
  show Agenda.order x p ≠ .eq ∧ _ ↔ p ∈ xs
  constructor
  · rintro ⟨hne, rfl | hp⟩
    · exact absurd Std.ReflCmp.compare_self hne
    · exact hp
  · intro hp
    have hlt : Agenda.order x p = .lt := hs.1 p hp
    rw [hlt]
    exact ⟨by simp, .inr hp⟩

theorem perform (op : Op α) : Agrees Matches (q.perform op) (s.perform op) := by
  cases op with
  | send delay m =>
    simp only [WakeQueue.perform, Agenda.perform, send, sum64, h.now]
    split_ifs
    · exact h.schedule (q.now + delay) m
    · exact .fault .overflow
  | schedule t m => exact h.schedule t m
  | setTime t => exact .answer .done ⟨rfl, h.sorted, h.mem⟩
  | isDue =>
    simp only [WakeQueue.perform, Agenda.perform, isDue, Agenda.due, nextTime, h.min?, h.now]
    cases hq : q.pending with
    | nil => exact .answer (.flag false) h
    | cons x xs =>
      simp only [List.head?_cons, Option.map_some]
      split_ifs with hlt heq
      · exact .fault .missedMessage
      · rw [heq, beq_self_eq_true]
        exact .answer (.flag true) h
      · rw [beq_false_of_ne heq]
        exact .answer (.flag false) h
  | nextTime =>
    simp only [WakeQueue.perform, Agenda.perform, nextTime, h.min?]
    exact .answer _ h
  | isEmpty =>
    simp only [WakeQueue.perform, Agenda.perform, h.isEmpty]
    exact .answer _ h
  | fetch =>
    simp only [WakeQueue.perform, Agenda.perform, fetch, Agenda.due, h.min?, h.now]
    cases hq : q.pending with
    | nil => exact .answer (.message none) h
    | cons x xs =>
      simp only [List.head?_cons]
      split_ifs with hlt heq
      · exact .fault .missedMessage
      · exact .answer (.message (some x.2)) (h.erase hq)
      · exact .answer (.message none) h

end Matches

end Matching

end WakeQueue

/-! ## The queue over a heap -/

namespace Backlog

open WakeQueue (Agrees Answer Op)

/-- **Makes a call** of a backlog. -/
def perform [Ord α] (b : Backlog α) : Op α → Except Fault (Answer α × Backlog α)
  | .send delay m => (b.send delay m).map (.done, ·)
  | .schedule t m => (b.schedule t m).map (.done, ·)
  | .setTime t => .ok (.done, b.setTime t)
  | .isDue => b.isDue.map (.flag ·, b)
  | .nextTime => .ok (.time b.nextTime, b)
  | .isEmpty => .ok (.flag b.isEmpty, b)
  | .fetch => b.fetch.map fun
    | none => (.message none, b)
    | some (m, b') => (.message (some m), b')

variable [Ord α] {b : Backlog α} {q : WakeQueue α}

/-- **A heap in order stands for the queue** with its pairs. -/
structure StandsFor (b : Backlog α) (q : WakeQueue α) : Prop where
  sorted : b.heap.Pairwise Precedes
  queue : q = b.queue

theorem standsFor_empty : StandsFor (empty : Backlog α) .empty := ⟨.nil, rfl⟩

namespace StandsFor

variable [Std.TransOrd α] [Std.LawfulEqOrd α] (h : b.StandsFor q)

include h

theorem head? : q.pending.head? = b.heap.head? := by
  rw [h.queue]
  exact head?_condense h.sorted

omit [Std.TransOrd α] [Std.LawfulEqOrd α] in
theorem now : q.now = b.now := by
  rw [h.queue]
  rfl

theorem nextTime : q.nextTime = b.nextTime := congrArg (Option.map Prod.fst) h.head?

theorem isEmpty : q.isEmpty = b.isEmpty := by
  rw [WakeQueue.isEmpty, Backlog.isEmpty, Bool.eq_iff_iff, List.isEmpty_iff, List.isEmpty_iff,
    ← List.head?_eq_none_iff, h.head?, List.head?_eq_none_iff]

theorem isDue : q.isDue = b.isDue := by
  rw [WakeQueue.isDue, Backlog.isDue, h.nextTime, h.now]
  cases b.nextTime with
  | none => rfl
  | some t =>
    dsimp only
    obtain hlt | rfl | hlt := Nat.lt_trichotomy t b.now
    · rw [if_pos hlt, if_neg (Nat.ne_of_lt hlt), if_neg (Nat.lt_asymm hlt)]
    · rw [if_neg (Nat.lt_irrefl _), if_pos rfl, beq_self_eq_true]
    · rw [if_neg (Nat.lt_asymm hlt), if_neg (Nat.ne_of_gt hlt), if_pos hlt,
        beq_false_of_ne (Nat.ne_of_gt hlt)]

theorem schedule (t : Nat) (m : α) :
    Agrees StandsFor (b.perform (.schedule t m)) (q.perform (.schedule t m)) := by
  simp only [Backlog.perform, WakeQueue.perform, Backlog.schedule, WakeQueue.schedule, h.now]
  split_ifs
  · refine .answer .done ⟨h.sorted.orderedInsert _ _, ?_⟩
    show _ = WakeQueue.mk b.now (condense (b.heap.orderedInsert Precedes (t, m)))
    rw [condense_orderedInsert, h.queue]
    rfl
  · exact .fault .scheduledInPast

theorem fetch : Agrees StandsFor (b.perform .fetch) (q.perform .fetch) := by
  have hkept := h
  obtain ⟨now, heap⟩ := b
  obtain ⟨hs, rfl⟩ := h
  cases heap with
  | nil => exact .answer (.message none) hkept
  | cons p rest =>
    obtain ⟨t, m⟩ := p
    rw [queue_cons now hs] at hkept ⊢
    simp only [Backlog.perform, WakeQueue.perform, Backlog.fetch, Backlog.isDue, Backlog.nextTime,
      WakeQueue.fetch, List.head?_cons, Option.map_some]
    obtain hlt | rfl | hlt := Nat.lt_trichotomy t now
    · rw [if_pos hlt, if_neg (Nat.ne_of_lt hlt), if_neg (Nat.lt_asymm hlt)]
      exact .fault .missedMessage
    · simp only [Nat.lt_irrefl, if_true, if_false]
      refine Agrees.answer (.message (some m)) ?_
      exact ⟨hs.of_cons.sublist (List.dropWhile_sublist _), rfl⟩
    · rw [if_neg (Nat.lt_asymm hlt), if_neg (Nat.ne_of_gt hlt), if_neg (Nat.ne_of_gt hlt),
        if_pos hlt]
      exact .answer (.message none) hkept

theorem perform (op : Op α) : Agrees StandsFor (b.perform op) (q.perform op) := by
  cases op with
  | send delay m =>
    simp only [Backlog.perform, WakeQueue.perform, send, WakeQueue.send, sum64, h.now]
    split_ifs
    · exact h.schedule (b.now + delay) m
    · exact .fault .overflow
  | schedule t m => exact h.schedule t m
  | setTime t => exact .answer .done ⟨h.sorted, by rw [h.queue]; rfl⟩
  | isDue =>
    simp only [Backlog.perform, WakeQueue.perform, h.isDue]
    cases b.isDue with
    | error f => exact .fault f
    | ok d => exact .answer (.flag d) h
  | nextTime =>
    simp only [Backlog.perform, WakeQueue.perform, h.nextTime]
    exact .answer _ h
  | isEmpty =>
    simp only [Backlog.perform, WakeQueue.perform, h.isEmpty]
    exact .answer _ h
  | fetch => exact h.fetch

end StandsFor

end Backlog

/-! ## What comes out -/

namespace WakeQueue

variable {q q' : WakeQueue α} {l : List (WakeQueue α × Op α)} {p : Nat × α} {m : α}

/-- The pair that a call schedules. -/
def scheduled? (e : WakeQueue α × Op α) : Option (Nat × α) :=
  match e.2 with
  | .send delay m => some (e.1.now + delay, m)
  | .schedule t m => some (t, m)
  | .setTime _ | .isDue | .nextTime | .isEmpty | .fetch => none

/-- The pair that a call delivers. -/
def delivered? (e : WakeQueue α × Op α) : Option (Nat × α) :=
  match e.2, e.1.fetch with
  | .fetch, .ok (some (m, _)) => some (e.1.now, m)
  | _, _ => none

/-- **A pair waits**: it was scheduled, and it was not delivered since. -/
def Waits (l : List (WakeQueue α × Op α)) (p : Nat × α) : Prop :=
  ∃ before e after, l = before ++ e :: after ∧ scheduled? e = some p ∧
    ∀ x ∈ after, delivered? x ≠ some p

theorem waits_concat (l : List (WakeQueue α × Op α)) (e : WakeQueue α × Op α) (p : Nat × α) :
    Waits (l ++ [e]) p ↔ scheduled? e = some p ∨ (Waits l p ∧ delivered? e ≠ some p) := by
  constructor
  · rintro ⟨before, x, after, hl, hx, hafter⟩
    rcases List.eq_nil_or_concat after with rfl | ⟨as, y, rfl⟩
    · obtain ⟨-, hlast⟩ := List.append_inj' hl rfl
      cases hlast
      exact .inl hx
    · rw [List.concat_eq_append, ← List.cons_append, ← List.append_assoc] at hl
      obtain ⟨hinit, hlast⟩ := List.append_inj' hl rfl
      cases hlast
      refine .inr ⟨⟨before, x, as, hinit, hx, fun z hz => hafter z ?_⟩, hafter e ?_⟩
      · simp [hz]
      · simp
  · rintro (he | ⟨⟨before, x, after, rfl, hx, hafter⟩, he⟩)
    · exact ⟨l, e, [], rfl, he, by simp⟩
    · refine ⟨before, x, after ++ [e], by simp, hx, fun z hz => ?_⟩
      rcases List.mem_append.mp hz with hz | hz
      · exact hafter z hz
      · rwa [List.mem_singleton.mp hz]

theorem delivered?_eq_some {e : WakeQueue α × Op α} (h : delivered? e = some p) :
    scheduled? e = none := by
  obtain ⟨q, op⟩ := e
  cases op with
  | fetch => rfl
  | send | schedule | setTime | isDue | nextTime | isEmpty => cases h

variable [Ord α]

/-- Makes a call, whatever it answers. -/
def play (q : WakeQueue α) (op : Op α) : Except Fault (WakeQueue α) :=
  (q.perform op).map Prod.snd

theorem pending_of_scheduled {op : Op α} (h : q.play op = .ok q')
    (hp : scheduled? (q, op) = some p) : q'.pending = insertPair p q.pending := by
  have put {t : Nat} {m : α} (hs : q.schedule t m = .ok q') :
      q'.pending = insertPair (t, m) q.pending := by
    unfold schedule at hs
    split at hs
    · cases hs
      rfl
    · cases hs
  obtain ⟨⟨a, x⟩, hx, rfl⟩ := map_eq_ok.mp h
  cases op with
  | send delay m =>
    cases hp
    obtain ⟨y, hy, hax⟩ := map_eq_ok.mp hx
    cases hax
    unfold send at hy
    cases hsum : sum64 q.now delay with
    | error f =>
      rw [hsum] at hy
      cases hy
    | ok t =>
      rw [hsum] at hy
      rw [(sum64_eq_ok.mp hsum).1]
      exact put hy
  | schedule t m =>
    cases hp
    obtain ⟨y, hy, hax⟩ := map_eq_ok.mp hx
    cases hax
    exact put hy
  | setTime | isDue | nextTime | isEmpty | fetch => cases hp

theorem pending_of_not_scheduled {op : Op α} (h : q.play op = .ok q')
    (hp : scheduled? (q, op) = none) : q.pending = (delivered? (q, op)).toList ++ q'.pending := by
  obtain ⟨⟨a, x⟩, hx, rfl⟩ := map_eq_ok.mp h
  cases op with
  | send | schedule => cases hp
  | setTime | nextTime | isEmpty =>
    cases hx
    rfl
  | isDue =>
    obtain ⟨b, -, hax⟩ := map_eq_ok.mp hx
    cases hax
    rfl
  | fetch =>
    obtain ⟨y, hy, hax⟩ := map_eq_ok.mp hx
    unfold delivered?
    rw [hy]
    cases y with
    | none =>
      cases hax
      rfl
    | some y =>
      cases hax
      exact (fetch_eq_some hy).2

variable [Std.TransOrd α] [Std.LawfulEqOrd α]

theorem sorted_pending (h : History play empty l q) :
    q.pending.Pairwise fun x y => comparePair x y = .lt := by
  induction h with
  | start => exact .nil
  | @call l q q' op h hx ih =>
    cases hs : scheduled? (q, op) with
    | some p =>
      rw [pending_of_scheduled hx hs]
      exact sorted_insertPair ih
    | none =>
      rw [pending_of_not_scheduled hx hs] at ih
      exact (List.pairwise_append.mp ih).2.1

/-- **Who waits** is what the queue holds. -/
theorem mem_pending_iff (h : History play empty l q) : p ∈ q.pending ↔ Waits l p := by
  induction h generalizing p with
  | start =>
    constructor
    · intro hp
      cases hp
    · rintro ⟨before, e, after, hl, -⟩
      simp at hl
  | @call l q q' op h hx ih =>
    rw [waits_concat, ← ih]
    cases hs : scheduled? (q, op) with
    | some x =>
      have hd : delivered? (q, op) ≠ some p := by
        intro hd
        rw [delivered?_eq_some hd] at hs
        cases hs
      rw [pending_of_scheduled hx hs, mem_insertPair, Option.some_inj, eq_comm]
      simp [hd]
    | none =>
      have hpending := pending_of_not_scheduled hx hs
      have hsorted := hpending ▸ sorted_pending h
      rw [hpending]
      cases hd : delivered? (q, op) with
      | none => simp
      | some x =>
        rw [hd] at hsorted
        have hfirst : p ∈ q'.pending → x ≠ p := by
          rintro hp rfl
          have hlt := (List.pairwise_cons.mp hsorted).1 x hp
          have heq : comparePair x x = .eq := Std.ReflCmp.compare_self
          cases heq.symm.trans hlt
        simp only [Option.toList_some, List.mem_append, List.mem_singleton, ne_eq, Option.some_inj]
        constructor
        · intro hp
          exact .inr ⟨.inr hp, hfirst hp⟩
        · rintro (hp | ⟨rfl | hp, hne⟩)
          · cases hp
          · exact absurd rfl hne
          · exact hp

/-- **What comes out of a queue**, by the calls so far. -/
structure Delivers (l : List (WakeQueue α × Op α)) (q : WakeQueue α) : Prop where
  /-- What comes out has waited, and comes before all else that waits. -/
  least : ∀ m q', q.fetch = .ok (some (m, q')) → Waits l (q.now, m) ∧
    ∀ p, Waits l p → p ≠ (q.now, m) → Agenda.order (q.now, m) p = .lt
  /-- If nothing comes out, all that waits does so for a later cycle. -/
  later : q.fetch = .ok none → ∀ p, Waits l p → q.now < p.1
  /-- A fault is a pair whose cycle is over. -/
  missed : ∀ f, q.fetch = .error f → f = .missedMessage ∧ ∃ p, Waits l p ∧ p.1 < q.now
  /-- Nothing is lost: an empty queue has delivered all that was scheduled. -/
  empty : q.isEmpty ↔ ∀ p, ¬ Waits l p

theorem delivers (h : History play empty l q) : Delivers l q := by
  have hsorted := sorted_pending h
  constructor
  case least =>
    intro m q' hf
    obtain ⟨-, hq⟩ := fetch_eq_some hf
    rw [hq] at hsorted
    refine ⟨(mem_pending_iff h).mp (by simp [hq]), fun p hp hne => ?_⟩
    rw [← mem_pending_iff h, hq] at hp
    exact (List.pairwise_cons.mp hsorted).1 p ((List.mem_cons.mp hp).resolve_left hne)
  case later =>
    intro hf p hp
    exact fetch_eq_none hf hsorted p ((mem_pending_iff h).mpr hp)
  case missed =>
    intro f hf
    obtain ⟨rfl, p, hp, hlt⟩ := fetch_eq_error hf
    exact ⟨rfl, p, (mem_pending_iff h).mp hp, hlt⟩
  case empty =>
    rw [isEmpty, List.isEmpty_iff, List.eq_nil_iff_forall_not_mem]
    simp only [mem_pending_iff h]

variable (α) in
/-- **The queue is an ordered set with a clock**: it answers all calls, one after the other, as the
set does, faults included, and so does a queue over a heap. What is scheduled comes out once, in
order, or is still waiting. -/
theorem refines_agenda :
    (∀ ops : List (Op α), answers perform empty ops = answers Agenda.perform Agenda.empty ops ∧
      answers Backlog.perform Backlog.empty ops = answers Agenda.perform Agenda.empty ops) ∧
      ∀ {l : List (WakeQueue α × Op α)} {q}, History play empty l q → Delivers l q := by
  refine ⟨fun ops => ?_, delivers⟩
  have hset := answers_eq (fun h => h.perform) (matches_empty (α := α)) ops
  exact ⟨hset, (answers_eq (fun h => h.perform) Backlog.standsFor_empty ops).trans hset⟩

/-- Numbers as messages: a pair that is scheduled twice comes out once, another message of the
cycle is scheduled while the cycle is drained, and the clock passes the last one. -/
theorem refines_agenda_nat : ∃ ops : List (Op Nat),
    answers perform (empty : WakeQueue Nat) ops = [.ok .done, .ok .done, .ok .done,
      .ok (.flag false), .ok .done, .ok (.message (some 1)), .ok .done, .ok (.message (some 7)),
      .ok (.message (some 8)), .ok (.message none), .ok .done, .ok .done, .error .missedMessage] ∧
    answers perform (empty : WakeQueue Nat) ops = answers Agenda.perform Agenda.empty ops ∧
    answers Backlog.perform (Backlog.empty : Backlog Nat) ops =
      answers Agenda.perform Agenda.empty ops ∧
    ∃ l q, History play (empty : WakeQueue Nat) l q ∧ q.pending = [(3, 7)] ∧ Delivers l q := by
  refine ⟨[.schedule 3 7, .schedule 3 7, .send 3 1, .isDue, .setTime 3, .fetch, .send 0 8, .fetch,
    .fetch, .fetch, .schedule 9 7, .setTime 10, .fetch], by decide, ((refines_agenda Nat).1 _).1,
    ((refines_agenda Nat).1 _).2, ?_⟩
  obtain ⟨l, q, h, hq⟩ := exists_history play (empty : WakeQueue Nat)
    [.schedule 3 7, .schedule 3 7, .send 3 1, .setTime 3, .fetch] (fun _ q => q.pending = [(3, 7)])
    (by decide)
  exact ⟨l, q, h, hq, (refines_agenda Nat).2 h⟩

end WakeQueue

end Snooping
