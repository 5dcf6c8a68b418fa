import Mathlib.Data.List.Sort
import Mathlib.Tactic.Common
import Snooping.WakeQueue

/-!
# A queue over a heap

The wake-up queue has a pair once, from the moment that it is scheduled. A queue over a heap takes
every pair that is scheduled, again and again, and drops the copies when the pair comes out. Nobody
can tell the difference.

* **`Backlog`**: the clock, and the heap.
* `Backlog.schedule`, `Backlog.fetch`: copies come in, and are dropped.
* `Backlog.condense`: the pairs of a heap without their copies.
* **`Backlog.condense_cons`**: what comes out of a heap, and what it leaves.
* `Backlog.queue`: the wake-up queue that a backlog stands for.
-/

namespace Snooping

open WakeQueue (comparePair insertPair)

variable {α : Type}

/-- **Messages waiting for the clock in a heap**, which has a pair as often as it was scheduled. -/
structure Backlog (α : Type) where
  /-- The current cycle. -/
  now : Nat
  /-- What waits, with repetitions, the earliest first. -/
  heap : List (Nat × α)

namespace Backlog

/-- A backlog at cycle 0 that nothing waits in. -/
def empty : Backlog α := ⟨0, []⟩

/-- A pair comes out no later than another one. -/
def Precedes [Ord α] (x y : Nat × α) : Prop := (comparePair x y).isLE

instance [Ord α] : DecidableRel (Precedes (α := α)) :=
  fun x y => inferInstanceAs (Decidable ((comparePair x y).isLE = true))

/-- The message waits for cycle `t`, which must not be over. -/
def schedule [Ord α] (b : Backlog α) (t : Nat) (m : α) : Except Fault (Backlog α) :=
  if b.now ≤ t then .ok { b with heap := b.heap.orderedInsert Precedes (t, m) }
  else .error .scheduledInPast

/-- The message waits for `delay` cycles. -/
def send [Ord α] (b : Backlog α) (delay : Nat) (m : α) : Except Fault (Backlog α) := do
  b.schedule (← sum64 b.now delay) m

/-- Sets the clock, forwards or backwards. -/
def setTime (b : Backlog α) (t : Nat) : Backlog α := { b with now := t }

/-- The cycle of the first pair. -/
def nextTime (b : Backlog α) : Option Nat := b.heap.head?.map Prod.fst

/-- Nothing waits. -/
def isEmpty (b : Backlog α) : Bool := b.heap.isEmpty

/-- Whether a message is due now. -/
def isDue (b : Backlog α) : Except Fault Bool :=
  match b.nextTime with
  | none => .ok false
  | some t =>
    if t = b.now then .ok true else if b.now < t then .ok false else .error .missedMessage

/-- **Takes out the first message that is due**, if there is one, and drops its copies. -/
def fetch [Ord α] (b : Backlog α) : Except Fault (Option (α × Backlog α)) := do
  if ← b.isDue then
    match b.heap with
    | [] => return none
    | p :: rest =>
      return some (p.2, { b with heap := rest.dropWhile fun x => comparePair x p = .eq })
  else return none

/-! ## The pairs of a heap -/

variable [Ord α] {l : List (Nat × α)} {p : Nat × α}

/-- **The pairs of a heap**, each of them once. -/
def condense (l : List (Nat × α)) : List (Nat × α) := l.foldr insertPair []

/-- The wake-up queue that a backlog stands for. -/
def queue (b : Backlog α) : WakeQueue α := ⟨b.now, condense b.heap⟩

theorem mem_condense [Std.LawfulEqOrd α] : p ∈ condense l ↔ p ∈ l := by
  induction l with
  | nil => rfl
  | cons x xs ih =>
    show p ∈ insertPair x (condense xs) ↔ _
    rw [WakeQueue.mem_insertPair, ih, List.mem_cons]

variable [Std.TransOrd α]

instance : IsTrans (Nat × α) Precedes := ⟨fun _ _ _ => Std.TransCmp.isLE_trans⟩

instance : Std.Total (Precedes (α := α)) where
  total x y := by
    have hswap : comparePair y x = (comparePair x y).swap := Std.OrientedCmp.eq_swap
    unfold Precedes
    rw [hswap]
    cases comparePair x y <;> simp

variable [Std.LawfulEqOrd α]

theorem sorted_condense (l : List (Nat × α)) :
    (condense l).Pairwise fun x y => comparePair x y = .lt := by
  induction l with
  | nil => exact .nil
  | cons x xs ih => exact WakeQueue.sorted_insertPair ih

theorem condense_orderedInsert (p : Nat × α) (l : List (Nat × α)) :
    condense (l.orderedInsert Precedes p) = insertPair p (condense l) := by
  have hasymm : Std.Asymm fun x y : Nat × α => comparePair x y = .lt :=
    ⟨fun x y h h' => by cases h'.symm.trans (Std.OrientedCmp.gt_of_lt h)⟩
  have hanti := hasymm.antisymm
  refine (sorted_condense _).eq_of_mem_iff (WakeQueue.sorted_insertPair (sorted_condense l)) ?_
  intro x
  rw [mem_condense, List.mem_orderedInsert, WakeQueue.mem_insertPair, mem_condense]

/-- **The first pair comes out of a heap** with all of its copies. -/
theorem condense_cons (h : (p :: l).Pairwise Precedes) :
    condense (p :: l) = p :: condense (l.dropWhile fun x => comparePair x p = .eq) := by
  induction l generalizing p with
  | nil => rfl
  | cons x xs ih =>
    obtain ⟨hp, hxs⟩ := List.pairwise_cons.mp h
    show insertPair p (condense (x :: xs)) = _
    rw [ih hxs, insertPair]
    have hle : (comparePair p x).isLE := hp x List.mem_cons_self
    cases hc : comparePair p x with
    | lt =>
      have hne : comparePair x p ≠ .eq := by
        rw [Std.OrientedCmp.gt_of_lt hc]
        decide
      rw [List.dropWhile_cons_of_neg (by simpa using hne), ih hxs]
    | eq =>
      cases WakeQueue.eq_of_comparePair hc
      rw [List.dropWhile_cons_of_pos (by simpa using hc)]
    | gt =>
      rw [hc] at hle
      cases hle

theorem queue_cons (now : Nat) (h : (p :: l).Pairwise Precedes) : queue ⟨now, p :: l⟩ =
    ⟨now, p :: condense (l.dropWhile fun x => comparePair x p = .eq)⟩ :=
  congrArg (WakeQueue.mk now) (condense_cons h)

theorem head?_condense (h : l.Pairwise Precedes) : (condense l).head? = l.head? := by
  cases l with
  | nil => rfl
  | cons p l => rw [condense_cons h, List.head?_cons, List.head?_cons]

end Backlog

end Snooping
