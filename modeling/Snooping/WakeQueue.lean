import Snooping.Fault

/-!
# The wake-up queue

A clock, and the messages that wait for it. A message waits once for each cycle however often it
is scheduled for it, and comes out at its cycle, after the smaller messages of that cycle.

* **`WakeQueue`**: the clock and the pending pairs of a cycle and a message, in order.
* `WakeQueue.schedule`, `WakeQueue.send`: wait for a cycle, or for a delay.
* `WakeQueue.fetch`: the first message of the current cycle.
* `mem_insertPair`, `sorted_insertPair`: the pending pairs are a set, kept in order.

A pair before the clock can no longer come out: to schedule one is a fault, and so is to find one.
-/

namespace Snooping

/-- **Messages waiting for the clock.** -/
structure WakeQueue (α : Type) where
  /-- The current cycle. -/
  now : Nat
  /-- What waits, without repetition, by cycle and then by message. -/
  pending : List (Nat × α)

namespace WakeQueue

variable {α : Type}

/-- A queue at cycle 0 that nothing waits in. -/
def empty : WakeQueue α := ⟨0, []⟩

/-- The order in which pairs come out. -/
def comparePair [Ord α] : Nat × α → Nat × α → Ordering :=
  compareLex (compareOn Prod.fst) (compareOn Prod.snd)

/-- A pair put into its place, unless it is there already. -/
def insertPair [Ord α] (p : Nat × α) : List (Nat × α) → List (Nat × α)
  | [] => [p]
  | q :: qs =>
    match comparePair p q with
    | .lt => p :: q :: qs
    | .eq => q :: qs
    | .gt => q :: insertPair p qs

/-- The message waits for cycle `t`, which must not be over. -/
def schedule [Ord α] (q : WakeQueue α) (t : Nat) (m : α) : Except Fault (WakeQueue α) :=
  if q.now ≤ t then .ok { q with pending := insertPair (t, m) q.pending }
  else .error .scheduledInPast

/-- The message waits for `delay` cycles. -/
def send [Ord α] (q : WakeQueue α) (delay : Nat) (m : α) : Except Fault (WakeQueue α) := do
  q.schedule (← sum64 q.now delay) m

/-- Sets the clock, forwards or backwards. -/
def setTime (q : WakeQueue α) (t : Nat) : WakeQueue α := { q with now := t }

/-- The cycle of the first pair. -/
def nextTime (q : WakeQueue α) : Option Nat := q.pending.head?.map Prod.fst

/-- Nothing waits. -/
def isEmpty (q : WakeQueue α) : Bool := q.pending.isEmpty

/-- Whether a message is due now. -/
def isDue (q : WakeQueue α) : Except Fault Bool :=
  match q.nextTime with
  | none => .ok false
  | some t => if t < q.now then .error .missedMessage else .ok (t == q.now)

/-- **Takes out the first message that is due**, if there is one. -/
def fetch (q : WakeQueue α) : Except Fault (Option (α × WakeQueue α)) :=
  match q.pending with
  | [] => .ok none
  | (t, m) :: rest =>
    if t < q.now then .error .missedMessage
    else if t = q.now then .ok (some (m, { q with pending := rest }))
    else .ok none

theorem fetch_eq_some {q q' : WakeQueue α} {m : α} (h : q.fetch = .ok (some (m, q'))) :
    q' = { q with pending := q'.pending } ∧ q.pending = (q.now, m) :: q'.pending := by
  unfold fetch at h
  split at h
  · cases h
  · next t m rest hp =>
    split at h
    · cases h
    · split at h
      · next ht =>
        cases h
        exact ⟨rfl, by rw [hp, ht]⟩
      · cases h

theorem now_of_fetch {q q' : WakeQueue α} {m : α} (h : q.fetch = .ok (some (m, q'))) :
    q'.now = q.now := by
  rw [(fetch_eq_some h).1]

/-! ## The order of the pairs -/

instance [Ord α] [Std.TransOrd α] : Std.TransCmp (comparePair (α := α)) :=
  inferInstanceAs (Std.TransCmp (compareLex (compareOn Prod.fst) (compareOn Prod.snd)))

theorem eq_of_comparePair [Ord α] [Std.LawfulEqOrd α] {p q : Nat × α}
    (h : comparePair p q = .eq) : p = q := by
  obtain ⟨h1, h2⟩ := Ordering.then_eq_eq.mp h
  exact Prod.ext (Std.LawfulEqOrd.eq_of_compare h1) (Std.LawfulEqOrd.eq_of_compare h2)

theorem mem_insertPair [Ord α] [Std.LawfulEqOrd α] {p x : Nat × α} {l : List (Nat × α)} :
    x ∈ insertPair p l ↔ x = p ∨ x ∈ l := by
  induction l with
  | nil => simp [insertPair]
  | cons q qs ih =>
    unfold insertPair
    split
    · simp
    · next h => simp [eq_of_comparePair h]
    · simp [ih, or_left_comm]

theorem sorted_insertPair [Ord α] [Std.TransOrd α] [Std.LawfulEqOrd α] {p : Nat × α}
    {l : List (Nat × α)} (h : l.Pairwise fun a b => comparePair a b = .lt) :
    (insertPair p l).Pairwise fun a b => comparePair a b = .lt := by
  induction l with
  | nil => simp [insertPair]
  | cons q qs ih =>
    obtain ⟨hq, hqs⟩ := List.pairwise_cons.mp h
    unfold insertPair
    split
    · next hp =>
      refine List.pairwise_cons.mpr ⟨fun x hx => ?_, h⟩
      rcases List.mem_cons.mp hx with rfl | hx
      · exact hp
      · exact Std.TransCmp.lt_trans hp (hq x hx)
    · exact h
    · next hp =>
      refine List.pairwise_cons.mpr ⟨fun x hx => ?_, ih hqs⟩
      rcases mem_insertPair.mp hx with rfl | hx
      · exact Std.OrientedCmp.lt_of_gt hp
      · exact hq x hx

theorem fst_le_of_comparePair [Ord α] {p q : Nat × α} (h : comparePair p q = .lt) : p.1 ≤ q.1 := by
  have h : (compare p.1 q.1).then (compare p.2 q.2) = .lt := h
  rw [Ordering.then_eq_lt, Nat.compare_eq_lt, Nat.compare_eq_eq] at h
  omega

theorem fetch_eq_none [Ord α] {q : WakeQueue α} (h : q.fetch = .ok none)
    (hs : q.pending.Pairwise fun a b => comparePair a b = .lt) : ∀ e ∈ q.pending, q.now < e.1 := by
  unfold fetch at h
  split at h
  · next hp =>
    intro e he
    rw [hp] at he
    exact absurd he List.not_mem_nil
  · next t m rest hp =>
    split at h
    · cases h
    · next hlt =>
      split at h
      · cases h
      · next hne =>
        have hhead : q.now < t := by omega
        rw [hp] at hs
        intro e he
        rw [hp] at he
        rcases List.mem_cons.mp he with rfl | he
        · exact hhead
        · exact Nat.lt_of_lt_of_le hhead (fst_le_of_comparePair ((List.pairwise_cons.mp hs).1 e he))

theorem fetch_eq_error {q : WakeQueue α} {f : Fault} (h : q.fetch = .error f) :
    f = .missedMessage ∧ ∃ e ∈ q.pending, e.1 < q.now := by
  unfold fetch at h
  split at h
  · cases h
  · next t m rest hp =>
    split at h
    · next hlt =>
      cases h
      exact ⟨rfl, (t, m), by simp [hp], hlt⟩
    · split at h
      · cases h
      · cases h

end WakeQueue

end Snooping
