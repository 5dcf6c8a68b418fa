/-!
# Faults

Time is counted in cycles, and a cycle number fits in 64 bits. A **fault** is a broken contract: the
run stops and no state follows it. It is no ordinary error, which leaves the state as it was found.

* **`Fault`**: what can break, with its one wording `Fault.message`.
* `sum64`, `total64`: sums that fault when they leave the 64-bit range.
-/

namespace Snooping

/-- **A broken contract**: nothing can be said about the state after it. -/
inductive Fault
  /-- An integer left its range. -/
  | overflow
  /-- A wake-up was asked for at a cycle that is already over. -/
  | scheduledInPast
  /-- A wake-up was still pending when its cycle was over. -/
  | missedMessage
  /-- A request was handed to a cache that was serving another one. -/
  | cacheBusy (core : Nat)
  deriving DecidableEq

/-- The wording of a fault. -/
def Fault.message : Fault → String
  | overflow => "arithmetic overflow"
  | scheduledInPast => "delayed message queue is out of sync: message scheduled in the past"
  | missedMessage => "delayed message queue is out of sync: missed message"
  | cacheBusy core => "cache " ++ toString core ++ " is busy"

/-- The sum of two 64-bit numbers, a fault if it needs a 65th bit. -/
def sum64 (a b : Nat) : Except Fault Nat :=
  if a + b < UInt64.size then .ok (a + b) else .error .overflow

/-- The sum of a list from left to right, a fault as soon as a partial sum overflows. -/
def total64 (xs : List Nat) : Except Fault Nat :=
  xs.foldlM sum64 0

theorem sum64_eq_ok {a b c : Nat} : sum64 a b = .ok c ↔ a + b = c ∧ c < UInt64.size := by
  unfold sum64
  split <;> simp <;> omega

end Snooping
