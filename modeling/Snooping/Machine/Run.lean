import Snooping.Machine.Coherence
import Snooping.Machine.Step

/-!
# Running the machine

A step runs the next cycle in which something is due, within the cycle limit, and checks the caches
after it. A run takes steps until every program is over.

* **`Machine.step`**: one step.
* **`Machine.run`**: all steps.

Both return the machine beside their result, since an error leaves it as it was or as it has become;
a fault leaves nothing.
-/

namespace Snooping.Machine

variable {g : Geometry} {n : Nat}

/-- The cycle is beyond the limit. -/
def isBeyond (limit : Option UInt64) (t : Nat) : Option Nat :=
  (limit.map UInt64.toNat).filter (· < t)

/-- **Runs the next cycle**, with whether there was one. -/
def step (m : Machine g n) : Except Fault (Except SimError Bool × Machine g n) :=
  match m.queue.nextTime with
  | none => return (.ok false, m)
  | some t =>
    match isBeyond m.spec.maxCycles t with
    | some limit => return (.error (.cycleLimit limit), m)
    | none => do
      let m ← m.cycle t
      if m.spec.checkCoherence then return (m.checkCoherence.map fun _ => true, m)
      else return (.ok true, m)

/-- At most `fuel` steps, until every program is over or a step cannot be taken. -/
def runFor : (fuel : Nat) → Machine g n → Except Fault (Except SimError Unit × Machine g n)
  | 0, _ => throw .overflow
  | fuel + 1, m =>
    if m.allDone then return (.ok (), m)
    else do
      match ← m.step with
      | (.error e, m) => return (.error e, m)
      | (.ok false, m) => return (.error (.stalled m.now), m)
      | (.ok true, m) => runFor fuel m

/-- **Runs to the end.** Every step but the first runs a later cycle than the one before it, so that
there are no more steps than 64-bit cycle numbers. -/
def run (m : Machine g n) : Except Fault (Except SimError Unit × Machine g n) :=
  runFor (UInt64.size + 2) m

end Snooping.Machine
