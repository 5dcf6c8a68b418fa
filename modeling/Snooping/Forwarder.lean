import Snooping.Bus.Basic
import Snooping.Agent

/-!
# Forwarders

A cache that owes a line to a peer leaves a job with its forwarder, which waits for the bus in its
place and sends the jobs in order.

* `ForwardJob`, **`Forwarder`**.
* `Forwarder.push`: leaves a job.
* `Forwarder.tick`: tries to send the first one.
-/

namespace Snooping

/-- A line owed to a peer, or the notice that the line is itself awaited. -/
structure ForwardJob where
  dest : Nat
  addr : Addr
  state : LineState
  data : Option Block
  deriving DecidableEq

/-- **The jobs of one cache** that wait for the bus. -/
structure Forwarder where
  source : Nat
  queue : List ForwardJob
  /-- It sleeps until a job is pushed. -/
  parked : Bool
  /-- The number of jobs sent. -/
  sent : Nat

namespace Forwarder

/-- A forwarder without jobs. -/
def idle (source : Nat) : Forwarder := ⟨source, [], true, 0⟩

/-- Leaves a job, with whether the forwarder slept and has to be woken. -/
def push (f : Forwarder) (job : ForwardJob) : Bool × Forwarder :=
  (f.parked, { f with queue := f.queue ++ [job], parked := false })

/-- **Tries to send the first job.** -/
def tick (f : Forwarder) (bus : Bus) : Next × Forwarder × Bus :=
  match f.queue with
  | [] => (.park, { f with parked := true }, bus)
  | job :: rest =>
    let (granted, bus) := bus.forward job.dest f.source job.addr job.state job.data
    (.after 1, if granted then { f with queue := rest, sent := f.sent + 1 } else f, bus)

end Forwarder

end Snooping
