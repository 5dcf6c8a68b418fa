import Snooping.Bus.Basic
import Snooping.Memory.Store
import Snooping.Agent
import Snooping.Spec

/-!
# The memory controller

Main memory behind the bus. Requests are queued as they are driven and served in order, one at a
time. The first request after idling takes the cold latency, the ones behind it the warm latency; a
write lands when its answer is granted.

* `Service`, **`Memory`** and its statistics.
* `Memory.readWord`, `Memory.readBlock`, `Memory.writeBlock`: the store.
* `Memory.enqueue`, `Memory.snoop`: takes requests.
* **`Memory.tick`**: serves them.
-/

namespace Snooping

/-- What becomes of the request in service. -/
inductive Service
  | idle
  /-- Its latency runs until `ready`. -/
  | busy (request : Transfer) (ready : Nat)
  /-- Its answer waits for the bus. -/
  | responding (request : Transfer) (data : Option Block)
  deriving DecidableEq

/-- What memory counts. -/
structure MemoryStats where
  reads : Nat := 0
  writes : Nat := 0
  /-- Writes beyond the end of memory. -/
  droppedWrites : Nat := 0
  deriving DecidableEq

/-- **Main memory and its queue.** -/
structure Memory where
  spec : Spec
  store : Store
  queue : List Transfer
  service : Service
  /-- The next request finds memory idle. -/
  cold : Bool
  /-- It sleeps until a request is queued. -/
  parked : Bool
  stats : MemoryStats

namespace Memory

/-- Memory full of zeros that nobody has asked. -/
def idle (spec : Spec) : Memory where
  spec := spec
  store := .zeros spec.memoryWords
  queue := []
  service := .idle
  cold := true
  parked := true
  stats := {}

/-! ## The store -/

/-- The word at an address, zero beyond the end. -/
def readWord (m : Memory) (a : Addr) : Word := m.store.readWord a

/-- The line at an address, zeros beyond the end. -/
def readBlock (m : Memory) (a : Addr) : Block := m.store.readBlock a

/-- Writes a line; beyond the end it is only counted. -/
def writeBlock (m : Memory) (a : Addr) (b : Block) : Memory :=
  match m.store.writeBlock? a b with
  | some store => { m with store := store }
  | none => { m with stats := { m.stats with droppedWrites := m.stats.droppedWrites + 1 } }

/-! ## Taking requests -/

/-- Queues a request, with whether memory slept and has to be woken. -/
def enqueue (m : Memory) (t : Transfer) : Bool × Memory :=
  (m.parked, { m with queue := m.queue ++ [t], parked := false })

/-- Queues what the bus carries for memory. -/
def snoop (m : Memory) (bus : Bus) : Bool × Memory :=
  match bus.memoryRequest with
  | none => (false, m)
  | some t => m.enqueue t

/-! ## Service -/

/-- What the answer to a request carries. -/
def answerData (m : Memory) (t : Transfer) : Option Block :=
  if t.func = .read then some (m.readBlock t.addr) else none

/-- Memory once the answer to a request is on the bus: a write has landed, and the request counts
as served. -/
def served (m : Memory) (t : Transfer) : Memory :=
  if t.func = .write then
    let m := match t.data with
      | some b => m.writeBlock t.addr b
      | none => m
    { m with service := .idle, stats := { m.stats with writes := m.stats.writes + 1 } }
  else
    { m with service := .idle, stats := { m.stats with reads := m.stats.reads + 1 } }

/-- Tries to answer the request in service. -/
def respond (m : Memory) (bus : Bus) (t : Transfer) (data : Option Block) : Next × Memory × Bus :=
  let (granted, bus) := bus.memoryResponse t.requester t.addr data
  (.after 1, if granted then m.served t else { m with service := .responding t data }, bus)

/-- **One turn of the service.** -/
def tick (m : Memory) (bus : Bus) (now : Nat) : Except Fault (Next × Memory × Bus) :=
  match m.service with
  | .idle =>
    match m.queue with
    | [] => .ok (.park, { m with cold := true, parked := true }, bus)
    | t :: rest => do
      let delay := m.spec.latency m.cold
      let ready ← sum64 now delay
      return (.after delay, { m with queue := rest, cold := false, service := .busy t ready }, bus)
  | .busy t ready =>
    if now < ready then .ok (.after (ready - now), m, bus)
    else .ok (m.respond bus t (m.answerData t))
  | .responding t data => .ok (m.respond bus t data)

end Memory

end Snooping
