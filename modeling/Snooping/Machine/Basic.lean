import Snooping.Cache.Basic
import Snooping.Core
import Snooping.Memory.Controller
import Snooping.Forwarder
import Snooping.Report
import Snooping.WakeQueue

/-!
# The machine

Cores with their caches and forwarders, one memory, one bus between them, and the clock that wakes
them.

* **`Machine`**: `n` cores under a geometry of their caches.
* `Machine.boot`: the machine that runs given programs.
* **`Machine.ofSpec`**: the same for a specification that may be unusable.
* `Machine.report`: what a machine has counted so far.
-/

namespace Snooping

/-- **The state of a simulation.** -/
structure Machine (g : Geometry) (n : Nat) where
  spec : Spec
  bus : Bus
  caches : Vector (Cache g) n
  forwarders : Vector Forwarder n
  memory : Memory
  cores : Vector Core n
  queue : WakeQueue (Agent (Fin n))

namespace Machine

variable {g : Geometry} {n : Nat}

/-- A queue in which every core waits for cycle 0. -/
def firstQueue (n : Nat) : WakeQueue (Agent (Fin n)) :=
  ⟨0, (List.finRange n).map fun i => (0, .core i)⟩

/-- The machine before its first cycle, with one core for each program. -/
def boot (g : Geometry) (spec : Spec) (programs : Vector Program n) : Machine g n where
  spec := spec
  bus := .idle spec.recordBus
  caches := Vector.ofFn fun i => .empty g spec.maxCounter.toNat i
  forwarders := Vector.ofFn fun i => .idle i
  memory := .idle spec
  cores := Vector.ofFn fun i => .start i programs[i]
  queue := firstQueue n

/-- **The machine that a specification describes**, or what is wrong with it. -/
def ofSpec (spec : Spec) (programs : List Program) :
    Except Failure ((g : Geometry) × Machine g programs.length) := do
  let g ← spec.validate
  if programs.isEmpty then
    throw (.config .noCores)
  return ⟨g, boot g spec ⟨programs.toArray, rfl⟩⟩

/-- The current cycle. -/
def now (m : Machine g n) : Nat := m.queue.now

/-- Every program is over. -/
def allDone (m : Machine g n) : Bool := m.cores.all Core.isDone

/-- The state of the line of an address in every cache. -/
def lineStates (m : Machine g n) (a : Addr) : List LineState :=
  m.caches.toList.map fun c => c.lineState a

/-- The counts of one core. -/
def coreReport (m : Machine g n) (i : Fin n) : CoreReport where
  id := m.cores[i].id
  doneAt := m.cores[i].doneAt
  otherCycles := m.cores[i].otherCycles
  cache := m.caches[i].stats
  forwardsSent := m.forwarders[i].sent

/-- **What has been counted so far.** -/
def report (m : Machine g n) : Report where
  cycles := m.now
  cores := (List.finRange n).map m.coreReport
  transfers := m.bus.transfers
  rejected := m.bus.rejected
  memory := m.memory.stats

end Machine

end Snooping
