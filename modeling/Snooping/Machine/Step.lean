import Snooping.Cache.Snoop
import Snooping.Cache.Tick
import Snooping.Machine.Basic

/-!
# One cycle of the machine

A cycle wakes the agents that are due, one after the other: forwarders first, then memory, cores
and caches, so that answers reach the bus before requests. Then everybody looks at what was driven.
Cycles in which nothing is due are left out.

* `Machine.reschedule`, **`Machine.runAgent`**: one agent takes its turn.
* **`Machine.runDue`**: all agents that are due.
* `Machine.snoopCache`, `Machine.snoopMemory`, `Machine.observeCache`, **`Machine.broadcast`**:
  what was driven is seen.
* **`Machine.cycle`**: all of it.
-/

namespace Snooping.Machine

variable {g : Geometry} {n : Nat}

/-! ## Turns of agents -/

/-- The agent goes on when it asked to. -/
def reschedule (m : Machine g n) (p : Agent (Fin n)) : Next → Except Fault (Machine g n)
  | .after d => return { m with queue := ← m.queue.send d p }
  | .park | .halt => return m

/-- The turn of a forwarder. -/
def runForwarder (m : Machine g n) (i : Fin n) : Except Fault (Machine g n) :=
  let (next, f, bus) := m.forwarders[i].tick m.bus
  { m with forwarders := m.forwarders.put i f, bus := bus }.reschedule (.forwarder i) next

/-- The turn of memory. -/
def runMemory (m : Machine g n) : Except Fault (Machine g n) := do
  let (next, memory, bus) ← m.memory.tick m.bus m.now
  { m with memory := memory, bus := bus }.reschedule .memory next

/-- The turn of a core, whose request wakes its cache in the same cycle. -/
def runCore (m : Machine g n) (i : Fin n) : Except Fault (Machine g n) := do
  let (turn, core) := m.cores[i].tick m.now
  let m := { m with cores := m.cores.put i core }
  match turn with
  | .issue r =>
    let c ← m.caches[i].submit r
    return { m with
      caches := m.caches.put i c
      queue := ← m.queue.schedule m.now (.cache i) }
  | .wait next => m.reschedule (.core i) next

/-- The core learns of the end of its request, and goes on in the next cycle. -/
def deliver (m : Machine g n) (i : Fin n) : Option Completion → Except Fault (Machine g n)
  | none => return m
  | some r => return { m with
      cores := m.cores.put i (m.cores[i].receive r)
      queue := ← m.queue.send 1 (.core i) }

/-- The turn of a cache. -/
def runCache (m : Machine g n) (i : Fin n) : Except Fault (Machine g n) := do
  let turn := m.caches[i].tick m.bus m.now
  let m ← { m with caches := m.caches.put i turn.cache, bus := turn.bus }.deliver i turn.done
  m.reschedule (.cache i) turn.next

/-- **The turn of an agent.** -/
def runAgent (m : Machine g n) : Agent (Fin n) → Except Fault (Machine g n)
  | .forwarder i => m.runForwarder i
  | .memory => m.runMemory
  | .core i => m.runCore i
  | .cache i => m.runCache i

/-- **Runs what is due**, at most `fuel` agents. -/
def runDueFor : (fuel : Nat) → Machine g n → Except Fault (Machine g n)
  | 0, m => return m
  | fuel + 1, m => do
    match ← m.queue.fetch with
    | none => return m
    | some (p, queue) => runDueFor fuel (← { m with queue := queue }.runAgent p)

/-- The number of agents of a machine with `n` cores; none of them is due twice in a cycle. -/
def agentCount (n : Nat) : Nat := 3 * n + 1

/-- **Runs what is due in this cycle**, and what becomes due by it. -/
def runDue (m : Machine g n) : Except Fault (Machine g n) := runDueFor (agentCount n + 1) m

/-! ## Broadcast -/

/-- An agent that was found asleep goes on at cycle `t`. -/
def wakeIf (m : Machine g n) (slept : Bool) (t : Nat) (p : Agent (Fin n)) :
    Except Fault (Machine g n) := do
  if slept then return { m with queue := ← m.queue.schedule t p } else return m

/-- A cache looks at the bus and leaves a job with its forwarder. -/
def snoopCache (m : Machine g n) (next : Nat) (i : Fin n) : Except Fault (Machine g n) :=
  let (job, c, bus) := m.caches[i].snoop m.bus
  let m := { m with caches := m.caches.put i c, bus := bus }
  match job with
  | none => return m
  | some job =>
    let (slept, f) := m.forwarders[i].push job
    { m with forwarders := m.forwarders.put i f }.wakeIf slept next (.forwarder i)

/-- Memory looks at the bus. -/
def snoopMemory (m : Machine g n) (next : Nat) : Except Fault (Machine g n) :=
  let (slept, memory) := m.memory.snoop m.bus
  { m with memory := memory }.wakeIf slept next .memory

/-- A cache that waits looks for its answer. -/
def observeCache (m : Machine g n) (next : Nat) (i : Fin n) : Except Fault (Machine g n) :=
  let (woken, c) := m.caches[i].observe m.bus
  { m with caches := m.caches.put i c }.wakeIf woken next (.cache i)

/-- **Everybody looks at what was driven**: the caches in order, then memory, then the caches again
for answers. -/
def broadcast (m : Machine g n) : Except Fault (Machine g n) := do
  if m.bus.isDriven then
    let next ← sum64 m.now 1
    let m ← (List.finRange n).foldlM (snoopCache · next) m
    let m ← m.snoopMemory next
    (List.finRange n).foldlM (observeCache · next) m
  else return m

/-- **One cycle.** -/
def cycle (m : Machine g n) (t : Nat) : Except Fault (Machine g n) := do
  let m ← { m with queue := m.queue.setTime t, bus := m.bus.begin t }.runDue
  m.broadcast

end Snooping.Machine
