import Snooping.Instr
import Snooping.Agent

/-!
# Cores

A core runs its program in order and waits for every request before it goes on.

* `Activity`, **`Core`**.
* **`Core.tick`**: the next instruction.
* `Core.receive`: the end of a request.
-/

namespace Snooping

/-- What a core does. -/
inductive Activity
  /-- It is about to look at its next instruction. -/
  | idle
  /-- It spends cycles on other work. -/
  | busy
  /-- It waits for its cache. -/
  | waiting
  | done
  deriving DecidableEq

/-- **One core.** -/
structure Core where
  id : Nat
  activity : Activity
  /-- What is still to be done. -/
  program : Program
  /-- The requests that have ended, in order. -/
  completed : Array Completion
  /-- The cycles spent on other work. -/
  otherCycles : Nat
  /-- The cycle in which the program was found to be over. -/
  doneAt : Option Nat

/-- What a core does with its turn. -/
inductive CoreTurn
  /-- It hands a request to its cache, which runs in the same cycle. -/
  | issue (request : Request)
  | wait (next : Next)
  deriving DecidableEq

namespace Core

/-- A core at the start of its program. -/
def start (id : Nat) (program : Program) : Core := ⟨id, .idle, program, #[], 0, none⟩

/-- The cycles that other work takes, at least one. -/
def duration (cycles : UInt32) : Nat := max cycles.toNat 1

theorem duration_eq (cycles : UInt32) : duration cycles = max cycles.toNat 1 := rfl

theorem duration_pos (cycles : UInt32) : 0 < duration cycles := by
  rw [duration_eq]
  omega

/-- **Starts the next instruction.** -/
def tick (c : Core) (now : Nat) : CoreTurn × Core :=
  match c.program with
  | [] => (.wait .halt, { c with activity := .done, doneAt := some now })
  | .read a :: rest => (.issue (.read a), { c with activity := .waiting, program := rest })
  | .write a v :: rest => (.issue (.write a v), { c with activity := .waiting, program := rest })
  | .other d :: rest =>
    (.wait (.after (duration d)),
      { c with activity := .busy, program := rest, otherCycles := c.otherCycles + duration d })

/-- Takes the end of a request. -/
def receive (c : Core) (completion : Completion) : Core :=
  { c with activity := .idle, completed := c.completed.push completion }

/-- The program is over. -/
def isDone (c : Core) : Bool := c.activity = .done

/-- The words that were read, in program order. -/
def reads (c : Core) : List (Addr × Word) :=
  c.completed.toList.filterMap fun r =>
    match r.request with
    | .read a => some (a, r.value)
    | .write _ _ => none

end Core

end Snooping
