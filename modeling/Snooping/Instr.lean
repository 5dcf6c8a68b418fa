import Snooping.Address

/-!
# Instructions, requests and completions

What a core executes, what it asks of its cache, and what the cache tells it when it is done.

* **`Instr`**, `Request`, `Completion`.
-/

namespace Snooping

/-- What a core asks of its cache. -/
inductive Request
  | read (addr : Addr)
  | write (addr : Addr) (value : Word)
  deriving DecidableEq

namespace Request

/-- The address asked for. -/
def addr : Request → Addr
  | read a | write a _ => a

/-- The request changes the word. -/
def isWrite : Request → Bool
  | read _ => false
  | write _ _ => true

end Request

/-- **One step of a program.** -/
inductive Instr
  | read (addr : Addr)
  | write (addr : Addr) (value : Word)
  /-- Work that does not touch memory. -/
  | other (cycles : UInt32)
  deriving DecidableEq

/-- The request an instruction makes, if it touches memory. -/
def Instr.request? : Instr → Option Request
  | read a => some (.read a)
  | write a v => some (.write a v)
  | other _ => none

/-- The program of one core. -/
abbrev Program := List Instr

/-- The end of a request. -/
structure Completion where
  request : Request
  /-- The word read, or the word written. -/
  value : Word
  /-- The line was there whenever it was looked for. -/
  hit : Bool
  cycle : Nat
  deriving DecidableEq

end Snooping
