import Snooping.Address

/-!
# Bus transfers

What one clock period can carry: a function, who asked, who drives the data, a line and its data.

* `Func`: the function codes, with their names.
* `Source`: who drives the data.
* **`Transfer`**: one driven request or answer.
-/

namespace Snooping

/-- The function of a transfer. -/
inductive Func
  | nothing
  | read
  | write
  | invalidate
  | response
  | requested
  deriving DecidableEq

namespace Func

/-- The code on the function wire. -/
def code : Func → Fin 6
  | nothing => 0
  | read => 1
  | write => 2
  | invalidate => 3
  | response => 4
  | requested => 5

/-- The name of a function. -/
def name : Func → String
  | nothing => "NOTHING"
  | read => "READ"
  | write => "WRITE"
  | invalidate => "INVALIDATE"
  | response => "RESPONSE"
  | requested => "REQUESTED"

/-- The functions by code. -/
def all : List Func := [nothing, read, write, invalidate, response, requested]

theorem code_injective {f g : Func} (h : f.code = g.code) : f = g := by
  cases f <;> cases g <;> first | rfl | exact absurd h (by decide)

/-- A request that every other cache has to look at. -/
def isRequest : Func → Bool
  | read | write | invalidate => true
  | nothing | response | requested => false

/-- An answer, to be looked at by the cache it is for. -/
def isAnswer : Func → Bool
  | response | requested => true
  | nothing | read | write | invalidate => false

theorem isRequest_of_isAnswer {f : Func} (h : f.isAnswer) : f.isRequest = false := by
  revert h
  cases f <;> decide

theorem ne_of_isAnswer {f f' : Func} (h : f.isAnswer) (h' : f'.isRequest) : f ≠ f' := fun he =>
  Bool.false_ne_true ((isRequest_of_isAnswer h).symm.trans (he ▸ h'))

end Func

/-- Who drives the data of a transfer. -/
inductive Source
  | cache (core : Nat)
  | memory
  deriving DecidableEq

/-- A source as seen on its wire, where memory has a number that no core has. -/
def Source.text : Source → String
  | cache core => toString core
  | memory => "0xffffffff"

/-- **One transfer.** -/
structure Transfer where
  /-- The core that asks, or the core that is answered. -/
  requester : Nat
  source : Source
  /-- The first address of the line. -/
  addr : Addr
  func : Func
  data : Option Block
  deriving DecidableEq

end Snooping
