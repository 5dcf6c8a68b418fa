import Snooping.Bus.Transfer
import Snooping.LineState

/-!
# The bus and its arbiter

One transfer is driven per clock period, and all of it is seen by everybody within that period.
Attempts are made in three tiers: forwards between caches, answers of memory, requests of cores. A
sender of the upper two raises an intent that keeps the lower tiers off the bus until it is granted;
nothing makes the order within a tier fair.

* **`Bus`** and `Bus.begin`, the start of a clock period.
* **`Bus.attempt`**: the arbiter, and the five kinds of attempts: `Bus.read`, `Bus.write`,
  `Bus.invalidate`, `Bus.memoryResponse`, `Bus.forward`.
* What is seen: `Bus.answerFor`, `Bus.requestFor`, `Bus.memoryRequest`, `Bus.fillState`.
* The side band of the snoopers: `Bus.claim`, `Bus.assertShared`.
-/

namespace Snooping

/-- **The state of the bus.** -/
structure Bus where
  /-- The current clock period. -/
  now : Nat
  /-- What is driven in it. -/
  current : Option Transfer
  /-- Somebody holds the line that is being answered. -/
  shared : Bool
  /-- A cache has taken on the read that is driven. -/
  claimed : Bool
  /-- Memory waits to answer. -/
  responseIntended : Bool
  /-- A cache waits to forward. -/
  forwardIntended : Bool
  /-- The number of transfers with each function code. -/
  transfers : Vector Nat 6
  /-- The number of attempts turned away. -/
  rejected : Nat
  /-- The history is kept. -/
  recording : Bool
  /-- Every transfer with its clock period. -/
  history : Array (Nat × Transfer)

/-- The tiers of attempts, highest first. -/
inductive Tier
  | forward
  | memory
  | core
  deriving DecidableEq

namespace Bus

/-- A bus that nobody has driven. -/
def idle (recording : Bool) : Bus where
  now := 0
  current := none
  shared := false
  claimed := false
  responseIntended := false
  forwardIntended := false
  transfers := Vector.replicate 6 0
  rejected := 0
  recording := recording
  history := #[]

/-- Starts a clock period: nothing is driven, and the side band is released. Intents stay. -/
def begin (b : Bus) (now : Nat) : Bus :=
  { b with now := now, current := none, shared := false, claimed := false }

/-! ## Arbitration -/

/-- A tier has to leave the bus to those that wait above it. -/
def mustYield (b : Bus) : Tier → Bool
  | .forward => false
  | .memory => b.forwardIntended
  | .core => b.forwardIntended || b.responseIntended

/-- The bus with a transfer driven on it. -/
def drive (b : Bus) (t : Transfer) : Bus :=
  { b with
    current := some t
    transfers := b.transfers.put t.func.code (b.transfers[t.func.code] + 1)
    history := if b.recording then b.history.push (b.now, t) else b.history }

/-- The bus after an attempt that was turned away. -/
def reject (b : Bus) : Bus := { b with rejected := b.rejected + 1 }

/-- An attempt of a tier is granted now. -/
def grants (b : Bus) (tier : Tier) : Bool := !b.mustYield tier && b.current.isNone

/-- **An attempt to drive a transfer**, with whether it was granted. -/
def attempt (b : Bus) (tier : Tier) (t : Transfer) : Bool × Bus :=
  if b.grants tier then (true, b.drive t) else (false, b.reject)

/-- What is granted was not driven before, so that a clock period has at most one transfer. -/
theorem current_eq_none_of_grants {b : Bus} {tier : Tier} (h : b.grants tier) :
    b.current = none := by
  simp only [grants, Bool.and_eq_true, Option.isNone_iff_eq_none] at h
  exact h.2

/-- An attempt of a core. -/
def coreRequest (b : Bus) (core : Nat) (addr : Addr) (func : Func) (data : Option Block) :
    Bool × Bus :=
  b.attempt .core ⟨core, .cache core, addr.line, func, data⟩

/-- Asks for a line. -/
def read (b : Bus) (core : Nat) (addr : Addr) : Bool × Bus := b.coreRequest core addr .read none

/-- Writes a line back. -/
def write (b : Bus) (core : Nat) (addr : Addr) (data : Block) : Bool × Bus :=
  b.coreRequest core addr .write (some data)

/-- Takes a line away from all other caches. -/
def invalidate (b : Bus) (core : Nat) (addr : Addr) : Bool × Bus :=
  b.coreRequest core addr .invalidate none

/-- An answer of memory; the intent stands until it is granted. -/
def memoryResponse (b : Bus) (core : Nat) (addr : Addr) (data : Option Block) : Bool × Bus :=
  let (granted, b) := { b with responseIntended := true }.attempt .memory
    ⟨core, .memory, addr.line, .response, data⟩
  (granted, if granted then { b with responseIntended := false } else b)

/-- The function that tells a peer about a line: data, or that the line is itself awaited. -/
def forwardFunc (state : LineState) : Func :=
  if state = .requested then .requested else .response

theorem isAnswer_forwardFunc (state : LineState) : (forwardFunc state).isAnswer := by
  unfold forwardFunc
  split <;> rfl

/-- A forward from cache to cache; the intent stands until it is granted. -/
def forward (b : Bus) (dest source : Nat) (addr : Addr) (state : LineState)
    (data : Option Block) : Bool × Bus :=
  let (granted, b) := { b with forwardIntended := true }.attempt .forward
    ⟨dest, .cache source, addr.line, forwardFunc state, data⟩
  (granted, if granted then { b with forwardIntended := false } else b)

/-! ## Observation -/

/-- The answer to a core about a line. -/
def answerFor (b : Bus) (core : Nat) (addr : Addr) : Option Transfer :=
  b.current.filter fun t => t.requester = core && t.addr = addr.line && t.func.isAnswer

/-- The request of another core. -/
def requestFor (b : Bus) (core : Nat) : Option Transfer :=
  b.current.filter fun t => t.requester ≠ core && t.func.isRequest

/-- What memory has to serve: a write, or a read that no cache has claimed. -/
def memoryRequest (b : Bus) : Option Transfer :=
  b.current.filter fun t => t.func = .write || (t.func = .read && !b.claimed)

/-- The state of a line filled by an answer: only memory gives a line away for one cache alone, and
only if nobody else showed interest. -/
def fillState (b : Bus) (answer : Transfer) (contended : Bool) : LineState :=
  if contended || b.shared || answer.source ≠ .memory then .shared else .exclusive

/-- Something is driven. -/
def isDriven (b : Bus) : Bool := b.current.isSome

/-! ## Side band -/

/-- Claims the driven read, with whether this was the first claim. -/
def claim (b : Bus) : Bool × Bus := (!b.claimed, { b with claimed := true })

/-- Pulls the shared line. -/
def assertShared (b : Bus) : Bus := { b with shared := true }

end Bus

end Snooping
