import Mathlib.Tactic.Common
import Snooping.Bus.Basic
import Snooping.Fault

/-!
# Operations on the bus

Anybody may use the bus at any time. What comes of an attempt depends on what is driven and on the
intents that are raised.

* `Bus.SameBand`, `Bus.attempt_cases`: attempts leave the side band alone.
* **`Bus.forward_eq`**, **`Bus.memoryResponse_eq`**: the attempts of the upper tiers, with
  `Bus.forward_cases`.
* **`Bus.Op`**, `Bus.perform`: the operations that change the bus, as data.
* `Bus.Op.tier?`: the tier of an attempt.
* `Bus.current_perform`, **`Bus.driven_perform`**: what is driven afterwards.
-/

namespace Snooping.Bus

/-! ## Attempts -/

/-- The side band is the same. -/
structure SameBand (b b' : Bus) : Prop where
  shared : b'.shared = b.shared
  claimed : b'.claimed = b.claimed

theorem SameBand.refl (b : Bus) : b.SameBand b := ⟨rfl, rfl⟩

theorem attempt_cases (b : Bus) (tier : Tier) (t : Transfer) :
    (b.grants tier ∧ b.attempt tier t = (true, b.drive t)) ∨
      (¬ b.grants tier ∧ b.attempt tier t = (false, b.reject)) := by
  unfold attempt
  by_cases hg : b.grants tier
  · exact .inl ⟨hg, if_pos hg⟩
  · exact .inr ⟨hg, if_neg hg⟩

theorem forward_eq (b : Bus) (dest source : Nat) (addr : Addr) (state : LineState)
    (data : Option Block) : b.forward dest source addr state data =
      if b.current = none then
        (true, { b.drive ⟨dest, .cache source, addr.line, forwardFunc state, data⟩ with
          forwardIntended := false })
      else (false, { b.reject with forwardIntended := true }) := by
  unfold forward attempt
  cases hc : b.current with
  | none => simp [grants, mustYield, drive]
  | some t => simp [grants, hc, reject]

theorem memoryResponse_eq (b : Bus) (core : Nat) (addr : Addr) (data : Option Block) :
    b.memoryResponse core addr data =
      if b.forwardIntended = false ∧ b.current = none then
        (true, { b.drive ⟨core, .memory, addr.line, .response, data⟩ with
          responseIntended := false })
      else (false, { b.reject with responseIntended := true }) := by
  unfold memoryResponse attempt
  cases hc : b.current with
  | none => cases hf : b.forwardIntended <;> simp [grants, mustYield, hc, hf, drive, reject]
  | some t => simp [grants, hc, reject]

theorem forward_cases (b : Bus) (dest source : Nat) (addr : Addr) (state : LineState)
    (data : Option Block) : ∃ b', b.SameBand b' ∧
      ((b.forward dest source addr state data = (true, b') ∧ b.current = none ∧
          b'.current = some ⟨dest, .cache source, addr.line, forwardFunc state, data⟩) ∨
        (b.forward dest source addr state data = (false, b') ∧ b.current ≠ none ∧
          b'.current = b.current)) := by
  refine ⟨(b.forward dest source addr state data).2, ?_⟩
  rw [forward_eq]
  split_ifs with hc
  · exact ⟨⟨rfl, rfl⟩, .inl ⟨rfl, hc, rfl⟩⟩
  · exact ⟨⟨rfl, rfl⟩, .inr ⟨rfl, hc, rfl⟩⟩

/-! ## Operations as data -/

/-- **An operation on the bus**, by whomever. -/
inductive Op
  | begin (now : Nat)
  | read (core : Nat) (addr : Addr)
  | write (core : Nat) (addr : Addr) (data : Block)
  | invalidate (core : Nat) (addr : Addr)
  | memoryResponse (core : Nat) (addr : Addr) (data : Option Block)
  | forward (dest source : Nat) (addr : Addr) (state : LineState) (data : Option Block)
  | claim
  | assertShared
  deriving DecidableEq

/-- What an operation tells its caller, and the bus that it leaves. Who has nothing to be told is
told that all is well. -/
def perform (b : Bus) : Op → Bool × Bus
  | .begin now => (true, b.begin now)
  | .read core addr => b.read core addr
  | .write core addr data => b.write core addr data
  | .invalidate core addr => b.invalidate core addr
  | .memoryResponse core addr data => b.memoryResponse core addr data
  | .forward dest source addr state data => b.forward dest source addr state data
  | .claim => b.claim
  | .assertShared => (true, b.assertShared)

/-- An operation never fails. -/
def play (b : Bus) (op : Op) : Except Fault Bus := .ok (b.perform op).2

namespace Op

/-- A clock period starts. -/
def isBegin : Op → Bool
  | begin _ => true
  | read _ _ | write _ _ _ | invalidate _ _ | memoryResponse _ _ _ | forward _ _ _ _ _ | claim
  | assertShared => false

/-- The tier of an attempt. -/
def tier? : Op → Option Tier
  | read _ _ | write _ _ _ | invalidate _ _ => some .core
  | memoryResponse _ _ _ => some .memory
  | forward _ _ _ _ _ => some .forward
  | begin _ | claim | assertShared => none

end Op

variable {b : Bus} {op : Op}

theorem current_perform (hop : op.isBegin = false) (h : b.current ≠ none) :
    (b.perform op).2.current = b.current := by
  have core (t : Transfer) : (b.attempt .core t).2.current = b.current := by
    obtain ⟨hg, -⟩ | ⟨-, he⟩ := b.attempt_cases .core t
    · exact absurd (current_eq_none_of_grants hg) h
    · rw [he]
      rfl
  cases op with
  | begin now => cases hop
  | read core' addr => exact core _
  | write core' addr data => exact core _
  | invalidate core' addr => exact core _
  | memoryResponse core' addr data =>
    rw [perform, memoryResponse_eq, if_neg fun hx => h hx.2]
    rfl
  | forward dest source addr state data =>
    rw [perform, forward_eq, if_neg h]
    rfl
  | claim => rfl
  | assertShared => rfl

theorem eq_of_attempt {tier : Tier} {t u : Transfer} (h : b.current = none)
    (ht : (b.attempt tier u).2.current = some t) : t = u := by
  obtain ⟨-, he⟩ | ⟨-, he⟩ := b.attempt_cases tier u
  · rw [he] at ht
    exact (Option.some.inj ht).symm
  · rw [he] at ht
    cases h.symm.trans ht

/-- What an operation puts on the bus: only memory drives as memory, and a write carries data. -/
theorem driven_perform {t : Transfer} (h : b.current = none)
    (ht : (b.perform op).2.current = some t) :
    (t.source = .memory → op.tier? = some .memory) ∧ (t.func = .write → t.data.isSome) := by
  cases op with
  | begin now => cases ht
  | read core addr => cases eq_of_attempt h ht; exact ⟨nofun, nofun⟩
  | write core addr data => cases eq_of_attempt h ht; exact ⟨nofun, fun _ => rfl⟩
  | invalidate core addr => cases eq_of_attempt h ht; exact ⟨nofun, nofun⟩
  | memoryResponse core addr data =>
    refine ⟨fun _ => rfl, fun hf => ?_⟩
    rw [perform, memoryResponse_eq] at ht
    split_ifs at ht
    · cases ht
      cases hf
    · cases h.symm.trans ht
  | forward dest source addr state data =>
    rw [perform, forward_eq, if_pos h] at ht
    cases ht
    refine ⟨nofun, fun hf => ?_⟩
    exact absurd hf (Func.ne_of_isAnswer (isAnswer_forwardFunc state) rfl)
  | claim => cases h.symm.trans ht
  | assertShared => cases h.symm.trans ht

end Snooping.Bus
