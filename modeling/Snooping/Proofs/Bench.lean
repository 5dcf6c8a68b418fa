import Snooping.Proofs.Bus.Operations
import Snooping.Proofs.Fault
import Snooping.Proofs.History

/-!
# A part on a bus of its own

What a part of the machine promises does not depend on the others: they may use the bus as they
like, and the calls may come in any order and at any time.

* **`Bench`**, `Bench.Call`, **`Bench.play`**: a part on a bus, and the calls.
* `Bench.driven?`: what a call has put on the bus.
* **`Bench.invariant`**: what every call of the part keeps.
-/

namespace Snooping

/-- **A part of the machine on a bus** that anybody may use. -/
structure Bench (σ : Type) where
  part : σ
  bus : Bus

namespace Bench

/-- A call of the part, or an operation of somebody else on the bus. -/
inductive Call (κ : Type)
  | own (x : κ)
  | other (op : Bus.Op)
  deriving DecidableEq

variable {σ κ : Type} (act : κ → σ → Bus → Except Fault (σ × Bus))

/-- **Makes a call.** -/
def play (b : Bench σ) : Call κ → Except Fault (Bench σ)
  | .own x => (act x b.part b.bus).map fun y => ⟨y.1, y.2⟩
  | .other op => .ok ⟨b.part, (b.bus.perform op).2⟩

/-- The transfer that a call has put on the bus. -/
def driven? (e : Bench σ × Call κ) : Option Transfer :=
  if e.1.bus.current = none then (play act e.1 e.2).toOption.bind (·.bus.current) else none

variable {act} {b b' : Bench σ}

theorem play_own {x : κ} (h : play act b (.own x) = .ok b') :
    act x b.part b.bus = .ok (b'.part, b'.bus) := by
  obtain ⟨y, hy, rfl⟩ := map_eq_ok.mp h
  exact hy

theorem driven?_of_play {x : Call κ} (h : play act b x = .ok b') :
    driven? act (b, x) = if b.bus.current = none then b'.bus.current else none := by
  unfold driven?
  rw [h]
  rfl

/-- **What every call of a part keeps** holds after all calls. -/
theorem invariant {P : σ → Prop} {b₀ : Bench σ} {l : List (Bench σ × Call κ)}
    (h : History (play act) b₀ l b) (h₀ : P b₀.part)
    (step : ∀ {x s s' bus bus'}, P s → act x s bus = .ok (s', bus') → P s') : P b.part := by
  induction h with
  | start => exact h₀
  | @call l b b' x h hx ih =>
    cases x with
    | own y => exact step ih (play_own hx)
    | other op =>
      cases hx
      exact ih

end Bench

end Snooping
