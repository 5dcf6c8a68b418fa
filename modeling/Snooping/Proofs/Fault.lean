import Mathlib.Data.List.FinRange
import Snooping.Fault

/-!
# Computations that can only overflow

A computation with faults comes to a result with a property, or a number has left its range; no
other contract is broken.

* **`Yields`**: what such a computation comes to.
* `Yields.imp`, `Yields.bind`: how such computations are put together.
* `yields_sum64`, **`yields_foldlM`**: sums, and the members of a family in order.
* `map_eq_ok`, `map_bind_map`, `foldlM_map`: computations on the image of a state.
* `foldlM_keeps`: what all members keep.
-/

namespace Snooping

variable {α β : Type}

/-- **The result has a property**, unless a number has overflowed. -/
def Yields (x : Except Fault α) (Q : α → Prop) : Prop :=
  match x with
  | .ok a => Q a
  | .error f => f = .overflow

namespace Yields

variable {x : Except Fault α} {P Q : α → Prop}

theorem of_eq_ok (h : Yields x Q) {a : α} (hx : x = .ok a) : Q a := by
  subst hx
  exact h

theorem eq_overflow (h : Yields x Q) {f : Fault} (hx : x = .error f) : f = .overflow := by
  subst hx
  exact h

theorem imp (h : Yields x P) (hpq : ∀ a, x = .ok a → P a → Q a) : Yields x Q := by
  cases x with
  | ok a => exact hpq a rfl h
  | error f => exact h

theorem bind (h : Yields x P) {f : α → Except Fault β} {R : β → Prop}
    (hf : ∀ a, x = .ok a → P a → Yields (f a) R) : Yields (x >>= f) R := by
  cases x with
  | ok a => exact hf a rfl h
  | error e => exact h

end Yields

theorem yields_sum64 (a b : Nat) : Yields (sum64 a b) fun c => c = a + b ∧ c < UInt64.size := by
  cases h : sum64 a b with
  | ok c =>
    obtain ⟨hc, hlt⟩ := sum64_eq_ok.mp h
    exact ⟨hc.symm, hlt⟩
  | error f =>
    unfold sum64 at h
    split at h
    · cases h
    · cases h
      rfl

/-- **What every member keeps in its turn** holds after all of them. -/
theorem yields_foldlM {n : Nat} {P : Nat → α → Prop} {f : α → Fin n → Except Fault α}
    (step : ∀ {i : Fin n} {a}, P i a → Yields (f a i) (P (i + 1))) {a : α} (h : P 0 a) :
    Yields ((List.finRange n).foldlM f a) (P n) := by
  -- The induction is on the members that are left, which are numbered from `k` on.
  have hlist : ∀ (l : List (Fin n)) (k : Nat) (a : α), l.map Fin.val = List.range' k l.length →
      P k a → Yields (l.foldlM f a) (P (k + l.length)) := by
    intro l
    induction l with
    | nil => exact fun k a _ ha => ha
    | cons i l ih =>
      intro k a hl ha
      rw [List.map_cons, List.length_cons, List.range'_succ, List.cons.injEq] at hl
      obtain ⟨rfl, hl⟩ := hl
      rw [List.foldlM_cons]
      refine (step ha).bind fun b _ hb => ?_
      have := ih (i + 1) b hl hb
      rwa [List.length_cons, ← Nat.add_assoc, Nat.add_right_comm]
  have := hlist (List.finRange n) 0 a (by simp [List.range_eq_range']) h
  simpa using this

/-! ## Images of states -/

theorem map_eq_ok {x : Except Fault α} {f : α → β} {b : β} :
    x.map f = .ok b ↔ ∃ a, x = .ok a ∧ f a = b := by
  cases x with
  | error e =>
    constructor
    · intro h
      cases h
    · rintro ⟨a, h, -⟩
      cases h
  | ok a =>
    constructor
    · intro h
      exact ⟨a, rfl, Except.ok.inj h⟩
    · rintro ⟨c, h, rfl⟩
      cases h
      rfl

theorem map_bind_map {α' β' : Type} {φ : α → α'} {ψ : β → β'} {f : α → Except Fault β}
    {f' : α' → Except Fault β'} (x : Except Fault α)
    (h : ∀ a, x = .ok a → f' (φ a) = (f a).map ψ) : (x.map φ >>= f') = (x >>= f).map ψ := by
  cases x with
  | error e => rfl
  | ok a => exact h a rfl

/-- What every member does to the image of a state with a property that all of them keep, they do
together. -/
theorem foldlM_map {ι : Type} {P : α → Prop} {φ : α → β} {f : α → ι → Except Fault α}
    {f' : β → ι → Except Fault β} (h : ∀ a i, P a → f' (φ a) i = (f a i).map φ)
    (hp : ∀ a i b, P a → f a i = .ok b → P b) (l : List ι) {a : α} (ha : P a) :
    l.foldlM f' (φ a) = (l.foldlM f a).map φ := by
  induction l generalizing a with
  | nil => rfl
  | cons i l ih =>
    rw [List.foldlM_cons, List.foldlM_cons, h a i ha]
    exact map_bind_map (f a i) fun b hb => ih (hp a i b ha hb)

theorem foldlM_keeps {ι : Type} {P : α → Prop} {f : α → ι → Except Fault α}
    (hp : ∀ a i b, P a → f a i = .ok b → P b) {l : List ι} {a b : α} (ha : P a)
    (hb : l.foldlM f a = .ok b) : P b := by
  induction l generalizing a with
  | nil =>
    cases hb
    exact ha
  | cons i l ih =>
    rw [List.foldlM_cons] at hb
    cases hx : f a i with
    | error e =>
      rw [hx] at hb
      cases hb
    | ok c =>
      rw [hx] at hb
      exact ih (hp a i c ha hx) hb

end Snooping
