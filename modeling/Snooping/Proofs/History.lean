import Mathlib.Data.List.DropRight
import Mathlib.Tactic.Common
import Snooping.Fault

/-!
# Histories of calls

What a part of the machine promises, it promises for all calls in any order. A history lists the
calls, each with the state that it met.

* **`History`**: the calls so far, and the state that they have left.
* `History.take`: what came before a call is a history, too.
* `since`: the calls since the last one of a kind.
* `record`, **`exists_history`**: histories that are computed.
-/

namespace Snooping

variable {σ α : Type} (play : σ → α → Except Fault σ)

/-- **A history of calls** from the state `s₀`, where `play` makes one call. -/
inductive History (s₀ : σ) : List (σ × α) → σ → Prop
  | start : History s₀ [] s₀
  | call {l : List (σ × α)} {s s' : σ} {x : α} (h : History s₀ l s) (hx : play s x = .ok s') :
      History s₀ (l ++ [(s, x)]) s'

variable {play}

theorem History.take {s₀ s : σ} {l : List (σ × α)} (h : History play s₀ l s) {k : Nat}
    (hk : k < l.length) : History play s₀ (l.take k) l[k].1 := by
  induction h with
  | start => exact absurd hk (Nat.not_lt_zero k)
  | @call l s s' x h hx ih =>
    rw [List.length_append, List.length_singleton] at hk
    by_cases hlt : k < l.length
    · rw [List.take_append_of_le_length (Nat.le_of_lt hlt), List.getElem_append_left hlt]
      exact ih hlt
    · obtain rfl : k = l.length := by omega
      rw [List.take_left' rfl, List.getElem_concat_length rfl]
      exact h

/-! ## The last call of a kind -/

section Since

variable {β : Type} (p q : β → Bool)

/-- **The calls since the last one of a kind**, all of them if there was none. -/
def since (l : List β) : List β := l.rtakeWhile fun e => !p e

theorem since_concat (l : List β) (e : β) :
    since p (l ++ [e]) = if p e then [] else since p l ++ [e] := by
  rw [since, List.rtakeWhile_concat, since]
  cases p e <;> rfl

variable {p q}

theorem mem_since (hpq : ∀ e, p e → q e) {l : List β} {e : β} (he : e ∈ since q l) :
    e ∈ since p l := by
  induction l using List.reverseRecOn with
  | nil => exact he
  | append_singleton l x ih =>
    rw [since_concat] at he ⊢
    cases hq : q x with
    | true =>
      rw [hq, if_pos rfl] at he
      exact absurd he List.not_mem_nil
    | false =>
      have hp : p x = false := Bool.eq_false_iff.mpr fun hp => by
        rw [hpq x hp] at hq
        cases hq
      rw [hq, if_neg Bool.false_ne_true, List.mem_append] at he
      rw [hp, if_neg Bool.false_ne_true, List.mem_append]
      exact he.imp_left ih

theorem any_since_or (hpq : ∀ e, p e = true → q e = false) {l : List β} (hp : l.any p = true)
    (hq : l.any q = true) : (since p l).any q = true ∨ (since q l).any p = true := by
  induction l using List.reverseRecOn with
  | nil => cases hp
  | append_singleton l x ih =>
    rw [List.any_append, List.any_cons, List.any_nil, Bool.or_false] at hp hq
    rw [since_concat, since_concat]
    cases hx : p x with
    | true =>
      rw [hpq x hx]
      right
      simp [hx]
    | false =>
      cases hy : q x with
      | true =>
        left
        simp [hy]
      | false =>
        rw [hx, Bool.or_false] at hp
        rw [hy, Bool.or_false] at hq
        simpa [hx, hy] using ih hp hq

end Since

/-! ## Histories that are computed -/

variable (play)

/-- The history that a list of calls makes, and the state that it leaves. -/
def record (s₀ : σ) (xs : List α) : Except Fault (List (σ × α) × σ) :=
  xs.foldlM (fun y x => return (y.1 ++ [(y.2, x)], ← play y.2 x)) ([], s₀)

variable {play}

theorem History.of_foldlM {s₀ s s' : σ} {xs : List α} {l l' : List (σ × α)}
    (h : History play s₀ l s)
    (hx : xs.foldlM (fun y x => return (y.1 ++ [(y.2, x)], ← play y.2 x)) (l, s) = .ok (l', s')) :
    History play s₀ l' s' := by
  induction xs generalizing l s with
  | nil =>
    cases hx
    exact h
  | cons x xs ih =>
    rw [List.foldlM_cons] at hx
    cases hp : play s x with
    | error f =>
      rw [hp] at hx
      cases hx
    | ok s₁ =>
      rw [hp] at hx
      exact ih (h.call hp) hx

variable (play)

/-- What is computed of some calls holds of their history. -/
theorem exists_history (s₀ : σ) (xs : List α) (P : List (σ × α) → σ → Prop)
    [∀ l s, Decidable (P l s)] (h : (record play s₀ xs).toOption.any fun y => P y.1 y.2) :
    ∃ l s, History play s₀ l s ∧ P l s := by
  cases hr : record play s₀ xs with
  | error f =>
    rw [hr] at h
    cases h
  | ok y =>
    rw [hr] at h
    exact ⟨y.1, y.2, History.start.of_foldlM hr, of_decide_eq_true h⟩

end Snooping
