import Mathlib.Data.List.DropRight
import Snooping.Proofs.Bus.Operations
import Snooping.Proofs.History

/-!
# Waiting for the bus

A sender of the upper tiers that was turned away keeps the lower tiers off the bus until it is
granted. All forwarders share one intent, and a grant to any of them takes it back. It is raised
again in time: the granted transfer is driven to the end of its period, and in that period each
forwarder that waits tries again.

* `Tier.rank`, `Bus.Op.sender?`: who attempts what.
* **`Bus.Sender.Waits`**, **`Bus.Sender.Persists`**: a sender was turned away, and tries again in
  every period.
* `Bus.Reserved`, `Bus.Held`: what a waiting forwarder leaves on the bus.
* `Bus.Sender.reserved_of_waits`, `Bus.Sender.responseIntended_of_waits`: the bus while a sender
  waits.
* **`Bus.lower_tiers_yield`**: nothing of a lower tier is granted while a sender waits.
-/

namespace Snooping

/-- The place of a tier, highest first. -/
def Tier.rank : Tier → Nat
  | forward => 0
  | memory => 1
  | core => 2

namespace Bus

/-! ## Senders -/

/-- The senders of the upper tiers. -/
inductive Sender
  | forwarder (source : Nat)
  | memory
  deriving DecidableEq

/-- The tier of a sender. -/
def Sender.tier : Sender → Tier
  | forwarder _ => .forward
  | memory => .memory

/-- The sender of the upper tiers that makes an attempt. -/
def Op.sender? : Op → Option Sender
  | forward _ source _ _ _ => some (.forwarder source)
  | memoryResponse _ _ _ => some .memory
  | begin _ | read _ _ | write _ _ _ | invalidate _ _ | claim | assertShared => none

theorem Op.tier?_of_sender? {op : Op} {s : Sender} (h : op.sender? = some s) :
    op.tier? = some s.tier := by
  cases op <;> cases h <;> rfl

theorem Op.sender?_of_tier? {op : Op} (h : op.tier? = some .memory) :
    op.sender? = some .memory := by
  cases op <;> first | rfl | cases h

/-- A call was granted. -/
def granted (e : Bus × Op) : Bool := (e.1.perform e.2).1

/-- The calls since the last clock period has started. -/
def period (l : List (Bus × Op)) : List (Bus × Op) := l.rtakeWhile fun e => !e.2.isBegin

namespace Sender

variable (s : Sender)

/-- A call is an attempt of the sender. -/
def tries (e : Bus × Op) : Bool := e.2.sender? = some s

/-- **The last attempt of the sender was turned away.** -/
def Waits (l : List (Bus × Op)) : Bool := ((l.filter s.tries).getLast?).any (!granted ·)

/-- **The sender tries again in every period** until it is granted: no period ends in which it has
waited without an attempt. -/
def Persists (l : List (Bus × Op)) : Prop :=
  ∀ k (_ : k < l.length), l[k].2.isBegin → s.Waits (l.take k) → (period (l.take k)).any s.tries

instance (l : List (Bus × Op)) : Decidable (s.Persists l) :=
  inferInstanceAs (Decidable (∀ k (_ : k < l.length), _ → _ → _))

variable {s}

theorem waits_concat (l : List (Bus × Op)) (e : Bus × Op) :
    s.Waits (l ++ [e]) = if s.tries e then !granted e else s.Waits l := by
  unfold Waits
  rw [List.filter_append, List.filter_singleton]
  cases s.tries e <;> simp

theorem Persists.init {l : List (Bus × Op)} {e : Bus × Op} (h : s.Persists (l ++ [e])) :
    s.Persists l := by
  intro k hk hb hw
  have hk' : k < (l ++ [e]).length := by
    rw [List.length_append]
    omega
  have hx := h k hk'
  rw [List.getElem_append_left hk, List.take_append_of_le_length (Nat.le_of_lt hk)] at hx
  exact hx hb hw

theorem Persists.take {l : List (Bus × Op)} (h : s.Persists l) (n : Nat) :
    s.Persists (l.take n) := by
  intro k hk hb hw
  rw [List.length_take] at hk
  rw [List.getElem_take] at hb
  rw [List.take_take, Nat.min_eq_left (by omega)] at hw ⊢
  exact h k (by omega) hb hw

theorem Persists.last {l : List (Bus × Op)} {e : Bus × Op} (h : s.Persists (l ++ [e]))
    (he : e.2.isBegin) (hw : s.Waits l) : (period l).any s.tries := by
  have hx := h l.length (by simp)
  rw [List.getElem_concat_length rfl, List.take_left' rfl] at hx
  exact hx he hw

end Sender

/-! ## What an operation does to the intents -/

variable {b : Bus} {op : Op}

theorem intents_attempt (b : Bus) (tier : Tier) (t : Transfer) :
    (b.attempt tier t).2.forwardIntended = b.forwardIntended ∧
      (b.attempt tier t).2.responseIntended = b.responseIntended := by
  obtain ⟨-, he⟩ | ⟨-, he⟩ := b.attempt_cases tier t <;> rw [he] <;> exact ⟨rfl, rfl⟩

theorem forwardIntended_perform (h : op.tier? ≠ some .forward) :
    (b.perform op).2.forwardIntended = b.forwardIntended := by
  cases op with
  | begin now => rfl
  | read core addr => exact (intents_attempt ..).1
  | write core addr data => exact (intents_attempt ..).1
  | invalidate core addr => exact (intents_attempt ..).1
  | memoryResponse core addr data =>
    rw [perform, memoryResponse_eq]
    split_ifs <;> rfl
  | forward dest source addr state data => exact absurd rfl h
  | claim => rfl
  | assertShared => rfl

theorem responseIntended_perform (h : op.tier? ≠ some .memory) :
    (b.perform op).2.responseIntended = b.responseIntended := by
  cases op with
  | begin now => rfl
  | read core addr => exact (intents_attempt ..).2
  | write core addr data => exact (intents_attempt ..).2
  | invalidate core addr => exact (intents_attempt ..).2
  | memoryResponse core addr data => exact absurd rfl h
  | forward dest source addr state data =>
    rw [perform, forward_eq]
    split_ifs <;> rfl
  | claim => rfl
  | assertShared => rfl

theorem perform_forward (h : op.tier? = some .forward) :
    ((b.perform op).1 = false ↔ b.current ≠ none) ∧ (b.perform op).2.current ≠ none ∧
      ((b.perform op).1 = false → (b.perform op).2.forwardIntended) := by
  cases op with
  | forward dest source addr state data =>
    rw [perform, forward_eq]
    split_ifs with hc
    · simp [hc, drive]
    · simp [hc, reject]
  | _ => cases h

theorem perform_memoryResponse (h : op.tier? = some .memory) (hg : (b.perform op).1 = false) :
    (b.perform op).2.responseIntended := by
  cases op with
  | memoryResponse core addr data =>
    rw [perform, memoryResponse_eq] at hg ⊢
    split_ifs at hg ⊢
    rfl
  | _ => cases h

theorem grants_of_perform {tier : Tier} (h : op.tier? = some tier) (hg : (b.perform op).1) :
    b.grants tier := by
  have core (t : Transfer) (hg : (b.attempt .core t).1) : b.grants .core := by
    obtain ⟨hx, -⟩ | ⟨-, he⟩ := b.attempt_cases .core t
    · exact hx
    · rw [he] at hg
      cases hg
  cases op with
  | read core' addr => cases h; exact core _ hg
  | write core' addr data => cases h; exact core _ hg
  | invalidate core' addr => cases h; exact core _ hg
  | memoryResponse core' addr data =>
    cases h
    rw [perform, memoryResponse_eq] at hg
    split_ifs at hg with hx
    simp [grants, mustYield, hx]
  | forward dest source addr state data =>
    cases h
    rw [perform, forward_eq] at hg
    split_ifs at hg with hx
    simp [grants, mustYield, hx]
  | begin | claim | assertShared => cases h

/-! ## The bus while a sender waits -/

/-- The lower tiers are kept from the bus until the period ends. -/
def Reserved (b : Bus) : Prop := b.forwardIntended ∨ b.current ≠ none

/-- The bus is driven, and the lower tiers are kept from it in the next period, too. -/
def Held (b : Bus) : Prop := b.forwardIntended ∧ b.current ≠ none

theorem Reserved.perform (h : b.Reserved) (hop : op.isBegin = false) :
    (b.perform op).2.Reserved := by
  by_cases ht : op.tier? = some .forward
  · exact .inr (perform_forward ht).2.1
  · obtain hf | hc := h
    · exact .inl ((forwardIntended_perform ht).trans hf)
    · exact .inr (current_perform hop hc ▸ hc)

theorem Held.perform (h : b.Held) (hop : op.isBegin = false) : (b.perform op).2.Held := by
  refine ⟨?_, current_perform hop h.2 ▸ h.2⟩
  by_cases ht : op.tier? = some .forward
  · have hp := perform_forward (b := b) ht
    exact hp.2.2 (hp.1.mpr h.2)
  · exact (forwardIntended_perform ht).trans h.1

theorem Reserved.not_grants (h : b.Reserved) {tier : Tier} (ht : tier ≠ .forward) :
    ¬ b.grants tier := by
  intro hg
  obtain hf | hc := h
  · cases tier <;> simp_all [grants, mustYield]
  · exact hc (current_eq_none_of_grants hg)

namespace Sender

variable {b₀ : Bus} {l : List (Bus × Op)}

/-- **A waiting forwarder reserves the bus**, and holds it once it has tried in the period. -/
theorem reserved_of_waits (h : History play b₀ l b) {i : Nat} (hp : (forwarder i).Persists l)
    (hw : (forwarder i).Waits l) :
    b.Reserved ∧ ((period l).any (forwarder i).tries → b.Held) := by
  induction h with
  | start => cases hw
  | @call l b b' op h hx ih =>
    cases hx
    rw [waits_concat] at hw
    by_cases ht : (forwarder i).tries (b, op)
    · -- Its own attempt was turned away, so the bus was driven.
      rw [if_pos ht, Bool.not_eq_true'] at hw
      have hf : op.tier? = some .forward := Op.tier?_of_sender? (of_decide_eq_true ht)
      have hheld : (b.perform op).2.Held :=
        ⟨(perform_forward hf).2.2 hw, (perform_forward hf).2.1⟩
      exact ⟨.inr hheld.2, fun _ => hheld⟩
    · rw [if_neg ht] at hw
      obtain ⟨hr, hheld⟩ := ih hp.init hw
      unfold period at hheld ⊢
      rw [List.rtakeWhile_concat]
      cases hop : op.isBegin with
      | true =>
        cases op <;> cases hop
        exact ⟨.inl (hheld (hp.last rfl hw)).1, fun hn => by simp at hn⟩
      | false =>
        refine ⟨hr.perform hop, fun hn => (hheld ?_).perform hop⟩
        simpa [ht] using hn

theorem responseIntended_of_waits (h : History play b₀ l b) (hw : memory.Waits l) :
    b.responseIntended := by
  induction h with
  | start => cases hw
  | @call l b b' op h hx ih =>
    cases hx
    rw [waits_concat] at hw
    by_cases ht : memory.tries (b, op)
    · rw [if_pos ht, Bool.not_eq_true'] at hw
      exact perform_memoryResponse (Op.tier?_of_sender? (of_decide_eq_true ht)) hw
    · rw [if_neg ht] at hw
      refine (responseIntended_perform fun hm => ht ?_).trans (ih hw)
      exact decide_eq_true (Op.sender?_of_tier? hm)

end Sender

/-- **Lower tiers yield**: from the call that turns a sender away to the one that grants its
attempt, nothing of a lower tier is granted. -/
theorem lower_tiers_yield {s : Sender} {b₀ b : Bus} {l : List (Bus × Op)}
    (h : History play b₀ l b) (hp : s.Persists l) {k : Nat} (hk : k < l.length)
    (hw : s.Waits (l.take k)) {tier : Tier} (ht : l[k].2.tier? = some tier)
    (hlow : s.tier.rank < tier.rank) : granted l[k] = false := by
  have hpre := h.take hk
  by_contra hg
  rw [Bool.not_eq_false] at hg
  have hgrant : l[k].1.grants tier := grants_of_perform ht hg
  cases s with
  | forwarder i =>
    refine (Sender.reserved_of_waits hpre (hp.take k) hw).1.not_grants ?_ hgrant
    rintro rfl
    exact absurd hlow (Nat.lt_irrefl _)
  | memory =>
    have hr := Sender.responseIntended_of_waits hpre hw
    cases tier with
    | forward => exact absurd hlow (by decide)
    | memory => exact absurd hlow (by decide)
    | core => simp [grants, mustYield, hr] at hgrant

/-- A read is turned away from a free bus, because the second of two forwarders still waits. -/
theorem lower_tiers_yield_two : ∃ l b, History play (idle false) l b ∧
    (Sender.forwarder 2).Persists l ∧ ∃ hk : 9 < l.length, (Sender.forwarder 2).Waits (l.take 9) ∧
      l[9].2.tier? = some .core ∧ Tier.forward.rank < Tier.core.rank ∧
      l[9].1.current = none ∧ granted l[9] = false := by
  obtain ⟨l, b, h, hp, hk, hw, ht, hc⟩ := exists_history play (idle false)
    [.begin 0, .read 0 ⟨0⟩, .forward 0 1 ⟨32⟩ .shared none, .forward 0 2 ⟨64⟩ .shared none,
      .begin 1, .forward 0 1 ⟨32⟩ .shared none, .memoryResponse 0 ⟨0⟩ none,
      .forward 0 2 ⟨64⟩ .shared none, .begin 2, .read 3 ⟨96⟩, .forward 0 2 ⟨64⟩ .shared none]
    (fun l _ => (Sender.forwarder 2).Persists l ∧ ∃ hk : 9 < l.length,
      (Sender.forwarder 2).Waits (l.take 9) ∧ l[9].2.tier? = some .core ∧ l[9].1.current = none)
    (by decide +kernel)
  exact ⟨l, b, h, hp, hk, hw, ht, by decide, hc,
    lower_tiers_yield (s := .forwarder 2) h hp hk hw ht (by decide)⟩

end Bus

end Snooping
