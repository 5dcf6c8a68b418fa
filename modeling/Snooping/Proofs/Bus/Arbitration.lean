import Mathlib.Algebra.BigOperators.Fin
import Snooping.Proofs.Bus.Priority

/-!
# Arbitration

Whoever asks for the bus and whenever, a clock period carries one transfer at most, the one whose
attempt was granted, and it is driven until the period ends. An attempt that is turned away leaves
nothing behind but its intent and its count.

* **`Bus.Op.transfer?`**, `Bus.Op.start?`: what an attempt asks for, and the period that starts.
* `Bus.grant?`, `Bus.refuses`, `Bus.claims`, `Bus.clock`: what has come of the calls.
* **`Bus.perform_attempt`**: an attempt is driven, or it is rejected.
* **`Bus.Arbitrated`**: what the bus shows, by the calls so far; `Bus.Arbitrated.concat`: one more
  call.
* **`Bus.one_transfer_per_period`**: it shows that after all calls, in any order.
-/

namespace Snooping.Bus

/-! ## What is asked for -/

/-- **The transfer that an attempt asks for.** A forward of a line that is itself awaited tells so
and is no response. -/
def Op.transfer? : Op → Option Transfer
  | read core addr => some ⟨core, .cache core, addr.line, .read, none⟩
  | write core addr data => some ⟨core, .cache core, addr.line, .write, some data⟩
  | invalidate core addr => some ⟨core, .cache core, addr.line, .invalidate, none⟩
  | memoryResponse core addr data => some ⟨core, .memory, addr.line, .response, data⟩
  | forward dest source addr state data => some ⟨dest, .cache source, addr.line,
      if state = .requested then .requested else .response, data⟩
  | begin _ | claim | assertShared => none

/-- The clock period that an operation starts. -/
def Op.start? : Op → Option Nat
  | begin now => some now
  | read _ _ | write _ _ _ | invalidate _ _ | memoryResponse _ _ _ | forward _ _ _ _ _ | claim
  | assertShared => none

variable {b : Bus} {op : Op} {t : Transfer}

theorem aligned_transfer (h : op.transfer? = some t) : t.addr.val.toNat % lineSize = 0 := by
  have line (a : Addr) : a.line.val.toNat % lineSize = 0 := by
    rw [Addr.toNat_line, Nat.mul_mod_left]
  cases op <;> cases h <;> exact line _

theorem isBegin_of_transfer? (h : op.transfer? = some t) : op.isBegin = false := by
  cases op <;> first | rfl | cases h

/-- **An attempt is driven on a bus that is free, or it is rejected**; besides, it may raise or take
back an intent. -/
theorem perform_attempt (h : op.transfer? = some t) : ∃ f r,
    (b.current = none ∧ b.perform op =
        (true, { b.drive t with forwardIntended := f, responseIntended := r })) ∨
      b.perform op = (false, { b.reject with forwardIntended := f, responseIntended := r }) := by
  have core : ∃ f r, (b.current = none ∧ b.attempt .core t =
        (true, { b.drive t with forwardIntended := f, responseIntended := r })) ∨
      b.attempt .core t =
        (false, { b.reject with forwardIntended := f, responseIntended := r }) := by
    refine ⟨b.forwardIntended, b.responseIntended, ?_⟩
    obtain ⟨hg, he⟩ | ⟨-, he⟩ := b.attempt_cases .core t
    · exact .inl ⟨current_eq_none_of_grants hg, he⟩
    · exact .inr he
  cases op with
  | read core' addr => cases h; exact core
  | write core' addr data => cases h; exact core
  | invalidate core' addr => cases h; exact core
  | memoryResponse core' addr data =>
    cases h
    rw [perform, memoryResponse_eq]
    split_ifs with hg
    · exact ⟨b.forwardIntended, false, .inl ⟨hg.2, rfl⟩⟩
    · exact ⟨b.forwardIntended, true, .inr rfl⟩
  | forward dest source addr state data =>
    cases h
    rw [perform, forward_eq]
    by_cases hc : b.current = none
    · exact ⟨false, b.responseIntended, .inl ⟨hc, if_pos hc⟩⟩
    · exact ⟨true, b.responseIntended, .inr (if_neg hc)⟩
  | begin | claim | assertShared => cases h

/-! ## What has come of the calls -/

/-- The transfer that a call was granted. -/
def grant? (e : Bus × Op) : Option Transfer := if granted e then e.2.transfer? else none

/-- A call is an attempt that was turned away. -/
def refuses (e : Bus × Op) : Bool := e.2.transfer?.isSome && !granted e

/-- A call has claimed the driven read. -/
def claims (e : Bus × Op) : Bool := e.2 = .claim && granted e

/-- The clock period by the calls so far. -/
def clock (l : List (Bus × Op)) : Nat := ((l.filterMap fun e => e.2.start?).getLast?).getD 0

/-- **What the bus shows**, by the calls so far, if its history is kept or not. -/
structure Arbitrated (keeps : Bool) (l : List (Bus × Op)) (b : Bus) : Prop where
  /-- What is driven is what was granted in this period, and nothing else was. -/
  driven : (period l).filterMap grant? = b.current.toList
  /-- A read is claimed once in a period. -/
  claimed : (period l).countP claims = b.claimed.toNat
  now : b.now = clock l
  transfers : ∑ k : Fin 6, b.transfers[k] = (l.filterMap grant?).length
  rejected : b.rejected = l.countP refuses
  recording : b.recording = keeps
  /-- The history has every transfer that was granted, with its period. -/
  history : b.history.toList =
    if keeps then l.filterMap fun e => (grant? e).map (e.1.now, ·) else []

theorem arbitrated_idle (keeps : Bool) : Arbitrated keeps [] (idle keeps) := by
  refine ⟨rfl, rfl, rfl, ?_, rfl, rfl, ?_⟩
  · simp [idle]
  · cases keeps <;> rfl

theorem sum_drive (b : Bus) (t : Transfer) :
    ∑ k : Fin 6, (b.drive t).transfers[k] = ∑ k : Fin 6, b.transfers[k] + 1 := by
  have hput : ∀ k : Fin 6, (b.drive t).transfers[k] =
      b.transfers[k] + if k = t.func.code then 1 else 0 := by
    intro k
    show (b.transfers.put t.func.code (b.transfers[t.func.code] + 1))[k] = _
    split_ifs with hk
    · rw [hk, Vector.getElem_put_self]
    · rw [Vector.getElem_put_of_ne _ _ hk, Nat.add_zero]
  simp only [hput]
  rw [Finset.sum_add_distrib, Finset.sum_ite_eq' Finset.univ, if_pos (Finset.mem_univ _)]

/-! ## One more call -/

section Concat

variable (l : List (Bus × Op)) (e : Bus × Op)

theorem period_concat : period (l ++ [e]) = if e.2.isBegin then [] else period l ++ [e] :=
  since_concat (fun e : Bus × Op => e.2.isBegin) l e

theorem clock_concat : clock (l ++ [e]) = e.2.start?.getD (clock l) := by
  rw [clock, List.filterMap_append]
  cases h : e.2.start? with
  | none => simp [clock, h]
  | some now => simp [h]

end Concat

namespace Arbitrated

variable {keeps : Bool} {l : List (Bus × Op)} (h : Arbitrated keeps l b)

include h

/-- **An attempt** is driven, and was the first one in its period, or it counts as turned away. -/
theorem attempt (ht : op.transfer? = some t) :
    Arbitrated keeps (l ++ [(b, op)]) (b.perform op).2 := by
  have hperiod : period (l ++ [(b, op)]) = period l ++ [(b, op)] := by
    rw [period_concat, isBegin_of_transfer? ht]
    rfl
  have hclock : clock (l ++ [(b, op)]) = clock l := by
    rw [clock_concat]
    cases op <;> first | rfl | cases ht
  have hclaim : claims (b, op) = false := by cases op <;> first | rfl | cases ht
  have hclaimed : (period l ++ [(b, op)]).countP claims = b.claimed.toNat := by
    simp [h.claimed, hclaim]
  obtain ⟨f, r, ⟨hc, hp⟩ | hp⟩ := perform_attempt (b := b) ht
  · have hgrant : grant? (b, op) = some t := by simp [grant?, granted, hp, ht]
    have hrefuse : refuses (b, op) = false := by simp [refuses, granted, hp]
    -- The bus was free, so that nothing was granted in this period before.
    have hnone : (period l).filterMap grant? = [] := by
      rw [h.driven, hc]
      rfl
    rw [hp]
    constructor
    case driven => simp [hperiod, hnone, hgrant, drive]
    case claimed => rwa [hperiod]
    case now => exact h.now.trans hclock.symm
    case transfers => simpa [hgrant, ← h.transfers] using b.sum_drive t
    case rejected => simp [hrefuse, drive, ← h.rejected]
    case recording => exact h.recording
    case history => cases keeps <;> simp [hgrant, drive, h.recording, h.history]
  · have hgrant : grant? (b, op) = none := by simp [grant?, granted, hp]
    have hrefuse : refuses (b, op) = true := by simp [refuses, granted, hp, ht]
    rw [hp]
    constructor
    case driven => simp [hperiod, hgrant, reject, h.driven]
    case claimed => rwa [hperiod]
    case now => exact h.now.trans hclock.symm
    case transfers => simpa [hgrant, reject] using h.transfers
    case rejected => simp [hrefuse, reject, ← h.rejected]
    case recording => exact h.recording
    case history => simpa [hgrant, reject] using h.history

theorem other (ht : op.transfer? = none)
    (hperiod : (period (l ++ [(b, op)])).filterMap grant? = (b.perform op).2.current.toList)
    (hclaimed : (period (l ++ [(b, op)])).countP claims = (b.perform op).2.claimed.toNat)
    (hnow : (b.perform op).2.now = clock (l ++ [(b, op)])) :
    Arbitrated keeps (l ++ [(b, op)]) (b.perform op).2 := by
  have hgrant : grant? (b, op) = none := by simp [grant?, ht]
  have hrefuse : refuses (b, op) = false := by simp [refuses, ht]
  have hsame : (b.perform op).2.transfers = b.transfers ∧ (b.perform op).2.rejected = b.rejected ∧
      (b.perform op).2.recording = b.recording ∧ (b.perform op).2.history = b.history := by
    cases op <;> first | exact ⟨rfl, rfl, rfl, rfl⟩ | cases ht
  obtain ⟨htransfers, hrejected, hrecording, hhistory⟩ := hsame
  constructor
  case driven => exact hperiod
  case claimed => exact hclaimed
  case now => exact hnow
  case transfers => simpa [hgrant, htransfers] using h.transfers
  case rejected => simpa [hrefuse, hrejected] using h.rejected
  case recording => exact hrecording.trans h.recording
  case history => simpa [hgrant, hhistory] using h.history

theorem concat (op : Op) : Arbitrated keeps (l ++ [(b, op)]) (b.perform op).2 := by
  cases op with
  | begin now =>
    refine h.other rfl ?_ ?_ ?_
    · simp [period_concat, Op.isBegin, perform, Bus.begin]
    · simp [period_concat, Op.isBegin, perform, Bus.begin]
    · simp [clock_concat, Op.start?, perform, Bus.begin]
  | claim =>
    have hfirst : claims (b, .claim) = !b.claimed := rfl
    refine h.other rfl ?_ ?_ ?_
    · simp [period_concat, Op.isBegin, h.driven, grant?, Op.transfer?, perform, Bus.claim]
    · cases hc : b.claimed <;>
        simp [period_concat, Op.isBegin, h.claimed, hfirst, hc, perform, Bus.claim]
    · simp [clock_concat, Op.start?, perform, Bus.claim, h.now]
  | assertShared =>
    have hclaims : claims (b, .assertShared) = false := rfl
    refine h.other rfl ?_ ?_ ?_
    · simp [period_concat, Op.isBegin, h.driven, grant?, Op.transfer?, perform, Bus.assertShared]
    · simp [period_concat, Op.isBegin, h.claimed, hclaims, perform, Bus.assertShared]
    · simp [clock_concat, Op.start?, perform, Bus.assertShared, h.now]
  | read | write | invalidate | memoryResponse | forward => exact h.attempt rfl

end Arbitrated

/-- **One transfer a period**: after all calls, in any order and by whomever, what is driven is what
was granted since the period has started, and it was at most one; the counts and the history tell
what was granted and what was turned away. An attempt that is turned away changes none of that. -/
theorem one_transfer_per_period {keeps : Bool} {l : List (Bus × Op)}
    (h : History play (idle keeps) l b) :
    Arbitrated keeps l b ∧ ∀ op t, op.transfer? = some t →
      t.addr.val.toNat % lineSize = 0 ∧ ((b.perform op).1 = false →
        (b.perform op).2.current = b.current ∧ (b.perform op).2.history = b.history ∧
          (b.perform op).2.transfers = b.transfers) := by
  constructor
  · induction h with
    | start => exact arbitrated_idle keeps
    | @call l b b' op h hx ih =>
      cases hx
      exact ih.concat op
  · intro op t ht
    refine ⟨aligned_transfer ht, fun hn => ?_⟩
    obtain ⟨f, r, ⟨-, hp⟩ | hp⟩ := perform_attempt (b := b) ht
    · rw [hp] at hn
      cases hn
    · rw [hp]
      exact ⟨rfl, rfl, rfl⟩

theorem one_transfer_per_period_three : ∃ l b, History play (idle true) l b ∧
    b.rejected = 1 ∧ b.history.size = 2 ∧ (b.current.map Transfer.func) = some .read ∧
    Arbitrated true l b := by
  obtain ⟨l, b, h, hr, hs, hc⟩ := exists_history play (idle true)
    [.begin 3, .forward 0 1 ⟨40⟩ .requested none, .read 2 ⟨72⟩, .claim, .begin 5, .read 2 ⟨72⟩,
      .claim, .assertShared]
    (fun _ b => b.rejected = 1 ∧ b.history.size = 2 ∧ b.current.map Transfer.func = some .read)
    (by decide +kernel)
  exact ⟨l, b, h, hr, hs, hc, (one_transfer_per_period h).1⟩

end Snooping.Bus
