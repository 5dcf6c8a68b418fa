import Mathlib.Data.List.Induction
import Mathlib.Tactic.Common
import Snooping.Text.Blank
import Snooping.Text.Numeral
import Snooping.Text.Pad

/-!
# What numerals mean

The grammar of numbers, apart from how they are read. A hexadecimal word is documented with at most
one mark before its digits; what is read as one may have more of them, and a plus sign.

* `Digits`: a row of digits and its value.
* `digits?_eq_some_iff`, **`digits_hex`**: how the value is computed and written.
* **`numeral?_eq_some_iff`**: what is read as a numeral.
* `HexWord`, `LooseWord`, **`hex?_eq_some_iff`**: what is documented as a word, and what is read as
  one.
-/

namespace Snooping.Text

variable {base bound n : Nat} {c x : Char} {cs ds : List Char} {w : UInt32}

/-! ## Digits -/

/-- **A row of digits**, most significant first, and its value. -/
inductive Digits (base : Nat) : List Char → Nat → Prop
  | one {c : Char} {d : Nat} (h : digit? base c = some d) : Digits base [c] d
  | more {cs : List Char} {c : Char} {n d : Nat} (hs : Digits base cs n)
      (h : digit? base c = some d) : Digits base (cs ++ [c]) (base * n + d)

theorem Digits.ne_nil (h : Digits base cs n) : cs ≠ [] := by
  cases h <;> simp

theorem Digits.notMem (h : Digits base cs n) (hc : digit? base c = none) : c ∉ cs := by
  induction h with
  | one hd =>
    rintro hmem
    rw [List.mem_singleton.mp hmem, hd] at hc
    cases hc
  | more hs hd ih =>
    intro hmem
    obtain hmem | hmem := List.mem_append.mp hmem
    · exact ih hmem
    · rw [List.mem_singleton.mp hmem, hd] at hc
      cases hc

theorem digit?_of_blank (hc : isBlank c) : digit? base c = none := by
  simp only [isBlank, blankRanges, List.any_cons, List.any_nil, Bool.or_false, Bool.or_eq_true,
    Bool.and_eq_true, decide_eq_true_eq] at hc
  simp only [digit?, Char.le_def, UInt32.le_iff_toNat_le, Char.reduceVal, UInt32.reduceToNat]
  have hval : c.val.toNat = c.toNat := rfl
  rw [if_neg (by omega), if_neg (by omega), if_neg (by omega)]
  rfl

theorem Digits.solid (h : Digits base cs n) : ∀ c ∈ cs, isBlank c = false := fun c hc => by
  by_contra hblank
  exact h.notMem (digit?_of_blank (Bool.not_eq_false _ ▸ hblank)) hc

theorem digits?_concat (cs : List Char) (c : Char) : digits? base (cs ++ [c]) =
    (digits? base cs).bind fun n => (digit? base c).map (base * n + ·) := by
  simp only [digits?, List.foldlM_append, List.foldlM_cons, List.foldlM_nil, bind_pure]
  rfl

theorem digits?_eq_some_iff (hcs : cs ≠ []) : digits? base cs = some n ↔ Digits base cs n := by
  constructor
  · intro h
    induction cs using List.reverseRecOn generalizing n with
    | nil => exact absurd rfl hcs
    | append_singleton cs c ih =>
      rw [digits?_concat] at h
      obtain ⟨m, hm, hn⟩ := Option.bind_eq_some_iff.mp h
      obtain ⟨d, hd, rfl⟩ := Option.map_eq_some_iff.mp hn
      by_cases hnil : cs = []
      · subst hnil
        obtain rfl : 0 = m := Option.some.inj hm
        simpa using Digits.one hd
      · exact .more (ih hnil hm) hd
  · intro h
    induction h with
    | one hd => simp [digits?, hd]
    | more hs hd ih => rw [digits?_concat, ih hs.ne_nil, hd]; rfl

theorem Digits.zero_cons (h : Digits base cs n) (hz : digit? base '0' = some 0) :
    Digits base ('0' :: cs) n := by
  induction h with
  | one hd => simpa using (Digits.one hz).more hd
  | more hs hd ih => exact ih.more hd

theorem Digits.zeros (h : Digits base cs n) (hz : digit? base '0' = some 0) (k : Nat) :
    Digits base (List.replicate k '0' ++ cs) n := by
  induction k with
  | zero => exact h
  | succ k ih => exact ih.zero_cons hz

theorem digit?_digitChar : ∀ d < 16, digit? 16 d.digitChar = some d := by
  decide

/-- **A number is the value of the hexadecimal digits** that are written for it. -/
theorem digits_hex (width n : Nat) : Digits 16 (hex width n).toList n := by
  have hdigits : Digits 16 (Nat.toDigits 16 n) n := by
    induction n using Nat.strongRecOn with
    | ind n ih =>
      rw [Nat.toDigits_eq_if (by decide)]
      split_ifs with hn
      · exact .one (digit?_digitChar n hn)
      · have h := (ih (n / 16) (by omega)).more (digit?_digitChar (n % 16) (by omega))
        rwa [Nat.div_add_mod] at h
  rw [hex, String.toList_ofList]
  exact hdigits.zeros rfl _

/-! ## Numerals -/

/-- A row of digits with or without a plus sign. -/
inductive Signed (base : Nat) : List Char → Nat → Prop
  | plain {cs : List Char} {n : Nat} (h : Digits base cs n) : Signed base cs n
  | plus {cs : List Char} {n : Nat} (h : Digits base cs n) : Signed base ('+' :: cs) n

theorem digit?_plus (base : Nat) : digit? base '+' = none := rfl

theorem digits_unsigned : Digits base (unsigned cs) n ↔ Signed base cs n := by
  constructor
  · intro h
    unfold unsigned at h
    split at h
    · exact .plus h
    · exact .plain h
  · intro h
    cases h with
    | plus h => exact h
    | plain h =>
      unfold unsigned
      split
      · exact absurd List.mem_cons_self (h.notMem (digit?_plus base))
      · exact h

/-- **What is read as a numeral.** -/
theorem numeral?_eq_some_iff :
    numeral? base bound cs = some n ↔ Signed base cs n ∧ n < bound := by
  rw [← digits_unsigned]
  by_cases hnil : unsigned cs = []
  · simp only [numeral?, hnil, List.isEmpty_nil, if_true]
    exact iff_of_false (Option.some_ne_none n).symm fun h => h.1.ne_nil rfl
  · simp [numeral?, hnil, Option.filter_eq_some_iff, digits?_eq_some_iff hnil]

/-! ## Hexadecimal words -/

/-- **A hexadecimal word** as it is documented: at least one digit, and at most one mark. -/
inductive HexWord : List Char → UInt32 → Prop
  | plain {ds : List Char} {w : UInt32} (h : Digits 16 ds w.toNat) : HexWord ds w
  | marked {ds : List Char} {w : UInt32} {x : Char} (hx : x = 'x' ∨ x = 'X')
      (h : Digits 16 ds w.toNat) : HexWord ('0' :: x :: ds) w

/-- A number of marks. -/
def marks (x : Char) (k : Nat) : List Char := (List.replicate k ['0', x]).flatten

/-- **What is read as a hexadecimal word**: marks of either kind, and a sign. -/
inductive LooseWord : List Char → UInt32 → Prop
  | mk (j k : Nat) {cs : List Char} {w : UInt32} (h : Signed 16 cs w.toNat) :
      LooseWord (marks 'x' j ++ (marks 'X' k ++ cs)) w

theorem marks_succ (x : Char) (k : Nat) : marks x (k + 1) = '0' :: x :: marks x k := rfl

theorem exists_marks (x : Char) (cs : List Char) : ∃ k, cs = marks x k ++ dropMarks x cs := by
  fun_induction dropMarks x cs with
  | case1 cs ih =>
    obtain ⟨k, hk⟩ := ih
    exact ⟨k + 1, by rw [marks_succ, List.cons_append, List.cons_append, ← hk]⟩
  | case2 => exact ⟨0, rfl⟩
  | case3 => exact ⟨0, rfl⟩

theorem dropMarks_of_second (h : cs[1]? ≠ some x) : dropMarks x cs = cs := by
  unfold dropMarks
  split
  · rename_i c cs
    exact if_neg fun hc => h (congrArg some hc)
  · rfl

theorem dropMarks_marks (k : Nat) (h : cs[1]? ≠ some x) : dropMarks x (marks x k ++ cs) = cs := by
  induction k with
  | zero => exact dropMarks_of_second h
  | succ k ih => rw [marks_succ, List.cons_append, List.cons_append, dropMarks, if_pos rfl, ih]

theorem Signed.second_ne (h : Signed base cs n) (hx : digit? base x = none) :
    cs[1]? ≠ some x := by
  cases h with
  | plain h => exact fun he => h.notMem hx (List.mem_of_getElem? he)
  | plus h => exact fun he => h.notMem hx (List.mem_of_getElem? he)

/-- **What is read as a hexadecimal word.** -/
theorem hex?_eq_some_iff : hex? cs = some w ↔ LooseWord cs w := by
  constructor
  · intro h
    obtain ⟨n, hn, rfl⟩ := Option.map_eq_some_iff.mp h
    obtain ⟨hs, hlt⟩ := numeral?_eq_some_iff.mp hn
    obtain ⟨j, hj⟩ := exists_marks 'x' cs
    obtain ⟨k, hk⟩ := exists_marks 'X' (dropMarks 'x' cs)
    rw [hj, hk]
    refine .mk j k ?_
    rwa [UInt32.toNat_ofNat_of_lt' hlt]
  · intro h
    cases h with
    | @mk j k cs w hs =>
    have hX : cs[1]? ≠ some 'X' := hs.second_ne rfl
    have hx : (marks 'X' k ++ cs)[1]? ≠ some 'x' := by
      cases k with
      | zero => exact hs.second_ne (x := 'x') rfl
      | succ k => simp [marks_succ]
    rw [hex?, dropMarks_marks j hx, dropMarks_marks k hX,
      numeral?_eq_some_iff.mpr ⟨hs, w.toNat_lt⟩]
    exact congrArg some UInt32.ofNat_toNat

theorem HexWord.loose (h : HexWord cs w) : LooseWord cs w := by
  cases h with
  | plain h => exact .mk 0 0 (.plain h)
  | marked hx h =>
    obtain rfl | rfl := hx
    · exact .mk 1 0 (.plain h)
    · exact .mk 0 1 (.plain h)

end Snooping.Text
