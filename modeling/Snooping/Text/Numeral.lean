/-!
# Reading numerals

A numeral is an optional plus sign and at least one digit of its base; its value has a bound. A
hexadecimal number may have the marks `0x` and `0X` before it, any number of the first and then any
number of the second.

* `digit?`, `digits?`: the value of digits.
* **`numeral?`**: a numeral below a bound.
* **`hex?`**: a hexadecimal word.
-/

namespace Snooping.Text

/-- The value of a digit of some base up to 16. -/
def digit? (base : Nat) (c : Char) : Option Nat :=
  let v? :=
    if '0' ≤ c ∧ c ≤ '9' then some (c.toNat - '0'.toNat)
    else if 'a' ≤ c ∧ c ≤ 'f' then some (c.toNat - 'a'.toNat + 10)
    else if 'A' ≤ c ∧ c ≤ 'F' then some (c.toNat - 'A'.toNat + 10)
    else none
  v?.filter (· < base)

/-- The value of a row of digits, most significant first. -/
def digits? (base : Nat) (cs : List Char) : Option Nat :=
  cs.foldlM (fun n c => (digit? base c).map (base * n + ·)) 0

/-- The text without a plus sign before it. -/
def unsigned : List Char → List Char
  | '+' :: cs => cs
  | cs => cs

/-- **The value of a numeral** below `bound`. -/
def numeral? (base bound : Nat) (cs : List Char) : Option Nat :=
  let ds := unsigned cs
  if ds.isEmpty then none else (digits? base ds).filter (· < bound)

/-- The text without the marks `0x` before it, `x` in the case that is given. -/
def dropMarks (x : Char) : List Char → List Char
  | '0' :: c :: cs => if c = x then dropMarks x cs else '0' :: c :: cs
  | cs => cs

/-- **The value of a hexadecimal word**, with or without marks. -/
def hex? (cs : List Char) : Option UInt32 :=
  (numeral? 16 UInt32.size (dropMarks 'X' (dropMarks 'x' cs))).map UInt32.ofNat

theorem numeral?_lt {base bound n : Nat} {cs : List Char} (h : numeral? base bound cs = some n) :
    n < bound := by
  simp only [numeral?] at h
  split at h
  · cases h
  · simpa using (Option.filter_eq_some_iff.mp h).2

end Snooping.Text
