/-!
# Columns and digits

Text set to a width, and numbers written with a fixed number of hexadecimal digits. A text that is
longer than its column is written in full.

* `padLeft`, `padRight`, `center`: the three alignments.
* `hex`: lower-case hexadecimal digits, filled with zeros.
-/

namespace Snooping.Text

/-- `n` blanks. -/
def blanks (n : Nat) : String := String.ofList (List.replicate n ' ')

/-- The text at the right end of a column. -/
def padLeft (width : Nat) (s : String) : String := blanks (width - s.length) ++ s

/-- The text at the left end of a column. -/
def padRight (width : Nat) (s : String) : String := s ++ blanks (width - s.length)

/-- The text in the middle of a column; of an odd number of blanks the larger half follows it. -/
def center (width : Nat) (s : String) : String :=
  let fill := width - s.length
  blanks (fill / 2) ++ s ++ blanks (fill - fill / 2)

/-- At least `digits` lower-case hexadecimal digits. -/
def hex (digits n : Nat) : String :=
  let ds := Nat.toDigits 16 n
  String.ofList (List.replicate (digits - ds.length) '0' ++ ds)

end Snooping.Text
