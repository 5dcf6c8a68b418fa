import Snooping.Text.Pad
import Snooping.Vector

/-!
# Words, lines and addresses

Memory is addressed by bytes, read and written by words of four bytes, and moved in lines of eight
words. An address splits into the number of its line and the word within the line.

* `Word`, `Block`: one word, and the eight words of a line.
* **`Addr`**: a byte address, with `Addr.lineNumber`, `Addr.line` and `Addr.word`.
-/

namespace Snooping

/-- Thirty-two bits of data. -/
abbrev Word := UInt32

/-- The bytes of a word. -/
def wordSize : Nat := 4

/-- The words of a line. -/
def lineWords : Nat := 8

/-- The bytes of a line. -/
def lineSize : Nat := 32

/-- The bits of an address that select a byte of a line. -/
def offsetBits : Nat := 5

/-- The data of one line. -/
abbrev Block := Vector Word lineWords

/-- A line of zeros. -/
def Block.zero : Block := Vector.replicate lineWords 0

/-- **A byte address.** -/
structure Addr where
  val : UInt32
  deriving DecidableEq

namespace Addr

/-- The number of the line an address lies in. -/
def lineNumber (a : Addr) : Nat := a.val.toNat / lineSize

/-- The first address of line `l`; line numbers are taken modulo the number of lines. -/
def ofLine (l : Nat) : Addr := ⟨UInt32.ofNat (l * lineSize)⟩

/-- The first address of the line an address lies in. -/
def line (a : Addr) : Addr := ofLine a.lineNumber

/-- The number of the word an address lies in. -/
def wordNumber (a : Addr) : Nat := a.val.toNat / wordSize

/-- The word within its line. -/
def word (a : Addr) : Fin lineWords :=
  ⟨a.val.toNat % lineSize / wordSize, by simp only [lineSize, wordSize, lineWords]; omega⟩

/-- An address is written with eight hexadecimal digits. -/
def text (a : Addr) : String := "0x" ++ Text.hex 8 a.val.toNat

theorem lineNumber_lt (a : Addr) : a.lineNumber < 0x8000000 := by
  have := a.val.toNat_lt
  simp only [lineNumber, lineSize]
  omega

theorem lineNumber_ofLine {l : Nat} (h : l < 0x8000000) : (ofLine l).lineNumber = l := by
  simp only [lineNumber, ofLine, lineSize, UInt32.toNat_ofNat']
  omega

theorem lineNumber_line (a : Addr) : a.line.lineNumber = a.lineNumber :=
  lineNumber_ofLine a.lineNumber_lt

theorem toNat_line (a : Addr) : a.line.val.toNat = a.lineNumber * lineSize := by
  have := a.lineNumber_lt
  simp only [line, ofLine, lineSize, UInt32.toNat_ofNat'] at this ⊢
  omega

theorem line_eq_line_iff {a b : Addr} : a.line = b.line ↔ a.lineNumber = b.lineNumber :=
  ⟨fun h => by rw [← lineNumber_line a, h, lineNumber_line], fun h => by simp only [line, h]⟩

theorem line_line (a : Addr) : a.line.line = a.line := line_eq_line_iff.mpr a.lineNumber_line

end Addr

end Snooping
