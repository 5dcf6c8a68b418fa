import Std.Data.TreeMap
import Snooping.Address

/-!
# The backing store

The words of main memory. Words beyond its end read as zero, and a line that does not fit in whole
cannot be written.

* **`Store`**: the words that were ever written.
* `Store.readWord`, `Store.readBlock`, `Store.writeBlock?`.
* **`Store.readWord_writeBlock?`**: what is read after a write.
-/

namespace Snooping

/-- **The words of main memory**, zero where nothing was written. -/
structure Store where
  /-- The number of words. -/
  capacity : Nat
  written : Std.TreeMap Nat Word

namespace Store

/-- A store of zeros. -/
def zeros (capacity : Nat) : Store := ⟨capacity, ∅⟩

/-- The word at an address. -/
def readWord (s : Store) (a : Addr) : Word := s.written.getD a.wordNumber 0

/-- The line at an address, word by word. -/
def readBlock (s : Store) (a : Addr) : Block :=
  Vector.ofFn fun i => s.readWord ⟨a.line.val + UInt32.ofNat (i * wordSize)⟩

/-- Eight words put from word `base` on. -/
def putBlock (m : Std.TreeMap Nat Word) (base : Nat) (b : Block) : Std.TreeMap Nat Word :=
  (List.finRange lineWords).foldl (fun m (i : Fin lineWords) => m.insert (base + i) b[i]) m

/-- The store with a line written into it, if the line fits. -/
def writeBlock? (s : Store) (a : Addr) (b : Block) : Option Store :=
  let base := a.line.wordNumber
  if base + lineWords ≤ s.capacity then some { s with written := putBlock s.written base b }
  else none

/-! ## What is read back -/

theorem getD_foldl_insert_of_ne (b : Block) {base k : Nat} {is : List (Fin lineWords)}
    (h : ∀ j ∈ is, base + (j : Nat) ≠ k) (m : Std.TreeMap Nat Word) :
    (is.foldl (fun m j => m.insert (base + j) b[j]) m).getD k 0 = m.getD k 0 := by
  induction is generalizing m with
  | nil => rfl
  | cons j is ih =>
    have hj : base + (j : Nat) ≠ k := h j List.mem_cons_self
    rw [List.foldl_cons, ih fun l hl => h l (List.mem_cons_of_mem _ hl), Std.TreeMap.getD_insert]
    simp [hj]

theorem getD_foldl_insert (b : Block) (base : Nat) {is : List (Fin lineWords)} {i : Fin lineWords}
    (hi : i ∈ is) (m : Std.TreeMap Nat Word) :
    (is.foldl (fun m j => m.insert (base + j) b[j]) m).getD (base + i) 0 = b[i] := by
  induction is generalizing m with
  | nil => exact absurd hi List.not_mem_nil
  | cons j is ih =>
    rw [List.foldl_cons]
    by_cases h : i ∈ is
    · exact ih h _
    · obtain rfl : i = j := (List.mem_cons.mp hi).resolve_right h
      rw [getD_foldl_insert_of_ne, Std.TreeMap.getD_insert_self]
      intro l hl he
      exact h (Fin.ext (Nat.add_left_cancel he) ▸ hl)

theorem wordNumber_eq (a : Addr) : a.wordNumber = a.line.wordNumber + a.word := by
  have := a.val.toNat_lt
  simp only [Addr.wordNumber, Addr.word, Addr.line, Addr.ofLine, Addr.lineNumber, lineSize,
    wordSize, UInt32.toNat_ofNat']
  omega

theorem wordNumber_line (a : Addr) : a.line.wordNumber = a.lineNumber * lineWords := by
  have := a.lineNumber_lt
  simp only [Addr.wordNumber, Addr.line, Addr.ofLine, lineSize, wordSize, lineWords,
    UInt32.toNat_ofNat'] at this ⊢
  omega

/-- **A written line is read back**, and no other line changes. -/
theorem readWord_writeBlock? {s s' : Store} {a : Addr} {b : Block}
    (h : s.writeBlock? a b = some s') (x : Addr) :
    s'.readWord x = if x.lineNumber = a.lineNumber then b[x.word] else s.readWord x := by
  simp only [writeBlock?] at h
  split at h
  · cases h
    by_cases e : x.lineNumber = a.lineNumber
    · rw [if_pos e, readWord, wordNumber_eq x, Addr.line_eq_line_iff.mpr e]
      exact getD_foldl_insert b _ (List.mem_finRange _) _
    · have hw := x.word.isLt
      simp only [if_neg e, readWord, putBlock]
      refine getD_foldl_insert_of_ne b (fun j _ => ?_) _
      have hj := j.isLt
      rw [wordNumber_eq x, wordNumber_line, wordNumber_line]
      simp only [lineWords] at hw hj ⊢
      omega
  · cases h

end Store

end Snooping
