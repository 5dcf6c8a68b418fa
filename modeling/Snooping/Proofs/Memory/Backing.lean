import Snooping.Proofs.Memory.Fifo

/-!
# Memory as an array of lines

What is written reads back, line by line, up to the end of memory. Beyond it nothing is ever written
and all words are zero. Words are read one by one and lines are written at once; both find the same
words, also at the end of memory and at the last addresses there are.

* **`lastBlock`**: what some writes leave on a line; `Memory.writeAll`: makes them.
* `Memory.readWord_eq`, `Memory.readWord_writeBlock`: words and lines.
* **`Memory.Wrote`**, **`Memory.Backs`**: memory holds what was written.
* `Memory.Wrote.writeBlock`, `Memory.wrote_writeAll`: one more write, and any number of them.
* **`Memory.backing_exact`**: memory holds whatever was written.
-/

namespace Snooping

/-- **The block of the last write to a line**, or zeros. -/
def lastBlock (writes : List (Addr × Block)) (a : Addr) : Block :=
  ((writes.reverse.find? fun w => w.1.line = a.line).map Prod.snd).getD Block.zero

theorem lastBlock_concat (writes : List (Addr × Block)) (w : Addr × Block) (a : Addr) :
    lastBlock (writes ++ [w]) a = if a.line = w.1.line then w.2 else lastBlock writes a := by
  rw [lastBlock, List.reverse_concat, List.find?_cons]
  by_cases h : a.line = w.1.line
  · simp only [h, decide_true, if_true]
    rfl
  · simp only [h, Ne.symm h, decide_false, if_false]
    rfl

namespace Memory

variable {s : Spec} {m : Memory} {writes : List (Addr × Block)}

/-- Writes some lines, one after the other. -/
def writeAll (m : Memory) (writes : List (Addr × Block)) : Memory :=
  writes.foldl (fun m w => m.writeBlock w.1 w.2) m

/-! ## Words and lines -/

theorem getElem_readBlock (m : Memory) (a : Addr) (i : Fin lineWords) :
    (m.readBlock a)[i] = m.readWord ⟨a.line.val + UInt32.ofNat (i * wordSize)⟩ :=
  Vector.getElem_ofFn i.isLt

theorem readWord_eq (m : Memory) (a : Addr) : m.readWord a = (m.readBlock a)[a.word] := by
  obtain ⟨hline, hword⟩ := a.word_of_line a.word
  rw [getElem_readBlock, readWord, readWord, Store.readWord, Store.readWord, Store.wordNumber_eq a,
    Store.wordNumber_eq ⟨a.line.val + UInt32.ofNat (a.word * wordSize)⟩,
    Addr.line_eq_line_iff.mpr hline, hword]

/-- **What the words are once a line was written.** -/
theorem readWord_writeBlock (m : Memory) (a x : Addr) (d : Block) :
    (m.writeBlock a d).readWord x =
      if m.lands a ∧ x.line = a.line then d[x.word] else m.readWord x := by
  rw [readWord_eq, readBlock_writeBlock]
  split_ifs
  · rfl
  · exact (m.readWord_eq x).symm

/-! ## What was written -/

/-- **Memory after some writes**: its room, its lines and what it has counted. -/
structure Wrote (s : Spec) (writes : List (Addr × Block)) (m : Memory) : Prop where
  capacity : m.store.capacity = s.memoryWords
  /-- A line is what was last written to it, and zeros beyond the end. -/
  line : ∀ a, m.readBlock a = if s.covers a.line then lastBlock writes a else Block.zero
  dropped : m.stats.droppedWrites = writes.countP fun w => !s.covers w.1.line

/-- **Memory holds what was written**, and nothing else. -/
structure Backs (s : Spec) (writes : List (Addr × Block)) (m : Memory) : Prop
    extends m.Wrote s writes where
  word : ∀ a, m.readWord a = (m.readBlock a)[a.word]
  /-- The words of a line follow each other, and never start again from the first address. -/
  place : ∀ a (i : Fin lineWords), ∃ x : Addr,
    x.val.toNat = a.line.val.toNat + i * wordSize ∧ (m.readBlock a)[i] = m.readWord x
  /-- A write beyond the end changes no word. -/
  beyond : ∀ a d x, s.covers a.line = false → (m.writeBlock a d).readWord x = m.readWord x
  /-- Any other write changes all words of its line and no others. -/
  whole : ∀ a d x, s.covers a.line → (m.writeBlock a d).readWord x =
    if x.line = a.line then d[x.word] else m.readWord x

theorem Wrote.lands_eq (hs : s.memorySize.toNat % lineSize = 0) (h : m.Wrote s writes) (a : Addr) :
    m.lands a = s.covers a.line := by
  rw [← lands_eq_covers hs h.capacity, lands, lands, a.line_line]

theorem Wrote.writeBlock (hs : s.memorySize.toNat % lineSize = 0) (h : m.Wrote s writes)
    (w : Addr × Block) : (m.writeBlock w.1 w.2).Wrote s (writes ++ [w]) := by
  refine ⟨(m.capacity_writeBlock w.1 w.2).trans h.capacity, fun a => ?_, ?_⟩
  · rw [readBlock_writeBlock, lastBlock_concat, h.lands_eq hs, h.line]
    -- Only a write to the same line counts, and it is in memory if that line is.
    by_cases ha : a.line = w.1.line
    · simp only [ha, and_true, if_true]
      split_ifs <;> rfl
    · simp only [ha, and_false, if_false]
  · rw [stats_writeBlock, h.dropped, h.lands_eq hs, List.countP_append,
      List.countP_singleton]

theorem wrote_writeAll (hs : s.memorySize.toNat % lineSize = 0) (writes : List (Addr × Block)) :
    ((idle s).writeAll writes).Wrote s writes := by
  induction writes using List.reverseRecOn with
  | nil => exact ⟨rfl, fun a => (readBlock_idle s a).trans (ite_self _).symm, rfl⟩
  | append_singleton writes w ih =>
    rw [writeAll, List.foldl_append]
    exact ih.writeBlock hs w

/-- **Memory is an array of lines with an end**, whatever was written to it, and to which
addresses. -/
theorem backing_exact (hs : s.memorySize.toNat % lineSize = 0) (writes : List (Addr × Block)) :
    ((idle s).writeAll writes).Backs s writes := by
  have h := wrote_writeAll hs writes
  refine ⟨h, readWord_eq _, fun a i => ⟨_, a.toNat_word i, getElem_readBlock _ a i⟩,
    fun a d x ha => ?_, fun a d x ha => ?_⟩
  · rw [readWord_writeBlock, h.lands_eq hs, ha]
    rfl
  · rw [readWord_writeBlock, h.lands_eq hs, ha]
    simp only [true_and]

theorem backing_exact_ends : ∃ m, m = (idle { memorySize := 64 }).writeAll
      [(⟨60⟩, Vector.replicate 8 1), (⟨64⟩, Vector.replicate 8 2), (⟨32⟩, Vector.replicate 8 3),
        (⟨0xffffffff⟩, Vector.replicate 8 4)] ∧
    m.stats.droppedWrites = 2 ∧ m.readBlock ⟨63⟩ = Vector.replicate 8 3 ∧
    m.readBlock ⟨64⟩ = Block.zero ∧ m.readBlock ⟨0xffffffff⟩ = Block.zero := by
  have h := backing_exact (s := { memorySize := 64 }) rfl
    [(⟨60⟩, Vector.replicate 8 1), (⟨64⟩, Vector.replicate 8 2), (⟨32⟩, Vector.replicate 8 3),
      (⟨0xffffffff⟩, Vector.replicate 8 4)]
  exact ⟨_, rfl, h.dropped.trans (by decide), (h.line _).trans rfl, (h.line _).trans rfl,
    (h.line _).trans rfl⟩

end Memory

end Snooping
