import Snooping.Proofs.Trace.Grammar

/-!
# Traces that are written

What is written for a trace reads back: one line for each instruction, with anything between them
that spells no instruction. Only the instructions before a store count for what it stores by
default, and every line counts for the number in a warning.

* **`TraceLine`**, `TraceLine.Writes`: what a line is written for.
* **`Document`**: whole texts.
* `Reading.addLine_of_writes`, `Reading.foldl_addLine`: reading is adding entries.
* `Reading.program_addEntries`, `Reading.skipped_addEntries`: what entries come to.
* **`Reading.undoes_writing`**: reading undoes writing.
-/

namespace Snooping

open Text (Separated)

variable {core : Nat} {i : Instr} {e : TraceLine} {es : List TraceLine} {l text : List Char}
  {r : Reading}

/-! ## Instructions on lines -/

/-- A word with its mark and at least `width` digits. -/
def Text.marked (width : Nat) (w : UInt32) : List Char :=
  '0' :: 'x' :: (Text.hex width w.toNat).toList

/-- The fields that are written for an instruction. -/
def Instr.fields (width : Nat) : Instr → List (List Char)
  | .read a => [['0'], Text.marked width a.val]
  | .write a v => [['1'], Text.marked width a.val, Text.marked width v]
  | .other d => [['2'], Text.marked width d]

/-- An instruction on a line of its own. -/
def Instr.line (width : Nat) (i : Instr) : List Char := [' '].intercalate (i.fields width) ++ ['\n']

/-- **What a line is written for.** -/
inductive TraceLine
  | instr (i : Instr)
  /-- A store that does not give its value. -/
  | store (a : Addr)
  /-- A blank line or a comment. -/
  | silent
  /-- A line that spells no instruction. -/
  | rejected (text : String)

namespace TraceLine

/-- A line is written for an entry, with blanks as one likes. -/
inductive Writes : TraceLine → List Char → Prop
  | instr {i : Instr} {l : List Char} (width : Nat) (h : Separated (i.fields width) l) :
      Writes (.instr i) l
  | store {a : Addr} {l : List Char} (width : Nat)
      (h : Separated [['1'], Text.marked width a.val] l) : Writes (.store a) l
  | silent {l : List Char} (h : Reading.isSilent (Text.trim l)) : Writes .silent l
  | rejected {l : List Char} {core index : Nat} (hl : Reading.isSilent (Text.trim l) = false)
      (h : Instr.ofLine? core index (Text.trim l) = none) :
      Writes (.rejected (String.ofList (Text.trim l))) l

/-- The instruction of an entry, given the value that is stored by default. -/
def content? : TraceLine → Option (Word → Instr)
  | .instr i => some fun _ => i
  | .store a => some fun v => .write a v
  | .silent | .rejected _ => none

/-- The instruction that is written in full. -/
def instr? : TraceLine → Option Instr
  | .instr i => some i
  | .store _ | .silent | .rejected _ => none

/-- The line that is skipped, given its number. -/
def skipped? (number : Nat) : TraceLine → Option SkippedLine
  | .rejected t => some ⟨number, t⟩
  | .instr _ | .store _ | .silent => none

end TraceLine

/-- **A text of entries**, one on a line. A carriage return may stand before the line feed, and the
last line may go without one. -/
inductive Document : List TraceLine → List Char → Prop
  | nil : Document [] []
  | last {e : TraceLine} {l : List Char} (h : e.Writes l) (hl : '\n' ∉ l) : Document [e] l
  | line {e : TraceLine} {es : List TraceLine} {l ending text : List Char} (h : e.Writes l)
      (hl : '\n' ∉ l) (he : ending = [] ∨ ending = ['\r']) (ht : Document es text) :
      Document (e :: es) (l ++ (ending ++ '\n' :: text))

/-! ## One line -/

theorem Instr.spelled_fields (value : Word) (width : Nat) (i : Instr) :
    Instr.Spelled .loose value (i.fields width) i := by
  have hword (w : UInt32) : Text.LooseWord (Text.marked width w) w :=
    (Text.HexWord.marked (.inl rfl) (Text.digits_hex width w.toNat)).loose
  cases i with
  | read a => exact .read (.plain (.one rfl)) (hword _)
  | write a v => exact .writeValue (.plain (.one rfl)) (hword _) (hword _) trivial
  | other d => exact .other (.plain (.one rfl)) (hword _)

theorem Text.Separated.trim {fs : List (List Char)} (h : Separated fs l) :
    Separated fs (Text.trim l) := by
  rw [← Text.fields_eq_iff, Text.fields_trim]
  exact h.fields_eq

namespace Reading

theorem isSilent_of_separated {f : List Char} {fs : List (List Char)} (h : Separated (f :: fs) l)
    {c : Char} (hf : f.head? = some c) (hc : c ≠ '#') : isSilent (Text.trim l) = false := by
  have hhead := h.head?_trim.trans hf
  obtain ⟨rest, hrest⟩ := List.head?_eq_some_iff.mp hhead
  simp [isSilent, hrest, hc]

theorem ofLine?_eq_none_congr {core' index index' : Nat} (h : Instr.ofLine? core index l = none) :
    Instr.ofLine? core' index' l = none := by
  rw [ofLine?_eq_none_iff] at h ⊢
  rintro j ⟨fs, hfs, hj⟩
  cases hj with
  | read ho ha => exact h _ ⟨_, hfs, .read ho ha⟩
  | write ho ha => exact h _ ⟨_, hfs, .write ho ha⟩
  | writeValue ho ha hv hr => exact h _ ⟨_, hfs, .writeValue ho ha hv hr⟩
  | other ho hd => exact h _ ⟨_, hfs, .other ho hd⟩

/-- Adds an entry to what has been read. -/
def addEntry (core : Nat) (r : Reading) : TraceLine → Reading
  | .instr i => ⟨r.seen + 1, r.program.push i, r.skipped⟩
  | .store a => ⟨r.seen + 1, r.program.push (.write a (stamp core r.program.size)), r.skipped⟩
  | .silent => ⟨r.seen + 1, r.program, r.skipped⟩
  | .rejected t => ⟨r.seen + 1, r.program, r.skipped.push ⟨r.seen + 1, t⟩⟩

/-- **A line is read as the entry that it was written for.** -/
theorem addLine_of_writes (h : e.Writes l) : addLine core r l = addEntry core r e := by
  cases h with
  | @instr i l width h =>
    refine addLine_instr ?_ (Instr.ofLine?_eq_some_iff.mpr ⟨_, h.trim, i.spelled_fields _ width⟩)
    cases i <;> exact isSilent_of_separated h rfl (by decide)
  | store width h =>
    refine addLine_instr (isSilent_of_separated h rfl (by decide))
      (Instr.ofLine?_eq_some_iff.mpr ⟨_, h.trim, .write (.plain (.one rfl)) ?_⟩)
    exact (Text.HexWord.marked (.inl rfl) (Text.digits_hex width _)).loose
  | silent h => exact addLine_silent h
  | rejected hl h => exact addLine_skipped hl (ofLine?_eq_none_congr h)

theorem addLine_ending {ending : List Char} (he : ending = [] ∨ ending = ['\r']) :
    addLine core r (l ++ ending) = addLine core r l := by
  have hblank : Text.Blank ending := by
    obtain rfl | rfl := he
    · exact nofun
    · exact List.forall_mem_singleton.mpr rfl
  have htrim : Text.trim (l ++ ending) = Text.trim l := Text.trim_surround (b := []) nofun hblank l
  simp only [addLine, htrim]

/-! ## Whole texts -/

/-- **A text is read as its entries.** Only what follows the last line feed can be missing, where
nothing is written. -/
theorem foldl_addLine (h : Document es text) (core : Nat) (r : Reading) :
    ((Text.lines text).foldl (addLine core) r).program = (es.foldl (addEntry core) r).program ∧
    ((Text.lines text).foldl (addLine core) r).skipped = (es.foldl (addEntry core) r).skipped := by
  induction h generalizing r with
  | nil => exact ⟨rfl, rfl⟩
  | @last e l h hl =>
    rw [Text.lines_of_notMem hl, List.foldl_cons, List.foldl_nil, ← addLine_of_writes h]
    split_ifs with hnil
    · subst hnil
      exact ⟨rfl, rfl⟩
    · exact ⟨rfl, rfl⟩
  | @line e es l ending text h hl he ht ih =>
    have hnotMem : '\n' ∉ l ++ ending := by
      obtain rfl | rfl := he <;> simpa using hl
    rw [← List.append_assoc, Text.lines_cons hnotMem, List.foldl_cons, addLine_ending he,
      addLine_of_writes h, List.foldl_cons]
    exact ih _

theorem program_addEntries (core : Nat) (es : List TraceLine) (r : Reading) :
    (es.foldl (addEntry core) r).program.toList = r.program.toList ++
      (es.filterMap TraceLine.content?).mapIdx fun k c => c (stamp core (r.program.size + k)) := by
  induction es generalizing r with
  | nil => simp
  | cons e es ih =>
    rw [List.foldl_cons, ih]
    cases e <;>
      simp [addEntry, TraceLine.content?, List.filterMap_cons, Nat.add_assoc, Nat.add_comm 1]

theorem skipped_addEntries (core : Nat) (es : List TraceLine) (r : Reading) :
    (es.foldl (addEntry core) r).skipped.toList = r.skipped.toList ++
      (es.zipIdx (r.seen + 1)).filterMap fun e => e.1.skipped? e.2 := by
  induction es generalizing r with
  | nil => simp
  | cons e es ih =>
    rw [List.foldl_cons, ih]
    cases e <;> simp [addEntry, TraceLine.skipped?]

end Reading

/-! ## What is written for instructions -/

theorem TraceLine.contents_eq (hes : ∀ a, TraceLine.store a ∉ es) (f : Nat → Word) :
    ((es.filterMap content?).mapIdx fun k c => c (f k)) = es.filterMap instr? := by
  induction es generalizing f with
  | nil => rfl
  | cons e es ih =>
    have hrest := ih fun a h => hes a (List.mem_cons_of_mem _ h)
    cases e with
    | instr i => simp [content?, instr?, List.mapIdx_cons, hrest fun k => f (k + 1)]
    | store a => exact absurd List.mem_cons_self (hes a)
    | silent | rejected =>
      rw [List.filterMap_cons_none rfl, List.filterMap_cons_none rfl, hrest]

theorem Instr.solid_fields (width : Nat) (i : Instr) :
    ∀ f ∈ i.fields width, f ≠ [] ∧ ∀ c ∈ f, Text.isBlank c = false := by
  have hword (w : UInt32) : Text.marked width w ≠ [] ∧
      ∀ c ∈ Text.marked width w, Text.isBlank c = false := by
    refine ⟨List.cons_ne_nil _ _, ?_⟩
    rw [Text.marked, List.forall_mem_cons, List.forall_mem_cons]
    exact ⟨rfl, rfl, (Text.digits_hex width w.toNat).solid⟩
  have hop (o : Char) (ho : Text.isBlank o = false) :
      [o] ≠ [] ∧ ∀ c ∈ [o], Text.isBlank c = false :=
    ⟨List.cons_ne_nil o [], List.forall_mem_singleton.mpr ho⟩
  cases i with
  | read a => exact List.forall_mem_cons.mpr ⟨hop '0' rfl, by simpa using hword a.val⟩
  | write a v =>
    refine List.forall_mem_cons.mpr ⟨hop '1' rfl, ?_⟩
    refine List.forall_mem_cons.mpr ⟨hword a.val, ?_⟩
    simpa using hword v
  | other d => exact List.forall_mem_cons.mpr ⟨hop '2' rfl, by simpa using hword d⟩

theorem document_lines (width : Nat) (is : List Instr) :
    Document (is.map TraceLine.instr) (is.flatMap (Instr.line width)) := by
  induction is with
  | nil => exact .nil
  | cons i is ih =>
    have hsolid := i.solid_fields width
    have hl : '\n' ∉ [' '].intercalate (i.fields width) := fun hmem => by
      obtain ⟨f, hf, hc⟩ | hc := Text.mem_intercalate hmem
      · cases (hsolid f hf).2 _ hc
      · cases hc
    have hwrites : (TraceLine.instr i).Writes ([' '].intercalate (i.fields width)) :=
      .instr width (Text.separated_intercalate rfl hsolid)
    simpa [Instr.line] using Document.line hwrites hl (.inl rfl) ih

namespace Reading

/-- **Reading undoes writing**, for every core. What is read of a text are its instructions, where
a store without a value stores what its core and the number of instructions before it come to; and
there is one warning for each line that spells no instruction, with its number. -/
theorem undoes_writing (core : Nat) :
    (∀ es text, Document es text →
      (ofText core text).program.toList =
        ((es.filterMap TraceLine.content?).mapIdx fun k c => c (stamp core k)) ∧
      (ofText core text).warnings core =
        ((es.zipIdx 1).filterMap fun e => e.1.skipped? e.2).map (SkippedLine.message core) ∧
      ((∀ a, TraceLine.store a ∉ es) →
        (ofText core text).program.toList = es.filterMap TraceLine.instr?)) ∧
    ∀ width is, (ofText core (is.flatMap (Instr.line width))).program.toList = is ∧
      (ofText core (is.flatMap (Instr.line width))).warnings core = [] := by
  have hdoc (es : List TraceLine) (text : List Char) (h : Document es text) :
      (ofText core text).program.toList =
        ((es.filterMap TraceLine.content?).mapIdx fun k c => c (stamp core k)) ∧
      (ofText core text).skipped.toList =
        (es.zipIdx 1).filterMap fun e => e.1.skipped? e.2 := by
    obtain ⟨hp, hs⟩ := foldl_addLine h core start
    rw [ofText, hp, hs, program_addEntries, skipped_addEntries]
    simp [start]
  refine ⟨fun es text h => ?_, fun width is => ?_⟩
  · obtain ⟨hp, hs⟩ := hdoc es text h
    refine ⟨hp, congrArg (List.map _) hs, fun hes => ?_⟩
    rw [hp, TraceLine.contents_eq hes]
  · obtain ⟨hp, hs⟩ := hdoc _ _ (document_lines width is)
    have hnone : ∀ e ∈ (is.map TraceLine.instr).zipIdx 1, e.1.skipped? e.2 = none := fun e he => by
      obtain ⟨i, -, hi⟩ := List.mem_map.mp (List.fst_mem_of_mem_zipIdx he)
      rw [← hi]
      rfl
    rw [hp, TraceLine.contents_eq (by simp), warnings, hs, List.filterMap_eq_nil_iff.mpr hnone]
    simp [List.filterMap_map, Function.comp_def, TraceLine.instr?]

/-- A comment, a load, a store without a value behind two lines that do not count for it, and a last
line without its end. -/
theorem undoes_writing_all : ∃ es text, Document es text ∧
    text = "# c\n 0 0x40\r\n\nbad\n1\t0x08\n2 0xa".toList ∧
    (ofText 3 text).program.toList =
      [.read ⟨0x40⟩, .write ⟨8⟩ (stamp 3 1), .other 10] ∧
    (ofText 3 text).warnings 3 = ["core 3: skipping malformed trace line 4: 'bad'"] := by
  have h : Document [.silent, .instr (.read ⟨0x40⟩), .silent, .rejected "bad", .store ⟨8⟩,
      .instr (.other 10)] "# c\n 0 0x40\r\n\nbad\n1\t0x08\n2 0xa".toList :=
    .line (l := "# c".toList) (.silent rfl) (by decide) (.inl rfl) <|
    .line (l := " 0 0x40".toList) (.instr 1 (Text.fields_eq_iff.mp (by decide +kernel))) (by decide)
      (.inr rfl) <|
    .line (l := []) (.silent rfl) (by decide) (.inl rfl) <|
    .line (l := "bad".toList) (@TraceLine.Writes.rejected _ 0 0 (by decide) (by decide +kernel))
      (by decide) (.inl rfl) <|
    .line (l := "1\t0x08".toList) (.store 2 (Text.fields_eq_iff.mp (by decide +kernel))) (by decide)
      (.inl rfl) <|
    .last (.instr 1 (Text.fields_eq_iff.mp (by decide +kernel))) (by decide)
  obtain ⟨hp, hw, -⟩ := (undoes_writing 3).1 _ _ h
  exact ⟨_, _, h, rfl, hp, hw.trans (by decide +kernel)⟩

end Reading

end Snooping
