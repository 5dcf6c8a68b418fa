import Snooping.Proofs.Text.Fields
import Snooping.Proofs.Text.Numeral
import Snooping.Trace.Parse

/-!
# The grammar of a trace

A line of a trace is documented as an operation and a word, with another word where a store gives
its value. More is read than is documented: signs, further marks, and any fields after the value of
a store. What is read differs in nothing else, and every other line is skipped with one warning.

* **`Style`**, `Style.documented`, `Style.loose`: ways of writing lines.
* **`Instr.Spelled`**, `Instr.OnLine`: the instruction that fields or a line spell.
* **`Instr.ofFields?_eq_some_iff`**: the lines that are read.
* `Instr.spelled_documented_iff`: those of them that are documented.
* **`Style.Reads`**, **`Reading.accepts_exactly`**: whole traces.
-/

namespace Snooping

open Text (Digits Signed HexWord LooseWord Separated)

variable {core index : Nat} {value : Word} {w : UInt32} {i : Instr} {l f : List Char}
  {fs ls : List (List Char)} {p : List Instr} {s : List SkippedLine}

/-- **A way of writing lines**: what spells an operation, what spells a word, and which fields may
follow the value of a store. -/
structure Style where
  op : List Char → Nat → Prop
  word : List Char → Word → Prop
  rest : List (List Char) → Prop

/-- The lines that are documented. -/
def Style.documented : Style := ⟨Digits 10, HexWord, (· = [])⟩

/-- The lines that are read. -/
def Style.loose : Style := ⟨Signed 10, LooseWord, fun _ => True⟩

/-- **The instruction that fields spell**, where a store without a value stores `value`. -/
inductive Instr.Spelled (S : Style) (value : Word) : List (List Char) → Instr → Prop
  | read {o f : List Char} {a : Word} (ho : S.op o 0) (ha : S.word f a) :
      Spelled S value [o, f] (.read ⟨a⟩)
  | write {o f : List Char} {a : Word} (ho : S.op o 1) (ha : S.word f a) :
      Spelled S value [o, f] (.write ⟨a⟩ value)
  | writeValue {o f g : List Char} {rest : List (List Char)} {a v : Word} (ho : S.op o 1)
      (ha : S.word f a) (hv : S.word g v) (hr : S.rest rest) :
      Spelled S value (o :: f :: g :: rest) (.write ⟨a⟩ v)
  | other {o f : List Char} {d : Word} (ho : S.op o 2) (hd : S.word f d) :
      Spelled S value [o, f] (.other d)

/-- The instruction that a line spells. -/
def Instr.OnLine (S : Style) (value : Word) (l : List Char) (i : Instr) : Prop :=
  ∃ fs, Separated fs l ∧ Instr.Spelled S value fs i

namespace Instr

/-! ## What is read -/

theorem numeral?_of_signed {k : Nat} (h : Signed 10 f k) (hk : k < 3) :
    Text.numeral? 10 UInt32.size f = some k :=
  Text.numeral?_eq_some_iff.mpr ⟨h, Nat.lt_trans hk (by decide)⟩

theorem Spelled.ofFields? (h : Spelled .loose value fs i) : ofFields? value fs = some i := by
  cases h with
  | read ho ha | write ho ha | other ho ha =>
    rw [Instr.ofFields?, numeral?_of_signed ho (by decide), Text.hex?_eq_some_iff.mpr ha]
    rfl
  | writeValue ho ha hv =>
    rw [Instr.ofFields?, numeral?_of_signed ho (by decide), Text.hex?_eq_some_iff.mpr ha,
      List.head?_cons, Option.map_some, Text.hex?_eq_some_iff.mpr hv]
    rfl

theorem spelled_of_ofFields? (h : ofFields? value fs = some i) : Spelled .loose value fs i := by
  match fs, h with
  | o :: f :: rest, h =>
    obtain ⟨k, hk, h⟩ := Option.bind_eq_some_iff.mp h
    obtain ⟨a, ha, h⟩ := Option.bind_eq_some_iff.mp h
    have ho : Signed 10 o k := (Text.numeral?_eq_some_iff.mp hk).1
    have hw : LooseWord f a := Text.hex?_eq_some_iff.mp ha
    cases rest with
    | nil =>
      match k, ho, h with
      | 0, ho, rfl => exact .read ho hw
      | 1, ho, rfl => exact .write ho hw
      | 2, ho, rfl => exact .other ho hw
    | cons g rest =>
      cases hg : Text.hex? g with
      | none =>
        rw [List.head?_cons, Option.map_some, hg] at h
        match k, h with
        | 0, h | 1, h | 2, h | _ + 3, h => cases h
      | some v =>
        rw [List.head?_cons, Option.map_some, hg] at h
        match k, ho, h with
        | 1, ho, rfl => exact .writeValue ho hw (Text.hex?_eq_some_iff.mp hg) trivial
        | 2, _, h | _ + 3, _, h => cases h

/-- **The fields that are read as an instruction.** -/
theorem ofFields?_eq_some_iff : ofFields? value fs = some i ↔ Spelled .loose value fs i :=
  ⟨spelled_of_ofFields?, Spelled.ofFields?⟩

theorem ofLine?_eq_some_iff :
    ofLine? core index l = some i ↔ OnLine .loose (stamp core index) l i := by
  rw [ofLine?, ofFields?_eq_some_iff]
  constructor
  · exact fun h => ⟨_, Text.fields_eq_iff.mp rfl, h⟩
  · rintro ⟨fs, hfs, h⟩
    rwa [Text.fields_eq_iff.mpr hfs]

/-! ## What is documented -/

/-- A field without a sign, and with one mark at most. -/
def PlainField (f : List Char) : Prop :=
  '+' ∉ f ∧ f.countP (fun c => c = 'x' || c = 'X') ≤ 1

instance : DecidablePred PlainField := fun _ => inferInstanceAs (Decidable (_ ∧ _))

/-- Not too many fields, and all of them plain. -/
def PlainFields (fs : List (List Char)) : Prop := fs.length ≤ 3 ∧ ∀ f ∈ fs, PlainField f

instance : DecidablePred PlainFields := fun _ => inferInstanceAs (Decidable (_ ∧ _))

theorem countP_of_digits {base n : Nat} (h : Digits base f n) :
    f.countP (fun c => c = 'x' || c = 'X') = 0 := by
  refine List.countP_eq_zero.mpr fun c hc => ?_
  rw [Bool.or_eq_true, decide_eq_true_eq, decide_eq_true_eq]
  rintro (rfl | rfl)
  · exact h.notMem rfl hc
  · exact h.notMem rfl hc

theorem countP_marks {x : Char} (hx : x = 'x' ∨ x = 'X') (k : Nat) :
    (Text.marks x k).countP (fun c => c = 'x' || c = 'X') = k := by
  induction k with
  | zero => rfl
  | succ k ih =>
    rw [Text.marks_succ, List.countP_cons, List.countP_cons, ih]
    obtain rfl | rfl := hx <;> rfl

theorem plain_of_hexWord (h : HexWord f w) : PlainField f := by
  cases h with
  | plain h => exact ⟨h.notMem rfl, by rw [countP_of_digits h]; decide⟩
  | @marked ds w x hx h =>
    refine ⟨?_, ?_⟩
    · obtain rfl | rfl := hx <;> simpa using h.notMem (c := '+') rfl
    · rw [List.countP_cons, List.countP_cons, countP_of_digits h]
      obtain rfl | rfl := hx <;> decide

theorem hexWord_of_plain (h : LooseWord f w) (hf : PlainField f) : HexWord f w := by
  cases h with
  | @mk j k cs w hs =>
    obtain ⟨hplus, hcount⟩ := hf
    cases hs with
    | plus h => exact absurd (by simp) hplus
    | plain h =>
      rw [List.countP_append, List.countP_append, countP_marks (.inl rfl), countP_marks (.inr rfl),
        countP_of_digits h] at hcount
      obtain ⟨rfl, rfl⟩ | ⟨rfl, rfl⟩ | ⟨rfl, rfl⟩ :
          j = 0 ∧ k = 0 ∨ j = 1 ∧ k = 0 ∨ j = 0 ∧ k = 1 := by omega
      · exact .plain h
      · exact .marked (.inl rfl) h
      · exact .marked (.inr rfl) h

theorem plain_of_digits {base n : Nat} (h : Digits base f n) : PlainField f :=
  ⟨h.notMem rfl, by rw [countP_of_digits h]; decide⟩

theorem digits_of_plain {base n : Nat} (h : Signed base f n) (hf : PlainField f) :
    Digits base f n := by
  cases h with
  | plain h => exact h
  | plus h => exact absurd List.mem_cons_self hf.1

/-- **The documented lines** are those that are read and plain. -/
theorem spelled_documented_iff :
    Spelled .documented value fs i ↔ Spelled .loose value fs i ∧ PlainFields fs := by
  constructor
  · intro h
    cases h with
    | read ho ha =>
      exact ⟨.read (.plain ho) ha.loose, by simp,
        by simp [plain_of_digits ho, plain_of_hexWord ha]⟩
    | write ho ha =>
      exact ⟨.write (.plain ho) ha.loose, by simp,
        by simp [plain_of_digits ho, plain_of_hexWord ha]⟩
    | writeValue ho ha hv hr =>
      obtain rfl := hr
      exact ⟨.writeValue (.plain ho) ha.loose hv.loose trivial, by simp,
        by simp [plain_of_digits ho, plain_of_hexWord ha, plain_of_hexWord hv]⟩
    | other ho hd =>
      exact ⟨.other (.plain ho) hd.loose, by simp,
        by simp [plain_of_digits ho, plain_of_hexWord hd]⟩
  · rintro ⟨h, hlen, hplain⟩
    cases h with
    | read ho ha =>
      exact .read (digits_of_plain ho (hplain _ (by simp)))
        (hexWord_of_plain ha (hplain _ (by simp)))
    | write ho ha =>
      exact .write (digits_of_plain ho (hplain _ (by simp)))
        (hexWord_of_plain ha (hplain _ (by simp)))
    | @writeValue o f g rest a v ho ha hv =>
      rw [List.length_cons, List.length_cons, List.length_cons] at hlen
      have hrest : rest = [] := List.length_eq_zero_iff.mp (by omega)
      exact .writeValue (digits_of_plain ho (hplain _ (by simp)))
        (hexWord_of_plain ha (hplain _ (by simp))) (hexWord_of_plain hv (hplain _ (by simp))) hrest
    | other ho hd =>
      exact .other (digits_of_plain ho (hplain _ (by simp)))
        (hexWord_of_plain hd (hplain _ (by simp)))

end Instr

/-! ## Whole traces -/

/-- **How the lines of a trace are read**: the instructions that they spell, and the lines that were
skipped with their numbers. A silent line is neither. -/
inductive Style.Reads (S : Style) (core : Nat) :
    List (List Char) → List Instr → List SkippedLine → Prop
  | start : Reads S core [] [] []
  | silent {ls : List (List Char)} {p : List Instr} {s : List SkippedLine} {l : List Char}
      (h : Reads S core ls p s) (hl : Reading.isSilent (Text.trim l)) : Reads S core (ls ++ [l]) p s
  | instr {ls : List (List Char)} {p : List Instr} {s : List SkippedLine} {l : List Char}
      {i : Instr} (h : Reads S core ls p s) (hl : Reading.isSilent (Text.trim l) = false)
      (hi : Instr.OnLine S (stamp core p.length) (Text.trim l) i) :
      Reads S core (ls ++ [l]) (p ++ [i]) s
  | skipped {ls : List (List Char)} {p : List Instr} {s : List SkippedLine} {l : List Char}
      (h : Reads S core ls p s) (hl : Reading.isSilent (Text.trim l) = false)
      (hi : ∀ i, ¬ Instr.OnLine S (stamp core p.length) (Text.trim l) i) :
      Reads S core (ls ++ [l]) p (s ++ [⟨ls.length + 1, String.ofList (Text.trim l)⟩])

namespace Reading

/-- What has been read of some lines. -/
def ofLines (core : Nat) (ls : List (List Char)) : Reading := ls.foldl (addLine core) start

theorem ofLines_concat (core : Nat) (ls : List (List Char)) (l : List Char) :
    ofLines core (ls ++ [l]) = addLine core (ofLines core ls) l := by
  rw [ofLines, List.foldl_append]
  rfl

variable {r : Reading}

theorem addLine_silent (hl : isSilent (Text.trim l)) :
    addLine core r l = { r with seen := r.seen + 1 } := by
  simp only [addLine, hl, if_true]

theorem addLine_instr (hl : isSilent (Text.trim l) = false)
    (h : Instr.ofLine? core r.program.size (Text.trim l) = some i) :
    addLine core r l = ⟨r.seen + 1, r.program.push i, r.skipped⟩ := by
  simp only [addLine, hl, h, Bool.false_eq_true, if_false]

theorem addLine_skipped (hl : isSilent (Text.trim l) = false)
    (h : Instr.ofLine? core r.program.size (Text.trim l) = none) : addLine core r l =
      ⟨r.seen + 1, r.program, r.skipped.push ⟨r.seen + 1, String.ofList (Text.trim l)⟩⟩ := by
  simp only [addLine, hl, h, Bool.false_eq_true, if_false]

theorem seen_addLine (core : Nat) (r : Reading) (l : List Char) :
    (addLine core r l).seen = r.seen + 1 := by
  cases hl : isSilent (Text.trim l) with
  | true => rw [addLine_silent hl]
  | false =>
    cases h : Instr.ofLine? core r.program.size (Text.trim l) with
    | none => rw [addLine_skipped hl h]
    | some i => rw [addLine_instr hl h]

theorem seen_ofLines (core : Nat) (ls : List (List Char)) : (ofLines core ls).seen = ls.length := by
  induction ls using List.reverseRecOn with
  | nil => rfl
  | append_singleton ls l ih => rw [ofLines_concat, seen_addLine, ih, List.length_append]; rfl

theorem ofLine?_eq_none_iff : Instr.ofLine? core index l = none ↔
    ∀ i, ¬ Instr.OnLine .loose (stamp core index) l i := by
  simp only [← Instr.ofLine?_eq_some_iff, Option.eq_none_iff_forall_ne_some, ne_eq]

theorem reads_ofLines (core : Nat) (ls : List (List Char)) : Style.loose.Reads core ls
    (ofLines core ls).program.toList (ofLines core ls).skipped.toList := by
  induction ls using List.reverseRecOn with
  | nil => exact .start
  | append_singleton ls l ih =>
    rw [ofLines_concat]
    cases hl : isSilent (Text.trim l) with
    | true => rw [addLine_silent hl]; exact ih.silent hl
    | false =>
      cases h : Instr.ofLine? core (ofLines core ls).program.size (Text.trim l) with
      | none =>
        rw [addLine_skipped hl h, seen_ofLines, Array.toList_push]
        exact ih.skipped hl (ofLine?_eq_none_iff.mp h)
      | some i =>
        rw [addLine_instr hl h, Array.toList_push]
        exact ih.instr hl (Instr.ofLine?_eq_some_iff.mp h)

theorem eq_of_reads (h : Style.loose.Reads core ls p s) :
    (ofLines core ls).program.toList = p ∧ (ofLines core ls).skipped.toList = s := by
  induction h with
  | start => exact ⟨rfl, rfl⟩
  | silent h hl ih => rwa [ofLines_concat, addLine_silent hl]
  | instr h hl hi ih =>
    obtain ⟨hp, hs⟩ := ih
    rw [← hp, Array.length_toList] at hi
    rw [ofLines_concat, addLine_instr hl (Instr.ofLine?_eq_some_iff.mpr hi), Array.toList_push, hp]
    exact ⟨rfl, hs⟩
  | skipped h hl hi ih =>
    obtain ⟨hp, hs⟩ := ih
    rw [← hp, Array.length_toList] at hi
    rw [ofLines_concat, addLine_skipped hl (ofLine?_eq_none_iff.mpr hi), Array.toList_push, hs,
      seen_ofLines]
    exact ⟨hp, rfl⟩

end Reading

theorem Style.Reads.congr {S T : Style} (h : S.Reads core ls p s)
    (hST : ∀ l ∈ ls, Reading.isSilent (Text.trim l) = false → ∀ v i,
      Instr.OnLine S v (Text.trim l) i ↔ Instr.OnLine T v (Text.trim l) i) :
    T.Reads core ls p s := by
  induction h with
  | start => exact .start
  | silent h hl ih => exact (ih fun l hmem => hST l (List.mem_append_left _ hmem)).silent hl
  | @instr ls p s l i h hl hi ih =>
    exact (ih fun l hmem => hST l (List.mem_append_left _ hmem)).instr hl
      ((hST l (by simp) hl _ _).mp hi)
  | @skipped ls p s l h hl hi ih =>
    exact (ih fun l hmem => hST l (List.mem_append_left _ hmem)).skipped hl
      fun i hT => hi i ((hST l (by simp) hl _ _).mpr hT)

theorem Style.Reads.onLine {S : Style} (h : S.Reads core ls p s) (hi : i ∈ p) :
    ∃ l ∈ ls, ∃ v, Instr.OnLine S v (Text.trim l) i := by
  induction h with
  | start => cases hi
  | silent h hl ih | skipped h hl _ ih =>
    obtain ⟨l, hmem, hv⟩ := ih hi
    exact ⟨l, List.mem_append_left _ hmem, hv⟩
  | @instr ls p s l j h hl hj ih =>
    obtain hi | hi := List.mem_append.mp hi
    · obtain ⟨l, hmem, hv⟩ := ih hi
      exact ⟨l, List.mem_append_left _ hmem, hv⟩
    · obtain rfl := List.mem_singleton.mp hi
      exact ⟨l, by simp, _, hj⟩

namespace Reading

/-- **The lines that are read**, in any trace of any core: an instruction for each line that spells
one, and one warning for each other line that is not silent. The documented lines are those that are
read and plain; a trace in which all lines that are read are plain is read as it is documented. -/
theorem accepts_exactly (core : Nat) (text : List Char) :
    Style.loose.Reads core (Text.lines text) (ofText core text).program.toList
      (ofText core text).skipped.toList ∧
    (∀ p s, Style.loose.Reads core (Text.lines text) p s → (ofText core text).program.toList = p ∧
      (ofText core text).warnings core = s.map (SkippedLine.message core)) ∧
    (∀ value fs i, Instr.Spelled .documented value fs i ↔
      Instr.Spelled .loose value fs i ∧ Instr.PlainFields fs) ∧
    ((∀ l ∈ Text.lines text, isSilent (Text.trim l) = false →
        (∃ v i, Instr.OnLine .loose v (Text.trim l) i) →
        Instr.PlainFields (Text.fields (Text.trim l))) →
      Style.documented.Reads core (Text.lines text) (ofText core text).program.toList
        (ofText core text).skipped.toList) := by
  have hread := reads_ofLines core (Text.lines text)
  refine ⟨hread, fun p s h => ?_, fun _ _ _ => Instr.spelled_documented_iff, fun hplain => ?_⟩
  · obtain ⟨hp, rfl⟩ := eq_of_reads h
    exact ⟨hp, rfl⟩
  · refine hread.congr fun l hmem hl v i => ⟨fun h => ?_, fun h => ?_⟩
    · have hfields := hplain l hmem hl ⟨v, i, h⟩
      obtain ⟨fs, hfs, hi⟩ := h
      rw [Text.fields_eq_iff.mpr hfs] at hfields
      exact ⟨fs, hfs, Instr.spelled_documented_iff.mpr ⟨hi, hfields⟩⟩
    · obtain ⟨fs, hfs, hi⟩ := h
      exact ⟨fs, hfs, (Instr.spelled_documented_iff.mp hi).1⟩

theorem accepts_exactly_plain : ∃ text, text = "# a\n\n 1 0x40\n1 8 0Xff\r\n0 20 1\n2 a".toList ∧
    (ofText 2 text).program.toList =
      [.write ⟨0x40⟩ 0x2000000, .write ⟨8⟩ 0xff, .other 10] ∧
    (ofText 2 text).skipped.toList = [⟨5, "0 20 1"⟩] ∧
    Style.documented.Reads 2 (Text.lines text) (ofText 2 text).program.toList
      (ofText 2 text).skipped.toList := by
  have hplain : ∀ l ∈ Text.lines "# a\n\n 1 0x40\n1 8 0Xff\r\n0 20 1\n2 a".toList,
      isSilent (Text.trim l) = false → Instr.PlainFields (Text.fields (Text.trim l)) := by
    decide +kernel
  exact ⟨_, rfl, by decide +kernel, by decide +kernel,
    (accepts_exactly 2 _).2.2.2 fun l hl hs _ => hplain l hl hs⟩

/-- A fourth field, a mark too many, and signs: all these lines are read, without a warning. -/
theorem accepts_undocumented :
    (ofText 0 "1 0x10 0x20 0x30\n0 0x0x10\n0 +10\n+0 10\n".toList).program.toList =
      [.write ⟨0x10⟩ 0x20, .read ⟨0x10⟩, .read ⟨0x10⟩, .read ⟨0x10⟩] ∧
    (ofText 0 "1 0x10 0x20 0x30\n0 0x0x10\n0 +10\n+0 10\n".toList).skipped.toList = [] ∧
    ∀ p s, Style.documented.Reads 0
      (Text.lines "1 0x10 0x20 0x30\n0 0x0x10\n0 +10\n+0 10\n".toList) p s → p = [] := by
  refine ⟨by decide +kernel, by decide +kernel, fun p s h => ?_⟩
  have hplain : ∀ l ∈ Text.lines "1 0x10 0x20 0x30\n0 0x0x10\n0 +10\n+0 10\n".toList,
      ¬ Instr.PlainFields (Text.fields (Text.trim l)) := by
    decide +kernel
  refine List.eq_nil_iff_forall_not_mem.mpr fun i hi => ?_
  obtain ⟨l, hl, v, fs, hfs, hspell⟩ := h.onLine hi
  rw [← Text.fields_eq_iff] at hfs
  subst hfs
  exact hplain l hl (Instr.spelled_documented_iff.mp hspell).2

end Reading

end Snooping
