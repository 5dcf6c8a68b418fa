import Mathlib.Data.List.TakeWhile
import Mathlib.Tactic.Common
import Snooping.Text.Blank

/-!
# What fields and lines are

A text consists of fields in one way only. Blanks at its ends belong to no field, and every line but
the last one ends with a line feed.

* `Blank`, **`Separated`**: the fields of a text with the blanks between them.
* **`fields_eq_iff`**: a text is taken apart into its fields.
* `trim_surround`, `fields_trim`: blanks around a text.
* **`lines_cons`**, `lines_of_notMem`: the lines of a text.
-/

namespace Snooping.Text

variable {c : Char} {b b' cs f l : List Char} {fs : List (List Char)}

/-- Nothing but blanks. -/
def Blank (cs : List Char) : Prop := ∀ c ∈ cs, isBlank c

instance : DecidablePred Blank := fun _ => inferInstanceAs (Decidable (∀ _ ∈ _, _))

/-- **The fields of a text**: pieces without blanks, with blanks before, between and after them. -/
inductive Separated : List (List Char) → List Char → Prop
  | none {b : List Char} (hb : Blank b) : Separated [] b
  | field {b f cs : List Char} {fs : List (List Char)} (hb : Blank b) (hne : f ≠ [])
      (hf : ∀ c ∈ f, isBlank c = false) (hcs : ∀ c ∈ cs.head?, isBlank c)
      (h : Separated fs cs) : Separated (f :: fs) (b ++ (f ++ cs))

/-! ## Fields -/

theorem fields_append_cons (hc : isBlank c) (xs ys : List Char) :
    fields (xs ++ c :: ys) = fields xs ++ fields ys := by
  rw [fields, List.splitOnP_append_cons _ _ hc, List.filter_append]
  rfl

theorem fields_cons_of_blank (hc : isBlank c) (cs : List Char) : fields (c :: cs) = fields cs :=
  fields_append_cons hc [] cs

theorem fields_nil : fields [] = [] := rfl

theorem fields_blank_append (hb : Blank b) (cs : List Char) : fields (b ++ cs) = fields cs := by
  induction b with
  | nil => rfl
  | cons c b ih =>
    obtain ⟨hc, hb⟩ := List.forall_mem_cons.mp hb
    rw [List.cons_append, fields_cons_of_blank hc, ih hb]

theorem fields_of_blank (hb : Blank b) : fields b = [] := by
  simpa [fields_nil] using fields_blank_append hb []

theorem fields_append_blank (hb : Blank b) (cs : List Char) : fields (cs ++ b) = fields cs := by
  cases b with
  | nil => rw [List.append_nil]
  | cons c b =>
    obtain ⟨hc, hb⟩ := List.forall_mem_cons.mp hb
    rw [fields_append_cons hc, fields_of_blank hb, List.append_nil]

theorem fields_of_solid (hne : f ≠ []) (hf : ∀ c ∈ f, isBlank c = false) : fields f = [f] := by
  rw [fields, List.splitOnP_eq_singleton hf]
  simp [hne]

theorem Separated.fields_eq (h : Separated fs cs) : fields cs = fs := by
  induction h with
  | none hb => exact fields_of_blank hb
  | @field b f cs fs hb hne hf hcs _ ih =>
    rw [fields_blank_append hb, ← ih]
    cases cs with
    | nil => rw [List.append_nil, fields_of_solid hne hf]; rfl
    | cons c cs =>
      have hc : isBlank c := hcs c rfl
      rw [fields_append_cons hc, fields_of_solid hne hf, fields_cons_of_blank hc]
      rfl

/-- One more character before a text belongs to the blanks, to the first field or to a field of its
own. -/
theorem Separated.cons (h : Separated fs cs) (c : Char) : ∃ fs', Separated fs' (c :: cs) := by
  cases hc : isBlank c with
  | true =>
    have hblank {b : List Char} (hb : Blank b) : Blank (c :: b) :=
      List.forall_mem_cons.mpr ⟨hc, hb⟩
    cases h with
    | none hb => exact ⟨_, .none (hblank hb)⟩
    | field hb hne hf hcs h => exact ⟨_, .field (hblank hb) hne hf hcs h⟩
  | false =>
    have hnone : Blank [] := nofun
    by_cases hcs : ∀ x ∈ cs.head?, isBlank x
    · exact ⟨_, .field (f := [c]) hnone (by simp) (by simpa using hc) hcs h⟩
    · cases h with
      | none hb =>
        cases cs with
        | nil => exact absurd nofun hcs
        | cons x b => exact absurd (by simpa using hb x List.mem_cons_self) hcs
      | @field b f cs fs hb hne hf hrest h =>
        cases b with
        | nil =>
          have hsolid : ∀ x ∈ c :: f, isBlank x = false := List.forall_mem_cons.mpr ⟨hc, hf⟩
          exact ⟨_, .field hnone (by simp) hsolid hrest h⟩
        | cons x b => exact absurd (by simpa using hb x List.mem_cons_self) hcs

theorem exists_separated (cs : List Char) : ∃ fs, Separated fs cs := by
  induction cs with
  | nil => exact ⟨[], .none nofun⟩
  | cons c cs ih =>
    obtain ⟨fs, h⟩ := ih
    exact h.cons c

/-- **A text is taken apart into its fields.** -/
theorem fields_eq_iff : fields cs = fs ↔ Separated fs cs := by
  constructor
  · rintro rfl
    obtain ⟨fs, h⟩ := exists_separated cs
    rwa [h.fields_eq]
  · exact Separated.fields_eq

theorem separated_intercalate (hc : isBlank c)
    (h : ∀ f ∈ fs, f ≠ [] ∧ ∀ x ∈ f, isBlank x = false) : Separated fs ([c].intercalate fs) := by
  induction fs with
  | nil => exact .none nofun
  | cons f fs ih =>
    obtain ⟨⟨hne, hf⟩, hfs⟩ := List.forall_mem_cons.mp h
    cases fs with
    | nil =>
      have hone : Separated [f] ([] ++ (f ++ [])) :=
        .field nofun hne hf (by simp) (.none nofun)
      simpa using hone
    | cons g fs =>
      have hrest : fields (c :: [c].intercalate (g :: fs)) = g :: fs :=
        (fields_cons_of_blank hc _).trans (ih hfs).fields_eq
      have hmore : Separated (f :: g :: fs) ([] ++ (f ++ c :: [c].intercalate (g :: fs))) :=
        .field nofun hne hf (by simpa using hc) (fields_eq_iff.mp hrest)
      simpa [List.intercalate_cons_cons] using hmore

theorem mem_intercalate {x : Char} (h : x ∈ [c].intercalate fs) : (∃ f ∈ fs, x ∈ f) ∨ x = c := by
  induction fs with
  | nil => cases h
  | cons f fs ih =>
    cases fs with
    | nil => exact .inl ⟨f, by simp, by simpa using h⟩
    | cons g fs =>
      rw [List.intercalate_cons_cons, List.mem_append, List.mem_append, List.mem_singleton] at h
      obtain (h | h) | h := h
      · exact .inl ⟨f, List.mem_cons_self, h⟩
      · exact .inr h
      · exact (ih h).imp_left fun ⟨f', hf', hx⟩ => ⟨f', List.mem_cons_of_mem _ hf', hx⟩

/-! ## Blanks around a text -/

theorem exists_trim (cs : List Char) :
    ∃ b b', Blank b ∧ Blank b' ∧ cs = b ++ (trim cs ++ b') := by
  have htake (l : List Char) : Blank (l.takeWhile isBlank) := fun c => List.mem_takeWhile_imp
  refine ⟨cs.takeWhile isBlank, ((cs.dropWhile isBlank).reverse.takeWhile isBlank).reverse, htake _,
    fun c hc => htake _ c (List.mem_reverse.mp hc), ?_⟩
  rw [trim, ← List.reverse_append, List.takeWhile_append_dropWhile, List.reverse_reverse,
    List.takeWhile_append_dropWhile]

theorem trim_surround (hb : Blank b) (hb' : Blank b') (cs : List Char) :
    trim (b ++ (cs ++ b')) = trim cs := by
  have hnil {l : List Char} (hl : Blank l) : l.dropWhile isBlank = [] :=
    List.dropWhile_eq_nil_iff.mpr hl
  have hrev : Blank b'.reverse := fun c hc => hb' c (List.mem_reverse.mp hc)
  rw [trim, List.dropWhile_append_of_pos hb, List.dropWhile_append, trim]
  split_ifs with h
  · rw [hnil hb', List.isEmpty_iff.mp h]
  · rw [List.reverse_append, List.dropWhile_append_of_pos hrev]

theorem head?_trim (hc : isBlank c = false) (cs : List Char) : (trim (c :: cs)).head? = some c := by
  rw [trim, List.dropWhile_cons_of_neg (by simp [hc]), List.reverse_cons, List.dropWhile_append]
  split_ifs <;> simp [hc]

theorem Separated.head?_trim (h : Separated (f :: fs) cs) : (trim cs).head? = f.head? := by
  cases h with
  | @field b f rest fs hb hne hf hcs h =>
    cases f with
    | nil => exact absurd rfl hne
    | cons c f =>
      have hnil : Blank [] := nofun
      have htrim := trim_surround hb hnil (c :: f ++ rest)
      rw [List.append_nil] at htrim
      rw [htrim, List.cons_append, Text.head?_trim (hf c List.mem_cons_self), List.head?_cons]

theorem fields_trim (cs : List Char) : fields (trim cs) = fields cs := by
  obtain ⟨b, b', hb, hb', h⟩ := exists_trim cs
  conv_rhs => rw [h]
  rw [fields_blank_append hb, fields_append_blank hb']

/-! ## Lines -/

/-- **A line ends with the first line feed.** -/
theorem lines_cons (hl : '\n' ∉ l) (cs : List Char) : lines (l ++ '\n' :: cs) = l :: lines cs := by
  obtain ⟨p, ps, hps⟩ := List.exists_cons_of_ne_nil (List.splitOn_ne_nil '\n' cs)
  rw [lines, lines, List.splitOn_append_cons_self_of_not_mem hl, hps]
  simp only [List.getLast?_cons_cons, List.dropLast_cons_cons]
  split_ifs <;> rfl

theorem lines_of_notMem (hl : '\n' ∉ l) : lines l = if l = [] then [] else [l] := by
  rw [lines, List.splitOn_eq_singleton hl]
  simp

end Snooping.Text
