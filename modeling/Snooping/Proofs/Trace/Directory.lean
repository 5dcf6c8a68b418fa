import Mathlib.Data.List.Infix
import Snooping.Proofs.Text.Bytes
import Snooping.Trace.Directory

/-!
# The files of a test

The traces of a test are documented as the files that are named for the test, with anything between
its name and `.data`. What is asked of a name is that it begins with the one and ends in the other;
the two may overlap. The files are read in the order of the bytes of their names, however they are
listed.

* **`Matches`**, **`matches_iff`**, `isTraceName_iff_matches`: the names that are documented, and
  those that are selected.
* `Listing.sorted_selected`, `Listing.selected_congr`: the files of a test in order.
* `Listing.readFiles_ok`, `Listing.readFiles_error`: their programs, or the first that cannot be
  read.
* **`Listing.reads_selected`**: what a directory comes to.
-/

namespace Snooping

open Text (bytes)

variable {testName name dir : String} {core : Nat} {l l' files : Listing}

/-! ## Names -/

/-- **A name as it is documented** for a trace of the test. -/
def Matches (testName name : String) : Prop := ∃ s, name = testName ++ s ++ ".data"

theorem isTraceName_iff : isTraceName testName name ↔
    testName.toList <+: name.toList ∧ ".data".toList <:+ name.toList := by
  rw [isTraceName, Bool.and_eq_true, List.isPrefixOf_iff_prefix, List.isSuffixOf_iff_suffix]

theorem exists_between {α : Type} {a b c : List α} (ha : a <+: c) (hb : b <:+ c)
    (hlen : a.length + b.length ≤ c.length) : ∃ m, c = a ++ m ++ b := by
  obtain ⟨r, rfl⟩ := ha
  rw [List.length_append] at hlen
  obtain ⟨m, rfl⟩ := List.suffix_of_suffix_length_le hb (List.suffix_append a r) (by omega)
  exact ⟨m, (List.append_assoc a m b).symm⟩

/-- **The documented names** are those that are selected and long enough. -/
theorem matches_iff : Matches testName name ↔
    isTraceName testName name ∧ testName.length + 5 ≤ name.length := by
  rw [isTraceName_iff]
  constructor
  · rintro ⟨s, rfl⟩
    rw [String.toList_append, String.toList_append, String.length_append, String.length_append]
    refine ⟨⟨?_, List.suffix_append _ _⟩, ?_⟩
    · rw [List.append_assoc]
      exact List.prefix_append _ _
    · have hdata : ".data".length = 5 := rfl
      omega
  · rintro ⟨⟨hbegin, hend⟩, hlen⟩
    rw [← String.length_toList, ← String.length_toList] at hlen
    obtain ⟨m, hm⟩ := exists_between hbegin hend hlen
    refine ⟨String.ofList m, String.toList_inj.mp ?_⟩
    rw [String.toList_append, String.toList_append, String.toList_ofList, hm]

theorem isTraceName_iff_matches : (∀ name, isTraceName testName name ↔ Matches testName name) ↔
    ∀ p, p ≠ [] → p <+: ".data".toList → ¬ p <:+ testName.toList := by
  constructor
  · rintro h p hp ⟨q, hq⟩ ⟨t, ht⟩
    -- The name of the test, completed to an end in `.data`.
    have hname : isTraceName testName (String.ofList (testName.toList ++ q)) := by
      rw [isTraceName_iff, String.toList_ofList, ← hq, ← ht, List.append_assoc]
      exact ⟨by rw [← List.append_assoc]; exact List.prefix_append _ _, List.suffix_append _ _⟩
    have hlen := (matches_iff.mp ((h _).mp hname)).2
    have hpq := congrArg List.length hq
    have hpos := List.length_pos_iff.mpr hp
    rw [← String.length_toList, ← String.length_toList, String.toList_ofList,
      List.length_append] at hlen
    rw [List.length_append] at hpq
    have hdata : ".data".toList.length = 5 := rfl
    omega
  · intro h name
    refine ⟨fun hname => matches_iff.mpr ⟨hname, ?_⟩, fun hname => (matches_iff.mp hname).1⟩
    obtain ⟨⟨r, hr⟩, s, hs⟩ := isTraceName_iff.mp hname
    rw [← String.length_toList, ← String.length_toList, ← hr, List.length_append]
    -- If the two overlap, what they share begins `.data` and ends the name of the test.
    obtain ⟨m, -, hm⟩ | ⟨p, hp, hdata⟩ := List.append_eq_append_iff.mp (hr.trans hs.symm)
    · have hlen := congrArg List.length hm
      rw [List.length_append] at hlen
      have hfive : ".data".toList.length = 5 := rfl
      omega
    · have hnil : p = [] := by
        by_contra hne
        exact h p hne ⟨r, hdata.symm⟩ ⟨s, hp.symm⟩
      have hlen := congrArg List.length hdata
      rw [hnil, List.nil_append] at hlen
      have hfive : ".data".toList.length = 5 := rfl
      omega

theorem Content.text_eq_ok_iff {c : Content} {t : String} : c.text = .ok t ↔ c = .ok t.toUTF8 := by
  rw [String.toUTF8_eq_toByteArray]
  cases c with
  | error e => exact iff_of_false nofun nofun
  | ok b =>
    rw [Content.text, String.fromUTF8?]
    split
    · rename_i s hs
      split_ifs at hs with h
      cases hs
      rw [Except.ok.injEq, Except.ok.injEq, ← String.toByteArray_inj]
      rfl
    · rename_i hs
      split_ifs at hs with h
      refine iff_of_false nofun fun hb => h ?_
      cases hb
      exact t.isValidUTF8

namespace Listing

/-! ## The files of a test -/

theorem mem_selected {e : String × Content} :
    e ∈ l.selected testName ↔ e ∈ l ∧ isTraceName testName e.1 := by
  rw [selected, List.mem_mergeSort, List.mem_filter]

theorem not_decide_lt {a b : String} : (!decide (b < a)) = true ↔ a ≤ b := by
  rw [Bool.not_eq_true', decide_eq_false_iff_not, not_lt]

/-- **The files are in the order of the bytes of their names.** -/
theorem sorted_selected (hl : (l.map Prod.fst).Nodup) :
    (l.selected testName).Pairwise fun a b => bytes a.1 < bytes b.1 := by
  have hsorted : (l.selected testName).Pairwise fun a b => (!decide (b.1 < a.1)) = true := by
    refine List.pairwise_mergeSort (fun a b c hab hbc => ?_) (fun a b => ?_) _
    · exact not_decide_lt.mpr ((not_decide_lt.mp hab).trans (not_decide_lt.mp hbc))
    · rw [Bool.or_eq_true, not_decide_lt, not_decide_lt]
      exact le_total a.1 b.1
  have hdistinct : ((l.selected testName).map Prod.fst).Nodup :=
    ((List.mergeSort_perm _ _).map Prod.fst).nodup_iff.mpr
      (hl.sublist (List.filter_sublist.map Prod.fst))
  refine (hsorted.and (List.pairwise_map.mp hdistinct)).imp fun ⟨hle, hne⟩ => ?_
  exact Text.bytes_lt_bytes_iff.mpr (lt_of_le_of_ne (not_decide_lt.mp hle) hne)

/-- **The order in which files are listed does not matter.** -/
theorem selected_congr (hl : (l.map Prod.fst).Nodup) (h : l'.Perm l) :
    l'.selected testName = l.selected testName := by
  have hl' : (l'.map Prod.fst).Nodup := (h.map Prod.fst).nodup_iff.mpr hl
  refine List.Perm.eq_of_pairwise (fun a b _ _ hab hba => absurd hab (List.lt_asymm hba))
    (sorted_selected hl') (sorted_selected hl) ?_
  exact (List.mergeSort_perm _ _).trans ((h.filter _).trans (List.mergeSort_perm _ _).symm)

/-! ## Their programs -/

theorem readFiles_ok {texts : List String}
    (h : files.map Prod.snd = texts.map fun t => .ok t.toUTF8) : (readFiles dir core files).result =
      .ok (texts.mapIdx fun i t => (Reading.ofText (core + i) t.toList).program.toList) := by
  induction files generalizing core texts with
  | nil =>
    obtain rfl := List.map_eq_nil_iff.mp h.symm
    rfl
  | cons e files ih =>
    obtain ⟨t, ts, rfl, ht, hts⟩ := List.map_eq_cons_iff.mp h.symm
    have hrest := @ih (core + 1) ts hts.symm
    simp only [readFiles, Content.text_eq_ok_iff.mpr ht.symm, hrest, List.mapIdx_cons, Nat.add_zero,
      Except.map]
    simp only [Nat.add_assoc, Nat.add_comm 1]

theorem readFiles_error {before after : Listing} {e : String × Content} {err : FileError}
    (hbefore : ∀ f ∈ before, ∃ t : String, f.2 = .ok t.toUTF8) (he : e.2.text = .error err) :
    (readFiles dir core (before ++ e :: after)).result =
      .error (.traceRead (entryPath dir e.1) err) := by
  induction before generalizing core with
  | nil => simp only [List.nil_append, readFiles, he]
  | cons f before ih =>
    obtain ⟨⟨t, ht⟩, hbefore⟩ := List.forall_mem_cons.mp hbefore
    simp only [List.cons_append, readFiles, Content.text_eq_ok_iff.mpr ht, ih hbefore]
    rfl

theorem programs_of_nil (h : l.selected testName = []) :
    (programs dir testName (.ok l)).result = .error (.noTraces testName) := by
  rw [programs, h]

theorem programs_of_ne_nil (h : l.selected testName ≠ []) :
    programs dir testName (.ok l) = readFiles dir 0 (l.selected testName) := by
  obtain ⟨e, es, he⟩ := List.exists_cons_of_ne_nil h
  rw [programs, he]

/-- **What a directory comes to**, in whatever order it is listed: the files whose names begin with
the name of the test and end in `.data`, in the order of the bytes of their names, give one trace
for each core, and the first of them that has no text is the error. These are the documented names,
and shorter ones where the two overlap; there are none if the name of the test does not end as
`.data` begins. -/
theorem reads_selected (dir testName : String) (hl : (l.map Prod.fst).Nodup) :
    (∃ files : Listing,
      (∀ e, e ∈ files ↔ e ∈ l ∧
        testName.toList <+: e.1.toList ∧ ".data".toList <:+ e.1.toList) ∧
      (files.Pairwise fun a b => bytes a.1 < bytes b.1) ∧
      (files = [] → (programs dir testName (.ok l)).result = .error (.noTraces testName)) ∧
      (∀ before e after err, files = before ++ e :: after →
        (∀ f ∈ before, ∃ t : String, f.2 = .ok t.toUTF8) → e.2.text = .error err →
        (programs dir testName (.ok l)).result = .error (.traceRead (entryPath dir e.1) err)) ∧
      ∀ texts : List String, files ≠ [] → (files.map Prod.snd = texts.map fun t => .ok t.toUTF8) →
        (programs dir testName (.ok l)).result =
          .ok (texts.mapIdx fun i t => (Reading.ofText i t.toList).program.toList)) ∧
    (∀ l' : Listing, l'.Perm l → programs dir testName (.ok l') = programs dir testName (.ok l)) ∧
    (∀ name, Matches testName name ↔ (testName.toList <+: name.toList ∧
      ".data".toList <:+ name.toList) ∧ testName.length + 5 ≤ name.length) ∧
    ((∀ name, testName.toList <+: name.toList ∧ ".data".toList <:+ name.toList ↔
        Matches testName name) ↔
      ∀ p, p ≠ [] → p <+: ".data".toList → ¬ p <:+ testName.toList) := by
  refine ⟨⟨l.selected testName, fun e => ?_, sorted_selected hl, programs_of_nil,
    fun before e after err hfiles hbefore he => ?_, fun texts hne htexts => ?_⟩,
    fun l' h => ?_, fun name => ?_, ?_⟩
  · rw [mem_selected, isTraceName_iff]
  · rw [programs_of_ne_nil (by simp [hfiles]), hfiles, readFiles_error hbefore he]
  · rw [programs_of_ne_nil hne, readFiles_ok htexts]
    simp only [Nat.zero_add]
  · rw [programs, programs, selected_congr hl h]
  · rw [← isTraceName_iff, matches_iff]
  · simp only [← isTraceName_iff]
    exact isTraceName_iff_matches

theorem selected_of_sorted
    (h : (l.filter fun e => isTraceName testName e.1).Pairwise fun a b => a.1 ≤ b.1) :
    l.selected testName = l.filter fun e => isTraceName testName e.1 :=
  List.mergeSort_of_pairwise (h.imp not_decide_lt.mpr)

theorem reads_selected_two :
    (programs "traces" "b" (.ok [("b_1.data", .ok "1 0x40\n".toUTF8), ("b_0.txt", .ok "".toUTF8),
      ("a_0.data", .error .isADirectory), ("b_0.data", .ok "2 0x3\n".toUTF8)])).result =
      .ok [[.other 3], [.write ⟨0x40⟩ 0x1000000]] := by
  have hfiles : selected (List.reverse [("b_1.data", .ok "1 0x40\n".toUTF8),
      ("b_0.txt", .ok "".toUTF8), ("a_0.data", .error .isADirectory),
      ("b_0.data", .ok "2 0x3\n".toUTF8)]) "b" =
      [("b_0.data", .ok "2 0x3\n".toUTF8), ("b_1.data", .ok "1 0x40\n".toUTF8)] :=
    selected_of_sorted (by decide +kernel)
  have htexts : ([("b_0.data", .ok "2 0x3\n".toUTF8), ("b_1.data", .ok "1 0x40\n".toUTF8)] :
      Listing).map Prod.snd = ["2 0x3\n", "1 0x40\n"].map fun t => .ok t.toUTF8 := rfl
  rw [(reads_selected "traces" "b" (by decide)).2.1 _ (List.reverse_perm _).symm,
    programs_of_ne_nil (by rw [hfiles]; exact List.cons_ne_nil _ _), hfiles, readFiles_ok htexts]
  decide +kernel

/-- The name of a test that ends in a dot, and a file with one dot: its trace is read, although it
is not named for the test. -/
theorem reads_overlapping :
    ¬ Matches "run." "run.data" ∧
    (programs "traces" "run." (.ok [("run.data", .ok "0 0x40\n".toUTF8)])).result =
      .ok [[.read ⟨0x40⟩]] := by
  refine ⟨fun h => absurd (matches_iff.mp h).2 (by decide), ?_⟩
  have hfiles : selected [("run.data", .ok "0 0x40\n".toUTF8)] "run." =
      [("run.data", .ok "0 0x40\n".toUTF8)] := selected_of_sorted (by decide +kernel)
  have htexts : ([("run.data", .ok "0 0x40\n".toUTF8)] : Listing).map Prod.snd =
      ["0 0x40\n"].map fun t => .ok t.toUTF8 := rfl
  rw [programs_of_ne_nil (by rw [hfiles]; exact List.cons_ne_nil _ _), hfiles, readFiles_ok htexts]
  decide +kernel

end Listing

end Snooping
