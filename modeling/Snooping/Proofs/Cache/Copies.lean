import Mathlib.Algebra.Group.Nat.Defs
import Mathlib.Tactic.Common
import Snooping.Cache.Basic

/-!
# The copies of a cache

A coherence protocol is about lines and not about the ways that keep them: what a cache has of a
line is its state and its data, wherever it is kept.

* `Geometry.line_eq_line_iff`, `Geometry.bound_iff`: a line is its set index and its tag.
* `Cache.Distinct`, `Cache.Bounded`: no line is in two ways, and every tag belongs to an address.
* **`Cache.copy`**: state and data of the line of an address, with `Cache.copy_of_carries` and
  `Cache.copy_of_absent`.
* **`Cache.copy_setLine`**: what replacing the line of a way does to the copies.
* `Cache.SameLines`: caches that differ in counters only.
* `Cache.mem_resident`, `Cache.copy_of_mem_resident`: the lines that are listed are the copies.
* `Cache.HoldsTwice`, `Cache.holdsTwice_of_duplicate?`, `Cache.distinct_of_duplicate?`: a line in
  two ways is found.
-/

namespace Snooping

/-! ## Lines and places -/

namespace Geometry

variable {g : Geometry}

/-- Two addresses lie in one line if they have one place. -/
theorem line_eq_line_iff {a b : Addr} :
    a.line = b.line ↔ g.index a = g.index b ∧ g.tag a = g.tag b := by
  rw [Addr.line_eq_line_iff]
  constructor
  · intro h
    exact ⟨Fin.ext (by simp only [index, h]), by simp only [tag, h]⟩
  · rintro ⟨hi, ht⟩
    have hi : a.lineNumber % g.sets = b.lineNumber % g.sets := congrArg Fin.val hi
    have ht : a.lineNumber / g.sets = b.lineNumber / g.sets := ht
    rw [← Nat.div_add_mod a.lineNumber g.sets, ← Nat.div_add_mod b.lineNumber g.sets, hi, ht]

theorem tag_mul_add_index (a : Addr) : g.tag a * g.sets + g.index a = a.lineNumber := by
  simp only [tag, index]
  rw [Nat.mul_comm, Nat.div_add_mod]

theorem lineNumber_addrAt {i : Fin g.sets} {t : Nat} (h : t * g.sets + i < 0x8000000) :
    (g.addrAt i t).lineNumber = t * g.sets + i := Addr.lineNumber_ofLine h

theorem index_addrAt {i : Fin g.sets} {t : Nat} (h : t * g.sets + i < 0x8000000) :
    g.index (g.addrAt i t) = i := by
  apply Fin.ext
  simp only [index, lineNumber_addrAt h]
  rw [Nat.add_comm, Nat.add_mul_mod_self_right, Nat.mod_eq_of_lt i.isLt]

theorem tag_addrAt {i : Fin g.sets} {t : Nat} (h : t * g.sets + i < 0x8000000) :
    g.tag (g.addrAt i t) = t := by
  simp only [tag, lineNumber_addrAt h]
  rw [Nat.mul_comm, Nat.mul_add_div (g.sets_pos), Nat.div_eq_of_lt i.isLt, Nat.add_zero]

theorem line_addrAt {i : Fin g.sets} {t : Nat} (h : t * g.sets + i < 0x8000000) :
    (g.addrAt i t).line = g.addrAt i t := by
  simp only [Addr.line, lineNumber_addrAt h]
  rfl

theorem bound_iff {i : Fin g.sets} {t : Nat} :
    t * g.sets + i < 0x8000000 ↔ t < 2 ^ (27 - g.indexBits) := by
  have hlines : 2 ^ (27 - g.indexBits) * g.sets = 0x8000000 := by
    have hk := g.indexBits_le
    rw [Geometry.sets, Nat.one_shiftLeft, ← Nat.pow_add, Nat.sub_add_cancel (by omega)]
  constructor
  · intro h
    refine Nat.lt_of_mul_lt_mul_right (a := g.sets) ?_
    rw [hlines]
    exact Nat.lt_of_le_of_lt (Nat.le_add_right _ _) h
  · intro h
    calc t * g.sets + i < t * g.sets + g.sets := Nat.add_lt_add_left i.isLt _
      _ = (t + 1) * g.sets := (Nat.succ_mul _ _).symm
      _ ≤ 2 ^ (27 - g.indexBits) * g.sets := Nat.mul_le_mul_right _ h
      _ = 0x8000000 := hlines

end Geometry

namespace Cache

variable {g : Geometry}

/-! ## What a cache has of a line -/

/-- No line is in two ways of its set. -/
def Distinct (c : Cache g) : Prop :=
  ∀ i v w, (c.line i v).isLive → (c.line i w).isLive → (c.line i v).tag = (c.line i w).tag → v = w

/-- Every tag belongs to an address. -/
def Bounded (c : Cache g) : Prop :=
  ∀ i w, (c.line i w).isLive → (c.line i w).tag * g.sets + i < 0x8000000

/-- No way carries the line of an address. -/
def Absent (c : Cache g) (a : Addr) : Prop := ∀ w, ¬ (c.line (g.index a) w).carries (g.tag a)

/-- No other way than `w` carries the line of an address. -/
def OnlyAt (c : Cache g) (a : Addr) (w : Fin g.ways) : Prop :=
  ∀ v, (c.line (g.index a) v).carries (g.tag a) → v = w

theorem Absent.onlyAt {c : Cache g} {a : Addr} (h : c.Absent a) (w : Fin g.ways) : c.OnlyAt a w :=
  fun v hv => absurd hv (h v)

/-- **State and data of the line of an address**; it is invalid if it is not there. -/
def copy (c : Cache g) (a : Addr) : LineState × Block :=
  match c.lookup? a with
  | some l => (l.state, l.data)
  | none => (.invalid, Block.zero)

theorem lookup?_congr (c : Cache g) {a b : Addr} (h : a.line = b.line) :
    c.lookup? a = c.lookup? b := by
  obtain ⟨hi, ht⟩ := (Geometry.line_eq_line_iff (g := g)).mp h
  simp only [lookup?, hi, ht]

theorem copy_congr (c : Cache g) {a b : Addr} (h : a.line = b.line) : c.copy a = c.copy b := by
  simp only [copy, c.lookup?_congr h]

theorem carries_iff {l : Line} {t : Nat} : l.carries t ↔ l.isLive ∧ l.tag = t := by
  simp [Line.carries]

theorem isLive_iff {l : Line} : l.isLive ↔ l.state ≠ .invalid := by simp [Line.isLive]

theorem offers_iff {l : Line} {t : Nat} : l.offers t ↔ l.state.hasData ∧ l.tag = t := by
  simp [Line.offers]

theorem awaits_iff {l : Line} {t : Nat} : l.awaits t ↔ l.state = .requested ∧ l.tag = t := by
  simp [Line.awaits]

theorem isLive_of_hasData {l : Line} (h : l.state.hasData) : l.isLive := by
  rw [isLive_iff]
  intro e
  rw [e] at h
  exact Bool.noConfusion h

theorem carries_of_offers {l : Line} {t : Nat} (h : l.offers t) : l.carries t :=
  carries_iff.mpr ⟨isLive_of_hasData (offers_iff.mp h).1, (offers_iff.mp h).2⟩

theorem carries_of_awaits {l : Line} {t : Nat} (h : l.awaits t) : l.carries t :=
  carries_iff.mpr ⟨isLive_iff.mpr (by rw [(awaits_iff.mp h).1]; decide), (awaits_iff.mp h).2⟩

theorem lookup?_eq_none {c : Cache g} {a : Addr} : c.lookup? a = none ↔ c.Absent a := by
  simp only [lookup?, Option.map_eq_none_iff, LineSet.find?, LineSet.first?_eq_none]
  rfl

theorem lookup?_eq_some {c : Cache g} {a : Addr} {l : Line} (h : c.lookup? a = some l) :
    ∃ w, (c.line (g.index a) w).carries (g.tag a) ∧ c.line (g.index a) w = l := by
  obtain ⟨w, hw, rfl⟩ := Option.map_eq_some_iff.mp h
  exact ⟨w, LineSet.carries_of_find? hw, rfl⟩

theorem Distinct.onlyAt {c : Cache g} (h : c.Distinct) {a : Addr} {w : Fin g.ways}
    (hw : (c.line (g.index a) w).carries (g.tag a)) : c.OnlyAt a w := by
  intro v hv
  obtain ⟨hv, ht⟩ := carries_iff.mp hv
  obtain ⟨hw, hu⟩ := carries_iff.mp hw
  exact h _ v w hv hw (ht.trans hu.symm)

theorem lookup?_of_carries {c : Cache g} (h : c.Distinct) {a : Addr} {w : Fin g.ways}
    (hw : (c.line (g.index a) w).carries (g.tag a)) :
    c.lookup? a = some (c.line (g.index a) w) := by
  cases hl : c.lookup? a with
  | none => exact absurd hw (lookup?_eq_none.mp hl w)
  | some l =>
    obtain ⟨v, hv, rfl⟩ := lookup?_eq_some hl
    rw [h.onlyAt hw v hv]

theorem copy_of_carries {c : Cache g} (h : c.Distinct) {a : Addr} {w : Fin g.ways}
    (hw : (c.line (g.index a) w).carries (g.tag a)) :
    c.copy a = ((c.line (g.index a) w).state, (c.line (g.index a) w).data) := by
  simp only [copy, lookup?_of_carries h hw]

theorem copy_of_absent {c : Cache g} {a : Addr} (h : c.Absent a) :
    c.copy a = (.invalid, Block.zero) := by
  simp only [copy, lookup?_eq_none.mpr h]

theorem exists_carries {c : Cache g} {a : Addr} (h : (c.copy a).1 ≠ .invalid) :
    ∃ w, (c.line (g.index a) w).carries (g.tag a) := by
  by_contra hw
  exact h (by rw [copy_of_absent (not_exists.mp hw)])

theorem OnlyAt.copy_eq {c : Cache g} (h : c.Distinct) {a : Addr} {w : Fin g.ways}
    (hw : c.OnlyAt a w) (ha : (c.copy a).1 ≠ .invalid) :
    (c.line (g.index a) w).carries (g.tag a) ∧
      c.copy a = ((c.line (g.index a) w).state, (c.line (g.index a) w).data) := by
  obtain ⟨v, hv⟩ := exists_carries ha
  obtain rfl := hw v hv
  exact ⟨hv, copy_of_carries h hv⟩

/-! ## Other lines, other copies -/

theorem line_setLine (c : Cache g) (i j : Fin g.sets) (w v : Fin g.ways) (l : Line) :
    (c.setLine i w l).line j v = if i = j ∧ w = v then l else c.line j v := by
  split_ifs with h
  · obtain ⟨rfl, rfl⟩ := h
    exact c.line_setLine_self i w l
  · exact c.line_setLine_of_ne l fun e => h (Prod.mk.inj e)

/-- **Replacing the line of a way** puts the new line there and takes the old one away. -/
theorem copy_setLine {c : Cache g} (hc : c.Distinct) {i : Fin g.sets} {w : Fin g.ways} {l : Line}
    (hl : (c.setLine i w l).Distinct) (a : Addr) :
    (c.setLine i w l).copy a =
      if g.index a = i ∧ l.carries (g.tag a) then (l.state, l.data)
      else if g.index a = i ∧ (c.line i w).carries (g.tag a) then (.invalid, Block.zero)
      else c.copy a := by
  split_ifs with hn ho
  · obtain ⟨rfl, hn⟩ := hn
    have hw : ((c.setLine (g.index a) w l).line (g.index a) w).carries (g.tag a) := by
      rw [line_setLine_self]
      exact hn
    rw [copy_of_carries hl hw, line_setLine_self]
  · obtain ⟨rfl, ho⟩ := ho
    refine copy_of_absent fun v hv => ?_
    rw [line_setLine] at hv
    split_ifs at hv with hwv
    · exact hn ⟨rfl, hv⟩
    · exact hwv ⟨rfl, (hc.onlyAt ho v hv).symm⟩
  · by_cases ha : c.Absent a
    · rw [copy_of_absent ha]
      refine copy_of_absent fun v hv => ?_
      rw [line_setLine] at hv
      split_ifs at hv with hwv
      · exact hn ⟨hwv.1.symm, hv⟩
      · exact ha v hv
    · obtain ⟨v, hv⟩ := not_forall.mp ha
      rw [not_not] at hv
      have hne : ¬ (i = g.index a ∧ w = v) := by
        rintro ⟨rfl, rfl⟩
        exact ho ⟨rfl, hv⟩
      have hv' : ((c.setLine i w l).line (g.index a) v).carries (g.tag a) := by
        rw [line_setLine, if_neg hne]
        exact hv
      rw [copy_of_carries hl hv', copy_of_carries hc hv, line_setLine, if_neg hne]

/-- The caches have the same lines in the same ways, as old as may be. -/
def SameLines (c c' : Cache g) : Prop :=
  ∀ i w, (c'.line i w).state = (c.line i w).state ∧ (c'.line i w).tag = (c.line i w).tag ∧
    (c'.line i w).data = (c.line i w).data

namespace SameLines

variable {c c' : Cache g}

theorem of_sets (h : c'.sets = c.sets) : c.SameLines c' := fun i w => by
  simp only [line, h, and_self]

theorem carries (h : c.SameLines c') (i : Fin g.sets) (w : Fin g.ways) (t : Nat) :
    (c'.line i w).carries t = (c.line i w).carries t := by
  obtain ⟨hs, ht, -⟩ := h i w
  simp only [Line.carries, Line.isLive, hs, ht]

theorem distinct (h : c.SameLines c') (hc : c.Distinct) : c'.Distinct := by
  intro i v w hv hw ht
  simp only [Line.isLive, (h i v).1, (h i w).1, (h i v).2.1, (h i w).2.1] at hv hw ht
  exact hc i v w hv hw ht

theorem bounded (h : c.SameLines c') (hc : c.Bounded) : c'.Bounded := by
  intro i w hw
  simp only [Line.isLive, (h i w).1] at hw
  rw [(h i w).2.1]
  exact hc i w hw

theorem absent (h : c.SameLines c') {a : Addr} (ha : c.Absent a) : c'.Absent a := fun w hw =>
  ha w (by rwa [h.carries] at hw)

theorem onlyAt (h : c.SameLines c') {a : Addr} {w : Fin g.ways} (ha : c.OnlyAt a w) :
    c'.OnlyAt a w := fun v hv => ha v (by rwa [h.carries] at hv)

theorem copy_eq (h : c.SameLines c') (hc : c.Distinct) : c'.copy = c.copy := by
  funext a
  by_cases ha : c.Absent a
  · rw [copy_of_absent ha, copy_of_absent (h.absent ha)]
  · obtain ⟨w, hw⟩ := not_forall.mp ha
    rw [not_not] at hw
    rw [copy_of_carries hc hw, copy_of_carries (h.distinct hc) (by rwa [h.carries]), (h _ w).1,
      (h _ w).2.2]

end SameLines

/-! ## The lines that are listed -/

theorem mem_resident {c : Cache g} {a : Addr} {l : Line} :
    (a, l) ∈ c.resident ↔ ∃ i w, c.line i w = l ∧ l.isLive ∧ g.addrAt i l.tag = a := by
  simp only [resident, List.mem_flatMap, List.mem_finRange, true_and, List.mem_map,
    List.mem_filter, Vector.mem_toList_iff, Prod.mk.injEq]
  constructor
  · rintro ⟨i, _, ⟨hm, hl⟩, ha, rfl⟩
    obtain ⟨w, rfl⟩ := Vector.mem_iff_place.mp hm
    exact ⟨i, w, rfl, hl, ha⟩
  · rintro ⟨i, w, rfl, hl, ha⟩
    exact ⟨i, _, ⟨Vector.mem_iff_place.mpr ⟨w, rfl⟩, hl⟩, ha, rfl⟩

/-- A listed line is the copy of its address. -/
theorem copy_of_mem_resident {c : Cache g} (hc : c.Distinct) (hb : c.Bounded) {a : Addr} {l : Line}
    (h : (a, l) ∈ c.resident) : c.copy a = (l.state, l.data) ∧ a.line = a := by
  obtain ⟨i, w, rfl, hl, rfl⟩ := mem_resident.mp h
  have hi := Geometry.index_addrAt (hb i w hl)
  have ht := Geometry.tag_addrAt (hb i w hl)
  have hw : (c.line (g.index (g.addrAt i (c.line i w).tag)) w).carries
      (g.tag (g.addrAt i (c.line i w).tag)) := by
    rw [hi, ht]
    exact carries_iff.mpr ⟨hl, rfl⟩
  refine ⟨?_, Geometry.line_addrAt (hb i w hl)⟩
  rw [copy_of_carries hc hw, hi]

theorem index_of_mem {c : Cache g} (hb : c.Bounded) {i : Fin g.sets} {l : Line}
    (h : l ∈ c.sets[i].toList.filter Line.isLive) : g.index (g.addrAt i l.tag) = i := by
  obtain ⟨hm, hl⟩ := List.mem_filter.mp h
  obtain ⟨w, rfl⟩ := Vector.mem_iff_place.mp (Vector.mem_toList_iff.mp hm)
  exact Geometry.index_addrAt (hb i w hl)

theorem pairwise_resident {c : Cache g} (hc : c.Distinct) (hb : c.Bounded) :
    c.resident.Pairwise fun x y => x.1 ≠ y.1 := by
  refine List.pairwise_flatMap.mpr ⟨fun i _ => ?_, (List.pairwise_lt_finRange _).imp ?_⟩
  · refine List.pairwise_map.mpr (List.pairwise_filter.mpr (List.pairwise_iff_getElem.mpr ?_))
    intro v w hv hw hlt hlv hlw he
    rw [Vector.length_toList] at hv hw
    simp only [Vector.getElem_toList] at hlv hlw he
    have htag : g.tag (g.addrAt i (c.line i ⟨v, hv⟩).tag) =
        g.tag (g.addrAt i (c.line i ⟨w, hw⟩).tag) := congrArg g.tag he
    rw [Geometry.tag_addrAt (hb i ⟨v, hv⟩ hlv), Geometry.tag_addrAt (hb i ⟨w, hw⟩ hlw)] at htag
    exact Nat.ne_of_lt hlt (Fin.mk.inj (hc i _ _ hlv hlw htag))
  · intro i j hlt x hx y hy he
    obtain ⟨l, hl, rfl⟩ := List.mem_map.mp hx
    obtain ⟨k, hk, rfl⟩ := List.mem_map.mp hy
    have hindex := congrArg g.index he
    rw [index_of_mem hb hl, index_of_mem hb hk] at hindex
    exact Nat.ne_of_lt hlt (congrArg Fin.val hindex)

theorem mem_resident_of_copy {c : Cache g} (hc : c.Distinct) {a : Addr}
    (h : (c.copy a).1 ≠ .invalid) :
    ∃ l, (a.line, l) ∈ c.resident ∧ c.copy a = (l.state, l.data) := by
  obtain ⟨w, hw⟩ := exists_carries h
  obtain ⟨hl, ht⟩ := carries_iff.mp hw
  refine ⟨_, mem_resident.mpr ⟨_, w, rfl, hl, ?_⟩, copy_of_carries hc hw⟩
  rw [ht, g.addrAt_place]

end Cache

/-! ## Lines in two ways -/

namespace LineSet

variable {ways : Nat} {s : LineSet ways}

theorem duplicate?_eq_none : s.duplicate? = none ↔
    ∀ v w : Fin ways, v < w → s[v].isLive → ¬ s[w].carries s[v].tag := by
  simp only [duplicate?, List.findSome?_eq_none_iff, List.mem_finRange, forall_const,
    ite_eq_right_iff, reduceCtorEq, imp_false, Bool.and_eq_true, List.any_eq_true, true_and,
    decide_eq_true_eq]
  exact ⟨fun h v w hlt hv hw => h v ⟨hv, w, hlt, hw⟩, fun h v ⟨hv, w, hlt, hw⟩ => h v w hlt hv hw⟩

theorem carries_of_duplicate? {tag : Nat} (h : s.duplicate? = some tag) :
    ∃ v w : Fin ways, v < w ∧ s[v].carries tag ∧ s[w].carries tag := by
  obtain ⟨v, -, hv⟩ := List.exists_of_findSome?_eq_some h
  split at hv
  · next hx =>
    cases hv
    obtain ⟨hlive, hany⟩ := Bool.and_eq_true_iff.mp hx
    obtain ⟨w, -, hw⟩ := List.any_eq_true.mp hany
    obtain ⟨hlt, hcarry⟩ := Bool.and_eq_true_iff.mp hw
    exact ⟨v, w, of_decide_eq_true hlt, Cache.carries_iff.mpr ⟨hlive, rfl⟩, hcarry⟩
  · cases hv

end LineSet

namespace Cache

variable {g : Geometry} {c : Cache g} {a : Addr}

/-- A line is in two ways of its set. -/
def HoldsTwice (c : Cache g) (a : Addr) : Prop :=
  ∃ i v w, v ≠ w ∧ (c.line i v).isLive ∧ (c.line i w).isLive ∧
    (c.line i v).tag = (c.line i w).tag ∧ g.addrAt i (c.line i v).tag = a

theorem HoldsTwice.not_distinct (h : c.HoldsTwice a) : ¬ c.Distinct := by
  obtain ⟨i, v, w, hne, hv, hw, ht, -⟩ := h
  exact fun hd => hne (hd i v w hv hw ht)

theorem holdsTwice_of_duplicate? (h : c.duplicate? = some a) : c.HoldsTwice a := by
  obtain ⟨i, -, hi⟩ := List.exists_of_findSome?_eq_some h
  obtain ⟨tag, ht, rfl⟩ := Option.map_eq_some_iff.mp hi
  obtain ⟨v, w, hlt, hv, hw⟩ := LineSet.carries_of_duplicate? ht
  obtain ⟨hlv, htv⟩ := carries_iff.mp hv
  obtain ⟨hlw, htw⟩ := carries_iff.mp hw
  exact ⟨i, v, w, Fin.ne_of_lt hlt, hlv, hlw, htv.trans htw.symm, congrArg _ htv⟩

theorem distinct_of_duplicate? (h : c.duplicate? = none) : c.Distinct := by
  have hset : ∀ i : Fin g.sets, c.sets[i].duplicate? = none := fun i =>
    Option.map_eq_none_iff.mp (List.findSome?_eq_none_iff.mp h i (List.mem_finRange i))
  have hlt : ∀ i v w, v < w → (c.line i v).isLive → (c.line i w).isLive →
      (c.line i v).tag ≠ (c.line i w).tag := fun i v w hvw hv hw ht =>
    LineSet.duplicate?_eq_none.mp (hset i) v w hvw hv (carries_iff.mpr ⟨hw, ht.symm⟩)
  intro i v w hv hw ht
  by_contra hne
  obtain hvw | hwv := Fin.lt_or_lt_of_ne hne
  · exact hlt i v w hvw hv hw ht
  · exact hlt i w v hwv hw hv ht.symm

theorem duplicate?_eq_none (h : c.Distinct) : c.duplicate? = none :=
  Option.eq_none_iff_forall_ne_some.mpr fun _ ha => (holdsTwice_of_duplicate? ha).not_distinct h

end Cache

end Snooping
