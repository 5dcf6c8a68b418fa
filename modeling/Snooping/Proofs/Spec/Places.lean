import Snooping.Proofs.Cache.Copies

/-!
# Places of addresses

The set index and the tag of an address tell which line it lies in and nothing else, whatever the
number of sets. So a line can be looked for by its place and written back from it.

* `Spec.indexBits_of_validate`: the bits that select a set.
* **`Spec.place_bijective`**: lines and places correspond.
-/

namespace Snooping.Spec

variable {s : Spec} {g : Geometry}

theorem indexBits_of_validate (h : s.validate = .ok g) : s.indexBits = .ok g.indexBits := by
  have hb := g.indexBits_le
  rw [indexBits, (numSets_of_validate h).1]
  exact congrArg Except.ok (lowestBit_one_shiftLeft (by omega))

/-- **Lines and places correspond.** Every address has a place, from which its line is found again,
and every index below the number of sets with every tag that an address has bits for is the place of
one line. -/
theorem place_bijective (h : s.validate = .ok g) :
    (s.numSets = .ok g.sets ∧ s.indexBits = .ok g.indexBits) ∧
    (∀ a, ∃ index tag, s.place a = .ok (index, tag) ∧ index < g.sets ∧
      tag < 2 ^ (27 - g.indexBits) ∧ s.addrAt index tag = .ok a.line) ∧
    (∀ index tag, index < g.sets → tag < 2 ^ (27 - g.indexBits) →
      ∃ a, s.addrAt index tag = .ok a ∧ a.val.toNat % lineSize = 0 ∧
        s.place a = .ok (index, tag)) ∧
    ∀ a b, s.place a = s.place b ↔ a.val.toNat / lineSize = b.val.toNat / lineSize := by
  refine ⟨⟨(numSets_of_validate h).1, indexBits_of_validate h⟩, fun a => ?_,
    fun index tag hi ht => ?_, fun a b => ?_⟩
  · have hbound : g.tag a * g.sets + g.index a < 0x8000000 := by
      rw [Geometry.tag_mul_add_index]
      exact a.lineNumber_lt
    refine ⟨g.index a, g.tag a, place_of_validate h a, (g.index a).isLt,
      Geometry.bound_iff.mp hbound, ?_⟩
    rw [addrAt_of_validate h, g.addrAt_place]
  · have hbound : tag * g.sets + (⟨index, hi⟩ : Fin g.sets) < 0x8000000 :=
      Geometry.bound_iff.mpr ht
    refine ⟨g.addrAt ⟨index, hi⟩ tag, addrAt_of_validate h ⟨index, hi⟩ tag, ?_, ?_⟩
    · rw [← Geometry.line_addrAt hbound, Addr.toNat_line, Nat.mul_mod_left]
    · rw [place_of_validate h, Geometry.index_addrAt hbound, Geometry.tag_addrAt hbound]
  · rw [place_of_validate h, place_of_validate h, Except.ok.injEq, Prod.mk.injEq, Fin.val_inj,
      ← Geometry.line_eq_line_iff, Addr.line_eq_line_iff]
    rfl

theorem place_bijective_extremes :
    (∃ g, Spec.validate { cacheSize := 32, ways := 1 } = .ok g ∧ g.sets = 1 ∧
      ∃ a, Spec.addrAt { cacheSize := 32, ways := 1 } 0 0x7ffffff = .ok a ∧
        a.val.toNat % lineSize = 0 ∧
        Spec.place { cacheSize := 32, ways := 1 } a = .ok (0, 0x7ffffff)) ∧
    ∃ g, Spec.validate { cacheSize := 0x80000000, ways := 1 } = .ok g ∧ g.sets = 2 ^ 26 ∧
      ∃ a, Spec.addrAt { cacheSize := 0x80000000, ways := 1 } 0x3ffffff 1 = .ok a ∧
        a.val.toNat % lineSize = 0 ∧
        Spec.place { cacheSize := 0x80000000, ways := 1 } a = .ok (0x3ffffff, 1) := by
  have hone : Spec.validate { cacheSize := 32, ways := 1 } =
      .ok ⟨1, 0, by decide, by decide⟩ := rfl
  have hmost : Spec.validate { cacheSize := 0x80000000, ways := 1 } =
      .ok ⟨1, 26, by decide, by decide⟩ := rfl
  exact ⟨⟨_, hone, rfl, (place_bijective hone).2.2.1 0 0x7ffffff (by decide) (by decide)⟩,
    ⟨_, hmost, rfl, (place_bijective hmost).2.2.1 0x3ffffff 1 (by decide) (by decide)⟩⟩

end Snooping.Spec
