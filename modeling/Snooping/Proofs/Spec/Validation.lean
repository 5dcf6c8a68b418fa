import Mathlib.Algebra.Group.Nat.Defs
import Snooping.Machine.Basic
import Snooping.Proofs.Spec

/-!
# Validation

Validation tells the specifications that describe a machine from all others, and names what is wrong
with those. It multiplies before it compares: where not even one set has a size of 32 bits it
faults, so that no error tells of such a specification.

* **`Spec.Buildable`**: the numbers describe a machine.
* `ConfigError.Blames`: what a configuration error says about a specification.
* `Spec.numSets_eq`, `Spec.fits_iff`: the number of sets, and when the cache consists of them.
* `Spec.validate_cases`: validation faults, names a defect or finds a geometry.
* **`Spec.validate_decides`**: what it comes to, for every specification.
-/

namespace Snooping

/-- **A specification that describes a machine**: the cache is made of a power of two of sets, and
all other numbers can be used. -/
structure Spec.Buildable (s : Spec) : Prop extends s.Usable where
  cache : ∃ k, s.cacheSize.toNat = lineSize * s.ways.toNat * 2 ^ k

/-- What a configuration error says about the specification that was looked at. -/
def ConfigError.Blames (s : Spec) : ConfigError → Prop
  | zeroAssociativity => s.ways = 0
  | badGeometry cacheSize ways => cacheSize = s.cacheSize.toNat ∧ ways = s.ways.toNat ∧
      ¬ ∃ k, cacheSize = lineSize * ways * 2 ^ k
  | badMemory size => size = s.memorySize.toNat ∧ ¬ (0 < size ∧ size % lineSize = 0)
  | zeroLatency => s.coldLatency = 0 ∨ s.warmLatency = 0
  | zeroCounter => s.maxCounter = 0
  | noCores | needsValue _ | invalidValue _ _ | unknownOption _ | wrongUsage => False

namespace Spec

theorem not_buildable_of_blames {s : Spec} {c : ConfigError} (h : c.Blames s) : ¬ s.Buildable := by
  intro hb
  cases c with
  | zeroAssociativity => exact hb.ways h
  | badGeometry =>
    obtain ⟨rfl, rfl, hk⟩ := h
    exact hk hb.cache
  | badMemory =>
    obtain ⟨rfl, hm⟩ := h
    refine hm ⟨Nat.pos_of_ne_zero fun h0 => hb.memory (UInt32.toNat_inj.mp h0), hb.lines⟩
  | zeroLatency => exact h.elim hb.cold hb.warm
  | zeroCounter => exact hb.counter h
  | noCores | needsValue | invalidValue | unknownOption | wrongUsage => exact h

theorem Buildable.ways_lt {s : Spec} (h : s.Buildable) : s.ways.toNat < 2 ^ 27 := by
  obtain ⟨k, hk⟩ := h.cache
  have hc := s.cacheSize.toNat_lt
  have hle : lineSize * s.ways.toNat ≤ s.cacheSize.toNat :=
    hk ▸ Nat.le_mul_of_pos_right _ (Nat.two_pow_pos k)
  simp only [lineSize] at hle
  omega

/-! ## The number of sets -/

theorem numSets_eq (s : Spec) : s.numSets =
    if s.ways.toNat < 2 ^ 27 then .ok (s.cacheSize.toNat / (lineSize * max s.ways.toNat 1))
    else .error .overflow := by
  have hsize : lineSize * max s.ways.toNat 1 < UInt32.size ↔ s.ways.toNat < 2 ^ 27 := by
    simp only [lineSize, UInt32.size]
    omega
  simp only [numSets, hsize]

theorem fits_iff {s : Spec} (hw : s.ways ≠ 0) :
    s.Fits (s.cacheSize.toNat / (lineSize * max s.ways.toNat 1)) ↔
      ∃ k, s.cacheSize.toNat = lineSize * s.ways.toNat * 2 ^ k := by
  have hways : 0 < s.ways.toNat := Nat.pos_of_ne_zero fun h => hw (UInt32.toNat_inj.mp h)
  have hset : 0 < lineSize * s.ways.toNat := Nat.mul_pos (by decide) hways
  rw [Nat.max_eq_left hways, Fits, Nat.mul_assoc]
  constructor
  · rintro ⟨hp, hc⟩
    refine ⟨lowestBit (s.cacheSize.toNat / (lineSize * s.ways.toNat)), ?_⟩
    rw [← Nat.one_shiftLeft, ← hp, Nat.mul_comm]
    exact hc.symm
  · rintro ⟨k, hk⟩
    -- The lowest bit is looked for among the 32 bits of a number.
    have hlt : k < 32 := by
      have hle : 2 ^ k ≤ s.cacheSize.toNat := hk ▸ Nat.le_mul_of_pos_left _ hset
      exact (Nat.pow_lt_pow_iff_right (by decide)).mp (Nat.lt_of_le_of_lt hle s.cacheSize.toNat_lt)
    have hsets : s.cacheSize.toNat / (lineSize * s.ways.toNat) = 1 <<< k := by
      rw [hk, Nat.mul_div_cancel_left _ hset, Nat.one_shiftLeft]
    rw [hsets, lowestBit_one_shiftLeft hlt]
    exact ⟨rfl, by rw [hk, Nat.one_shiftLeft, Nat.mul_comm]⟩

/-! ## Validation -/

/-- **What validation comes to**: it faults, names a defect, or finds a geometry. -/
theorem validate_cases (s : Spec) :
    (2 ^ 27 ≤ s.ways.toNat ∧ s.validate = .error (.fault .overflow)) ∨
      (s.ways.toNat < 2 ^ 27 ∧ ∃ c : ConfigError, s.validate = .error (.config c) ∧ c.Blames s) ∨
      (s.Buildable ∧ ∃ g, s.validate = .ok g) := by
  by_cases hw : s.ways = 0
  · refine .inr (.inl ⟨by rw [hw]; decide, .zeroAssociativity, ?_, hw⟩)
    rw [validate, dif_pos hw]
    rfl
  simp only [validate, dif_neg hw, numSets_eq]
  by_cases hlt : s.ways.toNat < 2 ^ 27
  swap
  · rw [if_neg hlt]
    exact .inl ⟨Nat.not_lt.mp hlt, rfl⟩
  simp only [if_pos hlt, Failure.lift, bind, Except.bind]
  -- From here on every defect is met with all earlier ones excluded.
  by_cases hf : s.Fits (s.cacheSize.toNat / (lineSize * max s.ways.toNat 1))
  swap
  · simp only [dif_neg hf]
    exact .inr (.inl ⟨hlt, _, rfl, rfl, rfl, mt (fits_iff hw).mpr hf⟩)
  by_cases hm : s.memorySize = 0 ∨ s.memorySize.toNat % lineSize ≠ 0
  · simp only [dif_pos hf, if_pos hm]
    refine .inr (.inl ⟨hlt, _, rfl, rfl, fun h => ?_⟩)
    exact hm.elim (fun h0 => Nat.ne_of_gt h.1 (congrArg UInt32.toNat h0)) fun hl => hl h.2
  by_cases hl : s.coldLatency = 0 ∨ s.warmLatency = 0
  · simp only [dif_pos hf, if_neg hm, if_pos hl]
    exact .inr (.inl ⟨hlt, _, rfl, hl⟩)
  by_cases hc : s.maxCounter = 0
  · simp only [dif_pos hf, if_neg hm, if_neg hl, if_pos hc]
    exact .inr (.inl ⟨hlt, _, rfl, hc⟩)
  simp only [dif_pos hf, if_neg hm, if_neg hl, if_neg hc]
  obtain ⟨hmemory, hlines⟩ := not_or.mp hm
  obtain ⟨hcold, hwarm⟩ := not_or.mp hl
  exact .inr (.inr ⟨⟨⟨hw, hmemory, not_not.mp hlines, hcold, hwarm, hc⟩, (fits_iff hw).mp hf⟩,
    _, rfl⟩)

theorem cache_ofSpec_eq_error (s : Spec) (id : Nat) (f : Failure) :
    Cache.ofSpec id s = .error f ↔ s.validate = .error f := by
  unfold Cache.ofSpec
  cases s.validate with
  | error e => exact ⟨fun h => by cases h; rfl, fun h => by cases h; rfl⟩
  | ok g => exact iff_of_false (fun h => by cases h) fun h => by cases h

theorem machine_ofSpec_eq_error (s : Spec) (programs : List Program) (f : Failure) :
    Machine.ofSpec s programs = .error f ↔ s.validate = .error f ∨
      (∃ g, s.validate = .ok g) ∧ programs = [] ∧ f = .config .noCores := by
  unfold Machine.ofSpec
  cases s.validate with
  | error e =>
    constructor
    · intro h
      cases h
      exact .inl rfl
    · rintro (h | ⟨⟨g, hg⟩, -⟩)
      · cases h
        rfl
      · cases hg
  | ok g =>
    cases programs with
    | nil =>
      constructor
      · intro h
        cases h
        exact .inr ⟨⟨g, rfl⟩, rfl, rfl⟩
      · rintro (h | ⟨-, -, rfl⟩)
        · cases h
        · rfl
    | cons p ps =>
      refine iff_of_false (fun h => by cases h) ?_
      rintro (h | ⟨-, h, -⟩) <;> cases h

/-- **Validation decides** which specifications describe a machine, as long as the size of a set
keeps to its range: it finds a geometry for each of them and names a defect of any other. From
`2 ^ 27` ways on it faults, whatever else is specified. Caches and machines come to the same. -/
theorem validate_decides (s : Spec) :
    ((∃ g, s.validate = .ok g) ↔ s.Buildable) ∧
    ((∃ c : ConfigError, s.validate = .error (.config c) ∧ c.Blames s) ↔
      s.ways.toNat < 2 ^ 27 ∧ ¬ s.Buildable) ∧
    (s.validate = .error (.fault .overflow) ↔ 2 ^ 27 ≤ s.ways.toNat) ∧
    (∀ id f, Cache.ofSpec id s = .error f ↔ s.validate = .error f) ∧
    ∀ programs f, Machine.ofSpec s programs = .error f ↔ s.validate = .error f ∨
      (∃ g, s.validate = .ok g) ∧ programs = [] ∧ f = .config .noCores := by
  have hcache := cache_ofSpec_eq_error s
  have hmachine := machine_ofSpec_eq_error s
  obtain ⟨hbig, hv⟩ | ⟨hlt, c, hv, hc⟩ | ⟨hb, g, hv⟩ := s.validate_cases
  · refine ⟨iff_of_false (fun ⟨g, hg⟩ => ?_) fun hb => ?_, iff_of_false (fun ⟨c, hc, _⟩ => ?_)
      fun h => ?_, iff_of_true hv hbig, hcache, hmachine⟩
    · cases hv.symm.trans hg
    · exact Nat.not_lt.mpr hbig hb.ways_lt
    · cases hv.symm.trans hc
    · exact Nat.not_lt.mpr hbig h.1
  · have hnot := not_buildable_of_blames hc
    refine ⟨iff_of_false (fun ⟨g, hg⟩ => ?_) hnot, iff_of_true ⟨c, hv, hc⟩ ⟨hlt, hnot⟩,
      iff_of_false (fun h => ?_) (Nat.not_le.mpr hlt), hcache, hmachine⟩
    · cases hv.symm.trans hg
    · cases hv.symm.trans h
  · refine ⟨iff_of_true ⟨g, hv⟩ hb, iff_of_false (fun ⟨c, hc, _⟩ => ?_) fun h => h.2 hb,
      iff_of_false (fun h => ?_) (Nat.not_le.mpr hb.ways_lt), hcache, hmachine⟩
    · cases hv.symm.trans hc
    · cases hv.symm.trans h

/-- A set of `2 ^ 27` ways leaves nothing to be told. -/
theorem validate_huge_ways :
    ¬ ((∃ g, Spec.validate { ways := 0x8000000 } = .ok g) ∨
      ∃ c, Spec.validate { ways := 0x8000000 } = .error (.config c)) ∧
    Cache.ofSpec 0 { ways := 0x8000000 } = .error (.fault .overflow) ∧
    Machine.ofSpec { ways := 0x8000000 } [[]] = .error (.fault .overflow) := by
  have hv : Spec.validate { ways := 0x8000000 } = .error (.fault .overflow) := rfl
  refine ⟨?_, rfl, rfl⟩
  rintro (⟨g, hg⟩ | ⟨c, hc⟩)
  · cases hv.symm.trans hg
  · cases hv.symm.trans hc

end Spec

end Snooping
