import Snooping.Error

/-!
# System specifications

A specification gives the sizes and latencies of the machine. Any numbers can be written into one;
`Spec.validate` tells those that describe a machine and returns the geometry of its caches. The
number of sets and the place of an address in a cache are defined for every specification, by word
arithmetic that faults where it leaves its range.

* **`Spec`**, with `Spec.numSets`, `Spec.indexBits`, `Spec.memoryWords`, `Spec.latency`.
* **`Geometry`**: a power-of-two number of sets of at least one way.
* **`Spec.validate`**: the geometry of a usable specification, or what is wrong with it.
* `Spec.place`, `Spec.addrAt`: set index and tag of an address, and back.
* `Geometry.index`, `Geometry.tag`, `Geometry.addrAt`: the same under a geometry, where nothing can
  fault, and **`Spec.place_of_validate`**, `Spec.addrAt_of_validate`: the two agree.
-/

namespace Snooping

/-- **The sizes and latencies of a machine**, with the values it has by default. -/
structure Spec where
  /-- The bytes of each cache. -/
  cacheSize : UInt32 := 2048
  /-- The lines of a set. -/
  ways : UInt32 := 8
  /-- The bytes of main memory. -/
  memorySize : UInt32 := 2 * 1024 * 1024
  /-- The service time of the first request after memory was idle. -/
  coldLatency : UInt64 := 99
  /-- The service time of a request that follows another one. -/
  warmLatency : UInt64 := 10
  /-- The recency counter of a line that was just used. -/
  maxCounter : UInt32 := 2049
  /-- The last cycle that may run, if there is a limit. -/
  maxCycles : Option UInt64 := none
  /-- Whether coherence is checked after every cycle. -/
  checkCoherence : Bool := true
  /-- Whether the bus keeps its history. -/
  recordBus : Bool := false

/-- **The shape of a cache**: `2 ^ indexBits` sets of `ways` lines. -/
structure Geometry where
  ways : Nat
  indexBits : Nat
  ways_pos : 0 < ways
  indexBits_le : indexBits ≤ 26

/-- The number of sets. -/
abbrev Geometry.sets (g : Geometry) : Nat := 1 <<< g.indexBits

theorem Geometry.sets_pos (g : Geometry) : 0 < g.sets := by
  rw [Geometry.sets, Nat.one_shiftLeft]
  exact Nat.two_pow_pos _

/-- The number of zeros below the lowest set bit of a 32-bit number, 32 if it has none. -/
def lowestBit (n : Nat) : Nat := ((List.range 32).find? n.testBit).getD 32

theorem lowestBit_one_shiftLeft {k : Nat} (h : k < 32) : lowestBit (1 <<< k) = k := by
  have : (List.range 32).find? (1 <<< k).testBit = some k := by
    rw [Nat.one_shiftLeft, List.find?_range_eq_some]
    refine ⟨by simp, by simpa using h, fun j hj => ?_⟩
    simp [Nat.testBit_two_pow]
    omega
  rw [lowestBit, this]
  rfl

namespace Spec

/-- The number of sets, rounded down; a fault if one set is larger than any cache. -/
def numSets (s : Spec) : Except Fault Nat :=
  let setSize := lineSize * max s.ways.toNat 1
  if setSize < UInt32.size then .ok (s.cacheSize.toNat / setSize) else .error .overflow

/-- The number of bits that select a set. -/
def indexBits (s : Spec) : Except Fault Nat := s.numSets.map lowestBit

/-- The whole words of main memory. -/
def memoryWords (s : Spec) : Nat := s.memorySize.toNat / wordSize

/-- The service time of a memory request. -/
def latency (s : Spec) (cold : Bool) : Nat :=
  if cold then s.coldLatency.toNat else s.warmLatency.toNat

/-- The cache has `sets` sets, which is a power of two, and no byte beside them. -/
def Fits (s : Spec) (sets : Nat) : Prop :=
  sets = 1 <<< lowestBit sets ∧ sets * lineSize * s.ways.toNat = s.cacheSize.toNat

instance (s : Spec) (sets : Nat) : Decidable (s.Fits sets) := by unfold Fits; infer_instance

theorem Fits.lowestBit_le {s : Spec} {sets : Nat} (h : s.Fits sets) (hw : s.ways ≠ 0) :
    lowestBit sets ≤ 26 := by
  have hw' : 1 ≤ s.ways.toNat := by
    have : s.ways.toNat ≠ (0 : UInt32).toNat := fun e => hw (UInt32.toNat_inj.mp e)
    simp at this
    omega
  have hc := s.cacheSize.toNat_lt
  have hs : sets < 0x8000000 := by
    have h1 := h.2
    have h2 : sets * lineSize * 1 ≤ sets * lineSize * s.ways.toNat := Nat.mul_le_mul_left _ hw'
    simp only [lineSize] at *
    omega
  have hp : 2 ^ lowestBit sets < 2 ^ 27 := by
    rw [← Nat.one_shiftLeft]
    exact h.1 ▸ hs
  have := (Nat.pow_lt_pow_iff_right (by omega : 1 < 2)).mp hp
  omega

/-- **The geometry of a usable specification**; otherwise the first thing that is wrong with it. -/
def validate (s : Spec) : Except Failure Geometry := do
  if hw : s.ways = 0 then
    throw (.config .zeroAssociativity)
  else
    let sets ← Failure.lift s.numSets
    if hf : s.Fits sets then
      if s.memorySize = 0 ∨ s.memorySize.toNat % lineSize ≠ 0 then
        throw (.config (.badMemory s.memorySize.toNat))
      if s.coldLatency = 0 ∨ s.warmLatency = 0 then
        throw (.config .zeroLatency)
      if s.maxCounter = 0 then
        throw (.config .zeroCounter)
      return {
        ways := s.ways.toNat
        indexBits := lowestBit sets
        ways_pos := Nat.pos_of_ne_zero fun h => hw (UInt32.toNat_inj.mp h)
        indexBits_le := hf.lowestBit_le hw }
    else
      throw (.config (.badGeometry s.cacheSize.toNat s.ways.toNat))

/-! ## Places in a cache -/

/-- The position of the tag in an address; a fault if a word has no such bit. -/
def tagPosition (s : Spec) : Except Fault Nat := do
  let d := offsetBits + (← s.indexBits)
  if d < 32 then return d else throw .overflow

/-- Set index and tag of an address. -/
def place (s : Spec) (a : Addr) : Except Fault (Nat × Nat) := do
  let sets ← s.numSets
  if sets = 0 then
    throw .overflow
  let d ← s.tagPosition
  return ((a.val.toNat >>> offsetBits) &&& (sets - 1), a.val.toNat >>> d)

/-- The line address with a set index and a tag; bits beyond the word are lost. -/
def addrAt (s : Spec) (index tag : Nat) : Except Fault Addr := do
  let d ← s.tagPosition
  return ⟨UInt32.ofNat (tag <<< d) ||| UInt32.ofNat (index <<< offsetBits)⟩

end Spec

/-! ## Places under a geometry -/

namespace Geometry

/-- The set of an address. -/
def index (g : Geometry) (a : Addr) : Fin g.sets :=
  ⟨a.lineNumber % g.sets, Nat.mod_lt _ g.sets_pos⟩

/-- What tells the lines of a set apart. -/
def tag (g : Geometry) (a : Addr) : Nat := a.lineNumber / g.sets

/-- The address of the line with a set index and a tag. -/
def addrAt (g : Geometry) (index : Fin g.sets) (tag : Nat) : Addr :=
  Addr.ofLine (tag * g.sets + index)

theorem addrAt_place (g : Geometry) (a : Addr) : g.addrAt (g.index a) (g.tag a) = a.line := by
  simp only [addrAt, index, tag, Addr.line]
  rw [Nat.mul_comm, Nat.div_add_mod]

end Geometry

/-! ## Places of a usable specification -/

namespace Spec

theorem numSets_of_validate {s : Spec} {g : Geometry} (h : s.validate = .ok g) :
    s.numSets = .ok g.sets ∧ g.ways = s.ways.toNat ∧
      g.sets * lineSize * g.ways = s.cacheSize.toNat := by
  unfold validate at h
  split at h
  · cases h
  cases hn : s.numSets with
  | error f => simp [hn, Failure.lift, bind, Except.bind] at h
  | ok sets =>
    simp only [hn, Failure.lift, bind, Except.bind] at h
    split at h
    · next hf =>
      split at h
      · cases h
      split at h
      · cases h
      split at h
      · cases h
      cases h
      refine ⟨congrArg _ hf.1, rfl, ?_⟩
      show 1 <<< lowestBit sets * lineSize * s.ways.toNat = _
      rw [← hf.1]
      exact hf.2
    · cases h

theorem tagPosition_of_validate {s : Spec} {g : Geometry} (h : s.validate = .ok g) :
    s.tagPosition = .ok (offsetBits + g.indexBits) := by
  have hb := g.indexBits_le
  have hk : lowestBit g.sets = g.indexBits := lowestBit_one_shiftLeft (by omega)
  have hd : offsetBits + g.indexBits < 32 := by simp only [offsetBits]; omega
  simp only [tagPosition, indexBits, (numSets_of_validate h).1, Except.map, bind, Except.bind, hk,
    if_pos hd]
  rfl

/-- For a usable specification the place of an address is its place under the geometry. -/
theorem place_of_validate {s : Spec} {g : Geometry} (h : s.validate = .ok g) (a : Addr) :
    s.place a = .ok ((g.index a : Nat), g.tag a) := by
  have hsets : g.sets = 2 ^ g.indexBits := Nat.one_shiftLeft _
  have h0 : 2 ^ g.indexBits ≠ 0 := hsets ▸ Nat.ne_of_gt g.sets_pos
  simp only [place, (numSets_of_validate h).1, tagPosition_of_validate h, bind, Except.bind,
    if_neg h0, pure, Except.pure, Nat.and_two_pow_sub_one_eq_mod, Nat.shiftRight_eq_div_pow,
    Geometry.index, Geometry.tag, Addr.lineNumber, lineSize, offsetBits, Nat.pow_add,
    Nat.div_div_eq_div_mul, hsets]

theorem addrAt_of_validate {s : Spec} {g : Geometry} (h : s.validate = .ok g) (i : Fin g.sets)
    (tag : Nat) : s.addrAt i tag = .ok (g.addrAt i tag) := by
  have hsets : g.sets = 2 ^ g.indexBits := Nat.one_shiftLeft _
  have hi : (i : Nat) < 2 ^ g.indexBits := hsets ▸ i.isLt
  simp only [addrAt, tagPosition_of_validate h, bind, Except.bind, pure, Except.pure,
    Geometry.addrAt, Addr.ofLine, ← UInt32.ofNat_or]
  congr 3
  rw [Nat.add_comm offsetBits, Nat.shiftLeft_add, ← Nat.shiftLeft_or_distrib,
    ← Nat.shiftLeft_add_eq_or_of_lt hi, Nat.shiftLeft_eq, Nat.shiftLeft_eq, ← hsets]
  rfl

end Spec

end Snooping
