import Snooping.Proofs.Bench
import Snooping.Proofs.Cache.Answers
import Snooping.Proofs.Cache.Recency

/-!
# A cache on any bus

A cache keeps its lines in order by itself. Its peers may drive what they like, and its turns, its
looks at the bus and its answers may come in any order and at any time.

* `Cache.Act`, **`Cache.act`**: the calls of a cache.
* `Cache.tidy_act`, `Cache.recent_act`, `Cache.id_act`: what every call keeps.
* **`Cache.InShape`**: what can be relied on between two calls.
* **`Cache.in_shape`**: it holds at any time.
-/

namespace Snooping

/-- The way that a phase names. -/
def Phase.way? {ways : Nat} : Phase ways → Option (Fin ways)
  | lookup => none
  | hit w | miss w | upgrade w | promote w | writeBack w _ | awaitWriteBack w _ | fill w
  | awaitFill w | installed w => some w

namespace Cache

variable {g : Geometry}

/-! ## Calls -/

/-- The calls of a cache. -/
inductive Act
  | submit (r : Request)
  | tick (now : Nat)
  | observe
  | snoop
  deriving DecidableEq

/-- **Makes a call.** Only a cache that is idle takes a request. -/
def act : Act → Cache g → Bus → Except Fault (Cache g × Bus)
  | .submit r, c, bus => (c.submit r).map (·, bus)
  | .tick now, c, bus => .ok ((c.tick bus now).cache, (c.tick bus now).bus)
  | .observe, c, bus => .ok ((c.observe bus).2, bus)
  | .snoop, c, bus => .ok (c.snoop bus).2

section Act

variable {c c' : Cache g} {bus bus' : Bus} {x : Act}

theorem submit_of_act {r : Request} (h : act (.submit r) c bus = .ok (c', bus')) :
    c.submit r = .ok c' := by
  obtain ⟨d, hd, he⟩ := map_eq_ok.mp h
  cases he
  exact hd

theorem act_keeps {P : Cache g → Prop} (hx : act x c bus = .ok (c', bus'))
    (hsubmit : ∀ r d, c.submit r = .ok d → P d) (htick : ∀ now, P (c.tick bus now).cache)
    (hobserve : P (c.observe bus).2) (hsnoop : P (c.snoop bus).2.1) : P c' := by
  cases x with
  | submit r => exact hsubmit r c' (submit_of_act hx)
  | tick now =>
    cases hx
    exact htick now
  | observe =>
    cases hx
    exact hobserve
  | snoop =>
    have he : (c.snoop bus).2 = (c', bus') := Except.ok.inj hx
    rw [he] at hsnoop
    exact hsnoop

theorem tidy_act (h : c.Tidy) (hx : act x c bus = .ok (c', bus')) : c'.Tidy :=
  act_keeps hx (fun _ _ hs => tidy_submit h hs) (fun now => tidy_tick h bus now)
    (tidy_observe h bus) (tidy_snoop h bus)

theorem recent_act {m : Nat} (h : c.Recent m) (hx : act x c bus = .ok (c', bus')) : c'.Recent m :=
  act_keeps hx (fun _ _ hs => h.submit hs) (fun now => h.tick bus now) (h.observe bus)
    (h.snoop bus)

theorem id_act {n : Nat} (h : c.id = n) (hx : act x c bus = .ok (c', bus')) : c'.id = n :=
  act_keeps hx (fun _ _ hs => (id_submit hs).trans h) (fun now => (c.id_tick bus now).trans h)
    ((c.id_observe bus).trans h) ((c.id_snoop bus).trans h)

end Act

/-! ## The shape of a cache -/

/-- **What can be relied on** between two calls of a cache with a specification. -/
structure InShape (s : Spec) (c : Cache g) : Prop where
  /-- No set has two lines with one tag. -/
  distinct : c.Distinct
  counter : ∀ i w, (c.line i w).counter ≤ s.maxCounter.toNat
  /-- A line is marked as requested in the way of the request in progress and nowhere else. -/
  requested : ∀ i w, (c.line i w).state = .requested → c.KeptFor i w
  way : ∀ a w, c.access = some a → a.phase.way? = some w → (w : Nat) < s.ways.toNat
  /-- A tag has no more bits than an address leaves it. -/
  tag : ∀ i w, (c.line i w).isLive → (c.line i w).tag < 1 <<< (32 - (offsetBits + g.indexBits))
  aligned : ∀ x ∈ c.resident, x.1.val.toNat % lineSize = 0
  nodup : (c.resident.map Prod.fst).Nodup
  unique : c.duplicate? = none

theorem Bounded.tag_lt {c : Cache g} (h : c.Bounded) {i : Fin g.sets} {w : Fin g.ways}
    (hl : (c.line i w).isLive) : (c.line i w).tag < 1 <<< (32 - (offsetBits + g.indexBits)) := by
  have hk := g.indexBits_le
  rw [Nat.one_shiftLeft, show 32 - (offsetBits + g.indexBits) = 27 - g.indexBits by
    simp only [offsetBits]
    omega]
  exact Geometry.bound_iff.mp (h i w hl)

variable {s : Spec} {c₀ : Cache g} {id : Nat} {b₀ : Bus} {b : Bench (Cache g)}
  {l : List (Bench (Cache g) × Bench.Call Act)}

theorem ofSpec_eq_ok (h : ofSpec id s = .ok ⟨g, c₀⟩) :
    s.validate = .ok g ∧ c₀ = empty g s.maxCounter.toNat id := by
  unfold ofSpec at h
  cases hv : s.validate with
  | error f =>
    rw [hv] at h
    cases h
  | ok g' =>
    rw [hv] at h
    cases h
    exact ⟨rfl, rfl⟩

theorem tidy_history (hc : ofSpec id s = .ok ⟨g, c₀⟩)
    (h : History (Bench.play act) ⟨c₀, b₀⟩ l b) : b.part.Tidy := by
  obtain ⟨-, rfl⟩ := ofSpec_eq_ok hc
  exact Bench.invariant h (tidy_empty _ id) tidy_act

theorem id_history (hc : ofSpec id s = .ok ⟨g, c₀⟩)
    (h : History (Bench.play act) ⟨c₀, b₀⟩ l b) : b.part.id = id := by
  obtain ⟨-, rfl⟩ := ofSpec_eq_ok hc
  exact Bench.invariant (P := fun c => c.id = id) h rfl id_act

/-- **A cache stays in shape**, whatever its peers do and whenever it is called. Every call can be
made, but a request is taken only by a cache that is idle. -/
theorem in_shape (hc : ofSpec id s = .ok ⟨g, c₀⟩)
    (h : History (Bench.play act) ⟨c₀, b₀⟩ l b) :
    b.part.InShape s ∧ ∀ x f, Bench.play act b x = .error f →
      ∃ r, x = .own (.submit r) ∧ b.part.isIdle = false := by
  have ht : b.part.Tidy := tidy_history hc h
  obtain ⟨hv, rfl⟩ := ofSpec_eq_ok hc
  have hr : b.part.Recent s.maxCounter.toNat :=
    Bench.invariant h (recent_empty _ id) recent_act
  refine ⟨⟨ht.distinct, hr.counter, ht.requested, fun a w _ _ => ?_, fun i w => ht.bounded.tag_lt,
    fun x hx => ?_, ?_, duplicate?_eq_none ht.distinct⟩, fun x f hx => ?_⟩
  · rw [← (Spec.numSets_of_validate hv).2.1]
    exact w.isLt
  · obtain ⟨-, hline⟩ := copy_of_mem_resident ht.distinct ht.bounded hx
    rw [← hline, Addr.toNat_line, Nat.mul_mod_left]
  · exact List.pairwise_map.mpr (pairwise_resident ht.distinct ht.bounded)
  · match x with
    | .own (.submit r) =>
      refine ⟨r, rfl, ?_⟩
      by_contra hi
      rw [Bool.not_eq_false] at hi
      have hs : Bench.play act b (.own (.submit r)) =
          .ok ⟨{ b.part with access := some (.start r) }, b.bus⟩ := by
        simp only [Bench.play, act, submit, hi, if_true]
        rfl
      cases hs.symm.trans hx
    | .own (.tick _) | .own .observe | .own .snoop | .other _ => cases hx

/-- One set of two lines. -/
def smallSpec : Spec where
  cacheSize := 64
  ways := 2
  memorySize := 128
  maxCounter := 4

/-- The geometry of `smallSpec`. -/
abbrev smallGeometry : Geometry := ⟨2, 0, by decide, by decide⟩

def small : Cache smallGeometry := empty _ 4 0

theorem ofSpec_small : ofSpec 0 smallSpec = .ok ⟨_, small⟩ := rfl

/-- A line is taken away while it is awaited, and asked for again. -/
theorem in_shape_small : ∃ l b, ofSpec 0 smallSpec = .ok ⟨_, small⟩ ∧
    History (Bench.play act) ⟨small, .idle false⟩ l b ∧ b.part.stats.restarts = 1 ∧
    b.part.lineState ⟨0⟩ = .requested ∧ b.part.InShape smallSpec := by
  obtain ⟨l, b, h, hr, hl⟩ := exists_history (Bench.play act) ⟨small, .idle false⟩
    [.own (.submit (.write ⟨0⟩ 7)), .own (.tick 0), .own (.tick 1), .own .snoop,
      .other (.begin 2), .other (.invalidate 1 ⟨0⟩), .own .snoop, .other (.begin 3),
      .other (.memoryResponse 0 ⟨0⟩ (some Block.zero)), .own .observe, .own (.tick 4),
      .other (.begin 5), .own (.tick 5)]
    (fun _ b => b.part.stats.restarts = 1 ∧ b.part.lineState ⟨0⟩ = .requested) (by decide +kernel)
  exact ⟨l, b, ofSpec_small, h, hr, hl, (in_shape ofSpec_small h).1⟩

end Cache

end Snooping
