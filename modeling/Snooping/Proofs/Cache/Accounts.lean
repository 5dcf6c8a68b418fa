import Mathlib.Data.Fintype.Prod
import Snooping.Proofs.Cache.Deeds

/-!
# The accounts of a cache

What a cache has counted bounds what it has driven: a line is written back only after it was
written, an attempt starts over only after its line was taken away, and a line is asked for once in
every attempt.

* `CacheStats.served`, `CacheStats.wrote`: the requests that have ended.
* `Cache.unsaved`: the dirty lines that have still to be written back.
* `Cache.lost`: the line of the request is gone.
* **`Cache.Balanced`**: the accounts, with `Cache.balanced_submit`.
* **`Cache.balanced_tick`**: they stay balanced in every turn.
-/

namespace Snooping

/-! ## Requests -/

namespace CacheStats

/-- The requests that have ended. -/
def served (s : CacheStats) : Nat := s.readHits + s.readMisses + s.writeHits + s.writeMisses

/-- The writes that have ended. -/
def wrote (s : CacheStats) : Nat := s.writeHits + s.writeMisses

variable (s : CacheStats) (isWrite missed : Bool)

theorem served_finish : (s.finish isWrite missed).served = s.served + 1 := by
  cases isWrite <;> cases missed <;> simp only [finish, served] <;> omega

theorem wrote_finish : (s.finish isWrite missed).wrote = s.wrote + isWrite.toNat := by
  cases isWrite <;> cases missed <;>
    simp only [finish, wrote, Bool.toNat_false, Bool.toNat_true] <;> omega

theorem finish_eq : (s.finish isWrite missed).writeBacks = s.writeBacks ∧
    (s.finish isWrite missed).invalidationsSent = s.invalidationsSent ∧
    (s.finish isWrite missed).busAcquisitions = s.busAcquisitions ∧
    (s.finish isWrite missed).restarts = s.restarts ∧
    (s.finish isWrite missed).invalidated = s.invalidated := by
  cases isWrite <;> cases missed <;> exact ⟨rfl, rfl, rfl, rfl, rfl⟩

end CacheStats

namespace Phase

variable {ways : Nat}

/-- The line in a way has been written back and is about to be given up. -/
def leaves (w : Fin ways) : Phase ways → Bool
  | awaitWriteBack v _ | fill v => v = w
  | lookup | hit _ | miss _ | upgrade _ | promote _ | writeBack _ _ | awaitFill _ | installed _ =>
    false

/-- The line may have been asked for. -/
def asked : Phase ways → Bool
  | awaitFill _ | installed _ | upgrade _ | promote _ => true
  | lookup | hit _ | miss _ | writeBack _ _ | awaitWriteBack _ _ | fill _ => false

/-- The line has been taken away from the other caches. -/
def took : Phase ways → Bool
  | promote _ => true
  | lookup | hit _ | miss _ | upgrade _ | writeBack _ _ | awaitWriteBack _ _ | fill _ | awaitFill _
  | installed _ => false

/-- The line with this tag is not what the phase has found it to be. -/
def misses (l : Fin ways → Line) (tag : Nat) : Phase ways → Bool
  | hit w | upgrade w | installed w => !(l w).offers tag
  | awaitFill w => !(l w).awaits tag
  | lookup | miss _ | promote _ | writeBack _ _ | awaitWriteBack _ _ | fill _ => false

end Phase

namespace Cache

variable {g : Geometry}

/-- One if the phase of the request is among these. -/
def inPhase (c : Cache g) (p : Phase g.ways → Bool) : Nat := (c.access.any fun a => p a.phase).toNat

theorem inPhase_of_access {c : Cache g} {a : Access g.ways} (h : c.access = some a)
    (p : Phase g.ways → Bool) : c.inPhase p = (p a.phase).toNat := by
  rw [inPhase, h]
  rfl

theorem inPhase_le (c : Cache g) (p : Phase g.ways → Bool) :
    c.inPhase p ≤ c.access.isSome.toNat := by
  unfold inPhase
  cases c.access with
  | none => exact Nat.le_refl _
  | some a => exact Bool.toNat_le _

theorem Tidy.took_le {c : Cache g} (h : c.Tidy) :
    c.inPhase Phase.took ≤ (c.access.any fun a => a.request.isWrite).toNat := by
  cases ha : c.access with
  | none =>
    rw [inPhase, ha]
    exact Nat.le_refl _
  | some a =>
    rw [inPhase_of_access ha]
    cases hp : a.phase with
    | promote w =>
      have hf := h.fits a ha
      unfold Fits at hf
      rw [hp] at hf
      exact Nat.le_of_eq (congrArg Bool.toNat hf.2.symm)
    | _ => exact Nat.zero_le _

/-! ## Lines -/

/-- The line in a way has been written back and is about to be given up. -/
def leaving (c : Cache g) (i : Fin g.sets) (w : Fin g.ways) : Bool :=
  c.access.any fun a => decide (g.index a.request.addr = i) && a.phase.leaves w

/-- **The dirty lines that have still to be written back.** -/
def unsaved (c : Cache g) : Finset (Fin g.sets × Fin g.ways) :=
  Finset.univ.filter fun p => (c.line p.1 p.2).state.isDirty ∧ c.leaving p.1 p.2 = false

/-- **The line of the request is gone** since the request has last looked at it. -/
def lost (c : Cache g) : Bool :=
  c.access.any fun a => a.phase.misses (c.line (g.index a.request.addr)) (g.tag a.request.addr)

theorem mem_unsaved {c : Cache g} {p : Fin g.sets × Fin g.ways} :
    p ∈ c.unsaved ↔ (c.line p.1 p.2).state.isDirty ∧ c.leaving p.1 p.2 = false := by
  simp [unsaved]

theorem leaving_of_access {c : Cache g} {a : Access g.ways} (h : c.access = some a) (i : Fin g.sets)
    (w : Fin g.ways) :
    c.leaving i w = (decide (g.index a.request.addr = i) && a.phase.leaves w) := by
  rw [leaving, h]
  rfl

theorem leaving_eq_false {c : Cache g} {a : Access g.ways} (h : c.access = some a)
    (hp : ∀ w, a.phase.leaves w = false) (i : Fin g.sets) (w : Fin g.ways) :
    c.leaving i w = false := by
  rw [leaving_of_access h, hp, Bool.and_false]

theorem unsaved_le {c c' : Cache g}
    (h : ∀ i w, (c'.line i w).state.isDirty → c'.leaving i w = false →
      (c.line i w).state.isDirty ∧ c.leaving i w = false) : c'.unsaved.card ≤ c.unsaved.card := by
  refine Finset.card_le_card fun p hp => ?_
  obtain ⟨hd, hl⟩ := mem_unsaved.mp hp
  exact mem_unsaved.mpr (h p.1 p.2 hd hl)

/-! ## The accounts -/

/-- **The accounts of a cache are balanced.** -/
structure Balanced (c : Cache g) : Prop where
  /-- A line is written back once for a write. -/
  writeBacks : c.stats.writeBacks + c.unsaved.card ≤ c.stats.wrote
  /-- A line is taken away from the others once for a write. -/
  invalidations : c.stats.invalidationsSent ≤ c.stats.wrote + c.inPhase Phase.took
  /-- A line is asked for once in every attempt. -/
  reads : c.stats.busAcquisitions ≤ c.stats.writeBacks + c.stats.invalidationsSent +
    c.stats.served + c.stats.restarts + c.inPhase Phase.asked
  /-- A request starts over once for a line that was taken away. -/
  restarts : c.stats.restarts + c.lost.toNat ≤ c.stats.invalidated

theorem Balanced.keep {c c' : Cache g} (h : c.Balanced) {b f : Nat}
    (hs : c'.stats = { c.stats with busWaitCycles := b, forwards := f })
    (hb : c'.unsaved.card ≤ c.unsaved.card) (ht : c.inPhase Phase.took ≤ c'.inPhase Phase.took)
    (ha : c.inPhase Phase.asked ≤ c'.inPhase Phase.asked) (hl : c'.lost = true → c.lost = true) :
    c'.Balanced := by
  have hlost : c'.lost.toNat ≤ c.lost.toNat := by
    cases hc : c'.lost with
    | false => exact Nat.zero_le _
    | true => rw [hl hc]
  refine ⟨?_, ?_, ?_, ?_⟩
  · rw [hs]
    exact Nat.le_trans (Nat.add_le_add_left hb _) h.writeBacks
  · rw [hs]
    exact Nat.le_trans h.invalidations (Nat.add_le_add_left ht _)
  · rw [hs]
    exact Nat.le_trans h.reads (Nat.add_le_add_left ha _)
  · rw [hs]
    exact Nat.le_trans (Nat.add_le_add_left hlost _) h.restarts

theorem balanced_empty (m id : Nat) : (empty g m id).Balanced := by
  have hb : (empty g m id).unsaved = ∅ := by
    refine Finset.eq_empty_of_forall_notMem fun p hp => ?_
    have hd := (mem_unsaved.mp hp).1
    rw [line_empty] at hd
    exact Bool.noConfusion hd
  refine ⟨?_, Nat.zero_le _, Nat.zero_le _, Nat.zero_le _⟩
  rw [hb]
  exact Nat.zero_le _

theorem balanced_submit {c : Cache g} (h : c.Balanced) (hn : c.access = none) (r : Request) :
    ({ c with access := some (.start r) } : Cache g).Balanced := by
  refine h.keep (b := c.stats.busWaitCycles) (f := c.stats.forwards) rfl
    (unsaved_le fun i w hd _ => ⟨hd, by rw [leaving, hn]; rfl⟩) ?_ ?_ nofun
  · rw [inPhase, hn]
    exact Nat.zero_le _
  · rw [inPhase, hn]
    exact Nat.zero_le _

/-! ## Turns -/

theorem lost_of_access {c : Cache g} {a : Access g.ways} (h : c.access = some a) :
    c.lost = a.phase.misses (c.line (g.index a.request.addr)) (g.tag a.request.addr) := by
  rw [lost, h]
  rfl

theorem offers_of_sameLines {c c' : Cache g} (h : c.SameLines c') {i : Fin g.sets}
    {w : Fin g.ways} {t : Nat} (ho : (c.line i w).offers t) : (c'.line i w).offers t := by
  obtain ⟨hd, ht⟩ := offers_iff.mp ho
  refine offers_iff.mpr ⟨?_, (h i w).2.1.trans ht⟩
  rw [(h i w).1]
  exact hd

theorem unsaved_le_of_sameLines {c d : Cache g} (h : c.SameLines d)
    (hl : ∀ i w, c.leaving i w = false) : d.unsaved.card ≤ c.unsaved.card :=
  unsaved_le fun i w hd _ => ⟨by rw [← (h i w).1]; exact hd, hl i w⟩

theorem leaves_of_three {a : Access g.ways} {w : Fin g.ways}
    (hp : a.phase = .hit w ∨ a.phase = .upgrade w ∨ a.phase = .installed w) (v : Fin g.ways) :
    a.phase.leaves v = false := by
  obtain hp | hp | hp := hp <;> rw [hp] <;> rfl

section Turn

variable {c : Cache g} {a : Access g.ways} {w : Fin g.ways}

theorem took_of_three (ha : c.access = some a)
    (hp : a.phase = .hit w ∨ a.phase = .upgrade w ∨ a.phase = .installed w) :
    c.inPhase Phase.took = 0 := by
  rw [inPhase_of_access ha]
  obtain hp | hp | hp := hp <;> rw [hp] <;> rfl

theorem lost_look (h : c.Tidy) {hit : Option (Fin g.ways)} {p : Phase g.ways}
    (ha : c.access = some a) (hl : a.phase = .lookup)
    (hw : (p = .hit w ∧ (c.line (g.index a.request.addr) w).carries (g.tag a.request.addr)) ∨
      p = .miss w) : ((c.age (g.index a.request.addr) hit).enter a p).lost = false := by
  rw [lost_of_access rfl]
  obtain ⟨rfl, hw⟩ | rfl := hw
  · -- Nothing is being fetched, so that a line that is carried is there.
    have hsteady := h.steady fun b v hb => by
      cases ha.symm.trans hb
      rw [hl]
      exact ⟨nofun, nofun⟩
    have hstate := hsteady.none_requested (g.index a.request.addr) w
    obtain ⟨hlive, htag⟩ := carries_iff.mp hw
    have ho : (c.line (g.index a.request.addr) w).offers (g.tag a.request.addr) := by
      refine offers_iff.mpr ⟨?_, htag⟩
      have hlive := isLive_iff.mp hlive
      cases hs : (c.line (g.index a.request.addr) w).state <;> simp_all [LineState.hasData]
    exact congrArg Bool.not (offers_of_sameLines (c.sameLines_age (g.index a.request.addr) hit) ho)
  · rfl

theorem balanced_look (h : c.Tidy) (hp : c.Balanced) {hit : Option (Fin g.ways)} {p : Phase g.ways}
    (ha : c.access = some a) (hl : a.phase = .lookup)
    (hw : (p = .hit w ∧ (c.line (g.index a.request.addr) w).carries (g.tag a.request.addr)) ∨
      p = .miss w) : ((c.age (g.index a.request.addr) hit).enter a p).Balanced := by
  refine hp.keep (b := c.stats.busWaitCycles) (f := c.stats.forwards) rfl
    (unsaved_le_of_sameLines (c.sameLines_age (g.index a.request.addr) hit)
      (leaving_eq_false ha fun v => by rw [hl]; rfl)) ?_ ?_ fun hx => ?_
  · rw [inPhase_of_access ha, hl]
    exact Nat.zero_le _
  · rw [inPhase_of_access ha, hl]
    exact Nat.zero_le _
  · cases (lost_look h ha hl hw).symm.trans hx

theorem balanced_restart (hp : c.Balanced) (ha : c.access = some a)
    (hl : ∀ v, a.phase.leaves v = false) (ht : a.phase.took = false) (hg : c.lost = true) :
    (c.restart a).Balanced := by
  have hb : (c.restart a).unsaved.card ≤ c.unsaved.card :=
    unsaved_le_of_sameLines (.of_sets rfl) (leaving_eq_false ha hl)
  have htook : c.inPhase Phase.took = 0 := by rw [inPhase_of_access ha, ht]; rfl
  have hasked : c.inPhase Phase.asked ≤ 1 := Bool.toNat_le _
  obtain ⟨h₁, h₂, h₃, h₄⟩ := hp
  rw [hg] at h₄
  refine ⟨Nat.le_trans (Nat.add_le_add_left hb _) h₁, ?_, ?_, h₄⟩
  · show c.stats.invalidationsSent ≤ c.stats.wrote + 0
    omega
  · show c.stats.busAcquisitions ≤ c.stats.writeBacks + c.stats.invalidationsSent +
      c.stats.served + (c.stats.restarts + 1) + 0
    omega

theorem unsaved_complete {c₁ : Cache g} (ha : c.access = some a)
    (hl : ∀ v, a.phase.leaves v = false) (hk : c.Keeps c₁) (bus : Bus) (now : Nat) :
    (c₁.complete a w bus now).cache.unsaved.card ≤ c.unsaved.card + a.request.isWrite.toNat := by
  have hline : ∀ i v, (c₁.complete a w bus now).cache.line i v =
      if g.index a.request.addr = i ∧ w = v then
        ((c₁.line (g.index a.request.addr) w).serve c₁.maxCounter a.request).2
      else c₁.line i v := fun i v => c₁.line_setLine _ i w v _
  cases hr : a.request with
  | read x =>
    rw [hr] at hline
    refine Nat.le_trans (unsaved_le fun i v hd _ => ⟨?_, leaving_eq_false ha hl i v⟩)
      (Nat.le_add_right _ _)
    rw [← (hk.lines i v).1]
    rw [hline] at hd
    split_ifs at hd with hv
    · obtain ⟨rfl, rfl⟩ := hv
      exact hd
    · exact hd
  | write x y =>
    rw [hr] at hline
    refine Nat.le_trans (Finset.card_le_card fun p hp => ?_)
      (Finset.card_insert_le (g.index x, w) c.unsaved)
    obtain ⟨hd, -⟩ := mem_unsaved.mp hp
    rw [Finset.mem_insert]
    refine or_iff_not_imp_left.mpr fun hne => mem_unsaved.mpr ⟨?_, leaving_eq_false ha hl _ _⟩
    rw [hline, if_neg fun hv => hne (Prod.ext hv.1.symm hv.2.symm)] at hd
    rw [← (hk.lines p.1 p.2).1]
    exact hd

theorem balanced_complete (h : c.Tidy) (hp : c.Balanced) {c₁ : Cache g} (ha : c.access = some a)
    (hq : a.phase = .hit w ∨ a.phase = .installed w ∨ a.phase = .promote w) (hk : c.Keeps c₁)
    (bus : Bus) (now : Nat) : (c₁.complete a w bus now).cache.Balanced := by
  set c' := (c₁.complete a w bus now).cache with hc
  have hstats : c'.stats = c.stats.finish a.request.isWrite a.missed :=
    congrArg (CacheStats.finish · a.request.isWrite a.missed) hk.stats
  have hleaves : ∀ v, a.phase.leaves v = false := fun v => by
    obtain hq | hq | hq := hq <;> rw [hq] <;> rfl
  have htook : c.inPhase Phase.took ≤ a.request.isWrite.toNat := by
    have hle := h.took_le
    rwa [ha] at hle
  have hasked : c.inPhase Phase.asked ≤ 1 := Bool.toNat_le _
  have hunsaved : c'.unsaved.card ≤ c.unsaved.card + a.request.isWrite.toNat :=
    unsaved_complete ha hleaves hk bus now
  obtain ⟨e₁, e₂, e₃, e₄, e₅⟩ := c.stats.finish_eq a.request.isWrite a.missed
  have hserved := c.stats.served_finish a.request.isWrite a.missed
  have hwrote := c.stats.wrote_finish a.request.isWrite a.missed
  obtain ⟨h₁, h₂, h₃, h₄⟩ := hp
  refine ⟨?_, ?_, ?_, ?_⟩
  · rw [hstats, e₁, hwrote]
    omega
  · rw [hstats, e₂, hwrote]
    omega
  · rw [hstats, e₁, e₂, e₃, e₄, hserved]
    omega
  · rw [hstats, e₄, e₅]
    show c.stats.restarts + 0 ≤ _
    omega

section Fill

variable (ha : c.access = some a)
  (hq : a.phase = .miss w ∨ (∃ u, a.phase = .writeBack w u) ∨ a.phase = .fill w)

include ha hq

theorem took_of_filled : c.inPhase Phase.took = 0 := by
  rw [inPhase_of_access ha]
  obtain hq | ⟨u, hq⟩ | hq := hq <;> rw [hq] <;> rfl

theorem asked_of_filled : c.inPhase Phase.asked = 0 := by
  rw [inPhase_of_access ha]
  obtain hq | ⟨u, hq⟩ | hq := hq <;> rw [hq] <;> rfl

theorem unsaved_marked {d : Cache g} (hl : (c.marked a.request.addr w).SameLines d) :
    d.unsaved.card ≤ c.unsaved.card := by
  refine unsaved_le fun i v hd _ => ?_
  rw [(hl i v).1] at hd
  have hne : ¬ (g.index a.request.addr = i ∧ w = v) := by
    rintro ⟨rfl, rfl⟩
    rw [(awaits_iff.mp (c.awaits_marked a.request.addr w)).1] at hd
    exact Bool.noConfusion hd
  rw [c.line_marked_of_ne a.request.addr hne] at hd
  refine ⟨hd, ?_⟩
  rw [leaving_of_access ha, Bool.and_eq_false_iff, or_iff_not_imp_left, Bool.not_eq_false,
    decide_eq_true_iff]
  intro hi
  obtain hq | ⟨u, hq⟩ | hq := hq <;> rw [hq]
  · rfl
  · rfl
  · exact decide_eq_false fun hv => hne ⟨hi, hv⟩

end Fill

theorem stats_marked (c : Cache g) (r : Addr) (w : Fin g.ways) :
    (c.marked r w).stats = c.stats := by
  unfold marked
  split_ifs <;> rfl

theorem balanced_take (hp : c.Balanced) {c₁ : Cache g} (ha : c.access = some a)
    (hq : a.phase = .hit w ∨ a.phase = .upgrade w ∨ a.phase = .installed w) (hk : c.Keeps c₁) :
    ((c₁.enter a (.promote w)).count fun s => { s with
      invalidationsSent := s.invalidationsSent + 1
      busAcquisitions := s.busAcquisitions + 1 }).Balanced := by
  have hb : (c₁.enter a (.promote w)).unsaved.card ≤ c.unsaved.card :=
    unsaved_le_of_sameLines (d := c₁.enter a (.promote w)) hk.lines
      (leaving_eq_false ha (leaves_of_three hq))
  have htook : c.inPhase Phase.took = 0 := took_of_three ha hq
  have hasked : c.inPhase Phase.asked ≤ 1 := Bool.toNat_le _
  obtain ⟨h₁, h₂, h₃, h₄⟩ := hp
  rw [← hk.stats] at h₁ h₂ h₃ h₄
  refine ⟨Nat.le_trans (Nat.add_le_add_left hb _) h₁, ?_, ?_,
    Nat.le_trans (Nat.add_le_add_left (Nat.zero_le _) _) h₄⟩
  · show c₁.stats.invalidationsSent + 1 ≤ c₁.stats.wrote + 1
    omega
  · show c₁.stats.busAcquisitions + 1 ≤ c₁.stats.writeBacks + (c₁.stats.invalidationsSent + 1) +
      c₁.stats.served + c₁.stats.restarts + 1
    omega

theorem balanced_fetch (hp : c.Balanced) {a' : Access g.ways} (ha : c.access = some a)
    (hq : a.phase = .miss w ∨ (∃ u, a.phase = .writeBack w u) ∨ a.phase = .fill w)
    (hr : a'.request = a.request) :
    (((c.marked a.request.addr w).enter a' (.awaitFill w)).count fun s => { s with
      busAcquisitions := s.busAcquisitions + 1 }).Balanced := by
  have hb := unsaved_marked (d := (c.marked a.request.addr w).enter a' (.awaitFill w)) ha hq
    (.of_sets rfl)
  have hlost : ((c.marked a.request.addr w).enter a' (.awaitFill w)).lost = false := by
    rw [lost_of_access rfl, hr]
    exact congrArg Bool.not (c.awaits_marked a.request.addr w)
  have htook : c.inPhase Phase.took = 0 := took_of_filled ha hq
  have hasked : c.inPhase Phase.asked = 0 := asked_of_filled ha hq
  have hstats := c.stats_marked a.request.addr w
  obtain ⟨h₁, h₂, h₃, h₄⟩ := hp
  rw [← hstats] at h₁ h₂ h₃ h₄
  generalize c.marked a.request.addr w = k at *
  refine ⟨Nat.le_trans (Nat.add_le_add_left hb _) h₁, ?_, ?_, ?_⟩
  · show k.stats.invalidationsSent ≤ k.stats.wrote + 0
    omega
  · show k.stats.busAcquisitions + 1 ≤ k.stats.writeBacks + k.stats.invalidationsSent +
      k.stats.served + k.stats.restarts + 1
    omega
  · show k.stats.restarts + (k.enter a' (.awaitFill w)).lost.toNat ≤ k.stats.invalidated
    rw [hlost]
    exact Nat.le_trans (Nat.add_le_add_left (Nat.zero_le _) _) h₄

theorem balanced_evict (hp : c.Balanced) {a' : Access g.ways} {u : Addr} (ha : c.access = some a)
    (hq : a.phase = .miss w ∨ a.phase = .writeBack w u)
    (hd : (c.line (g.index a.request.addr) w).state.isDirty) (hr : a'.request = a.request) :
    ((c.enter a' (.awaitWriteBack w u)).count fun s => { s with
      writeBacks := s.writeBacks + 1
      busAcquisitions := s.busAcquisitions + 1 }).Balanced := by
  set c' := (c.enter a' (.awaitWriteBack w u)).count fun s => { s with
      writeBacks := s.writeBacks + 1
      busAcquisitions := s.busAcquisitions + 1 } with hc
  have hl : ∀ i v, c.leaving i v = false := leaving_eq_false ha fun v => by
    obtain hq | hq := hq <;> rw [hq] <;> rfl
  have hl' : c'.leaving (g.index a.request.addr) w = true := by
    rw [leaving_of_access rfl, hr]
    simp [Phase.leaves]
  have hmem : (g.index a.request.addr, w) ∈ c.unsaved := mem_unsaved.mpr ⟨hd, hl _ _⟩
  have hsub : c'.unsaved ⊆ c.unsaved.erase (g.index a.request.addr, w) := fun p hp => by
    obtain ⟨hd, hx⟩ := mem_unsaved.mp hp
    refine Finset.mem_erase.mpr ⟨fun he => ?_, mem_unsaved.mpr ⟨hd, hl _ _⟩⟩
    subst he
    exact Bool.noConfusion (hl'.symm.trans hx)
  have hcard := Finset.card_le_card hsub
  have hpos := Finset.card_pos.mpr ⟨_, hmem⟩
  rw [Finset.card_erase_of_mem hmem] at hcard
  have hfill : a.phase = .miss w ∨ (∃ u, a.phase = .writeBack w u) ∨ a.phase = .fill w :=
    hq.imp_right fun hq => .inl ⟨u, hq⟩
  have hasked : c.inPhase Phase.asked = 0 := asked_of_filled ha hfill
  have htook : c.inPhase Phase.took = 0 := took_of_filled ha hfill
  obtain ⟨h₁, h₂, h₃, h₄⟩ := hp
  refine ⟨?_, ?_, ?_, Nat.le_trans (Nat.add_le_add_left (Nat.zero_le _) _) h₄⟩
  · show c.stats.writeBacks + 1 + c'.unsaved.card ≤ c.stats.wrote
    omega
  · show c.stats.invalidationsSent ≤ c.stats.wrote + 0
    omega
  · show c.stats.busAcquisitions + 1 ≤ c.stats.writeBacks + 1 + c.stats.invalidationsSent +
      c.stats.served + c.stats.restarts + 0
    omega

/-- **The accounts stay balanced in every turn.** -/
theorem balanced_tick (h : c.Tidy) (hp : c.Balanced) (bus : Bus) (now : Nat) :
    (c.tick bus now).cache.Balanced := by
  have hd := c.deed_tick bus now
  generalize c.tick bus now = x at hd
  cases hd with
  | sleep => exact hp
  | look ha hl hw => exact balanced_look h hp ha hl hw
  | @restart a w ha hq ho =>
    refine balanced_restart hp ha (leaves_of_three hq) ?_ ?_
    · obtain hq | hq | hq := hq <;> rw [hq] <;> rfl
    · rw [lost_of_access ha]
      obtain hq | hq | hq := hq <;> rw [hq] <;> simpa [Phase.misses] using ho
  | take ha hq _ hk _ => exact balanced_take hp ha hq hk
  | @yield c₁ a w ha hq ho hk _ =>
    have hlost : (c₁.enter a (.upgrade w)).lost = false :=
      congrArg Bool.not (offers_of_sameLines hk.lines ho)
    refine hp.keep (b := c₁.stats.busWaitCycles + 1) (f := c.stats.forwards) ?_
      (unsaved_le_of_sameLines (d := (c₁.enter a (.upgrade w)).turnedAway) hk.lines
        (leaving_eq_false ha (leaves_of_three hq))) ?_ (Bool.toNat_le _) fun hx => ?_
    · rw [← hk.stats]
      rfl
    · rw [took_of_three ha hq]
      exact Nat.zero_le _
    · cases hlost.symm.trans hx
  | serve ha hq hk => exact balanced_complete h hp ha hq hk bus now
  | fetch ha hq _ _ hr _ => exact balanced_fetch hp ha hq hr
  | @ask a a' w ha hq _ _ hr _ =>
    refine hp.keep (b := c.stats.busWaitCycles + 1) (f := c.stats.forwards) ?_
      (unsaved_marked (d := ((c.marked a.request.addr w).enter a' (.fill w)).turnedAway) ha hq
        (.of_sets rfl)) ?_ ?_ nofun
    · rw [← c.stats_marked a.request.addr w]
      rfl
    · rw [took_of_filled ha hq]
      exact Nat.zero_le _
    · rw [asked_of_filled ha hq]
      exact Nat.zero_le _
  | evict ha hq hd hr _ => exact balanced_evict hp ha hq hd hr
  | @hold a a' w u ha hq hr _ =>
    have hfill : a.phase = .miss w ∨ (∃ u, a.phase = .writeBack w u) ∨ a.phase = .fill w :=
      hq.imp_right fun hq => .inl ⟨u, hq⟩
    refine hp.keep (b := c.stats.busWaitCycles + 1) (f := c.stats.forwards) rfl
      (unsaved_le_of_sameLines (d := (c.enter a' (.writeBack w u)).turnedAway) (.of_sets rfl)
        (leaving_eq_false ha fun v => ?_)) ?_ ?_ nofun
    · obtain hq | hq := hq <;> rw [hq] <;> rfl
    · rw [took_of_filled ha hfill]
      exact Nat.zero_le _
    · rw [asked_of_filled ha hfill]
      exact Nat.zero_le _

end Turn

end Cache

end Snooping
