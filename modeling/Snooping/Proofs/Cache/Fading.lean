import Snooping.Cache.Snoop
import Snooping.Proofs.Cache.Moves

/-!
# Fading lines

While a cache looks at what its peers drive, its lines only lose their state: a sole line is shared,
or any line is given up. No phase of a request says more about a line than that.

* `LineState.Fades`: what can become of a state.
* **`Cache.Fades`**: lines lose their state, and nothing else changes.
* **`Cache.Fades.tidy`**: a cache stays tidy.
* `Cache.fades_snoop`, **`Cache.tidy_snoop`**: what a cache sees makes its lines fade.
* `Cache.line_snoop`: nothing but their state changes.
-/

namespace Snooping

/-- **What can become of a state** by what peers do. -/
def LineState.Fades (s s' : LineState) : Prop := s' = .invalid ∨ s' = s.afterPeerRead ∨ s' = s

namespace LineState.Fades

variable {s s' : LineState}

theorem of_eq (h : s' = s) : s.Fades s' := .inr (.inr h)

theorem eq_invalid (h : s.Fades s') (hs : s = .invalid) : s' = .invalid := by
  subst hs
  rcases h with h | h | h <;> exact h

theorem requested (h : s.Fades s') (hr : s' = .requested) : s = .requested := by
  subst hr
  rcases h with h | h | h
  · cases h
  · revert h
    cases s <;> decide
  · exact h.symm

theorem hasData (h : s.Fades s') (hd : s'.hasData) : s.hasData := by
  rcases h with rfl | rfl | rfl
  · exact Bool.noConfusion hd
  · revert hd
    cases s <;> decide
  · exact hd

theorem isDirty (h : s.Fades s') (hd : s'.isDirty) : s.isDirty := by
  rcases h with rfl | rfl | rfl
  · exact Bool.noConfusion hd
  · revert hd
    cases s <;> decide
  · exact hd

theorem isSole (h : s.Fades s') (hd : s'.isSole) : s.isSole := by
  rcases h with rfl | rfl | rfl
  · exact Bool.noConfusion hd
  · revert hd
    cases s <;> decide
  · exact hd

end LineState.Fades

namespace Cache

variable {g : Geometry}

/-- **Lines lose their state**, and nothing else changes. -/
structure Fades (c c' : Cache g) : Prop where
  access : c'.access.map (fun a => (a.request, a.phase)) =
    c.access.map fun a => (a.request, a.phase)
  tag : ∀ i w, (c'.line i w).tag = (c.line i w).tag
  state : ∀ i w, (c.line i w).state.Fades (c'.line i w).state

namespace Fades

variable {c c' : Cache g}

theorem access_eq_some (h : c.Fades c') {a' : Access g.ways} (ha : c'.access = some a') :
    ∃ a, c.access = some a ∧ a'.request = a.request ∧ a'.phase = a.phase := by
  have he := h.access
  rw [ha, Option.map_some, eq_comm, Option.map_eq_some_iff] at he
  obtain ⟨a, hc, he⟩ := he
  exact ⟨a, hc, (Prod.mk.inj he).1.symm, (Prod.mk.inj he).2.symm⟩

theorem isLive (h : c.Fades c') {i : Fin g.sets} {w : Fin g.ways} (hl : (c'.line i w).isLive) :
    (c.line i w).isLive :=
  isLive_iff.mpr fun hi => isLive_iff.mp hl ((h.state i w).eq_invalid hi)

theorem carries (h : c.Fades c') {i : Fin g.sets} {w : Fin g.ways} {t : Nat}
    (hl : (c'.line i w).carries t) : (c.line i w).carries t := by
  obtain ⟨hl, ht⟩ := carries_iff.mp hl
  exact carries_iff.mpr ⟨h.isLive hl, (h.tag i w).symm.trans ht⟩

theorem onlyAt (h : c.Fades c') {a : Addr} {w : Fin g.ways} (ho : c.OnlyAt a w) : c'.OnlyAt a w :=
  fun v hv => ho v (h.carries hv)

theorem placeOf (h : c.Fades c') {a : Addr} {w : Fin g.ways} (hp : c.PlaceOf a w) :
    c'.PlaceOf a w := ⟨(h.tag _ w).trans hp.1, h.onlyAt hp.2⟩

theorem absent (h : c.Fades c') {a : Addr} (ha : c.Absent a) : c'.Absent a :=
  fun w hw => ha w (h.carries hw)

theorem distinct (h : c.Fades c') (hc : c.Distinct) : c'.Distinct := by
  intro i v w hv hw ht
  rw [h.tag, h.tag] at ht
  exact hc i v w (h.isLive hv) (h.isLive hw) ht

theorem fits (h : c.Fades c') {a a' : Access g.ways} (hr : a'.request = a.request)
    (hp : a'.phase = a.phase) (hf : c.Fits a) : c'.Fits a' := by
  unfold Fits at hf ⊢
  rw [hr, hp]
  dsimp only at hf ⊢
  cases hq : a.phase <;> simp only [hq] at hf ⊢
  case hit w => exact h.placeOf hf
  case miss w => exact h.absent hf
  case upgrade w => exact ⟨h.placeOf hf.1, hf.2⟩
  case promote w => exact ⟨h.placeOf hf.1, hf.2⟩
  case writeBack w u =>
    rw [h.tag]
    exact ⟨h.absent hf.1, fun hd => hf.2 ((h.state _ w).isDirty hd)⟩
  case awaitWriteBack w u =>
    rw [h.tag]
    exact ⟨h.absent hf.1, fun hd => hf.2 ((h.state _ w).isDirty hd)⟩
  case fill w =>
    rw [h.tag]
    exact ⟨h.onlyAt hf.1, fun hd => hf.2 ((h.state _ w).hasData hd)⟩
  case awaitFill w => exact ⟨h.placeOf hf.1, fun hd => hf.2 ((h.state _ w).hasData hd)⟩
  case installed w => exact ⟨h.placeOf hf.1, fun hd => hf.2 ((h.state _ w).isDirty hd)⟩

/-- **A cache stays tidy when its lines fade.** -/
theorem tidy (h : c.Fades c') (hc : c.Tidy) : c'.Tidy := by
  refine ⟨h.distinct hc.distinct, fun i w hl => ?_, fun i w hr => ?_, fun a' ha => ?_⟩
  · rw [h.tag]
    exact hc.bounded i w (h.isLive hl)
  · obtain ⟨a, ha, hp, hi, ht⟩ := hc.requested i w ((h.state i w).requested hr)
    have he := h.access
    rw [ha, Option.map_some, Option.map_eq_some_iff] at he
    obtain ⟨a', ha', he⟩ := he
    obtain ⟨hq, hp'⟩ := Prod.mk.inj he
    exact ⟨a', ha', hp' ▸ hp, hq ▸ hi, by rw [h.tag, hq]; exact ht⟩
  · obtain ⟨a, ha, hr, hp⟩ := h.access_eq_some ha
    exact h.fits hr hp (hc.fits a ha)

theorem stage_eq (h : c.Fades c')
    (hd : ∀ i w, (c.line i w).state.isDirty → (c'.line i w).state.isDirty) :
    c'.stage = c.stage := by
  have he := h.access
  have hdirty : ∀ i w, (c'.line i w).state.isDirty = (c.line i w).state.isDirty := fun i w =>
    Bool.eq_iff_iff.mpr ⟨(h.state i w).isDirty, hd i w⟩
  cases ha' : c'.access with
  | none =>
    rw [ha', Option.map_none, eq_comm, Option.map_eq_none_iff] at he
    simp only [stage, ha', he]
  | some a' =>
    obtain ⟨a, ha, hr, hp⟩ := h.access_eq_some ha'
    rw [stage_of_access ha, stage_of_access ha', hr, hp]
    unfold stageOf
    cases a.phase <;> simp only [hdirty, h.tag]

end Fades

theorem fades_contend (c : Cache g) : c.Fades c.contend := by
  refine ⟨?_, fun _ _ => rfl, fun _ _ => .of_eq rfl⟩
  simp only [contend, Option.map_map]
  rfl

/-! ## What is seen -/

section Lines

variable {c : Cache g} {i : Fin g.sets} {w : Fin g.ways}

theorem fades_dropLine : c.Fades (c.dropLine i w) := by
  have hl : ∀ j v, (c.dropLine i w).line j v =
      if i = j ∧ w = v then { c.line i w with state := .invalid } else c.line j v :=
    fun j v => c.line_setLine i j w v _
  refine ⟨rfl, fun j v => ?_, fun j v => ?_⟩
  · rw [hl]
    split_ifs with h
    · rw [h.1, h.2]
    · rfl
  · rw [hl]
    split_ifs with h
    · exact .inl rfl
    · exact .inr (.inr rfl)

/-- The cache with the line in a way shared with a reader. -/
def shared (c : Cache g) (i : Fin g.sets) (w : Fin g.ways) : Cache g :=
  c.setLine i w { c.line i w with state := (c.line i w).state.afterPeerRead }

theorem fades_shared : c.Fades (c.shared i w) := by
  refine ⟨rfl, fun j v => ?_, fun j v => ?_⟩
  · rw [shared, line_setLine]
    split_ifs with h
    · rw [h.1, h.2]
    · rfl
  · rw [shared, line_setLine]
    split_ifs with h
    · rw [h.1, h.2]
      exact .inr (.inl rfl)
    · exact .inr (.inr rfl)

theorem shareLine_cases (c : Cache g) (bus : Bus) (t : Transfer) (i : Fin g.sets) (w : Fin g.ways) :
    ∃ f, c.shareLine bus t i w =
      (if bus.claimed then none else some ⟨t.requester, t.addr,
          (c.line i w).state.afterPeerRead, some (c.line i w).data⟩,
        (c.shared i w).count f, { bus with claimed := true }) := by
  unfold shareLine Bus.claim shared
  cases bus.claimed
  · exact ⟨fun s => { s with forwards := s.forwards + 1 }, rfl⟩
  · exact ⟨fun s => s, rfl⟩

end Lines

theorem Fades.refl (c : Cache g) : c.Fades c := ⟨rfl, fun _ _ => rfl, fun _ _ => .of_eq rfl⟩

theorem fades_react (c : Cache g) (bus : Bus) (t : Transfer) (i : Fin g.sets) (w : Fin g.ways) :
    c.Fades (c.react bus t i w).2.1 := by
  unfold react
  split
  · split
    · exact c.fades_contend
    · obtain ⟨f, he⟩ := c.shareLine_cases bus t i w
      rw [he]
      have hs : c.Fades (c.shared i w) := fades_shared
      exact ⟨hs.access, hs.tag, hs.state⟩
  · exact fades_dropLine

/-- **Lines only fade** while a cache looks at what is driven. -/
theorem fades_snoop (c : Cache g) (bus : Bus) : c.Fades (c.snoop bus).2.1 := by
  unfold snoop
  split
  · exact .refl c
  · split
    · exact .refl c
    · split
      · exact .refl c
      · split
        · exact .refl c
        · exact c.fades_react bus _ _ _

theorem line_react (c : Cache g) (bus : Bus) (t : Transfer) (i : Fin g.sets) (w : Fin g.ways)
    (j : Fin g.sets) (v : Fin g.ways) :
    ∃ s, (c.react bus t i w).2.1.line j v = { c.line j v with state := s } := by
  have hset : ∀ s, ∃ s', (c.setLine i w { c.line i w with state := s }).line j v =
      { c.line j v with state := s' } := fun s => by
    rw [line_setLine]
    split_ifs with h
    · obtain ⟨rfl, rfl⟩ := h
      exact ⟨s, rfl⟩
    · exact ⟨_, rfl⟩
  unfold react
  split_ifs
  · exact ⟨_, rfl⟩
  · obtain ⟨f, he⟩ := c.shareLine_cases bus t i w
    rw [he]
    exact hset _
  · exact hset _

theorem line_snoop (c : Cache g) (bus : Bus) (i : Fin g.sets) (w : Fin g.ways) :
    ∃ s, (c.snoop bus).2.1.line i w = { c.line i w with state := s } := by
  unfold snoop
  split
  · exact ⟨_, rfl⟩
  · split
    · exact ⟨_, rfl⟩
    · split
      · exact ⟨_, rfl⟩
      · split
        · exact ⟨_, rfl⟩
        · exact c.line_react bus _ _ _ i w

theorem tidy_snoop {c : Cache g} (h : c.Tidy) (bus : Bus) : (c.snoop bus).2.1.Tidy :=
  (c.fades_snoop bus).tidy h

theorem constants_react (c : Cache g) (bus : Bus) (t : Transfer) (i : Fin g.sets)
    (w : Fin g.ways) : (c.react bus t i w).2.1.id = c.id ∧
      (c.react bus t i w).2.1.maxCounter = c.maxCounter := by
  unfold react
  split_ifs
  · exact ⟨rfl, rfl⟩
  · obtain ⟨f, he⟩ := c.shareLine_cases bus t i w
    rw [he]
    exact ⟨rfl, rfl⟩
  · exact ⟨rfl, rfl⟩

theorem constants_snoop (c : Cache g) (bus : Bus) :
    (c.snoop bus).2.1.id = c.id ∧ (c.snoop bus).2.1.maxCounter = c.maxCounter := by
  unfold snoop
  split
  · exact ⟨rfl, rfl⟩
  · split
    · exact ⟨rfl, rfl⟩
    · split
      · exact ⟨rfl, rfl⟩
      · split
        · exact ⟨rfl, rfl⟩
        · exact c.constants_react bus _ _ _

theorem id_snoop (c : Cache g) (bus : Bus) : (c.snoop bus).2.1.id = c.id :=
  (c.constants_snoop bus).1

end Cache

end Snooping
