import Snooping.Cache.Snoop
import Snooping.Cache.Tick
import Snooping.Proofs.Cache.Copies

/-!
# Tidy caches

Whatever its peers do, a cache keeps its lines and the phase of its request together: no line is in
two ways, only the line that is being fetched is marked as requested, and the way that a phase names
is the only one that may carry the line of the request.

* `Cache.Fits`: what the phase of the request says about the lines.
* **`Cache.Tidy`**: the invariant of one cache, with `Cache.tidy_empty`.
* `Cache.tidy_submit`, **`Cache.tidy_tick`**: the execute side keeps it.
-/

namespace Snooping.Cache

variable {g : Geometry}

/-! ## The invariant -/

/-- The way `w` was given to the line of an address, and no other way carries that line. -/
def PlaceOf (c : Cache g) (a : Addr) (w : Fin g.ways) : Prop :=
  (c.line (g.index a) w).tag = g.tag a ∧ c.OnlyAt a w

/-- **What the phase of a request says about the lines.** A victim stays in the way of the new line
until that line is marked there. -/
def Fits (c : Cache g) (a : Access g.ways) : Prop :=
  let r := a.request.addr
  let l := c.line (g.index r)
  match a.phase with
  | .lookup => True
  | .hit w => c.PlaceOf r w
  | .miss _ => c.Absent r
  | .upgrade w | .promote w => c.PlaceOf r w ∧ a.request.isWrite
  | .writeBack w u | .awaitWriteBack w u =>
    c.Absent r ∧ ((l w).state.isDirty → g.addrAt (g.index r) (l w).tag = u)
  | .fill w => c.OnlyAt r w ∧ ((l w).state.hasData → (l w).tag ≠ g.tag r)
  | .awaitFill w => c.PlaceOf r w ∧ ¬ (l w).state.hasData
  | .installed w => c.PlaceOf r w ∧ ¬ (l w).state.isDirty

/-- The way is kept for the line of the request in progress. -/
def KeptFor (c : Cache g) (i : Fin g.sets) (w : Fin g.ways) : Prop :=
  ∃ a, c.access = some a ∧ (a.phase = .fill w ∨ a.phase = .awaitFill w) ∧
    g.index a.request.addr = i ∧ (c.line i w).tag = g.tag a.request.addr

/-- **The invariant of one cache.** -/
structure Tidy (c : Cache g) : Prop where
  distinct : c.Distinct
  bounded : c.Bounded
  requested : ∀ i w, (c.line i w).state = .requested → c.KeptFor i w
  fits : ∀ a, c.access = some a → c.Fits a

/-- Nothing is being fetched. -/
structure Steady (c : Cache g) : Prop where
  distinct : c.Distinct
  bounded : c.Bounded
  none_requested : ∀ i w, (c.line i w).state ≠ .requested

theorem Tidy.steady {c : Cache g} (h : c.Tidy)
    (hp : ∀ a w, c.access = some a → a.phase ≠ .fill w ∧ a.phase ≠ .awaitFill w) : c.Steady := by
  refine ⟨h.distinct, h.bounded, fun i w hr => ?_⟩
  obtain ⟨a, ha, hf | hf, -⟩ := h.requested i w hr
  · exact (hp a w ha).1 hf
  · exact (hp a w ha).2 hf

namespace SameLines

variable {c c' : Cache g}

theorem placeOf (h : c.SameLines c') {a : Addr} {w : Fin g.ways} (ha : c.PlaceOf a w) :
    c'.PlaceOf a w := ⟨(h _ w).2.1.trans ha.1, h.onlyAt ha.2⟩

theorem steady (h : c.SameLines c') (hc : c.Steady) : c'.Steady :=
  ⟨h.distinct hc.distinct, h.bounded hc.bounded, fun i w => by
    rw [(h i w).1]
    exact hc.none_requested i w⟩

theorem trans {c'' : Cache g} (h : c.SameLines c') (h' : c'.SameLines c'') : c.SameLines c'' :=
  fun i w => ⟨(h' i w).1.trans (h i w).1, (h' i w).2.1.trans (h i w).2.1,
    (h' i w).2.2.trans (h i w).2.2⟩

end SameLines

theorem Steady.tidy {c : Cache g} (h : c.Steady) (hf : ∀ a, c.access = some a → c.Fits a) :
    c.Tidy := ⟨h.distinct, h.bounded, fun i w hr => absurd hr (h.none_requested i w), hf⟩

theorem Steady.tidy_of_access {c c' : Cache g} (h : c.Steady) (hs : c.SameLines c')
    {a : Access g.ways} (ha : c'.access = some a) (hf : c'.Fits a) : c'.Tidy := by
  refine (hs.steady h).tidy fun b hb => ?_
  rw [ha] at hb
  cases hb
  exact hf

theorem Steady.tidy_restart {c : Cache g} (h : c.Steady) (a : Access g.ways) :
    (c.restart a).Tidy :=
  h.tidy_of_access (.of_sets rfl) (a := { a with phase := .lookup }) rfl trivial

theorem line_empty (m id : Nat) (i : Fin g.sets) (w : Fin g.ways) :
    (empty g m id).line i w = .free := by
  simp [empty, line, LineSet.empty]

theorem copy_empty (m id : Nat) (a : Addr) : (empty g m id).copy a = (.invalid, Block.zero) := by
  refine copy_of_absent fun w hw => ?_
  rw [line_empty] at hw
  exact absurd hw (by simp [Line.carries, Line.isLive, Line.free])

theorem tidy_empty (m id : Nat) : (empty g m id).Tidy := by
  have hf : ∀ i w, (empty g m id).line i w = .free := line_empty m id
  refine ⟨fun i v w hv => ?_, fun i w hw => ?_, fun i w hr => ?_, fun a ha => ?_⟩
  · rw [hf] at hv
    exact absurd hv (by decide)
  · rw [hf] at hw
    exact absurd hw (by decide)
  · rw [hf] at hr
    exact absurd hr (by decide)
  · exact absurd ha (by simp [empty])

/-! ## The execute side -/

theorem tidy_submit {c c' : Cache g} {r : Request} (h : c.Tidy) (hs : c.submit r = .ok c') :
    c'.Tidy := by
  unfold submit at hs
  split at hs
  · next hi =>
    cases hs
    have hn : c.access = none := Option.isNone_iff_eq_none.mp hi
    have hc : c.Steady := h.steady fun a w ha => by simp [hn] at ha
    exact hc.tidy_of_access (.of_sets rfl) (a := .start r) rfl trivial
  · cases hs

/-- The cache after a lookup in a set. -/
def age (c : Cache g) (i : Fin g.sets) (hit : Option (Fin g.ways)) : Cache g :=
  { c with sets := c.sets.put i (c.sets[i].age hit) }

theorem line_age (c : Cache g) (i j : Fin g.sets) (hit : Option (Fin g.ways)) (w : Fin g.ways) :
    (c.age i hit).line j w = if i = j ∧ hit ≠ some w then (c.line j w).aged else c.line j w := by
  by_cases hij : i = j
  · subst hij
    have hl : (c.age i hit).line i w = (c.sets[i].age hit)[w] := by simp [age, line]
    rw [hl, LineSet.getElem_age]
    by_cases hw : hit = some w
    · rw [if_pos hw, if_neg fun h => h.2 hw]
      rfl
    · rw [if_neg hw, if_pos ⟨rfl, hw⟩]
      rfl
  · rw [if_neg fun h => hij h.1]
    simp [age, line, Vector.getElem_put_of_ne _ _ (Ne.symm hij)]

theorem sameLines_age (c : Cache g) (i : Fin g.sets) (hit : Option (Fin g.ways)) :
    c.SameLines (c.age i hit) := by
  intro j w
  rw [line_age]
  split_ifs
  · exact ⟨rfl, rfl, rfl⟩
  · exact ⟨rfl, rfl, rfl⟩

theorem lookUp_cases {c : Cache g} (h : c.Distinct) (a : Access g.ways) (bus : Bus) :
    ∃ hit p, c.lookUp a bus = ((c.age (g.index a.request.addr) hit).enter a p).goOn bus ∧
      ((∃ w, p = .hit w ∧ c.PlaceOf a.request.addr w) ∨
        ∃ w, p = .miss w ∧ c.Absent a.request.addr) := by
  cases hf : c.sets[g.index a.request.addr].find? (g.tag a.request.addr) with
  | none =>
    have ha : c.Absent a.request.addr := lookup?_eq_none.mp (by rw [lookup?, hf]; rfl)
    exact ⟨none, _, by simp only [lookUp, hf]; rfl, .inr ⟨_, rfl, ha⟩⟩
  | some w =>
    have hw : (c.line (g.index a.request.addr) w).carries (g.tag a.request.addr) :=
      LineSet.carries_of_find? hf
    exact ⟨some w, .hit w, by simp only [lookUp, hf]; rfl,
      .inl ⟨w, rfl, (carries_iff.mp hw).2, h.onlyAt hw⟩⟩

theorem tidy_lookUp {c : Cache g} (h : c.Steady) (a : Access g.ways) (bus : Bus) :
    (c.lookUp a bus).cache.Tidy := by
  obtain ⟨hit, p, he, hp⟩ := lookUp_cases h.distinct a bus
  have hs := c.sameLines_age (g.index a.request.addr) hit
  rw [he]
  have hs' : c.SameLines ((c.age (g.index a.request.addr) hit).enter a p) := hs
  refine h.tidy_of_access hs' rfl ?_
  obtain ⟨w, rfl, hw⟩ | ⟨w, rfl, hw⟩ := hp
  · exact hs.placeOf hw
  · exact hs.absent hw

theorem tidy_upgrade {c : Cache g} (h : c.Steady) {a : Access g.ways} {w : Fin g.ways} (bus : Bus)
    (hw : c.PlaceOf a.request.addr w) (hr : a.request.isWrite) :
    (c.upgrade a w bus).cache.Tidy := by
  unfold upgrade
  split
  · dsimp only
    split
    · exact h.tidy_of_access (.of_sets rfl) (a := { a with phase := .promote w }) rfl ⟨hw, hr⟩
    · exact h.tidy_of_access (.of_sets rfl) (a := { a with phase := .upgrade w }) rfl ⟨hw, hr⟩
  · exact h.tidy_restart a

theorem distinct_setLine {c : Cache g} (h : c.Distinct) {i : Fin g.sets} {w : Fin g.ways} {l : Line}
    (hl : ∀ v, (c.line i v).isLive → (c.line i v).tag = l.tag → v = w) :
    (c.setLine i w l).Distinct := by
  intro j v u hv hu ht
  rw [line_setLine] at hv hu ht
  rw [line_setLine] at ht
  split_ifs at hv hu ht with h1 h2 h2
  · exact h1.2.symm.trans h2.2
  · obtain ⟨rfl, rfl⟩ := h1
    exact (hl u hu ht.symm).symm
  · obtain ⟨rfl, rfl⟩ := h2
    exact hl v hv ht
  · exact h j v u hv hu ht

/-- A line put in the place of itself changes the copy of its address only. -/
theorem copy_setLine_of_tag {c : Cache g} (h : c.Distinct) {r : Addr} {w : Fin g.ways} {l : Line}
    (hw : (c.line (g.index r) w).carries (g.tag r)) (hl : l.carries (g.tag r)) (b : Addr) :
    (c.setLine (g.index r) w l).copy b =
      if b.line = r.line then (l.state, l.data) else c.copy b := by
  obtain ⟨hlive, ht⟩ := carries_iff.mp hl
  have hd : (c.setLine (g.index r) w l).Distinct := distinct_setLine h fun v hv hvt =>
    h.onlyAt hw v (carries_iff.mpr ⟨hv, hvt.trans ht⟩)
  have hb : b.line = r.line ↔ g.index b = g.index r ∧ g.tag b = g.tag r :=
    Geometry.line_eq_line_iff
  have hn : (g.index b = g.index r ∧ l.carries (g.tag b)) ↔ b.line = r.line := by
    rw [carries_iff, ht, hb, eq_comm (a := g.tag r)]
    exact and_congr_right fun _ => and_iff_right hlive
  have ho : (g.index b = g.index r ∧ (c.line (g.index r) w).carries (g.tag b)) ↔
      b.line = r.line := by
    rw [carries_iff, (carries_iff.mp hw).2, hb, eq_comm (a := g.tag r)]
    exact and_congr_right fun _ => and_iff_right (carries_iff.mp hw).1
  rw [copy_setLine h hd]
  simp only [hn, ho]
  split_ifs <;> rfl

theorem bounded_setLine {c : Cache g} (h : c.Bounded) {i : Fin g.sets} {w : Fin g.ways} {l : Line}
    (hl : l.tag * g.sets + i < 0x8000000) : (c.setLine i w l).Bounded := by
  intro j v hv
  rw [line_setLine] at hv ⊢
  split_ifs at hv ⊢ with hj
  · exact hj.1 ▸ hl
  · exact h j v hv

theorem bound_of_addr (a : Addr) : g.tag a * g.sets + g.index a < 0x8000000 := by
  rw [Geometry.tag_mul_add_index]
  exact a.lineNumber_lt

theorem OnlyAt.of_tag {c : Cache g} {a : Addr} {w : Fin g.ways} (h : c.OnlyAt a w) {l : Line}
    (hl : l.tag = g.tag a) (v : Fin g.ways) (hv : (c.line (g.index a) v).isLive)
    (ht : (c.line (g.index a) v).tag = l.tag) : v = w :=
  h v (carries_iff.mpr ⟨hv, ht.trans hl⟩)

theorem tidy_complete {c : Cache g} (h : c.Steady) (a : Access g.ways) (w : Fin g.ways) (bus : Bus)
    (now : Nat) (hw : c.PlaceOf a.request.addr w) : (c.complete a w bus now).cache.Tidy := by
  set l := (c.line (g.index a.request.addr) w).serve c.maxCounter a.request with hl
  have ht : l.2.tag = g.tag a.request.addr := by
    rw [hl, ← hw.1]
    cases a.request <;> rfl
  have hn : l.2.state ≠ .requested := by
    rw [hl]
    cases a.request with
    | read x => exact h.none_requested _ w
    | write x v => exact LineState.noConfusion
  have hs : (c.setLine (g.index a.request.addr) w l.2).Steady := by
    refine ⟨distinct_setLine h.distinct (hw.2.of_tag ht), bounded_setLine h.bounded ?_,
      fun i v => ?_⟩
    · rw [ht]
      exact bound_of_addr _
    · rw [line_setLine]
      split_ifs
      · exact hn
      · exact h.none_requested i v
  exact Steady.tidy (SameLines.steady (c := c.setLine (g.index a.request.addr) w l.2)
    (.of_sets rfl) hs) fun b hb => absurd hb (Option.some_ne_none b).symm

theorem sameLines_setCounter (c : Cache g) (i : Fin g.sets) (w : Fin g.ways) (n : Nat) :
    c.SameLines (c.setLine i w { c.line i w with counter := n }) := by
  intro j v
  rw [line_setLine]
  split_ifs with hj
  · obtain ⟨rfl, rfl⟩ := hj
    exact ⟨rfl, rfl, rfl⟩
  · exact ⟨rfl, rfl, rfl⟩

theorem tidy_useHit {c : Cache g} (h : c.Steady) (a : Access g.ways) (w : Fin g.ways) (bus : Bus)
    (now : Nat) (hw : c.PlaceOf a.request.addr w) : (c.useHit a w bus now).cache.Tidy := by
  have hs := c.sameLines_setCounter (g.index a.request.addr) w c.maxCounter
  unfold useHit
  dsimp only
  split
  · split
    · next hr =>
      exact tidy_upgrade (hs.steady h) bus (hs.placeOf hw) (Bool.and_eq_true_iff.mp hr).1
    · exact tidy_complete (hs.steady h) a w bus now (hs.placeOf hw)
  · exact h.tidy_restart a

theorem tidy_useInstalled {c : Cache g} (h : c.Steady) (a : Access g.ways) (w : Fin g.ways)
    (bus : Bus) (now : Nat) (hw : c.PlaceOf a.request.addr w) :
    (c.useInstalled a w bus now).cache.Tidy := by
  unfold useInstalled
  dsimp only
  split
  · split
    · next hr => exact tidy_upgrade h bus hw (Bool.and_eq_true_iff.mp hr).1
    · exact tidy_complete h a w bus now hw
  · exact h.tidy_restart a

/-- The cache whose way `w` is kept for the line of an address. -/
def marked (c : Cache g) (r : Addr) (w : Fin g.ways) : Cache g :=
  if (c.line (g.index r) w).awaits (g.tag r) then c
  else c.setLine (g.index r) w ⟨.requested, g.tag r, c.maxCounter, Block.zero⟩

theorem awaits_marked (c : Cache g) (r : Addr) (w : Fin g.ways) :
    ((c.marked r w).line (g.index r) w).awaits (g.tag r) := by
  unfold marked
  split_ifs with h
  · exact h
  · rw [line_setLine_self]
    exact awaits_iff.mpr ⟨rfl, rfl⟩

theorem line_marked_of_ne (c : Cache g) (r : Addr) {w v : Fin g.ways} {i : Fin g.sets}
    (h : ¬ (g.index r = i ∧ w = v)) : (c.marked r w).line i v = c.line i v := by
  unfold marked
  split_ifs
  · rfl
  · rw [line_setLine, if_neg h]

theorem fill_cases (c : Cache g) (a : Access g.ways) (w : Fin g.ways) (bus : Bus) :
    ∃ a' f, a'.request = a.request ∧
      ((bus.grants .core ∧ c.fill a w bus =
          (((c.marked a.request.addr w).enter a' (.awaitFill w)).count f).sleep
            (bus.drive ⟨c.id, .cache c.id, a.request.addr.line, .read, none⟩)) ∨
        (¬ bus.grants .core ∧ c.fill a w bus =
          (((c.marked a.request.addr w).enter a' (.fill w)).count f).goOn bus.reject)) := by
  by_cases ha : (c.line (g.index a.request.addr) w).awaits (g.tag a.request.addr)
  · by_cases hg : bus.grants .core
    · exact ⟨a, _, rfl, .inl ⟨hg, by
        simp only [fill, marked, if_pos ha, Bus.read, Bus.coreRequest, Bus.attempt, if_pos hg]
        rfl⟩⟩
    · exact ⟨a, _, rfl, .inr ⟨hg, by
        simp only [fill, marked, if_pos ha, Bus.read, Bus.coreRequest, Bus.attempt, if_neg hg,
          turnedAway]; rfl⟩⟩
  · by_cases hg : bus.grants .core
    · exact ⟨{ a with contended := false }, _, rfl, .inl ⟨hg, by
        simp only [fill, marked, if_neg ha, Bus.read, Bus.coreRequest, Bus.attempt, if_pos hg]
        rfl⟩⟩
    · exact ⟨{ a with contended := false }, _, rfl, .inr ⟨hg, by
        simp only [fill, marked, if_neg ha, Bus.read, Bus.coreRequest, Bus.attempt, if_neg hg,
          turnedAway]; rfl⟩⟩

/-- The line of the request may be fetched into the way. -/
structure Fillable (c : Cache g) (r : Addr) (w : Fin g.ways) : Prop where
  distinct : c.Distinct
  bounded : c.Bounded
  onlyAt : c.OnlyAt r w
  requested : ∀ i v, (c.line i v).state = .requested → g.index r = i ∧ w = v

theorem Steady.fillable {c : Cache g} (h : c.Steady) {r : Addr} {w : Fin g.ways}
    (hw : c.OnlyAt r w) : c.Fillable r w :=
  ⟨h.distinct, h.bounded, hw, fun i v hr => absurd hr (h.none_requested i v)⟩

namespace Fillable

variable {c : Cache g} {r : Addr} {w : Fin g.ways}

theorem distinct_marked (h : c.Fillable r w) : (c.marked r w).Distinct := by
  unfold marked
  split_ifs
  · exact h.distinct
  · exact distinct_setLine h.distinct (h.onlyAt.of_tag rfl)

theorem tidy_marked (h : c.Fillable r w) {c' : Cache g} (hs : (c.marked r w).SameLines c')
    {a : Access g.ways} (ha : c'.access = some a) (hr : a.request.addr = r)
    (hp : a.phase = .fill w ∨ a.phase = .awaitFill w) : c'.Tidy := by
  have hm := awaits_iff.mp (c.awaits_marked r w)
  have hc := carries_of_awaits (c.awaits_marked r w)
  have hb : (c.marked r w).Bounded := by
    unfold marked
    split_ifs
    · exact h.bounded
    · exact bounded_setLine h.bounded (bound_of_addr r)
  have ho : c'.OnlyAt r w := hs.onlyAt (h.distinct_marked.onlyAt hc)
  have hl : (c'.line (g.index r) w).state = .requested := (hs _ w).1.trans hm.1
  have ht : (c'.line (g.index r) w).tag = g.tag r := (hs _ w).2.1.trans hm.2
  refine ⟨hs.distinct h.distinct_marked, hs.bounded hb, fun i v hv => ?_, fun b hb => ?_⟩
  · have hiv : g.index r = i ∧ w = v := by
      by_contra hne
      rw [(hs i v).1, line_marked_of_ne c r hne] at hv
      exact hne (h.requested i v hv)
    obtain ⟨rfl, rfl⟩ := hiv
    exact ⟨a, ha, hp, by rw [hr], by rw [hr, ht]⟩
  · rw [ha] at hb
    cases hb
    have hd : ¬ (c'.line (g.index r) w).state.hasData := by
      rw [hl]
      decide
    unfold Fits
    rcases hp with hp | hp
    · rw [hp, hr]
      exact ⟨ho, fun hx => absurd hx hd⟩
    · rw [hp, hr]
      exact ⟨⟨ht, ho⟩, hd⟩

end Fillable

theorem tidy_fill {c : Cache g} {a : Access g.ways} {w : Fin g.ways} (bus : Bus)
    (h : c.Fillable a.request.addr w) : (c.fill a w bus).cache.Tidy := by
  obtain ⟨a', f, hr, ⟨-, he⟩ | ⟨-, he⟩⟩ := c.fill_cases a w bus
  · rw [he]
    exact h.tidy_marked (.of_sets rfl) rfl (congrArg Request.addr hr) (.inr rfl)
  · rw [he]
    exact h.tidy_marked (.of_sets rfl) rfl (congrArg Request.addr hr) (.inl rfl)

theorem tidy_writeBack {c : Cache g} (h : c.Steady) {a : Access g.ways} {w : Fin g.ways} {u : Addr}
    (bus : Bus) (ha : c.Absent a.request.addr)
    (hu : (c.line (g.index a.request.addr) w).state.isDirty →
      g.addrAt (g.index a.request.addr) (c.line (g.index a.request.addr) w).tag = u) :
    (c.writeBack a w u bus).cache.Tidy := by
  unfold writeBack
  dsimp only
  split
  · split
    · exact h.tidy_of_access (.of_sets rfl) (a := { a with phase := .awaitWriteBack w u }) rfl
        ⟨ha, hu⟩
    · exact h.tidy_of_access (.of_sets rfl) (a := { a with phase := .writeBack w u }) rfl ⟨ha, hu⟩
  · exact tidy_fill bus (h.fillable (ha.onlyAt w))

theorem tidy_makeRoom {c : Cache g} (h : c.Steady) {a : Access g.ways} {w : Fin g.ways} (bus : Bus)
    (ha : c.Absent a.request.addr) : (c.makeRoom a w bus).cache.Tidy := by
  unfold makeRoom
  dsimp only
  split
  · exact tidy_writeBack (a := { a with missed := true }) h bus ha fun _ => rfl
  · exact tidy_fill (a := { a with missed := true }) bus (h.fillable (ha.onlyAt w))

/-- **A turn of the execute side keeps a cache tidy.** -/
theorem tidy_tick {c : Cache g} (h : c.Tidy) (bus : Bus) (now : Nat) :
    (c.tick bus now).cache.Tidy := by
  unfold tick
  cases ha : c.access with
  | none => exact h
  | some a =>
    have hf := h.fits a ha
    have hs : (∀ w, a.phase ≠ .fill w ∧ a.phase ≠ .awaitFill w) → c.Steady := fun hp =>
      h.steady fun b w hb => by
        rw [ha] at hb
        cases hb
        exact hp w
    unfold Fits at hf
    dsimp only
    cases hp : a.phase <;> simp only [hp] at hf hs ⊢
    case lookup => exact tidy_lookUp (hs (by simp)) a bus
    case hit w => exact tidy_useHit (hs (by simp)) a w bus now hf
    case miss w => exact tidy_makeRoom (hs (by simp)) bus hf
    case upgrade w => exact tidy_upgrade (hs (by simp)) bus hf.1 hf.2
    case promote w => exact tidy_complete (hs (by simp)) a w bus now hf.1
    case writeBack w u => exact tidy_writeBack (hs (by simp)) bus hf.1 hf.2
    case fill w =>
      refine tidy_fill bus ⟨h.distinct, h.bounded, hf.1, fun i v hr => ?_⟩
      obtain ⟨b, hb, hq, hi, -⟩ := h.requested i v hr
      rw [ha] at hb
      cases hb
      rw [hp] at hq
      simp only [Phase.fill.injEq, reduceCtorEq, or_false] at hq
      exact ⟨hi, hq⟩
    case installed w => exact tidy_useInstalled (hs (by simp)) a w bus now hf.1
    case awaitWriteBack | awaitFill => exact h

end Snooping.Cache
