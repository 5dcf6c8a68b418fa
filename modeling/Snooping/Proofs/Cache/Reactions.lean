import Snooping.Proofs.Cache.Fading

/-!
# Reactions of a cache

What a peer drives changes the copies of one line, and at most sends a request back to work whose
victim is gone.

* `Func.remains`, `Stage.seen`: what a transfer leaves of a peer's copy and of its stage.
* **`Cache.Reaction`**, `Cache.reaction_snoop`: the reactions to a peer.
* **`Cache.copy_snoop`**, **`Cache.stage_snoop`**: what a transfer does to a peer.
* `Cache.job_snoop`, `Cache.bus_snoop`: the job that is owed then, and the side band.
-/

namespace Snooping

/-- **What a transfer leaves of a copy** of its line in another cache. -/
def Func.remains : Func → LineState × Block → LineState × Block
  | .read, x => (x.1.afterPeerRead, x.2)
  | .write, _ | .invalidate, _ => (.invalid, Block.zero)
  | .nothing, x | .response, x | .requested, x => x

/-- The stage of a request once the transfer of a peer was seen: a line that was about to be given
up may be gone. -/
def Stage.seen (s : Stage) (t : Transfer) : Stage :=
  if (t.func = .write ∨ t.func = .invalidate) ∧ s = .leaves t.addr.line then .works else s

/-- The job carries the data of a line. -/
def ForwardJob.isData (j : ForwardJob) : Bool := j.state ≠ .requested

namespace Cache

variable {g : Geometry}

theorem holds_iff {c : Cache g} (h : c.Distinct) {a : Addr} :
    c.holds a ↔ (c.copy a).1 ≠ .invalid := by
  constructor
  · intro hh
    obtain ⟨w, hw⟩ := Option.isSome_iff_exists.mp hh
    have hc : (c.line (g.index a) w).carries (g.tag a) := LineSet.carries_of_find? hw
    rw [copy_of_carries h hc]
    exact isLive_iff.mp (carries_iff.mp hc).1
  · intro hh
    by_contra hn
    have ha : c.lookup? a = none := by
      simpa [lookup?, holds] using hn
    exact hh (by simp only [copy, ha])

theorem snoop_own {c : Cache g} {bus : Bus} {t : Transfer} (ht : bus.current = some t)
    (h : t.requester = c.id) : c.snoop bus = (none, c, bus) := by
  simp [snoop, ht, h, Bus.requestFor, Option.filter]

/-- **The reactions of a cache** to the transfer of a peer. -/
inductive Reaction (c : Cache g) (bus : Bus) (t : Transfer) :
    Option ForwardJob × Cache g × Bus → Prop
  /-- There is nothing to do; an answer about a line that is held pulls the shared line. -/
  | ignore (ha : t.func.isRequest → c.Absent t.addr) : Reaction c bus t
      (none, c, if t.func = .response ∧ c.holds t.addr then bus.assertShared else bus)
  /-- The line is awaited here too. -/
  | notice (hf : t.func = .read) (hs : (c.copy t.addr).1 = .requested) :
      Reaction c bus t (some ⟨t.requester, t.addr, .requested, none⟩, c.contend, bus)
  /-- The line is shared with a reader. -/
  | share {w : Fin g.ways} {f : CacheStats → CacheStats} (hf : t.func = .read)
      (hw : (c.line (g.index t.addr) w).carries (g.tag t.addr)) (hd : (c.copy t.addr).1.hasData) :
      Reaction c bus t
        (if bus.claimed then none else some ⟨t.requester, t.addr, (c.copy t.addr).1.afterPeerRead,
            some (c.copy t.addr).2⟩,
          (c.shared (g.index t.addr) w).count f, { bus with claimed := true })
  /-- The line is given up. -/
  | drop {w : Fin g.ways} (hf : t.func = .write ∨ t.func = .invalidate)
      (hw : (c.line (g.index t.addr) w).carries (g.tag t.addr)) :
      Reaction c bus t (none, c.dropLine (g.index t.addr) w, bus)

theorem reaction_react {c : Cache g} {bus : Bus} {t : Transfer} (h : c.Distinct)
    (hr : t.func.isRequest) {w : Fin g.ways}
    (hw : (c.line (g.index t.addr) w).carries (g.tag t.addr)) :
    Reaction c bus t (c.react bus t (g.index t.addr) w) := by
  have hc := copy_of_carries h hw
  unfold react
  split_ifs with hf hs
  · exact .notice hf (by rw [hc, hs])
  · obtain ⟨f, he⟩ := c.shareLine_cases bus t (g.index t.addr) w
    have hd : (c.copy t.addr).1.hasData := by
      have hl := isLive_iff.mp (carries_iff.mp hw).1
      rw [hc]
      dsimp only
      revert hl hs
      cases (c.line (g.index t.addr) w).state <;> simp [LineState.hasData]
    have hx : (c.line (g.index t.addr) w).state = (c.copy t.addr).1 ∧
        (c.line (g.index t.addr) w).data = (c.copy t.addr).2 := by rw [hc]; exact ⟨rfl, rfl⟩
    rw [he, hx.1, hx.2]
    exact .share hf hw hd
  · refine .drop ?_ hw
    revert hr hf
    cases t.func <;> simp [Func.isRequest]

/-- **A cache ignores its own transfers** and reacts to those of its peers. -/
theorem reaction_snoop {c : Cache g} {bus : Bus} {t : Transfer} (h : c.Distinct)
    (ht : bus.current = some t) (hne : t.requester ≠ c.id) : Reaction c bus t (c.snoop bus) := by
  by_cases hf : t.func = .response
  · have he : c.snoop bus =
        (none, c, if t.func = .response ∧ c.holds t.addr then bus.assertShared else bus) := by
      simp [snoop, ht, hne, hf]
    rw [he]
    refine .ignore fun hr => ?_
    rw [hf] at hr
    exact Bool.noConfusion hr
  · have hi : (if t.func = .response ∧ c.holds t.addr then bus.assertShared else bus) = bus :=
      if_neg fun e => hf e.1
    cases hr : t.func.isRequest with
    | false =>
      have he : c.snoop bus = (none, c, bus) := by
        simp [snoop, ht, hf, hr, Bus.requestFor, Option.filter]
      have hk : Reaction c bus t _ := .ignore fun hx => absurd (hr.symm.trans hx) (by decide)
      rw [hi] at hk
      rwa [he]
    | true =>
      have hq : bus.requestFor c.id = some t := by simp [Bus.requestFor, ht, hne, hr, Option.filter]
      unfold snoop
      simp only [ht, hf, false_and, if_false, hq]
      cases hw : c.sets[g.index t.addr].find? (g.tag t.addr) with
      | none =>
        have ha : c.Absent t.addr := lookup?_eq_none.mp (by rw [lookup?, hw]; rfl)
        have hk : Reaction c bus t _ := .ignore fun _ => ha
        rwa [hi] at hk
      | some w => exact reaction_react h hr (LineSet.carries_of_find? hw)

section Held

variable {c : Cache g} (h : c.Tidy) {a : Addr} {w : Fin g.ways}
  (hw : (c.line (g.index a) w).carries (g.tag a))

include h hw

theorem copy_dropLine (b : Addr) : (c.dropLine (g.index a) w).copy b =
    if b.line = a.line then (.invalid, Block.zero) else c.copy b := by
  have hd := (fades_dropLine (i := g.index a) (w := w)).distinct h.distinct
  have hl : (c.dropLine (g.index a) w).copy b = _ := copy_setLine h.distinct hd b
  have hn : ¬ Line.carries { c.line (g.index a) w with state := .invalid } (g.tag b) := by
    simp [Line.carries, Line.isLive]
  rw [hl, if_neg fun e => hn e.2]
  have hb : (g.index b = g.index a ∧ (c.line (g.index a) w).carries (g.tag b)) ↔
      b.line = a.line := by
    rw [carries_iff, (carries_iff.mp hw).2, Geometry.line_eq_line_iff (g := g),
      eq_comm (a := g.tag a)]
    exact and_congr_right fun _ => and_iff_right (carries_iff.mp hw).1
  simp only [hb]

theorem copy_shared (b : Addr) : (c.shared (g.index a) w).copy b =
    if b.line = a.line then ((c.copy b).1.afterPeerRead, (c.copy b).2) else c.copy b := by
  have hl : Line.carries { c.line (g.index a) w with
      state := (c.line (g.index a) w).state.afterPeerRead } (g.tag a) := by
    obtain ⟨hl, ht⟩ := carries_iff.mp hw
    refine carries_iff.mpr ⟨isLive_iff.mpr ?_, ht⟩
    rw [isLive_iff] at hl
    dsimp only
    revert hl
    cases (c.line (g.index a) w).state <;> decide
  rw [shared, copy_setLine_of_tag h.distinct hw hl]
  split_ifs with hb
  · rw [c.copy_congr hb, copy_of_carries h.distinct hw]
  · rfl

theorem stage_dropLine : (c.dropLine (g.index a) w).stage =
    if c.stage = .leaves a.line then .works else c.stage := by
  have hl : ∀ j v, (c.dropLine (g.index a) w).line j v =
      if g.index a = j ∧ w = v then { c.line (g.index a) w with state := .invalid }
      else c.line j v := fun j v => c.line_setLine _ j w v _
  obtain ⟨hlive, htag⟩ := carries_iff.mp hw
  cases ha : c.access with
  | none =>
    have hs : c.stage = .idle := by simp only [stage, ha]
    have hs' : (c.dropLine (g.index a) w).stage = .idle := by
      simp only [stage, dropLine, setLine, count, ha]
    rw [hs, hs']
    rfl
  | some b =>
    have hold := stage_of_access ha
    have hnew : (c.dropLine (g.index a) w).stage =
        (c.dropLine (g.index a) w).stageOf b.request.addr b.phase := stage_of_access ha
    cases hp : b.phase <;> rw [hp] at hold hnew
    case fill v =>
      by_cases hv : g.index a = g.index b.request.addr ∧ w = v
      · have hworks : (c.dropLine (g.index a) w).stage = .works := by
          rw [hnew]
          simp only [stageOf]
          rw [if_neg]
          rw [hl, if_pos hv]
          exact Bool.false_ne_true
        rw [hworks]
        split_ifs with hx
        · rfl
        · rw [hold] at hx ⊢
          simp only [stageOf] at hx ⊢
          rw [← hv.1, ← hv.2, htag, Geometry.addrAt_place] at hx ⊢
          split_ifs at hx ⊢
          · exact absurd rfl hx
          · rfl
      · have hsame : (c.dropLine (g.index a) w).stage = c.stage := by
          rw [hnew, hold]
          simp only [stageOf, hl, if_neg hv]
        rw [hsame, if_neg]
        -- a line in another way would be the same line twice
        intro he
        rw [hold] at he
        simp only [stageOf] at he
        split_ifs at he with hd
        have hlive' : (c.line (g.index b.request.addr) v).isLive := by
          rw [isLive_iff]
          exact fun e => absurd (e ▸ hd) (by decide)
        have hb := h.bounded _ v hlive'
        obtain ⟨hi, ht⟩ := Geometry.line_eq_line_iff (g := g).mp
          ((congrArg Addr.line (Stage.leaves.inj he)).trans a.line_line)
        rw [Geometry.index_addrAt hb] at hi
        rw [Geometry.tag_addrAt hb] at ht
        rw [hi] at hlive' ht hv
        exact hv ⟨rfl, h.distinct _ _ _ hlive hlive' (htag.trans ht.symm)⟩
    all_goals
      rw [hnew, hold]
      rfl

end Held

variable {c : Cache g} {bus : Bus} {t : Transfer}

/-- **What a transfer does to the copies of a peer.** -/
theorem copy_snoop (h : c.Tidy) (ht : bus.current = some t) (hne : t.requester ≠ c.id) (b : Addr) :
    (c.snoop bus).2.1.copy b =
      if b.line = t.addr.line then t.func.remains (c.copy b) else c.copy b := by
  have hsnoop := reaction_snoop h.distinct ht hne
  generalize c.snoop bus = r at hsnoop ⊢
  cases hsnoop with
  | ignore ha =>
    dsimp only
    split_ifs with hb
    · rw [c.copy_congr hb]
      cases hr : t.func.isRequest with
      | true =>
        rw [copy_of_absent (ha hr)]
        cases t.func <;> rfl
      | false =>
        revert hr
        cases t.func <;> simp [Func.isRequest, Func.remains]
    · rfl
  | notice hf hs =>
    have hc : c.contend.copy = c.copy := SameLines.copy_eq (.of_sets rfl) h.distinct
    rw [hc]
    split_ifs with hb
    · rw [c.copy_congr hb, hf, Func.remains, hs]
      exact Prod.ext hs rfl
    · rfl
  | @share w f hf hw hd =>
    have hc : ((c.shared (g.index t.addr) w).count f).copy = (c.shared (g.index t.addr) w).copy :=
      SameLines.copy_eq (.of_sets rfl) (fades_shared.distinct h.distinct)
    rw [hc, copy_shared h hw, hf]
    rfl
  | @drop w hf hw =>
    rw [copy_dropLine h hw]
    rcases hf with hf | hf <;> rw [hf] <;> rfl

/-- **What a transfer does to the stage of a peer.** -/
theorem stage_snoop (h : c.Tidy) (ht : bus.current = some t) (hne : t.requester ≠ c.id) :
    (c.snoop bus).2.1.stage = c.stage.seen t := by
  have hsnoop := reaction_snoop h.distinct ht hne
  generalize c.snoop bus = r at hsnoop ⊢
  cases hsnoop with
  | ignore ha =>
    refine (if_neg fun hx => ?_).symm
    obtain ⟨hf, hs⟩ := hx
    have hr : t.func.isRequest := by rcases hf with hf | hf <;> rw [hf] <;> rfl
    have hd := (dirty_of_leaves h hs).1
    rw [c.copy_congr t.addr.line_line, copy_of_absent (ha hr)] at hd
    exact Bool.noConfusion hd
  | notice hf hs =>
    rw [Stage.seen, if_neg (by simp [hf])]
    exact c.fades_contend.stage_eq fun _ _ hd => hd
  | @share w f hf hw hd =>
    have hs : c.Fades (c.shared (g.index t.addr) w) := fades_shared
    have hseen : c.stage.seen t = c.stage := if_neg (by simp [hf])
    rw [hseen]
    refine hs.stage_eq fun i v hx => ?_
    rw [shared, line_setLine]
    split_ifs with hv
    · obtain ⟨rfl, rfl⟩ := hv
      revert hx
      dsimp only
      cases (c.line (g.index t.addr) w).state <;> decide
    · exact hx
  | @drop w hf hw =>
    rw [stage_dropLine h hw, Stage.seen]
    simp only [hf, true_and]

theorem isData_afterPeerRead {s : LineState} (h : s.hasData) (d : Nat) (a : Addr)
    (b : Option Block) :
    ForwardJob.isData ⟨d, a, s.afterPeerRead, b⟩ := by
  revert h
  cases s <;> simp [LineState.hasData, LineState.afterPeerRead, ForwardJob.isData]

theorem job_snoop (h : c.Tidy) (ht : bus.current = some t) (hne : t.requester ≠ c.id) :
    (c.snoop bus).1.filter ForwardJob.isData =
      if t.func = .read ∧ (c.copy t.addr).1.hasData ∧ bus.claimed = false then
        some ⟨t.requester, t.addr, (c.copy t.addr).1.afterPeerRead, some (c.copy t.addr).2⟩
      else none := by
  have hsnoop := reaction_snoop h.distinct ht hne
  generalize c.snoop bus = r at hsnoop ⊢
  cases hsnoop with
  | ignore ha =>
    refine (if_neg fun hx => ?_).symm
    obtain ⟨hf, hd, -⟩ := hx
    rw [copy_of_absent (ha (by rw [hf]; rfl))] at hd
    exact Bool.noConfusion hd
  | notice hf hs =>
    rw [if_neg (by rw [hs]; exact fun hx => Bool.noConfusion hx.2.1)]
    rfl
  | share hf hw hd =>
    cases hb : bus.claimed with
    | true => simp
    | false => simp [hf, hd, Option.filter, isData_afterPeerRead hd]
  | drop hf hw =>
    refine (if_neg fun hx => ?_).symm
    rcases hf with hf | hf
    · exact absurd (hf.symm.trans hx.1) (by decide)
    · exact absurd (hf.symm.trans hx.1) (by decide)

theorem bus_snoop (h : c.Tidy) (ht : bus.current = some t) (hne : t.requester ≠ c.id) :
    (c.snoop bus).2.2 = { bus with
      claimed := bus.claimed || (t.func = .read && (c.copy t.addr).1.hasData)
      shared := bus.shared || (t.func = .response && (c.copy t.addr).1 ≠ .invalid) } := by
  have hsame :
      bus = { bus with claimed := bus.claimed || false, shared := bus.shared || false } := by
    simp
  have hsnoop := reaction_snoop h.distinct ht hne
  generalize c.snoop bus = r at hsnoop ⊢
  cases hsnoop with
  | ignore ha =>
    by_cases hf : t.func = .response
    · by_cases hh : c.holds t.addr
      · simp [hf, hh, (holds_iff h.distinct).mp hh, Bus.assertShared]
      · have hi : (c.copy t.addr).1 = .invalid := not_not.mp (mt (holds_iff h.distinct).mpr hh)
        simp [hf, hh, hi]
    · by_cases hr : t.func = .read
      · have hc := copy_of_absent (ha (by rw [hr]; rfl))
        simp [hr, hc, LineState.hasData]
      · simp [hf, hr]
  | notice hf hs => simp [hf, hs, LineState.hasData]
  | share hf hw hd => simp [hf, hd]
  | drop hf hw => rcases hf with hf | hf <;> simp [hf]

end Cache

end Snooping
