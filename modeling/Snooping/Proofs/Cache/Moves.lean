import Snooping.Proofs.Cache.Tidy

/-!
# Moves of a cache

A turn of the execute side has many phases, but the other caches can tell only a few things about
it: what copies the cache has, what it drives, and what it waits for.

* **`Stage`**, `Cache.stage`: what is known of a request in progress.
* `Request.result`, `Request.effect`: what serving a request gives and leaves behind.
* `Gives`: a line is marked as requested, and the line in its way is given up.
* **`Cache.Move`**: the moves of a cache, and **`Cache.move_tick`**: every turn is one of them.
-/

namespace Snooping

/-- **What is known of the request of a cache.** -/
inductive Stage
  | idle
  /-- It is being worked on. -/
  | works
  /-- The line has been taken away from the other caches and will be written now. -/
  | taken (line : Addr)
  /-- A read or a write of the line was driven and waits for its answer. -/
  | awaits (func : Func) (line : Addr)
  /-- The dirty line has been written back and is about to be given up. -/
  | leaves (line : Addr)
  deriving DecidableEq

/-- The word that a request reads from a line, or writes into it. -/
def Request.result : Request → Block → Word
  | .read a, b => b[a.word]
  | .write _ v, _ => v

namespace LineState

theorem hasData_of_isSole {s : LineState} (h : s.isSole) : s.hasData := by
  cases s <;> first | rfl | exact Bool.noConfusion h

theorem hasData_of_isDirty {s : LineState} (h : s.isDirty) : s.hasData := by
  cases s <;> first | rfl | exact Bool.noConfusion h

end LineState

/-- What a request leaves of its line. -/
def Request.effect : Request → LineState × Block → LineState × Block
  | .read _, x => x
  | .write a v, x => (.modified, x.2.put a.word v)

/-- The line of an address is marked as requested, and what was in its way is given up: a clean line
at any time, a dirty one only when it has been written back. Here `x` are the copies of a cache at
stage `s`, and `y` its copies afterwards. -/
structure Gives (s : Stage) (x y : Addr → LineState × Block) (r : Addr) : Prop where
  lacks : ∀ b, b.line = r.line → ¬ (x b).1.hasData
  marked : ∀ b, b.line = r.line → (y b).1 = .requested
  others : ∀ b, b.line ≠ r.line → y b = x b ∨
    (y b = (.invalid, Block.zero) ∧ ((x b).1.isDirty → s = .leaves b.line))

theorem Gives.leaves_of_lost {s : Stage} {x y : Addr → LineState × Block} {r b : Addr}
    (h : Gives s x y r) (hd : (x b).1.isDirty) (hn : ¬ (y b).1.isDirty) : s = .leaves b.line := by
  by_cases hb : b.line = r.line
  · exact absurd (LineState.hasData_of_isDirty hd) (h.lacks b hb)
  · obtain he | ⟨-, he⟩ := h.others b hb
    · exact absurd (he ▸ hd) hn
    · exact he hd

theorem Gives.eq_of_hasData {s : Stage} {x y : Addr → LineState × Block} {r b : Addr}
    (h : Gives s x y r) (hd : (y b).1.hasData) : y b = x b := by
  by_cases hb : b.line = r.line
  · rw [h.marked b hb] at hd
    exact Bool.noConfusion hd
  · obtain he | ⟨he, -⟩ := h.others b hb
    · exact he
    · rw [he] at hd
      exact Bool.noConfusion hd

namespace Cache

variable {g : Geometry}

/-- The stage of a request that leaves its line to the way of a phase. -/
def stageOf (c : Cache g) (r : Addr) : Phase g.ways → Stage
  | .promote _ => .taken r.line
  | .awaitFill _ => .awaits .read r.line
  | .awaitWriteBack _ u => .awaits .write u.line
  | .fill w =>
    let l := c.line (g.index r) w
    if l.state.isDirty then .leaves (g.addrAt (g.index r) l.tag) else .works
  | .lookup | .hit _ | .miss _ | .upgrade _ | .writeBack _ _ | .installed _ => .works

/-- **The stage of the request in progress.** -/
def stage (c : Cache g) : Stage :=
  match c.access with
  | none => .idle
  | some a => c.stageOf a.request.addr a.phase

theorem stage_of_access {c : Cache g} {a : Access g.ways} (h : c.access = some a) :
    c.stage = c.stageOf a.request.addr a.phase := by
  simp only [stage, h]

/-- A line that was taken away from the others is the line of a request that is about to write
it. -/
theorem access_of_taken {c : Cache g} {u : Addr} (h : c.stage = .taken u) :
    ∃ a w, c.access = some a ∧ a.phase = .promote w ∧ a.request.addr.line = u := by
  cases ha : c.access with
  | none =>
    simp only [stage, ha] at h
    cases h
  | some a =>
    rw [stage_of_access ha] at h
    cases hp : a.phase <;> simp only [hp, stageOf, reduceCtorEq] at h
    case promote w => exact ⟨a, w, rfl, hp, Stage.taken.inj h⟩
    case fill w => split_ifs at h

/-- **The moves of a cache**, by what comes of its turn. -/
inductive Move (c : Cache g) (bus : Bus) (now : Nat) : Turn g → Prop
  /-- There is no request, or it waits for an answer. -/
  | sleep (hs : c.stage = .idle ∨ ∃ f a, c.stage = .awaits f a) : Move c bus now (c.sleep bus)
  /-- The request is worked on, and may have been turned away from the bus. -/
  | think {c' : Cache g} {bus' : Bus} (hb : bus' = bus ∨ bus' = bus.reject)
      (hs : c.stage = .works) (hs' : c'.stage = .works) (hc : c'.copy = c.copy) :
      Move c bus now (c'.goOn bus')
  /-- The line is taken away from the other caches. -/
  | take {c' : Cache g} {r : Request} (hg : bus.grants .core) (hs : c.stage = .works)
      (hs' : c'.stage = .taken r.addr.line) (hr : r.isWrite) (hd : (c.copy r.addr).1.hasData)
      (hc : c'.copy = c.copy) :
      Move c bus now (c'.goOn (bus.drive ⟨c.id, .cache c.id, r.addr.line, .invalidate, none⟩))
  /-- A dirty line is written back. -/
  | evict {c' : Cache g} {u : Addr} (hg : bus.grants .core) (hs : c.stage = .works)
      (hs' : c'.stage = .awaits .write u.line) (hd : (c.copy u).1.isDirty) (hc : c'.copy = c.copy) :
      Move c bus now
        (c'.sleep (bus.drive ⟨c.id, .cache c.id, u.line, .write, some (c.copy u).2⟩))
  /-- A way is kept for the line, but the bus was not granted. -/
  | ask {c' : Cache g} {r : Addr} (hs : c.stage = .works ∨ ∃ u, c.stage = .leaves u)
      (hs' : c'.stage = .works) (hc : Gives c.stage c.copy c'.copy r) :
      Move c bus now (c'.goOn bus.reject)
  /-- A way is kept for the line, and the line is asked for. -/
  | fetch {c' : Cache g} {r : Addr} (hg : bus.grants .core)
      (hs : c.stage = .works ∨ ∃ u, c.stage = .leaves u) (hs' : c'.stage = .awaits .read r.line)
      (hc : Gives c.stage c.copy c'.copy r) :
      Move c bus now (c'.sleep (bus.drive ⟨c.id, .cache c.id, r.line, .read, none⟩))
  /-- The request ends: the line is there, and nobody else has it if it is written. A line that was
  taken is written. -/
  | finish {c' : Cache g} {r : Request} {hit : Bool}
      (hs : c.stage = .works ∨ c.stage = .taken r.addr.line) (hs' : c'.stage = .idle)
      (hd : (c.copy r.addr).1.hasData)
      (hw : r.isWrite → (c.copy r.addr).1.isSole ∨ c.stage = .taken r.addr.line)
      (ht : c.stage = .taken r.addr.line → r.isWrite)
      (hc : ∀ b, c'.copy b =
        if b.line = r.addr.line then r.effect (c.copy r.addr) else c.copy b) :
      Move c bus now ⟨.park, some ⟨r, r.result (c.copy r.addr).2, hit, now⟩, c', bus⟩

/-! ## The turns of the phases -/

variable {c₀ c : Cache g} (h : c₀.Distinct) (hs : c₀.SameLines c) (bus : Bus) (now : Nat)

include h hs in
theorem copy_of_offers {r : Addr} {w : Fin g.ways}
    (ho : (c.line (g.index r) w).offers (g.tag r)) :
    c₀.copy r = ((c.line (g.index r) w).state, (c.line (g.index r) w).data) := by
  rw [← hs.copy_eq h]
  exact copy_of_carries (hs.distinct h) (carries_of_offers ho)

include h hs in
theorem move_restart (hst : c₀.stage = .works) (a : Access g.ways) :
    Move c₀ bus now ((c.restart a).goOn bus) :=
  have hl : c₀.SameLines (c.restart a) := hs.trans (.of_sets rfl)
  .think (.inl rfl) hst rfl (hl.copy_eq h)

include h hs in
theorem move_upgrade (hid : c.id = c₀.id) (hst : c₀.stage = .works) {a : Access g.ways}
    (w : Fin g.ways) (hr : a.request.isWrite) : Move c₀ bus now (c.upgrade a w bus) := by
  unfold upgrade
  split
  · next ho =>
    have hd : (c₀.copy a.request.addr).1.hasData := by
      rw [copy_of_offers h hs ho]
      exact (offers_iff.mp ho).1
    simp only [Bus.invalidate, Bus.coreRequest, Bus.attempt, hid]
    by_cases hg : bus.grants .core
    · rw [if_pos hg]
      exact .take hg hst rfl hr hd (SameLines.copy_eq (hs.trans (.of_sets rfl)) h)
    · rw [if_neg hg]
      exact .think (.inr rfl) hst rfl (SameLines.copy_eq (hs.trans (.of_sets rfl)) h)
  · exact move_restart h hs bus now hst a

include h hs in
theorem move_complete {a : Access g.ways} {w : Fin g.ways}
    (ho : (c.line (g.index a.request.addr) w).offers (g.tag a.request.addr))
    (hst : c₀.stage = .works ∨ c₀.stage = .taken a.request.addr.line)
    (hw : a.request.isWrite →
      (c₀.copy a.request.addr).1.isSole ∨ c₀.stage = .taken a.request.addr.line)
    (ht : c₀.stage = .taken a.request.addr.line → a.request.isWrite) :
    Move c₀ bus now (c.complete a w bus now) := by
  have hcopy := copy_of_offers h hs ho
  have hcarry := carries_of_offers ho
  set l := (c.line (g.index a.request.addr) w).serve c.maxCounter a.request with hl
  have hres : l.1 = a.request.result (c₀.copy a.request.addr).2 := by
    rw [hl, hcopy]
    cases a.request <;> rfl
  have heff : (l.2.state, l.2.data) = a.request.effect (c₀.copy a.request.addr) := by
    rw [hl, hcopy]
    cases a.request <;> rfl
  have hplace : l.2.carries (g.tag a.request.addr) := by
    obtain ⟨hlive, ht⟩ := carries_iff.mp hcarry
    have htag : l.2.tag = (c.line (g.index a.request.addr) w).tag := by
      rw [hl]
      cases a.request <;> rfl
    have hstate : l.2.isLive := by
      rw [hl]
      revert hlive
      cases a.request with
      | read x => exact fun hlive => hlive
      | write x v => exact fun _ => rfl
    exact carries_iff.mpr ⟨hstate, htag.trans ht⟩
  have hd : (c₀.copy a.request.addr).1.hasData := by
    rw [hcopy]
    exact (offers_iff.mp ho).1
  have hfin : c.complete a w bus now = ⟨.park, some ⟨a.request, l.1, !a.missed, now⟩,
      { (c.setLine (g.index a.request.addr) w l.2).count (·.finish a.request.isWrite a.missed) with
        access := none }, bus⟩ := rfl
  rw [hfin, hres]
  refine .finish hst rfl hd hw ht fun b => ?_
  have hb := copy_setLine_of_tag (hs.distinct h) hcarry hplace b
  rw [heff, hs.copy_eq h] at hb
  exact hb

theorem move_useHit {c : Cache g} (h : c.Distinct) (bus : Bus) (now : Nat)
    (hst : c.stage = .works) (a : Access g.ways) (w : Fin g.ways) :
    Move c bus now (c.useHit a w bus now) := by
  have hs := c.sameLines_setCounter (g.index a.request.addr) w c.maxCounter
  unfold useHit
  dsimp only
  split
  · next ho =>
    split
    · next hr => exact move_upgrade h hs bus now rfl hst w (Bool.and_eq_true_iff.mp hr).1
    · next hr =>
      refine move_complete h hs bus now ?_ (.inl hst) (fun hw => .inl ?_) fun ht => ?_
      · rw [line_setLine_self]
        exact ho
      · rw [copy_of_carries h (carries_of_offers ho)]
        simpa [hw] using hr
      · cases hst.symm.trans ht
  · exact move_restart h (.of_sets rfl) bus now hst a

theorem move_useInstalled {c : Cache g} (h : c.Distinct) (bus : Bus) (now : Nat)
    (hst : c.stage = .works) (a : Access g.ways) (w : Fin g.ways)
    (hw : ¬ (c.line (g.index a.request.addr) w).state.isDirty) :
    Move c bus now (c.useInstalled a w bus now) := by
  have hs : c.SameLines c := .of_sets rfl
  unfold useInstalled
  dsimp only
  split
  · next ho =>
    split
    · next hr => exact move_upgrade h hs bus now rfl hst w (Bool.and_eq_true_iff.mp hr).1
    · next hr =>
      refine move_complete h hs bus now ho (.inl hst) (fun hx => .inl ?_) fun ht => ?_
      · rw [copy_of_carries h (carries_of_offers ho)]
        have hd := (offers_iff.mp ho).1
        cases hl : (c.line (g.index a.request.addr) w).state <;> simp_all [LineState.isSole,
          LineState.isDirty, LineState.hasData]
      · cases hst.symm.trans ht
  · exact move_restart h hs bus now hst a

theorem move_lookUp {c : Cache g} (h : c.Distinct) (bus : Bus) (now : Nat) (hst : c.stage = .works)
    (a : Access g.ways) : Move c bus now (c.lookUp a bus) := by
  obtain ⟨hit, p, he, hp⟩ := lookUp_cases h a bus
  have hs : c.SameLines ((c.age (g.index a.request.addr) hit).enter a p) := c.sameLines_age _ hit
  rw [he]
  refine .think (.inl rfl) hst ?_ (hs.copy_eq h)
  obtain ⟨w, rfl, -⟩ | ⟨w, rfl, -⟩ := hp <;> rfl

theorem gives_marked {c : Cache g} {r : Addr} {w : Fin g.ways} (h : c.Fillable r w)
    (hl : ¬ (c.copy r).1.hasData)
    (hv : (c.line (g.index r) w).state.isDirty →
      c.stage = .leaves (g.addrAt (g.index r) (c.line (g.index r) w).tag)) :
    Gives c.stage c.copy (c.marked r w).copy r := by
  refine ⟨fun b hb => ?_, fun b hb => ?_, fun b hb => ?_⟩
  · rw [c.copy_congr hb]
    exact hl
  · have hm := c.awaits_marked r w
    rw [copy_congr _ hb, copy_of_carries h.distinct_marked (carries_of_awaits hm)]
    exact (awaits_iff.mp hm).1
  · have hd := h.distinct_marked
    unfold marked at hd ⊢
    split_ifs at hd ⊢ with hw
    · exact .inl rfl
    · rw [copy_setLine h.distinct hd]
      split_ifs with hn ho
      · obtain ⟨hi, hn⟩ := hn
        exact absurd (Geometry.line_eq_line_iff.mpr ⟨hi, (carries_iff.mp hn).2.symm⟩) hb
      · obtain ⟨hi, ho⟩ := ho
        refine .inr ⟨rfl, fun hx => ?_⟩
        rw [← hi] at ho hv
        rw [copy_of_carries h.distinct ho] at hx
        rw [hv hx, (carries_iff.mp ho).2, Geometry.addrAt_place]
      · exact .inl rfl

theorem move_fill {c : Cache g} {a : Access g.ways} {w : Fin g.ways} (bus : Bus) (now : Nat)
    (h : c.Fillable a.request.addr w) (hl : ¬ (c.copy a.request.addr).1.hasData)
    (hst : c.stage = .works ∨ ∃ u, c.stage = .leaves u)
    (hv : (c.line (g.index a.request.addr) w).state.isDirty → c.stage =
      .leaves (g.addrAt (g.index a.request.addr) (c.line (g.index a.request.addr) w).tag)) :
    Move c bus now (c.fill a w bus) := by
  have hg : ∀ c', (c.marked a.request.addr w).SameLines c' →
      Gives c.stage c.copy c'.copy a.request.addr := fun c' hs => by
    rw [hs.copy_eq h.distinct_marked]
    exact gives_marked h hl hv
  obtain ⟨a', f, hr, ⟨hb, he⟩ | ⟨-, he⟩⟩ := c.fill_cases a w bus
  · rw [he]
    refine .fetch hb hst ?_ (hg _ (.of_sets rfl))
    rw [← hr]
    rfl
  · rw [he]
    refine .ask hst ?_ (hg _ (.of_sets rfl))
    rw [stage_of_access rfl]
    simp only [stageOf, hr]
    rw [if_neg]
    have hm := awaits_iff.mp (c.awaits_marked a.request.addr w)
    exact fun hx => absurd (hm.1 ▸ hx) (by decide)

theorem lacks_of_absent {c : Cache g} {a : Addr} (h : c.Absent a) : ¬ (c.copy a).1.hasData := by
  rw [copy_of_absent h]
  decide

theorem move_writeBack {c : Cache g} (h : c.Steady) {a : Access g.ways} {w : Fin g.ways} {u : Addr}
    (bus : Bus) (now : Nat) (hst : c.stage = .works) (ha : c.Absent a.request.addr)
    (hu : (c.line (g.index a.request.addr) w).state.isDirty →
      g.addrAt (g.index a.request.addr) (c.line (g.index a.request.addr) w).tag = u) :
    Move c bus now (c.writeBack a w u bus) := by
  unfold writeBack
  dsimp only
  split
  · next hd =>
    obtain ⟨hd, ht⟩ := hd
    have hlive : (c.line (g.index a.request.addr) w).isLive := by
      rw [isLive_iff]
      intro e
      rw [e] at hd
      exact Bool.noConfusion hd
    have hb := h.bounded _ w hlive
    have hc : c.copy u = ((c.line (g.index a.request.addr) w).state,
        (c.line (g.index a.request.addr) w).data) :=
      (copy_of_mem_resident h.distinct h.bounded (mem_resident.mpr ⟨_, w, rfl, hlive, ht⟩)).1
    have hdirty : (c.copy u).1.isDirty := by
      rw [hc]
      exact hd
    have hdata : (c.line (g.index a.request.addr) w).data = (c.copy u).2 := by rw [hc]
    simp only [Bus.write, Bus.coreRequest, Bus.attempt, hdata]
    by_cases hg : bus.grants .core
    · rw [if_pos hg]
      exact .evict hg hst rfl hdirty (SameLines.copy_eq (.of_sets rfl) h.distinct)
    · rw [if_neg hg]
      exact .think (.inr rfl) hst rfl (SameLines.copy_eq (.of_sets rfl) h.distinct)
  · next hd =>
    exact move_fill bus now (h.fillable (ha.onlyAt w)) (lacks_of_absent ha) (.inl hst) fun hx =>
      absurd ⟨hx, hu hx⟩ hd

theorem move_makeRoom {c : Cache g} (h : c.Steady) {a : Access g.ways} {w : Fin g.ways} (bus : Bus)
    (now : Nat) (hst : c.stage = .works) (ha : c.Absent a.request.addr) :
    Move c bus now (c.makeRoom a w bus) := by
  unfold makeRoom
  dsimp only
  split
  · exact move_writeBack (a := { a with missed := true }) h bus now hst ha fun _ => rfl
  · next hd =>
    exact move_fill (a := { a with missed := true }) bus now (h.fillable (ha.onlyAt w))
      (lacks_of_absent ha) (.inl hst) fun hx => absurd hx hd

/-- **Every turn of the execute side is a move**, provided that the line is still there once it has
been taken away from the others. -/
theorem move_tick {c : Cache g} (h : c.Tidy) (bus : Bus) (now : Nat)
    (ht : ∀ r, c.stage = .taken r.line → (c.copy r).1.hasData) :
    Move c bus now (c.tick bus now) := by
  unfold tick
  cases ha : c.access with
  | none => exact .sleep (.inl (by simp only [stage, ha]))
  | some a =>
    have hf := h.fits a ha
    have hst := stage_of_access ha
    have hs : (∀ w, a.phase ≠ .fill w ∧ a.phase ≠ .awaitFill w) → c.Steady := fun hp =>
      h.steady fun b w hb => by
        rw [ha] at hb
        cases hb
        exact hp w
    unfold Fits at hf
    dsimp only
    cases hp : a.phase <;> simp only [hp] at hf hs hst ⊢
    case lookup => exact move_lookUp h.distinct bus now hst a
    case hit w => exact move_useHit h.distinct bus now hst a w
    case miss w => exact move_makeRoom (hs (by simp)) bus now hst hf
    case upgrade w => exact move_upgrade h.distinct (.of_sets rfl) bus now rfl hst w hf.2
    case promote w =>
      have hd := ht _ hst
      obtain ⟨hw, hc⟩ := hf.1.2.copy_eq h.distinct fun e => absurd (e ▸ hd) (by decide)
      rw [hc] at hd
      exact move_complete h.distinct (.of_sets rfl) bus now
        (offers_iff.mpr ⟨hd, (carries_iff.mp hw).2⟩) (.inr hst) (fun _ => .inr hst) fun _ => hf.2
    case writeBack w u => exact move_writeBack (hs (by simp)) bus now hst hf.1 hf.2
    case fill w =>
      refine move_fill bus now ⟨h.distinct, h.bounded, hf.1, fun i v hr => ?_⟩ (fun hd => ?_) ?_
        fun hd => ?_
      · obtain ⟨b, hb, hq, hi, -⟩ := h.requested i v hr
        rw [ha] at hb
        cases hb
        rw [hp] at hq
        simp only [Phase.fill.injEq, reduceCtorEq, or_false] at hq
        exact ⟨hi, hq⟩
      · obtain ⟨hw, hc⟩ := hf.1.copy_eq h.distinct fun e => absurd (e ▸ hd) (by decide)
        rw [hc] at hd
        exact hf.2 hd (carries_iff.mp hw).2
      · rw [hst]
        simp only [stageOf]
        split
        · exact .inr ⟨_, rfl⟩
        · exact .inl rfl
      · rw [hst]
        simp only [stageOf, if_pos hd]
    case installed w => exact move_useInstalled h.distinct bus now hst a w hf.2
    case awaitWriteBack w u => exact .sleep (.inr ⟨_, _, hst⟩)
    case awaitFill w => exact .sleep (.inr ⟨_, _, hst⟩)

theorem dirty_of_leaves {c : Cache g} (h : c.Tidy) {u : Addr} (hs : c.stage = .leaves u) :
    (c.copy u).1.isDirty ∧ u.line = u := by
  cases ha : c.access with
  | none =>
    simp only [stage, ha] at hs
    cases hs
  | some a =>
    rw [stage_of_access ha] at hs
    cases hp : a.phase <;> simp only [hp, stageOf, reduceCtorEq] at hs
    next w =>
    split_ifs at hs with hd
    · obtain rfl := Stage.leaves.inj hs
      have hl : (c.line (g.index a.request.addr) w).isLive := by
        rw [isLive_iff]
        exact fun e => absurd (e ▸ hd) (by decide)
      obtain ⟨hc, hu⟩ := copy_of_mem_resident h.distinct h.bounded
        (mem_resident.mpr ⟨_, w, rfl, hl, rfl⟩)
      rw [hc]
      exact ⟨hd, hu⟩

theorem stage_submit {c c' : Cache g} {r : Request} (h : c.Distinct) (hs : c.submit r = .ok c') :
    c.stage = .idle ∧ c'.stage = .works ∧ c'.copy = c.copy := by
  unfold submit at hs
  split at hs
  · next hi =>
    cases hs
    refine ⟨?_, rfl, SameLines.copy_eq (.of_sets rfl) h⟩
    simp only [stage, Option.isNone_iff_eq_none.mp hi]
  · cases hs

/-! ## The number of a cache -/

theorem id_submit {c c' : Cache g} {r : Request} (h : c.submit r = .ok c') : c'.id = c.id := by
  unfold submit at h
  split at h
  · cases h
    rfl
  · cases h

theorem id_upgrade (c : Cache g) (a : Access g.ways) (w : Fin g.ways) (bus : Bus) :
    (c.upgrade a w bus).cache.id = c.id := by
  unfold upgrade
  dsimp only
  split_ifs <;> rfl

theorem id_fill (c : Cache g) (a : Access g.ways) (w : Fin g.ways) (bus : Bus) :
    (c.fill a w bus).cache.id = c.id := by
  have hm : (c.marked a.request.addr w).id = c.id := by
    unfold marked
    split_ifs <;> rfl
  obtain ⟨a', f, -, ⟨-, he⟩ | ⟨-, he⟩⟩ := c.fill_cases a w bus
  · rw [he]
    exact hm
  · rw [he]
    exact hm

theorem id_writeBack (c : Cache g) (a : Access g.ways) (w : Fin g.ways) (u : Addr) (bus : Bus) :
    (c.writeBack a w u bus).cache.id = c.id := by
  unfold writeBack
  dsimp only
  split_ifs
  · rfl
  · rfl
  · exact c.id_fill a w bus

theorem id_tick (c : Cache g) (bus : Bus) (now : Nat) : (c.tick bus now).cache.id = c.id := by
  unfold tick
  split
  · rfl
  · next a _ =>
    split
    · rfl
    · unfold useHit
      dsimp only
      split_ifs
      · exact id_upgrade _ a _ bus
      · rfl
      · rfl
    · unfold makeRoom
      dsimp only
      split_ifs
      · exact c.id_writeBack _ _ _ bus
      · exact c.id_fill _ _ bus
    · exact c.id_upgrade a _ bus
    · rfl
    · exact c.id_writeBack a _ _ bus
    · exact c.id_fill a _ bus
    · unfold useInstalled
      dsimp only
      split_ifs
      · exact c.id_upgrade a _ bus
      · rfl
      · rfl
    · rfl
    · rfl

end Cache

end Snooping
