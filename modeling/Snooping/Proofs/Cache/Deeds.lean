import Snooping.Proofs.Cache.Moves

/-!
# What a turn of a cache does

Every kind of turn of the execute side, with the cache and the bus that it leaves behind. Unlike the
moves, which say what the other caches can tell, the deeds say what becomes of the phase and of the
counts.

* `Bus.Asked`: what becomes of the bus when a core asks for it at most once.
* `Phase.waits`, `Stage.sleeps`: a request that has no turn until its answer comes.
* **`Cache.Deed`**: what a turn does, and **`Cache.deed_tick`**: every turn is one of them.
* **`Cache.Deed.outcome`**: a turn goes on, waits for an answer, or ends its request.
-/

namespace Snooping

/-- **What becomes of the bus** when a core asks for it at most once. -/
inductive Bus.Asked (b : Bus) : Bus → Prop
  | free : Asked b b
  | refused (hg : ¬ b.grants .core) : Asked b b.reject
  | granted {t : Transfer} (hg : b.grants .core) (ht : t.func.isRequest) : Asked b (b.drive t)

/-- The request has no turn until its answer comes. -/
def Phase.waits {ways : Nat} : Phase ways → Bool
  | awaitWriteBack _ _ | awaitFill _ => true
  | lookup | hit _ | miss _ | upgrade _ | promote _ | writeBack _ _ | fill _ | installed _ => false

/-- The lookup found no line. -/
def Phase.isMiss {ways : Nat} : Phase ways → Bool
  | miss _ => true
  | lookup | hit _ | upgrade _ | promote _ | writeBack _ _ | awaitWriteBack _ _ | fill _
  | awaitFill _ | installed _ => false

/-- The cache has no turn until somebody wakes it. -/
def Stage.sleeps : Stage → Bool
  | idle | awaits _ _ => true
  | works | taken _ | leaves _ => false

namespace Cache

variable {g : Geometry}

theorem stage_eq_idle {c : Cache g} : c.stage = .idle ↔ c.access = none := by
  constructor
  · intro h
    cases ha : c.access with
    | none => rfl
    | some a =>
      rw [stage_of_access ha] at h
      cases hp : a.phase <;> simp only [hp, stageOf, reduceCtorEq] at h
      split_ifs at h
  · intro h
    simp only [stage, h]

theorem sleeps_of_access {c : Cache g} {a : Access g.ways} (h : c.access = some a) :
    c.stage.sleeps = a.phase.waits := by
  rw [stage_of_access h]
  cases a.phase <;> simp only [stageOf, Phase.waits, Stage.sleeps]
  split_ifs <;> rfl

/-- The same lines, and the same counts. -/
structure Keeps (c c' : Cache g) : Prop where
  id : c'.id = c.id
  stats : c'.stats = c.stats
  maxCounter : c'.maxCounter = c.maxCounter
  lines : c.SameLines c'

theorem Keeps.refl (c : Cache g) : c.Keeps c := ⟨rfl, rfl, rfl, .of_sets rfl⟩

/-- **What a turn does.** Here `w` is the way of the line of the request. -/
inductive Deed (c : Cache g) (bus : Bus) (now : Nat) : Turn g → Prop
  /-- There is no request, or it waits for its answer. -/
  | sleep (hs : c.stage.sleeps = true) : Deed c bus now (c.sleep bus)
  /-- The line is looked up, and found or given a way. -/
  | look {a : Access g.ways} {hit : Option (Fin g.ways)} {w : Fin g.ways} {p : Phase g.ways}
      (ha : c.access = some a) (hp : a.phase = .lookup)
      (hw : (p = .hit w ∧ (c.line (g.index a.request.addr) w).carries (g.tag a.request.addr)) ∨
        p = .miss w) :
      Deed c bus now (((c.age (g.index a.request.addr) hit).enter a p).goOn bus)
  /-- The line is gone. -/
  | restart {a : Access g.ways} {w : Fin g.ways} (ha : c.access = some a)
      (hp : a.phase = .hit w ∨ a.phase = .upgrade w ∨ a.phase = .installed w)
      (ho : ¬ (c.line (g.index a.request.addr) w).offers (g.tag a.request.addr)) :
      Deed c bus now ((c.restart a).goOn bus)
  /-- The line is taken away from the other caches. -/
  | take {c₁ : Cache g} {a : Access g.ways} {w : Fin g.ways} (ha : c.access = some a)
      (hp : a.phase = .hit w ∨ a.phase = .upgrade w ∨ a.phase = .installed w)
      (ho : (c.line (g.index a.request.addr) w).offers (g.tag a.request.addr)) (hk : c.Keeps c₁)
      (hg : bus.grants .core) :
      Deed c bus now (((c₁.enter a (.promote w)).count fun s => { s with
        invalidationsSent := s.invalidationsSent + 1
        busAcquisitions := s.busAcquisitions + 1 }).goOn
          (bus.drive ⟨c.id, .cache c.id, a.request.addr.line, .invalidate, none⟩))
  /-- The line is to be taken away, but the bus was not granted. -/
  | yield {c₁ : Cache g} {a : Access g.ways} {w : Fin g.ways} (ha : c.access = some a)
      (hp : a.phase = .hit w ∨ a.phase = .upgrade w ∨ a.phase = .installed w)
      (ho : (c.line (g.index a.request.addr) w).offers (g.tag a.request.addr)) (hk : c.Keeps c₁)
      (hg : ¬ bus.grants .core) :
      Deed c bus now ((c₁.enter a (.upgrade w)).turnedAway.goOn bus.reject)
  /-- The request ends. -/
  | serve {c₁ : Cache g} {a : Access g.ways} {w : Fin g.ways} (ha : c.access = some a)
      (hp : a.phase = .hit w ∨ a.phase = .installed w ∨ a.phase = .promote w) (hk : c.Keeps c₁) :
      Deed c bus now (c₁.complete a w bus now)
  /-- A way is kept for the line, and the line is asked for. -/
  | fetch {a a' : Access g.ways} {w : Fin g.ways} (ha : c.access = some a)
      (hp : a.phase = .miss w ∨ (∃ u, a.phase = .writeBack w u) ∨ a.phase = .fill w)
      (hv : a.phase = .miss w → ¬ (c.line (g.index a.request.addr) w).state.isDirty)
      (hu : ∀ u, a.phase = .writeBack w u → (c.line (g.index a.request.addr) w).state.isDirty →
        g.addrAt (g.index a.request.addr) (c.line (g.index a.request.addr) w).tag ≠ u)
      (hr : a'.request = a.request) (hg : bus.grants .core)
      (hm : a'.missed = (a.missed || a.phase.isMiss)) :
      Deed c bus now ((((c.marked a.request.addr w).enter a' (.awaitFill w)).count fun s => { s with
        busAcquisitions := s.busAcquisitions + 1 }).sleep
          (bus.drive ⟨c.id, .cache c.id, a.request.addr.line, .read, none⟩))
  /-- A way is kept for the line, but the bus was not granted. -/
  | ask {a a' : Access g.ways} {w : Fin g.ways} (ha : c.access = some a)
      (hp : a.phase = .miss w ∨ (∃ u, a.phase = .writeBack w u) ∨ a.phase = .fill w)
      (hv : a.phase = .miss w → ¬ (c.line (g.index a.request.addr) w).state.isDirty)
      (hu : ∀ u, a.phase = .writeBack w u → (c.line (g.index a.request.addr) w).state.isDirty →
        g.addrAt (g.index a.request.addr) (c.line (g.index a.request.addr) w).tag ≠ u)
      (hr : a'.request = a.request) (hg : ¬ bus.grants .core)
      (hm : a'.missed = (a.missed || a.phase.isMiss)) :
      Deed c bus now
        (((c.marked a.request.addr w).enter a' (.fill w)).turnedAway.goOn bus.reject)
  /-- The line in the way is written back. -/
  | evict {a a' : Access g.ways} {w : Fin g.ways} {u : Addr} (ha : c.access = some a)
      (hp : a.phase = .miss w ∨ a.phase = .writeBack w u)
      (hd : (c.line (g.index a.request.addr) w).state.isDirty) (hr : a'.request = a.request)
      (hg : bus.grants .core) (hm : a'.missed = (a.missed || a.phase.isMiss)) :
      Deed c bus now (((c.enter a' (.awaitWriteBack w u)).count fun s => { s with
        writeBacks := s.writeBacks + 1
        busAcquisitions := s.busAcquisitions + 1 }).sleep
          (bus.drive ⟨c.id, .cache c.id, u.line, .write,
            some (c.line (g.index a.request.addr) w).data⟩))
  /-- The line in the way is to be written back, but the bus was not granted. -/
  | hold {a a' : Access g.ways} {w : Fin g.ways} {u : Addr} (ha : c.access = some a)
      (hp : a.phase = .miss w ∨ a.phase = .writeBack w u) (hr : a'.request = a.request)
      (hg : ¬ bus.grants .core) (hm : a'.missed = (a.missed || a.phase.isMiss)) :
      Deed c bus now ((c.enter a' (.writeBack w u)).turnedAway.goOn bus.reject)

/-! ## The turns of the phases -/

variable {c : Cache g} {a : Access g.ways} {w : Fin g.ways} (bus : Bus) (now : Nat)

theorem deed_upgrade {c₁ : Cache g} (ha : c.access = some a)
    (hp : a.phase = .hit w ∨ a.phase = .upgrade w ∨ a.phase = .installed w)
    (hr : (c₁.line (g.index a.request.addr) w).offers (g.tag a.request.addr) →
      (c.line (g.index a.request.addr) w).offers (g.tag a.request.addr))
    (hn : ¬ (c₁.line (g.index a.request.addr) w).offers (g.tag a.request.addr) →
      c₁ = c ∧ ¬ (c.line (g.index a.request.addr) w).offers (g.tag a.request.addr))
    (hk : c.Keeps c₁) : c.Deed bus now (c₁.upgrade a w bus) := by
  unfold upgrade
  split
  · next ho =>
    simp only [Bus.invalidate, Bus.coreRequest, Bus.attempt, hk.id]
    by_cases hg : bus.grants .core
    · simp only [if_pos hg, if_true]
      exact .take ha hp (hr ho) hk hg
    · simp only [if_neg hg, Bool.false_eq_true, if_false]
      exact .yield ha hp (hr ho) hk hg
  · next ho =>
    obtain ⟨rfl, ho⟩ := hn ho
    exact .restart ha hp ho

theorem deed_fill {b : Access g.ways} (ha : c.access = some a) (hr : b.request = a.request)
    (hp : a.phase = .miss w ∨ (∃ u, a.phase = .writeBack w u) ∨ a.phase = .fill w)
    (hv : a.phase = .miss w → ¬ (c.line (g.index a.request.addr) w).state.isDirty)
    (hu : ∀ u, a.phase = .writeBack w u → (c.line (g.index a.request.addr) w).state.isDirty →
      g.addrAt (g.index a.request.addr) (c.line (g.index a.request.addr) w).tag ≠ u)
    (hb : b.missed = (a.missed || a.phase.isMiss)) : c.Deed bus now (c.fill b w bus) := by
  have hfill : ∃ a', a'.request = a.request ∧ a'.missed = b.missed ∧ c.fill b w bus =
      if (bus.read c.id a.request.addr).1 then
        (((c.marked a.request.addr w).enter a' (.awaitFill w)).count fun s => { s with
          busAcquisitions := s.busAcquisitions + 1 }).sleep (bus.read c.id a.request.addr).2
      else ((c.marked a.request.addr w).enter a' (.fill w)).turnedAway.goOn
        (bus.read c.id a.request.addr).2 := by
    by_cases hm : (c.line (g.index a.request.addr) w).awaits (g.tag a.request.addr)
    · exact ⟨b, hr, rfl, by simp only [fill, marked, hr, if_pos hm]⟩
    · refine ⟨{ b with contended := false }, hr, rfl, ?_⟩
      simp only [fill, marked, hr, if_neg hm]
      rfl
  obtain ⟨a', hr', hm, he⟩ := hfill
  rw [he]
  simp only [Bus.read, Bus.coreRequest, Bus.attempt]
  by_cases hg : bus.grants .core
  · simp only [if_pos hg, if_true]
    exact .fetch ha hp hv hu hr' hg (hm.trans hb)
  · simp only [if_neg hg, Bool.false_eq_true, if_false]
    exact .ask ha hp hv hu hr' hg (hm.trans hb)

theorem deed_writeBack {b : Access g.ways} {u : Addr} (ha : c.access = some a)
    (hr : b.request = a.request) (hp : a.phase = .miss w ∨ a.phase = .writeBack w u)
    (hu : a.phase = .miss w → (c.line (g.index a.request.addr) w).state.isDirty ∧
      g.addrAt (g.index a.request.addr) (c.line (g.index a.request.addr) w).tag = u)
    (hb : b.missed = (a.missed || a.phase.isMiss)) :
    c.Deed bus now (c.writeBack b w u bus) := by
  unfold writeBack
  simp only [hr]
  split
  · next hd =>
    simp only [Bus.write, Bus.coreRequest, Bus.attempt]
    by_cases hg : bus.grants .core
    · simp only [if_pos hg, if_true]
      exact .evict ha hp hd.1 hr hg hb
    · simp only [if_neg hg, Bool.false_eq_true, if_false]
      exact .hold ha hp hr hg hb
  · next hd =>
    obtain hm | hp := hp
    · exact absurd (hu hm) hd
    · refine deed_fill bus now ha hr (.inr (.inl ⟨u, hp⟩)) (fun hm => ?_) (fun v hv hx he => ?_) hb
      · cases hp.symm.trans hm
      · cases hp.symm.trans hv
        exact hd ⟨hx, he⟩

theorem deed_useHit (ha : c.access = some a) (hp : a.phase = .hit w) :
    c.Deed bus now (c.useHit a w bus now) := by
  have hk : c.Keeps (c.setLine (g.index a.request.addr) w
      { c.line (g.index a.request.addr) w with counter := c.maxCounter }) :=
    ⟨rfl, rfl, rfl, c.sameLines_setCounter _ w _⟩
  unfold useHit
  dsimp only
  split
  · next ho =>
    split
    · refine deed_upgrade bus now ha (.inl hp) (fun _ => ho) (fun hn => ?_) hk
      rw [line_setLine_self] at hn
      exact absurd ho hn
    · exact .serve ha (.inl hp) hk
  · next ho => exact .restart ha (.inl hp) ho

theorem deed_useInstalled (ha : c.access = some a) (hp : a.phase = .installed w) :
    c.Deed bus now (c.useInstalled a w bus now) := by
  unfold useInstalled
  dsimp only
  split
  · split
    · exact deed_upgrade bus now ha (.inr (.inr hp)) (fun ho => ho) (fun ho => ⟨rfl, ho⟩) (.refl c)
    · exact .serve ha (.inr (.inl hp)) (.refl c)
  · next ho => exact .restart ha (.inr (.inr hp)) ho

theorem deed_makeRoom (ha : c.access = some a) (hp : a.phase = .miss w) :
    c.Deed bus now (c.makeRoom a w bus) := by
  have hm : true = (a.missed || a.phase.isMiss) := by
    rw [hp]
    exact (Bool.or_true _).symm
  unfold makeRoom
  dsimp only
  split
  · next hd => exact deed_writeBack bus now ha rfl (.inl hp) (fun _ => ⟨hd, rfl⟩) hm
  · next hd =>
    refine deed_fill bus now ha rfl (.inl hp) (fun _ => hd) (fun u hu => ?_) hm
    cases hp.symm.trans hu

theorem deed_lookUp (ha : c.access = some a) (hp : a.phase = .lookup) :
    c.Deed bus now (c.lookUp a bus) := by
  cases hf : c.sets[g.index a.request.addr].find? (g.tag a.request.addr) with
  | none =>
    have he : c.lookUp a bus = ((c.age (g.index a.request.addr) none).enter a
        (.miss (c.sets[g.index a.request.addr].age none |>.victim g.ways_pos))).goOn bus := by
      simp only [lookUp, hf]
      rfl
    rw [he]
    exact .look ha hp (.inr rfl)
  | some w =>
    have hw : (c.line (g.index a.request.addr) w).carries (g.tag a.request.addr) :=
      LineSet.carries_of_find? hf
    have he : c.lookUp a bus =
        ((c.age (g.index a.request.addr) (some w)).enter a (.hit w)).goOn bus := by
      simp only [lookUp, hf]
      rfl
    rw [he]
    exact .look ha hp (.inl ⟨rfl, hw⟩)

/-- **Every turn is one of the deeds.** -/
theorem deed_tick (c : Cache g) (bus : Bus) (now : Nat) : c.Deed bus now (c.tick bus now) := by
  unfold tick
  cases ha : c.access with
  | none => exact .sleep (by rw [stage_eq_idle.mpr ha]; rfl)
  | some a =>
    have hs : a.phase.waits = true → c.Deed bus now (c.sleep bus) := fun hw =>
      .sleep ((sleeps_of_access ha).trans hw)
    have hm : a.phase.isMiss = false → a.missed = (a.missed || a.phase.isMiss) := fun hx => by
      rw [hx, Bool.or_false]
    dsimp only
    cases hp : a.phase <;> simp only [hp] at hs hm ⊢
    case lookup => exact deed_lookUp bus now ha hp
    case hit w => exact deed_useHit bus now ha hp
    case miss w => exact deed_makeRoom bus now ha hp
    case upgrade w =>
      exact deed_upgrade bus now ha (.inr (.inl hp)) (fun ho => ho) (fun ho => ⟨rfl, ho⟩) (.refl c)
    case promote w => exact .serve ha (.inr (.inr hp)) (.refl c)
    case writeBack w u =>
      refine deed_writeBack bus now ha rfl (.inr hp) (fun hx => ?_) (hp ▸ hm rfl)
      cases hp.symm.trans hx
    case fill w =>
      refine deed_fill bus now ha rfl (.inr (.inr hp)) (fun hx => ?_) (fun u hu => ?_) (hp ▸ hm rfl)
      · cases hp.symm.trans hx
      · cases hp.symm.trans hu
    case installed w => exact deed_useInstalled bus now ha hp
    case awaitWriteBack => exact hs rfl
    case awaitFill => exact hs rfl

/-! ## Going on -/

/-- What comes of a turn for those who wait. -/
inductive Outcome (c : Cache g) (bus : Bus) : Turn g → Prop
  /-- The request goes on in the next cycle. -/
  | proceed {c' : Cache g} {bus' : Bus} (hb : bus.Asked bus') (hs : c.stage.sleeps = false)
      (hs' : c'.stage.sleeps = false) : Outcome c bus (c'.goOn bus')
  /-- There is no request, or it waits for its answer. -/
  | await {c' : Cache g} {bus' : Bus} (hb : bus.Asked bus')
      (hs : c'.stage = .idle ↔ c.stage = .idle) (hs' : c'.stage.sleeps = true) :
      Outcome c bus (c'.sleep bus')
  /-- The request has ended. -/
  | finish {c' : Cache g} {r : Completion} (hs : c.stage.sleeps = false) (hs' : c'.stage = .idle) :
      Outcome c bus ⟨.park, some r, c', bus⟩

theorem stage_ne_idle_of_access {c : Cache g} {a : Access g.ways} (h : c.access = some a) :
    c.stage ≠ .idle := fun hs => by
  rw [stage_eq_idle.mp hs] at h
  cases h

/-- **A turn goes on, waits for an answer, or ends its request.** -/
theorem Deed.outcome {bus : Bus} {now : Nat} {x : Turn g} (h : c.Deed bus now x) :
    Outcome c bus x := by
  have hwaits : ∀ {a : Access g.ways} {p : Phase g.ways}, c.access = some a → a.phase = p →
      p.waits = false → c.stage.sleeps = false := fun ha hp hw => by
    rw [sleeps_of_access ha, hp, hw]
  have hthree : ∀ {a : Access g.ways} {p q r : Phase g.ways}, c.access = some a →
      (a.phase = p ∨ a.phase = q ∨ a.phase = r) → p.waits = false → q.waits = false →
      r.waits = false → c.stage.sleeps = false := fun ha hp h₁ h₂ h₃ => by
    obtain hp | hp | hp := hp
    · exact hwaits ha hp h₁
    · exact hwaits ha hp h₂
    · exact hwaits ha hp h₃
  cases h with
  | sleep hs => exact .await .free Iff.rfl hs
  | look ha hp hw =>
    refine .proceed .free (hwaits ha hp rfl) ((sleeps_of_access rfl).trans ?_)
    obtain ⟨rfl, -⟩ | rfl := hw <;> rfl
  | restart ha hp _ =>
    exact .proceed .free (hthree ha hp rfl rfl rfl) ((sleeps_of_access rfl).trans rfl)
  | take ha hp _ _ hg =>
    exact .proceed (.granted hg rfl) (hthree ha hp rfl rfl rfl) ((sleeps_of_access rfl).trans rfl)
  | yield ha hp _ _ hg =>
    exact .proceed (.refused hg) (hthree ha hp rfl rfl rfl) ((sleeps_of_access rfl).trans rfl)
  | serve ha hp _ => exact .finish (hthree ha hp rfl rfl rfl) (stage_eq_idle.mpr rfl)
  | fetch ha _ _ _ _ hg =>
    exact .await (.granted hg rfl) (iff_of_false (stage_ne_idle_of_access rfl)
      (stage_ne_idle_of_access ha)) ((sleeps_of_access rfl).trans rfl)
  | ask ha hp _ _ _ hg =>
    refine .proceed (.refused hg) ?_ ((sleeps_of_access rfl).trans rfl)
    obtain hp | ⟨u, hp⟩ | hp := hp
    · exact hwaits ha hp rfl
    · exact hwaits ha hp rfl
    · exact hwaits ha hp rfl
  | evict ha _ _ _ hg =>
    exact .await (.granted hg rfl) (iff_of_false (stage_ne_idle_of_access rfl)
      (stage_ne_idle_of_access ha)) ((sleeps_of_access rfl).trans rfl)
  | hold ha hp _ hg =>
    refine .proceed (.refused hg) ?_ ((sleeps_of_access rfl).trans rfl)
    obtain hp | hp := hp
    · exact hwaits ha hp rfl
    · exact hwaits ha hp rfl

end Cache

end Snooping
