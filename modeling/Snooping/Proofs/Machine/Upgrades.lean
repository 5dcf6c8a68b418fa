import Snooping.Proofs.Machine.Burst
import Snooping.Proofs.Machine.Order
import Snooping.Proofs.Machine.Punctual

/-!
# Lines that are taken away to be written

A cache that has taken a line away from the others writes it in its next turn without looking at it
again, and a cache whose line has come looks at it once more. Neither can have lost the line: the
turn comes in the very next cycle, before anybody looks at the bus again.

* `Cache.Installed`: a line that has just come is there; `Cache.Deed.not_installed`: it is used at
  once.
* **`Machine.Poised`**: what holds between two steps for the lines that have just come, with
  `Machine.Poised.within` and **`Machine.Round.poised`**.
* `Machine.Running.offers_of_promote`: a line that was taken away is there.
* **`Machine.WritesAlone`**: a write that goes through, and `Machine.Awake.writesAlone`: the turn
  that does it.
* **`Machine.Round.promotes`**: a line that was taken away is written in the next cycle.
* **`Machine.upgrades_complete`**: every line that is taken away is written, in the next cycle.
-/

namespace Snooping

variable {g : Geometry} {n : Nat}

namespace Cache

/-! ## Lines that have just come -/

/-- **A line that has just come is there.** -/
def Installed (c : Cache g) : Prop :=
  ∀ a w, c.access = some a → a.phase = .installed w →
    (c.line (g.index a.request.addr) w).offers (g.tag a.request.addr)

theorem Deed.not_installed {c : Cache g} {bus : Bus} {now : Nat} {x : Turn g}
    (h : c.Deed bus now x) {a : Access g.ways} {w : Fin g.ways} (ha : x.cache.access = some a) :
    a.phase ≠ .installed w := by
  cases h with
  | sleep hs =>
    intro hp
    rw [sleeps_of_access (show c.access = some a from ha), hp] at hs
    cases hs
  | look _ _ hw =>
    cases ha
    obtain ⟨rfl, -⟩ | rfl := hw
    · exact nofun
    · exact nofun
  | restart | take | yield | fetch | ask | evict | hold =>
    cases ha
    exact nofun
  | serve => cases ha

theorem Heeds.installed {c c' : Cache g} (h : c.Heeds c')
    (hc : ∀ a w, c.access = some a → a.phase ≠ .installed w) : c'.Installed := by
  intro a w ha hp
  cases h with
  | ignore => exact absurd hp (hc a w ha)
  | contend =>
    obtain ⟨a', ha', -, hp'⟩ := c.fades_contend.access_eq_some ha
    exact absurd (hp'.symm.trans hp) (hc a' w ha')
  | written _ _ =>
    cases ha
    cases hp
  | install _ _ ho _ =>
    cases ha
    cases hp
    show (line (setLine _ _ _ _) _ _).offers _
    rw [line_setLine_self]
    exact ho
  | restart _ _ _ =>
    cases ha
    cases hp

theorem line_complete (c : Cache g) (a : Access g.ways) (w : Fin g.ways) (bus : Bus) (now : Nat) :
    (c.complete a w bus now).cache.line (g.index a.request.addr) w =
      ((c.line (g.index a.request.addr) w).serve c.maxCounter a.request).2 :=
  c.line_setLine_self _ w _

theorem line_complete_of_ne (c : Cache g) (a : Access g.ways) {w : Fin g.ways} (bus : Bus)
    (now : Nat) {k : Fin g.sets} {u : Fin g.ways} (h : (g.index a.request.addr, w) ≠ (k, u)) :
    (c.complete a w bus now).cache.line k u = c.line k u :=
  c.line_setLine_of_ne _ h

end Cache

namespace Machine

section Turn

variable {k : Nat} {m m' : Machine g n} {p : Agent (Fin n)}

theorem Acts.cache_cases (ha : m.Acts p m') (j : Fin n) :
    (p ≠ .cache j ∧ m'.caches[j] = m.caches[j]) ∨
    (p = .core j ∧ m.caches[j].access = none ∧ ∃ r, m'.caches[j].access = some (.start r)) ∨
    (p = .cache j ∧ m'.caches[j] = (m.caches[j].tick m.bus m.now).cache) := by
  have hcache : ∀ (i : Fin n) {c : Cache g}, (m.caches[i].tick m.bus m.now).cache = c →
      (Agent.cache i ≠ .cache j ∧ (m.caches.put i c)[j] = m.caches[j]) ∨
      (Agent.cache i = .cache j ∧
        (m.caches.put i c)[j] = (m.caches[j].tick m.bus m.now).cache) := fun i c hc => by
    by_cases hj : j = i
    · subst hj
      exact .inr ⟨rfl, by rw [Vector.getElem_put_self, hc]⟩
    · exact .inl ⟨fun e => hj (Agent.cache.inj e).symm, Vector.getElem_put_of_ne _ _ hj⟩
  cases ha with
  | @issue i x rest r hp hr hi =>
    by_cases hj : j = i
    · subst hj
      refine .inr (.inl ⟨rfl, hi, r, ?_⟩)
      show (m.caches.put j { m.caches[j] with access := some (.start r) })[j].access = _
      rw [Vector.getElem_put_self]
    · exact .inl ⟨nofun, Vector.getElem_put_of_ne _ _ hj⟩
  | @proceed i c bus ht => exact (hcache i (congrArg Turn.cache ht)).imp_right .inr
  | @await i c bus ht => exact (hcache i (congrArg Turn.cache ht)).imp_right .inr
  | @finish i c r ht => exact (hcache i (congrArg Turn.cache ht)).imp_right .inr
  | _ => exact .inl ⟨nofun, rfl⟩

theorem Acts.core_eq (ha : m.Acts p m') {j : Fin n} (hp : p ≠ .core j) (hq : p ≠ .cache j) :
    m'.cores[j] = m.cores[j] := by
  have hput : ∀ (i : Fin n) (c : Core), j ≠ i → (m.cores.put i c)[j] = m.cores[j] :=
    fun i c hj => Vector.getElem_put_of_ne _ _ hj
  cases ha with
  | @halt i | @work i | @issue i => exact hput i _ fun hj => hp (by rw [hj])
  | @finish i => exact hput i _ fun hj => hq (by rw [hj])
  | _ => rfl

end Turn

/-! ## Between two steps -/

/-- **What holds between two steps** for the lines that have just come. -/
structure Poised (t : Nat) (m : Machine g n) : Prop extends Ready t m where
  punctual : m.Punctual t
  installed : ∀ i : Fin n, m.caches[i].Installed

/-- What holds within a cycle: a line that has just come is there, and its cache is due. -/
def PoisedNow (m : Machine g n) : Prop :=
  ∀ (i : Fin n) a w, m.caches[i].access = some a → a.phase = .installed w →
    (m.caches[i].line (g.index a.request.addr) w).offers (g.tag a.request.addr) ∧
      (m.now, .cache i) ∈ m.queue.pending

section Poised

variable {m x m' : Machine g n} {t t' : Nat} {l : List (Agent (Fin n))}

theorem Poised.started (h : Poised t m) (ht : m.queue.nextTime = some t') :
    (m.started t').PoisedNow := fun i a w ha hp => by
  refine ⟨h.installed i a w ha hp, ?_⟩
  have ha : m.caches[i].access = some a := ha
  have hawake : m.caches[i].stage.sleeps = false := by
    rw [Cache.sleeps_of_access ha, hp]
    rfl
  have hdue := h.due h.punctual hawake
  obtain rfl := h.next_eq hdue ht
  exact hdue

/-- **A turn uses the line that has just come**, or leaves it alone. -/
theorem PoisedNow.turn {y y' : Machine g n} {p : Agent (Fin n)}
    {q : WakeQueue (Agent (Fin n))} (h : y.PoisedNow) (hq : y.queue.fetch = .ok (some (p, q)))
    (ha : { y with queue := q }.Acts p y') (ht : { y with queue := q }.Took p y') :
    y'.PoisedNow := fun i a w hx hp => by
  have hnow : q.now = y.now := WakeQueue.now_of_fetch hq
  have hnow' : y'.now = y.now := ht.now.trans hnow
  obtain ⟨-, hpending⟩ := WakeQueue.fetch_eq_some hq
  obtain ⟨hne, he⟩ | ⟨-, -, r, hr⟩ | ⟨-, he⟩ := ha.cache_cases i
  · rw [show y'.caches[i] = y.caches[i] from he] at hx ⊢
    obtain ⟨ho, hdue⟩ := h i a w hx hp
    refine ⟨ho, ?_⟩
    rw [hpending, List.mem_cons] at hdue
    rw [hnow']
    exact ht.waits _ (hdue.resolve_left fun e => hne (Prod.mk.inj e).2.symm)
  · cases hr.symm.trans hx
    cases hp
  · have hdeed := y.caches[i].deed_tick y.bus q.now
    rw [he] at hx
    exact absurd hp (hdeed.not_installed hx)

theorem Poised.within (h : Poised t m) (ht : m.queue.nextTime = some t')
    (hl : (m.started t').Within l x) : x.PoisedNow := by
  obtain ⟨k, -, hx, -⟩ := hl.induct (awake_started h.toReady ht) (P := fun _ y => y.PoisedNow)
    (h.started ht) fun _ hy hq _ ha ht => hy.turn hq ha ht
  exact hx

/-- **A cycle ends with lines that have just come, and that are there.** -/
theorem Round.poised (h : m.Round t' l x m') (hm : Poised t m) (ht : m.queue.nextTime = some t')
    (hm' : Ready (t' + 1) m') : Poised (t' + 1) m' := by
  have hle : t ≤ t' + 1 := Nat.le_succ_of_le (hm.le_next ht)
  refine { hm' with
    punctual := h.punctual (awake_started hm.toReady ht) (hm.punctual.mono hle)
    installed := fun i => ?_ }
  -- Whatever had come before this cycle has been used in it.
  have hx := hm.within ht h.within
  have hnone : ∀ a w, x.caches[i].access = some a → a.phase ≠ .installed w := fun a w ha hp =>
    absurd (h.later _ (hx i a w ha hp).2) (Nat.lt_irrefl _)
  obtain ⟨d, -, he, -⟩ := x.caches[i].endures_snoop (x.seenBus i)
  refine (h.aired.heeds i).installed fun a w ha hp => ?_
  obtain ⟨a', ha', -, hp'⟩ := he.fades.access_eq_some ha
  exact hnone a' w ha' (hp'.symm.trans hp)

theorem poised_boot {spec : Spec} (h : spec.validate = .ok g) (programs : Vector Program n) :
    Poised 0 (boot g spec programs) :=
  { ready_boot h programs with
    punctual := punctual_boot spec programs
    installed := fun i a w ha => by
      rw [cache_boot] at ha
      cases ha }

theorem Plays.poised {m₀ : Machine g n} {log : List (Nat × Option Transfer)} (h : m₀.Plays log m)
    {t₀ : Nat} (h₀ : Poised t₀ m₀) : ∃ t, Poised t m := by
  obtain ⟨t, -, hm⟩ := h.induct_ready h₀.toReady (P := fun t _ y => Poised t y) h₀
    fun _ hp ht hr hready => hr.poised hp ht hready
  exact ⟨t, hm⟩

end Poised

/-! ## Lines that were taken away -/

section Promote

variable {k t t' : Nat} {m m' x : Machine g n} {l : List (Agent (Fin n))} {i : Fin n}
  {a : Access g.ways} {w : Fin g.ways}

theorem stage_of_promote (ha : m.caches[i].access = some a) (hp : a.phase = .promote w) :
    m.view.stage i = .taken a.request.addr.line := by
  show m.caches[i].stage = _
  rw [Cache.stage_of_access ha, hp]
  rfl

theorem Running.offers_of_promote (h : Running k m) (ha : m.caches[i].access = some a)
    (hp : a.phase = .promote w) :
    (m.caches[i].line (g.index a.request.addr) w).offers (g.tag a.request.addr) ∧
      a.request.isWrite := by
  have hfits := (h.sound.tidy i).fits a ha
  rw [Cache.Fits, hp] at hfits
  obtain ⟨⟨htag, honly⟩, hwrite⟩ := hfits
  have hdata : (m.caches[i].copy a.request.addr).1.hasData :=
    (h.coherent.exclusive _).taken i (stage_of_promote ha hp)
  have hlive : (m.caches[i].copy a.request.addr).1 ≠ .invalid := fun hx => by
    rw [hx] at hdata
    cases hdata
  obtain ⟨-, hcopy⟩ := honly.copy_eq (h.sound.tidy i).distinct hlive
  rw [hcopy] at hdata
  exact ⟨Cache.offers_iff.mpr ⟨hdata, htag⟩, hwrite⟩

/-- **A write that goes through**: cache `i` has the line of `a` in way `w` and nobody else has data
for it, and the turn ends its request with the line modified, in the written word only. -/
structure WritesAlone (m : Machine g n) (i : Fin n) (a : Addr) (v : Word) (w : Fin g.ways)
    (m' : Machine g n) : Prop where
  there : (m.caches[i].line (g.index a) w).offers (g.tag a)
  alone : ∀ j : Fin n, j ≠ i → ¬ (m.caches[j].lineState a).hasData
  ended : ∃ hit, m'.cores[i] = m.cores[i].receive ⟨.write a v, v, hit, m.now⟩
  idle : m'.caches[i].access = none
  line : m'.caches[i].line (g.index a) w = { m.caches[i].line (g.index a) w with
    counter := m.caches[i].maxCounter
    state := .modified
    data := (m.caches[i].line (g.index a) w).data.put a.word v }
  kept : ∀ k u, (k, u) ≠ (g.index a, w) → m'.caches[i].line k u = m.caches[i].line k u

theorem Acts.complete (h : m.Acts (.cache i) m')
    (ht : m.caches[i].tick m.bus m.now = m.caches[i].complete a w m.bus m.now) :
    m'.caches[i] = (m.caches[i].complete a w m.bus m.now).cache ∧
    ∃ r, (m.caches[i].complete a w m.bus m.now).done = some r ∧
      m'.cores[i] = m.cores[i].receive r := by
  cases h with
  | proceed hx => cases congrArg Turn.done (ht.symm.trans hx)
  | await hx => cases congrArg Turn.done (ht.symm.trans hx)
  | finish hx =>
    rw [← ht, hx]
    exact ⟨Vector.getElem_put_self _ _ _, _, rfl, Vector.getElem_put_self _ _ _⟩

theorem Awake.writesAlone {q : WakeQueue (Agent (Fin n))} (h : Awake k m)
    (hq : m.queue.fetch = .ok (some (.cache i, q)))
    (hr : { m with queue := q }.runAgent (.cache i) = .ok m')
    (ha : m.caches[i].access = some a) (hp : a.phase = .promote w) :
    ∃ b v, a.request = .write b v ∧ m.WritesAlone i b v w m' := by
  obtain ⟨hk, -⟩ := WakeQueue.timed_fetch hq h.timed
  obtain ⟨hoffers, hwrite⟩ := h.offers_of_promote ha hp
  have hnow : q.now = m.now := WakeQueue.now_of_fetch hq
  have hstage := stage_of_promote ha hp
  -- The cache has not driven anything in this cycle, so that everybody has seen its claim.
  have hfresh : ¬ m.view.Fresh i := fun hf => by
    have := h.fresh i hf
    omega
  have hturn : m.caches[i].tick m.bus q.now = m.caches[i].complete a w m.bus q.now := by
    simp only [Cache.tick, ha, hp]
  have hacts := (h.yields_runAgent hq).of_eq_ok hr
  obtain ⟨hcache, r, hdone, hcore⟩ := hacts.complete hturn
  have hcache : m'.caches[i] = (m.caches[i].complete a w m.bus q.now).cache := hcache
  have hcore : m'.cores[i] = m.cores[i].receive r := hcore
  obtain ⟨b, v, hreq⟩ : ∃ b v, a.request = .write b v := by
    cases hreq : a.request with
    | read b =>
      rw [hreq] at hwrite
      cases hwrite
    | write b v => exact ⟨b, v, rfl⟩
  have hline := Cache.line_complete m.caches[i] a w m.bus q.now
  have hkept := fun k u => Cache.line_complete_of_ne m.caches[i] a (w := w) m.bus q.now (k := k)
    (u := u)
  rw [← hcache] at hline hkept
  simp only [hreq, Request.addr] at hoffers hstage hline hkept
  refine ⟨b, v, hreq, hoffers, fun j hj => ?_, ⟨!a.missed, ?_⟩, ?_, hline, fun k u hne =>
    hkept k u (Ne.symm hne)⟩
  · rw [Cache.lineState_eq]
    exact (h.coherent.exclusive b).alone i j (Ne.symm hj) hstage hfresh
  · have hend : (m.caches[i].complete a w m.bus q.now).done =
        some ⟨.write b v, v, !a.missed, m.now⟩ := by
      simp only [Cache.complete, hreq, hnow]
      rfl
    rw [hcore, Option.some.inj (hdone.symm.trans hend)]
  · rw [hcache]
    rfl

theorem Awake.ne_core {p : Agent (Fin n)} {q : WakeQueue (Agent (Fin n))} (h : Awake k m)
    (hq : m.queue.fetch = .ok (some (p, q))) (ha : m.caches[i].access ≠ none) : p ≠ .core i := by
  rintro rfl
  have hx := attended_fetch h.attended h.timed hq
  obtain ⟨hwaiting, -⟩ := not_or.mp (hx.rouses _ rfl)
  exact hwaiting ((hx.paired i).mpr (mt Cache.stage_eq_idle.mp ha))

theorem Within.turn_of_cache (h : m.Within l x) (h₀ : Awake 0 m) (ha : m.caches[i].access ≠ none) :
    (.cache i ∉ l ∧ x.caches[i] = m.caches[i] ∧ x.cores[i] = m.cores[i]) ∨
    (.cache i ∈ l ∧ ∃ l₁ y q y', m.Within l₁ y ∧ y.queue.fetch = .ok (some (.cache i, q)) ∧
      { y with queue := q }.runAgent (.cache i) = .ok y' ∧ y.caches[i] = m.caches[i] ∧
      y.cores[i] = m.cores[i] ∧ x.cores[i] = y'.cores[i]) := by
  induction h with
  | start => exact .inl ⟨List.not_mem_nil, rfl, rfl⟩
  | @turn l y y' p q hy hq hr ih =>
    obtain ⟨k, hawake, -⟩ := hy.awake h₀
    have hacts := (hawake.yields_runAgent hq).of_eq_ok hr
    obtain ⟨hl, hcache, hcore⟩ | ⟨hl, hbefore⟩ := ih
    · by_cases hp : p = .cache i
      · subst hp
        exact .inr ⟨List.mem_append_right _ (List.mem_singleton_self _), l, y, q, y', hy, hq, hr,
          hcache, hcore, rfl⟩
      · have hne : p ≠ .core i := hawake.ne_core hq (hcache ▸ ha)
        refine .inl ⟨fun hx => ?_, ?_, (hacts.core_eq hne hp).trans hcore⟩
        · obtain hx | hx := List.mem_append.mp hx
          · exact hl hx
          · exact hp (List.mem_singleton.mp hx).symm
        · obtain ⟨-, he⟩ | ⟨he, -⟩ | ⟨he, -⟩ := hacts.cache_cases i
          · exact he.trans hcache
          · exact absurd he hne
          · exact absurd he hp
    · -- The turns after that of the cache are those of other caches.
      obtain ⟨-, -, hsorted⟩ := (hy.turn hq hr).awake h₀
      have hlt := Agent.slot_lt_of_compare ((List.pairwise_append.mp hsorted).2.2 _ hl p
        (List.mem_singleton_self p))
      obtain ⟨l₁, z, q', z', hz, hfetch, hrun, hcache, hcore, he⟩ := hbefore
      refine .inr ⟨List.mem_append_left _ hl, l₁, z, q', z', hz, hfetch, hrun, hcache, hcore, ?_⟩
      refine (hacts.core_eq (fun hp => ?_) fun hp => ?_).trans he
      · rw [hp] at hlt
        simp only [Agent.slot] at hlt
        omega
      · rw [hp] at hlt
        exact absurd hlt (Nat.lt_irrefl _)

/-- **A line that was taken away is written in the very next cycle.** -/
theorem Round.promotes (h : m.Round t' l x m') (hm : Ready t m) (ht : m.queue.nextTime = some t')
    (ha : m.caches[i].access = some a) (hp : a.phase = .promote w) :
    t' = t ∧ ∃ b v hit l₁ y q y', a.request = .write b v ∧ (m.started t').Within l₁ y ∧
      y.queue.fetch = .ok (some (.cache i, q)) ∧
      { y with queue := q }.runAgent (.cache i) = .ok y' ∧ y.caches[i] = m.caches[i] ∧
      y.WritesAlone i b v w y' ∧
      m'.cores[i].completed = m.cores[i].completed.push ⟨.write b v, v, hit, t'⟩ := by
  have hdue := hm.takes i _ (stage_of_promote ha hp)
  obtain rfl := hm.next_eq hdue ht
  have h₀ := awake_started hm ht
  have hsome : (m.started t').caches[i].access ≠ none := fun hx => by cases ha.symm.trans hx
  have hnow : x.now = t' := h.within.now_eq h₀
  refine ⟨rfl, ?_⟩
  obtain ⟨hl, -⟩ | ⟨-, l₁, y, q, y', hy, hfetch, hrun, hcache, hcore, he⟩ :=
    h.within.turn_of_cache h₀ hsome
  · obtain hmem | hmem := h.within.mem_of_due h₀ hdue
    · exact absurd hmem hl
    · have hlt : x.now < t' := h.later _ hmem
      omega
  · obtain ⟨k, hawake, -⟩ := hy.awake h₀
    have hnow : y.now = t' := hy.now_eq h₀
    have hcache : y.caches[i] = m.caches[i] := hcache
    obtain ⟨b, v, hreq, hwrites⟩ := hawake.writesAlone hfetch hrun (hcache ▸ ha) hp
    obtain ⟨hit, hended⟩ := hwrites.ended
    refine ⟨b, v, hit, l₁, y, q, y', hreq, hy, hfetch, hrun, hcache, hwrites, ?_⟩
    rw [h.aired.cores, he, hended, hcore, hnow]
    rfl

theorem Round.promote_of_invalidate {u : Transfer} (h : m.Round t' l x m')
    (h₀ : Awake 0 (m.started t')) (hu : m'.bus.current = some u) (hf : u.func = .invalidate) :
    ∃ (i : Fin n) (a : Access g.ways) (w : Fin g.ways), u.requester = i ∧
      m'.caches[i].access = some a ∧ a.phase = .promote w ∧
      a.request.addr.line = u.addr.line := by
  obtain ⟨k, hx, -⟩ := h.within.awake h₀
  have hc : x.bus.current = some u := h.aired.current_eq.symm.trans hu
  obtain ⟨i, hi, hs⟩ := hx.coherent.balanced.taking u hc hf
  have hs : x.caches[i].stage = .taken u.addr.line := hs
  obtain ⟨a, w, ha, hp, hl⟩ := Cache.access_of_taken hs
  have hown : x.caches[i].snoop (x.seenBus i) = (none, x.caches[i], x.seenBus i) :=
    Cache.snoop_own ((x.current_seenBus i).trans hc) (hi.trans (hx.sound.number i).symm)
  have hcache : m'.caches[i] = x.caches[i] := by
    rw [h.aired.caches i, hown]
    simp only [Cache.observe, ha, hp]
  exact ⟨i, a, w, hi, hcache ▸ ha, hp, hl⟩

/-- How often a core has taken a line away in a run. -/
def takenBy (i : Nat) (log : List (Nat × Option Transfer)) : Nat :=
  log.countP fun e => e.2.any fun t => t.func = .invalidate ∧ t.requester = i

/-- **A request takes a line away at most once.** -/
theorem Plays.takenBy_le_one {log : List (Nat × Option Transfer)} (h : m.Plays log m')
    (hm : Ready t m) (hs : m'.cores[i].completed.size = m.cores[i].completed.size) :
    takenBy i log ≤ 1 := by
  obtain ⟨-, -, -, hlog⟩ := h.induct hm (P := fun _ log y =>
    m.cores[i].completed.size ≤ y.cores[i].completed.size ∧
    (y.cores[i].completed.size = m.cores[i].completed.size → takenBy i log = 0 ∨
      (takenBy i log = 1 ∧ ∃ a w, y.caches[i].access = some a ∧ a.phase = .promote w)))
    ⟨Nat.le_refl _, fun _ => .inl rfl⟩ fun {t₁ log y t l x y'} hy ⟨hle, hlog⟩ ht hr => by
      have h₀ := awake_started hy ht
      have hle' := hr.size_le h₀ i
      refine ⟨Nat.le_trans hle hle', fun hsize => ?_⟩
      have hcount : takenBy i (log ++ [(t, y'.bus.current)]) = takenBy i log +
          takenBy i [(t, y'.bus.current)] := List.countP_append
      obtain hzero | ⟨-, a, w, ha, hp⟩ := hlog (by omega)
      · rw [hcount, hzero, Nat.zero_add]
        cases hc : y'.bus.current with
        | none => exact .inl rfl
        | some u =>
          by_cases hu : u.func = .invalidate ∧ u.requester = i
          · obtain ⟨j, a, w, hj, ha, hp, -⟩ := hr.promote_of_invalidate h₀ hc hu.1
            obtain rfl : j = i := Fin.ext (hj.symm.trans hu.2)
            refine .inr ⟨?_, a, w, ha, hp⟩
            simp [takenBy, hu]
          · refine .inl ?_
            simp [takenBy, hu]
      · -- The line that was taken away has been written in this cycle.
        obtain ⟨-, b, v, hit, -, -, -, -, -, -, -, -, -, -, hpush⟩ := hr.promotes hy ht ha hp
        rw [hpush, Array.size_push] at hsize
        omega
  obtain hzero | ⟨hone, -⟩ := hlog hs
  · omega
  · omega

end Promote

/-! ## Every line that is taken away is written -/

/-- **Every line that is taken away is written**, in the next cycle. A core that takes a line away
is about to write it. If the next cycle is run, its cache has a turn in which the line is still in
its way and no other cache has data for it; the turn ends the request and modifies the line, in the
written word only. In no cycle does a cache rely on a line that was taken away or has just come, and
has lost it. While no request of a core ends, it takes away at most one line. -/
theorem upgrades_complete {spec : Spec} {programs : List Program} {g : Geometry}
    {m₀ m : Machine g programs.length} {l : List Transfer}
    (h : ofSpec spec programs = .ok ⟨g, m₀⟩) (hr : m₀.Reaches l m) :
    (∀ r m' u, m.step = .ok (r, m') → ran r → m'.bus.current = some u → u.func = .invalidate →
      ∃ (i : Fin programs.length) (a : Addr) (v : Word) (w : Fin g.ways),
        u.requester = i ∧ u.addr.line = a.line ∧
        (∃ x, m'.caches[i].access = some x ∧ x.request = .write a v ∧ x.phase = .promote w) ∧
        ∀ r' m'', m'.step = .ok (r', m'') → ran r' → m''.now = m'.now + 1 ∧
          (∃ hit, m''.cores[i].completed =
            m'.cores[i].completed.push ⟨.write a v, v, hit, m'.now + 1⟩) ∧
          ∃ turns y q y', (m'.started m''.now).Within turns y ∧
            y.queue.fetch = .ok (some (.cache i, q)) ∧
            { y with queue := q }.runAgent (.cache i) = .ok y' ∧ y.caches[i] = m'.caches[i] ∧
            y.WritesAlone i a v w y') ∧
    (∀ t turns y, m.queue.nextTime = some t → (m.started t).Within turns y →
      ∀ (i : Fin programs.length) a w, y.caches[i].access = some a →
        a.phase = .promote w ∨ a.phase = .installed w →
        (y.caches[i].line (g.index a.request.addr) w).offers (g.tag a.request.addr)) ∧
    ∀ log m', m.Plays log m' → ∀ i : Fin programs.length,
      m'.cores[i].completed.size = m.cores[i].completed.size → takenBy i log ≤ 1 := by
  obtain ⟨hv, -, rfl⟩ := ofSpec_eq_ok.mp h
  obtain ⟨log, hl⟩ := hr.plays
  obtain ⟨t, hm⟩ := hl.poised (poised_boot hv _)
  refine ⟨fun r m' u hs hran hu hf => ?_, fun t' turns y ht hy i a w ha hp => ?_,
    fun log m' hlog i hsize => hlog.takenBy_le_one hm.toReady hsize⟩
  · obtain ⟨hnot, -⟩ | ⟨-, -, t', turns, x, ht, hround, hm', hnow⟩ :=
      (yields_step hm.toReady).of_eq_ok hs
    · cases hnot.symm.trans hran
    obtain rfl : m'.now = t' := hnow
    obtain ⟨i, a, w, hi, ha, hp, hline⟩ :=
      hround.promote_of_invalidate (awake_started hm.toReady ht) hu hf
    have hwrite : a.request.isWrite := by
      have hfits := (hm'.sound.tidy i).fits a ha
      rw [Cache.Fits, hp] at hfits
      exact hfits.2
    cases hreq : a.request with
    | read b =>
      rw [hreq] at hwrite
      cases hwrite
    | write b v =>
      rw [hreq] at hline
      refine ⟨i, b, v, w, hi, hline.symm, ⟨a, ha, hreq, hp⟩, fun r' m'' hs' hran' => ?_⟩
      obtain ⟨hnot, -⟩ | ⟨-, -, t'', turns', x', ht', hround', -, hnow'⟩ :=
        (yields_step hm').of_eq_ok hs'
      · cases hnot.symm.trans hran'
      obtain rfl : m''.now = t'' := hnow'
      obtain ⟨hnext, c, v', hit, l₁, y, q, y', hreq', hy, hq, hrun, hcache, hwrites, hpush⟩ :=
        hround'.promotes hm' ht' ha hp
      cases hreq.symm.trans hreq'
      exact ⟨hnext, ⟨hit, hnext ▸ hpush⟩, l₁, y, q, y', hy, hq, hrun, hcache, hwrites⟩
  · obtain ⟨k, hawake, -⟩ := hy.awake (awake_started hm.toReady ht)
    obtain hp | hp := hp
    · exact (hawake.offers_of_promote ha hp).1
    · exact (hm.within ht hy i a w ha hp).1

theorem upgrades_complete_tiny : ∃ m l r m' r' m'', tiny.Reaches l m ∧ m.step = .ok (r, m') ∧
    ran r ∧ m'.bus.current = some ⟨0, .cache 0, ⟨0⟩, .invalidate, none⟩ ∧
    m'.step = .ok (r', m'') ∧ ran r' ∧ m''.now = m'.now + 1 ∧
    ∃ (i : Fin tinyPrograms.length) (a : Addr) (v : Word) (hit : Bool), 0 = (i : Nat) ∧
      m''.cores[i].completed =
        m'.cores[i].completed.push ⟨.write a v, v, hit, m'.now + 1⟩ := by
  obtain ⟨m, l, hr, hm⟩ := exists_reaches tiny 6
    (fun m => m.step.toOption.any fun y => ran y.1 ∧
      y.2.bus.current = some ⟨0, .cache 0, ⟨0⟩, .invalidate, none⟩ ∧
      y.2.step.toOption.any fun z => ran z.1) (by decide +kernel)
  obtain ⟨r, m', hs, hm⟩ := exists_step hm
  obtain ⟨hran, hu, hm'⟩ := of_decide_eq_true hm
  obtain ⟨r', m'', hs', hran'⟩ := exists_step hm'
  obtain ⟨hstep, -⟩ := upgrades_complete ofSpec_tiny hr
  obtain ⟨i, a, v, w, hi, -, -, hnext⟩ := hstep r m' _ hs hran hu rfl
  obtain ⟨hnow, ⟨hit, hpush⟩, -⟩ := hnext r' m'' hs' hran'
  exact ⟨m, l, r, m', r', m'', hr, hs, hran, hu, hs', hran', hnow, i, a, v, hit, hi, hpush⟩

end Machine

end Snooping
