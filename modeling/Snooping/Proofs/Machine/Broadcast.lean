import Snooping.Proofs.Machine.Cycle

/-!
# The broadcast of a transfer

The caches look at the bus one after the other, and each of them sees what the smaller ones have
claimed. Then memory looks, and the cache that is answered. All of it together is one step of the
protocol.

* `Machine.broadcast_of_undriven`: nothing is seen when nothing is driven.
* `Machine.foldlM_induct`: the caches in order.
* `Machine.Claims`, `Machine.Shares`: what a cache tells the others.
* **`Machine.Heard`**: the caches before `k` have looked at the transfer.
* `Machine.heard_snoop`: the next one looks.
* **`Machine.broadcast_view`**: all of it is a broadcast of the protocol.
-/

namespace Snooping

variable {g : Geometry} {n : Nat}

namespace Machine

theorem broadcast_of_undriven {m : Machine g n} (h : m.bus.current = none) :
    m.broadcast = .ok m := by
  unfold broadcast
  rw [if_neg (by simp [Bus.isDriven, h])]
  rfl

/-- What every member keeps in its turn holds after all of them. -/
theorem foldlM_induct {P : Nat → Machine g n → Prop}
    {f : Machine g n → Fin n → Except Fault (Machine g n)}
    (step : ∀ {i : Fin n} {m m'}, P i m → f m i = .ok m' → P (i + 1) m') {m m' : Machine g n}
    (h : P 0 m)
    (hr : (List.finRange n).foldlM f m = .ok m') : P n m' := by
  -- The induction is on the members that are left, which are numbered from `k` on.
  have hlist : ∀ (l : List (Fin n)) (k : Nat) (m : Machine g n),
      l.map Fin.val = List.range' k l.length → P k m → l.foldlM f m = .ok m' →
        P (k + l.length) m' := by
    intro l
    induction l with
    | nil =>
      intro k m _ hm hr
      cases hr
      exact hm
    | cons i l ih =>
      intro k m hl hm hr
      rw [List.map_cons, List.length_cons, List.range'_succ, List.cons.injEq] at hl
      rw [List.foldlM_cons] at hr
      cases hf : f m i with
      | error e =>
        rw [hf] at hr
        cases hr
      | ok m₁ =>
        rw [hf] at hr
        have := ih (k + 1) m₁ hl.2 (hl.1 ▸ step (hl.1 ▸ hm) hf) hr
        rwa [Nat.add_right_comm] at this
  have := hlist (List.finRange n) 0 m (by simp [List.range_eq_range']) h hr
  simpa using this

/-! ## One cache looks -/

/-- What becomes of the queue while everybody looks: nothing is due, and nobody is forgotten. -/
abbrev Wakes (m m' : Machine g n) : Prop := m.Waits m' (3 * n + 1)

theorem Waits.trans {m m' m'' : Machine g n} {k k' : Nat} (h : m.Waits m' k)
    (h' : m'.Waits m'' k') : m.Waits m'' k' :=
  ⟨h'.now.trans h.now, h'.timed, fun e he => h'.waits e (h.waits e he)⟩

theorem wakeIf_eq {m m' : Machine g n} {slept : Bool} {t : Nat} {p : Agent (Fin n)}
    (h : m.queue.Timed (3 * n + 1)) (ht : m.now < t) (hr : m.wakeIf slept t p = .ok m') :
    ∃ q, m' = { m with queue := q } ∧ m.Wakes { m with queue := q } ∧
      (slept → (t, p) ∈ q.pending) := by
  unfold wakeIf at hr
  cases slept with
  | false =>
    cases hr
    exact ⟨m.queue, rfl, ⟨rfl, h, fun _ he => he⟩, nofun⟩
  | true =>
    rw [if_pos rfl] at hr
    cases hs : m.queue.schedule t p with
    | error f =>
      rw [hs] at hr
      cases hr
    | ok q =>
      rw [hs] at hr
      cases hr
      rw [WakeQueue.schedule_eq_ok hs]
      exact ⟨_, rfl, waits_add h p (.inl ht), fun _ => WakeQueue.mem_add.mpr (.inl rfl)⟩

theorem snoopCache_eq {m m' : Machine g n} {i : Fin n} {t : Nat} (h : m.queue.Timed (3 * n + 1))
    (ht : m.now < t) (hr : m.snoopCache t i = .ok m') :
    ∃ f q, m' = ({ m with queue := q }.putForwarder i f m.bus).putCache i
        (m.caches[i].snoop m.bus).2.1 (m.caches[i].snoop m.bus).2.2 ∧
      m.Wakes { m with queue := q } ∧ f.source = m.forwarders[i].source ∧
      f.queue = m.forwarders[i].queue ++ (m.caches[i].snoop m.bus).1.toList ∧
      (f.parked → m.forwarders[i].parked ∧ f.queue = m.forwarders[i].queue) ∧
      (m.forwarders[i].parked → f.parked ∨ (t, .forwarder i) ∈ q.pending) := by
  unfold snoopCache at hr
  generalize m.caches[i].snoop m.bus = x at *
  obtain ⟨job, c, bus⟩ := x
  cases job with
  | none =>
    cases hr
    refine ⟨m.forwarders[i], m.queue, ?_, ⟨rfl, h, fun _ he => he⟩, rfl, ?_, fun hp => ⟨hp, rfl⟩,
      .inl⟩
    · simp [putCache, putForwarder]
    · simp
  | some job =>
    obtain ⟨q, rfl, hw, hs⟩ := wakeIf_eq (m := { m with
      caches := m.caches.put i c
      bus := bus
      forwarders := m.forwarders.put i (m.forwarders[i].push job).2 }) h ht hr
    exact ⟨(m.forwarders[i].push job).2, q, rfl, ⟨hw.now, hw.timed, hw.waits⟩, rfl, rfl,
      fun hp => Bool.noConfusion hp, fun hp => .inr (hs hp)⟩

end Machine

/-! ## What a cache tells the others -/

/-- A cache has the data that a peer asks for. -/
def View.Claims (V : View n) (t : Transfer) (i : Fin n) : Prop :=
  t.func = .read ∧ (i : Nat) ≠ t.requester ∧ (V.copy i t.addr).1.hasData

/-- A cache has a place for the line that a peer is answered with. -/
def View.Shares (V : View n) (t : Transfer) (i : Fin n) : Prop :=
  t.func = .response ∧ (i : Nat) ≠ t.requester ∧ (V.copy i t.addr).1 ≠ .invalid

section Snoop

variable {V : View n} {t : Transfer} {c : Cache g} {bus : Bus} {i : Fin n} (h : c.Tidy)
  (hi : c.id = i) (ht : bus.current = some t) (hc : c.copy = V.copy i)

include h hi ht

theorem copy_snoop_seen (hc : c.copy = V.copy i) :
    (c.snoop bus).2.1.copy = (V.seen t).copy i := by
  funext b
  by_cases hr : t.requester = i
  · rw [Cache.snoop_own ht (hr.trans hi.symm), View.copy_seen_self hr, hc]
  · rw [Cache.copy_snoop h ht (by rwa [hi]), hc]
    simp only [View.seen, ne_eq, Ne.symm hr, not_false_eq_true, true_and]

theorem stage_snoop_seen (hs : c.stage = V.stage i) :
    (c.snoop bus).2.1.stage = (V.seen t).stage i := by
  by_cases hr : t.requester = i
  · rw [Cache.snoop_own ht (hr.trans hi.symm), hs]
    exact (if_neg (not_not.mpr hr.symm)).symm
  · rw [Cache.stage_snoop h ht (by rwa [hi]), hs]
    exact (if_pos (Ne.symm hr)).symm

include hc

theorem bus_snoop_seen : (c.snoop bus).2.2.current = some t ∧
    ((c.snoop bus).2.2.claimed ↔ bus.claimed ∨ V.Claims t i) ∧
    ((c.snoop bus).2.2.shared ↔ bus.shared ∨ V.Shares t i) := by
  by_cases hr : t.requester = i
  · rw [Cache.snoop_own ht (hr.trans hi.symm)]
    have hno : ∀ p q : Prop, ¬ (p ∧ (i : Nat) ≠ t.requester ∧ q) := fun _ _ hx => hx.2.1 hr.symm
    exact ⟨ht, (or_iff_left (hno _ _)).symm, (or_iff_left (hno _ _)).symm⟩
  · rw [Cache.bus_snoop h ht (by rwa [hi]), hc]
    refine ⟨ht, ?_, ?_⟩
    · simp [View.Claims, Ne.symm hr]
    · simp [View.Shares, Ne.symm hr]

theorem job_snoop_seen :
    ((V.Claims t i → bus.claimed) ∧ (c.snoop bus).1.toList.filter ForwardJob.isData = []) ∨
      (V.Claims t i ∧ bus.claimed = false ∧ ∃ s,
        (c.snoop bus).1.toList.filter ForwardJob.isData =
          [⟨t.requester, t.addr, s, some (V.copy i t.addr).2⟩]) := by
  have hlist : ∀ o : Option ForwardJob,
      o.toList.filter ForwardJob.isData = (o.filter ForwardJob.isData).toList := fun o => by
    cases o with
    | none => rfl
    | some k => cases hk : k.isData <;> simp [Option.filter, hk]
  by_cases hr : t.requester = i
  · rw [Cache.snoop_own ht (hr.trans hi.symm)]
    exact .inl ⟨fun hx => absurd hr.symm hx.2.1, rfl⟩
  · rw [hlist, Cache.job_snoop h ht (by rwa [hi]), hc]
    by_cases hx : t.func = .read ∧ (V.copy i t.addr).1.hasData
    · have hclaims : V.Claims t i := ⟨hx.1, Ne.symm hr, hx.2⟩
      cases hb : bus.claimed with
      | true => exact .inl ⟨fun _ => rfl, by simp⟩
      | false => exact .inr ⟨hclaims, rfl, _, by rw [if_pos ⟨hx.1, hx.2, rfl⟩]; rfl⟩
    · refine .inl ⟨fun hcl => absurd ⟨hcl.1, hcl.2.2⟩ hx, ?_⟩
      rw [if_neg fun hy => hx ⟨hy.1, hy.2.1⟩]
      rfl

end Snoop

namespace Machine

/-! ## All caches look -/

/-- **The caches before `k` have looked at the transfer.** -/
structure Heard (m₀ : Machine g n) (t : Transfer) (k : Nat) (m : Machine g n) : Prop where
  sound : m.Sound
  wakes : m₀.Wakes m
  spec : m.spec = m₀.spec
  memory : m.memory = m₀.memory
  cores : m.cores = m₀.cores
  current : m.bus.current = some t
  copy : ∀ j : Fin n,
    m.view.copy j = if j < k then (m₀.view.seen t).copy j else m₀.view.copy j
  stage : ∀ j : Fin n,
    m.view.stage j = if j < k then (m₀.view.seen t).stage j else m₀.view.stage j
  claimed : m.bus.claimed ↔ ∃ j : Fin n, j < k ∧ m₀.view.Claims t j
  shared : m.bus.shared ↔ ∃ j : Fin n, j < k ∧ m₀.view.Shares t j
  /-- The first cache that has claimed the transfer owes it. -/
  jobs : (m.bus.claimed = false ∧ m.view.jobs = m₀.view.jobs) ∨
    ∃ j s, m.bus.claimed ∧ m₀.view.Claims t j ∧ m.view.jobs = Function.update m₀.view.jobs j
      (m₀.view.jobs j ++ [⟨t.requester, t.addr, s, some (m₀.view.copy j t.addr).2⟩])
  sends : ∀ j : Fin n,
    m.forwarders[j].parked ∨ (m₀.now + 1, .forwarder j) ∈ m.queue.pending

theorem exists_lt_succ {i : Fin n} {P : Fin n → Prop} :
    (∃ j : Fin n, (j : Nat) < i + 1 ∧ P j) ↔ (∃ j : Fin n, (j : Nat) < i ∧ P j) ∨ P i := by
  constructor
  · rintro ⟨j, hj, hp⟩
    obtain hlt | heq := Nat.lt_succ_iff_lt_or_eq.mp hj
    · exact .inl ⟨j, hlt, hp⟩
    · exact .inr (Fin.ext heq ▸ hp)
  · rintro (⟨j, hj, hp⟩ | hp)
    · exact ⟨j, Nat.lt_succ_of_lt hj, hp⟩
    · exact ⟨i, Nat.lt_succ_self _, hp⟩

theorem update_ite {α : Type} {i : Fin n} {f f' v : Fin n → α}
    (h : ∀ j : Fin n, v j = if (j : Nat) < i then f' j else f j) (j : Fin n) :
    Function.update v i (f' i) j = if (j : Nat) < i + 1 then f' j else f j := by
  by_cases hj : j = i
  · subst hj
    rw [Function.update_self, if_pos (Nat.lt_succ_self _)]
  · have hne : (j : Nat) ≠ i := fun e => hj (Fin.ext e)
    have hlt : (j : Nat) < i + 1 ↔ (j : Nat) < i := by omega
    rw [Function.update_of_ne hj, h j]
    simp only [hlt]

/-- Of all that claim a transfer, only the first one comes to owe it. -/
theorem Heard.owed {m₀ m : Machine g n} {t : Transfer} {i : Fin n} (h : Heard m₀ t i m) {b : Bool}
    {extra : List ForwardJob} (hb : b ↔ m.bus.claimed ∨ m₀.view.Claims t i)
    (hx : ((m₀.view.Claims t i → m.bus.claimed) ∧ extra = []) ∨
      (m₀.view.Claims t i ∧ m.bus.claimed = false ∧
        ∃ s, extra = [⟨t.requester, t.addr, s, some (m₀.view.copy i t.addr).2⟩]))
    {jobs : Fin n → List ForwardJob}
    (hj : jobs = Function.update m.view.jobs i (m.view.jobs i ++ extra)) :
    (b = false ∧ jobs = m₀.view.jobs) ∨
      ∃ j s, b ∧ m₀.view.Claims t j ∧ jobs = Function.update m₀.view.jobs j
        (m₀.view.jobs j ++ [⟨t.requester, t.addr, s, some (m₀.view.copy j t.addr).2⟩]) := by
  subst hj
  obtain ⟨hcl, rfl⟩ | ⟨hcl, hfree, s, rfl⟩ := hx
  · have hsame : b = m.bus.claimed := Bool.eq_iff_iff.mpr (hb.trans
      ⟨fun hx => hx.elim id hcl, .inl⟩)
    rw [List.append_nil, Function.update_eq_self, hsame]
    exact h.jobs
  · obtain ⟨-, hold⟩ | ⟨j, s', hclaimed, -⟩ := h.jobs
    · exact .inr ⟨i, s, hb.mpr (.inr hcl), hcl, by rw [hold]⟩
    · exact absurd (hfree.symm.trans hclaimed) (by decide)

/-- **The next cache looks.** -/
theorem heard_snoop {m₀ m m' : Machine g n} {t : Transfer} {i : Fin n} (h : Heard m₀ t i m)
    (hr : m.snoopCache (m₀.now + 1) i = .ok m') : Heard m₀ t (i + 1) m' := by
  have hcopy : m.caches[i].copy = m₀.view.copy i :=
    (h.copy i).trans (if_neg (Nat.lt_irrefl _))
  have hstage : m.caches[i].stage = m₀.view.stage i :=
    (h.stage i).trans (if_neg (Nat.lt_irrefl _))
  have htidy := h.sound.tidy i
  have hnum := h.sound.number i
  have hc := copy_snoop_seen htidy hnum h.current hcopy
  have hs := stage_snoop_seen htidy hnum h.current hstage
  obtain ⟨hcurrent, hclaimed, hshared⟩ := bus_snoop_seen htidy hnum h.current hcopy
  have hjob := job_snoop_seen htidy hnum h.current hcopy
  have htidy' := Cache.tidy_snoop htidy m.bus
  have hnum' := Cache.id_snoop m.caches[i] m.bus
  obtain ⟨f, q, rfl, hw, hsource, hqueue, hpark, hwake⟩ :=
    snoopCache_eq h.wakes.timed (h.wakes.now ▸ Nat.lt_succ_self _) hr
  generalize m.caches[i].snoop m.bus = x at *
  obtain ⟨job, c, bus⟩ := x
  dsimp only at hc hs hcurrent hclaimed hshared hjob htidy' hnum' hqueue
  have hq : f.queue.filter ForwardJob.isData =
      m.view.jobs i ++ job.toList.filter ForwardJob.isData := by
    rw [hqueue, List.filter_append]
    rfl
  have hjobs : ((putForwarder { m with queue := q } i f m.bus).putCache i c bus).view.jobs =
      Function.update m.view.jobs i (m.view.jobs i ++ job.toList.filter ForwardJob.isData) := by
    rw [view_putCache, ← hq]
    exact congrArg View.jobs (view_putForwarder { m with queue := q } i f m.bus)
  have hsound : (putForwarder { m with queue := q } i f m.bus).Sound :=
    (h.sound.putForwarder hsource (fun hp => (hpark hp).2.trans (h.sound.resting i (hpark hp).1))
      m.bus).congr rfl rfl rfl rfl
  refine ⟨hsound.putCache htidy' hnum' bus, h.wakes.trans ⟨hw.now, hw.timed, hw.waits⟩, h.spec,
    h.memory, h.cores, hcurrent, fun j => ?_, fun j => ?_, ?_, ?_, ?_, fun j => ?_⟩
  · rw [view_putCache]
    show Function.update m.view.copy i c.copy j = _
    rw [hc]
    exact update_ite h.copy j
  · rw [view_putCache]
    show Function.update m.view.stage i c.stage j = _
    rw [hs]
    exact update_ite h.stage j
  · rw [exists_lt_succ, ← h.claimed]
    exact hclaimed
  · rw [exists_lt_succ, ← h.shared]
    exact hshared
  · exact h.owed hclaimed hjob hjobs
  · show (m.forwarders.put i f)[j].parked ∨ _
    by_cases hj : j = i
    · subst hj
      rw [Vector.getElem_put_self]
      obtain hp | hp := h.sends j
      · exact hwake hp
      · exact .inr (hw.waits _ hp)
    · rw [Vector.getElem_put_of_ne _ _ hj]
      exact (h.sends j).imp_right (hw.waits _)

theorem heard_start {k : Nat} {m : Machine g n} {t : Transfer} (h : Running k m)
    (hdue : ∀ e ∈ m.queue.pending, m.now < e.1) (hc : m.bus.current = some t) : Heard m t 0 m := by
  have hnone : ∀ P : Fin n → Prop, ¬ ∃ j : Fin n, (j : Nat) < 0 ∧ P j := fun P ⟨j, hj, _⟩ =>
    Nat.not_lt_zero _ hj
  have hlate : ∀ p, (m.now, p) ∉ m.queue.pending := fun p hp => Nat.lt_irrefl _ (hdue _ hp)
  refine ⟨h.sound, ⟨rfl, ⟨h.timed.sorted, h.timed.future, fun p hp => absurd hp (hlate p)⟩,
    fun _ he => he⟩, rfl, rfl, rfl, hc, fun j => (if_neg (Nat.not_lt_zero _)).symm,
    fun j => (if_neg (Nat.not_lt_zero _)).symm, ?_, ?_, .inl ⟨h.quiet.2, rfl⟩, fun j => ?_⟩
  · simp only [h.quiet.2, Bool.false_eq_true, hnone]
  · simp only [h.quiet.1, Bool.false_eq_true, hnone]
  · exact (h.sends j).imp_right fun hs => (hs.resolve_left (hlate _)).1

/-! ## Memory looks -/

theorem snoopMemory_eq {m m' : Machine g n} {t : Nat} (h : m.queue.Timed (3 * n + 1))
    (ht : m.now < t) (hr : m.snoopMemory t = .ok m') :
    ∃ q, m' = { m with memory := (m.memory.snoop m.bus).2, queue := q } ∧
      m.Wakes { m with queue := q } := by
  unfold snoopMemory at hr
  generalize m.memory.snoop m.bus = x at *
  obtain ⟨slept, memory⟩ := x
  obtain ⟨q, rfl, hw, -⟩ := wakeIf_eq (m := { m with memory := memory }) h ht hr
  exact ⟨q, rfl, hw.now, hw.timed, hw.waits⟩

/-! ## The caches look for answers -/

/-- The caches before `k` have looked for their answers. -/
structure Watched (m₀ : Machine g n) (k : Nat) (m : Machine g n) : Prop where
  wakes : m₀.Wakes m
  spec : m.spec = m₀.spec
  bus : m.bus = m₀.bus
  forwarders : m.forwarders = m₀.forwarders
  memory : m.memory = m₀.memory
  cores : m.cores = m₀.cores
  caches : ∀ j : Fin n, m.caches[j] =
    if (j : Nat) < k then (m₀.caches[j].observe m₀.bus).2 else m₀.caches[j]

theorem watched_observe {m₀ m m' : Machine g n} {i : Fin n} (h : Watched m₀ i m)
    (hr : m.observeCache (m₀.now + 1) i = .ok m') : Watched m₀ (i + 1) m' := by
  unfold observeCache at hr
  have hlt : m.now < m₀.now + 1 := h.wakes.now ▸ Nat.lt_succ_self _
  obtain ⟨q, rfl, hw, -⟩ := wakeIf_eq
    (m := { m with caches := m.caches.put i (m.caches[i].observe m.bus).2 }) h.wakes.timed hlt hr
  refine ⟨h.wakes.trans ⟨hw.now, hw.timed, hw.waits⟩, h.spec, h.bus, h.forwarders, h.memory,
    h.cores, fun j => ?_⟩
  have hi : m.caches[i] = m₀.caches[i] := (h.caches i).trans (if_neg (Nat.lt_irrefl _))
  show (m.caches.put i (m.caches[i].observe m.bus).2)[j] = _
  rw [hi, h.bus, getElem_put]
  exact update_ite h.caches j

/-! ## Everybody looks -/

/-- What a broadcast leaves as it is, and whom it wakes. -/
structure Looked (m m' : Machine g n) : Prop where
  sound : m'.Sound
  wakes : m.Wakes m'
  spec : m'.spec = m.spec
  cores : m'.cores = m.cores
  current : m'.bus.current = m.bus.current
  sends : ∀ j : Fin n,
    m'.forwarders[j].parked ∨ (m.now + 1, .forwarder j) ∈ m'.queue.pending

theorem broadcast_stations {m m' : Machine g n} {t : Transfer} (h : Heard m t 0 m)
    (hc : m.bus.current = some t) (hr : m.broadcast = .ok m') :
    ∃ m₁ q, Heard m t n m₁ ∧
      m₁.Wakes { m₁ with queue := q } ∧
      Watched { m₁ with memory := (m₁.memory.snoop m₁.bus).2, queue := q } n m' := by
  unfold broadcast at hr
  rw [if_pos (by rw [Bus.isDriven, hc]; rfl)] at hr
  cases hs : sum64 m.now 1 with
  | error f =>
    rw [hs] at hr
    cases hr
  | ok next =>
    obtain rfl : m.now + 1 = next := (sum64_eq_ok.mp hs).1
    simp only [hs, bind, Except.bind] at hr
    cases hh : (List.finRange n).foldlM (fun x => x.snoopCache (m.now + 1)) m with
    | error f =>
      rw [hh] at hr
      cases hr
    | ok m₁ =>
      rw [hh] at hr
      have hheard : Heard m t n m₁ := foldlM_induct (P := Heard m t) heard_snoop h hh
      dsimp only at hr
      cases hm : m₁.snoopMemory (m.now + 1) with
      | error f =>
        rw [hm] at hr
        cases hr
      | ok m₂ =>
        rw [hm] at hr
        have hlt : m₁.now < m.now + 1 := hheard.wakes.now ▸ Nat.lt_succ_self _
        obtain ⟨q, rfl, hw⟩ := snoopMemory_eq hheard.wakes.timed hlt hm
        have hnow : m.now = q.now := (hw.now.trans hheard.wakes.now).symm
        rw [hnow] at hr
        exact ⟨m₁, q, hheard, hw, foldlM_induct (P := Watched _) watched_observe
          ⟨⟨rfl, hw.timed, fun _ he => he⟩, rfl, rfl, rfl, rfl, rfl,
            fun j => (if_neg (Nat.not_lt_zero _)).symm⟩ hr⟩

theorem looked_of_stations {m m₁ m' : Machine g n} {t : Transfer}
    {q : WakeQueue (Agent (Fin n))} (hc : m.bus.current = some t) (hh : Heard m t n m₁)
    (hq : m₁.Wakes { m₁ with queue := q })
    (hw : Watched { m₁ with memory := (m₁.memory.snoop m₁.bus).2, queue := q } n m') :
    m.Looked m' := by
  have hcaches : ∀ j : Fin n, m'.caches[j] = (m₁.caches[j].observe m₁.bus).2 := fun j =>
    (hw.caches j).trans (if_pos j.isLt)
  have hmemory : m'.memory = (m₁.memory.snoop m₁.bus).2 := hw.memory
  have hforwarders : m'.forwarders = m₁.forwarders := hw.forwarders
  obtain ⟨-, -, hstore, hspec, hservice⟩ := m₁.memory.snoop_eq m₁.bus
  have hwakes : m.Wakes m' := by
    refine (hh.wakes.trans ⟨hq.now, hq.timed, hq.waits⟩).trans ?_
    exact ⟨hw.wakes.now, hw.wakes.timed, hw.wakes.waits⟩
  refine ⟨⟨fun j => ?_, fun j => ?_, fun j => ?_, fun j => ?_, ⟨fun u d hs => ?_, fun cold => ?_⟩,
    ?_⟩, hwakes, hw.spec.trans hh.spec, hw.cores.trans hh.cores, ?_, fun j => ?_⟩
  · rw [hcaches, Cache.id_observe, hh.sound.number]
  · rw [hforwarders, hh.sound.source]
  · rw [hcaches]
    exact Cache.tidy_observe (hh.sound.tidy j) m₁.bus
  · rw [hforwarders]
    exact hh.sound.resting j
  · rw [hmemory, hservice] at hs
    exact hh.sound.memory.captures u d hs
  · rw [hmemory, hspec]
    exact hh.sound.memory.latency cold
  · rw [hmemory, hstore, hh.sound.capacity]
    exact congrArg Spec.memoryWords hw.spec.symm
  · rw [hc, hw.bus]
    exact hh.current
  · rw [hforwarders]
    exact (hh.sends j).imp_right fun hs => hw.wakes.waits _ (hq.waits _ hs)

theorem calm_of_stations {m m₁ m' : Machine g n} {t : Transfer}
    {q : WakeQueue (Agent (Fin n))} (hh : Heard m t n m₁)
    (hw : Watched { m₁ with memory := (m₁.memory.snoop m₁.bus).2, queue := q } n m') :
    m'.calm = { m.view.seen t with
      stage := fun j => (m₁.caches[j].observe m₁.bus).2.stage
      copy := fun j => (m₁.caches[j].observe m₁.bus).2.copy
      jobs := m₁.view.jobs
      pending := m.view.pending ++ m₁.bus.memoryRequest.toList } := by
  have hcaches : ∀ j : Fin n, m'.caches[j] = (m₁.caches[j].observe m₁.bus).2 := fun j =>
    (hw.caches j).trans (if_pos j.isLt)
  have hmemory : m'.memory = (m.memory.snoop m₁.bus).2 := by
    rw [← hh.memory]
    exact hw.memory
  obtain ⟨hpending, hcaptured, hstore, -, -⟩ := m.memory.snoop_eq m₁.bus
  have hblock : m'.memory.readBlock = m.memory.readBlock := by
    funext a
    simp only [Memory.readBlock, hmemory, hstore]
  have hlands : m'.memory.lands = m.memory.lands := by
    funext a
    simp only [Memory.lands, hmemory, hstore]
  simp only [calm, view, hcaches, hw.forwarders, hblock, hlands]
  rw [hmemory, hpending, hcaptured]
  rfl

section Stations

variable {m m₁ m' : Machine g n} {t : Transfer} {q : WakeQueue (Agent (Fin n))}
  (hh : Heard m t n m₁)
  (hw : Watched { m₁ with memory := (m₁.memory.snoop m₁.bus).2, queue := q } n m')
include hh

theorem Heard.copy_eq (j : Fin n) : m₁.caches[j].copy = (m.view.seen t).copy j :=
  (hh.copy j).trans (if_pos j.isLt)

theorem Heard.stage_eq (j : Fin n) : m₁.caches[j].stage = (m.view.seen t).stage j :=
  (hh.stage j).trans (if_pos j.isLt)

theorem Heard.jobs_eq (hf : t.func ≠ .read) : m₁.view.jobs = m.view.jobs := by
  obtain ⟨-, hj⟩ | ⟨j, s, -, hx, -⟩ := hh.jobs
  · exact hj
  · exact absurd hx.1 hf

theorem Heard.memoryRequest_eq : m₁.bus.memoryRequest =
    if t.func = .write ∨ (t.func = .read ∧ m₁.bus.claimed = false) then some t else none := by
  simp [Bus.memoryRequest, hh.current, Option.filter]

theorem Heard.memoryRequest_eq_none (hn : t.func ≠ .write) (hr : t.func ≠ .read) :
    m₁.bus.memoryRequest = none := by
  rw [hh.memoryRequest_eq, if_neg]
  rintro (hf | ⟨hf, -⟩)
  · exact hn hf
  · exact hr hf

include hw

theorem calm_of_request (hf : t.func ≠ .response) : m'.calm = { m.view.seen t with
    jobs := m₁.view.jobs
    pending := m.view.pending ++ m₁.bus.memoryRequest.toList } := by
  have hstage : (fun j : Fin n => (m₁.caches[j].observe m₁.bus).2.stage) =
      (m.view.seen t).stage := by
    funext j
    rw [(Cache.observe_of_func (hh.sound.tidy j) hh.current hf).2.2, hh.stage_eq]
  have hcopy : (fun j : Fin n => (m₁.caches[j].observe m₁.bus).2.copy) =
      (m.view.seen t).copy := by
    funext j
    rw [(Cache.observe_of_func (hh.sound.tidy j) hh.current hf).2.1, hh.copy_eq]
  rw [calm_of_stations hh hw, hstage, hcopy]

theorem broadcast_of_request (hspoken : t.func ≠ .nothing) (hresponse : t.func ≠ .response)
    (htaken : ∀ j u, m.view.stage j = .taken u → m.view.Fresh j) :
    m.view.Broadcast t m'.calm := by
  have hnil : m.view.pending ++ (none : Option Transfer).toList = m.view.pending :=
    List.append_nil _
  rw [calm_of_request hh hw hresponse]
  cases hf : t.func with
  | nothing => exact absurd hf hspoken
  | response => exact absurd hf hresponse
  | read =>
    rw [hh.memoryRequest_eq]
    obtain ⟨hfree, he⟩ | ⟨j, s, hclaimed, hx, he⟩ := hh.jobs
    · rw [he, if_pos (.inr ⟨hf, hfree⟩)]
      refine .unclaimed hf htaken fun j hj hd => ?_
      have hclaimed := hh.claimed.mpr ⟨j, j.isLt, hf, hj, hd⟩
      exact Bool.false_ne_true (hfree.symm.trans hclaimed)
    · rw [he, if_neg (by simp [hf, hclaimed]), hnil]
      exact .claimed (s := s) hf htaken hx.2.1 hx.2.2
  | write =>
    rw [hh.memoryRequest_eq, if_pos (.inl hf), hh.jobs_eq (by rw [hf]; decide)]
    exact .written hf htaken
  | invalidate =>
    rw [hh.memoryRequest_eq_none (by rw [hf]; decide) (by rw [hf]; decide), hnil,
      hh.jobs_eq (by rw [hf]; decide)]
    exact .invalidated hf htaken
  | requested =>
    rw [hh.memoryRequest_eq_none (by rw [hf]; decide) (by rw [hf]; decide), hnil,
      hh.jobs_eq (by rw [hf]; decide), View.seen_of_not_isRequest _ (by rw [hf]; rfl)]
    exact .noticed hf

variable {i : Fin n} (hf : t.func = .response) (hi : t.requester = i)
include hf hi

theorem calm_of_response : m'.calm = m.view.taken i (m₁.caches[i].observe m₁.bus).2.stage
    (m₁.caches[i].observe m₁.bus).2.copy := by
  have hseen := m.view.seen_of_not_isRequest (t := t) (by rw [hf]; rfl)
  have hother : ∀ j, j ≠ i → (m₁.caches[j].observe m₁.bus).2 = m₁.caches[j] := fun j hj => by
    have hne : t.requester ≠ m₁.caches[j].id := by
      rw [hh.sound.number, hi]
      exact fun e => hj (Fin.ext e.symm)
    rw [Cache.observe_of_ne hh.current hne]
  have hupdate : ∀ {α : Type} (f : Cache g → α) (v : Fin n → α),
      (∀ j : Fin n, f m₁.caches[j] = v j) → (fun j : Fin n => f (m₁.caches[j].observe m₁.bus).2) =
        Function.update v i (f (m₁.caches[i].observe m₁.bus).2) := fun f v hv => by
    funext j
    by_cases hj : j = i
    · subst hj
      rw [Function.update_self]
    · rw [Function.update_of_ne hj, hother j hj, hv]
  have hstage := hupdate Cache.stage m.view.stage fun j => by rw [hh.stage_eq, hseen]
  have hcopy := hupdate Cache.copy m.view.copy fun j => by rw [hh.copy_eq, hseen]
  rw [calm_of_stations hh hw, hstage, hcopy, hseen, hh.jobs_eq (by rw [hf]; decide),
    hh.memoryRequest_eq_none (by rw [hf]; decide) (by rw [hf]; decide), Option.toList_none,
    List.append_nil]
  rfl

theorem broadcast_of_response
    (hs : m.view.stage i = .awaits (if t.data.isSome then .read else .write) t.addr)
    (horigin : t.data.isSome ∨ t.source = .memory) : m.view.Broadcast t m'.calm := by
  have hseen := m.view.seen_of_not_isRequest (t := t) (by rw [hf]; rfl)
  have hcopy : m₁.caches[i].copy = m.view.copy i := by rw [hh.copy_eq, hseen]
  have hstage : m₁.caches[i].stage = m.view.stage i := by rw [hh.stage_eq, hseen]
  have hnum : t.requester = m₁.caches[i].id := hi.trans (hh.sound.number i).symm
  have htidy := hh.sound.tidy i
  rw [calm_of_response hh hw hf hi]
  cases hd : t.data.isSome with
  | true =>
    rw [hd, if_pos rfl] at hs
    obtain ⟨-, hworks, hfill, hgone⟩ :=
      Cache.observe_read htidy hh.current hnum hf (hstage.trans hs)
    rw [hcopy] at hfill hgone
    rw [hworks]
    -- A line that was taken away since it was asked for is not filled, and the data are lost.
    by_cases hreq : (m.view.copy i t.addr).1 = .requested
    · obtain ⟨contended, hfill⟩ := hfill hreq
      refine .filled hf hi hs hreq ?_ hfill
      unfold Bus.fillState
      split
      · exact .inl rfl
      · next hquiet =>
        refine .inr ⟨rfl, fun j hj => ?_⟩
        by_contra hlive
        have hshared := hh.shared.mpr ⟨j, j.isLt, hf, hj, hlive⟩
        exact hquiet (by simp [hshared])
    · rw [hgone hreq]
      exact .discarded hf hi hs hreq
  | false =>
    rw [hd, if_neg Bool.false_ne_true] at hs
    have hmemory := horigin.resolve_left (by rw [hd]; exact Bool.false_ne_true)
    obtain ⟨-, hsame, hnext⟩ :=
      Cache.observe_write htidy hh.current hnum hf hmemory (hstage.trans hs)
    rw [hcopy] at hnext
    rw [hsame, hcopy]
    exact .landed hf hi hs hnext

end Stations

/-- **A broadcast is a step of the protocol.** -/
theorem broadcast_view {k : Nat} {m m' : Machine g n} {t : Transfer} (h : Running k m)
    (hdue : ∀ e ∈ m.queue.pending, m.now < e.1) (hc : m.bus.current = some t)
    (hr : m.broadcast = .ok m') : m.view.Broadcast t m'.calm ∧ m.Looked m' := by
  obtain ⟨m₁, q, hh, hq, hw⟩ := broadcast_stations (heard_start h hdue hc) hc hr
  refine ⟨?_, looked_of_stations hc hh hq hw⟩
  by_cases hf : t.func = .response
  · obtain ⟨i, hi, hs⟩ := h.coherent.balanced.stage_of_response hc hf
    exact broadcast_of_response hh hw hf hi hs (h.coherent.balanced.origin t hc hf)
  · refine broadcast_of_request hh hw (h.spoken t hc) hf fun j u hs => ?_
    exact ((h.takes j u hs).resolve_left fun he => Nat.lt_irrefl _ (hdue _ he)).1

end Machine

end Snooping
