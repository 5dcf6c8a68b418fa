import Snooping.Proofs.Machine.Rounds

/-!
# Bursts of forwards

When a line is read, the caches that know of it leave their answers with their forwarders, and the
forwarders send them in the cycles after it, before anybody else gets the bus.

* `Machine.owed`: the jobs of all forwarders, in the order in which they are sent.
* `Cache.job_snoop_eq`: the job that a cache hands back.
* `Machine.claimed_seenBus`: the first cache with data claims the read.
* **`Machine.owed_round`**: a round sends the first job that is owed.
* **`Machine.forward_burst`**: a read is followed by the jobs that were handed back, one in each
  cycle.
-/

namespace Snooping

variable {g : Geometry} {n : Nat}

/-! ## Jobs that are handed back -/

/-- **The job that a cache hands back** for the request of a peer: data for a reader, if it has them
and no smaller cache had, or the notice that it waits for the line itself. -/
theorem Cache.job_snoop_eq {c : Cache g} {bus : Bus} {t : Transfer} (h : c.Tidy)
    (ht : bus.current = some t) (hne : t.requester ≠ c.id) : (c.snoop bus).1 =
      if t.func = .read ∧ (c.copy t.addr).1 = .requested then
        some ⟨t.requester, t.addr, .requested, none⟩
      else if t.func = .read ∧ (c.copy t.addr).1.hasData ∧ bus.claimed = false then
        some ⟨t.requester, t.addr, (c.copy t.addr).1.afterPeerRead, some (c.copy t.addr).2⟩
      else none := by
  have hsnoop := reaction_snoop h.distinct ht hne
  generalize c.snoop bus = r at hsnoop ⊢
  cases hsnoop with
  | ignore ha =>
    by_cases hf : t.func = .read
    · rw [copy_of_absent (ha (by rw [hf]; rfl))]
      simp [LineState.hasData]
    · simp [hf]
  | notice hf hs => simp [hf, hs]
  | share hf hw hd =>
    have hn : (c.copy t.addr).1 ≠ .requested := fun e => by
      rw [e] at hd
      exact Bool.noConfusion hd
    cases hb : bus.claimed <;> simp [hf, hd, hn]
  | drop hf hw =>
    have hn : t.func ≠ .read := fun e => by simp [e] at hf
    simp [hn]

theorem Cache.lineState_eq (c : Cache g) (a : Addr) : c.lineState a = (c.copy a).1 := by
  unfold lineState copy
  cases c.lookup? a <;> rfl

/-- What a forwarder drives for a job. -/
def Forwarder.transfer (source : Nat) (k : ForwardJob) : Transfer :=
  ⟨k.dest, .cache source, k.addr.line, Bus.forwardFunc k.state, k.data⟩

namespace Machine

/-- **The jobs that are owed**, with their forwarders, in the order in which they are sent. -/
def owed (m : Machine g n) : List (Fin n × ForwardJob) :=
  (List.finRange n).flatMap fun j => m.forwarders[j].queue.map (Prod.mk j)

/-- The jobs that are handed back, with their caches. -/
def handedBack (m : Machine g n) : List (Fin n × ForwardJob) :=
  (List.finRange n).filterMap fun j => (m.handed j).map (Prod.mk j)

/-- A peer of the reader has data for the line that is read. -/
def Offers (m : Machine g n) (u : Transfer) (j : Fin n) : Prop :=
  (j : Nat) ≠ u.requester ∧ (m.caches[j].lineState u.addr).hasData

section Handed

variable {m : Machine g n} {u : Transfer} (hc : m.bus.current = some u)

include hc

theorem claimed_seenBus (h : m.Sound) (hq : m.bus.claimed = false) (hf : u.func = .read) (k : Nat)
    (hk : k ≤ n) : (m.seenBus k).claimed ↔ ∃ j : Fin n, (j : Nat) < k ∧ m.Offers u j := by
  induction k with
  | zero => exact iff_of_false (by rw [seenBus, hq]; exact Bool.false_ne_true) nofun
  | succ k ih =>
    obtain ⟨-, hclaimed, -⟩ := bus_snoop_seen (V := m.view) (h.tidy ⟨k, hk⟩) (h.number ⟨k, hk⟩)
      ((m.current_seenBus k).trans hc) rfl
    rw [m.seenBus_succ ⟨k, hk⟩, exists_lt_succ (i := ⟨k, hk⟩)]
    refine hclaimed.trans (or_congr (ih (Nat.le_of_lt hk)) ?_)
    rw [Offers, Cache.lineState_eq]
    exact and_iff_right hf

theorem handed_eq_none (h : m.Sound) (hf : u.func ≠ .read) (j : Fin n) : m.handed j = none := by
  have hcur := (m.current_seenBus j).trans hc
  unfold handed
  by_cases hr : u.requester = m.caches[j].id
  · rw [Cache.snoop_own hcur hr]
  · rw [Cache.job_snoop_eq (h.tidy j) hcur hr, if_neg fun hx => hf hx.1, if_neg fun hx => hf hx.1]

theorem isSome_data_handed (h : m.Sound) (hq : m.bus.claimed = false) (hf : u.func = .read)
    (j : Fin n) : (∃ k, m.handed j = some k ∧ k.data.isSome) ↔
      m.Offers u j ∧ ∀ i < j, ¬ m.Offers u i := by
  have hcur := (m.current_seenBus j).trans hc
  have hclaimed := claimed_seenBus hc h hq hf j (Nat.le_of_lt j.isLt)
  have hfirst : (m.seenBus j).claimed = false ↔ ∀ i < j, ¬ m.Offers u i := by
    rw [← Bool.not_eq_true, hclaimed]
    exact ⟨fun hx i hi ho => hx ⟨i, hi, ho⟩, fun hx ⟨i, hi, ho⟩ => hx i hi ho⟩
  rw [← hfirst, Offers, Cache.lineState_eq]
  unfold handed
  by_cases hr : u.requester = m.caches[j].id
  · rw [Cache.snoop_own hcur hr]
    exact iff_of_false nofun fun hx => hx.1.1 ((h.number j).symm.trans hr.symm)
  · have hne : (j : Nat) ≠ u.requester := fun e => hr (e.symm.trans (h.number j).symm)
    rw [Cache.job_snoop_eq (h.tidy j) hcur hr]
    by_cases hs : (m.caches[j].copy u.addr).1 = .requested
    · simp [hf, hs, LineState.hasData]
    · by_cases hd : (m.caches[j].copy u.addr).1.hasData
      · cases hb : (m.seenBus j).claimed <;> simp [hf, hs, hd, hne]
      · simp [hf, hs, hd]

end Handed

/-! ## What is owed -/

theorem eq_cons_of_flatMap {l : List (Fin n)} (hl : l.Pairwise (· < ·))
    {q : Fin n → List ForwardJob} {e : Fin n × ForwardJob} {rest : List (Fin n × ForwardJob)}
    (h : (l.flatMap fun j => (q j).map (Prod.mk j)) = e :: rest) :
    (∀ i ∈ l, i < e.1 → q i = []) ∧ ∃ ks, q e.1 = e.2 :: ks ∧
      (l.flatMap fun j => (Function.update q e.1 ks j).map (Prod.mk j)) = rest := by
  induction l with
  | nil => cases h
  | cons a l ih =>
    obtain ⟨ha, hl⟩ := List.pairwise_cons.mp hl
    rw [List.flatMap_cons] at h
    cases hq : q a with
    | nil =>
      rw [hq, List.map_nil, List.nil_append] at h
      obtain ⟨hi, ks, hks, hrest⟩ := ih hl h
      have hne : a ≠ e.1 := fun he => by
        rw [he, hks] at hq
        cases hq
      refine ⟨fun i hm hlt => ?_, ks, hks, ?_⟩
      · obtain rfl | hm := List.mem_cons.mp hm
        · exact hq
        · exact hi i hm hlt
      · rw [List.flatMap_cons, Function.update_of_ne hne, hq, List.map_nil, List.nil_append]
        exact hrest
    | cons k ks =>
      rw [hq, List.map_cons, List.cons_append, List.cons.injEq] at h
      obtain ⟨rfl, h⟩ := h
      refine ⟨fun i hm hlt => ?_, ks, hq, ?_⟩
      · obtain rfl | hm := List.mem_cons.mp hm
        · exact absurd hlt (lt_irrefl _)
        · exact absurd hlt (lt_asymm (ha i hm))
      · rw [List.flatMap_cons, Function.update_self, ← h]
        congr 1
        refine List.flatMap_congr fun i hm => ?_
        rw [Function.update_of_ne (ne_of_gt (ha i hm))]

theorem owed_congr {m m' : Machine g n}
    (h : ∀ j : Fin n, m'.forwarders[j].queue = m.forwarders[j].queue) : m'.owed = m.owed := by
  simp only [owed, h]

theorem owed_eq_handedBack {m m' : Machine g n}
    (h : ∀ j : Fin n, m'.forwarders[j].queue = (m.handed j).toList) : m'.owed = m.handedBack := by
  rw [owed, handedBack, List.filterMap_eq_flatMap_toList]
  refine List.flatMap_congr fun j _ => ?_
  rw [h j]
  cases m.handed j <;> rfl

theorem Aired.queue_eq {m m' : Machine g n} (h : m.Aired m')
    (he : ∀ j : Fin n, m.forwarders[j].queue = []) (j : Fin n) :
    m'.forwarders[j].queue = (m.handed j).toList := by
  rw [h.forwarders j, Forwarder.queue_accept, he j, List.nil_append]

theorem queue_putForwarder (m : Machine g n) {i : Fin n} {f : Forwarder}
    (hf : f.queue = m.forwarders[i].queue) (bus : Bus) (j : Fin n) :
    (m.putForwarder i f bus).forwarders[j].queue = m.forwarders[j].queue :=
  Vector.forall_put (P := fun (j : Fin n) (f : Forwarder) => f.queue = m.forwarders[j].queue) hf
    (fun _ => rfl) j

theorem Acts.queue_eq {m m' : Machine g n} {p : Agent (Fin n)} (h : m.Acts p m')
    (hp : m.bus.current ≠ none ∨ n ≤ p.slot) (j : Fin n) :
    m'.forwarders[j].queue = m.forwarders[j].queue := by
  cases h with
  | rest => exact m.queue_putForwarder (by rfl) _ j
  | @hold i hq hb hl =>
    exact m.queue_putForwarder (i := i) (f := m.forwarders[i]) rfl m.bus j
  | @send i k rest hq hb hl =>
    have hi : (i : Nat) < n := i.isLt
    exact hp.elim (absurd hb) fun hx => absurd hx (Nat.not_le_of_lt hi)
  | _ => rfl

/-! ## One cycle -/

section Cycle

variable {m x : Machine g n} {l : List (Agent (Fin n))} {e : Fin n × ForwardJob}
  {rest : List (Fin n × ForwardJob)}

theorem owed_turn {k : Nat} {y y' : Machine g n} {p : Agent (Fin n)}
    {q : WakeQueue (Agent (Fin n))} (hy : Awake k y) (hq : y.queue.fetch = .ok (some (p, q)))
    (ha : { y with queue := q }.Acts p y') (hb : y.bus.current = none) (ho : y.owed = e :: rest) :
    (y'.bus.current = none ∧ y'.owed = e :: rest) ∨
      (y'.bus.current = some (Forwarder.transfer e.1 e.2) ∧ y'.owed = rest) := by
  obtain ⟨hbefore, ks, hks, hrest⟩ := eq_cons_of_flatMap (List.pairwise_lt_finRange n) ho
  -- The forwarder of the first job is due, so that no later agent has its turn now.
  have hslot : p.slot ≤ (e.1 : Nat) := by
    obtain ⟨-, htimed⟩ := WakeQueue.timed_fetch hq hy.timed
    obtain ⟨-, hpending⟩ := WakeQueue.fetch_eq_some hq
    have hdue : (y.now, .forwarder e.1) ∈ y.queue.pending := by
      obtain hs | hs | ⟨-, hs⟩ := hy.sends e.1
      · cases hks.symm.trans (hy.sound.resting e.1 hs)
      · exact hs
      · exact absurd hb hs
    rw [hpending, List.mem_cons] at hdue
    obtain he | he := hdue
    · rw [← (Prod.mk.inj he).2]
      exact Nat.le_refl _
    · have hnow : q.now = y.now := WakeQueue.now_of_fetch hq
      rw [← hnow] at he
      have hlt : p.slot + 1 ≤ (e.1 : Nat) := htimed.later _ he
      omega
  have hlt : (e.1 : Nat) < n := e.1.isLt
  cases ha with
  | rest => exact .inl ⟨hb, (owed_congr (queue_putForwarder _ (by rfl) _)).trans ho⟩
  | @send i k ks' hi _ _ =>
    have hi : y.forwarders[i].queue = k :: ks' := hi
    have hie : i = e.1 := by
      obtain hx | hx := lt_or_eq_of_le (Fin.le_def.mpr hslot : i ≤ e.1)
      · cases hi.symm.trans (hbefore i (List.mem_finRange i) hx)
      · exact hx
    subst hie
    obtain ⟨rfl, rfl⟩ := List.cons.inj (hi.symm.trans hks)
    refine .inr ⟨?_, ?_⟩
    · show some (⟨_, .cache y.forwarders[e.1].source, _, _, _⟩ : Transfer) = _
      rw [hy.sound.source e.1]
      rfl
    · rw [← hrest, owed]
      refine List.flatMap_congr fun j _ => ?_
      congr 1
      exact congrFun (map_put Forwarder.queue y.forwarders e.1 _) j
  | hold _ hx _ => exact absurd hb hx
  | _ =>
    simp only [Agent.slot] at hslot
    omega

theorem owed_within (h₀ : Awake 0 m) (h : m.Within l x) (hb : m.bus.current = none)
    (ho : m.owed = e :: rest) (hover : ∀ e ∈ x.queue.pending, x.now < e.1) :
    x.bus.current = some (Forwarder.transfer e.1 e.2) ∧ x.owed = rest := by
  obtain ⟨k, hx, hp, -⟩ := h.induct h₀
    (P := fun _ y => (y.bus.current = none ∧ y.owed = e :: rest) ∨
      (y.bus.current = some (Forwarder.transfer e.1 e.2) ∧ y.owed = rest)) (.inl ⟨hb, ho⟩)
    fun {k y p q y'} hy hp hq _ ha ht => by
      obtain ⟨hb, ho⟩ | ⟨hb, ho⟩ := hp
      · exact owed_turn hy hq ha hb ho
      · have hne : y.bus.current ≠ none := by
          rw [hb]
          exact nofun
        exact .inr ⟨ht.current_eq hb, (owed_congr (ha.queue_eq (.inl hne))).trans ho⟩
  -- A job that were still owed would be due.
  refine hp.resolve_left fun ⟨hb, ho⟩ => ?_
  obtain ⟨-, ks, hks, -⟩ := eq_cons_of_flatMap (List.pairwise_lt_finRange n) ho
  obtain hs | hs | ⟨-, hs⟩ := hx.sends e.1
  · cases hks.symm.trans (hx.sound.resting e.1 hs)
  · exact absurd (hover _ hs) (Nat.lt_irrefl _)
  · exact hs hb

theorem queue_within (h₀ : Awake 0 m) (h : m.Within l x) (hb : m.bus.current = none)
    {u : Transfer} (hu : x.bus.current = some u) (hf : u.func.isRequest) (j : Fin n) :
    x.forwarders[j].queue = [] := by
  obtain ⟨k, -, hp, -⟩ := h.induct h₀
    (P := fun _ y => ∀ t, y.bus.current = some t → t.func.isRequest →
      ∀ j : Fin n, y.forwarders[j].queue = [])
    (fun t ht => nomatch hb.symm.trans ht) fun {k y p q y'} hy hp hq _ ha ht t hc hr j => by
      obtain he | ⟨hn, w, hw, -, hcache⟩ := ht.drives
      · have hc : y.bus.current = some t := he.symm.trans hc
        have hne : y.bus.current ≠ none := by
          rw [hc]
          exact nofun
        exact (ha.queue_eq (.inl hne) j).trans (hp t hc hr j)
      · cases hw.symm.trans hc
        obtain ⟨i, rfl, -⟩ := hcache hr
        have hslot : n ≤ (Agent.cache i).slot := by
          simp only [Agent.slot]
          omega
        exact (ha.queue_eq (.inr hslot) j).trans (hy.queue_eq_nil hq hslot hn j)
  exact hp u hu hf j

end Cycle

/-! ## Rounds -/

section Rounds

variable {m m' x : Machine g n} {t t' : Nat} {l : List (Agent (Fin n))}

/-- **A round sends the first job that is owed**, in the very next cycle. -/
theorem owed_round {e : Fin n × ForwardJob} {rest : List (Fin n × ForwardJob)} (h : Ready t m)
    (ho : m.owed = e :: rest) (ht : m.queue.nextTime = some t') (hr : m.Round t' l x m') :
    t' = t ∧ m'.bus.current = some (Forwarder.transfer e.1 e.2) ∧ m'.owed = rest := by
  have hwait : (t, .forwarder e.1) ∈ m.queue.pending := by
    obtain ⟨-, ks, hks, -⟩ := eq_cons_of_flatMap (List.pairwise_lt_finRange n) ho
    refine (h.sends e.1).resolve_left fun hp => ?_
    cases hks.symm.trans (h.sound.resting e.1 hp)
  have h₀ := awake_started h ht
  obtain ⟨hc, ho'⟩ := owed_within h₀ hr.within rfl ho hr.later
  obtain ⟨k, hx, -⟩ := hr.within.awake h₀
  have hread : (Forwarder.transfer e.1 e.2).func ≠ .read :=
    Func.ne_of_isAnswer (Bus.isAnswer_forwardFunc e.2.state) rfl
  refine ⟨?_, ?_, ?_⟩
  · obtain ⟨y, hy, rfl⟩ := WakeQueue.mem_of_nextTime ht
    exact Nat.le_antisymm (WakeQueue.nextTime_le ht h.sorted _ hwait) (h.later y hy)
  · exact hr.aired.current_eq.trans hc
  · rw [← ho']
    refine owed_congr fun j => ?_
    rw [hr.aired.forwarders j, handed_eq_none hc hx.sound hread j]
    rfl

/-- **What is owed is sent job by job**, one in each cycle. -/
theorem owed_plays {log : List (Nat × Option Transfer)} (h : Ready t m) (hl : m.Plays log m')
    {i : Nat} {e : Fin n × ForwardJob} {c : Nat × Option Transfer} (he : m.owed[i]? = some e)
    (hc : log[i]? = some c) : c = (t + i, some (Forwarder.transfer e.1 e.2)) := by
  obtain ⟨-, -, -, hlog⟩ := hl.induct h (P := fun t' log m' =>
    (log.length ≤ m.owed.length → t' = t + log.length ∧ m'.owed = m.owed.drop log.length) ∧
    ∀ i e c, m.owed[i]? = some e → log[i]? = some c →
      c = (t + i, some (Forwarder.transfer e.1 e.2))) ⟨fun _ => ⟨rfl, rfl⟩, nofun⟩
    fun {t₁ log y t' l x y'} hready ⟨hstate, hlog⟩ ht hr => by
      by_cases hlt : log.length < m.owed.length
      · obtain ⟨rfl, ho⟩ := hstate (Nat.le_of_lt hlt)
        rw [List.drop_eq_getElem_cons hlt] at ho
        obtain ⟨rfl, hdriven, ho'⟩ := owed_round hready ho ht hr
        refine ⟨fun _ => ?_, fun i e c he hi => ?_⟩
        · rw [List.length_append, List.length_singleton]
          exact ⟨rfl, ho'⟩
        · obtain hil | hil | hil := Nat.lt_trichotomy i log.length
          · rw [List.getElem?_append_left hil] at hi
            exact hlog i e c he hi
          · subst hil
            rw [List.getElem?_append_right (Nat.le_refl _), Nat.sub_self] at hi
            obtain rfl := Option.some.inj hi
            obtain rfl := Option.some.inj ((List.getElem?_eq_getElem hlt).symm.trans he)
            rw [hdriven]
          · rw [List.getElem?_eq_none (by simp; omega)] at hi
            cases hi
      · refine ⟨fun hle => ?_, fun i e c he hi => ?_⟩
        · rw [List.length_append, List.length_singleton] at hle
          omega
        · obtain ⟨hil, -⟩ := List.getElem?_eq_some_iff.mp he
          rw [List.getElem?_append_left (by omega)] at hi
          exact hlog i e c he hi
  exact hlog i e c he hc

end Rounds

/-- **A burst of forwards is not interrupted.** When a read is driven, every forwarder has been
empty since it was granted. The caches that have something to tell hand back one job each, and the
first peer with data is the only one whose job carries data. Whatever runs then, the next cycles
drive these jobs and nothing else, one in each cycle, by the numbers of their caches. -/
theorem forward_burst {spec : Spec} {programs : List Program} {g : Geometry}
    {m₀ m m' : Machine g programs.length} {l : List Transfer} {r : Except SimError Bool}
    {u : Transfer} (h : ofSpec spec programs = .ok ⟨g, m₀⟩) (hr : m₀.Reaches l m)
    (hs : m.step = .ok (r, m')) (hran : ran r) (hu : m'.bus.current = some u)
    (hf : u.func = .read) :
    (∀ turns y p q y', (m.started m'.now).Within turns y →
      y.queue.fetch = .ok (some (p, q)) → { y with queue := q }.runAgent p = .ok y' →
      y.bus.current = none → y'.bus.current = some u →
      ∀ j : Fin programs.length, y.forwarders[j].queue = []) ∧
    ∃ turns x, (m.started m'.now).Within turns x ∧ x.queue.fetch = .ok none ∧
      x.broadcast = .ok m' ∧
      (∀ j : Fin programs.length, m'.forwarders[j].queue = (x.handed j).toList) ∧
      (∀ j, (∃ k, x.handed j = some k ∧ k.data.isSome) ↔
        x.Offers u j ∧ ∀ i < j, ¬ x.Offers u i) ∧
      ∀ log m'', m'.Plays log m'' → ∀ i e c, x.handedBack[i]? = some e → log[i]? = some c →
        c = (m'.now + 1 + i, some (Forwarder.transfer e.1 e.2)) := by
  obtain ⟨t, hready⟩ := ready_of_ofSpec h hr
  obtain ⟨hnot, -⟩ | ⟨-, -, t', turns, x, ht', hround, hready', hnow⟩ :=
    (yields_step hready).of_eq_ok hs
  · cases hnot.symm.trans hran
  obtain rfl : m'.now = t' := hnow
  have h₀ := awake_started hready ht'
  have hreq : u.func.isRequest := by rw [hf]; rfl
  obtain ⟨k, hx, -⟩ := hround.within.awake h₀
  have hc : x.bus.current = some u := hround.aired.current_eq.symm.trans hu
  have hempty := queue_within h₀ hround.within rfl hc hreq
  refine ⟨fun turns y p q y' hy hq hr hb hb' j => ?_, turns, x, hround.within, ?_, hround.shown,
    fun j => ?_, isSome_data_handed hc hx.sound hx.quiet.2 hf, fun log m'' hlog i e c he hi => ?_⟩
  · obtain ⟨k, hy, -⟩ := hy.awake h₀
    obtain he | ⟨-, w, hw, -, hcache⟩ := (hy.took hq hr).drives
    · cases (he.trans hb).symm.trans hb'
    · cases hw.symm.trans hb'
      obtain ⟨i, rfl, -⟩ := hcache hreq
      exact hy.queue_eq_nil hq (by simp only [Agent.slot]; omega) hb j
  · exact hround.fetch_eq_none h₀
  · exact hround.aired.queue_eq hempty j
  · rw [← owed_eq_handedBack (hround.aired.queue_eq hempty)] at he
    exact owed_plays hready' hlog he hi

/-- Three cores read the same line. -/
def trioPrograms : List Program :=
  [[.read ⟨0⟩], [.read ⟨0⟩], [.read ⟨0⟩]]

/-- Three caches like those of `tiny`. -/
def trio : Machine tinyGeometry trioPrograms.length :=
  boot _ tinySpec ⟨trioPrograms.toArray, rfl⟩

theorem ofSpec_trio : ofSpec tinySpec trioPrograms = .ok ⟨_, trio⟩ := rfl

/-- The first core has the line when the second one reads it, and the third one waits for it: the
data come in the next cycle, and the notice in the one after it. -/
theorem forward_burst_trio : ∃ m l r m' u, trio.Reaches l m ∧ m.step = .ok (r, m') ∧
    m'.bus.current = some u ∧ u.func = .read ∧ (m'.now = 5 ∧
      m'.owed.map (fun e => ((e.1 : Nat), e.2.data.isSome)) = [(0, true), (2, false)]) ∧
    ∀ log m'', m'.Plays log m'' → ∀ i e c, m'.owed[i]? = some e → log[i]? = some c →
      c = (5 + 1 + i, some (Forwarder.transfer e.1 e.2)) := by
  obtain ⟨m, l, hr, hm⟩ := exists_reaches trio 5
    (fun m => m.step.toOption.any fun y => ran y.1 ∧ y.2.bus.current.any (·.func = .read) ∧
      y.2.now = 5 ∧
      y.2.owed.map (fun e => ((e.1 : Nat), e.2.data.isSome)) = [(0, true), (2, false)])
    (by decide +kernel)
  cases hs : m.step with
  | error f =>
    rw [hs] at hm
    cases hm
  | ok y =>
    obtain ⟨r, m'⟩ := y
    rw [hs] at hm
    obtain ⟨hran, hread, hnow, howed⟩ := of_decide_eq_true hm
    obtain ⟨u, hu, hf⟩ := (Option.any_eq_true _ _).mp hread
    have hf : u.func = .read := of_decide_eq_true hf
    obtain ⟨-, turns, x, -, -, -, hqueue, -, hburst⟩ :=
      forward_burst ofSpec_trio hr hs hran hu hf
    rw [hnow, ← owed_eq_handedBack hqueue] at hburst
    exact ⟨m, l, r, m', u, hr, hs, hu, hf, ⟨hnow, howed⟩, hburst⟩

end Machine

end Snooping
