import Snooping.Proofs.Machine.Schedule
import Snooping.Proofs.Machine.Timeline
import Snooping.Proofs.Machine.View

/-!
# The turn of an agent

Every turn is a step of the protocol or none, and leaves a request of its cache, an answer, or
nothing on the bus. Whoever has more to do asks to be woken.

* `Machine.Advance`: what a turn is for the protocol and for the requests that end.
* **`Machine.Took`**: what a turn does.
* `Machine.took_forwarder`, `Machine.took_memory`, `Machine.took_core`, `Machine.took_cache`,
  **`Machine.took_runAgent`**: every turn does it.
-/

namespace Snooping

variable {g : Geometry} {n : Nat}

namespace Machine

/-- What a turn is for the protocol and for the requests that end. -/
inductive Advance (m : Machine g n) (p : Agent (Fin n)) (m' : Machine g n) : Prop
  | still (hv : m'.view = m.view) (he : m'.entries = m.entries)
  | turn (ht : m.view.Turn none m'.view) (he : m'.entries = m.entries)
  | finish {i : Fin n} {r : Request} {hit : Bool} (hp : p = .cache i)
      (ht : m.view.Turn (some r) m'.view) (hd : (m.view.copy i r.addr).1.hasData)
      (he : m'.entries.Perm
        (⟨i, ⟨r, r.result (m.view.copy i r.addr).2, hit, m.now⟩⟩ :: m.entries))

/-- **What a turn does.** -/
structure Took (m : Machine g n) (p : Agent (Fin n)) (m' : Machine g n) : Prop where
  sound : m'.Sound
  spec : m'.spec = m.spec
  band : m.bus.SameBand m'.bus
  now : m'.now = m.now
  timed : m'.queue.Timed (p.slot + 1)
  waits : ∀ e ∈ m.queue.pending, e ∈ m'.queue.pending
  drives : m'.bus.current = m.bus.current ∨ (m.bus.current = none ∧
    ∃ t, m'.bus.current = some t ∧ t.func ≠ .nothing ∧
      (t.func.isRequest → ∃ i : Fin n, p = .cache i ∧ t.requester = i))
  sends : ∀ j : Fin n, (p ≠ .forwarder j ∧ m'.forwarders[j] = m.forwarders[j]) ∨
    (p = .forwarder j ∧ (m'.forwarders[j].parked ∨
      ((m.now + 1, p) ∈ m'.queue.pending ∧ m'.bus.current ≠ none)))
  takes : ∀ (j : Fin n) a, m'.caches[j].stage = .taken a →
    (p ≠ .cache j ∧ m.caches[j].stage = .taken a) ∨
      (p = .cache j ∧ m'.view.Fresh j ∧ (m.now + 1, p) ∈ m'.queue.pending)
  advance : m.Advance p m'

/-! ## Going on -/

theorem reschedule_cases {m m' : Machine g n} {p : Agent (Fin n)} {next : Next}
    (h : m.reschedule p next = .ok m') :
    (∃ d, next = .after d ∧ m' = { m with queue := m.queue.add (m.now + d) p }) ∨
      ((∀ d, next ≠ .after d) ∧ m' = m) := by
  unfold reschedule at h
  cases next with
  | after d =>
    dsimp only at h
    cases hs : m.queue.send d p with
    | error f =>
      rw [hs] at h
      cases h
    | ok q =>
      rw [hs] at h
      cases h
      rw [WakeQueue.send_eq_ok hs]
      exact .inl ⟨d, rfl, rfl⟩
  | park | halt =>
    cases h
    exact .inr ⟨fun _ => Next.noConfusion, rfl⟩

theorem pos_of_after_one (d : Nat) (h : Next.after 1 = .after d) : 0 < d := by
  cases h
  exact Nat.one_pos

/-- What becomes of the queue. -/
structure Waits (m m' : Machine g n) (k : Nat) : Prop where
  now : m'.now = m.now
  timed : m'.queue.Timed k
  waits : ∀ e ∈ m.queue.pending, e ∈ m'.queue.pending

theorem waits_add {m : Machine g n} {k t : Nat} (h : m.queue.Timed k) (p : Agent (Fin n))
    (ht : m.now < t ∨ (m.now = t ∧ k ≤ p.slot)) :
    m.Waits { m with queue := m.queue.add t p } k where
  now := rfl
  timed := WakeQueue.timed_add h ht
  waits _ he := WakeQueue.mem_add.mpr (.inr he)

theorem reschedule_eq {m m' : Machine g n} {k : Nat} {p : Agent (Fin n)} {next : Next}
    (h : m.queue.Timed k) (hd : ∀ d, next = .after d → 0 < d)
    (hr : m.reschedule p next = .ok m') :
    ∃ q, m' = { m with queue := q } ∧ m.Waits m' k ∧
      ∀ d, next = .after d → (m.now + d, p) ∈ q.pending := by
  obtain ⟨d, hn, rfl⟩ | ⟨hn, rfl⟩ := reschedule_cases hr
  · have hd := hd d hn
    refine ⟨_, rfl, waits_add h p (.inl (by omega)), fun e he => ?_⟩
    cases hn.symm.trans he
    exact WakeQueue.mem_add.mpr (.inl rfl)
  · exact ⟨m'.queue, rfl, ⟨rfl, h, fun _ he => he⟩, fun d hd => absurd hd (hn d)⟩

end Machine

/-! ## Forwarders -/

/-- What a forwarder does: it has nothing to send, it sends its first job, or it waits for the
bus. -/
inductive Forwarder.Work (f : Forwarder) (bus : Bus) : Next × Forwarder × Bus → Prop
  | rest (hq : f.queue = []) : Work f bus (.park, { f with parked := true }, bus)
  | send {k : ForwardJob} {rest : List ForwardJob} {bus' : Bus} (hq : f.queue = k :: rest)
      (hb : bus.current = none) (hb' : bus'.current =
        some ⟨k.dest, .cache f.source, k.addr.line, Bus.forwardFunc k.state, k.data⟩)
      (hs : bus.SameBand bus') :
      Work f bus (.after 1, { f with queue := rest, sent := f.sent + 1 }, bus')
  | wait {bus' : Bus} (hq : f.queue ≠ []) (hb : bus.current ≠ none)
      (hb' : bus'.current = bus.current) (hs : bus.SameBand bus') : Work f bus (.after 1, f, bus')

theorem Forwarder.work_tick (f : Forwarder) (bus : Bus) : f.Work bus (f.tick bus) := by
  cases hq : f.queue with
  | nil =>
    have he : f.tick bus = (.park, { f with parked := true }, bus) := by simp only [tick, hq]
    rw [he]
    exact .rest hq
  | cons k rest =>
    obtain ⟨bus', hs, ⟨he, hb, hb'⟩ | ⟨he, hb, hb'⟩⟩ :=
      bus.forward_cases k.dest f.source k.addr k.state k.data
    · simp only [tick, hq, he, if_true]
      exact .send hq hb hb' hs
    · simp only [tick, hq, he, Bool.false_eq_true, if_false]
      exact .wait (by rw [hq]; exact List.cons_ne_nil k rest) hb hb' hs

namespace Machine

section Forwarder

variable {m m' : Machine g n} {i : Fin n} (h : m.Sound)
  (ht : m.queue.Timed (Agent.slot (.forwarder i) + 1))

include h ht

theorem took_putForwarder {f : Forwarder} {bus : Bus} {next : Next}
    (hr : (m.putForwarder i f bus).reschedule (.forwarder i) next = .ok m')
    (hf : f.source = m.forwarders[i].source) (hpark : f.parked → f.queue = [])
    (hband : m.bus.SameBand bus) (hnext : ∀ d, next = .after d → 0 < d)
    (hdrives : bus.current = m.bus.current ∨ (m.bus.current = none ∧
      ∃ t, bus.current = some t ∧ t.func ≠ .nothing ∧ t.func.isRequest = false))
    (hsends : f.parked ∨ (next = .after 1 ∧ bus.current ≠ none))
    (hv : (m.putForwarder i f bus).view = m.view ∨
      m.view.Turn none (m.putForwarder i f bus).view) : m.Took (.forwarder i) m' := by
  have hs := h.putForwarder hf hpark bus
  obtain ⟨q, rfl, hw, hp⟩ := reschedule_eq (m := m.putForwarder i f bus) ht hnext hr
  refine ⟨hs.congr rfl rfl rfl rfl, rfl, hband, hw.now, hw.timed, hw.waits, ?_, fun j => ?_,
    fun j a hj => .inl ⟨by simp, hj⟩, ?_⟩
  · refine hdrives.imp_right fun ⟨hb, t, hb', hn, hx⟩ => ⟨hb, t, hb', hn, fun hq => ?_⟩
    exact absurd (hx.symm.trans hq) Bool.false_ne_true
  · by_cases hj : j = i
    · subst hj
      refine .inr ⟨rfl, hsends.imp (fun hx => ?_) fun ⟨hn, hb⟩ => ⟨hp 1 hn, hb⟩⟩
      show ((m.forwarders.put j f)[j]).parked
      rwa [Vector.getElem_put_self]
    · exact .inl ⟨fun e => hj (Agent.forwarder.inj e).symm, Vector.getElem_put_of_ne _ _ hj⟩
  · exact hv.elim (fun hv => .still hv rfl) fun hv => .turn hv rfl

theorem took_forwarder (hr : m.runForwarder i = .ok m') : m.Took (.forwarder i) m' := by
  have hwork := m.forwarders[i].work_tick m.bus
  unfold runForwarder at hr
  generalize m.forwarders[i].tick m.bus = x at hr hwork
  cases hwork with
  | rest hq =>
    have hv := m.view_putForwarder i { m.forwarders[i] with parked := true } m.bus
    refine took_putForwarder h ht hr rfl (fun _ => hq) (.refl _) (fun d hd => by cases hd)
      (.inl rfl) (.inl rfl) (.inl (hv.trans ?_))
    have hjobs : m.forwarders[i].queue.filter ForwardJob.isData = m.view.jobs i := rfl
    rw [hjobs, Function.update_eq_self]
    rfl
  | @send k rest bus' hq hb hb' hs =>
    have hpark : m.forwarders[i].parked → rest = [] := fun hx => by
      cases (h.resting i hx).symm.trans hq
    refine took_putForwarder h ht hr rfl hpark hs pos_of_after_one (.inr ⟨hb, _, hb', ?_, ?_⟩)
      (.inr ⟨rfl, fun hx => by cases hb'.symm.trans hx⟩) (.inr ?_)
    · dsimp only [Bus.forwardFunc]
      split_ifs <;> exact Func.noConfusion
    · dsimp only [Bus.forwardFunc]
      split_ifs <;> rfl
    · set f := { m.forwarders[i] with queue := rest, sent := m.forwarders[i].sent + 1 } with hf
      have hv := m.view_putForwarder i f bus'
      rw [hb', h.source i] at hv
      have hjobs : m.view.jobs i = (k :: rest).filter ForwardJob.isData := by
        rw [← hq]
        rfl
      by_cases hd : k.isData
      · have hfunc : Bus.forwardFunc k.state = .response := if_neg (of_decide_eq_true hd)
        rw [List.filter_cons_of_pos hd] at hjobs
        rw [hfunc] at hv
        exact (congrArg (m.view.Turn none) hv).mpr (.forward hb hjobs)
      · have hk : k.state = .requested := not_not.mp (mt decide_eq_true hd)
        have hfunc : Bus.forwardFunc k.state = .requested := if_pos hk
        rw [List.filter_cons_of_neg hd] at hjobs
        have hsame : f.queue.filter ForwardJob.isData = m.view.jobs i := hjobs.symm
        rw [hfunc, hsame, Function.update_eq_self] at hv
        exact (congrArg (m.view.Turn none) hv).mpr (.notice hb rfl)
  | @wait bus' hq hb hb' hs =>
    have hv := m.view_putForwarder i m.forwarders[i] bus'
    refine took_putForwarder h ht hr rfl (h.resting i) hs pos_of_after_one (.inl hb')
      (.inr ⟨rfl, fun hx => hb (hb'.symm.trans hx)⟩) (.inl (hv.trans ?_))
    have hjobs : m.forwarders[i].queue.filter ForwardJob.isData = m.view.jobs i := rfl
    rw [hb', hjobs, Function.update_eq_self]
    rfl

end Forwarder

/-! ## Memory -/

theorem took_memory {m m' : Machine g n} (h : m.Sound)
    (ht : m.queue.Timed ((Agent.memory : Agent (Fin n)).slot + 1)) (hr : m.runMemory = .ok m') :
    m.Took .memory m' := by
  unfold runMemory at hr
  cases hx : m.memory.tick m.bus m.now with
  | error f =>
    rw [hx] at hr
    cases hr
  | ok x =>
    obtain ⟨next, memory, bus⟩ := x
    rw [hx] at hr
    obtain ⟨hwork, hsound, hspec, hband, hnext⟩ := Memory.tick_cases h.memory hx
    obtain ⟨q, rfl, hw, -⟩ := reschedule_eq (m := { m with memory := memory, bus := bus }) ht
      hnext hr
    have hcap : memory.store.capacity = m.memory.store.capacity := by
      cases hwork with
      | wait hs _ => rw [hs.store]
      | capture _ _ _ _ hs _ => rw [hs]
      | @answer t _ _ _ _ _ hs _ =>
        rw [hs]
        exact m.memory.capacity_served t
    have hlands : memory.lands = m.memory.lands := by
      funext a
      simp only [Memory.lands, hcap]
    have hs : Sound { m with memory := memory, bus := bus } :=
      ⟨h.number, h.source, h.tidy, h.resting, hsound, hcap.trans h.capacity⟩
    refine ⟨hs.congr rfl rfl rfl rfl, rfl, hband, hw.now, hw.timed, hw.waits, ?_,
      fun j => .inl ⟨by simp, rfl⟩, fun j a hj => .inl ⟨by simp, hj⟩, ?_⟩
    · cases hwork with
      | wait _ hb => exact .inl hb
      | capture _ _ _ _ _ hb => exact .inl hb
      | answer hb _ _ _ _ hb' => exact .inr ⟨hb, _, hb', by simp, fun hx => Bool.noConfusion hx⟩
    · cases hwork with
      | wait hs hb =>
        refine .still ?_ rfl
        simp only [view, hs.pending, hs.captured, hlands, hb]
        congr 1
        funext a
        simp only [Memory.readBlock, hs.store]
      | @capture t rest hp hf hp' hc hs hb =>
        refine .turn ((congrArg (m.view.Turn none) ?_).mpr (.capture hp hf)) rfl
        simp only [view, hp', hc, hlands, hb]
        congr 1
        funext a
        simp only [Memory.readBlock, hs]
      | @answer t rest hb hp hp' hc hs hb' =>
        refine .turn ((congrArg (m.view.Turn none) ?_).mpr (.answer hb hp)) rfl
        simp only [view, View.answer, hp', hc, hlands, hb']
        congr 1
        funext a
        simp only [Memory.readBlock, hs]
        exact m.memory.readBlock_served t a

end Machine

/-! ## Cores -/

theorem Core.completed_tick (c : Core) (now : Nat) : (c.tick now).2.completed = c.completed := by
  unfold tick
  split <;> rfl

theorem Core.after_tick {c : Core} {now d : Nat} (h : (c.tick now).1 = .wait (.after d)) :
    0 < d := by
  unfold tick at h
  split at h
  · cases h
  · cases h
  · cases h
  · cases h
    exact duration_pos _

namespace Machine

theorem entries_tick (m : Machine g n) (i : Fin n) (caches : Vector (Cache g) n)
    (queue : WakeQueue (Agent (Fin n))) :
    { m with
      cores := m.cores.put i (m.cores[i].tick m.now).2
      caches := caches
      queue := queue }.entries = m.entries := by
  refine entries_congr fun j => ?_
  show (m.cores.put i (m.cores[i].tick m.now).2)[j].completed = _
  by_cases hj : j = i
  · subst hj
    rw [Vector.getElem_put_self, Core.completed_tick]
  · rw [Vector.getElem_put_of_ne _ _ hj]

theorem took_core {m m' : Machine g n} {i : Fin n} (h : m.Sound)
    (ht : m.queue.Timed (Agent.slot (.core i) + 1)) (hr : m.runCore i = .ok m') :
    m.Took (.core i) m' := by
  have he := m.entries_tick i
  have hafter : ∀ d, (m.cores[i].tick m.now).1 = .wait (.after d) → 0 < d := fun d =>
    Core.after_tick
  unfold runCore at hr
  generalize m.cores[i].tick m.now = x at hr he hafter
  obtain ⟨turn, core⟩ := x
  cases turn with
  | wait next =>
    obtain ⟨q, rfl, hw, -⟩ := reschedule_eq (m := { m with cores := m.cores.put i core }) ht
      (fun d hd => hafter d (hd ▸ rfl)) hr
    exact ⟨h.congr rfl rfl rfl rfl, rfl, .refl _, hw.now, hw.timed, hw.waits, .inl rfl,
      fun j => .inl ⟨by simp, rfl⟩, fun j a hj => .inl ⟨by simp, hj⟩, .still rfl (he m.caches q)⟩
  | issue r =>
    dsimp only at hr
    cases hc : m.caches[i].submit r with
    | error f =>
      simp only [hc, bind, Except.bind] at hr
      cases hr
    | ok c =>
      simp only [hc, bind, Except.bind] at hr
      cases hq : m.queue.schedule m.queue.now (.cache i) with
      | error f =>
        simp only [Machine.now, hq] at hr
        cases hr
      | ok q =>
        simp only [Machine.now, hq] at hr
        cases hr
        obtain ⟨hidle, hworks, hcopy⟩ := Cache.stage_submit (h.tidy i).distinct hc
        have hs := h.putCache (Cache.tidy_submit (h.tidy i) hc) (Cache.id_submit hc) m.bus
        have hw := waits_add (m := m) ht (.cache i) (.inr ⟨rfl, by simp only [Agent.slot]; omega⟩)
        rw [WakeQueue.schedule_eq_ok hq]
        refine ⟨hs.congr rfl rfl rfl rfl, rfl, .refl _, hw.now, hw.timed, hw.waits, .inl rfl,
          fun j => .inl ⟨by simp, rfl⟩, fun j a hj => .inl ⟨by simp, ?_⟩, .turn ?_ (he _ _)⟩
        · change (m.caches.put i c)[j].stage = _ at hj
          by_cases hji : j = i
          · subst hji
            rw [Vector.getElem_put_self] at hj
            cases hworks.symm.trans hj
          · rwa [Vector.getElem_put_of_ne _ _ hji] at hj
        · have hv := m.view_putCache i c m.bus
          rw [hworks, hcopy] at hv
          exact (congrArg (m.view.Turn none) hv).mpr (.work (.inl hidle))

/-! ## Caches -/

section Cache

variable {m m' : Machine g n} {i : Fin n} (h : m.Sound)
  (ht : m.queue.Timed (Agent.slot (.cache i) + 1))

include h ht

theorem took_putCache {c : Cache g} {bus : Bus} {next : Next}
    (hr : (m.putCache i c bus).reschedule (.cache i) next = .ok m') (hc : c.Tidy)
    (hi : c.id = m.caches[i].id) (hband : m.bus.SameBand bus)
    (hnext : ∀ d, next = .after d → 0 < d)
    (hdrives : bus.current = m.bus.current ∨ (m.bus.current = none ∧
      ∃ t, bus.current = some t ∧ t.func.isRequest ∧ t.requester = i))
    (htakes : ∀ a, c.stage = .taken a → (m.putCache i c bus).view.Fresh i ∧ next = .after 1)
    (hv : (m.putCache i c bus).view = m.view ∨ m.view.Turn none (m.putCache i c bus).view) :
    m.Took (.cache i) m' := by
  have hs := h.putCache hc hi bus
  obtain ⟨q, rfl, hw, hp⟩ := reschedule_eq (m := m.putCache i c bus) ht hnext hr
  refine ⟨hs.congr rfl rfl rfl rfl, rfl, hband, hw.now, hw.timed, hw.waits, ?_,
    fun j => .inl ⟨by simp, rfl⟩, fun j a hj => ?_, ?_⟩
  · refine hdrives.imp_right fun ⟨hb, t, hb', hf, hi⟩ =>
      ⟨hb, t, hb', fun hx => ?_, fun _ => ⟨i, rfl, hi⟩⟩
    rw [hx] at hf
    cases hf
  · change (m.caches.put i c)[j].stage = _ at hj
    by_cases hji : j = i
    · subst hji
      rw [Vector.getElem_put_self] at hj
      obtain ⟨hf, hn⟩ := htakes a hj
      exact .inr ⟨rfl, hf, hp 1 hn⟩
    · rw [Vector.getElem_put_of_ne _ _ hji] at hj
      exact .inl ⟨fun e => hji (Agent.cache.inj e).symm, hj⟩
  · exact hv.elim (fun hv => .still hv rfl) fun hv => .turn hv rfl

theorem took_deliver {c : Cache g} {r : Request} {hit : Bool} (hc : c.Tidy)
    (hi : c.id = m.caches[i].id) (hd : (m.view.copy i r.addr).1.hasData) (hidle : c.stage = .idle)
    (hv : m.view.Turn (some r) (m.putCache i c m.bus).view)
    (hr : (m.putCache i c m.bus).deliver i
      (some ⟨r, r.result (m.view.copy i r.addr).2, hit, m.now⟩) = .ok m') :
    m.Took (.cache i) m' := by
  have hs := h.putCache hc hi m.bus
  unfold deliver at hr
  cases hq : m.queue.send 1 (.core i) with
  | error f =>
    simp only [putCache, hq, bind, Except.bind] at hr
    cases hr
  | ok q =>
    simp only [putCache, hq, bind, Except.bind] at hr
    cases hr
    have hw := waits_add (m := m) ht (.core i) (.inl (Nat.lt_succ_self m.now))
    rw [WakeQueue.send_eq_ok hq]
    refine ⟨hs.congr rfl rfl rfl rfl, rfl, .refl _, hw.now, hw.timed, hw.waits, .inl rfl,
      fun j => .inl ⟨by simp, rfl⟩, fun j a hj => .inl ?_,
      @Advance.finish _ _ m _ _ i r hit rfl hv hd (entries_push ?_ ?_)⟩
    · change (m.caches.put i c)[j].stage = _ at hj
      by_cases hji : j = i
      · subst hji
        rw [Vector.getElem_put_self, hidle] at hj
        cases hj
      · rw [Vector.getElem_put_of_ne _ _ hji] at hj
        exact ⟨fun e => hji (Agent.cache.inj e).symm, hj⟩
    · show (m.cores.put i (m.cores[i].receive _))[i].completed = _
      rw [Vector.getElem_put_self]
      rfl
    · intro j hj
      show (m.cores.put i (m.cores[i].receive _))[j].completed = _
      rw [Vector.getElem_put_of_ne _ _ hj]

/-- **The turn of a cache** when nobody owes anything on a free bus, and when what the cache has
driven was looked at. -/
theorem took_cache {value : Addr → Block} (hv : m.view.Coherent value) (hf : ¬ m.view.Fresh i)
    (hj : m.bus.current = none → ∀ j, m.view.jobs j = []) (hr : m.runCache i = .ok m') :
    m.Took (.cache i) m' := by
  have hmove := Cache.move_tick (h.tidy i) m.bus m.now fun r hs => (hv.exclusive r).taken i hs
  have htidy := Cache.tidy_tick (h.tidy i) m.bus m.now
  have hid := Cache.id_tick m.caches[i] m.bus m.now
  have hfree : ∀ {tier}, m.bus.grants tier → m.view.current = none := fun hg =>
    Bus.current_eq_none_of_grants hg
  have hnum := h.number i
  unfold runCache at hr
  generalize m.caches[i].tick m.bus m.now = x at *
  cases hmove with
  | sleep hs =>
    have hr : (m.putCache i m.caches[i] m.bus).reschedule (.cache i) .park = .ok m' := hr
    refine took_putCache h ht hr htidy hid (.refl _) (fun d hd => by cases hd) (.inl rfl)
      (fun a ha => ?_) (.inl ((m.view_putCache i _ m.bus).trans (m.view.set_self i)))
    obtain hs | ⟨f, b, hs⟩ := hs <;> cases hs.symm.trans ha
  | @think c bus hb hs hs' hc =>
    have hr : (m.putCache i c bus).reschedule (.cache i) (.after 1) = .ok m' := hr
    have hcur : bus.current = m.bus.current ∧ m.bus.SameBand bus := by
      obtain rfl | rfl := hb <;> exact ⟨rfl, rfl, rfl⟩
    have he := m.view_putCache i c bus
    rw [hs', hc, hcur.1] at he
    refine took_putCache h ht hr htidy hid hcur.2 pos_of_after_one (.inl hcur.1) (fun a ha => ?_)
      (.inr ((congrArg (m.view.Turn none) he).mpr (.work (.inr hs))))
    cases hs'.symm.trans ha
  | @take c r hg hs hs' _ hd hc =>
    have hr : (m.putCache i c _).reschedule (.cache i) (.after 1) = .ok m' := hr
    have he := m.view_putCache i c (m.bus.drive ⟨i, .cache i, r.addr.line, .invalidate, none⟩)
    rw [hs', hc] at he
    rw [hnum] at hr
    refine took_putCache h ht hr htidy hid ⟨rfl, rfl⟩ pos_of_after_one
      (.inr ⟨hfree hg, _, rfl, rfl, rfl⟩) (fun a _ => ⟨⟨_, rfl, rfl, rfl⟩, rfl⟩)
      (.inr ((congrArg (m.view.Turn none) he).mpr (.take (hfree hg) hs hd)))
  | @evict c u hg hs hs' hd hc =>
    have hr : (m.putCache i c _).reschedule (.cache i) .park = .ok m' := hr
    have he := m.view_putCache i c
      (m.bus.drive ⟨i, .cache i, u.line, .write, some (m.caches[i].copy u).2⟩)
    rw [hs', hc] at he
    rw [hnum] at hr
    refine took_putCache h ht hr htidy hid ⟨rfl, rfl⟩ (fun d hd => by cases hd)
      (.inr ⟨hfree hg, _, rfl, rfl, rfl⟩) (fun a ha => ?_)
      (.inr ((congrArg (m.view.Turn none) he).mpr (.evict (hfree hg) hs hd)))
    cases hs'.symm.trans ha
  | @ask c r hs hs' hc =>
    have hr : (m.putCache i c m.bus.reject).reschedule (.cache i) (.after 1) = .ok m' := hr
    have he := m.view_putCache i c m.bus.reject
    rw [hs'] at he
    refine took_putCache h ht hr htidy hid ⟨rfl, rfl⟩ pos_of_after_one (.inl rfl) (fun a ha => ?_)
      (.inr ((congrArg (m.view.Turn none) he).mpr (.ask hs hc)))
    cases hs'.symm.trans ha
  | @fetch c r hg hs hs' hc =>
    have hr : (m.putCache i c _).reschedule (.cache i) .park = .ok m' := hr
    have he := m.view_putCache i c (m.bus.drive ⟨i, .cache i, r.line, .read, none⟩)
    rw [hs'] at he
    rw [hnum] at hr
    refine took_putCache h ht hr htidy hid ⟨rfl, rfl⟩ (fun d hd => by cases hd)
      (.inr ⟨hfree hg, _, rfl, rfl, rfl⟩) (fun a ha => ?_)
      (.inr ((congrArg (m.view.Turn none) he).mpr
        (.fetch (hfree hg) (hj (hfree hg)) hs hc)))
    cases hs'.symm.trans ha
  | @finish c r hit hs hs' hd hw ht' hc =>
    have hr : (m.putCache i c m.bus).deliver i
        (some ⟨r, r.result (m.view.copy i r.addr).2, hit, m.now⟩) = .ok m' := by
      dsimp only [bind, Except.bind] at hr
      split at hr
      · cases hr
      · next hx =>
        cases hr
        exact hx
    have he := m.view_putCache i c m.bus
    rw [hs'] at he
    exact took_deliver h ht htidy hid hd hs' ((congrArg (m.view.Turn (some r)) he).mpr
      (.finish hf hs hd hw ht' hc)) hr

end Cache

/-- **Every turn does what a turn does.** -/
theorem took_runAgent {m m' : Machine g n} {p : Agent (Fin n)} {value : Addr → Block} (h : m.Sound)
    (ht : m.queue.Timed (p.slot + 1)) (hv : m.view.Coherent value)
    (hf : ∀ i, p = .cache i → ¬ m.view.Fresh i)
    (hj : ∀ i, p = .cache i → m.bus.current = none → ∀ j, m.view.jobs j = [])
    (hr : m.runAgent p = .ok m') : m.Took p m' := by
  cases p with
  | forwarder i => exact took_forwarder h ht hr
  | memory => exact took_memory h ht hr
  | core i => exact took_core h ht hr
  | cache i => exact took_cache h ht hv (hf i rfl) (hj i rfl) hr

end Machine

end Snooping
