import Snooping.Proofs.Machine.Accounts

/-!
# Progress

Every cycle gets the machine on. In a cycle without a transfer each turn takes a request on by a
phase, an instruction off a program, or an agent to its rest; a transfer may wake everybody again,
and is worth more than that.

* `Bus.total`: all transfers.
* `Machine.effort`, `Machine.left`: how far the machine has come, and what is left of its programs.
* **`Machine.Awake.headway`**: what a turn comes to.
* **`Machine.Round.gains`**: a cycle gains more than it may lose by what it wakes, and turns away
  everybody but one at most.
-/

namespace Snooping

open Finset

variable {g : Geometry} {n : Nat}

/-! ## Transfers -/

/-- All transfers so far. -/
def Bus.total (b : Bus) : Nat := b.asked + b.answered

theorem Bus.total_drive (b : Bus) {t : Transfer} (h : t.func ≠ .nothing) :
    (b.drive t).total = b.total + 1 := by
  rw [total, total, asked_drive, answered_drive]
  revert h
  cases t.func <;> simp [Func.isRequest, Func.isAnswer] <;> omega

/-- Memory has begun to serve a request. -/
def Service.begun : Service → Bool
  | idle => false
  | busy _ _ | responding _ _ => true

/-- What is left of a program, and the look that finds it over. -/
def Core.left (c : Core) : Nat := c.program.length + (!c.isDone).toNat

namespace Machine

/-- **How far the machine has come.** A transfer is worth more than all that it may wake. -/
def effort (m : Machine g n) : Nat :=
  (n + 3) * m.bus.total + ∑ i : Fin n, m.caches[i].effort +
    ∑ i : Fin n, m.forwarders[i].parked.toNat + m.memory.parked.toNat +
    m.memory.service.begun.toNat

/-- What is left of the programs. -/
def left (m : Machine g n) : Nat := ∑ i : Fin n, m.cores[i].left

/-- The machine `m'` has come further than `m` by `d`. -/
def Gains (m m' : Machine g n) (d : Nat) : Prop := m.effort + m'.left + d ≤ m'.effort + m.left

theorem Gains.mono {m m' : Machine g n} {d e : Nat} (h : m.Gains m' d) (he : e ≤ d) :
    m.Gains m' e := Nat.le_trans (Nat.add_le_add_left he _) h

theorem Gains.trans {m₁ m₂ m₃ : Machine g n} {d e : Nat} (h : m₁.Gains m₂ d) (h' : m₂.Gains m₃ e) :
    m₁.Gains m₃ (d + e) := by
  unfold Gains at *
  omega

/-! ## Turns -/

section Put

variable {m m' : Machine g n} {i : Fin n} {d : Nat}

theorem gains_forwarder {f : Forwarder} (hf : m'.forwarders = m.forwarders.put i f)
    (hc : m'.caches = m.caches) (hm : m'.memory = m.memory) (hk : m'.cores = m.cores)
    (hd : (n + 3) * m.bus.total + m.forwarders[i].parked.toNat + d ≤
      (n + 3) * m'.bus.total + f.parked.toNat) : m.Gains m' d := by
  have hsum := sum_put m.forwarders i f fun f => f.parked.toNat
  unfold Gains effort left
  rw [hf, hc, hm, hk]
  omega

theorem gains_memory (hf : m'.forwarders = m.forwarders) (hc : m'.caches = m.caches)
    (hk : m'.cores = m.cores)
    (hd : (n + 3) * m.bus.total + m.memory.parked.toNat + m.memory.service.begun.toNat + d ≤
      (n + 3) * m'.bus.total + m'.memory.parked.toNat + m'.memory.service.begun.toNat) :
    m.Gains m' d := by
  unfold Gains effort left
  rw [hf, hc, hk]
  omega

theorem gains_core {c : Cache g} {k : Core} (hf : m'.forwarders = m.forwarders)
    (hm : m'.memory = m.memory) (hc : m'.caches = m.caches.put i c)
    (hk : m'.cores = m.cores.put i k)
    (hd : (n + 3) * m.bus.total + m.caches[i].effort + k.left + d ≤
      (n + 3) * m'.bus.total + c.effort + m.cores[i].left) : m.Gains m' d := by
  have hsum := sum_put m.caches i c Cache.effort
  have hleft := sum_put m.cores i k Core.left
  unfold Gains effort left
  rw [hf, hm, hc, hk]
  omega

end Put

/-- **What a turn comes to**: it drives something, takes the machine on, or finds the bus taken. -/
inductive Headway (m m' : Machine g n) : Prop
  | drive (hb : m.bus.current = none) (hb' : m'.bus.current ≠ none)
      (ht : m'.bus.total = m.bus.total + 1) (hr : m'.bus.rejected = m.bus.rejected)
      (hg : m.Gains m' (n + 2))
  | work (hb : m'.bus.current = m.bus.current) (ht : m'.bus.total = m.bus.total)
      (hr : m'.bus.rejected = m.bus.rejected) (hg : m.Gains m' 1)
  | wait (hb : m.bus.current ≠ none) (hb' : m'.bus.current = m.bus.current)
      (ht : m'.bus.total = m.bus.total) (hr : m'.bus.rejected ≤ m.bus.rejected + 1)
      (hg : m.Gains m' 0)

section Turn

variable {k : Nat} {m m' : Machine g n} {p : Agent (Fin n)} {q : WakeQueue (Agent (Fin n))}
  {i : Fin n} (h : Awake k m)

include h

theorem Awake.ready_le {t : Transfer} {ready : Nat}
    (hq : m.queue.fetch = .ok (some (.memory, q))) (hs : m.memory.service = .busy t ready) :
    ready ≤ m.now := by
  obtain ⟨-, hpending⟩ := WakeQueue.fetch_eq_some hq
  have hhead : (m.now, .memory) ∈ m.queue.pending := hpending ▸ List.mem_cons_self
  have hready := (h.attended.serving t ready hs).resolve_left nofun
  exact Nat.le_of_eq (h.attended.waits.once hready hhead)

theorem Awake.headway_forwarder (hq : m.queue.fetch = .ok (some (.forwarder i, q)))
    (ha : { m with queue := q }.Acts (.forwarder i) m') : m.Headway m' := by
  have hawake : ¬ m.forwarders[i].parked :=
    (attended_fetch h.attended h.timed hq).rouses (.forwarder i) rfl
  cases ha with
  | rest hq =>
    refine .work rfl rfl rfl (gains_forwarder (i := i) rfl rfl rfl rfl ?_)
    have hfalse := Bool.eq_false_iff.mpr hawake
    rw [hfalse]
    exact Nat.le_refl _
  | @send _ j rest hq hb hl =>
    have hf : Bus.forwardFunc j.state ≠ .nothing := by
      unfold Bus.forwardFunc
      split_ifs <;> exact nofun
    have htotal := m.bus.total_drive (t := ⟨j.dest, .cache m.forwarders[i].source, j.addr.line,
      Bus.forwardFunc j.state, j.data⟩) hf
    refine .drive hb nofun htotal rfl (gains_forwarder (i := i) rfl rfl rfl rfl ?_)
    show _ ≤ (n + 3) * (m.bus.drive _).total + m.forwarders[i].parked.toNat
    rw [htotal, Nat.mul_succ]
    omega
  | hold hq hb hl =>
    exact .wait hb rfl rfl (Nat.le_refl _)
      (gains_forwarder (i := i) (f := m.forwarders[i]) rfl rfl rfl rfl (Nat.le_refl _))

theorem Awake.headway_memory (hq : m.queue.fetch = .ok (some (.memory, q)))
    (ha : { m with queue := q }.Acts .memory m') : m.Headway m' := by
  have hawake : ¬ m.memory.parked := (attended_fetch h.attended h.timed hq).rouses .memory rfl
  have hbegun : ∀ {now t d}, m.memory.Owes now t d → m.memory.service.begun = true := fun ho => by
    obtain ⟨ready, hs, -⟩ | hs := ho <;> rw [hs] <;> rfl
  cases ha with
  | drain hs hq =>
    refine .work rfl rfl rfl (gains_memory rfl rfl rfl ?_)
    have hfalse := Bool.eq_false_iff.mpr hawake
    rw [hfalse]
    exact Nat.le_of_eq (Nat.add_right_comm _ _ _)
  | begin hs hq hr hl =>
    refine .work rfl rfl rfl (gains_memory rfl rfl rfl ?_)
    have hs : m.memory.service = .idle := hs
    rw [hs]
    exact Nat.le_refl _
  | @early t ready hs hr hl =>
    have hnow : q.now = m.now := WakeQueue.now_of_fetch hq
    have hr : q.now < ready := hr
    have hle := h.ready_le hq hs
    omega
  | @answer t d ho hf hb hl =>
    have htotal := m.bus.total_drive (t := ⟨t.requester, .memory, t.addr.line, .response, d⟩) nofun
    refine .drive hb nofun htotal rfl (gains_memory rfl rfl rfl ?_)
    show _ ≤ (n + 3) * (m.bus.drive _).total + (m.memory.served t).parked.toNat + _
    rw [htotal, m.memory.parked_served, hbegun ho, Nat.mul_succ]
    simp only [Bool.toNat_true]
    omega
  | @retry t d ho hg hl =>
    have hb : m.bus.current ≠ none := fun hb =>
      hg ⟨h.forwardIntended_eq hq (Nat.le_refl n) hb, hb⟩
    refine .wait hb rfl rfl (Nat.le_refl _) (gains_memory rfl rfl rfl ?_)
    rw [hbegun ho]
    exact Nat.le_refl _

theorem Awake.headway_core (hq : m.queue.fetch = .ok (some (.core i, q)))
    (ha : { m with queue := q }.Acts (.core i) m') : m.Headway m' := by
  have hawake := (attended_fetch h.attended h.timed hq).rouses (.core i) rfl
  obtain ⟨-, hdone⟩ := not_or.mp hawake
  have hleft : m.cores[i].left = m.cores[i].program.length + 1 := by
    rw [Core.left, Core.isDone, decide_eq_false hdone]
    rfl
  cases ha with
  | halt hp =>
    refine .work rfl rfl rfl (gains_core (i := i) (c := m.caches[i]) rfl rfl
      (Vector.put_getElem _ _).symm rfl ?_)
    rw [hleft]
    exact Nat.le_refl _
  | work hp hl =>
    refine .work rfl rfl rfl (gains_core (i := i) (c := m.caches[i]) rfl rfl
      (Vector.put_getElem _ _).symm rfl ?_)
    have hp : m.cores[i].program = _ := hp
    rw [hleft, hp]
    exact Nat.le_refl _
  | issue hp hr hi =>
    refine .work rfl rfl rfl (gains_core (i := i) rfl rfl rfl rfl ?_)
    have hp : m.cores[i].program = _ := hp
    have hi : m.caches[i].access = none := hi
    rw [hleft, hp, Cache.effort, Cache.effort, Cache.inPhase, hi]
    exact Nat.le_refl _

theorem Awake.headway_cache (hq : m.queue.fetch = .ok (some (.cache i, q))) {x : Turn g}
    (hx : m.caches[i].tick m.bus q.now = x) (hb : m.bus.Asked x.bus) (hbus : m'.bus = x.bus)
    (hf : m'.forwarders = m.forwarders) (hm : m'.memory = m.memory)
    (hc : m'.caches = m.caches.put i x.cache) {c : Core} (hk : m'.cores = m.cores.put i c)
    (hl : c.left = m.cores[i].left) : m.Headway m' := by
  have hslot : n < (Agent.cache i : Agent (Fin n)).slot := by
    simp only [Agent.slot]
    omega
  have hawake : m.caches[i].stage.sleeps = false :=
    Bool.eq_false_iff.mpr ((attended_fetch h.attended h.timed hq).rouses (.cache i) rfl)
  have heffort := (m.caches[i].deed_tick m.bus q.now).effort
  rw [hx] at heffort
  have hgains : ∀ {d}, (n + 3) * m.bus.total + m.caches[i].effort + d ≤
      (n + 3) * x.bus.total + x.cache.effort → m.Gains m' d := fun hd => by
    refine gains_core (i := i) hf hm hc hk ?_
    rw [hl, hbus]
    omega
  generalize x.bus = b at hb hbus heffort hgains
  cases hb with
  | free =>
    have hcur : m'.bus.current = m.bus.current := congrArg Bus.current hbus
    have htotal : m'.bus.total = m.bus.total := congrArg Bus.total hbus
    have hrej : m'.bus.rejected = m.bus.rejected := congrArg Bus.rejected hbus
    -- With the bus free the cache works; with the bus taken it may have to wait.
    by_cases hn : m.bus.current = none
    · obtain hne | hlt := heffort.2 (h.grants hq hslot hn) hawake
      · exact absurd hn hne
      · exact .work hcur htotal hrej (hgains (Nat.add_le_add_left hlt _))
    · exact .wait hn hcur htotal (hrej ▸ Nat.le_succ _) (hgains (Nat.add_le_add_left heffort.1 _))
  | refused hg =>
    have hcur : m'.bus.current = m.bus.reject.current := congrArg Bus.current hbus
    have htotal : m'.bus.total = m.bus.reject.total := congrArg Bus.total hbus
    have hn : m.bus.current ≠ none := fun hn => hg (h.grants hq hslot hn)
    exact .wait hn hcur htotal (Nat.le_of_eq (congrArg Bus.rejected hbus))
      (hgains (Nat.add_le_add_left heffort.1 _))
  | @granted t hg ht =>
    have hcur : m'.bus.current = some t := congrArg Bus.current hbus
    have htotal : m'.bus.total = (m.bus.drive t).total := congrArg Bus.total hbus
    have hrej : m'.bus.rejected = (m.bus.drive t).rejected := congrArg Bus.rejected hbus
    have hdrive := m.bus.total_drive (t := t) fun hf => by
      rw [hf] at ht
      exact Bool.noConfusion ht
    refine .drive (Bus.current_eq_none_of_grants hg) (by simp [hcur])
      (htotal.trans hdrive) hrej (hgains ?_)
    rw [hdrive, Nat.mul_succ]
    have := heffort.1
    omega

/-- **Every turn makes headway** or finds the bus taken. -/
theorem Awake.headway (hq : m.queue.fetch = .ok (some (p, q)))
    (ha : { m with queue := q }.Acts p m') : m.Headway m' := by
  cases p with
  | forwarder i => exact h.headway_forwarder hq ha
  | memory => exact h.headway_memory hq ha
  | core i => exact h.headway_core hq ha
  | cache i =>
    cases ha with
    | proceed ht hb _ _ _ =>
      exact h.headway_cache hq ht hb rfl rfl rfl rfl (Vector.put_getElem _ _).symm rfl
    | await ht hb _ _ =>
      exact h.headway_cache hq ht hb rfl rfl rfl rfl (Vector.put_getElem _ _).symm rfl
    | @finish _ c r ht hs _ _ =>
      refine h.headway_cache hq ht .free rfl rfl rfl rfl rfl ?_
      have hs : m.caches[i].stage.sleeps = false := hs
      have hwaiting := (h.attended.paired i).mpr fun he => by
        rw [he] at hs
        exact Bool.noConfusion hs
      show _ + (!decide (_ = Activity.done)).toNat = _ + (!decide (_ = Activity.done)).toNat
      rw [hwaiting]
      rfl

end Turn

/-! ## Cycles -/

section Cycle

variable {m m' x : Machine g n} {t : Nat} {l : List (Agent (Fin n))}

/-- **A broadcast sets back nobody but those that it wakes.** -/
theorem Aired.effort_le (h : m.Aired m') : m.effort ≤ m'.effort + (n + 1) ∧ m'.left = m.left := by
  have htotal : m'.bus.total = m.bus.total := by
    simp only [Bus.total, Bus.asked, Bus.answered, h.carried_eq]
  have hcaches : ∑ i : Fin n, m.caches[i].effort ≤ ∑ i : Fin n, m'.caches[i].effort := by
    refine sum_le_sum fun i _ => ?_
    obtain ⟨d, -, he, -⟩ := m.caches[i].endures_snoop (m.seenBus i)
    rw [← he.effort]
    exact (h.heeds i).effort
  have hparked : ∑ i : Fin n, m.forwarders[i].parked.toNat ≤ n := by
    refine Nat.le_trans (sum_le_sum fun i _ => Bool.toNat_le _) (Nat.le_of_eq ?_)
    simp
  have hmemory : m.memory.parked.toNat ≤ 1 := Bool.toNat_le _
  obtain ⟨-, -, -, -, hservice⟩ := m.memory.snoop_eq (m.seenBus n)
  rw [← h.memory] at hservice
  constructor
  · unfold effort
    rw [htotal, hservice]
    omega
  · rw [left, left, h.cores]

/-- **What the turns of a cycle come to.** -/
structure Worked (m : Machine g n) (k : Nat) (x : Machine g n) : Prop where
  bounded : k ≤ 3 * n + 1
  idle : x.bus.current = none → x.bus.total = m.bus.total ∧ x.bus.rejected = m.bus.rejected ∧
    m.Gains x (min k 1)
  driven : x.bus.current ≠ none → x.bus.total = m.bus.total + 1 ∧
    x.bus.rejected + 1 ≤ m.bus.rejected + k ∧ m.Gains x (n + 2)

theorem worked_turn {k : Nat} {y y' : Machine g n} {p : Agent (Fin n)} (h : m.Worked k y)
    (hk : k ≤ p.slot) (hy : y.Headway y') : m.Worked (p.slot + 1) y' := by
  have hmin : min (p.slot + 1) 1 = 1 := Nat.min_eq_right (Nat.succ_pos _)
  refine ⟨p.slot_lt, fun hc => ?_, fun hc => ?_⟩
  · rw [hmin]
    cases hy with
    | drive _ hb' => exact absurd hc hb'
    | work hb ht hr hg =>
      obtain ⟨ht', hr', hg'⟩ := h.idle (hb.symm.trans hc)
      exact ⟨ht.trans ht', hr.trans hr', (hg'.trans hg).mono (Nat.le_add_left _ _)⟩
    | wait hb hb' => exact absurd (hb'.symm.trans hc) hb
  · cases hy with
    | drive hb _ ht hr hg =>
      obtain ⟨ht', hr', hg'⟩ := h.idle hb
      exact ⟨by omega, by omega, (hg'.trans hg).mono (Nat.le_add_left _ _)⟩
    | work hb ht hr hg =>
      obtain ⟨ht', hr', hg'⟩ := h.driven (hb ▸ hc)
      exact ⟨by omega, by omega, (hg'.trans hg).mono (Nat.le_add_right _ _)⟩
    | wait hb _ ht hr hg =>
      obtain ⟨ht', hr', hg'⟩ := h.driven hb
      exact ⟨by omega, by omega, hg'.trans hg⟩

/-- **A cycle gets the machine on.** It gains more than what it may wake, and turns away less than
everybody for what it drives. -/
theorem Round.gains (h : m.Round t l x m') (h₀ : Awake 0 (m.started t))
    (ht : m.queue.nextTime = some t) : m.Gains m' 1 ∧
    m'.bus.total = m.bus.total + m'.bus.current.isSome.toNat ∧
    m'.bus.rejected ≤ m.bus.rejected + 3 * n * m'.bus.current.isSome.toNat := by
  obtain ⟨k, hx, hworked, -, hslots⟩ := h.within.induct h₀ (P := m.Worked)
    ⟨Nat.zero_le _, fun _ => ⟨rfl, rfl, Nat.le_refl _⟩, fun hc => absurd rfl hc⟩
    fun {k y p q y'} hy hp hq hk ha _ => worked_turn hp hk (hy.headway hq ha)
  cases hc : x.bus.current with
  | none =>
    have hpos : 1 ≤ k := by
      obtain ⟨a, ha⟩ := List.exists_mem_of_ne_nil l (h.ne_nil ht)
      have := hslots a ha
      omega
    obtain ⟨htotal, hrej, hg⟩ := hworked.idle hc
    obtain rfl := h.eq_of_undriven hc
    rw [Nat.min_eq_right hpos] at hg
    rw [hc]
    exact ⟨hg, htotal, Nat.le_of_eq hrej⟩
  | some u =>
    obtain ⟨s, c, hbus⟩ := h.aired.bus_eq
    obtain ⟨htotal, hrej, hg⟩ := hworked.driven (by simp [hc])
    obtain ⟨heffort, hleft⟩ := h.aired.effort_le
    have hbound := hworked.bounded
    rw [hbus]
    show m.Gains m' 1 ∧ x.bus.total = m.bus.total + x.bus.current.isSome.toNat ∧
      x.bus.rejected ≤ m.bus.rejected + 3 * n * x.bus.current.isSome.toNat
    rw [hc]
    refine ⟨?_, htotal, ?_⟩
    · unfold Gains at hg ⊢
      rw [hleft]
      omega
    · show x.bus.rejected ≤ m.bus.rejected + 3 * n * 1
      omega

end Cycle

end Machine

end Snooping
