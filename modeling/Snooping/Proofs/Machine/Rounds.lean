import Snooping.Proofs.Machine.Aired
import Snooping.Proofs.Machine.Runs

/-!
# Rounds of turns

A step of the machine is a round: the agents that are due have their turns one after the other, and
then everybody looks at what was driven. Nothing but a number that leaves its range can end a round
early.

* **`Machine.Awake`**: what holds between two turns, with nobody forgotten.
* `Machine.awake_turn`: a turn keeps it.
* **`Machine.Within`**: the turns of a cycle so far; `Machine.Within.induct`: what they keep.
* **`Machine.Round`**: one whole cycle.
* **`Machine.Ready`**: what holds between two steps, with nobody forgotten.
* `Machine.yields_cycle`, **`Machine.yields_step`**: a step is a round.
* **`Machine.Plays`**: the states between steps, with what was driven in which cycle, and
  **`Machine.Visits`**: the same with the states that the cycles have left; `Machine.Visits.induct`,
  `Machine.Plays.induct`: what every cycle keeps.
* `Machine.exists_visits`: runs that are computed.
-/

namespace Snooping

variable {g : Geometry} {n : Nat}

theorem Agent.compare_of_slot_lt {p q : Agent (Fin n)} (h : p.slot < q.slot) :
    compare p q = .lt := by
  rcases hc : compare p q with _ | _ | _
  · rfl
  · rw [Std.LawfulEqOrd.eq_of_compare hc] at h
    omega
  · have := slot_lt_of_compare (Std.OrientedCmp.lt_of_gt hc)
    omega

theorem WakeQueue.Timed.fetch_ne_error {q : WakeQueue (Agent (Fin n))} {k : Nat}
    (h : q.Timed k) (f : Fault) : q.fetch ≠ .error f := by
  unfold fetch
  cases hp : q.pending with
  | nil => exact nofun
  | cons e rest =>
    have := h.future e (hp ▸ List.mem_cons_self)
    dsimp only
    rw [if_neg (by omega)]
    split_ifs
    · exact nofun
    · exact nofun

namespace Machine

/-! ## Turns -/

/-- **What holds between two turns**, with nobody forgotten. -/
structure Awake (k : Nat) (m : Machine g n) : Prop extends Running k m where
  attended : m.Attended none
  /-- An answer that waits for the bus is due, unless the bus was taken in this cycle. -/
  answers : ∀ t d, m.memory.service = .responding t d → (m.now, .memory) ∈ m.queue.pending ∨
    ((m.now + 1, .memory) ∈ m.queue.pending ∧ m.bus.current ≠ none)

theorem Acts.memory_eq {m m' : Machine g n} {p : Agent (Fin n)} (h : m.Acts p m')
    (hp : p ≠ .memory) : m'.memory = m.memory := by
  cases h <;> first | rfl | exact absurd rfl hp

section Turn

variable {k : Nat} {m m' : Machine g n} {p : Agent (Fin n)} {q : WakeQueue (Agent (Fin n))}
  (h : Awake k m) (hq : m.queue.fetch = .ok (some (p, q)))

include h hq

theorem Awake.queue_eq_nil (hp : n ≤ p.slot) (hb : m.bus.current = none) (j : Fin n) :
    m.forwarders[j].queue = [] := by
  obtain ⟨-, htimed⟩ := WakeQueue.timed_fetch hq h.timed
  obtain ⟨-, hpending⟩ := WakeQueue.fetch_eq_some hq
  obtain hs | hs | ⟨-, hs⟩ := h.sends j
  · exact h.sound.resting j hs
  · rw [hpending, List.mem_cons] at hs
    obtain hs | hs := hs
    · rw [← (Prod.mk.inj hs).2] at hp
      have hlt : n ≤ (j : Nat) := hp
      omega
    · have hnow : q.now = m.now := WakeQueue.now_of_fetch hq
      rw [← hnow] at hs
      have hlt : p.slot + 1 ≤ (j : Nat) := htimed.later _ hs
      omega
  · exact absurd hb hs

theorem Awake.forwardIntended_eq (hp : n ≤ p.slot) (hb : m.bus.current = none) :
    m.bus.forwardIntended = false := by
  rw [Bool.eq_false_iff]
  intro hf
  obtain ⟨j, hj⟩ := h.attended.forwards hf
  exact hj (h.queue_eq_nil hq hp hb j)

theorem Awake.grants (hp : n < p.slot) (hb : m.bus.current = none) : m.bus.grants .core := by
  have hf := h.forwardIntended_eq hq (Nat.le_of_lt hp) hb
  have hr : m.bus.responseIntended = false := by
    rw [Bool.eq_false_iff]
    intro hr
    obtain ⟨t, d, hs⟩ := h.attended.responds hr
    obtain ⟨-, htimed⟩ := WakeQueue.timed_fetch hq h.timed
    obtain ⟨-, hpending⟩ := WakeQueue.fetch_eq_some hq
    have hdue := (h.answers t d hs).resolve_right fun hx => hx.2 hb
    rw [hpending, List.mem_cons] at hdue
    obtain he | he := hdue
    · rw [← (Prod.mk.inj he).2] at hp
      exact absurd hp (Nat.lt_irrefl n)
    · have hnow : q.now = m.now := WakeQueue.now_of_fetch hq
      rw [← hnow] at he
      have hlt : p.slot + 1 ≤ n := htimed.later _ he
      omega
  simp [Bus.grants, Bus.mustYield, hf, hr, hb]

theorem Awake.yields_runAgent :
    Yields ({ m with queue := q }.runAgent p) ({ m with queue := q }.Acts p) := by
  have hx := attended_fetch h.attended h.timed hq
  refine Machine.yields_runAgent fun i hp => ?_
  subst hp
  obtain ⟨hwaiting, -⟩ := not_or.mp (hx.rouses _ rfl)
  exact not_not.mp (mt (hx.paired i).mpr hwaiting)

/-- **A turn keeps what holds between turns.** -/
theorem awake_turn (hr : { m with queue := q }.runAgent p = .ok m') :
    { m with queue := q }.Acts p m' ∧ Awake (p.slot + 1) m' := by
  have hacts := (h.yields_runAgent hq).of_eq_ok hr
  have htook := h.took hq hr
  have hnow : q.now = m.now := WakeQueue.now_of_fetch hq
  have hnow' : m'.now = m.now := htook.now.trans hnow
  obtain ⟨-, hpending⟩ := WakeQueue.fetch_eq_some hq
  refine ⟨hacts, { running_turn h.toRunning hq hr with
    attended := attended_acts (attended_fetch h.attended h.timed hq) hacts
    answers := fun t d hs => ?_ }⟩
  rw [hnow']
  by_cases hp : p = .memory
  · subst hp
    have hservice : ∀ {s : Service}, s = .idle → s ≠ .responding t d := fun hx hy => by
      cases hx.symm.trans hy
    cases hacts with
    | drain hx _ => exact absurd hs (hservice hx)
    | begin _ _ _ _ => cases hs
    | early hx _ _ => cases hx.symm.trans hs
    | answer _ _ _ _ => exact absurd hs (hservice (m.memory.service_served _).1)
    | retry _ hg _ =>
      refine .inr ⟨WakeQueue.mem_add.mpr (.inl (by rw [← hnow]; rfl)), fun hb => hg ?_⟩
      exact ⟨h.forwardIntended_eq hq (Nat.le_refl n) hb, hb⟩
  · rw [hacts.memory_eq hp] at hs
    refine (h.answers t d hs).imp (fun he => ?_) fun ⟨he, hb⟩ => ⟨?_, fun hn => ?_⟩
    · rw [hpending, List.mem_cons] at he
      exact htook.waits _ (he.resolve_left fun e => hp (Prod.mk.inj e).2.symm)
    · rw [hpending, List.mem_cons] at he
      refine htook.waits _ (he.resolve_left fun e => ?_)
      exact absurd (Prod.mk.inj e).1 (Nat.succ_ne_self _)
    · obtain ⟨u, hu⟩ := Option.ne_none_iff_exists'.mp hb
      cases (htook.current_eq hu).symm.trans hn

end Turn

/-! ## Cycles -/

/-- **The turns of a cycle so far**, in order. -/
inductive Within (m : Machine g n) : List (Agent (Fin n)) → Machine g n → Prop
  | start : Within m [] m
  | turn {l : List (Agent (Fin n))} {x x' : Machine g n} {p : Agent (Fin n)}
      {q : WakeQueue (Agent (Fin n))} (h : Within m l x) (hq : x.queue.fetch = .ok (some (p, q)))
      (hr : { x with queue := q }.runAgent p = .ok x') : Within m (l ++ [p]) x'

/-- **What every turn keeps** holds after all of them, and they come in order. -/
theorem Within.induct {m x : Machine g n} {l : List (Agent (Fin n))} (h : m.Within l x)
    (h₀ : Awake 0 m) {P : Nat → Machine g n → Prop} (start : P 0 m)
    (turn : ∀ {k y p q y'}, Awake k y → P k y → y.queue.fetch = .ok (some (p, q)) → k ≤ p.slot →
      { y with queue := q }.Acts p y' → { y with queue := q }.Took p y' → P (p.slot + 1) y') :
    ∃ k, Awake k x ∧ P k x ∧ l.Pairwise (fun a b => compare a b = .lt) ∧ ∀ a ∈ l, a.slot < k := by
  induction h with
  | start => exact ⟨0, h₀, start, .nil, nofun⟩
  | @turn l y y' p q _ hq hr ih =>
    obtain ⟨k, hy, hp, hl, hk⟩ := ih
    obtain ⟨hle, -⟩ := WakeQueue.timed_fetch hq hy.timed
    obtain ⟨hacts, hy'⟩ := awake_turn hy hq hr
    refine ⟨p.slot + 1, hy', turn hy hp hq hle hacts (hy.took hq hr), ?_, fun a ha => ?_⟩
    · refine List.pairwise_append.mpr ⟨hl, List.pairwise_singleton _ _, fun a ha b hb => ?_⟩
      obtain rfl := List.mem_singleton.mp hb
      exact Agent.compare_of_slot_lt (Nat.lt_of_lt_of_le (hk a ha) hle)
    · obtain ha | ha := List.mem_append.mp ha
      · have := hk a ha
        omega
      · rw [List.mem_singleton.mp ha]
        exact Nat.lt_succ_self _

theorem Within.awake {m x : Machine g n} {l : List (Agent (Fin n))} (h : m.Within l x)
    (h₀ : Awake 0 m) : ∃ k, Awake k x ∧ l.Pairwise fun a b => compare a b = .lt := by
  obtain ⟨k, hx, -, hl, -⟩ := h.induct h₀ (P := fun _ _ => True) trivial fun _ _ _ _ _ _ => trivial
  exact ⟨k, hx, hl⟩

theorem Within.eq_of_nil {m x : Machine g n} (h : m.Within [] x) : x = m := by
  generalize hl : ([] : List (Agent (Fin n))) = l at h
  cases h with
  | start => rfl
  | turn => exact absurd hl.symm (List.append_ne_nil_of_right_ne_nil _ (List.cons_ne_nil _ _))

theorem runDueFor_due {m : Machine g n} {p : Agent (Fin n)} {rest : List (Nat × Agent (Fin n))}
    (h : m.queue.pending = (m.now, p) :: rest) (fuel : Nat) : runDueFor (fuel + 1) m =
      ({ m with queue := ⟨m.now, rest⟩ } : Machine g n).runAgent p >>= runDueFor fuel := by
  rw [runDueFor, WakeQueue.fetch, h]
  simp only [now, Nat.lt_irrefl, if_false, if_true]
  rfl

theorem runDueFor_over {m : Machine g n} (h : ∀ e ∈ m.queue.pending, m.now < e.1) (fuel : Nat) :
    runDueFor fuel m = .ok m := by
  cases fuel with
  | zero => rfl
  | succ fuel =>
    rw [runDueFor, WakeQueue.fetch]
    cases hp : m.queue.pending with
    | nil => rfl
    | cons e rest =>
      have hlt := h e (hp ▸ List.mem_cons_self)
      simp only [now] at hlt
      simp only [if_neg (Nat.not_lt_of_lt hlt), if_neg (Nat.ne_of_gt hlt)]
      rfl

theorem runDueFor_add (m : Machine g n) (k fuel : Nat) :
    m.runDueFor (k + fuel) = m.runDueFor k >>= runDueFor fuel := by
  induction k generalizing m with
  | zero =>
    rw [Nat.zero_add]
    rfl
  | succ k ih =>
    rw [Nat.succ_add, runDueFor, runDueFor]
    cases hq : m.queue.fetch with
    | error f => rfl
    | ok o =>
      cases o with
      | none =>
        cases fuel with
        | zero => rfl
        | succ fuel =>
          show _ = runDueFor (fuel + 1) m
          rw [runDueFor, hq]
          rfl
      | some e =>
        show ({ m with queue := e.2 }.runAgent e.1 >>= runDueFor (k + fuel)) =
          ({ m with queue := e.2 }.runAgent e.1 >>= runDueFor k) >>= runDueFor fuel
        cases { m with queue := e.2 }.runAgent e.1 with
        | error f => rfl
        | ok m' => exact ih m'

/-- The turns of a cycle go on until nothing is due, as long as there is fuel for all places that
are left. -/
theorem yields_runDueFor {m₀ m : Machine g n} {l : List (Agent (Fin n))} {fuel k : Nat}
    (hm : Awake k m) (hl : m₀.Within l m) (hf : 3 * n + 1 < fuel + k) (hk : k ≤ 3 * n + 1) :
    Yields (m.runDueFor fuel) fun x => ∃ l, m₀.Within l x ∧ ∀ e ∈ x.queue.pending, x.now < e.1 := by
  induction fuel generalizing k m l with
  | zero => omega
  | succ fuel ih =>
    unfold runDueFor
    cases hq : m.queue.fetch with
    | error f => exact absurd hq (hm.timed.fetch_ne_error f)
    | ok o =>
      cases o with
      | none => exact ⟨l, hl, WakeQueue.fetch_eq_none hq hm.timed.sorted⟩
      | some e =>
        obtain ⟨p, q⟩ := e
        have hslot := (WakeQueue.timed_fetch hq hm.timed).1
        have hp := p.slot_lt
        refine (hm.yields_runAgent hq).bind fun m' hr _ => ?_
        exact ih (awake_turn hm hq hr).2 (hl.turn hq hr) (by omega) (by omega)

theorem Awake.runDue_eq {m x : Machine g n} (h : Awake 0 m) {k : Nat}
    (hx : ∀ fuel, m.runDueFor (k + fuel) = .ok x) : m.runDue = .ok x := by
  have hend : Yields m.runDue fun x => ∃ l, m.Within l x ∧ ∀ e ∈ x.queue.pending, x.now < e.1 :=
    yields_runDueFor h .start (by simp only [agentCount]; omega) (Nat.zero_le _)
  have hadd : Except.ok x = m.runDue >>= runDueFor k := by
    rw [← hx (agentCount n + 1), Nat.add_comm]
    exact m.runDueFor_add _ k
  cases hr : m.runDue with
  | error e =>
    rw [hr] at hadd
    cases hadd
  | ok z =>
    obtain ⟨l, -, hlater⟩ := hend.of_eq_ok hr
    have hz : (Except.ok z >>= runDueFor k : Except Fault _) = .ok z := runDueFor_over hlater k
    rw [hr, hz] at hadd
    exact hadd.symm

/-- **One whole cycle**: the turns `l` lead to `x`, where nothing is due any more, and what was
driven is seen. -/
structure Round (m : Machine g n) (t : Nat) (l : List (Agent (Fin n))) (x m' : Machine g n) :
    Prop where
  within : (m.started t).Within l x
  later : ∀ e ∈ x.queue.pending, x.now < e.1
  shown : x.broadcast = .ok m'
  aired : x.Aired m'

theorem Round.eq_of_undriven {m x m' : Machine g n} {t : Nat} {l : List (Agent (Fin n))}
    (h : m.Round t l x m') (hc : x.bus.current = none) : m' = x :=
  Except.ok.inj (h.shown.symm.trans (broadcast_of_undriven hc))

/-- **What holds between two steps**, with nobody forgotten. -/
structure Ready (t : Nat) (m : Machine g n) : Prop extends Rested t m where
  attended : m.Attended none
  answers : ∀ u d, m.memory.service = .responding u d → (t, .memory) ∈ m.queue.pending

theorem awake_started {m : Machine g n} {t₀ t : Nat} (h : Ready t₀ m)
    (ht : m.queue.nextTime = some t) : Awake 0 (m.started t) := by
  refine { running_started h.toRested ht with
    attended := ⟨⟨h.attended.waits.once, h.attended.waits.awake, h.attended.waits.bounded⟩, nofun,
      nofun, h.attended.paired, h.attended.drained, h.attended.serving, h.attended.forwards,
      h.attended.responds⟩
    answers := fun u d hs => .inl ?_ }
  -- Memory waits for the cycle of the rest, so that this is the next one.
  have hmem := h.answers u d hs
  obtain ⟨e, he, rfl⟩ := WakeQueue.mem_of_nextTime ht
  have h₁ := WakeQueue.nextTime_le ht h.sorted _ hmem
  have h₂ := h.later _ he
  obtain rfl : e.1 = t₀ := Nat.le_antisymm h₁ h₂
  exact hmem

/-- **A cycle is a round**, and leaves a machine at rest. -/
theorem yields_cycle {m : Machine g n} {t₀ t : Nat} (h : Ready t₀ m)
    (ht : m.queue.nextTime = some t) : Yields (m.cycle t) fun m' =>
      Ready (t + 1) m' ∧ m'.now = t ∧ ∃ l x, m.Round t l x m' := by
  have h₀ := awake_started h ht
  have hrun : Yields (m.cycle t) fun m' => ∃ l x, m.Round t l x m' ∧ m'.Attended none := by
    refine (yields_runDueFor h₀ .start (by simp only [agentCount]; omega) (Nat.zero_le _)).bind
      fun x _ hx => ?_
    obtain ⟨l, hl, hdue⟩ := hx
    obtain ⟨k, hx, -⟩ := hl.awake h₀
    refine (yields_broadcast hx.toRunning hdue hx.attended).imp fun m' hb hm' => ?_
    obtain ⟨ha, hm⟩ := hm'
    exact ⟨l, x, ⟨hl, hdue, hb, ha⟩, hm⟩
  refine hrun.imp fun m' hr hm' => ?_
  obtain ⟨l, x, hround, hm⟩ := hm'
  obtain ⟨k, hx, hnow, -⟩ := hround.within.induct h₀ (P := fun _ y => y.now = t) rfl
    fun _ hy hq _ _ ht => ht.now.trans ((WakeQueue.now_of_fetch hq).trans hy)
  refine ⟨{ (rested_cycle h.toRested ht hr).1 with
    attended := hm
    answers := fun u d hs => ?_ }, hround.aired.now.trans hnow, l, x, hround⟩
  -- Memory has not answered, so that it was turned away in this cycle.
  obtain ⟨-, -, -, -, hservice⟩ := x.memory.snoop_eq (x.seenBus n)
  rw [hround.aired.memory, hservice] at hs
  obtain hdue | ⟨hnext, hb⟩ := hx.answers u d hs
  · exact absurd (hround.later _ hdue) (Nat.lt_irrefl _)
  · obtain ⟨w, hw⟩ := Option.ne_none_iff_exists'.mp hb
    obtain ⟨-, hlooked⟩ := broadcast_view hx.toRunning hround.later hw hround.shown
    rw [← hnow]
    exact hlooked.wakes.waits _ hnext

theorem Round.ne_nil {m x m' : Machine g n} {t : Nat} {l : List (Agent (Fin n))}
    (h : m.Round t l x m') (ht : m.queue.nextTime = some t) : l ≠ [] := by
  rintro rfl
  obtain ⟨e, he, rfl⟩ := WakeQueue.mem_of_nextTime ht
  obtain rfl := h.within.eq_of_nil
  exact absurd (h.later e he) (Nat.lt_irrefl _)

theorem Round.fetch_eq_none {m x m' : Machine g n} {t : Nat} {l : List (Agent (Fin n))}
    (h : m.Round t l x m') (h₀ : Awake 0 (m.started t)) : x.queue.fetch = .ok none := by
  obtain ⟨k, hx, -⟩ := h.within.awake h₀
  cases hq : x.queue.fetch with
  | error f => exact absurd hq (hx.timed.fetch_ne_error f)
  | ok o =>
    cases o with
    | none => rfl
    | some y =>
      obtain ⟨-, hpending⟩ := WakeQueue.fetch_eq_some hq
      exact absurd (h.later _ (hpending ▸ List.mem_cons_self)) (Nat.lt_irrefl _)

/-! ## Steps -/

/-- **A step is a round**, or nothing at all. -/
theorem yields_step {m : Machine g n} {t₀ : Nat} (h : Ready t₀ m) :
    Yields m.step fun y =>
      (ran y.1 = false ∧ y.2 = m ∧ ((y.1 = .ok false ∧ m.queue.pending = []) ∨
        ∃ limit, m.spec.maxCycles = some limit ∧ y.1 = .error (.cycleLimit limit.toNat))) ∨
      (ran y.1 = true ∧ (y.1 = .ok true ∨ y.1 = y.2.checkCoherence.map fun _ => true) ∧
        ∃ t l x, m.queue.nextTime = some t ∧ m.Round t l x y.2 ∧ Ready (t + 1) y.2 ∧
          y.2.now = t) := by
  unfold step
  cases ht : m.queue.nextTime with
  | none =>
    refine .inl ⟨rfl, rfl, .inl ⟨rfl, ?_⟩⟩
    exact List.head?_eq_none_iff.mp (Option.map_eq_none_iff.mp ht)
  | some t =>
    dsimp only
    cases hb : isBeyond m.spec.maxCycles t with
    | some limit =>
      obtain ⟨hl, -⟩ := Option.filter_eq_some_iff.mp hb
      obtain ⟨c, hc, rfl⟩ := Option.map_eq_some_iff.mp hl
      exact .inl ⟨rfl, rfl, .inr ⟨c, hc, rfl⟩⟩
    | none =>
      refine (yields_cycle h ht).bind fun m' _ ⟨hready, hnow, l, x, hround⟩ => ?_
      have hx : ∃ t' l x, some t = some t' ∧ m.Round t' l x m' ∧ Ready (t' + 1) m' ∧
          m'.now = t' := ⟨t, l, x, rfl, hround, hready, hnow⟩
      split_ifs
      · exact .inr ⟨m'.ran_checkCoherence, .inr rfl, hx⟩
      · exact .inr ⟨rfl, .inl rfl, hx⟩

theorem ready_boot {spec : Spec} (h : spec.validate = .ok g) (programs : Vector Program n) :
    Ready 0 (boot g spec programs) :=
  { (rested_boot h programs).1 with
    attended := attended_boot spec programs
    answers := nofun }

theorem ready_start {spec : Spec} {programs : List Program} {m₀ : Machine g programs.length}
    (h : ofSpec spec programs = .ok ⟨g, m₀⟩) : Ready 0 m₀ := by
  obtain ⟨hv, -, rfl⟩ := ofSpec_eq_ok.mp h
  exact ready_boot hv _

theorem ready_step {m m' : Machine g n} {r : Except SimError Bool} {t : Nat} (h : Ready t m)
    (hs : m.step = .ok (r, m')) : ∃ t', Ready t' m' := by
  obtain ⟨-, he, -⟩ | ⟨-, -, t', l, x, -, -, hready, -⟩ := (yields_step h).of_eq_ok hs
  · have he : m' = m := he
    exact ⟨t, he ▸ h⟩
  · exact ⟨t' + 1, hready⟩

theorem ready_of_reaches {m₀ m : Machine g n} {l : List Transfer} (h : Reaches m₀ l m) {t₀ : Nat}
    (h₀ : Ready t₀ m₀) : ∃ t, Ready t m := by
  induction h with
  | start => exact ⟨t₀, h₀⟩
  | step _ hs ih =>
    obtain ⟨t, ht⟩ := ih
    exact ready_step ht hs

/-- **Every state that steps can reach is ready for the next one.** -/
theorem ready_of_ofSpec {spec : Spec} {programs : List Program} {g : Geometry}
    {m₀ m : Machine g programs.length} {l : List Transfer}
    (h : ofSpec spec programs = .ok ⟨g, m₀⟩) (hr : m₀.Reaches l m) : ∃ t, Ready t m :=
  ready_of_reaches hr (ready_start h)

/-- **The states between steps**, with the cycles that were run and what was driven in them. -/
inductive Plays (m₀ : Machine g n) : List (Nat × Option Transfer) → Machine g n → Prop
  | start : Plays m₀ [] m₀
  | step {l : List (Nat × Option Transfer)} {m m' : Machine g n} {r : Except SimError Bool}
      (h : Plays m₀ l m) (hs : m.step = .ok (r, m')) :
      Plays m₀ (l ++ if ran r then [(m'.now, m'.bus.current)] else []) m'

theorem Plays.reaches {m₀ m : Machine g n} {l : List (Nat × Option Transfer)}
    (h : m₀.Plays l m) : m₀.Reaches (l.filterMap Prod.snd) m := by
  induction h with
  | start => exact .start
  | @step l m m' r _ hs ih =>
    have := ih.step hs
    rw [List.filterMap_append]
    cases hr : ran r with
    | false => simpa [hr] using this
    | true =>
      cases hc : m'.bus.current with
      | none => simpa [hr, hc] using this
      | some u => simpa [hr, hc] using this

/-- **The states between steps**, with those that the cycles run so far have left. -/
inductive Visits (m₀ : Machine g n) : List (Machine g n) → Machine g n → Prop
  | start : Visits m₀ [] m₀
  | step {xs : List (Machine g n)} {m m' : Machine g n} {r : Except SimError Bool}
      (h : Visits m₀ xs m) (hs : m.step = .ok (r, m')) :
      Visits m₀ (xs ++ if ran r then [m'] else []) m'

/-- **What every cycle keeps** holds after all of them. -/
theorem Visits.induct {m₀ m : Machine g n} {xs : List (Machine g n)} (h : m₀.Visits xs m) {t₀ : Nat}
    (h₀ : Ready t₀ m₀) {P : Nat → List (Machine g n) → Machine g n → Prop} (start : P t₀ [] m₀)
    (cycle : ∀ {t₁ xs y t l x y'}, Ready t₁ y → P t₁ xs y → y.queue.nextTime = some t →
      y.Round t l x y' → Ready (t + 1) y' → y'.now = t → P (t + 1) (xs ++ [y']) y') :
    ∃ t, Ready t m ∧ P t xs m := by
  induction h with
  | start => exact ⟨t₀, h₀, start⟩
  | @step xs m m' r _ hs ih =>
    obtain ⟨t, hready, hp⟩ := ih
    obtain ⟨hran, he, -⟩ | ⟨hran, -, t', l, x, ht', hround, hready', hnow⟩ :=
      (yields_step hready).of_eq_ok hs
    · have he : m' = m := he
      rw [show ran r = false from hran, if_neg Bool.false_ne_true, List.append_nil, he]
      exact ⟨t, hready, hp⟩
    · rw [show ran r = true from hran, if_pos rfl]
      exact ⟨t' + 1, hready', cycle hready hp ht' hround hready' hnow⟩

theorem Plays.visits {m₀ m : Machine g n} {log : List (Nat × Option Transfer)}
    (h : m₀.Plays log m) :
    ∃ xs, m₀.Visits xs m ∧ log = xs.map fun x => (x.now, x.bus.current) := by
  induction h with
  | start => exact ⟨[], .start, rfl⟩
  | @step log m m' r _ hs ih =>
    obtain ⟨xs, hxs, rfl⟩ := ih
    refine ⟨_, hxs.step hs, ?_⟩
    rw [List.map_append]
    cases ran r <;> rfl

theorem Visits.plays {m₀ m : Machine g n} {xs : List (Machine g n)} (h : m₀.Visits xs m) :
    m₀.Plays (xs.map fun x => (x.now, x.bus.current)) m := by
  induction h with
  | start => exact .start
  | @step xs m m' r _ hs ih =>
    rw [List.map_append]
    have := ih.step hs
    cases hr : ran r <;> simpa [hr] using this

theorem Plays.induct_ready {m₀ m : Machine g n} {log : List (Nat × Option Transfer)}
    (h : m₀.Plays log m) {t₀ : Nat} (h₀ : Ready t₀ m₀)
    {P : Nat → List (Nat × Option Transfer) → Machine g n → Prop} (start : P t₀ [] m₀)
    (cycle : ∀ {t₁ log y t l x y'}, Ready t₁ y → P t₁ log y → y.queue.nextTime = some t →
      y.Round t l x y' → Ready (t + 1) y' → P (t + 1) (log ++ [(t, y'.bus.current)]) y') :
    ∃ t, Ready t m ∧ P t log m := by
  obtain ⟨xs, hxs, rfl⟩ := h.visits
  refine hxs.induct h₀ (P := fun t xs y => P t (xs.map fun x => (x.now, x.bus.current)) y) start
    fun hy hp ht hr hready hnow => ?_
  rw [List.map_append, List.map_singleton, hnow]
  exact cycle hy hp ht hr hready

theorem Plays.induct {m₀ m : Machine g n} {log : List (Nat × Option Transfer)}
    (h : m₀.Plays log m) {t₀ : Nat} (h₀ : Ready t₀ m₀)
    {P : Nat → List (Nat × Option Transfer) → Machine g n → Prop} (start : P t₀ [] m₀)
    (cycle : ∀ {t₁ log y t l x y'}, Ready t₁ y → P t₁ log y → y.queue.nextTime = some t →
      y.Round t l x y' → P (t + 1) (log ++ [(t, y'.bus.current)]) y') :
    ∃ t, Ready t m ∧ P t log m :=
  h.induct_ready h₀ start fun hy hp ht hr _ => cycle hy hp ht hr

theorem Plays.cycles_lt {m₀ m : Machine g n} {log : List (Nat × Option Transfer)}
    (h : m₀.Plays log m) {t₀ : Nat} (h₀ : Ready t₀ m₀) : ∃ t, Ready t m ∧
      (log.map Prod.fst).Pairwise (· < ·) ∧ ∀ e ∈ log, e.1 < t ∧ e.1 < UInt64.size := by
  refine h.induct h₀ (P := fun t log _ => (log.map Prod.fst).Pairwise (· < ·) ∧
    ∀ e ∈ log, e.1 < t ∧ e.1 < UInt64.size) ⟨.nil, nofun⟩
    fun {t log y t' l x y'} hready ⟨hlog, hlt⟩ ht' _ => ?_
  obtain ⟨e, he, rfl⟩ := WakeQueue.mem_of_nextTime ht'
  have hle := hready.later e he
  refine ⟨?_, fun c hc => ?_⟩
  · rw [List.map_append]
    refine List.pairwise_append.mpr ⟨hlog, List.pairwise_singleton _ _, fun a ha b hb => ?_⟩
    obtain ⟨c, hc, rfl⟩ := List.mem_map.mp ha
    obtain rfl := List.mem_singleton.mp hb
    exact Nat.lt_of_lt_of_le (hlt c hc).1 hle
  · obtain hc | hc := List.mem_append.mp hc
    · have := hlt c hc
      omega
    · rw [List.mem_singleton.mp hc]
      exact ⟨Nat.lt_succ_self _, hready.attended.waits.bounded e he⟩

theorem length_le_of_rising {l : List Nat} {k : Nat} (h : l.Pairwise (· < ·))
    (hk : ∀ t ∈ l, t < k) : l.length ≤ k := by
  have hnodup : l.Nodup := h.imp Nat.ne_of_lt
  have hsubset : l ⊆ List.range k := fun t ht => List.mem_range.mpr (hk t ht)
  exact (hnodup.subperm hsubset).length_le.trans_eq List.length_range

theorem Plays.length_le {m₀ m : Machine g n} {log : List (Nat × Option Transfer)}
    (h : m₀.Plays log m) {t₀ : Nat} (h₀ : Ready t₀ m₀) : log.length ≤ UInt64.size := by
  obtain ⟨t, -, hlog, hlt⟩ := h.cycles_lt h₀
  have hle := length_le_of_rising (k := UInt64.size) hlog fun t ht => by
    obtain ⟨e, he, rfl⟩ := List.mem_map.mp ht
    exact (hlt e he).2
  rwa [List.length_map] at hle

/-- The states after `k` steps, with those that the cycles have left, unless there is a fault. -/
def trail : (k : Nat) → List (Machine g n) → Machine g n → Option (List (Machine g n) × Machine g n)
  | 0, xs, m => some (xs, m)
  | k + 1, xs, m =>
    match m.step with
    | .error _ => none
    | .ok (r, m') => trail k (xs ++ if ran r then [m'] else []) m'

theorem Visits.trail {m₀ m m' : Machine g n} {xs xs' : List (Machine g n)} (h : m₀.Visits xs m)
    {k : Nat} (hk : trail k xs m = some (xs', m')) : m₀.Visits xs' m' := by
  induction k generalizing xs m with
  | zero =>
    cases hk
    exact h
  | succ k ih =>
    unfold Machine.trail at hk
    cases hs : m.step with
    | error f =>
      rw [hs] at hk
      cases hk
    | ok y =>
      rw [hs] at hk
      exact ih (h.step hs) hk

theorem exists_visits (m₀ : Machine g n) (k : Nat) (P : List (Machine g n) → Prop)
    [DecidablePred P] (h : (trail k [] m₀).any fun y => P y.1) : ∃ xs m, m₀.Visits xs m ∧ P xs := by
  obtain ⟨⟨xs, m⟩, hk, hp⟩ := (Option.any_eq_true _ _).mp h
  exact ⟨xs, m, Visits.start.trail hk, of_decide_eq_true hp⟩

theorem Reaches.plays {m₀ m : Machine g n} {l : List Transfer} (h : m₀.Reaches l m) :
    ∃ log, m₀.Plays log m := by
  induction h with
  | start => exact ⟨[], .start⟩
  | step _ hs ih =>
    obtain ⟨log, hlog⟩ := ih
    exact ⟨_, hlog.step hs⟩

end Machine

end Snooping
