import Snooping.Proofs.Cache.Losses
import Snooping.Proofs.Machine.Attendance
import Snooping.Proofs.Machine.Broadcast

/-!
# What a broadcast leaves behind

A broadcast changes every member by what it sees, and wakes those that have slept on it. It fails
only by leaving the range of cycles.

* `Machine.seenBus`: the bus as a cache sees it, after the smaller ones have looked.
* `Machine.handed`: the job that a cache hands back.
* **`Machine.Aired`**: the machine after a broadcast, member by member.
* `Machine.Aired.heeds`: what a broadcast leaves of a cache.
* `Machine.attended_snoop`, `Machine.attended_enqueue`, `Machine.attended_observe`: nobody is
  forgotten while one member looks.
* **`Machine.yields_broadcast`**: a broadcast airs what was driven and forgets nobody, or overflows.
-/

namespace Snooping

variable {g : Geometry} {n : Nat}

/-! ## Members -/

/-- A forwarder takes the job that it is left, if there is one. -/
def Forwarder.accept (f : Forwarder) : Option ForwardJob → Forwarder
  | none => f
  | some k => (f.push k).2

theorem Forwarder.queue_accept (f : Forwarder) (o : Option ForwardJob) :
    (f.accept o).queue = f.queue ++ o.toList := by
  cases o with
  | none => exact (List.append_nil _).symm
  | some k => rfl

theorem Forwarder.parked_accept (f : Forwarder) (o : Option ForwardJob) :
    (f.accept o).parked ↔ o = none ∧ f.parked := by
  cases o with
  | none => simp [accept]
  | some k => simp [accept, push]

namespace Cache

theorem bus_snoop_eq (c : Cache g) (bus : Bus) :
    ∃ s k, (c.snoop bus).2.2 = { bus with shared := s, claimed := k } := by
  have hsame : ∃ s k, bus = { bus with shared := s, claimed := k } := ⟨_, _, rfl⟩
  unfold snoop
  split
  · exact hsame
  · split
    · dsimp only
      split
      · exact ⟨true, _, rfl⟩
      · exact hsame
    · split
      · exact hsame
      · split
        · exact hsame
        · unfold react
          split
          · split
            · exact hsame
            · obtain ⟨f, he⟩ := c.shareLine_cases bus _ _ _
              rw [he]
              exact ⟨_, true, rfl⟩
          · exact hsame

theorem sleeps_snoop {c : Cache g} (h : c.Tidy) (bus : Bus) :
    (c.snoop bus).2.1.stage.sleeps = c.stage.sleeps ∧
      ((c.snoop bus).2.1.stage = .idle ↔ c.stage = .idle) := by
  have hsame : ∀ {c' : Cache g}, c' = c →
      c'.stage.sleeps = c.stage.sleeps ∧ (c'.stage = .idle ↔ c.stage = .idle) := fun he => by
    rw [he]
    exact ⟨rfl, Iff.rfl⟩
  cases hc : bus.current with
  | none =>
    have hs : c.snoop bus = (none, c, bus) := by simp only [snoop, hc]
    exact hsame (by rw [hs])
  | some t =>
    by_cases ht : t.requester = c.id
    · exact hsame (by rw [snoop_own hc ht])
    · rw [stage_snoop h hc ht, Stage.seen]
      split_ifs with hs
      · rw [hs.2]
        exact ⟨rfl, iff_of_false (by simp) (by simp)⟩
      · exact ⟨rfl, Iff.rfl⟩

/-- A cache that looks for its answer goes on if it finds one, and sleeps on otherwise. -/
theorem sleeps_observe (c : Cache g) (bus : Bus) :
    ((c.observe bus).2.stage = .idle ↔ c.stage = .idle) ∧
      ((c.observe bus).2.stage.sleeps ↔ (c.observe bus).1 = false ∧ c.stage.sleeps) ∧
      ((c.observe bus).1 → c.stage.sleeps) := by
  have hsame : ∀ {c' : Cache g}, c'.stage = c.stage → (c'.stage = .idle ↔ c.stage = .idle) ∧
      (c'.stage.sleeps ↔ false = false ∧ c.stage.sleeps) ∧ (false = true → c.stage.sleeps) :=
    fun he => by
      rw [he]
      exact ⟨Iff.rfl, (and_iff_right rfl).symm, nofun⟩
  have hwoken : ∀ {c' : Cache g} {a : Access g.ways}, c.access = some a → a.phase.waits = true →
      c'.stage.sleeps = false → (∃ a', c'.access = some a') →
      (c'.stage = .idle ↔ c.stage = .idle) ∧
        (c'.stage.sleeps ↔ true = false ∧ c.stage.sleeps) ∧ (true = true → c.stage.sleeps) :=
    fun ha hw hs ⟨a', ha'⟩ =>
      ⟨iff_of_false (stage_ne_idle_of_access ha') (stage_ne_idle_of_access ha),
        iff_of_false (by rw [hs]; exact Bool.false_ne_true) (fun hx => nomatch hx.1),
        fun _ => (sleeps_of_access ha).trans hw⟩
  unfold observe
  cases ha : c.access with
  | none => exact hsame rfl
  | some a =>
    dsimp only
    cases hp : a.phase with
    | awaitWriteBack w u =>
      dsimp only
      split
      · split
        · refine hwoken ha (by rw [hp]; rfl) ((sleeps_of_access rfl).trans rfl) ⟨_, rfl⟩
        · exact hsame rfl
      · exact hsame rfl
    | awaitFill w =>
      dsimp only
      split
      · split
        · exact hsame (c.fades_contend.stage_eq fun _ _ hd => hd)
        · refine hwoken ha (by rw [hp]; rfl) ?_ ?_
          · rw [stage_install]
            rfl
          · unfold install
            dsimp only
            split_ifs
            · exact ⟨_, rfl⟩
            · exact ⟨_, rfl⟩
      · exact hsame rfl
    | _ => exact hsame rfl

end Cache

namespace Machine

/-! ## What is seen -/

/-- **The bus after the caches before `k` have looked.** -/
def seenBus (m : Machine g n) : Nat → Bus
  | 0 => m.bus
  | k + 1 =>
    if h : k < n then (m.caches[(⟨k, h⟩ : Fin n)].snoop (m.seenBus k)).2.2 else m.seenBus k

/-- The job that a cache hands back. -/
def handed (m : Machine g n) (j : Fin n) : Option ForwardJob :=
  (m.caches[j].snoop (m.seenBus j)).1

theorem seenBus_succ (m : Machine g n) (i : Fin n) :
    m.seenBus (i + 1) = (m.caches[i].snoop (m.seenBus i)).2.2 := dif_pos i.isLt

theorem seenBus_eq (m : Machine g n) (k : Nat) :
    ∃ s c, m.seenBus k = { m.bus with shared := s, claimed := c } := by
  induction k with
  | zero => exact ⟨m.bus.shared, m.bus.claimed, rfl⟩
  | succ k ih =>
    by_cases hk : k < n
    · obtain ⟨s, c, he⟩ := m.caches[(⟨k, hk⟩ : Fin n)].bus_snoop_eq (m.seenBus k)
      obtain ⟨s', c', he'⟩ := ih
      refine ⟨s, c, ?_⟩
      rw [seenBus, dif_pos hk, he, he']
    · rw [seenBus, dif_neg hk]
      exact ih

/-- **The machine after a broadcast**, member by member. -/
structure Aired (m m' : Machine g n) : Prop where
  spec : m'.spec = m.spec
  cores : m'.cores = m.cores
  now : m'.now = m.now
  bus : m'.bus = m.seenBus n
  caches : ∀ j : Fin n,
    m'.caches[j] = ((m.caches[j].snoop (m.seenBus j)).2.1.observe (m.seenBus n)).2
  forwarders : ∀ j : Fin n, m'.forwarders[j] = m.forwarders[j].accept (m.handed j)
  memory : m'.memory = (m.memory.snoop (m.seenBus n)).2

theorem current_seenBus (m : Machine g n) (k : Nat) : (m.seenBus k).current = m.bus.current := by
  obtain ⟨s, c, he⟩ := m.seenBus_eq k
  rw [he]

/-- A broadcast changes nothing on the bus but what the caches say of the line. -/
theorem Aired.bus_eq {m m' : Machine g n} (h : m.Aired m') :
    ∃ s c, m'.bus = { m.bus with shared := s, claimed := c } := by
  rw [h.bus]
  exact m.seenBus_eq n

theorem Aired.current_eq {m m' : Machine g n} (h : m.Aired m') :
    m'.bus.current = m.bus.current := by
  rw [h.bus]
  exact m.current_seenBus n

/-- **What a broadcast leaves of a cache**: the answer comes after what its peers have left. -/
theorem Aired.heeds {m m' : Machine g n} (h : m.Aired m') (j : Fin n) :
    (m.caches[j].snoop (m.seenBus j)).2.1.Heeds m'.caches[j] := by
  rw [h.caches j]
  exact Cache.heeds_observe _ _

/-! ## One member looks -/

/-- Who was found asleep waits for cycle `t`. -/
def rouse (m : Machine g n) (slept : Bool) (t : Nat) (p : Agent (Fin n)) : Machine g n :=
  if slept then m.wake t p else m

theorem rouse_eq (m : Machine g n) (slept : Bool) (t : Nat) (p : Agent (Fin n)) :
    m.rouse slept t p = { m with queue := if slept then m.queue.add t p else m.queue } := by
  cases slept <;> rfl

theorem yields_wakeIf {m : Machine g n} {t : Nat} (h : m.now ≤ t) (slept : Bool)
    (p : Agent (Fin n)) : Yields (m.wakeIf slept t p) fun m' => m' = m.rouse slept t p := by
  unfold wakeIf
  cases slept with
  | false => exact rfl
  | true =>
    refine (m.yields_schedule h p).bind fun q _ hq => ?_
    subst hq
    exact rfl

theorem yields_snoopCache {m : Machine g n} {t : Nat} (h : m.now ≤ t) (i : Fin n) :
    Yields (m.snoopCache t i) fun m' => m' =
      ((m.putForwarder i (m.forwarders[i].accept (m.caches[i].snoop m.bus).1) m.bus).putCache i
        (m.caches[i].snoop m.bus).2.1 (m.caches[i].snoop m.bus).2.2).rouse
          ((m.caches[i].snoop m.bus).1.isSome && m.forwarders[i].parked) t (.forwarder i) := by
  unfold snoopCache
  generalize m.caches[i].snoop m.bus = x
  obtain ⟨job, c, bus⟩ := x
  cases job with
  | none =>
    show _ = _
    simp [Forwarder.accept, rouse, putForwarder, putCache]
  | some k =>
    refine (yields_wakeIf (m := { m with
      caches := m.caches.put i c
      bus := bus
      forwarders := m.forwarders.put i (m.forwarders[i].push k).2 }) h _ _).imp fun m' _ he => ?_
    rw [he, Option.isSome_some, Bool.true_and]
    rfl

theorem Attended.paired_put {m : Machine g n} (h : m.Attended none) {i : Fin n} {c : Cache g}
    (hc : c.stage = .idle ↔ m.caches[i].stage = .idle) (j : Fin n) :
    m.cores[j].activity = .waiting ↔ (m.caches.put i c)[j].stage ≠ .idle :=
  Vector.forall_put (P := fun j (c : Cache g) => m.cores[j].activity = .waiting ↔ c.stage ≠ .idle)
    ((h.paired i).trans (not_congr hc).symm) h.paired j

section Look

variable {m : Machine g n} {t : Nat} (h : m.Attended none) (ht : t < UInt64.size)
include h ht

theorem Attended.rouse {m' : Machine g n} {slept : Bool} {p : Agent (Fin n)}
    (hq : m'.queue = m.queue) (hp : slept = true → m.Asleep p)
    (hA : ∀ a, m'.Asleep a ↔ ¬ (slept = true ∧ a = p) ∧ m.Asleep a)
    (hpaired : ∀ i : Fin n, m'.cores[i].activity = .waiting ↔ m'.caches[i].stage ≠ .idle)
    (hd : m'.memory.parked → m'.memory.pending = [])
    (hs : m'.memory.service = m.memory.service)
    (hf : ∀ j : Fin n, m.forwarders[j].queue ≠ [] → m'.forwarders[j].queue ≠ [])
    (hb : m'.bus.forwardIntended = m.bus.forwardIntended ∧
      m'.bus.responseIntended = m.bus.responseIntended) :
    (m'.rouse slept t p).Attended none := by
  have hwaits : m.queue.Attends m.Asleep := h.waits.congr fun a => by simp
  rw [rouse_eq, hq]
  refine ⟨?_, nofun, nofun, hpaired, hd, fun u ready hx => .inr ?_, fun hx => ?_, fun hx => ?_⟩
  · cases slept with
    | false =>
      refine hwaits.congr fun a => ?_
      show none = some a ∨ m'.Asleep a ↔ _
      simpa using hA a
    | true =>
      refine (WakeQueue.attends_add hwaits (hp rfl) ht).congr fun a => ?_
      show none = some a ∨ m'.Asleep a ↔ _
      simpa using hA a
  · have hmem := (h.serving u ready (hs ▸ hx)).resolve_left nofun
    show _ ∈ (if slept then m.queue.add t p else m.queue).pending
    split
    · exact WakeQueue.mem_add.mpr (.inr hmem)
    · exact hmem
  · obtain ⟨j, hj⟩ := h.forwards (hb.1 ▸ hx)
    exact ⟨j, hf j hj⟩
  · obtain ⟨u, d, hu⟩ := h.responds (hb.2 ▸ hx)
    exact ⟨u, d, hs.trans hu⟩

theorem attended_snoop {i : Fin n} (htidy : m.caches[i].Tidy) :
    (((m.putForwarder i (m.forwarders[i].accept (m.caches[i].snoop m.bus).1) m.bus).putCache i
      (m.caches[i].snoop m.bus).2.1 (m.caches[i].snoop m.bus).2.2).rouse
        ((m.caches[i].snoop m.bus).1.isSome && m.forwarders[i].parked) t
        (.forwarder i)).Attended none := by
  obtain ⟨hsleeps, hidle⟩ := Cache.sleeps_snoop htidy m.bus
  obtain ⟨s, k, hb⟩ := m.caches[i].bus_snoop_eq m.bus
  generalize m.caches[i].snoop m.bus = x at *
  obtain ⟨job, c, bus⟩ := x
  dsimp only at hsleeps hidle hb ⊢
  have hpark := m.forwarders[i].parked_accept job
  have hqueue : m.forwarders[i].queue ≠ [] → (m.forwarders[i].accept job).queue ≠ [] :=
    fun hne => by
      rw [Forwarder.queue_accept]
      exact List.append_ne_nil_of_left_ne_nil hne _
  refine h.rouse ht rfl (fun hx => (Bool.and_eq_true_iff.mp hx).2) (fun a => ?_)
    (h.paired_put hidle) h.drained rfl
    (Vector.forall_put (P := fun (j : Fin n) (f : Forwarder) =>
      m.forwarders[j].queue ≠ [] → f.queue ≠ []) hqueue fun _ hne => hne)
    (by rw [hb]; exact ⟨rfl, rfl⟩)
  rw [asleep_putCache, asleep_putForwarder]
  by_cases hc : a = .cache i
  · subst hc
    simp [hsleeps, Asleep]
  · rw [if_neg hc]
    by_cases hf : a = .forwarder i
    · subst hf
      rw [if_pos rfl, hpark, Asleep]
      cases job <;> simp
    · simp [hf]

theorem attended_enqueue : ({ m with memory := (m.memory.snoop m.bus).2 }.rouse
    (m.memory.snoop m.bus).1 t .memory).Attended none := by
  have hparked : ((m.memory.snoop m.bus).1 = true → m.memory.parked) ∧
      ((m.memory.snoop m.bus).2.parked ↔ ¬ (m.memory.snoop m.bus).1 = true ∧ m.memory.parked) ∧
      ((m.memory.snoop m.bus).2.parked → (m.memory.snoop m.bus).2.pending = m.memory.pending) := by
    unfold Memory.snoop
    cases m.bus.memoryRequest with
    | none => simp
    | some u => simp [Memory.enqueue]
  obtain ⟨-, -, -, -, hs⟩ := m.memory.snoop_eq m.bus
  refine h.rouse ht rfl hparked.1 (fun a => ?_) h.paired (fun hx => ?_) hs (fun j hj => hj)
    ⟨rfl, rfl⟩
  · show (m.putMemory (m.memory.snoop m.bus).2 m.bus).Asleep a ↔ _
    rw [asleep_putMemory]
    by_cases ha : a = .memory
    · subst ha
      rw [if_pos rfl, hparked.2.1, Asleep]
      simp
    · simp [ha]
  · exact (hparked.2.2 hx).trans (h.drained (hparked.2.1.mp hx).2)

theorem attended_observe (i : Fin n) : ((m.putCache i (m.caches[i].observe m.bus).2 m.bus).rouse
    (m.caches[i].observe m.bus).1 t (.cache i)).Attended none := by
  obtain ⟨hidle, hsleeps, hslept⟩ := m.caches[i].sleeps_observe m.bus
  refine h.rouse ht rfl hslept (fun a => ?_) (h.paired_put hidle) h.drained rfl (fun j hj => hj)
    ⟨rfl, rfl⟩
  rw [asleep_putCache]
  by_cases ha : a = .cache i
  · subst ha
    rw [if_pos rfl, hsleeps, Asleep]
    simp
  · simp [ha]

end Look

/-! ## Everybody looks -/

/-- The caches before `k` have looked, member by member. -/
structure Snooped (m₀ : Machine g n) (k : Nat) (m : Machine g n) : Prop where
  spec : m.spec = m₀.spec
  cores : m.cores = m₀.cores
  memory : m.memory = m₀.memory
  bus : m.bus = m₀.seenBus k
  caches : ∀ j : Fin n, m.caches[j] =
    if (j : Nat) < k then (m₀.caches[j].snoop (m₀.seenBus j)).2.1 else m₀.caches[j]
  forwarders : ∀ j : Fin n, m.forwarders[j] =
    if (j : Nat) < k then m₀.forwarders[j].accept (m₀.handed j) else m₀.forwarders[j]

theorem snooped_start (m : Machine g n) : Snooped m 0 m :=
  ⟨rfl, rfl, rfl, rfl, fun _ => (if_neg (Nat.not_lt_zero _)).symm,
    fun _ => (if_neg (Nat.not_lt_zero _)).symm⟩

theorem snooped_snoop {m₀ m : Machine g n} {i : Fin n} (h : Snooped m₀ i m) (slept : Bool)
    (t : Nat) : Snooped m₀ (i + 1)
      (((m.putForwarder i (m.forwarders[i].accept (m.caches[i].snoop m.bus).1) m.bus).putCache i
        (m.caches[i].snoop m.bus).2.1 (m.caches[i].snoop m.bus).2.2).rouse slept t
          (.forwarder i)) := by
  have hc : m.caches[i] = m₀.caches[i] := (h.caches i).trans (if_neg (Nat.lt_irrefl _))
  have hf : m.forwarders[i] = m₀.forwarders[i] := (h.forwarders i).trans (if_neg (Nat.lt_irrefl _))
  have hjob : (m₀.caches[i].snoop (m₀.seenBus i)).1 = m₀.handed i := rfl
  rw [rouse_eq, h.bus, hc, hf, hjob]
  refine ⟨h.spec, h.cores, h.memory, (m₀.seenBus_succ i).symm, fun j => ?_, fun j => ?_⟩
  · show (m.caches.put i (m₀.caches[i].snoop (m₀.seenBus i)).2.1)[j] = _
    rw [getElem_put]
    have hput := update_ite h.caches j
    exact hput
  · show (m.forwarders.put i (m₀.forwarders[i].accept (m₀.handed i)))[j] = _
    rw [getElem_put]
    have hput := update_ite h.forwarders j
    exact hput

theorem aired_of_undriven {m : Machine g n} (hc : m.bus.current = none) : m.Aired m := by
  have hsnoop : ∀ {c : Cache g}, c.snoop m.bus = (none, c, m.bus) := fun {c} => by
    simp only [Cache.snoop, hc]
  have hbus : ∀ k, m.seenBus k = m.bus := fun k => by
    induction k with
    | zero => rfl
    | succ k ih =>
      by_cases hk : k < n
      · rw [seenBus, dif_pos hk, ih, hsnoop]
      · rw [seenBus, dif_neg hk, ih]
  have hanswer : ∀ {core a}, m.bus.answerFor core a = none := fun {core a} => by
    rw [Bus.answerFor, hc]
    rfl
  have hobserve : ∀ {c : Cache g}, c.observe m.bus = (false, c) := fun {c} => by
    unfold Cache.observe
    simp only [hanswer]
    split
    · rfl
    · split <;> rfl
  refine ⟨rfl, rfl, rfl, (hbus n).symm, fun j => ?_, fun j => ?_, ?_⟩
  · rw [hbus, hbus, hsnoop, hobserve]
  · rw [handed, hbus, hsnoop]
    rfl
  · rw [hbus]
    simp only [Memory.snoop, Bus.memoryRequest, hc]
    rfl

/-- **A broadcast airs what was driven** and forgets nobody, or overflows. -/
theorem yields_broadcast {k : Nat} {m : Machine g n} (h : Running k m)
    (hdue : ∀ e ∈ m.queue.pending, m.now < e.1) (ha : m.Attended none) :
    Yields m.broadcast fun m' => m.Aired m' ∧ m'.Attended none := by
  cases hc : m.bus.current with
  | none =>
    rw [broadcast_of_undriven hc]
    exact ⟨aired_of_undriven hc, ha⟩
  | some u =>
    unfold broadcast
    rw [if_pos (by rw [Bus.isDriven, hc]; rfl)]
    refine (yields_sum64 m.now 1).bind fun next _ hnext => ?_
    obtain ⟨rfl, hl⟩ := hnext
    have hle : ∀ {x : Machine g n}, x.now = m.now → x.now ≤ m.now + 1 := fun hx => by omega
    refine (yields_foldlM (P := fun k x => Heard m u k x ∧ Snooped m k x ∧ x.Attended none)
      (fun {i x} hx => ?_) ⟨heard_start h hdue hc, m.snooped_start, ha⟩).bind fun m₁ _ hx => ?_
    · obtain ⟨hh, hs, hx⟩ := hx
      refine (yields_snoopCache (hle hh.wakes.now) i).imp fun x' hr he => ?_
      have hx' := attended_snoop hx hl (hh.sound.tidy i)
      rw [he] at hr ⊢
      exact ⟨heard_snoop hh hr, snooped_snoop hs _ _, hx'⟩
    · obtain ⟨hh, hs, hx⟩ := hx
      have hlt : m₁.now < m.now + 1 := hh.wakes.now ▸ Nat.lt_succ_self _
      refine Yields.bind (P := fun m₂ => Watched m₂ 0 m₂ ∧ m₂.now = m.now ∧ m₂.Attended none ∧
        ∃ q, m₂ = { m₁ with memory := (m₁.memory.snoop m₁.bus).2, queue := q }) ?_ ?_
      · refine (yields_wakeIf (m := { m₁ with memory := (m₁.memory.snoop m₁.bus).2 })
          (Nat.le_of_lt hlt) (m₁.memory.snoop m₁.bus).1 .memory).imp fun m₂ hr he => ?_
        have hx' := attended_enqueue hx hl
        rw [← he] at hx'
        obtain ⟨q, he, hw⟩ := snoopMemory_eq hh.wakes.timed hlt hr
        subst he
        exact ⟨⟨⟨rfl, hw.timed, fun _ he => he⟩, rfl, rfl, rfl, rfl, rfl,
          fun j => (if_neg (Nat.not_lt_zero _)).symm⟩, hw.now.trans hh.wakes.now, hx', q, rfl⟩
      · rintro m₂ - ⟨hwatch, hnow, hx₂, q, hm₂⟩
        rw [← hnow] at hl hle ⊢
        refine (yields_foldlM (P := fun k x => Watched m₂ k x ∧ x.Attended none)
          (fun {i x} hx => ?_) ⟨hwatch, hx₂⟩).imp fun m' _ hx => ⟨?_, hx.2⟩
        · obtain ⟨hw, hx⟩ := hx
          refine (yields_wakeIf (m := x.putCache i (x.caches[i].observe x.bus).2 x.bus)
            (hle hw.wakes.now) _ _).imp fun x' hr he => ⟨watched_observe hw hr, ?_⟩
          rw [he]
          exact attended_observe hx hl i
        · obtain ⟨hw, -⟩ := hx
          subst hm₂
          have hall : ∀ j : Fin n, (j : Nat) < n := fun j => j.isLt
          refine ⟨hw.spec.trans hs.spec, hw.cores.trans hs.cores, hw.wakes.now.trans hnow,
            hw.bus.trans hs.bus, fun j => ?_, fun j => ?_, ?_⟩
          · rw [hw.caches j, if_pos (hall j)]
            show (m₁.caches[j].observe m₁.bus).2 = _
            rw [hs.caches j, if_pos (hall j), hs.bus]
          · rw [hw.forwarders]
            exact (hs.forwarders j).trans (if_pos (hall j))
          · rw [hw.memory]
            show (m₁.memory.snoop m₁.bus).2 = _
            rw [hs.memory, hs.bus]

end Machine

end Snooping
