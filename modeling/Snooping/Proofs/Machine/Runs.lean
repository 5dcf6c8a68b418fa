import Snooping.Machine.Run
import Snooping.Proofs.Machine.Broadcast

/-!
# What holds between two steps

A cycle starts from a machine in which everybody has looked at the bus, and leaves such a machine
behind. What holds after every cycle holds in all states that steps can reach.

* **`Machine.Rested`**: what holds before cycle `t`.
* **`Machine.rested_cycle`**: a cycle keeps it.
* **`Machine.Reaches`**: the states between steps, with what was driven on the way.
* **`Machine.rested_step`**, **`Machine.rested_of_ofSpec`**: all of them are at rest.
* `Machine.tiny`: a small machine, in which every kind of transfer occurs.
-/

namespace Snooping.Machine

variable {g : Geometry} {n : Nat}

/-- **What holds between two steps**, when nothing has happened in cycle `t` yet. -/
structure Rested (t : Nat) (m : Machine g n) : Prop where
  sound : m.Sound
  usable : m.spec.Usable
  coherent : m.calm.Coherent (valueOf m.timeline)
  recorded : m.Recorded
  sorted : WakeQueue.Sorted m.queue.pending
  later : ∀ e ∈ m.queue.pending, t ≤ e.1
  past : ∀ e ∈ m.timeline, e.ended.cycle < t
  sends : ∀ j : Fin n, m.forwarders[j].parked ∨ (t, .forwarder j) ∈ m.queue.pending
  takes : ∀ (i : Fin n) a, m.caches[i].stage = .taken a → (t, .cache i) ∈ m.queue.pending
  gone : ∀ u, m.bus.current = some u → u.func = .write ∨ u.func = .invalidate →
    ∀ j : Fin n, (j : Nat) ≠ u.requester → (m.caches[j].copy u.addr).1 = .invalid

theorem Rested.copy_eq {t : Nat} {m : Machine g n} (h : Rested t m) {i : Fin n} {a : Addr}
    {x : Line} (hx : (a, x) ∈ m.caches[i].resident) :
    m.calm.copy i a = (x.state, x.data) ∧ a.line = a :=
  Cache.copy_of_mem_resident (h.sound.tidy i).distinct (h.sound.tidy i).bounded hx

/-! ## One cycle -/

/-- The machine at the start of cycle `t`. -/
def started (m : Machine g n) (t : Nat) : Machine g n :=
  { m with queue := m.queue.setTime t, bus := m.bus.begin t }

theorem running_started {m : Machine g n} {t₀ t : Nat} (h : Rested t₀ m)
    (ht : m.queue.nextTime = some t) : Running 0 (m.started t) := by
  have hle := WakeQueue.nextTime_le ht h.sorted
  -- Whoever waits for the cycle of the rest is due in this one.
  have hdue : ∀ {p}, (t₀, p) ∈ m.queue.pending → (t, p) ∈ m.queue.pending := fun {p} hp => by
    obtain ⟨e, he, rfl⟩ := WakeQueue.mem_of_nextTime ht
    have h₁ := hle _ hp
    have h₂ := h.later _ he
    obtain rfl : e.1 = t₀ := Nat.le_antisymm h₁ h₂
    exact hp
  have hpast : ∀ e ∈ m.timeline, e.ended.cycle < t := fun e he => by
    obtain ⟨x, hx, rfl⟩ := WakeQueue.mem_of_nextTime ht
    exact Nat.lt_of_lt_of_le (h.past e he) (h.later x hx)
  exact {
    sound := h.sound.congr rfl rfl rfl rfl
    usable := h.usable
    coherent := h.coherent
    recorded := ⟨h.recorded.ordered, h.recorded.faithful⟩
    past := fun e he => .inl (hpast e he)
    timed := ⟨h.sorted, hle, fun _ _ => Nat.zero_le _⟩
    quiet := ⟨rfl, rfl⟩
    spoken := fun _ hc => nomatch hc
    fresh := fun i hf => absurd hf (View.not_fresh_of_none rfl i)
    sends := fun j => (h.sends j).imp_right fun hs => .inl (hdue hs)
    takes := fun i a hs => .inl (hdue (h.takes i a hs)) }

/-- Every cache has an open request in a history if and only if it waits. -/
def Told (l : List Transfer) (m : Machine g n) : Prop :=
  ∀ i : Fin n, ∃ o, Answered (l.filter (·.concerns i)) o ∧ View.Matches (m.calm.stage i) o

theorem calm_of_none {m : Machine g n} (h : m.bus.current = none) : m.calm = m.view := by
  simp only [calm, view, h]

theorem rested_of_undriven {k : Nat} {m : Machine g n} (h : Running k m)
    (hdue : ∀ e ∈ m.queue.pending, m.now < e.1) (hc : m.bus.current = none) :
    Rested (m.now + 1) m where
  sound := h.sound
  usable := h.usable
  coherent := by
    rw [calm_of_none hc]
    exact h.coherent
  recorded := h.recorded
  sorted := h.timed.sorted
  later := hdue
  past e he := by
    have := h.past e he
    omega
  sends j := (h.sends j).imp_right fun hs =>
    (hs.resolve_left fun he => Nat.lt_irrefl _ (hdue _ he)).1
  takes i a hs := ((h.takes i a hs).resolve_left fun he => Nat.lt_irrefl _ (hdue _ he)).2
  gone u hu := nomatch hc.symm.trans hu

theorem rested_of_looked {k : Nat} {m m' : Machine g n} {u : Transfer} (h : Running k m)
    (hdue : ∀ e ∈ m.queue.pending, m.now < e.1) (hc : m.bus.current = some u)
    (hv : m.view.Broadcast u m'.calm) (hl : m.Looked m') : Rested (m.now + 1) m' := by
  have htime : m'.timeline = m.timeline := timeline_congr (entries_congr fun i => by rw [hl.cores])
  refine ⟨hl.sound, hl.spec ▸ h.usable, ?_, ⟨?_, ?_⟩, hl.wakes.timed.sorted, fun e he => ?_,
    fun e he => ?_, hl.sends, fun i a hs => ?_, fun w hw hf j hj => ?_⟩
  · rw [htime]
    exact View.coherent_broadcast m.lawful_view h.coherent hc hv
  · rw [htime]
    exact h.recorded.ordered
  · rw [htime, hl.spec]
    exact h.recorded.faithful
  · have hlate := hl.wakes.timed.later e.2
    have hfuture := hl.wakes.timed.future e he
    have hnow : m'.queue.now = m.now := hl.wakes.now
    have hslot := e.2.slot_lt
    by_contra hlt
    have heq : m'.queue.now = e.1 := by omega
    have := hlate (heq ▸ he)
    omega
  · rw [htime] at he
    have := h.past e he
    omega
  · have hs := hv.taken (i := i) hs
    exact hl.wakes.waits _ ((h.takes i a hs).resolve_left fun he => Nat.lt_irrefl _ (hdue _ he)).2
  · rw [hl.current, hc] at hw
    cases hw
    exact hv.gone hf hj

/-- **A cycle leaves a machine at rest** before the next one, and keeps the histories of all caches
answered. -/
theorem rested_cycle {m m' : Machine g n} {t₀ t : Nat} (h : Rested t₀ m)
    (ht : m.queue.nextTime = some t) (hr : m.cycle t = .ok m') :
    Rested (t + 1) m' ∧ m'.spec = m.spec ∧
      ∀ l, m.Told l → m'.Told (l ++ m'.bus.current.toList) := by
  unfold cycle at hr
  cases hd : (m.started t).runDue with
  | error f =>
    rw [started] at hd
    rw [hd] at hr
    cases hr
  | ok m₁ =>
    obtain ⟨k, ⟨hrun, hsince, hspec, hnow⟩, hdue⟩ :=
      running_runDue (running_started h ht) (View.since_refl rfl) hd
    rw [started] at hd
    rw [hd] at hr
    have hr : m₁.broadcast = .ok m' := hr
    obtain rfl : t = m₁.now := hnow.symm
    cases hc : m₁.bus.current with
    | none =>
      cases (broadcast_of_undriven hc).symm.trans hr
      refine ⟨rested_of_undriven hrun hdue hc, hspec, fun l hl i => ?_⟩
      obtain ⟨o, ho, hm⟩ := hl i
      rw [hc, Option.toList_none, List.append_nil]
      have hm : View.Matches (m'.view.stage i) o := View.matches_of_undriven hsince hc hm
      exact ⟨o, ho, hm⟩
    | some u =>
      obtain ⟨hv, hl⟩ := broadcast_view hrun hdue hc hr
      refine ⟨rested_of_looked hrun hdue hc hv hl, hl.spec.trans hspec, fun l hx i => ?_⟩
      obtain ⟨o, ho, hm⟩ := hx i
      rw [hl.current, hc, Option.toList_some]
      exact View.answered_step hrun.coherent.balanced hsince hc hv hm ho

/-! ## Steps -/

/-- A step has run a cycle. -/
def ran : Except SimError Bool → Bool
  | .ok b => b
  | .error (.incoherent _ _) => true
  | .error _ => false

/-- **The states between steps**, with what was driven on the way. -/
inductive Reaches (m₀ : Machine g n) : List Transfer → Machine g n → Prop
  | start : Reaches m₀ [] m₀
  | step {l : List Transfer} {m m' : Machine g n} {r : Except SimError Bool} (h : Reaches m₀ l m)
      (hs : m.step = .ok (r, m')) :
      Reaches m₀ (l ++ if ran r then m'.bus.current.toList else []) m'

theorem step_cases {m m' : Machine g n} {r : Except SimError Bool} (h : m.step = .ok (r, m')) :
    (m' = m ∧ (r = .ok false ∨ ∃ limit, r = .error (.cycleLimit limit))) ∨
      ∃ t, m.queue.nextTime = some t ∧ m.cycle t = .ok m' ∧
        (r = .ok true ∨ r = m'.checkCoherence.map fun _ => true) := by
  unfold step at h
  cases ht : m.queue.nextTime with
  | none =>
    rw [ht] at h
    cases h
    exact .inl ⟨rfl, .inl rfl⟩
  | some t =>
    simp only [ht] at h
    cases hb : isBeyond m.spec.maxCycles t with
    | some limit =>
      rw [hb] at h
      cases h
      exact .inl ⟨rfl, .inr ⟨limit, rfl⟩⟩
    | none =>
      simp only [hb, bind, Except.bind] at h
      cases hc : m.cycle t with
      | error f =>
        rw [hc] at h
        cases h
      | ok m₁ =>
        simp only [hc] at h
        refine .inr ⟨t, rfl, ?_⟩
        split at h
        · cases h
          exact ⟨hc, .inr rfl⟩
        · cases h
          exact ⟨hc, .inl rfl⟩

theorem ran_checkCoherence (m : Machine g n) : ran (m.checkCoherence.map fun _ => true) = true := by
  unfold checkCoherence
  cases m.violation? <;> rfl

/-- **Every step leaves a machine at rest.** -/
theorem rested_step {m m' : Machine g n} {r : Except SimError Bool} {t : Nat} (h : Rested t m)
    (hs : m.step = .ok (r, m')) : (∃ t', Rested t' m') ∧ m'.spec = m.spec ∧
      ∀ l, m.Told l → m'.Told (l ++ if ran r then m'.bus.current.toList else []) := by
  obtain ⟨rfl, hr⟩ | ⟨t', ht, hc, hr⟩ := step_cases hs
  · have hran : ran r = false := by obtain rfl | ⟨limit, rfl⟩ := hr <;> rfl
    refine ⟨⟨t, h⟩, rfl, fun l hl => ?_⟩
    rwa [hran, if_neg Bool.false_ne_true, List.append_nil]
  · have hran : ran r = true := by
      obtain rfl | rfl := hr
      · rfl
      · exact m'.ran_checkCoherence
    obtain ⟨hrest, hspec, htold⟩ := rested_cycle h ht hc
    rw [hran, if_pos rfl]
    exact ⟨⟨_, hrest⟩, hspec, htold⟩

theorem rested_of_reaches {m₀ m : Machine g n} {l : List Transfer} (h : Reaches m₀ l m) {t₀ : Nat}
    (h₀ : Rested t₀ m₀) (hl : m₀.Told []) :
    (∃ t, Rested t m) ∧ m.spec = m₀.spec ∧ m.Told l := by
  induction h with
  | start => exact ⟨⟨t₀, h₀⟩, rfl, hl⟩
  | step _ hs ih =>
    obtain ⟨⟨t, hrest⟩, hspec, htold⟩ := ih
    obtain ⟨hrest', hspec', htold'⟩ := rested_step hrest hs
    exact ⟨hrest', hspec'.trans hspec, htold' _ htold⟩

/-! ## The start -/

/-- A usable specification describes a machine for every list of programs that is not empty, and
this machine has just been booted. -/
theorem ofSpec_eq_ok {spec : Spec} {programs : List Program} {g : Geometry}
    {m : Machine g programs.length} : ofSpec spec programs = .ok ⟨g, m⟩ ↔
      spec.validate = .ok g ∧ programs ≠ [] ∧ m = boot g spec ⟨programs.toArray, rfl⟩ := by
  unfold ofSpec
  cases spec.validate with
  | error f => exact iff_of_false (fun h => by cases h) fun h => by cases h.1
  | ok g' =>
    cases programs with
    | nil => exact iff_of_false (fun h => by cases h) fun h => h.2.1 rfl
    | cons p ps =>
      constructor
      · intro h
        cases h
        exact ⟨rfl, List.cons_ne_nil p ps, rfl⟩
      · rintro ⟨h, -, rfl⟩
        cases h
        rfl

theorem timeline_boot (spec : Spec) (programs : Vector Program n) :
    (boot g spec programs).timeline = [] := by
  have he : (boot g spec programs).entries = [] := by
    simp only [entries, core_boot, Core.start, List.map_nil, List.flatMap_eq_nil_iff, implies_true]
  rw [timeline, he]
  rfl

theorem sorted_firstQueue : WakeQueue.Sorted (firstQueue n).pending := by
  refine List.pairwise_map.mpr ((List.pairwise_lt_finRange n).imp fun {i j} hij => ?_)
  have hcore : compare (Agent.core i) (.core j) = .lt := by
    show (compare (Agent.core i).rank (Agent.core j).rank).then (compare (some i) (some j)) = .lt
    rw [Ordering.then_eq_lt]
    exact .inr ⟨Nat.compare_eq_eq.mpr rfl, Nat.compare_eq_lt.mpr hij⟩
  show (compare 0 0).then (compare (Agent.core i) (.core j)) = .lt
  rw [Ordering.then_eq_lt]
  exact .inr ⟨Nat.compare_eq_eq.mpr rfl, hcore⟩

theorem rested_boot {spec : Spec} (h : spec.validate = .ok g) (programs : Vector Program n) :
    Rested 0 (boot g spec programs) ∧ (boot g spec programs).Told [] := by
  have htime := timeline_boot (g := g) spec programs
  have hblank := blank_boot (g := g) spec programs
  refine ⟨⟨sound_boot h programs, Spec.usable_of_validate h, ?_, ⟨?_, ?_⟩, ?_,
    fun _ _ => Nat.zero_le _, ?_, fun j => .inl ?_, fun i a hs => ?_, nofun⟩,
    fun i => ⟨none, .nil, fun f a => ?_⟩⟩
  · rw [htime]
    exact View.coherent_blank hblank
  · rw [htime]
    exact List.Pairwise.nil
  · rw [htime]
    intro before e after hx
    exact absurd hx.symm (by simp)
  · exact sorted_firstQueue
  · rw [htime]
    exact nofun
  · rw [forwarder_boot]
    rfl
  · cases (hblank.stage i).symm.trans hs
  · rw [hblank.stage i]
    exact iff_of_false Stage.noConfusion fun ⟨_, ho, _⟩ => nomatch ho

/-- **What holds in every state that steps can reach.** -/
theorem rested_of_ofSpec {spec : Spec} {programs : List Program} {g : Geometry}
    {m₀ m : Machine g programs.length} {l : List Transfer}
    (h : ofSpec spec programs = .ok ⟨g, m₀⟩) (hr : m₀.Reaches l m) :
    (∃ t, Rested t m) ∧ m.spec = spec ∧ m.Told l := by
  obtain ⟨hv, -, rfl⟩ := ofSpec_eq_ok.mp h
  obtain ⟨hrest, htold⟩ := rested_boot hv ⟨programs.toArray, rfl⟩
  exact rested_of_reaches hr hrest htold

/-! ## A small machine -/

/-- The machine after `k` steps, unless there is a fault. -/
def after : (k : Nat) → Machine g n → Option (Machine g n)
  | 0, m => some m
  | k + 1, m =>
    match m.step with
    | .error _ => none
    | .ok (_, m') => after k m'

theorem Reaches.after {m₀ m m' : Machine g n} {l : List Transfer} (h : Reaches m₀ l m) {k : Nat}
    (hk : m.after k = some m') : ∃ l', Reaches m₀ l' m' := by
  induction k generalizing l m with
  | zero =>
    cases hk
    exact ⟨l, h⟩
  | succ k ih =>
    unfold Machine.after at hk
    cases hs : m.step with
    | error f =>
      rw [hs] at hk
      cases hk
    | ok x =>
      rw [hs] at hk
      exact ih (.step h hs) hk

/-- What is computed after `k` steps holds in a state that they reach. -/
theorem exists_reaches (m₀ : Machine g n) (k : Nat) (P : Machine g n → Prop) [DecidablePred P]
    (h : (m₀.after k).any (P ·)) : ∃ m l, Reaches m₀ l m ∧ P m := by
  cases hk : m₀.after k with
  | none =>
    rw [hk] at h
    cases h
  | some m =>
    rw [hk] at h
    obtain ⟨l, hl⟩ := Reaches.start.after hk
    exact ⟨m, l, hl, of_decide_eq_true h⟩

theorem exists_step {m : Machine g n} {P : Except SimError Bool × Machine g n → Bool}
    (h : m.step.toOption.any P) : ∃ r m', m.step = .ok (r, m') ∧ P (r, m') := by
  cases hs : m.step with
  | error f =>
    rw [hs] at h
    cases h
  | ok y =>
    rw [hs] at h
    exact ⟨y.1, y.2, rfl, h⟩

def tinySpec : Spec where
  cacheSize := 64
  ways := 1
  memorySize := 128
  coldLatency := 2
  warmLatency := 1
  maxCounter := 4

/-- The first core writes two lines that share a way, and reads the first one again. -/
def tinyPrograms : List Program :=
  [[.write ⟨0⟩ 7, .write ⟨64⟩ 9, .read ⟨0⟩], [.read ⟨0⟩]]

/-- The geometry of `tinySpec`: a line has one place in one of two sets. -/
abbrev tinyGeometry : Geometry := ⟨1, 1, by decide, by decide⟩

/-- Two caches with two lines each, over a memory of four. -/
def tiny : Machine tinyGeometry tinyPrograms.length :=
  boot _ tinySpec ⟨tinyPrograms.toArray, rfl⟩

theorem ofSpec_tiny : ofSpec tinySpec tinyPrograms = .ok ⟨_, tiny⟩ := rfl

end Snooping.Machine
