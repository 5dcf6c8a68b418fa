import Snooping.Proofs.Machine.Retold
import Snooping.Proofs.Machine.Steps

/-!
# Observation

Whether coherence is checked and whether the bus keeps its history can be chosen, and neither
changes what the machine does. The check never finds anything, so that no step ends differently
with it, and nobody reads the history.

* `Spec.observed`, **`Machine.unobserved`**: the switches, and what is left of a machine without
  them.
* **`Machine.Ready.step_unobserved`**, `Machine.Ready.steps_unobserved`,
  `Machine.Ready.runFor_unobserved`: a step, several of them and a run do not depend on the
  switches.
* `Bus.Kept`, **`Machine.Plays.history_eq`**: the history is what was driven.
* **`Machine.observation_is_passive`**.
-/

namespace Snooping

variable {g : Geometry} {n : Nat}

/-- The specification with the check made or not, and the history kept or not. -/
def Spec.observed (s : Spec) (check record : Bool) : Spec :=
  { s with checkCoherence := check, recordBus := record }

/-! ## The history -/

namespace Bus

/-- **The bus has kept what is driven in cycle `t`**, beside what it had kept before, if it keeps a
history. -/
structure Kept (b₀ : Bus) (t : Nat) (b : Bus) : Prop where
  now : b.now = t
  recording : b.recording = b₀.recording
  history : b.history.toList =
    b₀.history.toList ++ if b₀.recording then b.current.toList.map (t, ·) else []

variable {b₀ b b' : Bus} {t : Nat}

theorem kept_begin (b : Bus) (t : Nat) : b.Kept t (b.begin t) :=
  ⟨rfl, rfl, by simp [begin]⟩

theorem Kept.drive (h : b₀.Kept t b) (hb : b.current = none) (u : Transfer) :
    b₀.Kept t (b.drive u) := by
  refine ⟨h.now, h.recording, ?_⟩
  have hhist := h.history
  have hrec := h.recording
  have hnow := h.now
  simp only [hb, Option.toList_none, List.map_nil, ite_self, List.append_nil] at hhist
  cases hr : b₀.recording <;> simp [Bus.drive, hrec, hr, hhist, hnow]

theorem Kept.congr (h : b₀.Kept t b) (hnow : b'.now = b.now)
    (hrec : b'.recording = b.recording) (hcur : b'.current = b.current)
    (hhist : b'.history = b.history) : b₀.Kept t b' :=
  ⟨hnow.trans h.now, hrec.trans h.recording, by rw [hhist, hcur, h.history]⟩

theorem Kept.asked (h : b₀.Kept t b) (hb : b.Asked b') : b₀.Kept t b' := by
  cases hb with
  | free => exact h
  | refused => exact h.congr rfl rfl rfl rfl
  | granted hg => exact h.drive (current_eq_none_of_grants hg) _

/-- What a bus has kept is in order, and is what it has counted. -/
def Faithful (b : Bus) : Prop :=
  (b.history.toList.map Prod.fst).Pairwise (· < ·) ∧
    ∀ f : Func, b.history.toList.countP (fun e => e.2.func = f) = b.transfers[f.code]

end Bus

namespace Machine

theorem Acts.kept {m m' : Machine g n} {p : Agent (Fin n)} (ha : m.Acts p m') {b₀ : Bus} {t : Nat}
    (h : b₀.Kept t m.bus) : b₀.Kept t m'.bus := by
  cases ha with
  | send _ hb => exact (h.drive hb _).congr rfl rfl rfl rfl
  | answer _ _ hb => exact (h.drive hb _).congr rfl rfl rfl rfl
  | proceed _ hb => exact h.asked hb
  | await _ hb => exact h.asked hb
  | _ => exact h.congr rfl rfl rfl rfl

/-- What was driven in the cycles of a log. -/
def entriesOf (log : List (Nat × Option Transfer)) : List (Nat × Transfer) :=
  log.filterMap fun e => e.2.map (e.1, ·)

theorem Plays.history_eq {m₀ m : Machine g n} {log : List (Nat × Option Transfer)}
    (h : m₀.Plays log m) {t₀ : Nat} (h₀ : Ready t₀ m₀) :
    m.bus.recording = m₀.bus.recording ∧ m.bus.history.toList =
      m₀.bus.history.toList ++ if m₀.bus.recording then entriesOf log else [] := by
  obtain ⟨-, -, hm⟩ := h.induct h₀ (P := fun _ log m => m.bus.recording = m₀.bus.recording ∧
    m.bus.history.toList =
      m₀.bus.history.toList ++ if m₀.bus.recording then entriesOf log else [])
    ⟨rfl, by simp [entriesOf]⟩ fun {t₁ log y t l x y'} hready ⟨hrec, hhist⟩ ht hround => by
      have hstart := awake_started hready ht
      obtain ⟨-, -, hx, -⟩ := hround.within.induct hstart (P := fun _ z => y.bus.Kept t z.bus)
        (y.bus.kept_begin t) fun _ hz _ _ ha _ => ha.kept hz
      obtain ⟨s, c, hb⟩ := hround.aired.bus_eq
      have hy : y.bus.Kept t y'.bus := hx.congr (by rw [hb]) (by rw [hb]) (by rw [hb]) (by rw [hb])
      refine ⟨hy.recording.trans hrec, ?_⟩
      rw [hy.history, hhist, hrec, List.append_assoc]
      cases m₀.bus.recording with
      | false => rfl
      | true =>
        cases hc : y'.bus.current <;> simp [entriesOf]
  exact hm

theorem countP_entriesOf (log : List (Nat × Option Transfer)) (f : Func) :
    (entriesOf log).countP (fun e => e.2.func = f) = driven log f := by
  rw [entriesOf, List.countP_filterMap, driven]
  refine List.countP_congr fun e _ => ?_
  cases e.2 <;> simp

/-! ## The switches -/

/-- **The machine without what is only observed**: neither the switches nor the history. -/
def unobserved (m : Machine g n) : Machine g n :=
  m.retold (·.observed false false) false

section Unobserved

variable {m : Machine g n} {t : Nat}

theorem unobserved_boot (spec : Spec) (check record : Bool) (programs : Vector Program n) :
    (boot g (spec.observed check record) programs).unobserved =
      (boot g spec programs).unobserved := by
  simp only [unobserved, retold, boot, Spec.observed, Bus.told, Bus.idle, Memory.retold,
    Memory.idle, Bool.and_false, Bool.false_eq_true, if_false]
  rfl

/-- **A step does not depend on the switches**, since the check finds nothing. -/
theorem Ready.step_unobserved (h : Ready t m) :
    m.unobserved.step = m.step.map (Prod.map id unobserved) := by
  have hqueue : m.unobserved.queue = m.queue := rfl
  have hlimit : m.unobserved.spec.maxCycles = m.spec.maxCycles := rfl
  cases ht : m.queue.nextTime with
  | none => rw [step_of_nil ht, step_of_nil (hqueue ▸ ht)]; rfl
  | some t' =>
    cases hb : isBeyond m.spec.maxCycles t' with
    | some limit => rw [step_of_beyond ht hb, step_of_beyond (hqueue ▸ ht) (hlimit ▸ hb)]; rfl
    | none =>
      have hcycle : m.unobserved.cycle t' = (m.cycle t').map unobserved :=
        cycle_retold (·.observed false false) false m (fun _ _ => rfl) t'
      rw [h.step_eq ht hb, step, hqueue, ht]
      dsimp only
      rw [hlimit, hb, hcycle]
      cases m.cycle t' <;> rfl

theorem Ready.steps_unobserved (h : Ready t m) (k : Nat) :
    m.unobserved.steps k = (m.steps k).map (Prod.map id unobserved) := by
  induction k generalizing m t with
  | zero => rfl
  | succ k ih =>
    have hstep := h.step_unobserved
    cases hs : m.step with
    | error e =>
      rw [hs] at hstep
      rw [steps_succ_of_eq_error hs, steps_succ_of_eq_error hstep]
      rfl
    | ok y =>
      obtain ⟨r, m'⟩ := y
      obtain ⟨t', h'⟩ := ready_step h hs
      rw [hs] at hstep
      rw [steps_succ_of_eq_ok hs, steps_succ_of_eq_ok hstep]
      show (m'.unobserved.steps k).map _ = _
      rw [ih h']
      cases m'.steps k <;> rfl

theorem Ready.runFor_unobserved (h : Ready t m) (fuel : Nat) :
    m.unobserved.runFor fuel = (m.runFor fuel).map (Prod.map id unobserved) := by
  induction fuel generalizing m t with
  | zero => rfl
  | succ fuel ih =>
    unfold runFor
    rw [show m.unobserved.allDone = m.allDone from rfl]
    split
    · rfl
    · rw [h.step_unobserved]
      cases hs : m.step with
      | error e => rfl
      | ok y =>
        obtain ⟨r, m'⟩ := y
        obtain ⟨t', h'⟩ := ready_step h hs
        cases r with
        | error e => rfl
        | ok b =>
          cases b with
          | false => rfl
          | true => exact ih h'

end Unobserved

/-! ## Two machines -/

section Observation

variable {spec : Spec} {programs : List Program} {m₀ : Machine g programs.length}

/-- **The history is in order and complete**, if it is kept. -/
theorem Plays.faithful (h : ofSpec spec programs = .ok ⟨g, m₀⟩) (hb : spec.recordBus = true)
    {m : Machine g programs.length} {log : List (Nat × Option Transfer)} (hl : m₀.Plays log m) :
    m.bus.Faithful := by
  obtain ⟨-, -, h₀⟩ := ofSpec_eq_ok.mp h
  have hboot := ready_start h
  have hrec : m₀.bus.recording = true := h₀ ▸ hb
  have hempty : m₀.bus.history = #[] := h₀ ▸ rfl
  have hhist : m.bus.history.toList = entriesOf log := by
    rw [(hl.history_eq hboot).2, hrec, hempty]
    simp
  obtain ⟨t, -, hlog, -⟩ := hl.cycles_lt hboot
  constructor
  · rw [hhist, entriesOf, List.pairwise_map, List.pairwise_filterMap]
    refine (List.pairwise_map.mp hlog).imp ?_
    intro e e' hlt x hx x' hx'
    obtain ⟨u, -, rfl⟩ := Option.map_eq_some_iff.mp hx
    obtain ⟨u', -, rfl⟩ := Option.map_eq_some_iff.mp hx'
    exact hlt
  · intro f
    rw [hhist, countP_entriesOf]
    exact (hl.carried_eq h f).symm

/-- **Watching a machine does not change it.** With the check made or not, and with the history kept
or not, every number of steps has the same results and leaves the same machine, apart from the
history, and so does the run. A history that is kept lists what was driven with strictly increasing
cycles, as often as it was counted. -/
theorem observation_is_passive (h : ofSpec spec programs = .ok ⟨g, m₀⟩) (check record : Bool) :
    ∃ m₀' : Machine g programs.length,
      ofSpec (spec.observed check record) programs = .ok ⟨g, m₀'⟩ ∧
      (∀ k, (m₀'.steps k).map (Prod.map id unobserved) =
        (m₀.steps k).map (Prod.map id unobserved)) ∧
      m₀'.run.map (Prod.map id unobserved) = m₀.run.map (Prod.map id unobserved) ∧
      (record = true → (∀ log m, m₀'.Plays log m → m.bus.Faithful) ∧
        ∀ r m, m₀'.run = .ok (r, m) → m.bus.Faithful) := by
  obtain ⟨hv, hne, rfl⟩ := ofSpec_eq_ok.mp h
  have hv' : (spec.observed check record).validate = .ok g := hv
  have hboot := ready_boot hv ⟨programs.toArray, rfl⟩
  have hboot' := ready_boot hv' ⟨programs.toArray, rfl⟩
  have h' := ofSpec_eq_ok.mpr ⟨hv', hne, rfl⟩
  have hsame := unobserved_boot (g := g) spec check record ⟨programs.toArray, rfl⟩
  refine ⟨_, h', ?_, ?_, ?_⟩
  · intro k
    rw [← hboot'.steps_unobserved, ← hboot.steps_unobserved, hsame]
  · unfold run
    rw [← hboot'.runFor_unobserved, ← hboot.runFor_unobserved, hsame]
  · intro hr
    refine ⟨fun log m hl => hl.faithful h' hr, fun r m hrun => ?_⟩
    obtain ⟨log, hl⟩ := Plays.start.runFor hrun
    exact hl.faithful h' hr

end Observation

theorem observation_is_passive_tiny : ofSpec tinySpec tinyPrograms = .ok ⟨_, tiny⟩ ∧
    ∃ m₀', ofSpec (tinySpec.observed false true) tinyPrograms = .ok ⟨_, m₀'⟩ ∧
      m₀'.run.map (Prod.map id unobserved) = tiny.run.map (Prod.map id unobserved) ∧
      ∃ r m, m₀'.run = .ok (r, m) ∧ m.bus.history.size = 17 ∧ m.bus.Faithful := by
  obtain ⟨m₀', h', -, hrun, hhist⟩ := observation_is_passive ofSpec_tiny false true
  refine ⟨ofSpec_tiny, m₀', h', hrun, ?_⟩
  have hsize : (m₀'.run.toOption.any fun y => y.2.bus.history.size = 17) = true := by
    obtain ⟨-, -, rfl⟩ := ofSpec_eq_ok.mp h'
    decide +kernel
  cases hr : m₀'.run with
  | error e =>
    rw [hr] at hsize
    cases hsize
  | ok y =>
    rw [hr] at hsize
    exact ⟨y.1, y.2, rfl, of_decide_eq_true hsize, (hhist rfl).2 y.1 y.2 hr⟩

end Machine

end Snooping
