import Snooping.Proofs.Machine.Retold
import Snooping.Proofs.Machine.Steps

/-!
# The cycle limit

A limit is compared with the next cycle before anything of it happens, so that a run with a limit is
a run without one, broken off between two steps.

* `Spec.limited`, **`Machine.limited`**: the same with a limit.
* **`Machine.Passes.step_limited`**: a cycle within the limit passes as it does without it.
* `Machine.Passes.steps_beyond`: beyond the limit nothing happens any more.
* **`Machine.Plays.runFor_limited`**: a run with the limit, by the steps of the run without it.
* **`Machine.limit_truncates`**.
-/

namespace Snooping

variable {g : Geometry} {n : Nat}

/-- The specification with a limit. -/
def Spec.limited (s : Spec) (limit : UInt64) : Spec := { s with maxCycles := some limit }

namespace Machine

/-- **The machine with a limit.** -/
def limited (m : Machine g n) (limit : UInt64) : Machine g n := m.retold (·.limited limit) true

theorem limited_boot (spec : Spec) (programs : Vector Program n) (limit : UInt64) :
    (boot g spec programs).limited limit = boot g (spec.limited limit) programs := by
  unfold limited retold
  rw [Bus.told_true]
  rfl

section Limit

variable {m m' : Machine g n} {limit : UInt64} {t : Nat}

theorem isBeyond_of_lt (h : limit.toNat < t) : isBeyond (some limit) t = some limit.toNat := by
  simp [isBeyond, Option.filter, h]

theorem isBeyond_of_le (h : t ≤ limit.toNat) : isBeyond (some limit) t = none := by
  simp [isBeyond, Option.filter, Nat.not_lt.mpr h]

theorem Passes.step_limited (h : m.Passes t m') (hl : t ≤ limit.toNat) :
    (m.limited limit).step = .ok (.ok true, m'.limited limit) := by
  have hcycle : (m.limited limit).cycle t = .ok (m'.limited limit) := by
    have hretold : (m.limited limit).cycle t = (m.cycle t).map _ :=
      cycle_retold (·.limited limit) true m (fun _ _ => rfl) t
    rw [hretold, h.cycle]
    rfl
  have hcheck : (m'.limited limit).checkCoherence = .ok () :=
    checkCoherence_eq_ok (m := m') h.ready.toRested
  rw [Machine.step, show (m.limited limit).queue.nextTime = some t from h.next]
  dsimp only
  rw [show isBeyond (m.limited limit).spec.maxCycles t = none from isBeyond_of_le hl, hcycle]
  show (if _ then _ else _ : Except Fault _) = _
  rw [hcheck]
  split <;> rfl

theorem Passes.step_beyond (h : m.Passes t m') (hl : limit.toNat < t) :
    (m.limited limit).step = .ok (.error (.cycleLimit limit.toNat), m.limited limit) :=
  step_of_beyond (m := m.limited limit) h.next (isBeyond_of_lt hl)

theorem Passes.steps_beyond (h : m.Passes t m') (hl : limit.toNat < t) (k : Nat) :
    (m.limited limit).steps k =
      .ok (List.replicate k (.error (.cycleLimit limit.toNat)), m.limited limit) := by
  induction k with
  | zero => rfl
  | succ k ih =>
    rw [steps_succ_of_eq_ok (h.step_beyond hl), ih]
    rfl

/-- **A run with a limit** ends as it does without one, or breaks off before the first cycle beyond
the limit. -/
theorem Plays.runFor_limited {m₀ : Machine g n} {log : List (Nat × Option Transfer)} {fuel : Nat}
    {r : Except SimError Unit} (hl : m₀.Plays log m) (hlog : ∀ e ∈ log, e.1 ≤ limit.toNat)
    (h : Ready t m) (hnow : m.now ≤ t) (hle : m.now ≤ limit.toNat) (hc : m.spec.maxCycles = none)
    (hr : m.runFor fuel = .ok (r, m')) :
    (m'.now ≤ limit.toNat ∧ (m.limited limit).runFor fuel = .ok (.ok (), m'.limited limit)) ∨
    (limit.toNat < m'.now ∧ ∃ log₁ m₁ t₁ m₂, m₀.Plays log₁ m₁ ∧ (∀ e ∈ log₁, e.1 ≤ limit.toNat) ∧
      m₁.Passes t₁ m₂ ∧ limit.toNat < t₁ ∧
      (m.limited limit).runFor fuel =
        .ok (.error (.cycleLimit limit.toNat), m₁.limited limit)) := by
  induction fuel generalizing m t log with
  | zero => cases hr
  | succ fuel ih =>
    have hdone : (m.limited limit).allDone = m.allDone := rfl
    obtain ⟨hd, -, rfl⟩ | ⟨hd, t', m₁, ht, hp, hr⟩ := h.runFor_cases hc hr
    · left
      refine ⟨hle, ?_⟩
      rw [Machine.runFor, if_pos (hdone.trans hd)]
      rfl
    · have hnot : ¬ (m.limited limit).allDone = true := by
        rw [hdone, hd]
        exact Bool.false_ne_true
      have hc₁ : m₁.spec.maxCycles = none := hp.spec ▸ hc
      by_cases hlt : t' ≤ limit.toNat
      · -- The cycle is within the limit, and both runs take it.
        have hlog₁ : ∀ e ∈ log ++ [(m₁.now, m₁.bus.current)], e.1 ≤ limit.toNat := by
          intro e he
          obtain he | he := List.mem_append.mp he
          · exact hlog e he
          · rw [List.mem_singleton.mp he, hp.now]
            exact hlt
        rw [Machine.runFor, if_neg hnot, hp.step_limited hlt]
        exact ih (hl.go_on hp.step) hlog₁ hp.ready (by rw [hp.now]; omega) (hp.now ▸ hlt) hc₁ hr
      · -- The run without a limit goes beyond it here, and only goes on from there.
        have hlt : limit.toNat < t' := Nat.lt_of_not_le hlt
        obtain ⟨-, -, hend⟩ := hp.ready.runFor_ok hc₁ (by rw [hp.now]; omega) hr
        rw [hp.now] at hend
        right
        refine ⟨by omega, log, m, t', m₁, hl, hlog, hp, hlt, ?_⟩
        rw [Machine.runFor, if_neg hnot, hp.step_beyond hlt]
        rfl

end Limit

/-- **A limit only truncates.** Let the run without a limit come to an end. If its last cycle is
within the limit, the run with the limit ends with the same report in the same state. Otherwise it
ends with an error that names the limit, in the state that the steps of the run without a limit lead
to as long as they are within the limit; and every further step ends with this error and changes
nothing. -/
theorem limit_truncates {spec : Spec} {programs : List Program} {g : Geometry}
    {m₀ m : Machine g programs.length} {r : Except SimError Unit}
    (h : ofSpec spec programs = .ok ⟨g, m₀⟩) (hc : spec.maxCycles = none)
    (hr : m₀.run = .ok (r, m)) (limit : UInt64) :
    r = .ok () ∧ ofSpec (spec.limited limit) programs = .ok ⟨g, m₀.limited limit⟩ ∧
    (m.now ≤ limit.toNat → (m.limited limit).report = m.report ∧
      (m₀.limited limit).run = .ok (.ok (), m.limited limit)) ∧
    (limit.toNat < m.now → ∃ log m₁ m₂, m₀.Plays log m₁ ∧ (∀ e ∈ log, e.1 ≤ limit.toNat) ∧
      m₁.step = .ok (.ok true, m₂) ∧ limit.toNat < m₂.now ∧
      (m₀.limited limit).run = .ok (.error (.cycleLimit limit.toNat), m₁.limited limit) ∧
      ∀ k, (m₁.limited limit).steps k =
        .ok (List.replicate k (.error (.cycleLimit limit.toNat)), m₁.limited limit)) := by
  obtain ⟨hv, hne, h₀⟩ := ofSpec_eq_ok.mp h
  have hboot := ready_start h
  have hnow : m₀.now = 0 := h₀ ▸ rfl
  have hc₀ : m₀.spec.maxCycles = none := h₀ ▸ hc
  have hstart : ∀ e ∈ ([] : List (Nat × Option Transfer)), e.1 ≤ limit.toNat := nofun
  have hrun := Plays.start.runFor_limited hstart hboot (by omega) (by omega) hc₀ hr
  refine ⟨(hboot.runFor_ok hc₀ (by omega) hr).1, ?_, fun hle => ⟨rfl, ?_⟩, fun hlt => ?_⟩
  · refine ofSpec_eq_ok.mpr ⟨hv, hne, ?_⟩
    rw [h₀, limited_boot]
  · obtain ⟨-, hend⟩ | ⟨hlt, -⟩ := hrun
    · exact hend
    · omega
  · obtain ⟨hle, -⟩ | ⟨-, log, m₁, t₁, m₂, hl, hlog, hp, hlt₁, hend⟩ := hrun
    · omega
    · exact ⟨log, m₁, m₂, hl, hlog, hp.step, hp.now ▸ hlt₁, hend, hp.steps_beyond hlt₁⟩

theorem limit_truncates_tiny : ofSpec tinySpec tinyPrograms = .ok ⟨_, tiny⟩ ∧
    tinySpec.maxCycles = none ∧ ∃ r m, tiny.run = .ok (r, m) ∧ m.now = 26 ∧
      (tiny.limited 26).run = .ok (.ok (), m.limited 26) ∧
      ∃ m₁ : Machine _ _, (tiny.limited 20).run = .ok (.error (.cycleLimit 20), m₁.limited 20) := by
  have hnow : (tiny.run.toOption.any fun y => y.2.now = 26) = true := by decide +kernel
  cases hr : tiny.run with
  | error e =>
    rw [hr] at hnow
    cases hnow
  | ok y =>
    rw [hr] at hnow
    have hnow : y.2.now = 26 := of_decide_eq_true hnow
    obtain ⟨-, -, hwithin, -⟩ := limit_truncates ofSpec_tiny rfl hr 26
    obtain ⟨-, -, -, hbeyond⟩ := limit_truncates ofSpec_tiny rfl hr 20
    obtain ⟨log, m₁, m₂, -, -, -, -, hend, -⟩ := hbeyond (by rw [hnow]; decide)
    exact ⟨ofSpec_tiny, rfl, y.1, y.2, rfl, hnow, (hwithin (by rw [hnow]; decide)).2, m₁, hend⟩

end Machine

end Snooping
