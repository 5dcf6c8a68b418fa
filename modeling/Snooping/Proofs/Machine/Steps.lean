import Snooping.Proofs.Machine.Termination

/-!
# Steps in a row

A step within the limit runs a cycle, and a run without a limit takes such steps until every program
is over.

* `Machine.step_of_nil`, `Machine.step_of_beyond`, **`Machine.Ready.step_eq`**: what a step is.
* `Machine.steps`, `Machine.Plays.runFor`: some steps in a row.
* `Machine.allDone_of_runFor`: what a run that ends well has come to.
* **`Machine.Passes`**, `Machine.Ready.passes`: a step that runs a cycle.
* **`Machine.Ready.runFor_cases`**, `Machine.Ready.runFor_ok`: the steps of a run.
-/

namespace Snooping.Machine

variable {g : Geometry} {n : Nat}

/-! ## One step -/

theorem step_of_nil {m : Machine g n} (h : m.queue.nextTime = none) :
    m.step = .ok (.ok false, m) := by
  rw [step, h]
  rfl

theorem step_of_beyond {m : Machine g n} {t limit : Nat} (h : m.queue.nextTime = some t)
    (hb : isBeyond m.spec.maxCycles t = some limit) :
    m.step = .ok (.error (.cycleLimit limit), m) := by
  rw [step, h]
  dsimp only
  rw [hb]
  rfl

/-- **A step within the limit is a cycle**, since the check finds nothing. -/
theorem Ready.step_eq {m : Machine g n} {t₀ t : Nat} (h : Ready t₀ m)
    (ht : m.queue.nextTime = some t) (hb : isBeyond m.spec.maxCycles t = none) :
    m.step = (m.cycle t).map fun m' => (.ok true, m') := by
  rw [step, ht]
  dsimp only
  rw [hb]
  cases hc : m.cycle t with
  | error e => rfl
  | ok m' =>
    have hrest := ((yields_cycle h ht).of_eq_ok hc).1.toRested
    show (if m'.spec.checkCoherence then _ else _ : Except Fault _) = _
    rw [checkCoherence_eq_ok hrest]
    split <;> rfl

/-! ## Several steps -/

/-- **The first `k` steps**, with their results. -/
def steps : (k : Nat) → Machine g n → Except Fault (List (Except SimError Bool) × Machine g n)
  | 0, m => return ([], m)
  | k + 1, m => do
    let (r, m) ← m.step
    let (rs, m) ← steps k m
    return (r :: rs, m)

theorem steps_succ_of_eq_ok {m m' : Machine g n} {r : Except SimError Bool}
    (h : m.step = .ok (r, m')) (k : Nat) :
    m.steps (k + 1) = (m'.steps k).map (Prod.map (r :: ·) id) := by
  rw [steps, h]
  show (do let (rs, m) ← m'.steps k; return (r :: rs, m) : Except Fault _) = _
  cases m'.steps k <;> rfl

theorem steps_succ_of_eq_error {m : Machine g n} {e : Fault} (h : m.step = .error e) (k : Nat) :
    m.steps (k + 1) = .error e := by
  rw [steps, h]
  rfl

theorem Plays.runFor {m₀ m m' : Machine g n} {log : List (Nat × Option Transfer)}
    (h : m₀.Plays log m) {fuel : Nat} {r : Except SimError Unit}
    (hr : m.runFor fuel = .ok (r, m')) : ∃ log', m₀.Plays log' m' := by
  induction fuel generalizing log m with
  | zero => cases hr
  | succ fuel ih =>
    unfold Machine.runFor at hr
    split at hr
    · cases hr
      exact ⟨log, h⟩
    · cases hs : m.step with
      | error e =>
        rw [hs] at hr
        cases hr
      | ok y =>
        obtain ⟨r₁, m₁⟩ := y
        simp only [hs, bind, Except.bind] at hr
        cases r₁ with
        | error e =>
          cases hr
          exact ⟨_, h.step hs⟩
        | ok b =>
          cases b with
          | false =>
            cases hr
            exact ⟨_, h.step hs⟩
          | true => exact ih (h.step hs) hr

/-! ## A run -/

theorem allDone_of_runFor {m m' : Machine g n} {fuel : Nat}
    (hr : m.runFor fuel = .ok (.ok (), m')) : m'.allDone = true := by
  induction fuel generalizing m with
  | zero => cases hr
  | succ fuel ih =>
    rw [Machine.runFor] at hr
    split at hr
    · next hd =>
      cases hr
      exact hd
    · cases hs : m.step with
      | error e =>
        rw [hs] at hr
        cases hr
      | ok y =>
        obtain ⟨r, m₁⟩ := y
        rw [hs] at hr
        cases r with
        | error e => cases hr
        | ok b =>
          cases b with
          | false => cases hr
          | true => exact ih hr

/-- **A step that runs cycle `t`.** -/
structure Passes (m : Machine g n) (t : Nat) (m' : Machine g n) : Prop where
  next : m.queue.nextTime = some t
  cycle : m.cycle t = .ok m'
  step : m.step = .ok (.ok true, m')
  ready : Ready (t + 1) m'
  now : m'.now = t
  spec : m'.spec = m.spec

section Run

variable {m m' : Machine g n} {t fuel : Nat} {r : Except SimError Unit}

theorem Ready.passes (h : Ready t m) (hc : m.spec.maxCycles = none) (hd : m.allDone = false)
    {y : Except SimError Bool × Machine g n} (hs : m.step = .ok y) :
    ∃ t' m₁, t ≤ t' ∧ y = (.ok true, m₁) ∧ m.Passes t' m₁ := by
  obtain he | ⟨m₁, he, hspec⟩ := h.step_of_unfinished hc hd
  · cases he.symm.trans hs
  · cases he.symm.trans hs
    obtain ⟨hran, -⟩ | ⟨-, -, t', l, x, ht', -, hready, hnow⟩ := (yields_step h).of_eq_ok he
    · cases hran
    · obtain ⟨e, hmem, rfl⟩ := WakeQueue.mem_of_nextTime ht'
      have hb : isBeyond m.spec.maxCycles e.1 = none := by rw [hc]; rfl
      have hcycle : m.cycle e.1 = .ok m₁ := by
        have hstep := h.step_eq ht' hb
        rw [he] at hstep
        cases hx : m.cycle e.1 with
        | error f =>
          rw [hx] at hstep
          cases hstep
        | ok x =>
          rw [hx] at hstep
          cases hstep
          rfl
      exact ⟨e.1, m₁, h.later e hmem, rfl, ht', hcycle, he, hready, hnow, hspec⟩

/-- **A run without a limit** is over, or goes on with its next cycle. -/
theorem Ready.runFor_cases (h : Ready t m) (hc : m.spec.maxCycles = none)
    (hr : m.runFor (fuel + 1) = .ok (r, m')) :
    (m.allDone = true ∧ r = .ok () ∧ m' = m) ∨
      (m.allDone = false ∧ ∃ t' m₁, t ≤ t' ∧ m.Passes t' m₁ ∧ m₁.runFor fuel = .ok (r, m')) := by
  unfold runFor at hr
  cases hd : m.allDone with
  | true =>
    rw [if_pos hd] at hr
    cases hr
    exact .inl ⟨rfl, rfl, rfl⟩
  | false =>
    rw [if_neg (by rw [hd]; exact Bool.false_ne_true)] at hr
    cases hs : m.step with
    | error e =>
      rw [hs] at hr
      cases hr
    | ok y =>
      obtain ⟨t', m₁, hle, rfl, ha⟩ := h.passes hc hd hs
      rw [hs] at hr
      exact .inr ⟨rfl, t', m₁, hle, ha, hr⟩

theorem runFor_succ (hr : m.runFor fuel = .ok (r, m')) : m.runFor (fuel + 1) = .ok (r, m') := by
  induction fuel generalizing m with
  | zero => cases hr
  | succ fuel ih =>
    rw [runFor] at hr ⊢
    split at hr
    · next hd => rw [if_pos hd, hr]
    · next hd =>
      rw [if_neg hd]
      cases hs : m.step with
      | error e =>
        rw [hs] at hr
        cases hr
      | ok y =>
        obtain ⟨r₁, m₁⟩ := y
        rw [hs] at hr
        cases r₁ with
        | error e => exact hr
        | ok b =>
          cases b with
          | false => exact hr
          | true => exact ih hr

theorem runFor_of_allDone (hd : m.allDone = true) (hr : m.runFor fuel = .ok (r, m')) :
    r = .ok () ∧ m' = m := by
  cases fuel with
  | zero => cases hr
  | succ fuel =>
    rw [runFor, if_pos hd] at hr
    cases hr
    exact ⟨rfl, rfl⟩

theorem Ready.runFor_ok (h : Ready t m) (hc : m.spec.maxCycles = none) (hnow : m.now ≤ t)
    (hr : m.runFor fuel = .ok (r, m')) : r = .ok () ∧ m'.allDone = true ∧ m.now ≤ m'.now := by
  induction fuel generalizing m t with
  | zero => cases hr
  | succ fuel ih =>
    obtain ⟨hd, rfl, rfl⟩ | ⟨-, t', m₁, hle, ha, hr⟩ := h.runFor_cases hc hr
    · exact ⟨rfl, hd, Nat.le_refl _⟩
    · obtain ⟨hr, hd, hle'⟩ := ih ha.ready (ha.spec ▸ hc) (by rw [ha.now]; omega) hr
      refine ⟨hr, hd, ?_⟩
      rw [ha.now] at hle'
      omega

end Run

end Snooping.Machine
