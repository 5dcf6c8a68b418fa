import Snooping.Proofs.Machine.Rounds
import Snooping.Proofs.Machine.Traffic

/-!
# The scheduler

Somebody is awake as long as a program is not over, and the turns come in order.

* `Machine.allDone_iff`, `Machine.Ready.idle_of_allDone`: when all programs are over.
* `Machine.Ready.allDone_of_nil`: when nobody waits, all programs are over.
* **`Machine.no_deadlock`**: the machine never stops with a program that is not over.
* **`Machine.in_step`**: nobody is woken for the past, twice in a cycle or out of order.
-/

namespace Snooping.Machine

variable {g : Geometry} {n : Nat}

/-! ## Nobody is forgotten -/

theorem allDone_iff {m : Machine g n} :
    m.allDone = true ↔ ∀ i : Fin n, m.cores[i].activity = .done := by
  refine Vector.all_eq_true.trans ⟨fun h i => of_decide_eq_true (h i i.isLt), fun h i hi => ?_⟩
  exact decide_eq_true (h ⟨i, hi⟩)

theorem Ready.idle_of_allDone {t : Nat} {m : Machine g n} (h : Ready t m) (hd : m.allDone = true)
    (i : Fin n) : m.caches[i].stage = .idle := by
  have hpaired := not_congr (h.attended.paired i)
  rw [allDone_iff.mp hd i] at hpaired
  exact not_not.mp (hpaired.mp nofun)

/-- **When nobody waits, all programs are over.** -/
theorem Ready.allDone_of_nil {t : Nat} {m : Machine g n} (h : Ready t m)
    (hp : m.queue.pending = []) : m.allDone := by
  have hasleep : ∀ a, m.Asleep a := fun a => by
    have hn : ¬ ∃ t, (t, a) ∈ m.queue.pending := fun ⟨t, ht⟩ => by
      rw [hp] at ht
      exact absurd ht List.not_mem_nil
    have := not_not.mp (mt (h.attended.waits.awake a).mpr hn)
    exact this.resolve_left nofun
  -- Nothing is in flight, so that no cache waits for an answer.
  have hflight : ∀ i : Fin n, m.inFlight i = 0 := fun i => by
    have hqueue : ∀ j : Fin n, m.forwarders[j].queue = [] := fun j =>
      h.sound.resting j (hasleep (.forwarder j))
    simp only [inFlight, h.attended.drained (hasleep .memory), hqueue, List.countP_nil,
      Finset.sum_const_zero, Nat.add_zero]
  have hidle : ∀ i : Fin n, m.caches[i].stage = .idle := fun i => by
    have hcard := (h.inFlight_eq i).symm.trans (hflight i)
    have hs : m.caches[i].stage.sleeps := hasleep (.cache i)
    cases hx : m.caches[i].stage with
    | idle => rfl
    | awaits f a =>
      rw [hx] at hcard
      cases hcard
    | _ =>
      rw [hx] at hs
      exact Bool.noConfusion hs
  refine allDone_iff.mpr fun i => ?_
  have hwait : m.cores[i].activity ≠ .waiting := fun hx => (h.attended.paired i).mp hx (hidle i)
  exact (hasleep (.core i)).resolve_left hwait

theorem Ready.allDone_of_step {t : Nat} {m m' : Machine g n} (h : Ready t m)
    (hs : m.step = .ok (.ok false, m')) : m.allDone := by
  obtain ⟨-, -, ⟨-, hp⟩ | ⟨_, -, he⟩⟩ | ⟨hran, -⟩ := (yields_step h).of_eq_ok hs
  · exact h.allDone_of_nil hp
  · cases he
  · cases hran

theorem ne_stalled_of_checkCoherence {m : Machine g n} {e : SimError}
    (h : m.checkCoherence.map (fun _ => true) = .error e) (c : Nat) : e ≠ .stalled c := by
  unfold checkCoherence at h
  cases hv : m.violation? with
  | none =>
    rw [hv] at h
    cases h
  | some v =>
    rw [hv] at h
    cases h
    exact nofun

theorem Ready.runFor_ne_stalled {t : Nat} {m m' : Machine g n} (h : Ready t m) (fuel c : Nat) :
    m.runFor fuel ≠ .ok (.error (.stalled c), m') := by
  induction fuel generalizing t m with
  | zero => exact nofun
  | succ fuel ih =>
    unfold runFor
    split
    · exact nofun
    · next hdone =>
      cases hs : m.step with
      | error f => exact nofun
      | ok y =>
        obtain ⟨r, m₁⟩ := y
        cases r with
        | error e =>
          have he : ∀ c, e ≠ .stalled c := fun c => by
            obtain ⟨-, -, ⟨he, -⟩ | ⟨_, -, he⟩⟩ | ⟨-, he | he, -⟩ := (yields_step h).of_eq_ok hs
            · cases he
            · cases he
              exact nofun
            · cases he
            · exact ne_stalled_of_checkCoherence he.symm c
          intro hx
          cases hx
          exact he c rfl
        | ok b =>
          cases b with
          | false => exact absurd (h.allDone_of_step hs) hdone
          | true =>
            obtain ⟨t', ht'⟩ := ready_step h hs
            exact ih ht'

/-- **There is no deadlock.** As long as a program is not over, somebody waits for a cycle; so a
step finds nothing to do only when all programs are over, and no run is given up as stalled. -/
theorem no_deadlock {spec : Spec} {programs : List Program} {g : Geometry}
    {m₀ m : Machine g programs.length} {l : List Transfer}
    (h : ofSpec spec programs = .ok ⟨g, m₀⟩) (hr : m₀.Reaches l m) :
    (m.allDone = false → m.queue.pending ≠ []) ∧
    (∀ m', m.step = .ok (.ok false, m') → m.allDone) ∧
    (∀ c m', m.run ≠ .ok (.error (.stalled c), m')) ∧
    ∀ fuel c m', m.runFor fuel ≠ .ok (.error (.stalled c), m') := by
  obtain ⟨t, hready⟩ := ready_of_ofSpec h hr
  refine ⟨fun hd hp => ?_, fun m' => hready.allDone_of_step, fun c m' =>
    hready.runFor_ne_stalled _ c, fun fuel c m' => hready.runFor_ne_stalled fuel c⟩
  rw [hready.allDone_of_nil hp] at hd
  exact Bool.noConfusion hd

theorem no_deadlock_tiny : ∃ m l, tiny.Reaches l m ∧
    (∀ i : Fin tinyPrograms.length, m.cores[i].activity = .waiting) ∧ m.queue.pending ≠ [] := by
  obtain ⟨m, l, hr, hw, hd⟩ := exists_reaches tiny 11
    (fun m => (∀ i : Fin tinyPrograms.length, m.cores[i].activity = .waiting) ∧ m.allDone = false)
    (by decide +kernel)
  exact ⟨m, l, hr, hw, (no_deadlock ofSpec_tiny hr).1 hd⟩

/-! ## The turns come in order -/

/-- **The scheduler never goes out of step.** Nothing but a number out of range makes a step fail:
nobody is woken for the past or found too late, no cache is asked while it is busy, and every line
has its place in a cache. Between steps nobody waits twice. The steps run later and later cycles,
and in each of them the turns come in order, forwarders before memory, cores and caches, each kind
by its numbers, until nothing is due. -/
theorem in_step {spec : Spec} {programs : List Program} {g : Geometry}
    {m₀ m : Machine g programs.length} {log : List (Nat × Option Transfer)}
    (h : ofSpec spec programs = .ok ⟨g, m₀⟩) (hr : m₀.Plays log m) :
    (∀ f, m.step = .error f → f = .overflow) ∧
    (spec.numSets = .ok g.sets ∧ g.ways = spec.ways.toNat ∧
      (∀ a, spec.place a = .ok ((g.index a : Nat), g.tag a)) ∧
      ∀ (i : Fin g.sets) tag, spec.addrAt i tag = .ok (g.addrAt i tag)) ∧
    (m.queue.pending.map Prod.snd).Nodup ∧
    (log.map Prod.fst).Pairwise (· < ·) ∧
    (∀ t turns x, m.queue.nextTime = some t → (m.started t).Within turns x →
      turns.Pairwise fun p q => compare p q = .lt) ∧
    ∀ r m', m.step = .ok (r, m') → ran r → (∀ e ∈ log, e.1 < m'.now) ∧ ∃ turns x,
      m.queue.nextTime = some m'.now ∧ (m.started m'.now).Within turns x ∧
        x.queue.fetch = .ok none ∧ x.broadcast = .ok m' := by
  obtain ⟨hv, -, rfl⟩ := ofSpec_eq_ok.mp h
  obtain ⟨t, hready, hlog, hlt⟩ := hr.cycles_lt (ready_boot hv _)
  obtain ⟨hsets, hways, -⟩ := Spec.numSets_of_validate hv
  refine ⟨fun f => (yields_step hready).eq_overflow, ⟨hsets, hways, Spec.place_of_validate hv,
    Spec.addrAt_of_validate hv⟩, hready.attended.waits.nodup hready.sorted, hlog,
    fun t' turns x ht' hx => ?_, fun r m' hs hran => ?_⟩
  · obtain ⟨k, -, hturns⟩ := hx.awake (awake_started hready ht')
    exact hturns
  · obtain ⟨hnot, -⟩ | ⟨-, -, t', turns, x, ht', hround, hready', hnow⟩ :=
      (yields_step hready).of_eq_ok hs
    · cases hnot.symm.trans hran
    · obtain rfl : m'.now = t' := hnow
      obtain ⟨e, he, hte⟩ := WakeQueue.mem_of_nextTime ht'
      refine ⟨fun y hy => ?_, turns, x, ht', hround.within,
        hround.fetch_eq_none (awake_started hready ht'), hround.shown⟩
      exact Nat.lt_of_lt_of_le (hlt y hy).1 (hte ▸ hready.later e he)

theorem in_step_tiny : ∃ m log, tiny.Plays log m ∧ m.queue.pending.length = 3 ∧
    (m.queue.pending.map Prod.snd).Nodup ∧ (log.map Prod.fst).Pairwise (· < ·) := by
  obtain ⟨m, l, hr, hlen⟩ := exists_reaches tiny 13 (fun m => m.queue.pending.length = 3)
    (by decide +kernel)
  obtain ⟨log, hlog⟩ := hr.plays
  obtain ⟨-, -, hnodup, hcycles, -⟩ := in_step ofSpec_tiny hlog
  exact ⟨m, log, hlog, hlen, hnodup, hcycles⟩

end Snooping.Machine
