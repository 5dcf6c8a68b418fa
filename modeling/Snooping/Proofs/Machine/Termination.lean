import Mathlib.Algebra.BigOperators.Fin
import Snooping.Proofs.Machine.Progress
import Snooping.Proofs.Machine.Scheduler
import Snooping.Proofs.Machine.Writers

/-!
# Every run ends

The bus is not fair, and a request may start over and over again when its line is taken away. But
only writes take lines away, and there are no more of them than the programs have; this bounds
everything that a machine does. The bounds do not depend on the range of cycle numbers.

* **`Workload`**: the numbers of the programs, and what they can lead to at most.
* `Machine.Accounted`: what a run has come to; `Machine.Plays.accounted`.
* **`Machine.Limited`**: a run within its limits; **`Machine.limited_of_ofSpec`**.
* `Machine.Ready.step_of_unfinished`: a step of an unfinished machine runs a cycle.
* **`Machine.no_livelock`**: every run ends, with all programs over.
-/

namespace Snooping

open Finset

/-! ## Limits -/

/-- **What programs ask for**, in numbers. -/
structure Workload where
  cores : Nat
  instructions : Nat
  requests : Nat
  writes : Nat

namespace Workload

/-- The workload of a list of programs, one for each core. -/
def ofPrograms (ps : List Program) : Workload where
  cores := ps.length
  instructions := (ps.map List.length).sum
  requests := (ps.map Program.requests).sum
  writes := (ps.map Program.writes).sum

variable (w : Workload)

/-- A write announces itself once and writes a line back once, and each of these makes every core
start over at most once. -/
def restarts : Nat := w.cores * (2 * w.writes)

/-- A request reads its line once, and again when it starts over. -/
def reads : Nat := w.requests + w.restarts

/-- Everybody answers what is read or written back. -/
def answers : Nat := (w.cores + 1) * (w.reads + w.writes)

def transfers : Nat := w.reads + 2 * w.writes + w.answers

/-- Nobody is turned away but in a cycle with a transfer, and then everybody may be but the one that
drives it. -/
def rejections : Nat := 3 * w.cores * w.transfers

/-- A transfer makes up for all that it wakes, and a look at a line or an instruction for a
cycle. -/
def steps : Nat :=
  (w.cores + 3) * w.transfers + 2 * w.reads + w.instructions + 2 * w.cores + 1

end Workload

namespace Machine

variable {g : Geometry} {n : Nat}

/-- The transfers with a function in a run. -/
def driven (log : List (Nat × Option Transfer)) (f : Func) : Nat :=
  log.countP fun e => e.2.any fun t => t.func = f

/-- **A run within the limits** of its programs. -/
structure Limited (w : Workload) (log : List (Nat × Option Transfer)) (m : Machine g n) : Prop where
  steps : log.length ≤ w.steps
  reads : driven log .read ≤ w.reads
  writes : driven log .write ≤ w.writes
  invalidations : driven log .invalidate ≤ w.writes
  answers : driven log .response + driven log .requested ≤ w.answers
  rejections : m.bus.rejected ≤ w.rejections
  restarts : m.restarts ≤ w.restarts

/-! ## Accounts of a run -/

/-- **What a run has come to.** -/
structure Accounted (m₀ : Machine g n) (log : List (Nat × Option Transfer)) (m : Machine g n) :
    Prop where
  audited : m.Audited 0 0
  loads : m₀.SameLoads m
  carried : ∀ f, m.bus.carried f = m₀.bus.carried f + driven log f
  rejected : m.bus.rejected + 3 * n * m₀.bus.total ≤ m₀.bus.rejected + 3 * n * m.bus.total
  gains : m₀.Gains m log.length

theorem driven_append (log : List (Nat × Option Transfer)) (t : Nat) (b : Bus) (f : Func) :
    driven (log ++ [(t, b.current)]) f = driven log f + b.fresh f := by
  rw [driven, List.countP_append, List.countP_singleton, Bus.fresh]
  cases b.current.any fun t => t.func = f <;> rfl

theorem Plays.accounted {m₀ m : Machine g n} {log : List (Nat × Option Transfer)}
    (h : m₀.Plays log m) {t₀ : Nat} (h₀ : Ready t₀ m₀) (ha : m₀.Audited 0 0) :
    m₀.Accounted log m := by
  obtain ⟨-, -, hm⟩ := h.induct h₀ (P := fun _ log m => m₀.Accounted log m)
    ⟨ha, fun _ => ⟨rfl, rfl⟩, fun _ => rfl, Nat.le_refl _, Nat.le_refl _⟩
    fun {t₁ log y t l x y'} hready hy ht hround => by
      have hstart := awake_started hready ht
      obtain ⟨haudit, hloads, hcarried⟩ := hround.accounts hstart hy.audited
      obtain ⟨hgains, htotal, hrejected⟩ := hround.gains hstart ht
      refine ⟨haudit, hy.loads.trans hloads, fun f => ?_, ?_, ?_⟩
      · rw [hcarried, hy.carried, driven_append, Nat.add_assoc]
      · have := hy.rejected
        rw [htotal, Nat.mul_add]
        omega
      · rw [List.length_append, List.length_singleton]
        exact hy.gains.trans hgains
  exact hm

theorem Audited.effort_le {m : Machine g n} (h : m.Audited 0 0) (hs : m.Sound) :
    m.effort ≤ (n + 3) * m.bus.total + 2 * (m.requests + m.restarts) + 2 * n + 2 := by
  have hle : ∀ i : Fin n,
      m.caches[i].effort ≤ 2 * (m.load i + m.caches[i].stats.restarts) + 1 := by
    intro i
    have heffort := ((h.balanced i).bounds (hs.tidy i)).2.2.2.2
    have htaken : m.caches[i].taken ≤ m.load i := Nat.le_add_right _ _
    omega
  have hcaches : ∑ i : Fin n, m.caches[i].effort ≤ 2 * (m.requests + m.restarts) + n :=
    calc ∑ i : Fin n, m.caches[i].effort
        ≤ ∑ i : Fin n, (2 * (m.load i + m.caches[i].stats.restarts) + 1) :=
          sum_le_sum fun i _ => hle i
      _ = 2 * (m.requests + m.restarts) + n := by
          rw [sum_add_distrib, ← mul_sum, sum_add_distrib]
          simp [requests, restarts]
  have hparked : ∑ i : Fin n, m.forwarders[i].parked.toNat ≤ n :=
    calc ∑ i : Fin n, m.forwarders[i].parked.toNat
        ≤ ∑ _i : Fin n, 1 := sum_le_sum fun i _ => Bool.toNat_le _
      _ = n := by simp
  have hmemory : m.memory.parked.toNat ≤ 1 := Bool.toNat_le _
  have hbegun : m.memory.service.begun.toNat ≤ 1 := Bool.toNat_le _
  unfold effort
  omega

/-! ## The start -/

section Boot

variable {spec : Spec} {programs : List Program} {m₀ : Machine g programs.length}

theorem sums_boot (h₀ : m₀ = boot g spec ⟨programs.toArray, rfl⟩) :
    m₀.requests = (Workload.ofPrograms programs).requests ∧
    m₀.writes = (Workload.ofPrograms programs).writes ∧
    m₀.left = (Workload.ofPrograms programs).instructions + programs.length ∧
    m₀.effort = programs.length + 1 := by
  subst h₀
  have hsum : ∀ f : Program → Nat, (∑ i : Fin programs.length,
      f (⟨programs.toArray, rfl⟩ : Vector Program programs.length)[i]) = (programs.map f).sum :=
    fun f => Fin.sum_univ_fun_getElem programs f
  refine ⟨(sum_congr rfl fun i _ => (loads_boot spec _ i).1).trans (hsum Program.requests),
    (sum_congr rfl fun i _ => (loads_boot spec _ i).2).trans (hsum Program.writes), ?_, ?_⟩
  · have hone : ∑ i : Fin programs.length, 1 = programs.length := by simp
    rw [Workload.ofPrograms, ← hsum List.length]
    refine Eq.trans ?_ (congrArg (_ + ·) hone)
    rw [← sum_add_distrib]
    refine sum_congr rfl fun i _ => ?_
    rw [core_boot]
    rfl
  · simp only [effort, Bus.total, Bus.asked, Bus.answered, carried_boot, cache_boot, forwarder_boot]
    show (programs.length + 3) * 0 + ∑ i : Fin programs.length, 0 +
      ∑ i : Fin programs.length, 1 + 1 + 0 = _
    simp

variable {m : Machine g programs.length} {log : List (Nat × Option Transfer)}

theorem Plays.accounted_of_ofSpec (h : ofSpec spec programs = .ok ⟨g, m₀⟩)
    (hl : m₀.Plays log m) : m₀.Accounted log m := by
  obtain ⟨hv, -, rfl⟩ := ofSpec_eq_ok.mp h
  exact hl.accounted (ready_boot hv _) (audited_boot spec _)

theorem Plays.carried_eq (h : ofSpec spec programs = .ok ⟨g, m₀⟩) (hl : m₀.Plays log m)
    (f : Func) : m.bus.carried f = driven log f := by
  have hcarried := (hl.accounted_of_ofSpec h).carried f
  obtain ⟨-, -, rfl⟩ := ofSpec_eq_ok.mp h
  rwa [carried_boot, Nat.zero_add] at hcarried

/-- **Every run stays within the limits of its programs.** -/
theorem limited_of_ofSpec (h : ofSpec spec programs = .ok ⟨g, m₀⟩) (hl : m₀.Plays log m) :
    Limited (Workload.ofPrograms programs) log m := by
  obtain ⟨-, -, h₀⟩ := ofSpec_eq_ok.mp h
  have hrejected₀ : m₀.bus.rejected = 0 := h₀ ▸ rfl
  obtain ⟨hrequests, hwrites, hleft, heffort⟩ := sums_boot h₀
  obtain ⟨haudit, hloads, -, hrejected, hgains⟩ := hl.accounted_of_ofSpec h
  obtain ⟨t, hready, -⟩ := hl.cycles_lt (ready_start h)
  have hdriven := hl.carried_eq h
  have hreq : m.requests = _ := (sum_congr rfl fun i _ => (hloads i).1).trans hrequests
  have hwr : m.writes = _ := (sum_congr rfl fun i _ => (hloads i).2).trans hwrites
  obtain ⟨hwrite, hinvalidate, hrestart, hread, hanswer⟩ := haudit.bounds hready.sound
  rw [hwr] at hwrite hinvalidate hrestart
  have hread : m.bus.carried .read ≤ (Workload.ofPrograms programs).reads :=
    Nat.le_trans hread (hreq ▸ Nat.add_le_add_left hrestart _)
  have hanswer : m.bus.answered ≤ (Workload.ofPrograms programs).answers :=
    Nat.le_trans hanswer (Nat.mul_le_mul_left _ (Nat.add_le_add hread hwrite))
  have htotal : m.bus.total ≤ (Workload.ofPrograms programs).transfers := by
    unfold Bus.total Bus.asked Workload.transfers
    omega
  refine ⟨?_, hdriven _ ▸ hread, hdriven _ ▸ hwrite, hdriven _ ▸ hinvalidate, ?_, ?_, hrestart⟩
  · have hle := haudit.effort_le hready.sound
    have hmul := Nat.mul_le_mul_left (programs.length + 3) htotal
    have hrestarts : m.requests + m.restarts ≤ (Workload.ofPrograms programs).reads :=
      hreq ▸ Nat.add_le_add_left hrestart _
    rw [Gains, heffort, hleft] at hgains
    have hcores : (Workload.ofPrograms programs).cores = programs.length := rfl
    rw [Workload.steps, hcores]
    omega
  · rw [← hdriven, ← hdriven]
    exact hanswer
  · have hmul := Nat.mul_le_mul_left (3 * programs.length) htotal
    rw [hrejected₀, Nat.zero_add] at hrejected
    exact Nat.le_trans (Nat.le_of_add_right_le hrejected) hmul

end Boot

/-! ## The end -/

section End

variable {m₀ m : Machine g n} {log : List (Nat × Option Transfer)} {t t₀ : Nat}

theorem Ready.step_of_unfinished (h : Ready t m) (hc : m.spec.maxCycles = none)
    (hd : m.allDone = false) : m.step = .error .overflow ∨
      ∃ m', m.step = .ok (.ok true, m') ∧ m'.spec = m.spec := by
  cases hs : m.step with
  | error f =>
    obtain rfl := (yields_step h).eq_overflow hs
    exact .inl rfl
  | ok y =>
    obtain ⟨r, m'⟩ := y
    refine .inr ⟨m', ?_, (rested_step h.toRested hs).2.1⟩
    obtain ⟨-, -, ⟨-, hp⟩ | ⟨limit, hlimit, -⟩⟩ | ⟨-, hr | hr, t', l, x, -, -, hready, -⟩ :=
      (yields_step h).of_eq_ok hs
    · exact absurd (h.allDone_of_nil hp) (by rw [hd]; exact Bool.false_ne_true)
    · cases hc.symm.trans hlimit
    · rw [show r = .ok true from hr]
    · rw [show r = .ok true from hr.trans (congrArg _ (checkCoherence_eq_ok hready.toRested))]

theorem Plays.go_on {m' : Machine g n} (h : m₀.Plays log m) (hs : m.step = .ok (.ok true, m')) :
    m₀.Plays (log ++ [(m'.now, m'.bus.current)]) m' :=
  h.step hs

theorem Plays.ends {k : Nat} (hk : ∀ log m, m₀.Plays log m → log.length ≤ k) (h₀ : Ready t₀ m₀)
    (hl : m₀.Plays log m) (hc : m.spec.maxCycles = none) :
    (∃ log' m', m₀.Plays (log ++ log') m' ∧ m'.step = .error .overflow) ∨
    ∃ m', m'.allDone ∧ ∀ fuel, k < log.length + fuel → m.runFor fuel = .ok (.ok (), m') := by
  -- The induction is on the cycles that may still come.
  induction hleft : k - log.length using Nat.strong_induction_on generalizing log m with
  | h left ih =>
    have hlen := hk log m hl
    have hfuel : ∀ {fuel}, k < log.length + fuel → ∃ fuel', fuel = fuel' + 1 := fun hf =>
      Nat.exists_eq_add_one.mpr (by omega)
    cases hd : m.allDone with
    | true =>
      refine .inr ⟨m, hd, fun fuel hf => ?_⟩
      obtain ⟨fuel, rfl⟩ := hfuel hf
      rw [runFor, if_pos hd]
      rfl
    | false =>
      obtain ⟨t', hready, -⟩ := hl.cycles_lt h₀
      obtain hs | ⟨m', hs, hspec⟩ := hready.step_of_unfinished hc hd
      · exact .inl ⟨[], m, (List.append_nil log).symm ▸ hl, hs⟩
      · have hl' := hl.go_on hs
        have hle := hk _ m' hl'
        have hlen' : (log ++ [(m'.now, m'.bus.current)]).length = log.length + 1 :=
          List.length_append
        obtain ⟨log', m₁, hl₁, hs₁⟩ | ⟨m₁, hdone, hrun⟩ :=
          ih _ (by omega) hl' (hspec ▸ hc) rfl
        · rw [List.append_assoc] at hl₁
          exact .inl ⟨_, m₁, hl₁, hs₁⟩
        · refine .inr ⟨m₁, hdone, fun fuel hf => ?_⟩
          obtain ⟨fuel, rfl⟩ := hfuel hf
          rw [runFor, if_neg (by rw [hd]; exact Bool.false_ne_true), hs]
          exact hrun fuel (by omega)

/-- **No run goes on forever.** -/
theorem Plays.not_forever {k : Nat} (hk : ∀ log m, m₀.Plays log m → log.length ≤ k)
    (h₀ : Ready t₀ m₀) (hl : m₀.Plays log m) : ¬ ∃ s : Nat → Machine g n, s 0 = m ∧
      ∀ i, (s i).allDone = false ∧ ∃ b, (s i).step = .ok (.ok b, s (i + 1)) := by
  rintro ⟨s, rfl, hs⟩
  have hrun : ∀ i, ∃ log', m₀.Plays log' (s i) ∧ log'.length = log.length + i := fun i => by
    induction i with
    | zero => exact ⟨log, hl, rfl⟩
    | succ i ih =>
      obtain ⟨log', hl', hlen⟩ := ih
      obtain ⟨t, hready, -⟩ := hl'.cycles_lt h₀
      obtain ⟨hd, b, hb⟩ := hs i
      cases b with
      | false =>
        rw [hready.allDone_of_step hb] at hd
        cases hd
      | true =>
        refine ⟨_, hl'.go_on hb, ?_⟩
        rw [List.length_append, List.length_singleton]
        omega
  obtain ⟨log', hl', hlen⟩ := hrun (k + 1)
  have := hk log' _ hl'
  omega

end End

/-- **There is no livelock.** However unfair the bus is, every run drives, turns away and starts
over no more than the programs allow, and comes to an end: no steps go on forever with a program
that is not over, and without a cycle limit the run ends with all programs over, no matter how much
fuel it has beyond its limit, unless a number leaves its range. -/
theorem no_livelock {spec : Spec} {programs : List Program} {g : Geometry}
    {m₀ m : Machine g programs.length} {log : List (Nat × Option Transfer)}
    (h : ofSpec spec programs = .ok ⟨g, m₀⟩) (hl : m₀.Plays log m) :
    Limited (Workload.ofPrograms programs) log m ∧
    (¬ ∃ s : Nat → Machine g programs.length, s 0 = m ∧
      ∀ i, (s i).allDone = false ∧ ∃ b, (s i).step = .ok (.ok b, s (i + 1))) ∧
    (spec.maxCycles = none →
      (∃ log' m', m₀.Plays (log ++ log') m' ∧ m'.step = .error .overflow) ∨
      ∃ m', m'.allDone ∧ m.run = .ok (.ok (), m') ∧
        ∀ fuel, (Workload.ofPrograms programs).steps < fuel →
          m.runFor fuel = .ok (.ok (), m')) := by
  have hboot := ready_start h
  obtain ⟨-, hspec, -⟩ := rested_of_ofSpec h hl.reaches
  refine ⟨limited_of_ofSpec h hl,
    hl.not_forever (fun _ _ hl => (limited_of_ofSpec h hl).steps) hboot, fun hc => ?_⟩
  have hk : ∀ log m, m₀.Plays log m →
      log.length ≤ min (Workload.ofPrograms programs).steps UInt64.size := fun _ _ hl =>
    Nat.le_min.mpr ⟨(limited_of_ofSpec h hl).steps, hl.length_le hboot⟩
  refine (hl.ends hk hboot (hspec ▸ hc)).imp_right ?_
  rintro ⟨m', hd, hrun⟩
  refine ⟨m', hd, hrun _ ?_, fun fuel hf => hrun fuel ?_⟩
  · have := Nat.min_le_right (Workload.ofPrograms programs).steps UInt64.size
    omega
  · have := Nat.min_le_left (Workload.ofPrograms programs).steps UInt64.size
    omega

/-- The second core has started over and four attempts have been turned away, and the run will
end. -/
theorem no_livelock_tiny : ∃ m log, tiny.Plays log m ∧ tinySpec.maxCycles = none ∧
    (m.allDone = false ∧ m.restarts = 1 ∧ m.bus.rejected = 4) ∧
    Limited (Workload.ofPrograms tinyPrograms) log m ∧
    (Workload.ofPrograms tinyPrograms).restarts = 8 ∧
    ((∃ log' m', tiny.Plays (log ++ log') m' ∧ m'.step = .error .overflow) ∨
      ∃ m', m'.allDone ∧ m.run = .ok (.ok (), m')) := by
  obtain ⟨m, l, hr, hm⟩ := exists_reaches tiny 11
    (fun m => m.allDone = false ∧ m.restarts = 1 ∧ m.bus.rejected = 4) (by decide +kernel)
  obtain ⟨log, hlog⟩ := hr.plays
  obtain ⟨hlimited, -, hends⟩ := no_livelock ofSpec_tiny hlog
  refine ⟨m, log, hlog, rfl, hm, hlimited, rfl, (hends rfl).imp_right ?_⟩
  rintro ⟨m', hd, hrun, -⟩
  exact ⟨m', hd, hrun⟩

end Machine

end Snooping
