import Snooping.Proofs.Machine.Books
import Snooping.Proofs.Machine.Misses
import Snooping.Proofs.Machine.Steps

/-!
# The statistics balance

The counts of a report are made at different places, by the caches, the forwarders, memory and the
bus. Whatever a request goes through, they tell the same story.

* `Program.reads`: the loads of a program.
* `Report.carried`, `Report.sum`: the counts by function, and those of all cores together.
* **`Report.Balances`**: the counts of a report add up.
* **`Report.Closes`**: so do those of a run that has come to its end.
* `Machine.Ready.unanswered_of_allDone`: when all programs are over, nothing is owed.
* `Machine.Plays.served_eq`, `Machine.Plays.counted`: what a core has counted, and what it has
  counted when its program is over.
* **`Machine.statistics_balance`**: the counts add up in every state between steps.
-/

namespace Snooping

variable {g : Geometry} {n : Nat}

/-! ## Programs -/

namespace Program

/-- The loads of a program. -/
def reads (p : Program) : Nat := p.countP fun x => x.request?.any fun r => !r.isWrite

theorem reads_cons (x : Instr) (p : Program) :
    reads (x :: p) = reads p + (x.request?.any fun r => !r.isWrite).toNat := by
  rw [reads, List.countP_cons]
  cases x.request?.any fun r => !r.isWrite <;> rfl

theorem reads_add_writes (p : Program) : p.reads + p.writes = p.requests := by
  induction p with
  | nil => rfl
  | cons x p ih =>
    have hx : (x.request?.any fun r => !r.isWrite).toNat + (x.request?.any Request.isWrite).toNat =
        x.request?.isSome.toNat := by
      cases x <;> rfl
    rw [reads_cons, writes_cons, requests_cons]
    omega

theorem length_accesses (p : Program) : p.accesses.length = p.requests :=
  List.length_filterMap_eq_countP

end Program

/-! ## Reports -/

namespace Report

/-- The transfers with a function. -/
def carried (r : Report) (f : Func) : Nat := r.transfers[f.code]

/-- A count of all cores together. -/
def sum (r : Report) (f : CoreReport → Nat) : Nat := (r.cores.map f).sum

/-- **The counts of a report add up.** -/
structure Balances (r : Report) : Prop where
  /-- A core gets the bus for its own requests. -/
  acquisitions : r.sum (·.cache.busAcquisitions) =
    r.carried .read + r.carried .write + r.carried .invalidate
  writeBacks : r.sum (·.cache.writeBacks) = r.carried .write
  invalidations : r.sum (·.cache.invalidationsSent) = r.carried .invalidate
  /-- Forwarders and memory answer. -/
  answers : r.sum (·.forwardsSent) + r.memory.reads + r.memory.writes =
    r.carried .response + r.carried .requested
  waits : r.sum (·.cache.busWaitCycles) ≤ r.rejected

/-- **The counts of a run that has come to its end**, with the programs that it has run. -/
structure Closes (r : Report) (programs : List Program) : Prop where
  reads : r.cores.map CoreReport.reads = programs.map fun p => .ok p.reads
  writes : r.cores.map CoreReport.writes = programs.map fun p => .ok p.writes
  /-- Memory has answered what no cache has. -/
  accesses : ∃ k, r.memoryAccesses = .ok k ∧
    k + r.sum (·.cache.forwards) = r.carried .read + r.carried .write
  /-- Every request has been answered once. -/
  responses : r.carried .read + r.carried .write = r.carried .response

end Report

namespace Machine

theorem sum_report (m : Machine g n) (f : CoreReport → Nat) :
    m.report.sum f = ∑ i, f (m.coreReport i) := by
  rw [Report.sum, report, List.map_map, Fin.sum_univ_def]
  rfl

theorem map_cores_report {α : Type} {programs : List Program} (m : Machine g programs.length)
    {f : CoreReport → α} {f' : Program → α} (h : ∀ i, f (m.coreReport i) = f' (programs.get i)) :
    m.report.cores.map f = programs.map f' :=
  calc m.report.cores.map f
      = (List.finRange programs.length).map fun i => f' (programs.get i) := by
        rw [report, List.map_map]
        exact List.map_congr_left fun i _ => h i
    _ = ((List.finRange programs.length).map programs.get).map f' := List.map_map.symm
    _ = programs.map f' := congrArg (List.map f') (List.map_getElem_finRange programs)

theorem balances_report {m : Machine g n} (ha : m.Audited 0 0) (hb : m.Booked 0) :
    m.report.Balances where
  acquisitions := (m.sum_report _).trans ha.acquisitions
  writeBacks := (m.sum_report _).trans ha.writes
  invalidations := (m.sum_report _).trans ha.invalidations
  answers := by
    rw [sum_report, Nat.add_assoc]
    exact hb.answers
  waits := by
    rw [sum_report]
    exact hb.waits

/-! ## Transfers and answers -/

theorem driven_add_driven_le (log : List (Nat × Option Transfer)) {f f' : Func} (h : f ≠ f') :
    driven log f + driven log f' ≤ log.length := by
  rw [driven, driven, List.length_eq_countP_add_countP fun e => e.2.any fun t => t.func = f]
  refine Nat.add_le_add_left (List.countP_mono_left fun e _ he => ?_) _
  obtain ⟨t, ht, hf'⟩ := (Option.any_eq_true _ _).mp he
  have hf : t.func ≠ f := fun hf => h (hf.symm.trans (of_decide_eq_true hf'))
  simp [ht, hf]

theorem Ready.unanswered_of_allDone {m : Machine g n} {t : Nat} (h : Ready t m)
    (hd : m.allDone = true) : m.view.unanswered = 0 := by
  have hidle : ∀ i, m.calm.stage i = .idle := h.idle_of_allDone hd
  have hpending : m.memory.pending = [] := by
    apply List.eq_nil_iff_forall_not_mem.mpr
    intro u hu
    obtain ⟨i, -, hs⟩ := h.coherent.balanced.stage_of_pending (t := u) hu
    cases (hidle i).symm.trans hs
  have hjobs : ∀ j, m.view.jobs j = [] := by
    intro j
    apply List.eq_nil_iff_forall_not_mem.mpr
    intro k hk
    obtain ⟨i, -, hs⟩ := h.coherent.balanced.stage_of_job (j := j) hk
    cases (hidle i).symm.trans hs
  show m.memory.pending.length + ∑ j, (m.view.jobs j).length = 0
  simp [hpending, hjobs]

/-! ## Cores -/

section Cores

variable {spec : Spec} {programs : List Program} {m₀ m : Machine g programs.length}
  {log : List (Nat × Option Transfer)}

theorem Plays.loads_eq (h : ofSpec spec programs = .ok ⟨g, m₀⟩) (hl : m₀.Plays log m)
    (i : Fin programs.length) :
    m.load i = (programs.get i).requests ∧ m.writeLoad i = (programs.get i).writes := by
  obtain ⟨hr, hw⟩ := (hl.accounted_of_ofSpec h).loads i
  obtain ⟨-, -, rfl⟩ := ofSpec_eq_ok.mp h
  obtain ⟨hr₀, hw₀⟩ := loads_boot (g := g) spec ⟨programs.toArray, rfl⟩ i
  exact ⟨hr.trans hr₀, hw.trans hw₀⟩

theorem Plays.served_eq (h : ofSpec spec programs = .ok ⟨g, m₀⟩) (hl : m₀.Plays log m)
    (i : Fin programs.length) : m.caches[i].stats.served = m.cores[i].completed.size := by
  obtain ⟨hload, -⟩ := hl.loads_eq h i
  have hunderWay : m.caches[i].underWay.toList.length = m.caches[i].access.isSome.toNat := by
    rw [Cache.underWay]
    cases m.caches[i].access <;> rfl
  have hlength := congrArg List.length (hl.follows h i).order
  simp only [List.length_append, List.length_map, Array.length_toList, Program.length_accesses,
    hunderWay] at hlength
  rw [load, Cache.taken] at hload
  omega

theorem Plays.size_lt (h : ofSpec spec programs = .ok ⟨g, m₀⟩) (hl : m₀.Plays log m)
    (i : Fin programs.length) : m.cores[i].completed.size < UInt64.size := by
  have hle := length_le_of_rising (k := UInt64.size - 1) (hl.follows h i).rising fun t ht => by
    obtain ⟨r, hr, rfl⟩ := List.mem_map.mp ht
    have := (hl.explained h i).timely r hr
    omega
  rw [List.length_map, Array.length_toList] at hle
  exact Nat.lt_of_le_of_lt hle (by decide)

/-- **Cores whose programs are over have counted them**, loads and stores apart. -/
theorem Plays.counted (h : ofSpec spec programs = .ok ⟨g, m₀⟩) (hl : m₀.Plays log m)
    (hd : m.allDone = true) (i : Fin programs.length) :
    (m.coreReport i).reads = .ok (programs.get i).reads ∧
      (m.coreReport i).writes = .ok (programs.get i).writes := by
  obtain ⟨t, hready⟩ := ready_of_ofSpec h hl.reaches
  obtain ⟨hload, hwriteLoad⟩ := hl.loads_eq h i
  -- Neither the cache nor the program has any request left.
  have haccess : m.caches[i].access = none := Cache.stage_eq_idle.mp (hready.idle_of_allDone hd i)
  have hprogram : m.cores[i].program = [] := (hl.follows h i).ended (allDone_iff.mp hd i)
  rw [load, Cache.taken, haccess, hprogram] at hload
  rw [writeLoad, Cache.writesTaken, haccess, hprogram] at hwriteLoad
  have hserved : m.caches[i].stats.served = (programs.get i).requests := hload
  have hwrote : m.caches[i].stats.wrote = (programs.get i).writes := hwriteLoad
  have hcompleted := hl.served_eq h i
  have hsize := hl.size_lt h i
  have hsum := (programs.get i).reads_add_writes
  unfold CacheStats.served at hserved hcompleted
  unfold CacheStats.wrote at hwrote
  have hreads : m.caches[i].stats.readHits + m.caches[i].stats.readMisses =
      (programs.get i).reads := by
    omega
  have hwrites : m.caches[i].stats.writeHits + m.caches[i].stats.writeMisses =
      (programs.get i).writes := by
    omega
  exact ⟨sum64_eq_ok.mpr ⟨hreads, by omega⟩, sum64_eq_ok.mpr ⟨hwrites, by omega⟩⟩

end Cores

/-! ## The balance -/

section Balance

variable {spec : Spec} {programs : List Program} {g : Geometry} {m₀ m : Machine g programs.length}
  {log : List (Nat × Option Transfer)}

/-- **The report of a run that has come to its end.** -/
theorem Plays.closes (h : ofSpec spec programs = .ok ⟨g, m₀⟩) (hl : m₀.Plays log m)
    (hd : m.allDone = true) : m.report.Closes programs := by
  have hbooked := hl.booked h
  obtain ⟨t, hready⟩ := ready_of_ofSpec h hl.reaches
  have hcounted := hl.counted h hd
  -- Nothing is owed, so that every request has its answer.
  have howed := hready.unanswered_of_allDone hd
  have hpromised : m.promised ≤ m.view.unanswered := Nat.le_add_left _ _
  have hsources := hbooked.sources
  have hrequests := hbooked.requests
  rw [howed] at hpromised hrequests
  -- A cycle has one transfer at most, so that there are fewer answers than cycle numbers.
  have hlength := hl.length_le (ready_start h)
  have hread := driven_add_driven_le log (show Func.response ≠ .read from nofun)
  have hwrite := driven_add_driven_le log (show Func.response ≠ .write from nofun)
  rw [← hl.carried_eq h, ← hl.carried_eq h] at hread hwrite
  have hsize : 0 < UInt64.size := by decide
  refine ⟨?_, ?_, ⟨m.memory.answered, sum64_eq_ok.mpr ⟨rfl, by omega⟩, ?_⟩, ?_⟩
  · exact m.map_cores_report fun i => (hcounted i).1
  · exact m.map_cores_report fun i => (hcounted i).2
  · rw [sum_report]
    show m.memory.answered + m.forwards = m.bus.carried .read + m.bus.carried .write
    omega
  · show m.bus.carried .read + m.bus.carried .write = m.bus.carried .response
    omega

/-- **The statistics balance.** A report counts what was driven. The caches have got the bus once
for each request that was driven; the forwarders and memory have answered as often as the bus says,
and no cache has waited but when it was turned away. Every core has counted as many requests as have
ended, and a request counts as a miss just when its core has asked for its line while it was in
progress. Whenever the rest of the run ends well, every core has counted the loads and stores of its
program, and each read and write was answered once, by memory or by a cache that had the line. -/
theorem statistics_balance (h : ofSpec spec programs = .ok ⟨g, m₀⟩) (hl : m₀.Plays log m) :
    (∀ f, m.report.carried f = driven log f) ∧ m.report.Balances ∧
    (∀ i : Fin programs.length,
      (m.coreReport i).cache.served = m.cores[i].completed.size ∧
      (∀ before r after, m.cores[i].completed.toList = before ++ r :: after →
        r.Explained (fetches log i) before) ∧
      ∀ e ∈ fetches log i,
        Charged m.cores[i].completed.toList e.1 ∨ After m.cores[i].completed.toList e.1) ∧
    ∀ m', m.run = .ok (.ok (), m') → m'.report.Closes programs := by
  have hbalances := balances_report (hl.accounted_of_ofSpec h).audited (hl.booked h)
  refine ⟨hl.carried_eq h, hbalances, ?_, ?_⟩
  · intro i
    have hexplained := hl.explained h i
    exact ⟨hl.served_eq h i, hexplained.ended, hexplained.charged⟩
  · intro m' hr
    obtain ⟨log', hl'⟩ := hl.runFor hr
    exact hl'.closes h (allDone_of_runFor hr)

end Balance

theorem statistics_balance_tiny : ofSpec tinySpec tinyPrograms = .ok ⟨_, tiny⟩ ∧
    ∃ m log m', tiny.Plays log m ∧ m.run = .ok (.ok (), m') ∧
      (∃ (i : Fin tinyPrograms.length) (r : Completion), m.cores[i].completed.toList = [r] ∧
        r.hit = false ∧ ∃ e ∈ fetches log i, e.1 < r.cycle ∧ e.2 = ⟨0⟩) ∧
      m.report.Balances ∧ m'.report.Closes tinyPrograms ∧ m'.report.carried .response = 7 := by
  obtain ⟨m, l, hr, ⟨i, hi⟩, hrun⟩ := exists_reaches tiny 10 (fun m =>
    (∃ i : Fin tinyPrograms.length, m.cores[i].completed.toList.map
      (fun r => (r.hit, r.request.addr.line)) = [(false, ⟨0⟩)]) ∧
    (m.run.toOption.any fun y => y.1.isOk && decide (y.2.report.carried .response = 7)) = true)
    (by decide +kernel)
  obtain ⟨log, hl⟩ := hr.plays
  obtain ⟨r, hcompleted, hmissed⟩ := List.map_eq_singleton_iff.mp hi
  obtain ⟨hhit, hline⟩ := Prod.mk.inj hmissed
  obtain ⟨-, hbalances, hcores, hcloses⟩ := statistics_balance ofSpec_tiny hl
  obtain ⟨-, hexplained, -⟩ := hcores i
  obtain ⟨e, he, hduring⟩ := (hexplained [] r [] hcompleted).missed.mp hhit
  have hasked := (hexplained [] r [] hcompleted).line e he hduring
  cases hy : m.run with
  | error f =>
    rw [hy] at hrun
    cases hrun
  | ok y =>
    obtain ⟨r', m'⟩ := y
    rw [hy] at hrun
    obtain ⟨hok, hresponse⟩ := Bool.and_eq_true_iff.mp hrun
    cases r' with
    | error f => cases hok
    | ok u =>
      exact ⟨ofSpec_tiny, m, log, m', hl, hy, ⟨i, r, hcompleted, hhit, e, he, hduring.2,
        hasked.trans hline⟩, hbalances, hcloses m' hy, of_decide_eq_true hresponse⟩

end Machine

end Snooping
