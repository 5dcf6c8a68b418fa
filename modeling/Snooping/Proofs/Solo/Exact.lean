import Snooping.Proofs.Cache.Bench
import Snooping.Proofs.Machine.Order
import Snooping.Proofs.Solo.Stations

/-!
# One core takes the cycles of an ideal cache

A program that runs on its own finds its lines where an ideal cache has them, and takes exactly the
cycles that its instructions cost on it.

* `Machine.CoreDue.runs`: the rest of a program; `Machine.CoreDue.halt`: its end.
* **`Machine.single_core_exact`**: whole runs.
-/

namespace Snooping.Machine

variable {g : Geometry} {s : Spec} {t : Nat} {c : Cache g} {k : Core} {m : Machine g 1}
  {program : Program}

/-- **A program takes the cycles that it costs.** -/
theorem CoreDue.runs (h : CoreDue s t c k m) (hs : s.maxCycles = none)
    (hcold : 0 < s.coldLatency.toNat) (hp : k.program = program) {past : List Request}
    (hc : c.Mirrors past)
    (hv : ∀ i, Ideal.visits g i program.accesses + Ideal.visits g i past ≤ c.maxCounter)
    (ht : t + program.costs g s.coldLatency.toNat past < UInt64.size) :
    ∃ c' k' m', m.Leads m' (program.costs g s.coldLatency.toNat past) ∧
      CoreDue s (t + program.costs g s.coldLatency.toNat past) c' k' m' ∧ k'.program = [] ∧
      k'.completed.toList.map (fun e => (e.request, e.hit)) =
        k.completed.toList.map (fun e => (e.request, e.hit)) ++ program.lookups g past ∧
      c'.stats.writeBacks = c.stats.writeBacks + program.writeBacks g past := by
  induction program generalizing t c k m past with
  | nil =>
    exact ⟨c, k, m, .refl m, h, hp, (List.append_nil _).symm, rfl⟩
  | cons x rest ih =>
    cases hx : x.request? with
    | none =>
      cases x with
      | read | write => cases hx
      | other d =>
        rw [Program.costs_other, ← Core.duration_eq] at ht ⊢
        obtain ⟨m₁, hwork, h₁⟩ := h.work hs hp (by omega)
        obtain ⟨c', k', m', hleads, h', hend, hlookups, hback⟩ := ih h₁ rfl hc hv (by omega)
        rw [← Nat.add_assoc]
        exact ⟨c', k', m', hwork.trans hleads, h', hend, hlookups, hback⟩
    | some r =>
      rw [Program.costs_access hx] at ht ⊢
      rw [Program.accesses_cons_of_some hx] at hv
      have hlt : Ideal.visits g (g.index r.addr) past < c.maxCounter := by
        have := hv (g.index r.addr)
        rw [Ideal.visits_cons_self rfl] at this
        omega
      obtain ⟨m₁, haccess, v, c₁, hafter, h₁⟩ := h.access hs hcold hc hlt hp hx (by omega)
      have hv₁ : ∀ i, Ideal.visits g i (Program.accesses rest) + Ideal.visits g i (r :: past) ≤
          c₁.maxCounter := fun i => by
        have := hv i
        rw [hafter.maxCounter]
        simp only [Ideal.visits, List.countP_cons] at this ⊢
        omega
      obtain ⟨c', k', m', hleads, h', hend, hlookups, hback⟩ :=
        ih h₁ rfl hafter.mirrors hv₁ (by omega)
      rw [← Nat.add_assoc]
      refine ⟨c', k', m', haccess.trans hleads, h', hend, ?_, ?_⟩
      · rw [hlookups, Program.lookups_access hx]
        simp [Core.receive]
      · rw [hback, hafter.writeBacks, Program.writeBacks_access hx, Nat.add_assoc]

theorem CoreDue.halt (h : CoreDue s t c k m) (hs : s.maxCycles = none) (hp : k.program = []) :
    ∃ m', m.Leads m' 1 ∧ m'.allDone ∧ m'.now = t ∧ m'.caches[(0 : Fin 1)] = c ∧
      m'.cores[(0 : Fin 1)] = { k with activity := .done, doneAt := some t } := by
  refine h.leads (t := t) hs rfl Nat.one_pos fun b f y hb hy => ?_
  have hcycle := cycle_last (runAgent_halt (s := s) (b := b.begin t) (c := c) (f := f) (y := y)
    (q := ⟨t, []⟩) hp) nofun (broadcast_of_undriven (b.current_begin t))
  exact ⟨_, hcycle 3, allDone_solo, rfl, rfl, rfl⟩

theorem coreDue_boot (s : Spec) (programs : Vector Program 1) :
    CoreDue s 0 (.empty g s.maxCounter.toNat 0) (.start 0 programs[(0 : Fin 1)])
      (boot g s programs) := by
  have hone : ∀ {α : Type} (h : Fin 1 → α), Vector.ofFn h = #v[h 0] := fun h =>
    Vector.ext fun i hi => by
      obtain rfl : i = 0 := by omega
      rw [Vector.getElem_ofFn]
      rfl
  have he : boot g s programs = solo s (.idle s.recordBus) (.empty g s.maxCounter.toNat 0)
      (.idle 0) (.idle s) (.start 0 programs[(0 : Fin 1)]) ⟨0, [(0, .core 0)]⟩ := by
    rw [boot, hone, hone, hone]
    rfl
  rw [he]
  exact .intro rfl ⟨rfl, rfl⟩ ⟨⟨rfl, rfl, rfl⟩, rfl, rfl⟩

/-- **A single core is as fast as on an ideal cache.** A program that runs on its own without a
cycle limit, with no more accesses to a set than a full counter has steps and a cost that is a cycle
number, ends with all its accesses completed in order. Each of them has found its line if it was
among those of its set that were accessed last. The run takes the sum of what the instructions cost,
and has written a line back for each access that evicts one that was written. -/
theorem single_core_exact {spec : Spec} {program : Program} {g : Geometry}
    {m₀ : Machine g [program].length} (h : ofSpec spec [program] = .ok ⟨g, m₀⟩)
    (hc : spec.maxCycles = none)
    (hv : ∀ i, Ideal.visits g i program.accesses ≤ spec.maxCounter.toNat)
    (ht : program.costs g spec.coldLatency.toNat [] < UInt64.size) :
    ∃ m, m₀.run = .ok (.ok (), m) ∧
      m.cores[(0 : Fin 1)].completed.toList.map (fun e => (e.request, e.hit)) =
        program.lookups g [] ∧
      m.cores[(0 : Fin 1)].doneAt = some (program.costs g spec.coldLatency.toNat []) ∧
      m.report.cycles = program.costs g spec.coldLatency.toNat [] ∧
      m.caches[(0 : Fin 1)].stats.writeBacks = program.writeBacks g [] := by
  obtain ⟨hvalid, -, rfl⟩ := ofSpec_eq_ok.mp h
  have hcold : 0 < spec.coldLatency.toNat := (Spec.usable_of_validate hvalid).latency_pos true
  have hboot := coreDue_boot (g := g) spec ⟨[program].toArray, rfl⟩
  have hprogram : (Core.start 0 (#v[program] : Vector Program 1)[(0 : Fin 1)]).program = program :=
    rfl
  obtain ⟨c, k, m₁, hleads, h₁, hend, hlookups, hback⟩ := hboot.runs hc hcold hprogram
    (Cache.mirrors_empty g _) hv (by rwa [Nat.zero_add])
  obtain ⟨m, hhalt, hdone, hnow, hcache, hcore⟩ := h₁.halt hc hend
  rw [Nat.zero_add] at hnow hcore
  obtain ⟨-, j, hj, hrun⟩ := hleads.trans hhalt 0 (ready_boot hvalid _)
  refine ⟨m, ?_, ?_, ?_, hnow, ?_⟩
  · have hfuel := hrun (UInt64.size + 2 - j)
    rw [Nat.sub_add_cancel (by omega)] at hfuel
    obtain ⟨fuel, hfuel'⟩ : ∃ fuel, UInt64.size + 2 - j = fuel + 1 :=
      Nat.exists_eq_add_one.mpr (by omega)
    rw [run, hfuel, hfuel', runFor, if_pos hdone]
    rfl
  · rw [hcore]
    exact hlookups
  · rw [hcore]
  · rw [hcache, hback]
    exact Nat.zero_add (program.writeBacks g [])

def loneSpec : Spec := { tinySpec with ways := 2, maxCounter := 8 }

/-- Two lines share the only set, until a third one takes the place of the second and a fourth one
that of the first, which was written. There is other work of three cycles, and of none. -/
def loneProgram : Program :=
  [.write ⟨0⟩ 7, .read ⟨32⟩, .other 3, .read ⟨4⟩, .read ⟨64⟩, .other 0, .read ⟨96⟩, .read ⟨64⟩]

/-- One cache with two ways, like `Cache.small`. -/
def lone : Machine Cache.smallGeometry [loneProgram].length :=
  boot _ loneSpec ⟨[loneProgram].toArray, rfl⟩

theorem ofSpec_lone : ofSpec loneSpec [loneProgram] = .ok ⟨_, lone⟩ := rfl

/-- Four misses, one of them with a line to be written back, two hits, and other work: three cycles
for a duration of three, and one for a duration of none. -/
theorem single_core_exact_lone : ∃ m, lone.run = .ok (.ok (), m) ∧
    m.cores[(0 : Fin 1)].completed.toList.map (fun e => (e.request, e.hit)) =
      [(.write ⟨0⟩ 7, false), (.read ⟨32⟩, false), (.read ⟨4⟩, true), (.read ⟨64⟩, false),
        (.read ⟨96⟩, false), (.read ⟨64⟩, true)] ∧
    m.cores[(0 : Fin 1)].doneAt = some (6 + 6 + 3 + 2 + 6 + 1 + 10 + 2) ∧
    m.report.cycles = 6 + 6 + 3 + 2 + 6 + 1 + 10 + 2 ∧
    m.caches[(0 : Fin 1)].stats.writeBacks = 1 :=
  single_core_exact ofSpec_lone rfl (by decide) (by decide)

end Snooping.Machine
