import Snooping.Proofs.Cache.Courses
import Snooping.Proofs.Machine.Rounds

/-!
# Program order

A cache may start a request over, wait for two answers, and be set back by its peers. Nevertheless
its core sees every request of its program end once, and in order.

* `Program.accesses`, `Program.otherCycles`: what a program asks of the cache, and of the clock.
* **`Core.Strides`**: what a turn is for a core and the request that is under way for it.
* **`Core.Follows`**: a core follows its program; `Core.Follows.strides`: it does so in every turn.
* **`Machine.Acts.strides`**, `Machine.Aired.underWay_eq`: turns and broadcasts for a core;
  `Machine.Plays.follows`: what holds in every state between steps.
* **`Machine.program_order`**: every request of a program ends once, and in order.
-/

namespace Snooping

variable {g : Geometry} {n : Nat}

/-! ## Programs -/

/-- The cycles that an instruction spends on other work, at least one if it is such work. -/
def Instr.otherCycles : Instr → Nat
  | read _ | write _ _ => 0
  | other d => max d.toNat 1

namespace Program

/-- The requests of a program, in order. -/
def accesses (p : Program) : List Request := p.filterMap Instr.request?

/-- The cycles that a program spends on other work. -/
def otherCycles (p : Program) : Nat := (p.map Instr.otherCycles).sum

theorem accesses_cons_of_some {x : Instr} {r : Request} (h : x.request? = some r) (p : Program) :
    accesses (x :: p) = r :: accesses p := List.filterMap_cons_some h

theorem otherCycles_cons (x : Instr) (p : Program) :
    otherCycles (x :: p) = x.otherCycles + otherCycles p := List.sum_cons

theorem otherCycles_of_some {x : Instr} {r : Request} (h : x.request? = some r) :
    x.otherCycles = 0 := by
  cases x with
  | read a => rfl
  | write a v => rfl
  | other d => cases h

end Program

/-! ## Cores -/

namespace Core

/-- **What a turn is for a core** and the request that is under way for it. -/
inductive Strides (c : Core) (o : Option Request) (now : Nat) : Core → Option Request → Prop
  /-- The turn is about somebody else, or the request is not yet at its end. -/
  | still : Strides c o now c o
  | halt (hp : c.program = []) :
      Strides c o now { c with activity := .done, doneAt := some now } o
  | work {d : UInt32} {rest : Program} (hp : c.program = .other d :: rest) :
      Strides c o now { c with
        activity := .busy, program := rest, otherCycles := c.otherCycles + duration d } o
  | issue {x : Instr} {rest : Program} {r : Request} (hp : c.program = x :: rest)
      (hr : x.request? = some r) (ho : o = none) :
      Strides c o now { c with activity := .waiting, program := rest } (some r)
  /-- The request ends, as the first one in this cycle. -/
  | finish {r : Completion} (ho : o = some r.request) (hc : r.cycle = now) (hw : r.Written)
      (hlt : ∀ x ∈ c.completed.toList, x.cycle < now) : Strides c o now (c.receive r) none

/-- **A core follows its program**, with a request under way. -/
structure Follows (p : Program) (c : Core) (o : Option Request) : Prop where
  order : c.completed.toList.map Completion.request ++ o.toList ++ c.program.accesses = p.accesses
  rising : (c.completed.toList.map Completion.cycle).Pairwise (· < ·)
  written : ∀ r ∈ c.completed.toList, r.Written
  worked : c.otherCycles + c.program.otherCycles = p.otherCycles
  ended : c.activity = .done → c.program = []

theorem follows_start (id : Nat) (p : Program) : (Core.start id p).Follows p none :=
  ⟨rfl, .nil, nofun, Nat.zero_add _, nofun⟩

/-- **A turn keeps a core to its program.** -/
theorem Follows.strides {p : Program} {c c' : Core} {o o' : Option Request} {now : Nat}
    (h : c.Follows p o) (hs : c.Strides o now c' o') : c'.Follows p o' := by
  cases hs with
  | still => exact h
  | halt hp => exact ⟨h.order, h.rising, h.written, h.worked, fun _ => hp⟩
  | work hp =>
    have horder := h.order
    have hworked := h.worked
    rw [hp] at horder hworked
    refine ⟨horder, h.rising, h.written, ?_, nofun⟩
    rw [Program.otherCycles_cons, Instr.otherCycles, ← duration_eq, ← Nat.add_assoc] at hworked
    exact hworked
  | @issue x rest r hp hr ho =>
    have horder := h.order
    have hworked := h.worked
    rw [hp] at horder hworked
    refine ⟨?_, h.rising, h.written, ?_, nofun⟩
    · rw [ho, Program.accesses_cons_of_some hr, Option.toList_none, List.append_nil] at horder
      rw [Option.toList_some, List.append_assoc]
      exact horder
    · rw [Program.otherCycles_cons, Program.otherCycles_of_some hr, Nat.zero_add] at hworked
      exact hworked
  | @finish r ho hc hw hlt =>
    have horder := h.order
    refine ⟨?_, ?_, fun x hx => ?_, h.worked, nofun⟩
    · rw [ho] at horder
      simpa [receive] using horder
    · rw [receive, Array.toList_push, List.map_append]
      refine List.pairwise_append.mpr ⟨h.rising, List.pairwise_singleton _ _, fun t ht u hu => ?_⟩
      obtain ⟨x, hx, rfl⟩ := List.mem_map.mp ht
      rw [List.mem_singleton.mp hu]
      exact hc ▸ hlt x hx
    · rw [receive, Array.toList_push, List.mem_append, List.mem_singleton] at hx
      obtain hx | rfl := hx
      · exact h.written x hx
      · exact hw

theorem Strides.size_le {c c' : Core} {o o' : Option Request} {now : Nat}
    (h : c.Strides o now c' o') : c.completed.size ≤ c'.completed.size := by
  cases h with
  | finish =>
    rw [receive, Array.size_push]
    exact Nat.le_succ _
  | _ => exact Nat.le_refl _

end Core

namespace Machine

/-! ## Turns and broadcasts -/

theorem mem_timeline {m : Machine g n} {i : Fin n} {r : Completion}
    (h : r ∈ m.cores[i].completed.toList) : ⟨i, r⟩ ∈ m.timeline := by
  rw [(perm_timeline m).mem_iff, entries, List.mem_flatMap]
  exact ⟨i, List.mem_finRange i, List.mem_map_of_mem h⟩

theorem Settled.completed_lt {k : Nat} {m : Machine g n} (h : Settled k m) {i : Fin n}
    (hk : k ≤ (Agent.cache i).slot) : ∀ r ∈ m.cores[i].completed.toList, r.cycle < m.now :=
  fun r hr => (h.past _ (mem_timeline hr)).resolve_right fun hx => by
    have hlt : (Agent.cache i).slot < k := hx.2
    omega

section Turn

variable {m m' : Machine g n} {p : Agent (Fin n)}

theorem strides_put {i : Fin n} {k : Core} {c : Cache g}
    (h : m.cores[i].Strides m.caches[i].underWay m.now k c.underWay) (j : Fin n) :
    m.cores[j].Strides m.caches[j].underWay m.now (m.cores.put i k)[j]
      (m.caches.put i c)[j].underWay := by
  by_cases hj : j = i
  · subst hj
    rwa [Vector.getElem_put_self, Vector.getElem_put_self]
  · rw [Vector.getElem_put_of_ne _ _ hj, Vector.getElem_put_of_ne _ _ hj]
    exact .still

/-- **What a turn is for every core.** -/
theorem Acts.strides (ha : m.Acts p m')
    (hlt : ∀ i, p = .cache i → ∀ r ∈ m.cores[i].completed.toList, r.cycle < m.now) (j : Fin n) :
    m.cores[j].Strides m.caches[j].underWay m.now m'.cores[j] m'.caches[j].underWay := by
  -- The turn of a cache either keeps its request or hands its end to the core.
  have hdeed := fun i : Fin n => (m.caches[i].deed_tick m.bus m.now).underWay
  have hcore : ∀ {i k}, m.cores[i].Strides m.caches[i].underWay m.now k m.caches[i].underWay →
      m.cores[j].Strides m.caches[j].underWay m.now (m.cores.put i k)[j] m.caches[j].underWay :=
    fun {i k} h => by
      have hs := strides_put h j
      rwa [Vector.put_getElem] at hs
  have hkeep : ∀ {i} {c : Cache g}, c.underWay = m.caches[i].underWay →
      m.cores[j].Strides m.caches[j].underWay m.now m.cores[j] (m.caches.put i c)[j].underWay :=
    fun {i c} hc => by
      have hi : m.cores[i].Strides m.caches[i].underWay m.now m.cores[i] c.underWay := by
        rw [hc]
        exact .still
      have hs := strides_put hi j
      rwa [Vector.put_getElem] at hs
  cases ha with
  | halt hp => exact hcore (.halt hp)
  | work hp hl => exact hcore (.work hp)
  | @issue i x rest r hp hr hi =>
    have ho : m.caches[i].underWay = none := by rw [Cache.underWay, hi, Option.map_none]
    exact strides_put (c := { m.caches[i] with access := some (.start r) }) (.issue hp hr ho) j
  | @proceed i c bus ht =>
    obtain ⟨-, hc⟩ | ⟨r, hd, -⟩ := ht ▸ hdeed i
    · exact hkeep hc
    · cases hd
  | @await i c bus ht =>
    obtain ⟨-, hc⟩ | ⟨r, hd, -⟩ := ht ▸ hdeed i
    · exact hkeep hc
    · cases hd
  | @finish i c r ht =>
    obtain ⟨hd, -⟩ | ⟨r', hd, ho, hnow, hw, hc⟩ := ht ▸ hdeed i
    · cases hd
    · cases hd
      have hs : m.cores[i].Strides m.caches[i].underWay m.now (m.cores[i].receive r) c.underWay :=
        hc ▸ .finish ho hnow hw (hlt i rfl)
      exact strides_put hs j
  | _ => exact .still

theorem Aired.underWay_eq (h : m.Aired m') (j : Fin n) :
    m'.caches[j].underWay = m.caches[j].underWay := by
  obtain ⟨d, -, he, -⟩ := m.caches[j].endures_snoop (m.seenBus j)
  rw [(h.heeds j).underWay, he.fades.underWay]

end Turn

/-! ## Runs -/

/-- Every core follows its program. -/
def Follows (programs : Fin n → Program) (m : Machine g n) : Prop :=
  ∀ i : Fin n, m.cores[i].Follows (programs i) m.caches[i].underWay

theorem Awake.strides {k : Nat} {y y' : Machine g n} {p : Agent (Fin n)}
    {q : WakeQueue (Agent (Fin n))} (hy : Awake k y) (hq : y.queue.fetch = .ok (some (p, q)))
    (hk : k ≤ p.slot) (ha : { y with queue := q }.Acts p y') (j : Fin n) :
    y.cores[j].Strides y.caches[j].underWay y.now y'.cores[j] y'.caches[j].underWay := by
  have hnow : q.now = y.now := WakeQueue.now_of_fetch hq
  have hs := ha.strides (fun i hp => ?_) j
  · change y.cores[j].Strides y.caches[j].underWay q.now y'.cores[j] y'.caches[j].underWay at hs
    rwa [hnow] at hs
  · show ∀ r ∈ y.cores[i].completed.toList, r.cycle < q.now
    rw [hnow]
    exact hy.completed_lt (hp ▸ hk)

/-- **A cycle keeps all cores to their programs.** -/
theorem Round.follows {m x m' : Machine g n} {t : Nat} {l : List (Agent (Fin n))}
    {programs : Fin n → Program} (h : m.Round t l x m') (h₀ : Awake 0 (m.started t))
    (hm : m.Follows programs) : m'.Follows programs := by
  obtain ⟨k, -, hx, -⟩ := h.within.induct h₀ (P := fun _ y => y.Follows programs) hm
    fun hy hfollows hq hk ha _ j => (hfollows j).strides (hy.strides hq hk ha j)
  intro j
  rw [h.aired.cores, h.aired.underWay_eq]
  exact hx j

theorem Round.size_le {m x m' : Machine g n} {t : Nat} {l : List (Agent (Fin n))}
    (h : m.Round t l x m') (h₀ : Awake 0 (m.started t)) (j : Fin n) :
    m.cores[j].completed.size ≤ m'.cores[j].completed.size := by
  obtain ⟨k, -, hx, -⟩ := h.within.induct h₀
    (P := fun _ y => m.cores[j].completed.size ≤ y.cores[j].completed.size) (Nat.le_refl _)
    fun hy hle hq hk ha _ => Nat.le_trans hle (hy.strides hq hk ha j).size_le
  rw [h.aired.cores]
  exact hx

theorem follows_boot (spec : Spec) (programs : Vector Program n) :
    (boot g spec programs).Follows fun i => programs[i] := fun i => by
  rw [core_boot, cache_boot]
  exact Core.follows_start i programs[i]

section Order

variable {spec : Spec} {programs : List Program} {g : Geometry}
  {m₀ m : Machine g programs.length} {l : List Transfer}

theorem Plays.follows {log : List (Nat × Option Transfer)}
    (h : ofSpec spec programs = .ok ⟨g, m₀⟩) (hl : m₀.Plays log m) : m.Follows programs.get := by
  obtain ⟨-, -, h₀⟩ := ofSpec_eq_ok.mp h
  obtain ⟨-, -, hx⟩ := hl.induct (ready_start h) (P := fun _ _ m => m.Follows programs.get)
    (h₀ ▸ follows_boot spec ⟨programs.toArray, rfl⟩)
    fun hready hy ht hround => hround.follows (awake_started hready ht) hy
  exact hx

/-- **Every request of a program ends once, and in order.** The requests that have ended, the one
that is under way, and those still to come are those of the program; a core has one under way just
while it waits. They end in later and later cycles, writes with the word that they write. A core is
done only when all of them have ended, and has then spent its cycles on all of its other work. -/
theorem program_order (h : ofSpec spec programs = .ok ⟨g, m₀⟩) (hr : m₀.Reaches l m)
    (i : Fin programs.length) :
    m.cores[i].completed.toList.map Completion.request ++ m.caches[i].underWay.toList ++
      m.cores[i].program.accesses = programs[i].accesses ∧
    (m.cores[i].activity = .waiting ↔ m.caches[i].underWay.isSome) ∧
    (m.cores[i].completed.toList.map Completion.cycle).Pairwise (· < ·) ∧
    (∀ r ∈ m.cores[i].completed.toList, r.Written) ∧
    (m.cores[i].activity = .done →
      m.cores[i].completed.toList.map Completion.request = programs[i].accesses ∧
      m.cores[i].otherCycles = programs[i].otherCycles) := by
  obtain ⟨log, hl⟩ := hr.plays
  obtain ⟨t, hready⟩ := ready_of_ofSpec h hr
  have hfollows : m.Follows fun i => programs[i] := hl.follows h
  have hwaits : m.cores[i].activity = .waiting ↔ m.caches[i].underWay.isSome := by
    rw [hready.attended.paired i, ne_eq, Cache.stage_eq_idle, Cache.underWay, Option.isSome_map,
      Option.isSome_iff_ne_none]
  obtain ⟨horder, hrising, hwritten, hworked, hover⟩ := hfollows i
  refine ⟨horder, hwaits, hrising, hwritten, fun hd => ?_⟩
  have hidle : m.caches[i].underWay = none := by
    rw [← Option.not_isSome_iff_eq_none, ← hwaits, hd]
    decide
  rw [hover hd, hidle, Option.toList_none, List.append_nil] at horder
  rw [hover hd] at hworked
  exact ⟨(List.append_nil _).symm.trans horder, hworked⟩

/-- The first core has other work before its write and after it, the second one after its read. -/
def busyPrograms : List Program :=
  [[.other 3, .write ⟨0⟩ 7, .other 0], [.read ⟨0⟩, .other 5]]

/-- Two caches like those of `tiny`. -/
def busy : Machine tinyGeometry busyPrograms.length :=
  boot _ tinySpec ⟨busyPrograms.toArray, rfl⟩

theorem ofSpec_busy : ofSpec tinySpec busyPrograms = .ok ⟨_, busy⟩ := rfl

/-- Both cores wait for their request, and both are done in the end: the first one has then worked
for three cycles and for one, the second one for five. -/
theorem program_order_busy :
    (∃ m l, busy.Reaches l m ∧ ∀ i : Fin busyPrograms.length,
      m.cores[i].activity = .waiting ∧ m.caches[i].underWay.isSome) ∧
    ∃ m l, busy.Reaches l m ∧ ∀ i : Fin busyPrograms.length, m.cores[i].activity = .done ∧
      m.cores[i].completed.toList.map Completion.request =
        ([[.write ⟨0⟩ 7], [.read ⟨0⟩]] : List (List Request)).get i ∧
      m.cores[i].otherCycles = ([3 + 1, 5] : List Nat).get i := by
  refine ⟨?_, ?_⟩
  · obtain ⟨m, l, hr, hw⟩ := exists_reaches busy 4
      (fun m => ∀ i : Fin busyPrograms.length, m.cores[i].activity = .waiting) (by decide +kernel)
    have hwaits := fun i => (program_order ofSpec_busy hr i).2.1
    exact ⟨m, l, hr, fun i => ⟨hw i, (hwaits i).mp (hw i)⟩⟩
  · obtain ⟨m, l, hr, hd⟩ := exists_reaches busy 30
      (fun m => ∀ i : Fin busyPrograms.length, m.cores[i].activity = .done) (by decide +kernel)
    have hdone := fun i => (program_order ofSpec_busy hr i).2.2.2.2 (hd i)
    have haccesses : ∀ i : Fin busyPrograms.length, busyPrograms[i].accesses =
        ([[.write ⟨0⟩ 7], [.read ⟨0⟩]] : List (List Request)).get i :=
      Fin.forall_fin_two.mpr ⟨rfl, rfl⟩
    have hother : ∀ i : Fin busyPrograms.length, busyPrograms[i].otherCycles =
        ([3 + 1, 5] : List Nat).get i := Fin.forall_fin_two.mpr ⟨rfl, rfl⟩
    exact ⟨m, l, hr, fun i => ⟨hd i, (hdone i).1.trans (haccesses i),
      (hdone i).2.trans (hother i)⟩⟩

end Order

end Machine

end Snooping
