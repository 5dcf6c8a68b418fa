import Snooping.Proofs.Machine.Runs

/-!
# Requests and answers

A cache that waits has exactly one answer on its way, about the line it waits for, and nothing is on
its way to any other cache.

* `Cache.awaited`: what a cache waits for.
* `Machine.inFlight`: the answers on their way to a cache.
* **`Machine.one_in_flight`**: what holds in every state that steps can reach.
-/

namespace Snooping

variable {g : Geometry} {n : Nat}

/-- The request that a cache waits for an answer to, and the line it is about. -/
def Cache.awaited (c : Cache g) : Option (Func × Addr) :=
  c.access.bind fun a =>
    match a.phase with
    | .awaitFill _ => some (.read, a.request.addr.line)
    | .awaitWriteBack _ victim => some (.write, victim.line)
    | _ => none

theorem Cache.awaited_eq_some {c : Cache g} {f : Func} {a : Addr} :
    c.awaited = some (f, a) ↔ c.stage = .awaits f a := by
  cases hc : c.access with
  | none => simp [awaited, stage, hc]
  | some r =>
    rw [stage_of_access hc]
    cases hp : r.phase <;> simp only [awaited, hc, Option.bind_some, hp, stageOf, Option.some.injEq,
      Prod.mk.injEq, Stage.awaits.injEq, reduceCtorEq]
    case fill w => split_ifs <;> simp

namespace Machine

/-- **The answers that are on their way to core `i`**: requests that memory has queued or serves,
and lines that peers owe. -/
def inFlight (m : Machine g n) (i : Nat) : Nat :=
  m.memory.pending.countP (fun t => t.requester = i) +
    ∑ j : Fin n, m.forwarders[j].queue.countP fun k => k.isData && k.dest = i

theorem Rested.inFlight_eq {t : Nat} {m : Machine g n} (h : Rested t m) (i : Fin n) :
    m.inFlight i = ((m.caches[i].stage).asks i).card := by
  have hcount := h.coherent.balanced.count i
  have hjobs : ∀ j : Fin n, (m.calm.jobs j).countP (fun k => k.dest = i.val) =
      m.forwarders[j].queue.countP fun k => k.isData && k.dest = i.val := fun j => by
    refine List.countP_filter.trans (List.countP_congr fun k _ => ?_)
    rw [Bool.and_comm]
  simp only [hjobs] at hcount
  exact hcount

/-- **One answer is in flight for every waiting cache**, about the line that it waits for, and none
for any other. In the history of the bus every read and every write is followed by its answer
before its core asks again, and nothing else is answered. Memory never queues more requests than
there are cores. -/
theorem one_in_flight {spec : Spec} {programs : List Program} {g : Geometry}
    {m₀ m : Machine g programs.length} {l : List Transfer}
    (h : ofSpec spec programs = .ok ⟨g, m₀⟩) (hr : m₀.Reaches l m) :
    (∀ i : Fin programs.length,
      m.inFlight i = (if m.caches[i].awaited.isSome then 1 else 0) ∧
      (∀ t ∈ m.memory.pending, t.requester = i → m.caches[i].awaited = some (t.func, t.addr)) ∧
      (∀ (j : Fin programs.length), ∀ k ∈ m.forwarders[j].queue, k.isData → k.dest = i →
        m.caches[i].awaited = some (.read, k.addr)) ∧
      ∃ o, Answered (l.filter (·.concerns i)) o ∧
        m.caches[i].awaited = o.map fun t => (t.func, t.addr)) ∧
    m.memory.queue.length ≤ programs.length := by
  obtain ⟨⟨t, hrest⟩, rfl, htold⟩ := rested_of_ofSpec h hr
  have hb := hrest.coherent.balanced
  refine ⟨fun i => ⟨?_, fun u hu hi => ?_, fun j k hk hd hi => ?_, ?_⟩, ?_⟩
  · rw [hrest.inFlight_eq i]
    cases ha : m.caches[i].awaited with
    | some d =>
      rw [Cache.awaited_eq_some.mp ha]
      rfl
    | none =>
      have hs : ∀ f a, m.caches[i].stage ≠ .awaits f a := fun f a hs => by
        cases ha.symm.trans (Cache.awaited_eq_some.mpr hs)
      cases hx : m.caches[i].stage with
      | awaits f a => exact absurd hx (hs f a)
      | _ => rfl
  · obtain ⟨j, hj, hs⟩ := hb.stage_of_pending (t := u) hu
    obtain rfl : i = j := Fin.ext (hi.symm.trans hj)
    exact Cache.awaited_eq_some.mpr hs
  · obtain ⟨i', hi', hs⟩ := hb.stage_of_job (j := j) (k := k) (List.mem_filter.mpr ⟨hk, hd⟩)
    obtain rfl : i = i' := Fin.ext (hi.symm.trans hi')
    exact Cache.awaited_eq_some.mpr hs
  · obtain ⟨o, ho, hm⟩ := htold i
    refine ⟨o, ho, Option.ext fun ⟨f, a⟩ => ?_⟩
    rw [Cache.awaited_eq_some, Option.map_eq_some_iff]
    refine (hm f a).trans (exists_congr fun u => and_congr_right fun _ => ?_)
    rw [Prod.mk.injEq]
  · refine Nat.le_trans ?_ hb.length_pending_le
    show m.memory.queue.length ≤ m.memory.pending.length
    unfold Memory.pending
    cases m.memory.service with
    | idle => exact Nat.le_refl _
    | busy => exact Nat.le_succ _
    | responding => exact Nat.le_succ _

theorem one_in_flight_tiny : ∃ m l, tiny.Reaches l m ∧
    m.caches.toList.map (·.awaited) = [some (.write, ⟨0⟩), some (.read, ⟨0⟩)] ∧
    ∀ i : Fin tinyPrograms.length, m.inFlight i = 1 := by
  obtain ⟨m, l, hr, hm, hi⟩ := exists_reaches tiny 11
    (fun m => m.caches.toList.map (·.awaited) = [some (.write, ⟨0⟩), some (.read, ⟨0⟩)] ∧
      ∀ i : Fin tinyPrograms.length, m.caches[i].awaited.isSome) (by decide +kernel)
  refine ⟨m, l, hr, hm, fun i => ?_⟩
  obtain ⟨hcount, -⟩ := (one_in_flight ofSpec_tiny hr).1 i
  rw [hcount, if_pos (hi i)]

end Machine

end Snooping
