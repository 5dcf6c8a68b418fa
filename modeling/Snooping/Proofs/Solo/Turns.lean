import Snooping.Proofs.Machine.Steps
import Snooping.Proofs.Solo.Access

/-!
# Cycles of a machine with one core

Nobody contends with the only core for the bus. Its cache is granted what it asks for, memory has
one request at a time and falls asleep after it, and nothing is forwarded.

* **`Machine.Leads`**: steps that lead from one state to another, with `Machine.Leads.of_cycle`.
* `Machine.solo`: the parts of a machine with one core.
* `Machine.runAgent_issue`, `Machine.runAgent_work`, `Machine.runAgent_halt`: the turns of its core;
  `Machine.runAgent_goOn`, `Machine.runAgent_sleep`, `Machine.runAgent_done`: of its cache;
  `Machine.runAgent_drain`, `Machine.runAgent_begin`, `Machine.runAgent_answer`: of memory.
* `Machine.broadcast_asked`, `Machine.broadcast_answered`: what is seen at the end of a cycle.
-/

namespace Snooping

variable {g : Geometry} {n : Nat}

namespace WakeQueue

variable {q : WakeQueue (Agent (Fin n))} {t d : Nat} (p : Agent (Fin n))

theorem schedule_of_le (h : q.now ≤ t) : q.schedule t p = .ok (q.add t p) := if_pos h

theorem send_of_lt (h : q.now + d < UInt64.size) : q.send d p = .ok (q.add (q.now + d) p) := by
  rw [send, sum64, if_pos h]
  exact schedule_of_le p (Nat.le_add_right _ _)

end WakeQueue

namespace Machine

/-! ## Successful steps -/

/-- **Steps lead from `m` to `m'`**, no more than `d` of them, and a run goes through both. -/
def Leads (m m' : Machine g n) (d : Nat) : Prop := ∀ t, Ready t m → (∃ t', Ready t' m') ∧
  ∃ k ≤ d, ∀ fuel, m.runFor (fuel + k) = m'.runFor fuel

theorem Leads.refl (m : Machine g n) : m.Leads m 0 :=
  fun t ht => ⟨⟨t, ht⟩, 0, Nat.le_refl _, fun _ => rfl⟩

theorem Leads.trans {m m' m'' : Machine g n} {d d' : Nat} (h : m.Leads m' d)
    (h' : m'.Leads m'' d') : m.Leads m'' (d + d') := by
  intro t ht
  obtain ⟨⟨t', ht'⟩, k, hk, hrun⟩ := h t ht
  obtain ⟨hready, k', hk', hrun'⟩ := h' t' ht'
  refine ⟨hready, k' + k, by omega, fun fuel => ?_⟩
  rw [← Nat.add_assoc, hrun, hrun']

/-- A cycle that comes to its end is a step of the run. -/
theorem Leads.of_cycle {m m' : Machine g n} {t d : Nat} (hc : m.spec.maxCycles = none)
    (hm : m.allDone = false) (ht : m.queue.nextTime = some t) (h : m.cycle t = .ok m')
    (hd : 0 < d) : m.Leads m' d := by
  intro t₀ h₀
  obtain ⟨hready, -⟩ := (yields_cycle h₀ ht).of_eq_ok h
  have hstep : m.step = .ok (.ok true, m') := by
    rw [h₀.step_eq ht (by rw [hc]; rfl), h]
    rfl
  refine ⟨⟨_, hready⟩, 1, hd, fun fuel => ?_⟩
  rw [runFor, hm, if_neg Bool.false_ne_true, hstep]
  rfl

/-! ## Turns -/

/-- **A machine with one core.** -/
def solo (s : Spec) (b : Bus) (c : Cache g) (f : Forwarder) (y : Memory) (k : Core)
    (q : WakeQueue (Agent (Fin 1))) : Machine g 1 := ⟨s, b, #v[c], #v[f], y, #v[k], q⟩

section Solo

variable {s : Spec} {b : Bus} {c c' : Cache g} {f : Forwarder} {y : Memory} {k : Core}
  {q : WakeQueue (Agent (Fin 1))} {t : Nat} {r : Request}

theorem reschedule_after {d : Nat} (p : Agent (Fin 1)) (ht : q.now + d < UInt64.size) :
    (solo s b c f y k q).reschedule p (.after d) =
      .ok (solo s b c f y k (q.add (q.now + d) p)) := by
  rw [reschedule, show (solo s b c f y k q).queue = q from rfl, WakeQueue.send_of_lt _ ht]
  rfl

theorem deliver_some (e : Completion) (ht : q.now + 1 < UInt64.size) :
    (solo s b c f y k q).deliver 0 (some e) =
      .ok (solo s b c f y (k.receive e) (q.add (q.now + 1) (.core 0))) := by
  rw [deliver, show (solo s b c f y k q).queue = q from rfl, WakeQueue.send_of_lt _ ht]
  rfl

theorem runAgent_core : (solo s b c f y k q).runAgent (.core 0) = (do
    let (turn, k) := k.tick q.now
    match turn with
    | .issue r =>
      let c ← c.submit r
      return solo s b c f y k (← q.schedule q.now (.cache 0))
    | .wait next => (solo s b c f y k q).reschedule (.core 0) next) := rfl

theorem runAgent_cache : (solo s b c f y k q).runAgent (.cache 0) = (do
    let turn := c.tick b q.now
    let m ← (solo s turn.bus turn.cache f y k q).deliver 0 turn.done
    m.reschedule (.cache 0) turn.next) := rfl

theorem runAgent_memory : (solo s b c f y k q).runAgent .memory = (do
    let (next, y, b) ← y.tick b q.now
    (solo s b c f y k q).reschedule .memory next) := rfl

theorem runAgent_issue {x : Instr} {rest : Program} (hk : k.program = x :: rest)
    (hx : x.request? = some r) (hc : c.access = none) :
    (solo s b c f y k q).runAgent (.core 0) = .ok (solo s b { c with access := some (.start r) } f y
      { k with activity := .waiting, program := rest } (q.add q.now (.cache 0))) := by
  have hturn : k.tick q.now = (.issue r, { k with activity := .waiting, program := rest }) := by
    rw [Core.tick, hk]
    cases x <;> cases hx <;> rfl
  have hsubmit : c.submit r = .ok { c with access := some (.start r) } := by
    rw [Cache.submit, Cache.isIdle, hc]
    rfl
  rw [runAgent_core, hturn]
  dsimp only
  rw [hsubmit, WakeQueue.schedule_of_le _ (Nat.le_refl _)]
  rfl

theorem runAgent_work {d : UInt32} {rest : Program} (hk : k.program = .other d :: rest)
    (ht : q.now + Core.duration d < UInt64.size) :
    (solo s b c f y k q).runAgent (.core 0) = .ok (solo s b c f y { k with
      activity := .busy
      program := rest
      otherCycles := k.otherCycles + Core.duration d }
      (q.add (q.now + Core.duration d) (.core 0))) := by
  have hturn : k.tick q.now = (.wait (.after (Core.duration d)), { k with
      activity := .busy
      program := rest
      otherCycles := k.otherCycles + Core.duration d }) := by
    rw [Core.tick, hk]
  rw [runAgent_core, hturn]
  exact reschedule_after _ ht

theorem runAgent_halt (hk : k.program = []) : (solo s b c f y k q).runAgent (.core 0) =
    .ok (solo s b c f y { k with activity := .done, doneAt := some q.now } q) := by
  have hturn : k.tick q.now =
      (.wait .halt, { k with activity := .done, doneAt := some q.now }) := by
    rw [Core.tick, hk]
  rw [runAgent_core, hturn]
  rfl

theorem runAgent_goOn {b' : Bus} (hc : c.tick b q.now = c'.goOn b') (ht : q.now + 1 < UInt64.size) :
    (solo s b c f y k q).runAgent (.cache 0) =
      .ok (solo s b' c' f y k (q.add (q.now + 1) (.cache 0))) := by
  rw [runAgent_cache, hc]
  exact reschedule_after _ ht

theorem runAgent_sleep {b' : Bus} (hc : c.tick b q.now = c'.sleep b') :
    (solo s b c f y k q).runAgent (.cache 0) = .ok (solo s b' c' f y k q) := by
  rw [runAgent_cache, hc]
  rfl

theorem runAgent_done {b' : Bus} {e : Completion} (hc : c.tick b q.now = ⟨.park, some e, c', b'⟩)
    (ht : q.now + 1 < UInt64.size) : (solo s b c f y k q).runAgent (.cache 0) =
      .ok (solo s b' c' f y (k.receive e) (q.add (q.now + 1) (.core 0))) := by
  rw [runAgent_cache, hc]
  dsimp only
  rw [deliver_some _ ht]
  rfl

theorem runAgent_drain (hs : y.service = .idle) (hq : y.queue = []) :
    (solo s b c f y k q).runAgent .memory =
      .ok (solo s b c f { y with cold := true, parked := true } k q) := by
  have hturn : y.tick b q.now = .ok (.park, { y with cold := true, parked := true }, b) := by
    simp only [Memory.tick, hs, hq]
  rw [runAgent_memory, hturn]
  rfl

theorem runAgent_begin {u : Transfer} {rest : List Transfer} (hs : y.service = .idle)
    (hq : y.queue = u :: rest) (ht : q.now + y.spec.latency y.cold < UInt64.size) :
    (solo s b c f y k q).runAgent .memory = .ok (solo s b c f { y with
      queue := rest
      cold := false
      service := .busy u (q.now + y.spec.latency y.cold) } k
      (q.add (q.now + y.spec.latency y.cold) .memory)) := by
  have hturn : y.tick b q.now = .ok (.after (y.spec.latency y.cold), { y with
      queue := rest
      cold := false
      service := .busy u (q.now + y.spec.latency y.cold) }, b) := by
    simp only [Memory.tick, hs, hq, sum64, if_pos ht]
    rfl
  rw [runAgent_memory, hturn]
  exact reschedule_after _ ht

theorem runAgent_answer {u : Transfer} (hs : y.service = .busy u q.now)
    (hf : b.forwardIntended = false) (hc : b.current = none) (ht : q.now + 1 < UInt64.size) :
    (solo s b c f y k q).runAgent .memory = .ok (solo s
      { b.drive (u.reply (y.answerData u)) with responseIntended := false } c f (y.served u) k
      (q.add (q.now + 1) .memory)) := by
  have hturn : y.tick b q.now = .ok (.after 1, y.served u,
      { b.drive (u.reply (y.answerData u)) with responseIntended := false }) := by
    simp only [Memory.tick, hs, Nat.lt_irrefl, if_false, Memory.respond, Bus.memoryResponse_eq,
      hf, hc, and_self, if_true]
    rfl
  rw [runAgent_memory, hturn]
  exact reschedule_after _ ht

/-! ## What is seen -/

theorem wakeIf_solo (p : Agent (Fin 1)) : (solo s b c f y k q).wakeIf true (q.now + 1) p =
    .ok (solo s b c f y k (q.add (q.now + 1) p)) := by
  rw [wakeIf, if_pos rfl, show (solo s b c f y k q).queue = q from rfl,
    WakeQueue.schedule_of_le _ (Nat.le_add_right _ _)]
  rfl

/-- **What the only cache drives, and what it is answered**, is for itself and for memory. -/
theorem broadcast_own {u : Transfer} (hb : b.current = some u) (hu : u.requester = c.id)
    (ht : q.now + 1 < UInt64.size) : (solo s b c f y k q).broadcast =
      (solo s b c f (y.snoop b).2 k q).wakeIf (y.snoop b).1 (q.now + 1) .memory >>=
        (observeCache · (q.now + 1) 0) := by
  have hsnoop : c.snoop b = (none, c, b) := by
    simp [Cache.snoop, hb, hu, Bus.requestFor, Option.filter]
  have hlook : (solo s b c f y k q).snoopCache (q.now + 1) 0 = .ok (solo s b c f y k q) := by
    unfold snoopCache
    rw [show (solo s b c f y k q).caches[(0 : Fin 1)].snoop (solo s b c f y k q).bus =
      (none, c, b) from hsnoop]
    rfl
  rw [broadcast, show (solo s b c f y k q).bus.isDriven = true by simp [solo, Bus.isDriven, hb],
    if_pos rfl, show (solo s b c f y k q).now = q.now from rfl, sum64, if_pos ht]
  show ((solo s b c f y k q).snoopCache (q.now + 1) 0 >>= pure) >>= _ = _
  rw [hlook]
  show (do
    let m ← (solo s b c f (y.snoop b).2 k q).wakeIf (y.snoop b).1 (q.now + 1) .memory
    m.observeCache (q.now + 1) 0 >>= pure) = _
  simp only [bind_pure]

theorem broadcast_asked {u : Transfer} (hb : b.current = some u) (hu : u.requester = c.id)
    (hm : b.memoryRequest = some u) (hf : u.func.isAnswer = false) (hp : y.parked)
    (ht : q.now + 1 < UInt64.size) : (solo s b c f y k q).broadcast =
      .ok (solo s b c f (y.enqueue u).2 k (q.add (q.now + 1) .memory)) := by
  have hsnoop : y.snoop b = y.enqueue u := by rw [Memory.snoop, hm]
  rw [broadcast_own hb hu ht, hsnoop, show (y.enqueue u).1 = true from hp, wakeIf_solo]
  show (solo s b (c.observe b).2 f (y.enqueue u).2 k _).wakeIf (c.observe b).1 _ _ = _
  rw [Cache.observe_of_request hb hf]
  rfl

theorem broadcast_answered {u : Transfer} {d : Option Block} (hb : b.current = some (u.reply d))
    (hu : u.requester = c.id) (hw : (c.observe b).1) (ht : q.now + 1 < UInt64.size) :
    (solo s b c f y k q).broadcast =
      .ok (solo s b (c.observe b).2 f y k (q.add (q.now + 1) (.cache 0))) := by
  have hsnoop : y.snoop b = (false, y) := by
    simp [Memory.snoop, Bus.memoryRequest, hb, Transfer.reply, Option.filter]
  rw [broadcast_own hb hu ht, hsnoop]
  show (solo s b (c.observe b).2 f y k q).wakeIf (c.observe b).1 _ _ = _
  rw [hw, wakeIf_solo]

end Solo

end Machine

end Snooping
