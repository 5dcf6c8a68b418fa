import Snooping.Proofs.Cache.Deeds
import Snooping.Proofs.Fault
import Snooping.Proofs.Machine.Cycle

/-!
# What a turn does

Every kind of turn, with the machine that it leaves behind. A turn fails only by leaving the range
of numbers, since nobody is woken for the past and no cache is asked while it is busy.

* **`Machine.Acts`**: the turns.
* **`Machine.yields_runAgent`**: every turn is one of them, or overflows.
-/

namespace Snooping

variable {g : Geometry} {n : Nat}

namespace Machine

/-! ## The turns -/

/-- An agent waits for cycle `t`. -/
def wake (m : Machine g n) (t : Nat) (p : Agent (Fin n)) : Machine g n :=
  { m with queue := m.queue.add t p }

/-- Memory has changed, and the bus. -/
def putMemory (m : Machine g n) (memory : Memory) (bus : Bus) : Machine g n :=
  { m with memory := memory, bus := bus }

/-- A core has changed. -/
def putCore (m : Machine g n) (i : Fin n) (c : Core) : Machine g n :=
  { m with cores := m.cores.put i c }

/-- **What a turn does.** -/
inductive Acts (m : Machine g n) : Agent (Fin n) → Machine g n → Prop
  /-- A forwarder owes nothing and falls asleep. -/
  | rest {i : Fin n} (hq : m.forwarders[i].queue = []) :
      Acts m (.forwarder i)
        (m.putForwarder i { m.forwarders[i] with parked := true } m.bus)
  /-- A forwarder sends its first job. -/
  | send {i : Fin n} {k : ForwardJob} {rest : List ForwardJob}
      (hq : m.forwarders[i].queue = k :: rest) (hb : m.bus.current = none)
      (hl : m.now + 1 < UInt64.size) :
      Acts m (.forwarder i)
        ((m.putForwarder i
          { m.forwarders[i] with queue := rest, sent := m.forwarders[i].sent + 1 }
          { m.bus.drive ⟨k.dest, .cache m.forwarders[i].source, k.addr.line,
              Bus.forwardFunc k.state, k.data⟩ with forwardIntended := false }).wake
          (m.now + 1) (.forwarder i))
  /-- A forwarder finds the bus taken. -/
  | hold {i : Fin n} (hq : m.forwarders[i].queue ≠ []) (hb : m.bus.current ≠ none)
      (hl : m.now + 1 < UInt64.size) :
      Acts m (.forwarder i)
        ((m.putForwarder i m.forwarders[i] { m.bus.reject with forwardIntended := true }).wake
          (m.now + 1) (.forwarder i))
  /-- Memory has nothing to serve and falls asleep. -/
  | drain (hs : m.memory.service = .idle) (hq : m.memory.queue = []) :
      Acts m .memory (m.putMemory { m.memory with cold := true, parked := true } m.bus)
  /-- Memory starts to serve its first request. -/
  | begin {t : Transfer} {rest : List Transfer} {ready : Nat} (hs : m.memory.service = .idle)
      (hq : m.memory.queue = t :: rest)
      (hr : ready = m.now + m.memory.spec.latency m.memory.cold) (hl : ready < UInt64.size) :
      Acts m .memory
        ((m.putMemory { m.memory with queue := rest, cold := false, service := .busy t ready }
          m.bus).wake ready .memory)
  /-- Memory is still busy. -/
  | early {t : Transfer} {ready : Nat} (hs : m.memory.service = .busy t ready)
      (hr : m.now < ready) (hl : ready < UInt64.size) : Acts m .memory (m.wake ready .memory)
  /-- Memory answers. -/
  | answer {t : Transfer} {d : Option Block} (ho : m.memory.Owes m.now t d)
      (hf : m.bus.forwardIntended = false) (hb : m.bus.current = none)
      (hl : m.now + 1 < UInt64.size) :
      Acts m .memory
        ((m.putMemory (m.memory.served t)
          { m.bus.drive ⟨t.requester, .memory, t.addr.line, .response, d⟩ with
            responseIntended := false }).wake (m.now + 1) .memory)
  /-- Memory is turned away from the bus. -/
  | retry {t : Transfer} {d : Option Block} (ho : m.memory.Owes m.now t d)
      (hg : ¬ (m.bus.forwardIntended = false ∧ m.bus.current = none))
      (hl : m.now + 1 < UInt64.size) :
      Acts m .memory
        ((m.putMemory { m.memory with service := .responding t d }
          { m.bus.reject with responseIntended := true }).wake (m.now + 1) .memory)
  /-- The program of a core is over. -/
  | halt {i : Fin n} (hp : m.cores[i].program = []) :
      Acts m (.core i)
        (m.putCore i { m.cores[i] with activity := .done, doneAt := some m.now })
  /-- A core spends cycles on other work. -/
  | work {i : Fin n} {d : UInt32} {rest : Program} (hp : m.cores[i].program = .other d :: rest)
      (hl : m.now + Core.duration d < UInt64.size) :
      Acts m (.core i)
        ((m.putCore i { m.cores[i] with
            activity := .busy
            program := rest
            otherCycles := m.cores[i].otherCycles + Core.duration d }).wake
          (m.now + Core.duration d) (.core i))
  /-- A core hands a request to its cache. -/
  | issue {i : Fin n} {x : Instr} {rest : Program} {r : Request}
      (hp : m.cores[i].program = x :: rest) (hr : x.request? = some r)
      (hi : m.caches[i].access = none) :
      Acts m (.core i)
        (((m.putCore i { m.cores[i] with activity := .waiting, program := rest }).putCache i
          { m.caches[i] with access := some (.start r) } m.bus).wake m.now (.cache i))
  /-- A cache works on its request. -/
  | proceed {i : Fin n} {c : Cache g} {bus : Bus}
      (ht : m.caches[i].tick m.bus m.now = c.goOn bus) (hb : m.bus.Asked bus)
      (hs : m.caches[i].stage.sleeps = false) (hs' : c.stage.sleeps = false)
      (hl : m.now + 1 < UInt64.size) :
      Acts m (.cache i) ((m.putCache i c bus).wake (m.now + 1) (.cache i))
  /-- A cache waits for an answer. -/
  | await {i : Fin n} {c : Cache g} {bus : Bus}
      (ht : m.caches[i].tick m.bus m.now = c.sleep bus) (hb : m.bus.Asked bus)
      (hs : c.stage = .idle ↔ m.caches[i].stage = .idle) (hs' : c.stage.sleeps = true) :
      Acts m (.cache i) (m.putCache i c bus)
  /-- The request of a cache ends. -/
  | finish {i : Fin n} {c : Cache g} {r : Completion}
      (ht : m.caches[i].tick m.bus m.now = ⟨.park, some r, c, m.bus⟩)
      (hs : m.caches[i].stage.sleeps = false) (hs' : c.stage = .idle)
      (hl : m.now + 1 < UInt64.size) :
      Acts m (.cache i)
        (((m.putCache i c m.bus).putCore i (m.cores[i].receive r)).wake (m.now + 1) (.core i))

/-! ## Going on -/

theorem yields_schedule (m : Machine g n) {t : Nat} (h : m.now ≤ t) (p : Agent (Fin n)) :
    Yields (m.queue.schedule t p) fun q => q = m.queue.add t p := by
  have hs : m.queue.schedule t p = .ok (m.queue.add t p) := if_pos h
  rw [hs]
  exact rfl

theorem yields_send (m : Machine g n) (d : Nat) (p : Agent (Fin n)) :
    Yields (m.queue.send d p) fun q => q = m.queue.add (m.now + d) p ∧
      m.now + d < UInt64.size := by
  refine (yields_sum64 _ d).bind fun t _ ⟨ht, hl⟩ => ?_
  subst ht
  exact (m.yields_schedule (Nat.le_add_right _ d) p).imp fun q _ hq => ⟨hq, hl⟩

theorem yields_goOn {m : Machine g n} {d : Nat} {p : Agent (Fin n)} {Q : Machine g n → Prop}
    (h : m.now + d < UInt64.size → Q (m.wake (m.now + d) p)) :
    Yields (m.reschedule p (.after d)) Q := by
  refine (m.yields_send d p).bind fun q _ ⟨hq, hl⟩ => ?_
  subst hq
  exact h hl

/-! ## The agents -/

theorem yields_runForwarder (m : Machine g n) (i : Fin n) :
    Yields (m.runForwarder i) (m.Acts (.forwarder i)) := by
  unfold runForwarder
  cases hq : m.forwarders[i].queue with
  | nil =>
    have ht : m.forwarders[i].tick m.bus =
        (.park, { m.forwarders[i] with parked := true }, m.bus) := by
      simp only [Forwarder.tick, hq]
    rw [ht]
    exact Acts.rest hq
  | cons k rest =>
    have ht := Bus.forward_eq m.bus k.dest m.forwarders[i].source k.addr k.state k.data
    by_cases hb : m.bus.current = none
    · rw [if_pos hb] at ht
      simp only [Forwarder.tick, hq, ht, if_true]
      exact yields_goOn fun hl => .send hq hb hl
    · rw [if_neg hb] at ht
      simp only [Forwarder.tick, hq, ht, Bool.false_eq_true, if_false]
      exact yields_goOn fun hl => .hold (by rw [hq]; exact List.cons_ne_nil k rest) hb hl

theorem yields_runMemory (m : Machine g n) : Yields m.runMemory (m.Acts .memory) := by
  refine (m.memory.yields_tick m.bus m.now).bind fun x _ hx => ?_
  cases hx with
  | drain hs hq => exact Acts.drain hs hq
  | begin hs hq hr hl =>
    refine yields_goOn fun _ => ?_
    have hx := Acts.begin hs hq hr hl
    rw [hr] at hx ⊢
    exact hx
  | early hs hr =>
    refine yields_goOn fun hl => ?_
    rw [Nat.add_sub_cancel' (Nat.le_of_lt hr)] at hl ⊢
    exact .early hs hr hl
  | answer ho hf hb => exact yields_goOn fun hl => .answer ho hf hb hl
  | retry ho hg => exact yields_goOn fun hl => .retry ho hg hl

theorem yields_runCore (m : Machine g n) (i : Fin n) (hi : m.caches[i].access = none) :
    Yields (m.runCore i) (m.Acts (.core i)) := by
  have hsubmit : ∀ r, m.caches[i].submit r =
      .ok { m.caches[i] with access := some (.start r) } := fun r =>
    if_pos (by simp only [Cache.isIdle, hi, Option.isNone_none])
  have hissue : ∀ {x : Instr} {rest r}, m.cores[i].program = x :: rest → x.request? = some r →
      Yields (do
        let c ← m.caches[i].submit r
        let m := m.putCore i { m.cores[i] with activity := .waiting, program := rest }
        return { m with caches := m.caches.put i c, queue := ← m.queue.schedule m.now (.cache i) })
        (m.Acts (.core i)) := fun hp hr => by
    rw [hsubmit]
    refine (m.yields_schedule (Nat.le_refl _) _).bind fun q _ hq => ?_
    subst hq
    exact Acts.issue hp hr hi
  unfold runCore
  cases hp : m.cores[i].program with
  | nil =>
    have ht : m.cores[i].tick m.now =
        (.wait .halt, { m.cores[i] with activity := .done, doneAt := some m.now }) := by
      simp only [Core.tick, hp]
    rw [ht]
    exact Acts.halt hp
  | cons x rest =>
    cases x with
    | read a =>
      simp only [Core.tick, hp]
      exact hissue hp rfl
    | write a v =>
      simp only [Core.tick, hp]
      exact hissue hp rfl
    | other d =>
      simp only [Core.tick, hp]
      exact yields_goOn fun hl => .work hp hl

theorem yields_runCache (m : Machine g n) (i : Fin n) :
    Yields (m.runCache i) (m.Acts (.cache i)) := by
  have hout := (m.caches[i].deed_tick m.bus m.now).outcome
  unfold runCache
  generalize hx : m.caches[i].tick m.bus m.now = x at hout ⊢
  cases hout with
  | @proceed c bus hb hs hs' =>
    exact yields_goOn (m := m.putCache i c bus) fun hl => .proceed hx hb hs hs' hl
  | await hb hs hs' => exact Acts.await hx hb hs hs'
  | @finish c r hs hs' =>
    refine Yields.bind (P := fun m' => m' = ((m.putCache i c m.bus).putCore i
        (m.cores[i].receive r)).wake (m.now + 1) (.core i) ∧ m.now + 1 < UInt64.size) ?_ ?_
    · refine ((m.putCache i c m.bus).yields_send 1 _).bind fun q _ ⟨hq, hl⟩ => ?_
      subst hq
      exact ⟨rfl, hl⟩
    · rintro m' - ⟨rfl, hl⟩
      exact Acts.finish hx hs hs' hl

/-- **Every turn is one of them**, or overflows. -/
theorem yields_runAgent {m : Machine g n} {p : Agent (Fin n)}
    (hi : ∀ i, p = .core i → m.caches[i].stage = .idle) : Yields (m.runAgent p) (m.Acts p) := by
  cases p with
  | forwarder i => exact m.yields_runForwarder i
  | memory => exact m.yields_runMemory
  | core i => exact m.yields_runCore i (Cache.stage_eq_idle.mp (hi i rfl))
  | cache i => exact m.yields_runCache i

end Machine

end Snooping
