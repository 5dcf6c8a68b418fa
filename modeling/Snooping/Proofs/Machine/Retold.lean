import Snooping.Machine.Run
import Snooping.Proofs.Machine.Rounds

/-!
# What a cycle does not look at

A cycle looks at the latencies of memory and at nothing else of the specification, and it never
looks at the history of the bus. So a machine with another cycle limit, with the check made or not,
with the history kept or not, goes through the same cycles.

* `Bus.told`, **`Machine.retold`**: the same bus and the same machine, told apart only by what no
  cycle looks at.
* `Cache.tick_told`, `Cache.snoop_told`, `Cache.observe_told`: a cache does not look at it.
* `Machine.runAgent_retold`, `Machine.broadcast_retold`, **`Machine.cycle_retold`**: nor does
  anybody else.
-/

namespace Snooping

variable {g : Geometry} {n : Nat}

/-! ## The bus -/

namespace Bus

/-- **The bus with its history**, or without it. -/
def told (keep : Bool) (b : Bus) : Bus :=
  { b with recording := b.recording && keep, history := if keep then b.history else #[] }

variable (keep : Bool) (b : Bus)

@[simp] theorem told_true : b.told true = b := by
  simp [told]

@[simp] theorem current_told : (b.told keep).current = b.current := rfl

@[simp] theorem grants_told (tier : Tier) : (b.told keep).grants tier = b.grants tier := by
  cases tier <;> rfl

theorem drive_told (t : Transfer) : (b.told keep).drive t = (b.drive t).told keep := by
  cases keep <;> simp [told, drive]

@[simp] theorem attempt_told (tier : Tier) (t : Transfer) : (b.told keep).attempt tier t =
    ((b.attempt tier t).1, (b.attempt tier t).2.told keep) := by
  unfold attempt
  rw [grants_told, drive_told]
  split <;> rfl

@[simp] theorem forward_told (dest source : Nat) (addr : Addr) (state : LineState)
    (data : Option Block) : (b.told keep).forward dest source addr state data =
      ((b.forward dest source addr state data).1,
        (b.forward dest source addr state data).2.told keep) := by
  rw [forward_eq, forward_eq, current_told, drive_told]
  split <;> rfl

@[simp] theorem memoryResponse_told (core : Nat) (addr : Addr) (data : Option Block) :
    (b.told keep).memoryResponse core addr data =
      ((b.memoryResponse core addr data).1, (b.memoryResponse core addr data).2.told keep) := by
  rw [memoryResponse_eq, memoryResponse_eq, current_told, drive_told]
  show (if b.forwardIntended = false ∧ b.current = none then _ else _) = _
  split <;> rfl

end Bus

/-! ## Members -/

/-- The turn of a cache on a bus with its history, or without it. -/
def Turn.told (keep : Bool) (x : Turn g) : Turn g := { x with bus := x.bus.told keep }

namespace Cache

variable (keep : Bool) (c : Cache g) (a : Access g.ways) (w : Fin g.ways) (b : Bus) (now : Nat)

theorem upgrade_told : c.upgrade a w (b.told keep) = (c.upgrade a w b).told keep := by
  unfold upgrade Bus.invalidate Bus.coreRequest
  rw [Bus.attempt_told]
  dsimp only
  split
  · split <;> rfl
  · rfl

theorem fill_told : c.fill a w (b.told keep) = (c.fill a w b).told keep := by
  unfold fill Bus.read Bus.coreRequest
  dsimp only
  rw [Bus.attempt_told]
  split <;> split <;> rfl

theorem writeBack_told (u : Addr) :
    c.writeBack a w u (b.told keep) = (c.writeBack a w u b).told keep := by
  unfold writeBack Bus.write Bus.coreRequest
  dsimp only
  rw [Bus.attempt_told, fill_told]
  split
  · split <;> rfl
  · rfl

/-- **A turn of a cache does not look at the history.** -/
theorem tick_told : c.tick (b.told keep) now = (c.tick b now).told keep := by
  unfold tick
  cases c.access with
  | none => rfl
  | some a =>
    dsimp only
    cases a.phase with
    | hit w =>
      unfold useHit
      dsimp only
      rw [upgrade_told]
      split
      · split <;> rfl
      · rfl
    | miss w =>
      unfold makeRoom
      dsimp only
      rw [writeBack_told, fill_told]
      split <;> rfl
    | upgrade w => exact c.upgrade_told keep a w b
    | writeBack w u => exact c.writeBack_told keep a w b u
    | fill w => exact c.fill_told keep a w b
    | installed w =>
      unfold useInstalled
      dsimp only
      rw [upgrade_told]
      split
      · split <;> rfl
      · rfl
    | _ => rfl

/-- **What a cache sees does not depend on the history.** -/
theorem snoop_told : c.snoop (b.told keep) =
    ((c.snoop b).1, (c.snoop b).2.1, (c.snoop b).2.2.told keep) := by
  unfold snoop
  rw [Bus.current_told, show (b.told keep).requestFor c.id = b.requestFor c.id from rfl]
  cases b.current with
  | none => rfl
  | some t =>
    dsimp only
    split
    · split <;> rfl
    · cases b.requestFor c.id with
      | none => rfl
      | some t =>
        dsimp only
        cases c.sets[g.index t.addr].find? (g.tag t.addr) with
        | none => rfl
        | some w =>
          dsimp only
          unfold react
          split
          · split
            · rfl
            · unfold shareLine Bus.claim
              dsimp only [Bus.told]
              split <;> rfl
          · rfl

theorem observe_told : c.observe (b.told keep) = c.observe b := by
  cases keep <;> rfl

end Cache

theorem Forwarder.tick_told (keep : Bool) (f : Forwarder) (b : Bus) :
    f.tick (b.told keep) = ((f.tick b).1, (f.tick b).2.1, (f.tick b).2.2.told keep) := by
  unfold tick
  cases f.queue with
  | nil => rfl
  | cons job rest =>
    dsimp only
    rw [Bus.forward_told]

namespace Memory

variable (f : Spec → Spec) (keep : Bool) (y : Memory) (b : Bus) (now : Nat)

/-- Memory with another specification. -/
def retold : Memory := { y with spec := f y.spec }

theorem served_retold (t : Transfer) : (y.retold f).served t = (y.served t).retold f := by
  unfold served writeBlock retold
  split
  · cases t.data with
    | none => rfl
    | some d =>
      dsimp only
      cases y.store.writeBlock? t.addr d <;> rfl
  · rfl

theorem respond_retold (t : Transfer) (d : Option Block) : (y.retold f).respond (b.told keep) t d =
    ((y.respond b t d).1, (y.respond b t d).2.1.retold f, (y.respond b t d).2.2.told keep) := by
  unfold respond
  rw [Bus.memoryResponse_told, served_retold]
  dsimp only
  split <;> rfl

/-- **A turn of memory looks at the latencies only.** -/
theorem tick_retold (hf : ∀ s cold, (f s).latency cold = s.latency cold) :
    (y.retold f).tick (b.told keep) now =
      (y.tick b now).map fun x => (x.1, x.2.1.retold f, x.2.2.told keep) := by
  unfold tick
  rw [show (y.retold f).service = y.service from rfl, show (y.retold f).queue = y.queue from rfl]
  cases y.service with
  | idle =>
    cases y.queue with
    | nil => rfl
    | cons t rest =>
      dsimp only
      rw [show (y.retold f).spec.latency (y.retold f).cold = y.spec.latency y.cold from hf _ _]
      cases sum64 now (y.spec.latency y.cold) <;> rfl
  | busy t ready =>
    dsimp only
    rw [respond_retold]
    split <;> rfl
  | responding t d =>
    dsimp only
    rw [respond_retold]
    rfl

end Memory

namespace Machine

variable (f : Spec → Spec) (keep : Bool) (m : Machine g n)

/-- **The machine with another specification**, and with the history of its bus or without it. -/
def retold : Machine g n :=
  { m with spec := f m.spec, bus := m.bus.told keep, memory := m.memory.retold f }

theorem reschedule_retold (p : Agent (Fin n)) (next : Next) :
    (m.retold f keep).reschedule p next = (m.reschedule p next).map (retold f keep) := by
  cases next with
  | after d =>
    show (do return { m.retold f keep with queue := ← m.queue.send d p }) =
      (do return { m with queue := ← m.queue.send d p } : Except Fault _).map (retold f keep)
    cases m.queue.send d p <;> rfl
  | _ => rfl

theorem deliver_retold (i : Fin n) (done : Option Completion) :
    (m.retold f keep).deliver i done = (m.deliver i done).map (retold f keep) := by
  cases done with
  | none => rfl
  | some r =>
    show (do return { m.retold f keep with
        cores := m.cores.put i (m.cores[i].receive r), queue := ← m.queue.send 1 (.core i) }) =
      (do return { m with
        cores := m.cores.put i (m.cores[i].receive r)
        queue := ← m.queue.send 1 (.core i) } : Except Fault _).map (retold f keep)
    cases m.queue.send 1 (.core i) <;> rfl

theorem wakeIf_retold (slept : Bool) (t : Nat) (p : Agent (Fin n)) :
    (m.retold f keep).wakeIf slept t p = (m.wakeIf slept t p).map (retold f keep) := by
  cases slept with
  | false => rfl
  | true =>
    show (do return { m.retold f keep with queue := ← m.queue.schedule t p }) =
      (do return { m with queue := ← m.queue.schedule t p } : Except Fault _).map (retold f keep)
    cases m.queue.schedule t p <;> rfl

theorem runForwarder_retold (i : Fin n) :
    (m.retold f keep).runForwarder i = (m.runForwarder i).map (retold f keep) := by
  unfold runForwarder
  rw [show (m.retold f keep).forwarders[i].tick (m.retold f keep).bus = _ from
    Forwarder.tick_told keep m.forwarders[i] m.bus]
  exact reschedule_retold f keep { m with
    forwarders := m.forwarders.put i (m.forwarders[i].tick m.bus).2.1
    bus := (m.forwarders[i].tick m.bus).2.2 } _ _

theorem runMemory_retold (hf : ∀ s cold, (f s).latency cold = s.latency cold) :
    (m.retold f keep).runMemory = m.runMemory.map (retold f keep) := by
  unfold runMemory
  rw [show (m.retold f keep).memory.tick (m.retold f keep).bus (m.retold f keep).now = _ from
    m.memory.tick_retold f keep m.bus m.now hf]
  cases m.memory.tick m.bus m.now with
  | error e => rfl
  | ok x => exact reschedule_retold f keep { m with memory := x.2.1, bus := x.2.2 } _ _

theorem runCore_retold (i : Fin n) :
    (m.retold f keep).runCore i = (m.runCore i).map (retold f keep) := by
  unfold runCore
  rw [show (m.retold f keep).cores[i].tick (m.retold f keep).now = m.cores[i].tick m.now from rfl]
  generalize m.cores[i].tick m.now = x
  obtain ⟨turn, k⟩ := x
  cases turn with
  | issue r =>
    show (do
        let c ← m.caches[i].submit r
        return { m.retold f keep with
          cores := m.cores.put i k
          caches := m.caches.put i c
          queue := ← m.queue.schedule m.now (.cache i) }) =
      (do
        let c ← m.caches[i].submit r
        return { m with
          cores := m.cores.put i k
          caches := m.caches.put i c
          queue := ← m.queue.schedule m.now (.cache i) } : Except Fault _).map (retold f keep)
    cases m.caches[i].submit r with
    | error e => rfl
    | ok c => cases m.queue.schedule m.now (.cache i) <;> rfl
  | wait next => exact reschedule_retold f keep { m with cores := m.cores.put i k } _ _

theorem runCache_retold (i : Fin n) :
    (m.retold f keep).runCache i = (m.runCache i).map (retold f keep) := by
  unfold runCache
  rw [show (m.retold f keep).caches[i].tick (m.retold f keep).bus (m.retold f keep).now = _ from
    m.caches[i].tick_told keep m.bus m.now]
  generalize m.caches[i].tick m.bus m.now = x
  show ((retold f keep { m with caches := m.caches.put i x.cache, bus := x.bus }).deliver i
    x.done >>= fun m => m.reschedule (.cache i) x.next) = _
  rw [deliver_retold]
  exact map_bind_map _ fun m' _ => m'.reschedule_retold f keep _ _

/-- **A turn looks at the latencies of the specification only**, and not at the history. -/
theorem runAgent_retold (hf : ∀ s cold, (f s).latency cold = s.latency cold)
    (p : Agent (Fin n)) :
    (m.retold f keep).runAgent p = (m.runAgent p).map (retold f keep) := by
  cases p with
  | forwarder i => exact m.runForwarder_retold f keep i
  | memory => exact m.runMemory_retold f keep hf
  | core i => exact m.runCore_retold f keep i
  | cache i => exact m.runCache_retold f keep i

theorem runDueFor_retold (hf : ∀ s cold, (f s).latency cold = s.latency cold) (fuel : Nat) :
    (m.retold f keep).runDueFor fuel = (m.runDueFor fuel).map (retold f keep) := by
  induction fuel generalizing m with
  | zero => rfl
  | succ fuel ih =>
    unfold runDueFor
    rw [show (m.retold f keep).queue = m.queue from rfl]
    cases m.queue.fetch with
    | error e => rfl
    | ok x =>
      cases x with
      | none => rfl
      | some x =>
        show ((retold f keep { m with queue := x.2 }).runAgent x.1 >>= runDueFor fuel) = _
        rw [runAgent_retold f keep _ hf]
        exact map_bind_map _ fun m' _ => ih m'

theorem snoopCache_retold (next : Nat) (i : Fin n) :
    (m.retold f keep).snoopCache next i = (m.snoopCache next i).map (retold f keep) := by
  unfold snoopCache
  rw [show (m.retold f keep).caches[i].snoop (m.retold f keep).bus = _ from
    m.caches[i].snoop_told keep m.bus]
  generalize m.caches[i].snoop m.bus = x
  obtain ⟨job, c, bus⟩ := x
  cases job with
  | none => rfl
  | some job =>
    exact wakeIf_retold f keep { m with
      caches := m.caches.put i c
      bus := bus
      forwarders := m.forwarders.put i (m.forwarders[i].push job).2 } _ _ _

theorem snoopMemory_retold (next : Nat) :
    (m.retold f keep).snoopMemory next = (m.snoopMemory next).map (retold f keep) := by
  have hs : (m.retold f keep).memory.snoop (m.retold f keep).bus =
      ((m.memory.snoop m.bus).1, (m.memory.snoop m.bus).2.retold f) := by
    unfold Memory.snoop
    rw [show (m.retold f keep).bus.memoryRequest = m.bus.memoryRequest from rfl]
    cases m.bus.memoryRequest <;> rfl
  unfold snoopMemory
  rw [hs]
  exact wakeIf_retold f keep { m with memory := (m.memory.snoop m.bus).2 } _ _ _

theorem observeCache_retold (next : Nat) (i : Fin n) :
    (m.retold f keep).observeCache next i = (m.observeCache next i).map (retold f keep) := by
  unfold observeCache
  rw [show (m.retold f keep).caches[i].observe (m.retold f keep).bus = _ from
    m.caches[i].observe_told keep m.bus]
  exact wakeIf_retold f keep { m with
    caches := m.caches.put i (m.caches[i].observe m.bus).2 } _ _ _

theorem broadcast_retold : (m.retold f keep).broadcast = m.broadcast.map (retold f keep) := by
  unfold broadcast
  rw [show (m.retold f keep).bus.isDriven = m.bus.isDriven from rfl,
    show (m.retold f keep).now = m.now from rfl]
  split
  · cases sum64 m.now 1 with
    | error e => rfl
    | ok next =>
      show ((List.finRange n).foldlM (snoopCache · next) (m.retold f keep) >>= fun m =>
        m.snoopMemory next >>= fun m => (List.finRange n).foldlM (observeCache · next) m) = _
      rw [foldlM_map (P := fun _ => True) (fun m i _ => m.snoopCache_retold f keep next i)
        (fun _ _ _ _ _ => trivial) _ trivial]
      refine map_bind_map _ fun m₁ _ => ?_
      rw [snoopMemory_retold]
      refine map_bind_map _ fun m₂ _ => ?_
      exact foldlM_map (P := fun _ => True) (fun m i _ => m.observeCache_retold f keep next i)
        (fun _ _ _ _ _ => trivial) _ trivial
  · rfl

/-- **A cycle looks at the latencies of the specification only**, and not at the history. -/
theorem cycle_retold (hf : ∀ s cold, (f s).latency cold = s.latency cold) (t : Nat) :
    (m.retold f keep).cycle t = (m.cycle t).map (retold f keep) := by
  have hstart : (m.retold f keep).started t = (m.started t).retold f keep := by
    cases keep <;> rfl
  show (((m.retold f keep).started t).runDue >>= broadcast) = _
  rw [hstart, runDue, runDueFor_retold f keep _ hf]
  exact map_bind_map _ fun m' _ => m'.broadcast_retold f keep

end Machine

end Snooping
