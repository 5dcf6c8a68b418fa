import Snooping.Proofs.Machine.Rounds

/-!
# All members but the last

A machine without its last core, with the cache and the forwarder of that core, is a machine again.
What the others do, they do in it as well.

* `Vector.front`, `Agent.up`, `Agent.down`: places and agents of the smaller machine.
* `WakeQueue.front`: what the agents of the smaller machine wait for.
* **`Machine.front`**: the smaller machine.
* **`Machine.runAgent_front`**: the turns of its agents.
-/

/-- All entries but the last. -/
def Vector.front {α : Type} {n : Nat} (v : Vector α (n + 1)) : Vector α n :=
  Vector.ofFn fun i => v[i.castSucc]

namespace Snooping

variable {g : Geometry} {n : Nat}

/-! ## Places -/

section Places

variable {α : Type} (v : Vector α (n + 1)) (x : α)

@[simp] theorem getElem_front (i : Fin n) : v.front[i] = v[i.castSucc] :=
  Vector.getElem_ofFn_place _ i

theorem ext_places {v w : Vector α n} (h : ∀ i : Fin n, v[i] = w[i]) : v = w :=
  Vector.ext fun i hi => h ⟨i, hi⟩

theorem front_put (i : Fin n) : (v.put i.castSucc x).front = v.front.put i x := by
  apply ext_places
  intro j
  by_cases hj : j = i
  · subst hj
    simp
  · have hne : j.castSucc ≠ i.castSucc := fun h => hj (Fin.castSucc_injective n h)
    rw [getElem_front, Vector.getElem_put_of_ne _ _ hne, Vector.getElem_put_of_ne _ _ hj,
      getElem_front]

theorem front_put_last : (v.put (Fin.last n) x).front = v.front := by
  apply ext_places
  intro j
  rw [getElem_front, getElem_front, Vector.getElem_put_of_ne _ _ (Fin.castSucc_ne_last j)]

end Places

/-! ## Agents -/

namespace Agent

/-- An agent of the smaller machine in the larger one. -/
def up : Agent (Fin n) → Agent (Fin (n + 1))
  | forwarder i => .forwarder i.castSucc
  | memory => .memory
  | core i => .core i.castSucc
  | cache i => .cache i.castSucc

/-- The place in the smaller machine, unless it is the last one. -/
def place? (i : Fin (n + 1)) : Option (Fin n) := if h : (i : Nat) < n then some ⟨i, h⟩ else none

/-- The agent in the smaller machine, unless it belongs to the last core. -/
def down : Agent (Fin (n + 1)) → Option (Agent (Fin n))
  | forwarder i => (place? i).map .forwarder
  | memory => some .memory
  | core i => (place? i).map .core
  | cache i => (place? i).map .cache

@[simp] theorem place?_castSucc (i : Fin n) : place? i.castSucc = some i := dif_pos i.isLt

theorem place?_eq_some {i : Fin (n + 1)} {j : Fin n} (h : place? i = some j) : i = j.castSucc := by
  unfold place? at h
  split at h
  · cases h
    rfl
  · cases h

@[simp] theorem down_up (p : Agent (Fin n)) : p.up.down = some p := by
  cases p <;> simp [up, down]

theorem down_eq_some {p : Agent (Fin (n + 1))} {p' : Agent (Fin n)} (h : p.down = some p') :
    p = p'.up := by
  cases p with
  | memory =>
    cases h
    rfl
  | forwarder i | core i | cache i =>
    obtain ⟨j, hj, rfl⟩ := Option.map_eq_some_iff.mp h
    rw [place?_eq_some hj]
    rfl

theorem compare_up (p q : Agent (Fin n)) : compare p.up q.up = compare p q := by
  cases p <;> cases q <;> rfl

end Agent

/-! ## Queues -/

namespace WakeQueue

/-- A pair that waits, unless it belongs to the last core. -/
def below (e : Nat × Agent (Fin (n + 1))) : Option (Nat × Agent (Fin n)) := e.2.down.map (e.1, ·)

/-- **What the agents of the smaller machine wait for.** -/
def front (q : WakeQueue (Agent (Fin (n + 1)))) : WakeQueue (Agent (Fin n)) :=
  ⟨q.now, q.pending.filterMap below⟩

@[simp] theorem below_up (t : Nat) (p : Agent (Fin n)) : below (t, p.up) = some (t, p) := by
  simp [below]

theorem below_eq_some {e : Nat × Agent (Fin (n + 1))} {e' : Nat × Agent (Fin n)}
    (h : below e = some e') : e = (e'.1, e'.2.up) := by
  obtain ⟨p, hp, rfl⟩ := Option.map_eq_some_iff.mp h
  exact Prod.ext rfl (Agent.down_eq_some hp)

theorem mem_front {q : WakeQueue (Agent (Fin (n + 1)))} {t : Nat} {p : Agent (Fin n)} :
    (t, p) ∈ q.front.pending ↔ (t, p.up) ∈ q.pending := by
  refine List.mem_filterMap.trans ⟨?_, fun h => ⟨_, h, below_up t p⟩⟩
  rintro ⟨e, he, hb⟩
  rwa [below_eq_some hb] at he

theorem comparePair_up (t t' : Nat) (p p' : Agent (Fin n)) :
    comparePair (t, p.up) (t', p'.up) = comparePair (t, p) (t', p') := by
  show (compare t t').then (compare p.up p'.up) = (compare t t').then (compare p p')
  rw [Agent.compare_up]

theorem insertPair_of_lt {e : Nat × Agent (Fin n)} {l : List (Nat × Agent (Fin n))}
    (h : ∀ x ∈ l, comparePair e x = .lt) : insertPair e l = e :: l := by
  cases l with
  | nil => rfl
  | cons x l =>
    unfold insertPair
    rw [h x List.mem_cons_self]

theorem filterMap_insertPair (t : Nat) (p : Agent (Fin n))
    {l : List (Nat × Agent (Fin (n + 1)))} (hl : Sorted l) :
    (insertPair (t, p.up) l).filterMap below = insertPair (t, p) (l.filterMap below) := by
  induction l with
  | nil => simp [insertPair]
  | cons x l ih =>
    obtain ⟨hx, hl⟩ := List.pairwise_cons.mp hl
    rw [insertPair]
    cases hb : below x with
    | none =>
      -- The pair of the last core is passed over, before or behind the new one.
      rw [List.filterMap_cons_none hb]
      cases hc : comparePair (t, p.up) x with
      | lt =>
        dsimp only
        rw [List.filterMap_cons_some (below_up t p), List.filterMap_cons_none hb]
        refine (insertPair_of_lt ?_).symm
        intro e' he'
        obtain ⟨e, he, hbe⟩ := List.mem_filterMap.mp he'
        have hlt := Std.TransCmp.lt_trans hc (hx e he)
        rwa [below_eq_some hbe, comparePair_up] at hlt
      | eq =>
        have heq := eq_of_comparePair hc
        rw [← heq, below_up] at hb
        cases hb
      | gt =>
        dsimp only
        rw [List.filterMap_cons_none hb]
        exact ih hl
    | some x' =>
      have hcmp : comparePair (t, p.up) x = comparePair (t, p) x' := by
        rw [below_eq_some hb, comparePair_up]
      rw [List.filterMap_cons_some hb, insertPair, hcmp]
      cases comparePair (t, p) x' with
      | lt => simp [hb]
      | eq => simp [hb]
      | gt => simp [hb, ih hl]

variable {q : WakeQueue (Agent (Fin (n + 1)))}

theorem schedule_front (hq : Sorted q.pending) (t : Nat) (p : Agent (Fin n)) :
    q.front.schedule t p = (q.schedule t p.up).map front := by
  unfold schedule
  rw [show q.front.now = q.now from rfl]
  split
  · exact congrArg Except.ok (congrArg (WakeQueue.mk q.now) (filterMap_insertPair t p hq).symm)
  · rfl

theorem send_front (hq : Sorted q.pending) (d : Nat) (p : Agent (Fin n)) :
    q.front.send d p = (q.send d p.up).map front := by
  unfold send
  rw [show q.front.now = q.now from rfl]
  cases sum64 q.now d with
  | error e => rfl
  | ok t => exact schedule_front hq t p

theorem front_add {t : Nat} {p : Agent (Fin (n + 1))} (hp : p.down = none) :
    (q.add t p).front = q.front := by
  have hb : below (t, p) = none := by
    simp [below, hp]
  have hins : ∀ l : List (Nat × Agent (Fin (n + 1))),
      (insertPair (t, p) l).filterMap below = l.filterMap below := by
    intro l
    induction l with
    | nil => simp [insertPair, hb]
    | cons x l ih =>
      unfold insertPair
      split
      · rw [List.filterMap_cons_none hb]
      · rfl
      · rw [List.filterMap_cons, List.filterMap_cons, ih]
  exact congrArg (WakeQueue.mk q.now) (hins q.pending)

/-- Who has its turn in the larger machine has it in the smaller one. -/
theorem fetch_front {q' : WakeQueue (Agent (Fin (n + 1)))} {p : Agent (Fin n)}
    (h : q.fetch = .ok (some (p.up, q'))) : q.front.fetch = .ok (some (p, q'.front)) := by
  obtain ⟨he, hp⟩ := fetch_eq_some h
  have hfront : q.front = ⟨q.now, (q.now, p) :: q'.pending.filterMap below⟩ := by
    rw [front, hp, List.filterMap_cons_some (below_up _ p)]
  rw [hfront, he]
  simp [fetch, front]

theorem front_of_fetch {q' : WakeQueue (Agent (Fin (n + 1)))} {p : Agent (Fin (n + 1))}
    (h : q.fetch = .ok (some (p, q'))) (hp : p.down = none) : q'.front = q.front := by
  obtain ⟨he, hq⟩ := fetch_eq_some h
  have hb : below (q.now, p) = none := by
    simp [below, hp]
  rw [he, front, front, hq, List.filterMap_cons_none hb]

theorem sorted_schedule {q' : WakeQueue (Agent (Fin n))} {t : Nat} {p : Agent (Fin n)}
    {q : WakeQueue (Agent (Fin n))} (hq : Sorted q.pending) (h : q.schedule t p = .ok q') :
    Sorted q'.pending := by
  rw [schedule_eq_ok h]
  exact sorted_insertPair hq

end WakeQueue

namespace Machine

/-! ## The smaller machine -/

/-- **The machine without its last core**, the cache and the forwarder of that core. -/
def front (m : Machine g (n + 1)) : Machine g n where
  spec := m.spec
  bus := m.bus
  caches := m.caches.front
  forwarders := m.forwarders.front
  memory := m.memory
  cores := m.cores.front
  queue := m.queue.front

section Front

variable (m : Machine g (n + 1)) (i : Fin n)

theorem front_putForwarder (f : Forwarder) (bus : Bus) :
    (m.putForwarder i.castSucc f bus).front = m.front.putForwarder i f bus :=
  congrArg (fun v => { m.front with forwarders := v, bus := bus }) (front_put m.forwarders f i)

theorem front_putCache (c : Cache g) (bus : Bus) :
    (m.putCache i.castSucc c bus).front = m.front.putCache i c bus :=
  congrArg (fun v => { m.front with caches := v, bus := bus }) (front_put m.caches c i)

theorem front_putCore (c : Core) : (m.putCore i.castSucc c).front = m.front.putCore i c :=
  congrArg (fun v => { m.front with cores := v }) (front_put m.cores c i)

end Front

theorem sorted_deliver {m m' : Machine g n} {i : Fin n} {done : Option Completion}
    (hq : WakeQueue.Sorted m.queue.pending) (h : m.deliver i done = .ok m') :
    WakeQueue.Sorted m'.queue.pending := by
  cases done with
  | none =>
    cases h
    exact hq
  | some r =>
    cases hs : m.queue.send 1 (.core i) with
    | error e =>
      simp only [deliver, hs, bind, Except.bind] at h
      cases h
    | ok q =>
      simp only [deliver, hs, bind, Except.bind] at h
      cases h
      rw [WakeQueue.send_eq_ok hs]
      exact WakeQueue.sorted_insertPair hq

section Turns

variable {m : Machine g (n + 1)} (hq : WakeQueue.Sorted m.queue.pending)

include hq

theorem reschedule_front (p : Agent (Fin n)) (next : Next) :
    m.front.reschedule p next = (m.reschedule p.up next).map front := by
  cases next with
  | after d =>
    show (do return { m.front with queue := ← m.queue.front.send d p }) =
      (do return { m with queue := ← m.queue.send d p.up } : Except Fault _).map front
    rw [WakeQueue.send_front hq]
    cases m.queue.send d p.up <;> rfl
  | _ => rfl

theorem wakeIf_front (slept : Bool) (t : Nat) (p : Agent (Fin n)) :
    m.front.wakeIf slept t p = (m.wakeIf slept t p.up).map front := by
  cases slept with
  | false => rfl
  | true =>
    show (do return { m.front with queue := ← m.queue.front.schedule t p }) =
      (do return { m with queue := ← m.queue.schedule t p.up } : Except Fault _).map front
    rw [WakeQueue.schedule_front hq]
    cases m.queue.schedule t p.up <;> rfl

theorem deliver_front (i : Fin n) (done : Option Completion) :
    m.front.deliver i done = (m.deliver i.castSucc done).map front := by
  cases done with
  | none => rfl
  | some r =>
    have hcore : m.front.cores[i] = m.cores[i.castSucc] := getElem_front _ _
    have hput := m.front_putCore i (m.cores[i.castSucc].receive r)
    show (do return { m.front.putCore i (m.front.cores[i].receive r) with
        queue := ← m.queue.front.send 1 (.core i) }) =
      (do return { m.putCore i.castSucc (m.cores[i.castSucc].receive r) with
        queue := ← m.queue.send 1 (.core i.castSucc) } : Except Fault _).map front
    rw [WakeQueue.send_front hq, hcore, ← hput]
    show _ = Except.map front (do return { m.putCore i.castSucc (m.cores[i.castSucc].receive r) with
        queue := ← m.queue.send 1 (Agent.core i).up } : Except Fault _)
    cases m.queue.send 1 (Agent.core i).up <;> rfl

theorem runForwarder_front (i : Fin n) :
    m.front.runForwarder i = (m.runForwarder i.castSucc).map front := by
  unfold runForwarder
  rw [show m.front.forwarders[i] = m.forwarders[i.castSucc] from getElem_front _ _,
    show m.front.bus = m.bus from rfl]
  generalize m.forwarders[i.castSucc].tick m.bus = x
  obtain ⟨next, f, bus⟩ := x
  show (m.front.putForwarder i f bus).reschedule _ next = _
  rw [← front_putForwarder]
  exact reschedule_front (m := m.putForwarder i.castSucc f bus) hq _ _

theorem runMemory_front : m.front.runMemory = m.runMemory.map front := by
  unfold runMemory
  rw [show m.front.memory = m.memory from rfl, show m.front.bus = m.bus from rfl,
    show m.front.now = m.now from rfl]
  cases m.memory.tick m.bus m.now with
  | error e => rfl
  | ok x => exact reschedule_front (m := m.putMemory x.2.1 x.2.2) hq .memory _

theorem submit_front (i : Fin n) (k : Core) (r : Request) :
    (do
      let c ← m.front.caches[i].submit r
      return { m.front.putCore i k with
        caches := m.front.caches.put i c
        queue := ← m.queue.front.schedule m.now (.cache i) }) =
    (do
      let c ← m.caches[i.castSucc].submit r
      return { m.putCore i.castSucc k with
        caches := m.caches.put i.castSucc c
        queue := ← m.queue.schedule m.now (Agent.cache i).up } : Except Fault _).map front := by
  rw [show m.front.caches[i] = m.caches[i.castSucc] from getElem_front _ _,
    WakeQueue.schedule_front hq, ← front_putCore]
  cases m.caches[i.castSucc].submit r with
  | error e => rfl
  | ok c =>
    have hput := (m.putCore i.castSucc k).front_putCache i c m.bus
    cases m.queue.schedule m.now (Agent.cache i).up with
    | error e => rfl
    | ok q =>
      exact congrArg (fun x : Machine g n => Except.ok { x with queue := q.front }) hput.symm

theorem runCore_front (i : Fin n) : m.front.runCore i = (m.runCore i.castSucc).map front := by
  unfold runCore
  rw [show m.front.cores[i] = m.cores[i.castSucc] from getElem_front _ _,
    show m.front.now = m.now from rfl]
  generalize m.cores[i.castSucc].tick m.now = x
  obtain ⟨turn, k⟩ := x
  cases turn with
  | issue r => exact submit_front hq i k r
  | wait next =>
    show (m.front.putCore i k).reschedule _ next = _
    rw [← front_putCore]
    exact reschedule_front (m := m.putCore i.castSucc k) hq (.core i) _

theorem runCache_front (i : Fin n) : m.front.runCache i = (m.runCache i.castSucc).map front := by
  unfold runCache
  rw [show m.front.caches[i] = m.caches[i.castSucc] from getElem_front _ _,
    show m.front.bus = m.bus from rfl, show m.front.now = m.now from rfl]
  generalize m.caches[i.castSucc].tick m.bus m.now = x
  show ((m.front.putCache i x.cache x.bus).deliver i x.done >>=
    fun m => m.reschedule _ x.next) = _
  rw [← front_putCache, deliver_front (m := m.putCache i.castSucc x.cache x.bus) hq]
  refine map_bind_map _ fun m' hm' => ?_
  have hq' := sorted_deliver (m := m.putCache i.castSucc x.cache x.bus) hq hm'
  exact reschedule_front hq' (.cache i) _

/-- **The turns of its agents** are turns in the larger machine. -/
theorem runAgent_front (p : Agent (Fin n)) :
    m.front.runAgent p = (m.runAgent p.up).map front := by
  cases p with
  | forwarder i => exact runForwarder_front hq i
  | memory => exact runMemory_front hq
  | core i => exact runCore_front hq i
  | cache i => exact runCache_front hq i

end Turns

end Machine

end Snooping
