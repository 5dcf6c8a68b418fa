import Snooping.Proofs.Machine.Front
import Snooping.Proofs.Machine.Steps

/-!
# A core that never touches memory

Such a core wakes up in cycles of its own, has a cache that looks at everything and a forwarder that
never does anything. Nobody notices it.

* `Machine.Aside`: the last core never asks for anything.
* `Machine.broadcast_front`: what is driven is seen as if it were not there.
* **`Machine.Within.front`**: the turns of a cycle, without those of the last core.
* `Machine.Twin`: a machine that is about to do the same, whatever the next cycle is.
* **`Machine.Twin.passes`**: a cycle is one of the twin as well, or none at all.
* `Machine.Ready.cycle_of_done`: what is left to do after the end changes no core and no cache.
* **`Machine.bystander_is_invisible`**.
-/

namespace Snooping

variable {g : Geometry} {n : Nat}

/-! ## What is seen -/

namespace Cache

variable (k id : Nat) (bus : Bus)

theorem find?_empty (i : Fin g.sets) (tag : Nat) : (empty g k id).sets[i].find? tag = none := by
  refine LineSet.first?_eq_none.mpr fun w => ?_
  simp [empty, LineSet.empty, Line.carries, Line.isLive, Line.free]

theorem snoop_empty : (empty g k id).snoop bus = (none, empty g k id, bus) := by
  unfold snoop
  cases bus.current with
  | none => rfl
  | some t =>
    dsimp only
    split
    · simp [holds, find?_empty]
    · cases bus.requestFor (empty g k id).id with
      | none => rfl
      | some u => simp [find?_empty]

theorem observe_of_idle {c : Cache g} (h : c.access = none) : c.observe bus = (false, c) := by
  unfold observe
  rw [h]

end Cache

namespace Machine

/-- **The last core never asks for anything**, and its cache and its forwarder have never been
used. -/
structure Aside (m : Machine g (n + 1)) : Prop where
  cache : m.caches[Fin.last n] = .empty g m.spec.maxCounter.toNat n
  forwarder : m.forwarders[Fin.last n] = .idle n
  program : ∀ x ∈ m.cores[Fin.last n].program, x.request? = none

theorem sorted_wakeIf {m m' : Machine g n} {slept : Bool} {t : Nat} {p : Agent (Fin n)}
    (hq : WakeQueue.Sorted m.queue.pending) (h : m.wakeIf slept t p = .ok m') :
    WakeQueue.Sorted m'.queue.pending ∧ m'.caches = m.caches := by
  cases slept with
  | false =>
    cases h
    exact ⟨hq, rfl⟩
  | true =>
    cases hs : m.queue.schedule t p with
    | error e =>
      simp only [wakeIf, hs, bind, Except.bind, if_true] at h
      cases h
    | ok q =>
      simp only [wakeIf, hs, bind, Except.bind, if_true] at h
      cases h
      exact ⟨WakeQueue.sorted_schedule hq hs, rfl⟩

/-- While everybody looks, the queue stays in order and the last cache empty. -/
def Blank (c : Cache g) (m : Machine g (n + 1)) : Prop :=
  WakeQueue.Sorted m.queue.pending ∧ m.caches[Fin.last n] = c

section Look

variable {m m' : Machine g (n + 1)} {k t : Nat}

theorem snoopCache_front (hq : WakeQueue.Sorted m.queue.pending) (i : Fin n) :
    m.front.snoopCache t i = (m.snoopCache t i.castSucc).map front := by
  unfold snoopCache
  rw [show m.front.caches[i] = m.caches[i.castSucc] from getElem_front _ _,
    show m.front.bus = m.bus from rfl]
  generalize m.caches[i.castSucc].snoop m.bus = x
  obtain ⟨job, c, bus⟩ := x
  have hput := m.front_putCache i c bus
  cases job with
  | none => exact congrArg Except.ok hput.symm
  | some job =>
    have hf : m.front.forwarders[i] = m.forwarders[i.castSucc] := getElem_front _ _
    show ((m.front.putCache i c bus).putForwarder i (m.front.forwarders[i].push job).2 bus).wakeIf
      (m.front.forwarders[i].push job).1 t _ = _
    rw [hf, ← hput, ← front_putForwarder]
    exact wakeIf_front (m := (m.putCache i.castSucc c bus).putForwarder i.castSucc _ bus) hq _ _
      (.forwarder i)

theorem observeCache_front (hq : WakeQueue.Sorted m.queue.pending) (i : Fin n) :
    m.front.observeCache t i = (m.observeCache t i.castSucc).map front := by
  unfold observeCache
  rw [show m.front.caches[i] = m.caches[i.castSucc] from getElem_front _ _,
    show m.front.bus = m.bus from rfl]
  show (m.front.putCache i _ m.bus).wakeIf _ t _ = _
  rw [← front_putCache]
  exact wakeIf_front (m := m.putCache i.castSucc _ m.bus) hq _ _ (.cache i)

theorem snoopMemory_front (hq : WakeQueue.Sorted m.queue.pending) :
    m.front.snoopMemory t = (m.snoopMemory t).map front :=
  wakeIf_front (m := m.putMemory (m.memory.snoop m.bus).2 m.bus) hq _ _ .memory

theorem snoopCache_last (h : m.caches[Fin.last n] = .empty g k n) :
    m.snoopCache t (Fin.last n) = .ok m := by
  unfold snoopCache
  rw [h, Cache.snoop_empty]
  dsimp only
  rw [← h, Vector.put_getElem]
  rfl

theorem observeCache_last (h : m.caches[Fin.last n] = .empty g k n) :
    m.observeCache t (Fin.last n) = .ok m := by
  unfold observeCache
  rw [h, Cache.observe_of_idle _ rfl]
  dsimp only
  rw [← h, Vector.put_getElem]
  rfl

theorem Blank.snoopCache {c : Cache g} (h : m.Blank c) {i : Fin n}
    (hs : m.snoopCache t i.castSucc = .ok m') : m'.Blank c := by
  unfold Machine.snoopCache at hs
  generalize m.caches[i.castSucc].snoop m.bus = x at hs
  obtain ⟨job, c', bus⟩ := x
  have hlast : (m.caches.put i.castSucc c')[Fin.last n] = c := by
    rw [Vector.getElem_put_of_ne _ _ (Fin.castSucc_ne_last i).symm]
    exact h.2
  cases job with
  | none =>
    cases hs
    exact ⟨h.1, hlast⟩
  | some job =>
    obtain ⟨hq, hc⟩ := sorted_wakeIf (m := (m.putCache i.castSucc c' bus).putForwarder i.castSucc _
      bus) h.1 hs
    exact ⟨hq, (congrArg (·[Fin.last n]) hc).trans hlast⟩

theorem Blank.observeCache {c : Cache g} (h : m.Blank c) {i : Fin n}
    (hs : m.observeCache t i.castSucc = .ok m') : m'.Blank c := by
  obtain ⟨hq, hc⟩ := sorted_wakeIf (m := m.putCache i.castSucc _ m.bus) h.1 hs
  refine ⟨hq, ?_⟩
  rw [hc]
  exact (Vector.getElem_put_of_ne _ _ (Fin.castSucc_ne_last i).symm).trans h.2

end Look

theorem foldlM_front {P : Machine g (n + 1) → Prop}
    {f : Machine g (n + 1) → Fin (n + 1) → Except Fault (Machine g (n + 1))}
    {s : Machine g n → Fin n → Except Fault (Machine g n)}
    (h : ∀ m (i : Fin n), P m → s m.front i = (f m i.castSucc).map front)
    (hp : ∀ m (i : Fin n) m', P m → f m i.castSucc = .ok m' → P m')
    (hl : ∀ m, P m → f m (Fin.last n) = .ok m) {m : Machine g (n + 1)} (hm : P m) :
    (List.finRange n).foldlM s m.front = ((List.finRange (n + 1)).foldlM f m).map front ∧
      ∀ m', (List.finRange (n + 1)).foldlM f m = .ok m' → P m' := by
  have hfold : (List.finRange (n + 1)).foldlM f m =
      (List.finRange n).foldlM (fun m i => f m i.castSucc) m := by
    rw [List.finRange_succ_last, List.foldlM_append, List.foldlM_map]
    cases hx : (List.finRange n).foldlM (fun m i => f m i.castSucc) m with
    | error e => rfl
    | ok m' =>
      show (f m' (Fin.last n) >>= fun m => pure m) = _
      rw [hl m' (foldlM_keeps hp hm hx)]
      rfl
  rw [hfold]
  exact ⟨foldlM_map h hp _ hm, fun m' hx => foldlM_keeps hp hm hx⟩

/-- **What is driven is seen** as if the last cache were not there. -/
theorem broadcast_front {m : Machine g (n + 1)} {k : Nat}
    (hq : WakeQueue.Sorted m.queue.pending) (hc : m.caches[Fin.last n] = .empty g k n) :
    m.front.broadcast = m.broadcast.map front := by
  unfold broadcast
  rw [show m.front.bus.isDriven = m.bus.isDriven from rfl, show m.front.now = m.now from rfl]
  split
  · cases sum64 m.now 1 with
    | error e => rfl
    | ok t =>
      obtain ⟨hsnoop, hblank⟩ := foldlM_front (P := Blank (.empty g k n))
        (f := (snoopCache · t)) (s := (snoopCache · t)) (m := m)
        (fun m i hm => snoopCache_front hm.1 i) (fun m i m' hm => hm.snoopCache)
        (fun m hm => snoopCache_last hm.2) ⟨hq, hc⟩
      show ((List.finRange n).foldlM (snoopCache · t) m.front >>= fun m =>
        m.snoopMemory t >>= fun m => (List.finRange n).foldlM (observeCache · t) m) = _
      rw [hsnoop]
      refine map_bind_map _ fun m₁ h₁ => ?_
      obtain ⟨hq₁, hc₁⟩ := hblank m₁ h₁
      rw [snoopMemory_front hq₁]
      refine map_bind_map _ fun m₂ h₂ => ?_
      obtain ⟨hq₂, hc₂⟩ :=
        sorted_wakeIf (m := m₁.putMemory (m₁.memory.snoop m₁.bus).2 m₁.bus) hq₁ h₂
      obtain ⟨hobserve, -⟩ := foldlM_front (P := Blank (.empty g k n))
        (f := (observeCache · t)) (s := (observeCache · t)) (m := m₂)
        (fun m i hm => observeCache_front hm.1 i) (fun m i m' hm => hm.observeCache)
        (fun m hm => observeCache_last hm.2) ⟨hq₂, (congrArg (·[Fin.last n]) hc₂).trans hc₁⟩
      exact hobserve
  · rfl

/-! ## The last core -/

namespace Aside

variable {m m' : Machine g (n + 1)} {p : Agent (Fin (n + 1))}

theorem congr (h : m.Aside) (hs : m'.spec = m.spec)
    (hc : m'.caches[Fin.last n] = m.caches[Fin.last n])
    (hf : m'.forwarders[Fin.last n] = m.forwarders[Fin.last n])
    (hk : ∀ x ∈ m'.cores[Fin.last n].program, x ∈ m.cores[Fin.last n].program) : m'.Aside :=
  ⟨hc.trans (hs ▸ h.cache), hf.trans h.forwarder, fun x hx => h.program x (hk x hx)⟩

theorem eq_core (h : m.Aside) (hm : m.Attended none) {k : Nat} (ht : m.queue.Timed k)
    {q : WakeQueue (Agent (Fin (n + 1)))} (hq : m.queue.fetch = .ok (some (p, q)))
    (hp : p.down = none) : p = .core (Fin.last n) := by
  obtain ⟨hawake, -⟩ := WakeQueue.attends_fetch hm.waits ht hq
  have hawake : ¬ m.Asleep p := fun ha => hawake (.inr ha)
  have hlast : ∀ i : Fin (n + 1), Agent.place? i = none → i = Fin.last n := by
    intro i hi
    unfold Agent.place? at hi
    split at hi
    · cases hi
    · ext
      simp
      omega
  cases p with
  | memory => cases hp
  | core i => rw [hlast i (Option.map_eq_none_iff.mp hp)]
  | forwarder i =>
    obtain rfl := hlast i (Option.map_eq_none_iff.mp hp)
    refine absurd ?_ hawake
    show m.forwarders[Fin.last n].parked = true
    rw [h.forwarder]
    rfl
  | cache i =>
    obtain rfl := hlast i (Option.map_eq_none_iff.mp hp)
    refine absurd ?_ hawake
    show m.caches[Fin.last n].stage.sleeps = true
    rw [h.cache]
    rfl

theorem front_core (h : m.Aside) (ha : m.Acts (.core (Fin.last n)) m') :
    m'.front = m.front ∧ m'.bus = m.bus ∧ m'.Aside := by
  have hadd : ∀ t, (m.queue.add t (.core (Fin.last n))).front = m.queue.front := fun t =>
    WakeQueue.front_add (by simp [Agent.down, Agent.place?])
  cases ha with
  | halt hp =>
    refine ⟨congrArg (fun v => { m.front with cores := v }) (front_put_last _ _), rfl,
      h.congr rfl rfl rfl fun x hx => ?_⟩
    rwa [putCore, Vector.getElem_put_self] at hx
  | work hp =>
    refine ⟨?_, rfl, h.congr rfl rfl rfl fun x hx => ?_⟩
    · exact congrArg₂ (fun v q => { m.front with cores := v, queue := q }) (front_put_last _ _)
        (hadd _)
    · rw [wake, putCore, Vector.getElem_put_self] at hx
      rw [hp]
      exact List.mem_cons_of_mem _ hx
  | issue hp hr =>
    have hnone := h.program _ (hp ▸ List.mem_cons_self)
    cases hr.symm.trans hnone

theorem acts (h : m.Aside) {p : Agent (Fin n)} (ha : m.Acts p.up m') : m'.Aside := by
  have hne : ∀ i : Fin n, Fin.last n ≠ i.castSucc := fun i => (Fin.castSucc_ne_last i).symm
  have hforwarder : ∀ (i : Fin n) f bus, (m.putForwarder i.castSucc f bus).Aside := fun i f bus =>
    h.congr rfl rfl (Vector.getElem_put_of_ne _ _ (hne i)) fun _ => id
  have hmemory : ∀ y bus, (m.putMemory y bus).Aside := fun y bus =>
    ⟨h.cache, h.forwarder, h.program⟩
  have hcore : ∀ {x : Machine g (n + 1)}, x.Aside → ∀ (i : Fin n) k,
      (x.putCore i.castSucc k).Aside := fun hx i k => hx.congr rfl rfl rfl fun y hy => by
    rwa [putCore, Vector.getElem_put_of_ne _ _ (hne i)] at hy
  have hcache : ∀ {x : Machine g (n + 1)}, x.Aside → ∀ (i : Fin n) c bus,
      (x.putCache i.castSucc c bus).Aside := fun hx i c bus =>
    hx.congr rfl (Vector.getElem_put_of_ne _ _ (hne i)) rfl fun _ => id
  have hwake : ∀ {x : Machine g (n + 1)}, x.Aside → ∀ t q, (x.wake t q).Aside :=
    fun hx t q => ⟨hx.cache, hx.forwarder, hx.program⟩
  cases p with
  | forwarder i =>
    change m.Acts (.forwarder i.castSucc) m' at ha
    cases ha with
    | rest => exact hforwarder i _ _
    | send | hold => exact hwake (hforwarder i _ _) _ _
  | memory =>
    change m.Acts .memory m' at ha
    cases ha with
    | drain => exact hmemory _ _
    | early => exact hwake h _ _
    | begin | answer | retry => exact hwake (hmemory _ _) _ _
  | core i =>
    change m.Acts (.core i.castSucc) m' at ha
    cases ha with
    | halt => exact hcore h i _
    | work => exact hwake (hcore h i _) _ _
    | issue => exact hwake (hcache (hcore h i _) i _ _) _ _
  | cache i =>
    change m.Acts (.cache i.castSucc) m' at ha
    cases ha with
    | await => exact hcache h i _ _
    | proceed => exact hwake (hcache h i _ _) _ _
    | finish => exact hwake (hcore (hcache h i _ _) i _) _ _

theorem aired (h : m.Aside) (ha : m.Aired m') : m'.Aside := by
  have hnone : m.handed (Fin.last n) = none := by
    rw [handed, h.cache, Cache.snoop_empty]
  refine h.congr ha.spec ?_ ?_ fun x hx => ha.cores ▸ hx
  · rw [ha.caches, h.cache, Cache.snoop_empty, Cache.observe_of_idle _ rfl]
  · rw [ha.forwarders, hnone]
    rfl

end Aside

/-! ## Cycles -/

section Cycle

variable {m x : Machine g (n + 1)} {l : List (Agent (Fin (n + 1)))} {t : Nat}

/-- **The turns of a cycle** are turns in the smaller machine, without those of the last core. -/
theorem Within.front (h : m.Within l x) (h₀ : Awake 0 m) (ha : m.Aside) :
    x.Aside ∧ ∃ k, ∀ fuel, m.front.runDueFor (k + fuel) = x.front.runDueFor fuel := by
  induction h with
  | start => exact ⟨ha, 0, fun fuel => by rw [Nat.zero_add]⟩
  | @turn l y y' p q hl hq hr ih =>
    obtain ⟨hy, k, hk⟩ := ih
    obtain ⟨j, hawake, -⟩ := hl.awake h₀
    obtain ⟨hacts, -⟩ := awake_turn hawake hq hr
    have hqueue : { y with queue := q }.Aside := ⟨hy.cache, hy.forwarder, hy.program⟩
    cases hp : p.down with
    | none =>
      obtain rfl := hy.eq_core hawake.attended hawake.timed hq hp
      obtain ⟨hfront, -, hy'⟩ := hqueue.front_core hacts
      refine ⟨hy', k, fun fuel => ?_⟩
      have hsame : ({ y with queue := q } : Machine g (n + 1)).front = y.front :=
        congrArg (fun v => { y.front with queue := v }) (WakeQueue.front_of_fetch hq hp)
      rw [hk, hfront, hsame]
    | some p₀ =>
      obtain rfl := Agent.down_eq_some hp
      refine ⟨hqueue.acts hacts, k + 1, fun fuel => ?_⟩
      have hturn :
          ({ y with queue := q } : Machine g (n + 1)).front.runAgent p₀ = .ok y'.front := by
        have hsorted := (WakeQueue.timed_fetch hq hawake.timed).2.sorted
        rw [runAgent_front (m := { y with queue := q }) hsorted, hr]
        rfl
      have hfetch : y.front.queue.fetch = .ok (some (p₀, q.front)) := WakeQueue.fetch_front hq
      rw [Nat.add_assoc, Nat.add_comm 1, hk, runDueFor, hfetch]
      show ((({ y with queue := q } : Machine g (n + 1)).front.runAgent p₀) >>= runDueFor fuel) = _
      rw [hturn]
      rfl

/-- **A machine that is about to do the same** as the larger one without its last core, whatever the
next cycle is. -/
def Twin (m' : Machine g (n + 1)) (m : Machine g n) : Prop := ∀ t, m'.front.started t = m.started t

variable {m₁ : Machine g (n + 1)} {m₀ : Machine g n} {t' t₀ : Nat}

theorem Twin.pending_eq (h : m.Twin m₀) : m.front.queue.pending = m₀.queue.pending :=
  congrArg (·.queue.pending) (h 0)

theorem Twin.cores_eq (h : m.Twin m₀) : m.cores.front = m₀.cores := congrArg (·.cores) (h 0)

theorem Twin.caches_eq (h : m.Twin m₀) : m.caches.front = m₀.caches := congrArg (·.caches) (h 0)

theorem Twin.spec_eq (h : m.Twin m₀) : m.spec = m₀.spec := congrArg (·.spec) (h 0)

theorem Twin.cycle (h : m.Twin m₀) (hm : Ready t' m) (hm₀ : Ready t₀ m₀) (ha : m.Aside)
    (ht : m.queue.nextTime = some t) (ht₀ : m₀.queue.nextTime = some t)
    (hr : m.cycle t = .ok m₁) : m₁.Aside ∧ m₀.cycle t = .ok m₁.front := by
  obtain ⟨-, -, l, x, hround⟩ := (yields_cycle hm ht).of_eq_ok hr
  have hawake := awake_started hm ht
  have hstart : (m.started t).Aside := ⟨ha.cache, ha.forwarder, ha.program⟩
  obtain ⟨hx, k, hk⟩ := hround.within.front hawake hstart
  obtain ⟨j, hxawake, -⟩ := hround.within.awake hawake
  have hover : ∀ fuel, x.front.runDueFor fuel = .ok x.front := by
    refine runDueFor_over fun e he => ?_
    obtain ⟨e', he', hb⟩ := List.mem_filterMap.mp he
    have hlater := hround.later e' he'
    rw [WakeQueue.below_eq_some hb] at hlater
    exact hlater
  have hdue : (m₀.started t).runDue = .ok x.front := by
    refine (awake_started hm₀ ht₀).runDue_eq (k := k) fun fuel => ?_
    rw [← h t, ← hover fuel]
    exact hk fuel
  refine ⟨hx.aired hround.aired, ?_⟩
  show ((m₀.started t).runDue >>= broadcast) = _
  rw [hdue]
  show x.front.broadcast = _
  rw [broadcast_front hxawake.timed.sorted hx.cache, hround.shown]
  rfl

theorem Twin.idle (h : m.Twin m₀) (hm : Ready t' m) (ha : m.Aside)
    (ht : m.queue.nextTime = some t) (hidle : ∀ p, (t, p) ∉ m₀.queue.pending)
    (hr : m.cycle t = .ok m₁) : m₁.Aside ∧ m₁.Twin m₀ := by
  obtain ⟨-, -, l, x, hround⟩ := (yields_cycle hm ht).of_eq_ok hr
  have hawake := awake_started hm ht
  have hstart : (m.started t).Aside := ⟨ha.cache, ha.forwarder, ha.program⟩
  -- Only the last core has a turn, and nothing is driven.
  have hturns : ∀ {l y}, (m.started t).Within l y →
      y.Aside ∧ y.front = m₀.started t ∧ y.bus.current = none := by
    intro l y hl
    induction hl with
    | start => exact ⟨hstart, h t, rfl⟩
    | @turn l y y' p q hl hq hr ih =>
      obtain ⟨hy, hfront, hbus⟩ := ih
      obtain ⟨j, hyawake, -⟩ := hl.awake hawake
      obtain ⟨hacts, -⟩ := awake_turn hyawake hq hr
      have hqueue : { y with queue := q }.Aside := ⟨hy.cache, hy.forwarder, hy.program⟩
      cases hp : p.down with
      | some p₀ =>
        obtain rfl := Agent.down_eq_some hp
        obtain ⟨-, hpending⟩ := WakeQueue.fetch_eq_some hq
        have hmem : (y.queue.now, p₀) ∈ y.front.queue.pending :=
          WakeQueue.mem_front.mpr (hpending ▸ List.mem_cons_self)
        have hnow : y.queue.now = t := congrArg (·.queue.now) hfront
        rw [hfront, hnow] at hmem
        exact absurd hmem (hidle p₀)
      | none =>
        obtain rfl := hy.eq_core hyawake.attended hyawake.timed hq hp
        obtain ⟨hsame, hbus', hy'⟩ := hqueue.front_core hacts
        refine ⟨hy', ?_, hbus'.symm ▸ hbus⟩
        rw [hsame, ← hfront]
        exact congrArg (fun v => { y.front with queue := v }) (WakeQueue.front_of_fetch hq hp)
  obtain ⟨hx, hfront, hbus⟩ := hturns hround.within
  obtain rfl := hround.eq_of_undriven hbus
  refine ⟨hx, fun s => ?_⟩
  rw [hfront]
  rfl

/-- **A cycle is a cycle of the twin** as well, or none at all. -/
theorem Twin.passes (h : m.Twin m₀) (hm : Ready t' m) (hm₀ : Ready t₀ m₀) (ha : m.Aside)
    (hp : m.Passes t m₁) : m₁.Aside ∧ ∃ m₂ t₂, Ready t₂ m₂ ∧ m₁.Twin m₂ ∧
      (m₂ = m₀ ∨ (m₀.queue.nextTime = some t ∧ m₀.cycle t = .ok m₂)) := by
  by_cases hdue : ∃ p, (t, p) ∈ m₀.queue.pending
  · obtain ⟨p, hdue⟩ := hdue
    have ht₀ : m₀.queue.nextTime = some t := by
      cases hx : m₀.queue.nextTime with
      | none =>
        have hnil := List.head?_eq_none_iff.mp (Option.map_eq_none_iff.mp hx)
        rw [hnil] at hdue
        cases hdue
      | some t₁ =>
        obtain ⟨e, he, rfl⟩ := WakeQueue.mem_of_nextTime hx
        have hle := WakeQueue.nextTime_le hx hm₀.sorted _ hdue
        rw [← h.pending_eq] at he
        have hge := WakeQueue.nextTime_le hp.next hm.sorted _ (WakeQueue.mem_front.mp he)
        exact congrArg some (Nat.le_antisymm hle hge)
    obtain ⟨ha₁, hc⟩ := h.cycle hm hm₀ ha hp.next ht₀ hp.cycle
    have hready := ((yields_cycle hm₀ ht₀).of_eq_ok hc).1
    exact ⟨ha₁, m₁.front, t + 1, hready, fun _ => rfl, .inr ⟨ht₀, hc⟩⟩
  · obtain ⟨ha₁, htwin⟩ := h.idle hm ha hp.next (not_exists.mp hdue) hp.cycle
    exact ⟨ha₁, m₀, t₀, hm₀, htwin, .inl rfl⟩

end Cycle

/-! ## The end -/

theorem Cache.snoop_of_not_isRequest (c : Cache g) {bus : Bus}
    (h : ∀ u, bus.current = some u → u.func.isRequest = false) : (c.snoop bus).2.1 = c := by
  unfold Cache.snoop
  cases hc : bus.current with
  | none => rfl
  | some u =>
    have hnone : bus.requestFor c.id = none := by
      simp [Bus.requestFor, hc, h u hc]
    dsimp only
    rw [hnone]
    split <;> rfl

theorem Acts.answers {m m' : Machine g n} {p : Agent (Fin n)} (ha : m.Acts p m')
    (hk : ∀ i, p ≠ .core i) (hc : ∀ i, p ≠ .cache i) : m'.cores = m.cores ∧ m'.caches = m.caches ∧
      ∀ u, m'.bus.current = some u → m.bus.current = some u ∨ u.func.isRequest = false := by
  cases ha with
  | rest | hold | drain | begin | early | retry => exact ⟨rfl, rfl, fun u => .inl⟩
  | @send i k =>
    refine ⟨rfl, rfl, fun u hu => .inr ?_⟩
    cases hu
    exact Func.isRequest_of_isAnswer (Bus.isAnswer_forwardFunc k.state)
  | answer =>
    refine ⟨rfl, rfl, fun u hu => .inr ?_⟩
    cases hu
    rfl
  | halt | work | issue => exact absurd rfl (hk _)
  | proceed | await | finish => exact absurd rfl (hc _)

/-- **What is left to do after the end** changes no core and no cache. -/
theorem Ready.cycle_of_done {m m' : Machine g n} {t₀ t : Nat} (h : Ready t₀ m)
    (hd : m.allDone = true) (ht : m.queue.nextTime = some t) (hr : m.cycle t = .ok m') :
    m'.cores = m.cores ∧ m'.caches = m.caches := by
  obtain ⟨-, -, l, x, hround⟩ := (yields_cycle h ht).of_eq_ok hr
  have hdone := allDone_iff.mp hd
  have hidle := h.idle_of_allDone hd
  obtain ⟨k, hx, ⟨hcores, hcaches, hbus⟩, -⟩ := hround.within.induct (awake_started h ht)
    (P := fun _ y => y.cores = m.cores ∧ y.caches = m.caches ∧
      ∀ u, y.bus.current = some u → u.func.isRequest = false) ⟨rfl, rfl, nofun⟩
    fun {k y p q y'} hy ⟨hcores, hcaches, hbus⟩ hq _ ha _ => by
      -- Everybody whose program is over sleeps.
      obtain ⟨hawake, -⟩ := WakeQueue.attends_fetch hy.attended.waits hy.timed hq
      have hawake : ¬ y.Asleep p := fun hs => hawake (.inr hs)
      obtain ⟨hcores', hcaches', hbus'⟩ := ha.answers
        (fun i hp => hawake (by
          rw [hp]
          exact .inr (hcores ▸ hdone i)))
        (fun i hp => hawake (by
          rw [hp]
          show y.caches[i].stage.sleeps = true
          rw [hcaches, hidle]
          rfl))
      refine ⟨hcores'.trans hcores, hcaches'.trans hcaches, fun u hu => ?_⟩
      exact (hbus' u hu).elim (hbus u) id
  refine ⟨hround.aired.cores.trans hcores, ext_places fun j => ?_⟩
  have hquiet : ∀ u, (x.seenBus j).current = some u → u.func.isRequest = false := by
    intro u hu
    rw [current_seenBus] at hu
    exact hbus u hu
  rw [hround.aired.caches, Cache.snoop_of_not_isRequest _ hquiet, hcaches,
    Cache.observe_of_idle _ (Cache.stage_eq_idle.mp (hidle j))]

/-! ## Runs -/

/-- **The twin comes to the same end**, with the same cores and caches. -/
theorem Twin.runFor {m z : Machine g (n + 1)} {m₀ : Machine g n} {fuel t t₀ : Nat}
    {r : Except SimError Unit} (h : m.Twin m₀) (hm : Ready t m) (hm₀ : Ready t₀ m₀) (ha : m.Aside)
    (hc : m.spec.maxCycles = none) (hr : m.runFor fuel = .ok (r, z)) :
    ∃ z₀, m₀.runFor fuel = .ok (.ok (), z₀) ∧ z₀.cores = z.cores.front ∧
      z₀.caches = z.caches.front := by
  induction fuel generalizing m m₀ t t₀ with
  | zero => cases hr
  | succ fuel ih =>
    obtain ⟨hd, -, rfl⟩ | ⟨-, t', m₁, -, hp, hr⟩ := hm.runFor_cases hc hr
    · have hd₀ : m₀.allDone = true := by
        refine allDone_iff.mpr fun i => ?_
        rw [← h.cores_eq, getElem_front]
        exact allDone_iff.mp hd i.castSucc
      refine ⟨m₀, ?_, h.cores_eq.symm, h.caches_eq.symm⟩
      rw [Machine.runFor, if_pos hd₀]
      rfl
    · obtain ⟨ha₁, m₂, t₂, hm₂, htwin, hcases⟩ := h.passes hm hm₀ ha hp
      obtain ⟨z₀, hrun, hcores, hcaches⟩ := ih htwin hp.ready hm₂ ha₁ (hp.spec ▸ hc) hr
      obtain rfl | ⟨ht₀, hcycle⟩ := hcases
      · exact ⟨z₀, runFor_succ hrun, hcores, hcaches⟩
      · cases hd : m₀.allDone with
        | true =>
          -- The twin has ended before, and what it would still do changes nothing.
          obtain ⟨hcores₂, hcaches₂⟩ := hm₀.cycle_of_done hd ht₀ hcycle
          have hd₂ : m₂.allDone = true := by
            rw [allDone, hcores₂]
            exact hd
          obtain ⟨-, rfl⟩ := runFor_of_allDone hd₂ hrun
          refine ⟨m₀, ?_, hcores₂.symm.trans hcores, hcaches₂.symm.trans hcaches⟩
          rw [Machine.runFor, if_pos hd]
          rfl
        | false =>
          have hb : isBeyond m₀.spec.maxCycles t' = none := by
            rw [← h.spec_eq, hc]
            rfl
          refine ⟨z₀, ?_, hcores, hcaches⟩
          rw [Machine.runFor, if_neg (by rw [hd]; exact Bool.false_ne_true), hm₀.step_eq ht₀ hb,
            hcycle]
          exact hrun

/-! ## The start -/

section Boot

variable {spec : Spec}

theorem front_firstQueue : (firstQueue (n + 1)).front = firstQueue n := by
  have hlast : WakeQueue.below (0, Agent.core (Fin.last n)) = none := by
    simp [WakeQueue.below, Agent.down, Agent.place?]
  have hpending : (firstQueue (n + 1)).pending.filterMap WakeQueue.below =
      (firstQueue n).pending := by
    rw [firstQueue, List.finRange_succ_last, List.map_append, List.filterMap_append, List.map_map,
      List.filterMap_map, List.map_singleton, List.filterMap_cons_none hlast, List.filterMap_nil,
      List.append_nil, firstQueue, ← List.filterMap_eq_map]
    exact List.filterMap_congr fun i _ => WakeQueue.below_up 0 (.core i)
  exact congrArg (WakeQueue.mk 0) hpending

theorem front_boot (programs : Vector Program n) (programs' : Vector Program (n + 1))
    (hp : ∀ i : Fin n, programs'[i.castSucc] = programs[i]) :
    (boot g spec programs').front = boot g spec programs := by
  have hcaches : (boot g spec programs').caches.front = (boot g spec programs).caches := by
    apply ext_places
    intro i
    rw [getElem_front, cache_boot, cache_boot]
    rfl
  have hforwarders : (boot g spec programs').forwarders.front =
      (boot g spec programs).forwarders := by
    apply ext_places
    intro i
    rw [getElem_front, forwarder_boot, forwarder_boot]
    rfl
  have hcores : (boot g spec programs').cores.front = (boot g spec programs).cores := by
    apply ext_places
    intro i
    rw [getElem_front, core_boot, core_boot, hp]
    rfl
  rw [front, hcaches, hforwarders, hcores]
  exact congrArg (fun q => { boot g spec programs with queue := q }) front_firstQueue

theorem aside_boot (programs : Vector Program (n + 1))
    (hw : ∀ x ∈ programs[Fin.last n], x.request? = none) : (boot g spec programs).Aside := by
  refine ⟨cache_boot _ _ _, forwarder_boot _ _ _, ?_⟩
  rw [core_boot]
  exact hw

theorem run_boot_front {n' : Nat} (hn : n' = n + 1) {programs : Vector Program n}
    {programs' : Vector Program n'} (hv : spec.validate = .ok g) (hc : spec.maxCycles = none)
    (hp : ∀ (i : Fin n) (i' : Fin n'), (i' : Nat) = i → programs'[i'] = programs[i])
    (hw : ∀ i' : Fin n', (i' : Nat) = n → ∀ x ∈ programs'[i'], x.request? = none)
    {r : Except SimError Unit} {m' : Machine g n'}
    (hr : (boot g spec programs').run = .ok (r, m')) :
    ∃ m, (boot g spec programs).run = .ok (.ok (), m) ∧ ∀ (i : Fin n) (i' : Fin n'),
      (i' : Nat) = i → m'.cores[i'] = m.cores[i] ∧ m'.caches[i'] = m.caches[i] := by
  subst hn
  have htwin : (boot g spec programs').Twin (boot g spec programs) := fun t => by
    rw [front_boot programs programs' fun i => hp i i.castSucc rfl]
  obtain ⟨m, hrun, hcores, hcaches⟩ := htwin.runFor (ready_boot hv _) (ready_boot hv _)
    (aside_boot programs' (hw (Fin.last n) rfl)) hc hr
  refine ⟨m, hrun, fun i i' hi => ?_⟩
  obtain rfl : i' = i.castSucc := Fin.ext hi
  rw [hcores, hcaches, getElem_front, getElem_front]
  exact ⟨rfl, rfl⟩

end Boot

/-- **A core that never touches memory is invisible.** Let a core be added to a machine without a
cycle limit whose program only spends cycles on other work. If no number leaves its range, both runs
end, and every other core ends as it does alone, with the same requests in the same cycles, and its
cache with the same lines and counts. -/
theorem bystander_is_invisible {spec : Spec} {programs : List Program} {g : Geometry}
    {m₀ : Machine g programs.length} (h : ofSpec spec programs = .ok ⟨g, m₀⟩)
    (hc : spec.maxCycles = none) {w : Program} (hw : ∀ x ∈ w, ∃ d, x = .other d) :
    ∃ m₀' : Machine g (programs ++ [w]).length,
      ofSpec spec (programs ++ [w]) = .ok ⟨g, m₀'⟩ ∧
      ∀ r m', m₀'.run = .ok (r, m') → r = .ok () ∧ ∃ m, m₀.run = .ok (.ok (), m) ∧
        ∀ (i : Fin programs.length) (i' : Fin (programs ++ [w]).length), (i' : Nat) = i →
          m'.cores[i'] = m.cores[i] ∧ m'.caches[i'] = m.caches[i] := by
  obtain ⟨hv, -, rfl⟩ := ofSpec_eq_ok.mp h
  refine ⟨_, ofSpec_eq_ok.mpr ⟨hv, by simp, rfl⟩, fun r m' hr => ⟨?_, ?_⟩⟩
  · exact ((ready_boot hv _).runFor_ok hc (Nat.le_refl 0) hr).1
  · refine run_boot_front (by simp) hv hc (fun i i' hi => ?_) (fun i' hi x hx => ?_) hr
    · have hget : (programs ++ [w])[i'] = programs[i] := by
        simp [hi]
      exact hget
    · have hget : (programs ++ [w])[i'] = w := by
        simp [hi]
      obtain ⟨d, rfl⟩ := hw x (hget ▸ hx)
      rfl

/-- A third core goes on for 27 cycles after the others have ended. -/
theorem bystander_is_invisible_tiny : ofSpec tinySpec tinyPrograms = .ok ⟨_, tiny⟩ ∧
    tinySpec.maxCycles = none ∧
    ∃ m₀' : Machine ⟨1, 1, by decide, by decide⟩
        (tinyPrograms ++ [[Instr.other 3, .other 50]]).length,
      ofSpec tinySpec (tinyPrograms ++ [[Instr.other 3, .other 50]]) = .ok ⟨_, m₀'⟩ ∧
      ∃ r m' m, m₀'.run = .ok (r, m') ∧ tiny.run = .ok (.ok (), m) ∧ m'.now = 53 ∧ m.now = 26 ∧
        (m'.cores[0].completed = m.cores[0].completed ∧ m'.cores[0].completed.size = 3) ∧
        m'.caches[0].stats = m.caches[0].stats := by
  have hwork : ∀ x ∈ [Instr.other 3, .other 50], ∃ d, x = .other d := by
    simp
  obtain ⟨m₀', h', hsame⟩ := bystander_is_invisible ofSpec_tiny rfl hwork
  have hnow' : (m₀'.run.toOption.any fun y => y.2.now = 53 ∧ y.2.cores[0].completed.size = 3) =
      true := by
    obtain ⟨-, -, rfl⟩ := ofSpec_eq_ok.mp h'
    decide +kernel
  have hnow : (tiny.run.toOption.any fun y => y.2.now = 26) = true := by decide +kernel
  cases hr : m₀'.run with
  | error e =>
    rw [hr] at hnow'
    cases hnow'
  | ok y =>
    rw [hr] at hnow'
    obtain ⟨hend', hsize⟩ := of_decide_eq_true hnow'
    obtain ⟨-, m, hm, hequal⟩ := hsame y.1 y.2 hr
    obtain ⟨hcore, hcache⟩ := hequal ⟨0, by decide⟩ ⟨0, by decide⟩ rfl
    rw [hm] at hnow
    have hend : m.now = 26 := of_decide_eq_true hnow
    exact ⟨ofSpec_tiny, rfl, m₀', h', y.1, y.2, m, hr, hm, hend', hend,
      ⟨congrArg Core.completed hcore, hsize⟩, congrArg Cache.stats hcache⟩

end Machine

end Snooping
