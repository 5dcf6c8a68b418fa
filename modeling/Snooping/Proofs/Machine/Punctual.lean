import Snooping.Proofs.Machine.Rounds

/-!
# Who has its turn in the next cycle

Caches do not idle: a cache that has something to do has its turn in the very next cycle, whatever
the others do. Only cores and memory wait for later cycles.

* **`Machine.Acts.queue_cases`**: whom a turn wakes.
* **`Machine.woken_of_broadcast`**: a broadcast wakes for the next cycle only.
* **`Machine.Punctual`**: no cache waits for a later cycle; `Machine.Round.punctual`: a cycle keeps
  it.
* **`Machine.Ready.due`**: a cache that does not sleep is due in the next cycle.
* **`Machine.Within.mem_of_due`**: who is due has its turn.
-/

namespace Snooping.Machine

variable {g : Geometry} {n : Nat}

/-! ## Who is woken -/

/-- **Whom a turn wakes**: a cache for this cycle or the next one, and memory only by its own
turn. -/
theorem Acts.queue_cases {m m' : Machine g n} {p : Agent (Fin n)} (h : m.Acts p m') :
    m'.queue = m.queue ∨ ∃ u a, m'.queue = m.queue.add u a ∧
      (∀ i, a = .cache i → u ≤ m.now + 1) ∧ (a = .memory → p = .memory) := by
  cases h with
  | rest | drain | halt | await => exact .inl rfl
  | send | hold => exact .inr ⟨_, _, rfl, nofun, nofun⟩
  | begin | early | answer | retry => exact .inr ⟨_, _, rfl, nofun, fun _ => rfl⟩
  | work | finish => exact .inr ⟨_, _, rfl, nofun, nofun⟩
  | issue => exact .inr ⟨_, _, rfl, fun _ _ => Nat.le_succ _, nofun⟩
  | proceed => exact .inr ⟨_, _, rfl, fun _ _ => Nat.le_refl _, nofun⟩

theorem Acts.pending_cases {m m' : Machine g n} {p : Agent (Fin n)} (h : m.Acts p m') {u : Nat}
    {a : Agent (Fin n)} (he : (u, a) ∈ m'.queue.pending) : (u, a) ∈ m.queue.pending ∨
      ((∀ i, a = .cache i → u ≤ m.now + 1) ∧ (a = .memory → p = .memory)) := by
  obtain hq | ⟨v, b, hq, hcache, hmemory⟩ := h.queue_cases
  · exact .inl (hq ▸ he)
  · rw [hq, WakeQueue.mem_add] at he
    obtain he | he := he
    · cases he
      exact .inr ⟨hcache, hmemory⟩
    · exact .inl he

section Broadcast

variable {m₀ m : Machine g n}

/-- Whoever waits has waited before, or waits for the next cycle. -/
def Woken (m₀ m : Machine g n) : Prop :=
  m.now = m₀.now ∧ ∀ e ∈ m.queue.pending, e ∈ m₀.queue.pending ∨ e.1 = m₀.now + 1

theorem Woken.wakeIf (h : m₀.Woken m) (slept : Bool) (p : Agent (Fin n)) :
    Yields (m.wakeIf slept (m₀.now + 1) p) m₀.Woken := by
  refine (yields_wakeIf (h.1 ▸ Nat.le_succ _) slept p).imp fun m' _ he => ?_
  rw [he]
  cases slept with
  | false => exact h
  | true =>
    refine ⟨h.1, fun e he => ?_⟩
    obtain rfl | he := WakeQueue.mem_add.mp he
    · exact .inr rfl
    · exact h.2 e he

/-- **A broadcast wakes for the next cycle only.** -/
theorem yields_broadcast_woken (m : Machine g n) : Yields m.broadcast m.Woken := by
  have hrefl : m.Woken m := ⟨rfl, fun _ => .inl⟩
  unfold broadcast
  split
  · refine (yields_sum64 m.now 1).bind fun next _ ⟨hnext, _⟩ => ?_
    subst hnext
    refine (yields_foldlM (P := fun _ => m.Woken) (fun {i x} hx => ?_) hrefl).bind fun x _ hx => ?_
    · unfold snoopCache
      generalize x.caches[i].snoop x.bus = y
      obtain ⟨job, c, bus⟩ := y
      cases job with
      | none => exact hx
      | some k => exact Woken.wakeIf (m := { x with
          caches := x.caches.put i c
          bus := bus
          forwarders := x.forwarders.put i (x.forwarders[i].push k).2 }) hx _ _
    · refine Yields.bind (P := m.Woken) ?_ fun x' _ hx' => ?_
      · exact Woken.wakeIf (m := { x with memory := (x.memory.snoop x.bus).2 }) hx _ _
      · refine yields_foldlM (P := fun _ => m.Woken) (fun {i x} hx => ?_) hx'
        exact Woken.wakeIf (m := { x with caches := x.caches.put i (x.caches[i].observe x.bus).2 })
          hx _ _
  · exact hrefl

theorem woken_of_broadcast {m m' : Machine g n} (h : m.broadcast = .ok m') : m.Woken m' :=
  m.yields_broadcast_woken.of_eq_ok h

end Broadcast

/-! ## Nobody idles -/

/-- **No cache waits for a cycle after `t`.** -/
def Punctual (t : Nat) (m : Machine g n) : Prop :=
  ∀ (i : Fin n) u, (u, .cache i) ∈ m.queue.pending → u ≤ t

theorem Within.now_eq {m x : Machine g n} {l : List (Agent (Fin n))} (h : m.Within l x)
    (h₀ : Awake 0 m) : x.now = m.now := by
  obtain ⟨k, -, hx, -⟩ := h.induct h₀ (P := fun _ y => y.now = m.now) rfl
    fun _ hy hq _ _ ht => ht.now.trans ((WakeQueue.now_of_fetch hq).trans hy)
  exact hx

theorem Punctual.within {m x : Machine g n} {l : List (Agent (Fin n))} (h : m.Within l x)
    (h₀ : Awake 0 m) (hm : m.Punctual (m.now + 1)) : x.Punctual (m.now + 1) := by
  obtain ⟨k, -, ⟨-, hx⟩, -⟩ := h.induct h₀
    (P := fun _ y => y.now = m.now ∧ y.Punctual (m.now + 1)) ⟨rfl, hm⟩
    fun {k y p q y'} hy ⟨hnow, hp⟩ hq _ ha ht => by
      have hclock : q.now = m.now := (WakeQueue.now_of_fetch hq).trans hnow
      obtain ⟨-, hpending⟩ := WakeQueue.fetch_eq_some hq
      refine ⟨ht.now.trans hclock, fun i u he => ?_⟩
      obtain he | ⟨hlt, -⟩ := ha.pending_cases he
      · exact hp i u (hpending ▸ List.mem_cons_of_mem _ he)
      · exact hclock ▸ hlt i rfl
  exact hx

theorem Round.punctual {m x m' : Machine g n} {t : Nat} {l : List (Agent (Fin n))}
    (h : m.Round t l x m') (h₀ : Awake 0 (m.started t)) (hm : m.Punctual (t + 1)) :
    m'.Punctual (t + 1) := fun i u he => by
  have hx := Punctual.within h.within h₀ hm
  have hnow : x.now = t := h.within.now_eq h₀
  obtain he | he := (woken_of_broadcast h.shown).2 _ he
  · exact hx i u he
  · exact hnow ▸ Nat.le_of_eq he

theorem Punctual.mono {m : Machine g n} {t t' : Nat} (h : m.Punctual t) (ht : t ≤ t') :
    m.Punctual t' := fun i u he => Nat.le_trans (h i u he) ht

theorem punctual_boot (spec : Spec) (programs : Vector Program n) :
    (boot g spec programs).Punctual 0 := fun i u he => by
  obtain ⟨j, -, hj⟩ := List.mem_map.mp he
  cases hj

section Due

variable {m : Machine g n} {t t' : Nat}

theorem Ready.next_eq (h : Ready t m) {p : Agent (Fin n)} (hp : (t, p) ∈ m.queue.pending)
    (ht : m.queue.nextTime = some t') : t' = t := by
  obtain ⟨e, he, rfl⟩ := WakeQueue.mem_of_nextTime ht
  exact Nat.le_antisymm (WakeQueue.nextTime_le ht h.sorted _ hp) (h.later e he)

theorem Ready.le_next (h : Ready t m) (ht : m.queue.nextTime = some t') : t ≤ t' := by
  obtain ⟨e, he, rfl⟩ := WakeQueue.mem_of_nextTime ht
  exact h.later e he

/-- **A cache that does not sleep is due in the next cycle.** -/
theorem Ready.due (h : Ready t m) (hm : m.Punctual t) {i : Fin n}
    (hs : m.caches[i].stage.sleeps = false) : (t, .cache i) ∈ m.queue.pending := by
  have hawake : ¬ (none = some (Agent.cache i) ∨ m.Asleep (.cache i)) := by
    rintro (he | he)
    · cases he
    · exact Bool.noConfusion (hs.symm.trans he)
  obtain ⟨u, hu⟩ := (h.attended.waits.awake _).mpr hawake
  obtain rfl : u = t := Nat.le_antisymm (hm i u hu) (h.later _ hu)
  exact hu

end Due

/-! ## Turns that come -/

section Turn

variable {m x : Machine g n} {l : List (Agent (Fin n))} {p : Agent (Fin n)}

theorem Within.mem_of_due (h : m.Within l x) (h₀ : Awake 0 m) (hp : (m.now, p) ∈ m.queue.pending) :
    p ∈ l ∨ (m.now, p) ∈ x.queue.pending := by
  induction h with
  | start => exact .inr hp
  | @turn l y y' a q hy hq hr ih =>
    obtain ⟨k, hawake, -⟩ := hy.awake h₀
    obtain ⟨-, hpending⟩ := WakeQueue.fetch_eq_some hq
    obtain hl | he := ih
    · exact .inl (List.mem_append_left _ hl)
    · rw [hpending, List.mem_cons] at he
      obtain he | he := he
      · rw [(Prod.mk.inj he).2]
        exact .inl (List.mem_append_right _ (List.mem_singleton_self _))
      · exact .inr ((hawake.took hq hr).waits _ he)

end Turn

end Snooping.Machine
