import Snooping.Proofs.Machine.Punctual

/-!
# What a cycle is for memory

Memory has at most one turn in a cycle, after the forwarders and before everybody else. What comes
of it depends on memory and on whether a forwarder has taken the bus.

* `Transfer.isForward`, `Transfer.isReply`: who drives an answer.
* **`Memory.Serves`**: what memory does in a cycle that drives a given transfer.
* `Machine.Acts.drives`: what the others drive.
* **`Machine.Within.serves`**: memory has its turn if it is due, and is left alone otherwise.
* **`Machine.Prompt`**: memory that serves nothing is due in the next cycle or asleep, with
  `Machine.Round.prompt`.
-/

namespace Snooping

variable {g : Geometry} {n : Nat}

/-! ## Who drives -/

namespace Transfer

/-- A forwarder drives the transfer. -/
def isForward (t : Transfer) : Bool := t.func.isAnswer && t.source ≠ .memory

/-- Memory drives the transfer. -/
def isReply (t : Transfer) : Bool := t.func.isAnswer && t.source = .memory

theorem isReply_of_isForward {t : Transfer} (h : t.isForward) : t.isReply = false := by
  simp only [isForward, isReply, Bool.and_eq_true, Bool.and_eq_false_iff] at h ⊢
  exact .inr (by simpa using h.2)

theorem isReply_of_isRequest {t : Transfer} (h : t.func.isRequest) : t.isReply = false := by
  revert h
  unfold isReply
  cases t.func <;> simp [Func.isRequest, Func.isAnswer]

end Transfer

/-- Memory does not drive. -/
def Bus.NotReplied (b : Option Transfer) : Prop := ∀ w, b = some w → w.isReply = false

/-! ## One cycle of memory -/

namespace Memory

/-- **What memory does in a cycle** in which it has its turn and `cur` is driven. -/
inductive Serves (m : Memory) (now : Nat) (cur : Option Transfer) : Memory → Prop
  /-- It has nothing to serve and falls asleep. -/
  | drain (hs : m.service = .idle) (hq : m.queue = []) (hc : Bus.NotReplied cur) :
      Serves m now cur { m with cold := true, parked := true }
  /-- It starts to serve its first request. -/
  | begin {u : Transfer} {rest : List Transfer} (hs : m.service = .idle) (hq : m.queue = u :: rest)
      (hc : Bus.NotReplied cur) : Serves m now cur { m with
        queue := rest, cold := false, service := .busy u (now + m.spec.latency m.cold) }
  /-- It is still busy. -/
  | early {u : Transfer} {ready : Nat} (hs : m.service = .busy u ready) (hr : now < ready)
      (hc : Bus.NotReplied cur) : Serves m now cur m
  /-- It answers. -/
  | answer {u : Transfer} {d : Option Block} (ho : m.Owes now u d)
      (hc : cur = some ⟨u.requester, .memory, u.addr.line, .response, d⟩) :
      Serves m now cur (m.served u)
  /-- A forwarder has taken the bus. -/
  | retry {u w : Transfer} {d : Option Block} (ho : m.Owes now u d) (hc : cur = some w)
      (hw : w.isForward) : Serves m now cur { m with service := .responding u d }

theorem Serves.later {m m' : Memory} {now : Nat} {cur cur' : Option Transfer}
    (h : m.Serves now cur m') (hs : ∀ w, cur = some w → cur' = some w)
    (hn : Bus.NotReplied cur → Bus.NotReplied cur') : m.Serves now cur' m' := by
  cases h with
  | drain hi hq hc => exact .drain hi hq (hn hc)
  | begin hi hq hc => exact .begin hi hq (hn hc)
  | early hb hr hc => exact .early hb hr (hn hc)
  | answer ho hc => exact .answer ho (hs _ hc)
  | retry ho hc hw => exact .retry ho (hs _ hc) hw

end Memory

namespace Machine

variable {k t : Nat} {m m' x y y' : Machine g n} {p : Agent (Fin n)} {l : List (Agent (Fin n))}

theorem Acts.drives (h : m.Acts p m') (hp : p ≠ .memory) : m'.bus.current = m.bus.current ∨
    ∃ w, m'.bus.current = some w ∧ w.isReply = false ∧ (p.slot < n → w.isForward) := by
  have hcache : ∀ {bus : Bus} {i : Fin n}, m.bus.Asked bus → bus.current = m.bus.current ∨
      ∃ w, bus.current = some w ∧ w.isReply = false ∧ ((Agent.cache i).slot < n → w.isForward) :=
    fun {bus i} hb => by
      cases hb with
      | free => exact .inl rfl
      | refused => exact .inl rfl
      | granted hg hr =>
        refine .inr ⟨_, rfl, Transfer.isReply_of_isRequest hr, fun hlt => ?_⟩
        simp only [Agent.slot] at hlt
        omega
  cases h with
  | @send i job rest =>
    have hf : Transfer.isForward ⟨job.dest, .cache m.forwarders[i].source, job.addr.line,
        Bus.forwardFunc job.state, job.data⟩ := by
      simp [Transfer.isForward, Bus.isAnswer_forwardFunc]
    exact .inr ⟨_, rfl, Transfer.isReply_of_isForward hf, fun _ => hf⟩
  | proceed _ hb => exact hcache hb
  | await _ hb => exact hcache hb
  | drain | begin | early | answer | retry => exact absurd rfl hp
  | _ => exact .inl rfl

/-! ## Its turn -/

/-- How far a cycle has come for memory: it waits for its turn, in which it will find the bus free
or taken by a forwarder, or it has had it. -/
inductive Served (y : Machine g n) (t k : Nat) (z : Machine g n) : Prop
  | before (hm : z.memory = y.memory)
      (hq : (t, .memory) ∈ z.queue.pending ↔ (t, .memory) ∈ y.queue.pending)
      (hc : Bus.NotReplied z.bus.current)
      (hf : k ≤ n → ∀ w, z.bus.current = some w → w.isForward)
  | after (hk : n < k) (hq : (t, .memory) ∈ y.queue.pending)
      (hs : y.memory.Serves t z.bus.current z.memory)

theorem Served.turn {z z' : Machine g n} {q : WakeQueue (Agent (Fin n))} (hz : Awake k z)
    (hnow : z.now = t) (h : y.Served t k z) (hq : z.queue.fetch = .ok (some (p, q)))
    (hk : k ≤ p.slot) (ha : { z with queue := q }.Acts p z')
    (ht : { z with queue := q }.Took p z') : y.Served t (p.slot + 1) z' := by
  have hclock : q.now = t := (WakeQueue.now_of_fetch hq).trans hnow
  obtain ⟨-, hpending⟩ := WakeQueue.fetch_eq_some hq
  by_cases hp : p = .memory
  · subst hp
    cases h with
    | after hlt => exact absurd hk (Nat.not_le_of_lt hlt)
    | before hm hw hc hf =>
      have hdue : (t, .memory) ∈ y.queue.pending := by
        rw [← hw, hpending, ← hnow]
        exact List.mem_cons_self
      refine .after (Nat.lt_succ_self n) hdue ?_
      rw [← hm, ← hclock]
      cases ha with
      | drain hs he => exact .drain hs he hc
      | begin hs he hr hl =>
        rw [hr]
        exact .begin hs he hc
      | early hs hr hl => exact .early hs hr hc
      | answer ho _ _ hl => exact .answer ho rfl
      | retry ho hg hl =>
        -- The bus is not free, since no forwarder waits for a free bus any more.
        have hb : z.bus.current ≠ none := fun hb =>
          hg ⟨hz.forwardIntended_eq hq (Nat.le_refl n) hb, hb⟩
        obtain ⟨w, hb⟩ := Option.ne_none_iff_exists'.mp hb
        exact .retry ho hb (hf hk w hb)
  · have hkeep : ∀ w, z.bus.current = some w → z'.bus.current = some w := fun w hc =>
      ht.current_eq hc
    have hnone : Bus.NotReplied z.bus.current → Bus.NotReplied z'.bus.current := fun hn w hw => by
      obtain he | ⟨w', he, hr, -⟩ := ha.drives hp
      · exact hn w (he.symm.trans hw)
      · cases he.symm.trans hw
        exact hr
    cases h with
    | before hm hw hc hf =>
      refine .before ((ha.memory_eq hp).trans hm) (Iff.trans ⟨fun he => ?_, fun he => ?_⟩ hw)
        (hnone hc) fun hlt w hw => ?_
      · obtain he | ⟨-, he⟩ := ha.pending_cases he
        · exact hpending ▸ List.mem_cons_of_mem _ he
        · exact absurd (he rfl) hp
      · rw [hpending, List.mem_cons] at he
        exact ht.waits _ (he.resolve_left fun e => hp (Prod.mk.inj e).2.symm)
      · obtain he | ⟨w', he, -, hf'⟩ := ha.drives hp
        · exact hf (by omega) w (he.symm.trans hw)
        · cases he.symm.trans hw
          exact hf' (by omega)
    | after hlt hdue hs =>
      refine .after (by omega) hdue ?_
      rw [ha.memory_eq hp]
      exact hs.later hkeep hnone

/-- **Memory has its turn if it is due**, and is left alone otherwise. -/
theorem Within.serves (h : (y.started t).Within l x) (h₀ : Awake 0 (y.started t))
    (hx : ∀ e ∈ x.queue.pending, x.now < e.1) :
    ((t, .memory) ∉ y.queue.pending ∧ x.memory = y.memory ∧ Bus.NotReplied x.bus.current) ∨
      ((t, .memory) ∈ y.queue.pending ∧ y.memory.Serves t x.bus.current x.memory) := by
  obtain ⟨k, -, ⟨hnow, hs⟩, -⟩ := h.induct h₀ (P := fun k z => z.now = t ∧ y.Served t k z)
    ⟨rfl, .before rfl Iff.rfl nofun fun _ => nofun⟩
    fun hz ⟨hnow, hs⟩ hq hk ha ht =>
      ⟨ht.now.trans ((WakeQueue.now_of_fetch hq).trans hnow), hs.turn hz hnow hq hk ha ht⟩
  cases hs with
  | before hm hw hc hf =>
    refine .inl ⟨fun hdue => ?_, hm, hc⟩
    have := hx _ (hw.mpr hdue)
    omega
  | after hk hdue hs => exact .inr ⟨hdue, hs⟩

/-! ## When it is due -/

/-- **Memory that serves nothing does not wait for a cycle after `t`.** -/
def Prompt (t : Nat) (m : Machine g n) : Prop :=
  m.memory.service = .idle → ∀ u, (u, .memory) ∈ m.queue.pending → u ≤ t

theorem Prompt.turn {q : WakeQueue (Agent (Fin n))} (hy : Awake k y) (h : y.Prompt (y.now + 1))
    (hq : y.queue.fetch = .ok (some (p, q))) (ha : { y with queue := q }.Acts p y') :
    y'.Prompt (y.now + 1) := fun hs u hu => by
  have hnow : q.now = y.now := WakeQueue.now_of_fetch hq
  obtain ⟨-, hpending⟩ := WakeQueue.fetch_eq_some hq
  by_cases hp : p = .memory
  · subst hp
    -- Memory waits for nothing else in its turn.
    have hgone : ∀ {u}, (u, .memory) ∉ q.pending := fun {u} hu =>
      ((attended_fetch hy.attended hy.timed hq).waits.awake .memory).mp ⟨u, hu⟩ (.inl rfl)
    have hadd : ∀ {c}, (u, Agent.memory) ∈ (q.add c .memory).pending → u = c := fun {c} hu => by
      obtain he | he := WakeQueue.mem_add.mp hu
      · exact (Prod.mk.inj he).1
      · exact absurd he hgone
    cases ha with
    | drain => exact absurd hu hgone
    | begin => cases hs
    | early hb => cases hb.symm.trans hs
    | answer => exact hnow ▸ Nat.le_of_eq (hadd hu)
    | retry => cases hs
  · rw [ha.memory_eq hp] at hs
    obtain hu | ⟨-, he⟩ := ha.pending_cases hu
    · exact h hs u (hpending ▸ List.mem_cons_of_mem _ hu)
    · exact absurd (he rfl) hp

theorem Round.prompt (h : y.Round t l x y') (h₀ : Awake 0 (y.started t)) (hy : y.Prompt (t + 1)) :
    y'.Prompt (t + 1) := fun hs u hu => by
  obtain ⟨k, -, ⟨hnow, hx⟩, -⟩ := h.within.induct h₀
    (P := fun _ z => z.now = t ∧ z.Prompt (t + 1)) ⟨rfl, hy⟩ fun hz ⟨hnow, hp⟩ hq _ ha ht => by
      subst hnow
      exact ⟨ht.now.trans (WakeQueue.now_of_fetch hq), Prompt.turn hz hp hq ha⟩
  obtain ⟨-, -, -, -, hservice⟩ := x.memory.snoop_eq (x.seenBus n)
  rw [h.aired.memory, hservice] at hs
  obtain he | he := (woken_of_broadcast h.shown).2 _ hu
  · exact hx hs u he
  · exact hnow ▸ Nat.le_of_eq he

theorem Prompt.mono {t' : Nat} (h : m.Prompt t) (ht : t ≤ t') : m.Prompt t' :=
  fun hs u hu => Nat.le_trans (h hs u hu) ht

/-- **Memory that is awake and serves nothing is due in the next cycle.** -/
theorem Ready.memory_due (h : Ready t m) (hm : m.Prompt t) (hs : m.memory.service = .idle)
    (hp : m.memory.parked = false) : (t, .memory) ∈ m.queue.pending := by
  obtain ⟨u, hu⟩ := (h.attended.waits.awake .memory).mpr (by simp [Asleep, hp])
  obtain rfl : u = t := Nat.le_antisymm (hm hs u hu) (h.later _ hu)
  exact hu

end Machine

end Snooping
