import Snooping.Proofs.Machine.Accounts

/-!
# The books of the machine

Where the answers come from: memory and the caches count what they give, and together they answer
every read and every write once, by what is on the bus and by what is still owed.

* `Cache.Deed.waits`, `Cache.forwards_snoop`: what a cache counts beside its accounts.
* `View.unanswered`, `View.Broadcast.unanswered`: a request that is looked at is owed one answer.
* **`Machine.Booked`**: the books, with **`Machine.booked_acts`**, `Machine.Aired.sums` and
  `Machine.booked_boot`.
* **`Machine.Round.booked`**, `Machine.Plays.booked`: what a cycle keeps.
-/

namespace Snooping

open Finset

variable {g : Geometry} {n : Nat}

/-! ## Caches -/

theorem LineState.afterPeerRead_ne {s : LineState} (h : s ≠ .requested) :
    s.afterPeerRead ≠ .requested := by
  revert h
  cases s <;> decide

namespace Cache

theorem Deed.waits {c : Cache g} {bus : Bus} {now : Nat} {x : Turn g} (h : c.Deed bus now x) :
    x.cache.stats.busWaitCycles + bus.rejected = c.stats.busWaitCycles + x.bus.rejected ∧
      x.cache.stats.forwards = c.stats.forwards := by
  cases h with
  | sleep => exact ⟨rfl, rfl⟩
  | look => exact ⟨rfl, rfl⟩
  | restart => exact ⟨rfl, rfl⟩
  | take _ _ _ hk =>
    rw [← hk.stats]
    exact ⟨rfl, rfl⟩
  | yield _ _ _ hk =>
    rw [← hk.stats]
    exact ⟨Nat.add_right_comm _ _ _, rfl⟩
  | @serve c₁ a w ha hp hk =>
    rw [← hk.stats]
    show (c₁.stats.finish a.request.isWrite a.missed).busWaitCycles + bus.rejected = _ ∧
      (c₁.stats.finish a.request.isWrite a.missed).forwards = _
    cases a.request.isWrite <;> cases a.missed <;> exact ⟨rfl, rfl⟩
  | @fetch a a' w =>
    rw [← c.stats_marked a.request.addr w]
    exact ⟨rfl, rfl⟩
  | @ask a a' w =>
    rw [← c.stats_marked a.request.addr w]
    exact ⟨Nat.add_right_comm _ _ _, rfl⟩
  | evict => exact ⟨rfl, rfl⟩
  | hold => exact ⟨Nat.add_right_comm _ _ _, rfl⟩

theorem forwards_shareLine {c : Cache g} {i : Fin g.sets} {w : Fin g.ways}
    (h : (c.line i w).state ≠ .requested) (bus : Bus) (t : Transfer) :
    (c.shareLine bus t i w).2.1.stats.forwards = c.stats.forwards +
      ((c.shareLine bus t i w).1.toList.filter ForwardJob.isData).length := by
  have hdata : ForwardJob.isData ⟨t.requester, t.addr, (c.line i w).state.afterPeerRead,
      some (c.line i w).data⟩ := decide_eq_true (LineState.afterPeerRead_ne h)
  unfold shareLine
  dsimp only
  split
  · rw [Option.toList_some, List.filter_cons_of_pos hdata]
    rfl
  · rfl

theorem forwards_snoop (c : Cache g) (bus : Bus) : (c.snoop bus).2.1.stats.forwards =
    c.stats.forwards + ((c.snoop bus).1.toList.filter ForwardJob.isData).length := by
  unfold snoop
  split
  · rfl
  · split
    · rfl
    · split
      · rfl
      · split
        · rfl
        · unfold react
          split
          · split
            · rfl
            · next hs => exact forwards_shareLine hs bus _
          · rfl

theorem Heeds.waits {c c' : Cache g} (h : c.Heeds c') :
    c'.stats.busWaitCycles = c.stats.busWaitCycles ∧ c'.stats.forwards = c.stats.forwards := by
  cases h <;> exact ⟨rfl, rfl⟩

end Cache

/-! ## The protocol -/

namespace View

/-- **The answers with data that are still to come**, from memory and from peers. -/
def unanswered (V : View n) : Nat := V.pending.length + ∑ j, (V.jobs j).length

/-- **A request that is looked at** is owed one answer, unless it only takes a line away. -/
theorem Broadcast.unanswered {V V' : View n} {t : Transfer} (h : V.Broadcast t V') :
    V'.unanswered = V.unanswered + if t.func = .read ∨ t.func = .write then 1 else 0 := by
  have hnone : ∀ {f : Func}, t.func = f → f ≠ .read → f ≠ .write →
      (if t.func = .read ∨ t.func = .write then 1 else 0) = 0 := fun hf hr hw =>
    if_neg (by rw [hf]; exact not_or.mpr ⟨hr, hw⟩)
  have henqueue : ((V.seen t).enqueue t).unanswered = V.unanswered + 1 := by
    show (V.pending ++ [t]).length + _ = V.pending.length + _ + 1
    rw [List.length_append, List.length_singleton]
    exact Nat.add_right_comm _ _ _
  cases h with
  | @claimed k s hf hq hk hd =>
    have hsum := sum_update (fun _ (l : List ForwardJob) => l.length) V.jobs k
      (V.jobs k ++ [⟨t.requester, t.addr, s, some (V.copy k t.addr).2⟩])
    rw [List.length_append, List.length_singleton] at hsum
    rw [if_pos (.inl hf)]
    show V.pending.length + ∑ j, (Function.update V.jobs k (V.jobs k ++ [_]) j).length =
      V.pending.length + ∑ j, (V.jobs j).length + 1
    omega
  | unclaimed hf =>
    rw [if_pos (.inl hf)]
    exact henqueue
  | written hf =>
    rw [if_pos (.inr hf)]
    exact henqueue
  | invalidated hf => exact (hnone hf nofun nofun).symm ▸ rfl
  | landed hf => exact (hnone hf nofun nofun).symm ▸ rfl
  | filled hf => exact (hnone hf nofun nofun).symm ▸ rfl
  | discarded hf => exact (hnone hf nofun nofun).symm ▸ rfl
  | noticed hf => exact (hnone hf nofun nofun).symm ▸ rfl

end View

/-! ## Memory -/

/-- The requests that memory has answered. -/
def Memory.answered (m : Memory) : Nat := m.stats.reads + m.stats.writes

theorem Memory.answered_served (m : Memory) (t : Transfer) :
    (m.served t).answered = m.answered + 1 := by
  unfold served answered
  split
  · cases t.data with
    | none => exact (Nat.add_assoc _ _ _).symm
    | some d =>
      unfold writeBlock
      dsimp only
      cases m.store.writeBlock? t.addr d <;> exact (Nat.add_assoc _ _ _).symm
  · exact Nat.add_right_comm _ _ _

namespace Machine

/-! ## Sums -/

/-- The answers that the forwarders have sent. -/
def sent (m : Machine g n) : Nat := ∑ i : Fin n, m.forwarders[i].sent

/-- The lines that the forwarders still owe. -/
def promised (m : Machine g n) : Nat := ∑ j, (m.view.jobs j).length

/-- The lines that the caches have handed to their peers. -/
def forwards (m : Machine g n) : Nat := ∑ i : Fin n, m.caches[i].stats.forwards

/-- The cycles in which the caches were turned away. -/
def waits (m : Machine g n) : Nat := ∑ i : Fin n, m.caches[i].stats.busWaitCycles

section Put

variable {m m' : Machine g n} {i : Fin n}

theorem sums_forwarder {f : Forwarder} (h : m'.forwarders = m.forwarders.put i f) :
    m'.sent + m.forwarders[i].sent = m.sent + f.sent ∧
      m'.promised + (m.forwarders[i].queue.filter ForwardJob.isData).length =
        m.promised + (f.queue.filter ForwardJob.isData).length := by
  simp only [sent, promised, view, h]
  exact ⟨sum_put m.forwarders i f Forwarder.sent,
    sum_put m.forwarders i f fun f => (f.queue.filter ForwardJob.isData).length⟩

theorem sums_cache {c : Cache g} (h : m'.caches = m.caches.put i c) :
    m'.forwards + m.caches[i].stats.forwards = m.forwards + c.stats.forwards ∧
      m'.waits + m.caches[i].stats.busWaitCycles = m.waits + c.stats.busWaitCycles := by
  simp only [forwards, waits, h]
  exact ⟨sum_put m.caches i c fun c => c.stats.forwards,
    sum_put m.caches i c fun c => c.stats.busWaitCycles⟩

theorem sums_of_forwarders (h : m'.forwarders = m.forwarders) :
    m'.sent = m.sent ∧ m'.promised = m.promised := by
  simp only [sent, promised, view, h, and_self]

theorem sums_of_caches (h : m'.caches = m.caches) :
    m'.forwards = m.forwards ∧ m'.waits = m.waits := by
  simp only [forwards, waits, h, and_self]

end Put

/-! ## The books -/

/-- **The books of the machine**, where `k` requests that expect an answer have not been looked at
yet. -/
structure Booked (m : Machine g n) (k : Nat) : Prop where
  /-- Every answer is sent by a forwarder or by memory. -/
  answers : m.sent + m.memory.answered = m.bus.answered
  /-- Data come from memory or from the cache that has handed them over. -/
  sources : m.bus.carried .response + m.promised = m.memory.answered + m.forwards
  /-- A read and a write are answered once. -/
  requests : m.bus.carried .response + m.view.unanswered + k =
    m.bus.carried .read + m.bus.carried .write
  /-- A cache waits only when it was turned away. -/
  waits : m.waits ≤ m.bus.rejected

/-- The books between two turns. -/
abbrev BookedNow (m : Machine g n) : Prop := m.Booked (m.bus.fresh .read + m.bus.fresh .write)

/-- **What a turn comes to in the books**, whatever was on the bus before it. -/
structure Replies (m m' : Machine g n) : Prop where
  answers : m'.sent + m'.memory.answered + (m.bus.fresh .response + m.bus.fresh .requested) =
    m.sent + m.memory.answered + (m'.bus.fresh .response + m'.bus.fresh .requested)
  sources : m'.bus.fresh .response + m'.promised + (m.memory.answered + m.forwards) =
    m.bus.fresh .response + m.promised + (m'.memory.answered + m'.forwards)
  requests : m'.bus.fresh .response + m'.view.unanswered =
    m.bus.fresh .response + m.view.unanswered
  waits : m'.waits + m.bus.rejected ≤ m.waits + m'.bus.rejected

section Turn

variable {m m' : Machine g n} {p : Agent (Fin n)} {i : Fin n}

theorem replies_still (hs : m'.sent = m.sent ∧ m'.promised = m.promised)
    (hf : m'.forwards = m.forwards ∧ m'.waits = m.waits)
    (hm : m'.memory.answered = m.memory.answered) (hp : m'.memory.pending = m.memory.pending)
    (hc : m'.bus.current = m.bus.current) (hr : m.bus.rejected ≤ m'.bus.rejected) :
    m.Replies m' := by
  have hfresh : ∀ f, m'.bus.fresh f = m.bus.fresh f := fun f => by rw [Bus.fresh, Bus.fresh, hc]
  have hunanswered : m'.view.unanswered = m.view.unanswered :=
    congrArg₂ (· + ·) (congrArg List.length hp) hs.2
  refine ⟨?_, ?_, ?_, ?_⟩
  · rw [hs.1, hm, hfresh, hfresh]
  · rw [hfresh, hs.2, hm, hf.1]
  · rw [hfresh, hunanswered]
  · rw [hf.2]
    exact Nat.add_le_add_left hr _

theorem replies_cache {x : Turn g} (hx : m.caches[i].tick m.bus m.now = x)
    (hb : m.bus.Asked x.bus) (hc : m'.caches = m.caches.put i x.cache) (hbus : m'.bus = x.bus)
    (hf : m'.forwarders = m.forwarders) (hm : m'.memory = m.memory) : m.Replies m' := by
  have hdeed := (m.caches[i].deed_tick m.bus m.now).waits
  rw [hx, ← hbus] at hdeed
  obtain ⟨hforwards, hwaits⟩ := sums_cache hc
  obtain ⟨hsent, hpromised⟩ := sums_of_forwarders hf
  have hfresh : ∀ f : Func, f.isAnswer → m'.bus.fresh f = m.bus.fresh f := fun f hfa => by
    rw [hbus]
    generalize x.bus = b at hb
    cases hb with
    | free => rfl
    | refused => rfl
    | @granted t hg ht =>
      rw [Bus.fresh_of_none (Bus.current_eq_none_of_grants hg), Bus.fresh_of_some rfl]
      exact if_neg (Func.ne_of_isAnswer hfa ht).symm
  have hunanswered : m'.view.unanswered = m.view.unanswered :=
    congrArg₂ (· + ·) (by rw [view, view, hm]) hpromised
  have hresponse := hfresh .response rfl
  have hrequested := hfresh .requested rfl
  have hmemory : m'.memory.answered = m.memory.answered := by rw [hm]
  exact ⟨by omega, by omega, by omega, by omega⟩

theorem replies_submit {c : Cache g} (hc : m'.caches = m.caches.put i c)
    (hs : c.stats = m.caches[i].stats) (hf : m'.forwarders = m.forwarders)
    (hm : m'.memory = m.memory) (hb : m'.bus = m.bus) : m.Replies m' := by
  obtain ⟨hforwards, hwaits⟩ := sums_cache hc
  rw [hs] at hforwards hwaits
  exact replies_still (sums_of_forwarders hf)
    ⟨Nat.add_right_cancel hforwards, Nat.add_right_cancel hwaits⟩ (by rw [hm]) (by rw [hm])
    (by rw [hb]) (Nat.le_of_eq (by rw [hb]))

theorem replies_keep {f : Forwarder} (hf : m'.forwarders = m.forwarders.put i f)
    (hq : f.queue = m.forwarders[i].queue) (hs : f.sent = m.forwarders[i].sent)
    (hc : m'.caches = m.caches) (hm : m'.memory = m.memory)
    (hcur : m'.bus.current = m.bus.current) (hr : m.bus.rejected ≤ m'.bus.rejected) :
    m.Replies m' := by
  obtain ⟨hsent, hpromised⟩ := sums_forwarder hf
  rw [hs] at hsent
  rw [hq] at hpromised
  exact replies_still ⟨Nat.add_right_cancel hsent, Nat.add_right_cancel hpromised⟩
    (sums_of_caches hc) (by rw [hm]) (by rw [hm]) hcur hr

theorem replies_send {k : ForwardJob} {rest : List ForwardJob}
    (hq : m.forwarders[i].queue = k :: rest) (hb : m.bus.current = none) {f : Forwarder}
    (hf : m'.forwarders = m.forwarders.put i f) (hrest : f.queue = rest)
    (hs : f.sent = m.forwarders[i].sent + 1) (hc : m'.caches = m.caches)
    (hm : m'.memory = m.memory) {t : Transfer} (hcur : m'.bus.current = some t)
    (ht : t.func = Bus.forwardFunc k.state) (hr : m'.bus.rejected = m.bus.rejected) :
    m.Replies m' := by
  obtain ⟨hsent, hpromised⟩ := sums_forwarder hf
  obtain ⟨hforwards, hwaits⟩ := sums_of_caches hc
  have hmemory : m'.memory.answered = m.memory.answered := by rw [hm]
  have hunanswered : m'.view.unanswered + m.promised = m.view.unanswered + m'.promised := by
    show m'.memory.pending.length + m'.promised + m.promised =
      m.memory.pending.length + m.promised + m'.promised
    rw [hm]
    exact Nat.add_right_comm _ _ _
  have hfree₁ := Bus.fresh_of_none hb .response
  have hfree₂ := Bus.fresh_of_none hb .requested
  have hresponse := Bus.fresh_of_some hcur .response
  have hrequested := Bus.fresh_of_some hcur .requested
  rw [ht] at hresponse hrequested
  rw [hq, hrest, List.filter_cons] at hpromised
  -- A notice is no line, so that it is neither promised nor a response.
  by_cases hd : k.state = .requested
  · have hn : k.isData = false := by simp [ForwardJob.isData, hd]
    rw [Bus.forwardFunc, if_pos hd] at hresponse hrequested
    rw [hn, if_neg Bool.false_ne_true] at hpromised
    rw [if_neg (by decide)] at hresponse
    rw [if_pos rfl] at hrequested
    exact ⟨by omega, by omega, by omega, by omega⟩
  · have hn : k.isData = true := by simp [ForwardJob.isData, hd]
    rw [Bus.forwardFunc, if_neg hd] at hresponse hrequested
    rw [hn, if_pos rfl, List.length_cons] at hpromised
    rw [if_pos rfl] at hresponse
    rw [if_neg (by decide)] at hrequested
    exact ⟨by omega, by omega, by omega, by omega⟩

theorem replies_answer {t : Transfer} {d : Option Block} (ho : m.memory.Owes m.now t d)
    (hb : m.bus.current = none) (hf : m'.forwarders = m.forwarders) (hc : m'.caches = m.caches)
    (hm : m'.memory = m.memory.served t) {u : Transfer} (hcur : m'.bus.current = some u)
    (hu : u.func = .response) (hr : m'.bus.rejected = m.bus.rejected) : m.Replies m' := by
  obtain ⟨hsent, hpromised⟩ := sums_of_forwarders hf
  obtain ⟨hforwards, hwaits⟩ := sums_of_caches hc
  have hmemory : m'.memory.answered = m.memory.answered + 1 := by
    rw [hm]
    exact m.memory.answered_served t
  have hunanswered : m'.view.unanswered + 1 = m.view.unanswered := by
    show m'.memory.pending.length + m'.promised + 1 = m.memory.pending.length + m.promised
    rw [hm, hpromised, ← ho.length_pending]
    exact Nat.add_right_comm _ _ _
  have hfree₁ := Bus.fresh_of_none hb .response
  have hfree₂ := Bus.fresh_of_none hb .requested
  have hresponse := Bus.fresh_of_some hcur .response
  have hrequested := Bus.fresh_of_some hcur .requested
  rw [hu, if_pos rfl] at hresponse
  rw [hu, if_neg nofun] at hrequested
  exact ⟨by omega, by omega, by omega, by omega⟩

/-- **What every turn comes to in the books.** -/
theorem Acts.replies (ha : m.Acts p m') : m.Replies m' := by
  cases ha with
  | rest hq => exact replies_keep rfl rfl rfl rfl rfl rfl (Nat.le_refl _)
  | @send i k rest hq hb hl => exact replies_send hq hb rfl rfl rfl rfl rfl rfl rfl rfl
  | @hold i hq hb hl =>
    exact replies_keep (i := i) (f := m.forwarders[i]) rfl rfl rfl rfl rfl rfl (Nat.le_succ _)
  | drain hs hq => exact replies_still ⟨rfl, rfl⟩ ⟨rfl, rfl⟩ rfl rfl rfl (Nat.le_refl _)
  | begin hs hq hr hl =>
    exact replies_still ⟨rfl, rfl⟩ ⟨rfl, rfl⟩ rfl (Memory.pending_busy hs hq) rfl (Nat.le_refl _)
  | early hs hr hl => exact replies_still ⟨rfl, rfl⟩ ⟨rfl, rfl⟩ rfl rfl rfl (Nat.le_refl _)
  | answer ho hf hb hl => exact replies_answer ho hb rfl rfl rfl rfl rfl rfl
  | retry ho hg hl =>
    exact replies_still ⟨rfl, rfl⟩ ⟨rfl, rfl⟩ rfl ho.pending_responding rfl (Nat.le_succ _)
  | halt hp => exact replies_still ⟨rfl, rfl⟩ ⟨rfl, rfl⟩ rfl rfl rfl (Nat.le_refl _)
  | work hp hl => exact replies_still ⟨rfl, rfl⟩ ⟨rfl, rfl⟩ rfl rfl rfl (Nat.le_refl _)
  | @issue i x rest r hp hr hi =>
    exact replies_submit (c := { m.caches[i] with access := some (.start r) }) rfl rfl rfl rfl rfl
  | proceed ht hb _ _ _ => exact replies_cache ht hb rfl rfl rfl rfl
  | await ht hb _ _ => exact replies_cache ht hb rfl rfl rfl rfl
  | finish ht _ _ _ => exact replies_cache ht .free rfl rfl rfl rfl

theorem booked_acts (h : m.BookedNow) (ha : m.Acts p m') : m'.BookedNow := by
  have hcarried := ha.carried_eq
  have hread := hcarried .read
  have hwrite := hcarried .write
  have hresponse := hcarried .response
  have hrequested := hcarried .requested
  obtain ⟨h₁, h₂, h₃, h₄⟩ := ha.replies
  obtain ⟨b₁, b₂, b₃, b₄⟩ := h
  unfold Bus.answered at b₁
  refine ⟨?_, ?_, ?_, ?_⟩
  · unfold Bus.answered
    omega
  · omega
  · omega
  · omega

end Turn

/-! ## Broadcasts -/

section Aired

variable {m m' : Machine g n}

theorem Aired.sums (h : m.Aired m') : m'.sent = m.sent ∧ m'.waits = m.waits ∧
    m'.memory.answered = m.memory.answered ∧
    m'.promised + m.forwards = m.promised + m'.forwards := by
  have hsent : ∀ j : Fin n, m'.forwarders[j].sent = m.forwarders[j].sent := by
    intro j
    rw [h.forwarders j]
    cases m.handed j <;> rfl
  have hwaits : ∀ j : Fin n,
      m'.caches[j].stats.busWaitCycles = m.caches[j].stats.busWaitCycles := by
    intro j
    obtain ⟨d, -, he, -⟩ := m.caches[j].endures_snoop (m.seenBus j)
    obtain ⟨f, hf⟩ := he.stats
    rw [(h.heeds j).waits.1, hf]
  have hgiven : ∀ j : Fin n,
      (m'.view.jobs j).length + m.caches[j].stats.forwards =
        (m.view.jobs j).length + m'.caches[j].stats.forwards := by
    intro j
    show (m'.forwarders[j].queue.filter _).length + _ = (m.forwarders[j].queue.filter _).length + _
    rw [(h.heeds j).waits.2, Cache.forwards_snoop, h.forwarders j, Forwarder.queue_accept,
      List.filter_append, List.length_append, handed]
    omega
  refine ⟨?_, ?_, ?_, ?_⟩
  · simp only [sent, hsent]
  · simp only [waits, hwaits]
  · rw [h.memory, Memory.answered, Memory.answered]
    unfold Memory.snoop
    cases (m.seenBus n).memoryRequest <;> rfl
  · rw [promised, promised, forwards, forwards, ← sum_add_distrib, ← sum_add_distrib]
    exact sum_congr rfl fun j _ => hgiven j

end Aired

section Cycle

variable {m m' x : Machine g n} {t : Nat} {l : List (Agent (Fin n))}

/-- **A request that has been looked at** is owed one answer. -/
theorem Round.unanswered_eq (h : m.Round t l x m') (h₀ : Awake 0 (m.started t)) :
    m'.view.unanswered = x.view.unanswered + (x.bus.fresh .read + x.bus.fresh .write) := by
  obtain ⟨k, hx, -⟩ := h.within.awake h₀
  cases hc : x.bus.current with
  | none =>
    obtain rfl := h.eq_of_undriven hc
    rw [Bus.fresh_of_none hc, Bus.fresh_of_none hc]
    rfl
  | some u =>
    obtain ⟨hv, -⟩ := broadcast_view hx.toRunning h.later hc h.shown
    rw [Bus.fresh_of_some hc, Bus.fresh_of_some hc]
    refine hv.unanswered.trans (congrArg (x.view.unanswered + ·) ?_)
    cases u.func <;> rfl

/-- **A cycle keeps the books right.** -/
theorem Round.booked (h : m.Round t l x m') (h₀ : Awake 0 (m.started t)) (hm : m.Booked 0) :
    m'.Booked 0 := by
  obtain ⟨k, -, ⟨b₁, b₂, b₃, b₄⟩, -⟩ := h.within.induct h₀ (P := fun _ y => y.BookedNow)
    ⟨hm.answers, hm.sources, hm.requests, hm.waits⟩
    fun {k y p q y'} hy hp hq _ ha _ => by
      have hp : { y with queue := q }.BookedNow := ⟨hp.answers, hp.sources, hp.requests, hp.waits⟩
      exact booked_acts hp ha
  obtain ⟨hsent, hwaits, hmemory, hgiven⟩ := h.aired.sums
  have hunanswered := h.unanswered_eq h₀
  have hcarried := h.aired.carried_eq
  have hrejected : m'.bus.rejected = x.bus.rejected := by
    obtain ⟨s, c, hb⟩ := h.aired.bus_eq
    rw [hb]
  refine ⟨?_, ?_, ?_, ?_⟩
  · rw [hsent, hmemory, b₁, Bus.answered, Bus.answered, hcarried, hcarried]
  · rw [hcarried, hmemory]
    omega
  · rw [hcarried, hcarried, hcarried]
    omega
  · rw [hwaits, hrejected]
    exact b₄

theorem booked_boot (spec : Spec) (programs : Vector Program n) :
    (boot g spec programs).Booked 0 := by
  have hsent : (boot g spec programs).sent = 0 := sum_eq_zero fun j _ => by
    rw [forwarder_boot]
    rfl
  have hpromised : (boot g spec programs).promised = 0 := sum_eq_zero fun j _ => by
    simp only [view, forwarder_boot]
    rfl
  have hforwards : (boot g spec programs).forwards = 0 := sum_eq_zero fun j _ => by
    rw [cache_boot]
    rfl
  have hwaits : (boot g spec programs).waits = 0 := sum_eq_zero fun j _ => by
    rw [cache_boot]
    rfl
  have hcarried := carried_boot (g := g) spec programs
  refine ⟨?_, ?_, ?_, Nat.le_of_eq hwaits⟩
  · rw [hsent, Bus.answered, hcarried, hcarried]
    rfl
  · rw [hpromised, hforwards, hcarried]
    rfl
  · rw [hcarried, hcarried, hcarried]
    exact (Nat.zero_add _).trans ((Nat.zero_add _).trans hpromised)

end Cycle

/-- **The books are right** in every state between steps. -/
theorem Plays.booked {spec : Spec} {programs : List Program} {m₀ m : Machine g programs.length}
    {log : List (Nat × Option Transfer)} (h : ofSpec spec programs = .ok ⟨g, m₀⟩)
    (hl : m₀.Plays log m) : m.Booked 0 := by
  obtain ⟨-, -, h₀⟩ := ofSpec_eq_ok.mp h
  obtain ⟨-, -, hx⟩ := hl.induct (ready_start h) (P := fun _ _ m => m.Booked 0)
    (h₀ ▸ booked_boot spec _) fun hready hy ht hround => hround.booked (awake_started hready ht) hy
  exact hx

end Machine

end Snooping
