import Snooping.Memory.Controller
import Snooping.Proofs.Bus.Operations
import Snooping.Proofs.Fault

/-!
# What memory does in one turn

Memory works on one request after the other. What matters to others is which requests it has not
answered, the data it has taken out for the first of them, and its lines.

* `Memory.readBlock_congr`, `Memory.readBlock_writeBlock`, **`Memory.readBlock_served`**: lines, and
  what a write does to them.
* `Memory.pending`, `Memory.captured`, `Memory.reply`, `Memory.Owes`: requests and their answers.
* **`Memory.Deed`**, **`Memory.yields_tick`**: what memory does in a turn.
* `Memory.Sound`: what is taken out is for a read.
* **`Memory.tick_cases`**: a turn waits, takes data out, or answers.
-/

namespace Snooping

/-! ## Lines -/

theorem Addr.toNat_word (a : Addr) (i : Fin lineWords) :
    (a.line.val + UInt32.ofNat (i * wordSize)).toNat = a.line.val.toNat + i * wordSize := by
  have hl := a.lineNumber_lt
  have hi := i.isLt
  rw [UInt32.toNat_add, a.toNat_line, UInt32.toNat_ofNat']
  simp only [lineSize, wordSize, lineWords] at hi ⊢
  omega

theorem Addr.word_of_line (a : Addr) (i : Fin lineWords) :
    (⟨a.line.val + UInt32.ofNat (i * wordSize)⟩ : Addr).lineNumber = a.lineNumber ∧
      (⟨a.line.val + UInt32.ofNat (i * wordSize)⟩ : Addr).word = i := by
  have hi := i.isLt
  have hv := a.toNat_word i
  rw [a.toNat_line] at hv
  simp only [lineSize, wordSize, lineWords] at hi hv
  refine ⟨?_, Fin.ext ?_⟩
  · rw [lineNumber, lineSize, wordSize, hv]
    omega
  · show (a.line.val + UInt32.ofNat (i * wordSize)).toNat % lineSize / wordSize = i
    rw [lineSize, wordSize, hv]
    omega

namespace Memory

theorem readBlock_congr (m : Memory) {a b : Addr} (h : a.line = b.line) :
    m.readBlock a = m.readBlock b := by
  simp only [readBlock, Store.readBlock, h]

theorem readBlock_idle (spec : Spec) (a : Addr) : (idle spec).readBlock a = Block.zero := by
  refine Vector.ext fun i hi => ?_
  simp [readBlock, idle, Store.readBlock, Store.readWord, Store.zeros, Block.zero]

/-- A line has a place in memory. -/
def lands (m : Memory) (a : Addr) : Bool := a.line.wordNumber + lineWords ≤ m.store.capacity

theorem readBlock_writeBlock? {s s' : Store} {a : Addr} {d : Block}
    (h : s.writeBlock? a d = some s') (b : Addr) :
    s'.readBlock b = if b.line = a.line then d else s.readBlock b := by
  refine Vector.ext fun i hi => ?_
  have hw := Addr.word_of_line b ⟨i, hi⟩
  rw [Store.readBlock, Vector.getElem_ofFn, Store.readWord_writeBlock? h]
  simp only [Addr.line_eq_line_iff, hw.1]
  split_ifs
  · exact congrArg (fun j : Fin lineWords => d[j]) hw.2
  · rw [Store.readBlock, Vector.getElem_ofFn]

theorem writeBlock_eq (m : Memory) (a : Addr) (d : Block) : m.writeBlock a d =
    if m.lands a then { m with store := { m.store with
      written := Store.putBlock m.store.written a.line.wordNumber d } }
    else { m with stats := { m.stats with droppedWrites := m.stats.droppedWrites + 1 } } := by
  simp only [writeBlock, Store.writeBlock?, lands, decide_eq_true_eq]
  split_ifs <;> rfl

theorem capacity_writeBlock (m : Memory) (a : Addr) (d : Block) :
    (m.writeBlock a d).store.capacity = m.store.capacity := by
  rw [writeBlock_eq]
  split_ifs <;> rfl

theorem stats_writeBlock (m : Memory) (a : Addr) (d : Block) : (m.writeBlock a d).stats =
    { m.stats with droppedWrites := m.stats.droppedWrites + if !m.lands a then 1 else 0 } := by
  rw [writeBlock_eq]
  cases m.lands a <;> rfl

/-- **What the lines are once one was written.** -/
theorem readBlock_writeBlock (m : Memory) (a b : Addr) (d : Block) :
    (m.writeBlock a d).readBlock b =
      if m.lands a ∧ b.line = a.line then d else m.readBlock b := by
  rw [writeBlock_eq]
  by_cases hl : m.lands a
  · have hs : m.store.writeBlock? a d = some { m.store with
        written := Store.putBlock m.store.written a.line.wordNumber d } :=
      if_pos (of_decide_eq_true hl)
    simp only [hl, true_and]
    exact readBlock_writeBlock? hs b
  · simp only [hl]
    rfl

/-- **What the lines are once a request was served.** -/
theorem readBlock_served (m : Memory) (t : Transfer) (b : Addr) : (m.served t).readBlock b =
    if t.func = .write ∧ m.lands t.addr ∧ b.line = t.addr.line then t.data.getD (m.readBlock b)
    else m.readBlock b := by
  unfold served
  by_cases hf : t.func = .write
  · rw [if_pos hf]
    cases hd : t.data with
    | none =>
      simp only [Option.getD_none, ite_self]
      rfl
    | some d =>
      simp only [hf, true_and, Option.getD_some]
      exact m.readBlock_writeBlock t.addr b d
  · rw [if_neg hf, if_neg fun hx => hf hx.1]
    rfl

theorem capacity_served (m : Memory) (t : Transfer) :
    (m.served t).store.capacity = m.store.capacity := by
  unfold served
  split_ifs
  · cases t.data with
    | none => rfl
    | some d => exact m.capacity_writeBlock t.addr d
  · rfl

/-! ## Requests -/

/-- The requests that were not answered, in order. -/
def pending (m : Memory) : List Transfer :=
  match m.service with
  | .idle => m.queue
  | .busy t _ | .responding t _ => t :: m.queue

/-- The data that was taken out for the first of them. -/
def captured (m : Memory) : Option Block :=
  match m.service with
  | .idle | .busy _ _ => none
  | .responding _ d => d

/-- The data that a read is answered with. -/
def reply (m : Memory) (t : Transfer) : Block := m.captured.getD (m.readBlock t.addr)

theorem service_served (m : Memory) (t : Transfer) :
    (m.served t).service = .idle ∧ (m.served t).queue = m.queue ∧ (m.served t).spec = m.spec := by
  unfold served
  split_ifs
  · cases t.data with
    | none => exact ⟨rfl, rfl, rfl⟩
    | some d =>
      dsimp only
      unfold writeBlock
      cases m.store.writeBlock? t.addr d <;> exact ⟨rfl, rfl, rfl⟩
  · exact ⟨rfl, rfl, rfl⟩

theorem pending_served (m : Memory) (t : Transfer) : (m.served t).pending = m.queue := by
  obtain ⟨hservice, hqueue, -⟩ := m.service_served t
  simp only [pending, hservice, hqueue]

theorem pending_enqueue (m : Memory) (t : Transfer) :
    (m.enqueue t).2.pending = m.pending ++ [t] := by
  simp only [enqueue, pending]
  cases m.service <;> rfl

theorem snoop_eq (m : Memory) (bus : Bus) :
    (m.snoop bus).2.pending = m.pending ++ bus.memoryRequest.toList ∧
      (m.snoop bus).2.captured = m.captured ∧ (m.snoop bus).2.store = m.store ∧
      (m.snoop bus).2.spec = m.spec ∧ (m.snoop bus).2.service = m.service := by
  unfold snoop
  cases bus.memoryRequest with
  | none => simp
  | some t => exact ⟨m.pending_enqueue t, rfl, rfl, rfl, rfl⟩

/-- Memory is to answer a request with some data by now. -/
def Owes (m : Memory) (now : Nat) (t : Transfer) (d : Option Block) : Prop :=
  (∃ ready, m.service = .busy t ready ∧ ready ≤ now ∧ d = m.answerData t) ∨
    m.service = .responding t d

section Owes

variable {m : Memory} {now : Nat} {t : Transfer} {d : Option Block}

theorem pending_eq_of_owes (h : m.Owes now t d) : m.pending = t :: m.queue := by
  obtain ⟨ready, hs, -⟩ | hs := h
  · simp only [pending, hs]
  · simp only [pending, hs]

theorem Owes.length_pending (h : m.Owes now t d) :
    (m.served t).pending.length + 1 = m.pending.length := by
  rw [pending_served, pending_eq_of_owes h, List.length_cons]

theorem Owes.pending_responding (h : m.Owes now t d) :
    ({ m with service := .responding t d } : Memory).pending = m.pending :=
  (pending_eq_of_owes h).symm

theorem pending_busy {rest : List Transfer} {ready : Nat} (hs : m.service = .idle)
    (hq : m.queue = t :: rest) :
    ({ m with queue := rest, cold := false, service := .busy t ready } : Memory).pending =
      m.pending := by
  simp only [pending, hs, hq]

end Owes

/-! ## Turns -/

/-- **What memory does in a turn.** -/
inductive Deed (m : Memory) (bus : Bus) (now : Nat) : Next × Memory × Bus → Prop
  /-- It has nothing to serve and falls asleep. -/
  | drain (hs : m.service = .idle) (hq : m.queue = []) :
      Deed m bus now (.park, { m with cold := true, parked := true }, bus)
  /-- It starts to serve its first request. -/
  | begin {t : Transfer} {rest : List Transfer} {ready : Nat} (hs : m.service = .idle)
      (hq : m.queue = t :: rest) (hr : ready = now + m.spec.latency m.cold)
      (hl : ready < UInt64.size) :
      Deed m bus now (.after (m.spec.latency m.cold),
        { m with queue := rest, cold := false, service := .busy t ready }, bus)
  /-- It is still busy. -/
  | early {t : Transfer} {ready : Nat} (hs : m.service = .busy t ready) (hr : now < ready) :
      Deed m bus now (.after (ready - now), m, bus)
  /-- It answers. -/
  | answer {t : Transfer} {d : Option Block} (ho : m.Owes now t d)
      (hf : bus.forwardIntended = false) (hb : bus.current = none) :
      Deed m bus now (.after 1, m.served t,
        { bus.drive ⟨t.requester, .memory, t.addr.line, .response, d⟩ with
          responseIntended := false })
  /-- It is turned away from the bus. -/
  | retry {t : Transfer} {d : Option Block} (ho : m.Owes now t d)
      (hg : ¬ (bus.forwardIntended = false ∧ bus.current = none)) :
      Deed m bus now (.after 1, { m with service := .responding t d },
        { bus.reject with responseIntended := true })

theorem deed_respond {m : Memory} {now : Nat} {t : Transfer} {d : Option Block}
    (ho : m.Owes now t d) (bus : Bus) : m.Deed bus now (m.respond bus t d) := by
  unfold respond
  rw [Bus.memoryResponse_eq]
  by_cases hg : bus.forwardIntended = false ∧ bus.current = none
  · simp only [if_pos hg]
    exact .answer ho hg.1 hg.2
  · simp only [if_neg hg, Bool.false_eq_true, if_false]
    exact .retry ho hg

/-- **Every turn of memory** is one of its deeds, or overflows. -/
theorem yields_tick (m : Memory) (bus : Bus) (now : Nat) :
    Yields (m.tick bus now) (m.Deed bus now) := by
  cases hs : m.service with
  | idle =>
    cases hq : m.queue with
    | nil =>
      have ht : m.tick bus now = .ok (.park, { m with cold := true, parked := true }, bus) := by
        simp only [tick, hs, hq]
      rw [ht]
      exact Deed.drain hs hq
    | cons t rest =>
      simp only [tick, hs, hq]
      exact (yields_sum64 now _).bind fun ready _ ⟨hr, hl⟩ => Deed.begin hs hq hr hl
  | busy t ready =>
    simp only [tick, hs]
    split_ifs with hr
    · exact Deed.early hs hr
    · exact deed_respond (.inl ⟨ready, hs, Nat.le_of_not_lt hr, rfl⟩) bus
  | responding t d =>
    simp only [tick, hs]
    exact deed_respond (.inr hs) bus

/-! ## What others see of a turn -/

/-- The same requests wait for the same answers. -/
structure SameService (m m' : Memory) : Prop where
  pending : m'.pending = m.pending
  captured : m'.captured = m.captured
  store : m'.store = m.store

/-- Data was taken out for a read and for nothing else, and service takes its time. -/
structure Sound (m : Memory) : Prop where
  captures : ∀ t d, m.service = .responding t d → (d.isSome ↔ t.func = .read)
  latency : ∀ cold, 0 < m.spec.latency cold

theorem isSome_of_owes {m : Memory} (h : m.Sound) {now : Nat} {t : Transfer} {d : Option Block}
    (ho : m.Owes now t d) : d.isSome ↔ t.func = .read := by
  obtain ⟨ready, -, -, rfl⟩ | hs := ho
  · unfold answerData
    split_ifs with hf <;> simp [hf]
  · exact h.captures t d hs

theorem Sound.eq_reply {m : Memory} (h : m.Sound) {now : Nat} {t : Transfer} {d : Option Block}
    (ho : m.Owes now t d) : d = if t.func = .read then some (m.reply t) else none := by
  have hd := isSome_of_owes h ho
  obtain ⟨ready, hs, -, rfl⟩ | hs := ho
  · simp only [answerData, reply, captured, hs, Option.getD_none]
  · split_ifs with hf
    · obtain ⟨b, rfl⟩ := Option.isSome_iff_exists.mp (hd.mpr hf)
      simp only [reply, captured, hs, Option.getD_some]
    · exact Option.not_isSome_iff_eq_none.mp fun hx => hf (hd.mp hx)

/-- **The turns of memory**: it waits, takes data out, or answers the first request. -/
inductive Work (m : Memory) (bus : Bus) : Memory → Bus → Prop
  | wait {m' : Memory} {bus' : Bus} (hs : m.SameService m') (hb : bus'.current = bus.current) :
      Work m bus m' bus'
  | capture {m' : Memory} {bus' : Bus} {t : Transfer} {rest : List Transfer}
      (hp : m.pending = t :: rest) (hf : t.func = .read) (hp' : m'.pending = m.pending)
      (hc : m'.captured = some (m.reply t)) (hs : m'.store = m.store)
      (hb : bus'.current = bus.current) : Work m bus m' bus'
  | answer {m' : Memory} {bus' : Bus} {t : Transfer} {rest : List Transfer}
      (hb : bus.current = none) (hp : m.pending = t :: rest) (hp' : m'.pending = rest)
      (hc : m'.captured = none) (hs : m'.store = (m.served t).store)
      (hb' : bus'.current = some ⟨t.requester, .memory, t.addr.line, .response,
        if t.func = .read then some (m.reply t) else none⟩) : Work m bus m' bus'

/-- **A turn of memory.** -/
theorem tick_cases {m m' : Memory} {bus bus' : Bus} {now : Nat} {next : Next} (h : m.Sound)
    (ht : m.tick bus now = .ok (next, m', bus')) :
    Work m bus m' bus' ∧ m'.Sound ∧ m'.spec = m.spec ∧ bus.SameBand bus' ∧
      ∀ d, next = .after d → 0 < d := by
  cases (m.yields_tick bus now).of_eq_ok ht with
  | drain hs hq =>
    refine ⟨.wait ⟨rfl, rfl, rfl⟩ rfl, ⟨fun t d hx => ?_, h.latency⟩, rfl, .refl bus, nofun⟩
    exact h.captures t d hx
  | begin hs hq hr hl =>
    refine ⟨.wait ⟨pending_busy hs hq, ?_, rfl⟩ rfl, ⟨nofun, h.latency⟩, rfl, .refl bus,
      fun d hd => ?_⟩
    · simp only [captured, hs]
    · cases hd
      exact h.latency m.cold
  | early hs hr =>
    refine ⟨.wait ⟨rfl, rfl, rfl⟩ rfl, h, rfl, .refl bus, fun d hd => ?_⟩
    cases hd
    omega
  | @answer t d ho hf hb =>
    obtain ⟨hs, -, hx⟩ := m.service_served t
    refine ⟨.answer hb (pending_eq_of_owes ho) (pending_served m t) ?_ rfl
      (h.eq_reply ho ▸ rfl), ⟨fun u e hu => ?_, hx ▸ h.latency⟩, hx, ⟨rfl, rfl⟩, fun d hd => ?_⟩
    · simp only [captured, hs]
    · rw [hs] at hu
      cases hu
    · cases hd
      decide
  | @retry t d ho hg =>
    have hd := h.eq_reply ho
    refine ⟨?_, ⟨fun u e hu => ?_, h.latency⟩, rfl, ⟨rfl, rfl⟩, fun d hd => ?_⟩
    · by_cases hf : t.func = .read
      · exact .capture (pending_eq_of_owes ho) hf ho.pending_responding (hd.trans (if_pos hf)) rfl
          rfl
      · refine .wait ⟨ho.pending_responding, ?_, rfl⟩ rfl
        rw [if_neg hf] at hd
        obtain ⟨ready, hs, -⟩ | hs := ho
        · simp only [captured, hs, hd]
        · simp only [captured, hs]
    · cases hu
      exact isSome_of_owes h ho
    · cases hd
      decide

end Memory

end Snooping
