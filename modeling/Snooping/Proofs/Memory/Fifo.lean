import Snooping.Proofs.Bench
import Snooping.Proofs.Memory

/-!
# Memory as a queue

Memory answers its requests one by one, in the order in which it has taken them and however often
the bus turns it away. A read is answered with the line as all writes before it have left it, and a
write lands with its answer.

* **`Spec.contents`**, **`Spec.responseTo`**: what some writes leave, and the answer to a request.
* `Memory.Act`, `Memory.act`, `Memory.Usual`: the calls.
* `Memory.requests`, `Memory.responses`: what memory was asked, and what it has answered.
* **`Memory.Fifo`**: memory has answered in order.
* `Memory.Answered`, `Memory.InOrder`: the answers so far, and the state that goes with them;
  `Memory.InOrder.answer`: one more answer.
* **`Memory.answers_in_order`**: it does so whatever the calls.
-/

namespace Snooping

/-- A read, or a write with its data. -/
def Transfer.ForMemory (t : Transfer) : Prop := t.func = .read ∨ t.func = .write ∧ t.data.isSome

instance (t : Transfer) : Decidable t.ForMemory := inferInstanceAs (Decidable (_ ∨ _))

/-- A write that is driven carries its data. -/
def Bus.Laden (b : Bus) : Prop := ∀ t, b.current = some t → t.func = .write → t.data.isSome

theorem Bus.Laden.perform {b : Bus} (h : b.Laden) (op : Bus.Op) : (b.perform op).2.Laden := by
  intro t ht hf
  by_cases hc : b.current = none
  · exact (Bus.driven_perform hc ht).2 hf
  · cases hop : op.isBegin with
    | true =>
      cases op <;> cases hop
      cases ht
    | false => exact h t (Bus.current_perform hop hc ▸ ht) hf

theorem Bus.Laden.forMemory {b : Bus} (h : b.Laden) {t : Transfer}
    (ht : b.memoryRequest = some t) : t.ForMemory := by
  obtain ⟨hc, hp⟩ := Option.filter_eq_some_iff.mp ht
  simp only [Bool.or_eq_true, Bool.and_eq_true, decide_eq_true_eq] at hp
  obtain hf | hf := hp
  · exact .inr ⟨hf, h t hc hf⟩
  · exact .inl hf.1

namespace Spec

/-- An address lies in main memory. -/
def covers (s : Spec) (a : Addr) : Bool := a.val < s.memorySize

/-- **The line at an address** once some requests were served, by memory full of zeros at first. -/
def contents (s : Spec) (l : List Transfer) (a : Addr) : Block :=
  l.foldl (fun d t =>
    if t.func = .write ∧ s.covers t.addr ∧ a.line = t.addr.line then t.data.getD d else d)
    Block.zero

/-- **The response to a request** that was taken after some others. -/
def responseTo (s : Spec) (before : List Transfer) (t : Transfer) : Transfer where
  requester := t.requester
  source := .memory
  addr := t.addr.line
  func := .response
  data := if t.func = .read then some (s.contents before t.addr) else none

/-- A write beyond the end of memory. -/
def drops (s : Spec) (t : Transfer) : Bool := t.func = .write && !s.covers t.addr

theorem contents_concat (s : Spec) (l : List Transfer) (t : Transfer) (a : Addr) :
    s.contents (l ++ [t]) a =
      if t.func = .write ∧ s.covers t.addr ∧ a.line = t.addr.line then t.data.getD (s.contents l a)
      else s.contents l a := by
  rw [contents, List.foldl_append]
  rfl

end Spec

namespace Memory

/-! ## Calls -/

/-- The calls of memory. -/
inductive Act
  | enqueue (t : Transfer)
  | snoop
  | tick (now : Nat)
  deriving DecidableEq

/-- Makes a call. -/
def act : Act → Memory → Bus → Except Fault (Memory × Bus)
  | .enqueue t, m, bus => .ok ((m.enqueue t).2, bus)
  | .snoop, m, bus => .ok ((m.snoop bus).2, bus)
  | .tick now, m, bus => (m.tick bus now).map Prod.snd

/-- The requests that are handed in are for memory, and nobody else answers as memory. -/
def Usual : Bench.Call Act → Prop
  | .own (.enqueue t) => t.ForMemory
  | .own .snoop | .own (.tick _) => True
  | .other op => op.tier? ≠ some .memory

instance : DecidablePred Usual
  | .own (.enqueue t) => inferInstanceAs (Decidable t.ForMemory)
  | .own .snoop | .own (.tick _) => inferInstanceAs (Decidable True)
  | .other op => inferInstanceAs (Decidable (op.tier? ≠ some .memory))

/-- The request that memory takes in a call. -/
def request? (e : Bench Memory × Bench.Call Act) : Option Transfer :=
  match e.2 with
  | .own (.enqueue t) => some t
  | .own .snoop => e.1.bus.memoryRequest
  | .own (.tick _) | .other _ => none

/-- The response that a call has put on the bus. -/
def response? (e : Bench Memory × Bench.Call Act) : Option Transfer :=
  (Bench.driven? act e).filter (·.source = .memory)

/-- What memory was asked, in order. -/
def requests (l : List (Bench Memory × Bench.Call Act)) : List Transfer := l.filterMap request?

/-- What was answered as memory, in order. -/
def responses (l : List (Bench Memory × Bench.Call Act)) : List Transfer := l.filterMap response?

theorem filterMap_concat {α β : Type} (f : α → Option β) (l : List α) (e : α) :
    (l ++ [e]).filterMap f = l.filterMap f ++ (f e).toList := by
  rw [List.filterMap_append]
  cases h : f e <;> simp [h]

/-! ## Answers in order -/

/-- The number of requests in service. -/
def inService (m : Memory) : Nat := if m.service = .idle then 0 else 1

/-- **Memory has answered in order** some of the requests that it was asked. -/
structure Fifo (s : Spec) (asked answered : List Transfer) (m : Memory) : Prop where
  /-- The responses are those to the first requests. -/
  response : ∀ k (hk : k < answered.length), ∃ t, asked[k]? = some t ∧
    answered[k] = s.responseTo (asked.take k) t
  /-- The writes among those requests have landed, and no others. -/
  line : ∀ a, m.readBlock a = s.contents (asked.take answered.length) a
  reads : m.stats.reads = (asked.take answered.length).countP (·.func = .read)
  writes : m.stats.writes = (asked.take answered.length).countP (·.func = .write)
  dropped : m.stats.droppedWrites = (asked.take answered.length).countP s.drops
  served : m.stats.reads + m.stats.writes = answered.length
  /-- All other requests are still there. -/
  rest : answered.length + m.inService + m.queue.length = asked.length

/-- The responses to some requests. -/
structure Answered (s : Spec) (done answers : List Transfer) : Prop where
  length : answers.length = done.length
  response : ∀ k (hk : k < answers.length), ∃ t, done[k]? = some t ∧
    answers[k] = s.responseTo (done.take k) t

theorem Answered.concat {s : Spec} {done answers : List Transfer} (h : Answered s done answers)
    (t : Transfer) : Answered s (done ++ [t]) (answers ++ [s.responseTo done t]) := by
  refine ⟨by simp [h.length], fun k hk => ?_⟩
  rw [List.length_append, List.length_singleton, h.length] at hk
  by_cases hlt : k < done.length
  · have hk' : k < answers.length := h.length ▸ hlt
    obtain ⟨u, hu, ha⟩ := h.response k hk'
    refine ⟨u, (List.getElem?_append_left hlt).trans hu, ?_⟩
    rw [List.getElem_append_left hk', List.take_append_of_le_length hlt.le]
    exact ha
  · obtain rfl : k = done.length := by omega
    refine ⟨t, List.getElem?_concat_length, ?_⟩
    rw [List.getElem_concat_length h.length.symm, List.take_left' rfl]

/-- **Memory has served some requests**, and what it still has to answer is for memory. -/
structure InOrder (s : Spec) (done : List Transfer) (m : Memory) : Prop where
  capacity : m.store.capacity = s.memoryWords
  captured : ∀ t d, m.service = .responding t d → d = (s.responseTo done t).data
  line : ∀ a, m.readBlock a = s.contents done a
  stats : m.stats = ⟨done.countP (·.func = .read), done.countP (·.func = .write),
    done.countP s.drops⟩
  usual : ∀ t ∈ done ++ m.pending, t.ForMemory

section Serve

variable {s : Spec} {done : List Transfer} {m m' : Memory} {now : Nat} {t : Transfer}
  {d : Option Block}

theorem inOrder_idle (s : Spec) : (idle s).InOrder s [] where
  capacity := rfl
  captured _ _ h := nomatch h
  line := readBlock_idle s
  stats := rfl
  usual := nofun

theorem lands_eq_covers (hs : s.memorySize.toNat % lineSize = 0)
    (hc : m.store.capacity = s.memoryWords) (a : Addr) : m.lands a = s.covers a := by
  refine decide_eq_decide.mpr ?_
  rw [hc, Store.wordNumber_line, UInt32.lt_iff_toNat_lt]
  simp only [Addr.lineNumber, Spec.memoryWords, lineSize, lineWords, wordSize] at hs ⊢
  omega

theorem stats_served (h : t.ForMemory) : (m.served t).stats =
    ⟨m.stats.reads + if t.func = .read then 1 else 0,
      m.stats.writes + if t.func = .write then 1 else 0,
      m.stats.droppedWrites + if t.func = .write && !m.lands t.addr then 1 else 0⟩ := by
  obtain hf | ⟨hf, hd⟩ := h
  · simp [served, hf]
  · obtain ⟨b, hb⟩ := Option.isSome_iff_exists.mp hd
    have hx : (m.served t).stats = { (m.writeBlock t.addr b).stats with
        writes := (m.writeBlock t.addr b).stats.writes + 1 } := by
      simp only [served, hf, if_true, hb]
    rw [hx, stats_writeBlock]
    simp [hf]

theorem InOrder.owes (h : m.InOrder s done) (ho : m.Owes now t d) :
    d = (s.responseTo done t).data := by
  obtain ⟨ready, -, -, hd⟩ | hr := ho
  · rw [hd, answerData, h.line]
    rfl
  · exact h.captured t d hr

/-- **One more answer**: the first request counts as served. -/
theorem InOrder.answer (hs : s.memorySize.toNat % lineSize = 0) (h : m.InOrder s done)
    (ho : m.Owes now t d) : (m.served t).InOrder s (done ++ [t]) := by
  have hp : m.pending = t :: m.queue := pending_eq_of_owes ho
  have ht : t.ForMemory := h.usual t (by simp [hp])
  have hl : m.lands t.addr = s.covers t.addr := lands_eq_covers hs h.capacity t.addr
  have hidle := (m.service_served t).1
  refine ⟨(m.capacity_served t).trans h.capacity, fun u e hu => ?_, fun a => ?_, ?_, ?_⟩
  · rw [hidle] at hu
    cases hu
  · rw [readBlock_served, s.contents_concat, hl, h.line]
  · rw [stats_served ht, h.stats, hl]
    simp only [List.countP_append, List.countP_singleton, decide_eq_true_eq]
    rfl
  · rw [pending_served, List.append_assoc, List.singleton_append, ← hp]
    exact h.usual

theorem InOrder.enqueue (h : m.InOrder s done) (ht : t.ForMemory) :
    (m.enqueue t).2.InOrder s done := by
  refine ⟨h.capacity, h.captured, h.line, h.stats, fun u hu => ?_⟩
  rw [pending_enqueue, ← List.append_assoc] at hu
  obtain hu | hu := List.mem_append.mp hu
  · exact h.usual u hu
  · rw [List.mem_singleton.mp hu]
    exact ht

/-- **The requests are accounted for**: some were answered in order, and the others are pending. -/
def Accounts (s : Spec) (asked answered : List Transfer) (m : Memory) : Prop :=
  ∃ done, asked = done ++ m.pending ∧ Answered s done answered ∧ m.InOrder s done

theorem Accounts.enqueue {asked answered : List Transfer} (h : m.Accounts s asked answered)
    (ht : t.ForMemory) : (m.enqueue t).2.Accounts s (asked ++ [t]) answered := by
  obtain ⟨done, hasked, hanswered, horder⟩ := h
  refine ⟨done, ?_, hanswered, horder.enqueue ht⟩
  rw [pending_enqueue, hasked, List.append_assoc]

/-- **A turn of memory** answers its first request, or leaves all requests where they are. -/
theorem Accounts.tick (hs : s.memorySize.toNat % lineSize = 0) {asked answered : List Transfer}
    (h : m.Accounts s asked answered) {bus bus' : Bus} {next : Next}
    (hd : m.Deed bus now (next, m', bus')) :
    (m'.Accounts s asked answered ∧ bus'.current = bus.current) ∨
      ∃ t, m'.Accounts s asked (answered ++ [t]) ∧ bus.current = none ∧ bus'.current = some t ∧
        t.source = .memory ∧ t.func = .response := by
  obtain ⟨done, hasked, hanswered, horder⟩ := h
  cases hd with
  | drain hi hq =>
    exact .inl ⟨⟨done, hasked, hanswered, ⟨horder.capacity, horder.captured, horder.line,
      horder.stats, horder.usual⟩⟩, rfl⟩
  | @begin t rest ready hi hq hr hl =>
    have hp : ({ m with queue := rest, cold := false, service := .busy t ready } :
        Memory).pending = m.pending := pending_busy hi hq
    refine .inl ⟨⟨done, hp.symm ▸ hasked, hanswered, ⟨horder.capacity, nofun, horder.line,
      horder.stats, hp.symm ▸ horder.usual⟩⟩, rfl⟩
  | early hb hr => exact .inl ⟨⟨done, hasked, hanswered, horder⟩, rfl⟩
  | @answer t d ho hf hb =>
    have he := horder.owes ho
    subst he
    refine .inr ⟨s.responseTo done t, ⟨done ++ [t], ?_, hanswered.concat t, horder.answer hs ho⟩,
      hb, rfl, rfl, rfl⟩
    rw [pending_served, hasked, pending_eq_of_owes ho, List.append_assoc, List.singleton_append]
  | @retry t d ho hg =>
    have hp := ho.pending_responding
    refine .inl ⟨⟨done, hp.symm ▸ hasked, hanswered, ⟨horder.capacity, fun u e hu => ?_,
      horder.line, horder.stats, hp.symm ▸ horder.usual⟩⟩, rfl⟩
    cases hu
    exact horder.owes ho

theorem Accounts.fifo {asked answered : List Transfer} (h : m.Accounts s asked answered) :
    m.Fifo s asked answered := by
  obtain ⟨done, rfl, hanswered, horder⟩ := h
  have hlen := hanswered.length
  have htake : (done ++ m.pending).take answered.length = done := List.take_left' hlen.symm
  refine ⟨fun k hk => ?_, fun a => ?_, ?_, ?_, ?_, ?_, ?_⟩
  · obtain ⟨t, ht, ha⟩ := hanswered.response k hk
    refine ⟨t, (List.getElem?_append_left (hlen ▸ hk)).trans ht, ?_⟩
    rw [List.take_append_of_le_length (hlen ▸ hk.le)]
    exact ha
  · rw [htake, horder.line]
  · rw [htake, horder.stats]
  · rw [htake, horder.stats]
  · rw [htake, horder.stats]
  · -- Every served request is a read or a write, and none is both.
    have hone : ∀ t ∈ done, t.func ≠ .read ↔ t.func = .write := fun t ht => by
      obtain hf | ⟨hf, -⟩ := horder.usual t (List.mem_append_left _ ht) <;> simp [hf]
    rw [horder.stats, hlen, List.length_eq_countP_add_countP (fun t => t.func = .read)]
    congr 1
    refine List.countP_congr fun t ht => ?_
    simp [← hone t ht]
  · rw [hlen, List.length_append, inService, pending]
    cases m.service <;> simp
    · omega
    · omega

end Serve

/-! ## Histories -/

section History

variable {b b' : Bench Memory} {x : Bench.Call Act} {t : Transfer}

theorem exists_tick {m m' : Memory} {bus bus' : Bus} {now : Nat}
    (h : act (.tick now) m bus = .ok (m', bus')) :
    ∃ next, m.tick bus now = .ok (next, m', bus') := by
  obtain ⟨y, hy, he⟩ := map_eq_ok.mp h
  exact ⟨y.1, hy.trans (congrArg Except.ok (Prod.ext rfl he))⟩

theorem response?_eq_none (h : Bench.play act b x = .ok b')
    (hn : ∀ t, b.bus.current = none → b'.bus.current = some t → t.source ≠ .memory) :
    response? (b, x) = none := by
  rw [response?, Bench.driven?_of_play h, Option.filter_eq_none_iff]
  intro t ht hs
  split_ifs at ht with hc
  exact hn t hc ht (of_decide_eq_true hs)

theorem response?_of_current_eq (h : Bench.play act b x = .ok b')
    (hc : b'.bus.current = b.bus.current) : response? (b, x) = none :=
  response?_eq_none h fun _ hn ht => by cases hn.symm.trans (hc.symm.trans ht)

theorem response?_eq_some (h : Bench.play act b x = .ok b') (hc : b.bus.current = none)
    (ht : b'.bus.current = some t) (hs : t.source = .memory) : response? (b, x) = some t := by
  rw [response?, Bench.driven?_of_play h, if_pos hc, ht]
  exact Option.filter_eq_some_iff.mpr ⟨rfl, decide_eq_true hs⟩

/-- **What one call keeps.** -/
theorem accounts_call {s : Spec} (hs : s.memorySize.toNat % lineSize = 0)
    {asked answered : List Transfer} (hb : b.bus.Laden) (h : b.part.Accounts s asked answered)
    (hx : Bench.play act b x = .ok b') (hu : Usual x) :
    b'.bus.Laden ∧ b'.part.Accounts s (asked ++ (request? (b, x)).toList)
      (answered ++ (response? (b, x)).toList) := by
  cases x with
  | other op =>
    have hnone : response? (b, .other op) = none := by
      refine response?_eq_none hx fun t hc ht hm => hu ?_
      cases hx
      exact (Bus.driven_perform hc ht).1 hm
    cases hx
    rw [hnone]
    simp only [request?, Option.toList_none, List.append_nil]
    exact ⟨hb.perform op, h⟩
  | own y =>
    have hy := Bench.play_own hx
    cases y with
    | enqueue t =>
      obtain ⟨hp, hbus⟩ := Prod.mk.inj (Except.ok.inj hy)
      rw [response?_of_current_eq hx (by rw [← hbus]), ← hp, ← hbus]
      simp only [request?, Option.toList_some, Option.toList_none, List.append_nil]
      exact ⟨hb, h.enqueue hu⟩
    | snoop =>
      obtain ⟨hp, hbus⟩ := Prod.mk.inj (Except.ok.inj hy)
      rw [response?_of_current_eq hx (by rw [← hbus]), ← hp, ← hbus]
      simp only [request?, snoop, Option.toList_none, List.append_nil]
      refine ⟨hb, ?_⟩
      cases hm : b.bus.memoryRequest with
      | none => simpa using h
      | some t => exact h.enqueue (hb.forMemory hm)
    | tick now =>
      obtain ⟨next, ht⟩ := exists_tick hy
      have hd := (b.part.yields_tick b.bus now).of_eq_ok ht
      simp only [request?, Option.toList_none, List.append_nil]
      obtain ⟨ha, hc⟩ | ⟨t, ha, hn, hc, hm, hf⟩ := h.tick hs hd
      · rw [response?_of_current_eq hx hc, Option.toList_none, List.append_nil]
        exact ⟨fun t ht hw => hb t (hc ▸ ht) hw, ha⟩
      · rw [response?_eq_some hx hn hc hm, Option.toList_some]
        refine ⟨fun u hu hw => ?_, ha⟩
        cases hc.symm.trans hu
        cases hf.symm.trans hw

/-- **Memory answers in order**, whoever uses the bus and whenever memory has its turns. It breaks
no contract but the range of numbers. -/
theorem answers_in_order {s : Spec} (hs : s.memorySize.toNat % lineSize = 0) {recording : Bool}
    {l : List (Bench Memory × Bench.Call Act)}
    (h : History (Bench.play act) ⟨idle s, .idle recording⟩ l b) (hl : ∀ e ∈ l, Usual e.2) :
    b.part.Fifo s (requests l) (responses l) ∧
      ∀ x f, Bench.play act b x = .error f → f = .overflow := by
  have hrun : b.bus.Laden ∧ b.part.Accounts s (requests l) (responses l) := by
    induction h with
    | start => exact ⟨nofun, [], rfl, ⟨rfl, nofun⟩, inOrder_idle s⟩
    | @call l b b' x h hx ih =>
      obtain ⟨hb, ha⟩ := ih fun e he => hl e (List.mem_append_left _ he)
      rw [requests, responses, filterMap_concat, filterMap_concat]
      exact accounts_call hs hb ha hx (hl (b, x) (List.mem_append_right _ List.mem_cons_self))
  refine ⟨hrun.2.fifo, fun x f hx => ?_⟩
  cases x with
  | other op => cases hx
  | own y =>
    cases y with
    | enqueue t => cases hx
    | snoop => cases hx
    | tick now =>
      cases ht : b.part.tick b.bus now with
      | error e =>
        have he : Bench.play act b (.own (.tick now)) = .error e := by
          simp only [Bench.play, act, ht]
          rfl
        cases he.symm.trans hx
        exact (b.part.yields_tick b.bus now).eq_overflow ht
      | ok y =>
        simp only [Bench.play, act, ht] at hx
        cases hx

/-- A write is turned away once before it lands, and a read that was on the bus meanwhile
follows. -/
theorem answers_in_order_twice : ∃ l b, (32 : UInt32).toNat % lineSize = 0 ∧
    History (Bench.play act) ⟨idle { memorySize := 32 }, .idle false⟩ l b ∧
    (∀ e ∈ l, Usual e.2) ∧ (responses l).length = 2 ∧
    b.part.Fifo { memorySize := 32 } (requests l) (responses l) := by
  obtain ⟨l, b, h, hl, hn⟩ := exists_history (Bench.play act)
    ⟨idle { memorySize := 32 }, .idle false⟩
    [.own (.enqueue ⟨1, .cache 1, ⟨4⟩, .write, some (Vector.replicate 8 7)⟩), .own (.tick 0),
      .other (.begin 99), .other (.read 2 ⟨8⟩), .own .snoop, .own (.tick 99), .other (.begin 100),
      .own (.tick 100), .own (.tick 101), .other (.begin 111), .own (.tick 111)]
    (fun l _ => (∀ e ∈ l, Usual e.2) ∧ (responses l).length = 2) (by decide +kernel)
  exact ⟨l, b, rfl, h, hl, hn, (answers_in_order (s := { memorySize := 32 }) rfl h hl).1⟩

end History

end Memory

end Snooping
