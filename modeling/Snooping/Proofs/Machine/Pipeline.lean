import Snooping.Proofs.Machine.Service

/-!
# The timing of memory

Memory serves its requests in order. A request that finds memory busy takes the warm latency behind
the response before it, and one that finds memory idle takes the cold latency. When the latency is
over only forwarders can delay the response, cycle by cycle.

* `Machine.asks`, `Machine.replies`, `Machine.Forwards`: what a run has driven, with the cycles.
* **`Spec.readyAt`**, `Machine.dueAt`: when a request can be answered.
* `Memory.Stands`: what memory does about its first request.
* **`Machine.Pipelined`**: the timing so far; `Machine.Pipelined.cycle`: a cycle keeps it.
* **`Machine.memory_pipeline`**: the `k`-th response answers the `k`-th request, in the first cycle
  that it can.
-/

namespace Snooping

variable {g : Geometry} {n : Nat}

/-! ## When a request can be answered -/

/-- **The first cycle in which a request can be answered** that was driven in cycle `a`, by the
cycle of the response before it. -/
def Spec.readyAt (s : Spec) (a : Nat) : Option Nat → Nat
  | none => a + 1 + s.coldLatency.toNat
  | some r => if a < r then r + 1 + s.warmLatency.toNat else a + 1 + s.coldLatency.toNat

theorem Spec.readyAt_of_le (s : Spec) {a : Nat} {o : Option Nat} (h : ∀ r, o = some r → r ≤ a) :
    s.readyAt a o = a + 1 + s.latency true := by
  cases o with
  | none => rfl
  | some r => exact if_neg (Nat.not_lt_of_le (h r rfl))

/-- A transfer is the answer of memory to a request. -/
def Transfer.Answers (v u : Transfer) : Prop :=
  v.requester = u.requester ∧ v.source = .memory ∧ v.addr = u.addr.line ∧ v.func = .response ∧
    (v.data.isSome ↔ u.func = .read)

namespace Memory

/-- What memory does in cycle `t` about a request that can be answered in cycle `due`, if `F` are
the cycles in which a forwarder drives. -/
def Stands (m : Memory) (t due : Nat) (F : Nat → Prop) : Prop :=
  match m.service with
  | .idle => due = t + m.spec.latency m.cold
  | .busy _ ready => due = ready
  | .responding _ _ => due < t ∧ ∀ c, due ≤ c → c < t → F c

theorem service_of_pending {m : Memory} (h : m.pending = []) : m.service = .idle := by
  unfold pending at h
  split at h
  · assumption
  · cases h
  · cases h

theorem flags_served (m : Memory) (u : Transfer) :
    (m.served u).cold = m.cold ∧ (m.served u).parked = m.parked := by
  unfold served
  split_ifs
  · cases u.data with
    | none => exact ⟨rfl, rfl⟩
    | some d =>
      dsimp only
      unfold writeBlock
      cases m.store.writeBlock? u.addr d <;> exact ⟨rfl, rfl⟩
  · exact ⟨rfl, rfl⟩

theorem cold_snoop (m : Memory) (bus : Bus) : (m.snoop bus).2.cold = m.cold := by
  unfold snoop
  cases bus.memoryRequest <;> rfl

theorem stands_snoop {m : Memory} {bus : Bus} {t due : Nat} {F : Nat → Prop} :
    (m.snoop bus).2.Stands t due F ↔ m.Stands t due F := by
  obtain ⟨-, -, -, hspec, hservice⟩ := m.snoop_eq bus
  rw [Stands, Stands, hservice, hspec, cold_snoop]

theorem parked_of_snoop {m : Memory} {bus : Bus} (h : (m.snoop bus).2.parked) : m.parked := by
  unfold snoop at h
  cases hr : bus.memoryRequest <;> rw [hr] at h
  · exact h
  · cases h

end Memory

namespace Machine

/-! ## What a run has driven -/

section Lists

variable {α : Type} {l : List α} {o : Option α}

theorem getElem?_append_toList {k : Nat} {e : α} (h : (l ++ o.toList)[k]? = some e) :
    l[k]? = some e ∨ (k = l.length ∧ o = some e) := by
  by_cases hk : k < l.length
  · rw [List.getElem?_append_left hk] at h
    exact .inl h
  · rw [List.getElem?_append_right (Nat.le_of_not_lt hk)] at h
    cases o with
    | none => cases h
    | some x =>
      rw [Option.toList_some, List.getElem?_singleton] at h
      split_ifs at h with h0
      exact .inr ⟨by omega, h⟩

theorem before_append {l : List (Nat × α)} {t₀ t : Nat} (h : ∀ e ∈ l, e.1 < t₀) (ht : t₀ ≤ t)
    (o : Option α) : ∀ e ∈ l ++ (o.map (Prod.mk t)).toList, e.1 < t + 1 := by
  intro e he
  rw [List.mem_append, Option.mem_toList] at he
  obtain he | he := he
  · have := h e he
    omega
  · obtain ⟨x, -, rfl⟩ := Option.map_eq_some_iff.mp he
    exact Nat.lt_succ_self t

end Lists

/-- The requests to memory with their cycles. -/
def asks (xs : List (Machine g n)) : List (Nat × Transfer) :=
  xs.filterMap fun x => x.bus.memoryRequest.map (Prod.mk x.now)

/-- The responses of memory with their cycles. -/
def replies (xs : List (Machine g n)) : List (Nat × Transfer) :=
  xs.filterMap fun x => (x.bus.current.filter Transfer.isReply).map (Prod.mk x.now)

/-- A forwarder drives in cycle `c`. -/
def Forwards (xs : List (Machine g n)) (c : Nat) : Prop :=
  ∃ x ∈ xs, x.now = c ∧ ∃ w, x.bus.current = some w ∧ w.isForward

/-- The cycle of the response before the `k`-th one. -/
def previous (xs : List (Machine g n)) : Nat → Option Nat
  | 0 => none
  | k + 1 => (replies xs)[k]?.map Prod.fst

/-- **The first cycle in which the `k`-th request can be answered**, which was driven in
cycle `a`. -/
def dueAt (spec : Spec) (xs : List (Machine g n)) (k a : Nat) : Nat :=
  spec.readyAt a (previous xs k)

section Append

variable (xs : List (Machine g n)) (y : Machine g n)

theorem asks_append : asks (xs ++ [y]) =
    asks xs ++ (y.bus.memoryRequest.map (Prod.mk y.now)).toList := by
  rw [asks, List.filterMap_append]
  cases h : y.bus.memoryRequest <;> simp [asks, h]

theorem replies_append : replies (xs ++ [y]) =
    replies xs ++ ((y.bus.current.filter Transfer.isReply).map (Prod.mk y.now)).toList := by
  rw [replies, List.filterMap_append]
  cases h : y.bus.current.filter Transfer.isReply <;> simp [replies, h]

theorem replies_append_of_notReplied (h : Bus.NotReplied y.bus.current) :
    replies (xs ++ [y]) = replies xs := by
  have hnone : y.bus.current.filter Transfer.isReply = none := by
    cases hc : y.bus.current with
    | none => rfl
    | some w => simp [Option.filter, h w hc]
  rw [replies_append, hnone]
  exact List.append_nil _

variable {xs y}

theorem Forwards.append {c : Nat} (h : Forwards xs c) : Forwards (xs ++ [y]) c := by
  obtain ⟨x, hx, hc⟩ := h
  exact ⟨x, List.mem_append_left _ hx, hc⟩

theorem previous_append {k : Nat} (h : k ≤ (replies xs).length) :
    previous (xs ++ [y]) k = previous xs k := by
  cases k with
  | zero => rfl
  | succ k => rw [previous, previous, replies_append, List.getElem?_append_left h]

theorem exists_mem_of_previous {k r : Nat} (h : previous xs k = some r) :
    ∃ v, (r, v) ∈ replies xs := by
  cases k with
  | zero => cases h
  | succ k =>
    obtain ⟨e, he, rfl⟩ := Option.map_eq_some_iff.mp h
    exact ⟨e.2, List.mem_of_getElem? he⟩

theorem dueAt_append {spec : Spec} {k a : Nat} (h : k ≤ (replies xs).length) :
    dueAt spec (xs ++ [y]) k a = dueAt spec xs k a := by
  rw [dueAt, dueAt, previous_append h]

theorem dueAt_of_replied {spec : Spec} {k a : Nat} (h : ∀ e ∈ replies xs, e.1 ≤ a) :
    dueAt spec xs k a = a + 1 + spec.latency true := by
  refine spec.readyAt_of_le fun r hprevious => ?_
  obtain ⟨v, hv⟩ := exists_mem_of_previous hprevious
  exact h _ hv

end Append

/-! ## The timing so far -/

/-- **The timing of memory** before cycle `t`. -/
structure Pipelined (spec : Spec) (t : Nat) (xs : List (Machine g n)) (m : Machine g n) : Prop where
  prompt : m.Prompt t
  spec_eq : m.memory.spec = spec
  clock : xs = [] ∨ m.now + 1 = t
  pending : m.memory.pending = ((asks xs).drop (replies xs).length).map Prod.snd
  few : (replies xs).length ≤ (asks xs).length
  asked : ∀ e ∈ asks xs, e.1 < t
  replied : ∀ e ∈ replies xs, e.1 < t
  law : ∀ k r v, (replies xs)[k]? = some (r, v) → ∃ a u, (asks xs)[k]? = some (a, u) ∧
    v.Answers u ∧ dueAt spec xs k a ≤ r ∧ ∀ c, dueAt spec xs k a ≤ c → c < r → Forwards xs c
  next : ∀ a u, (asks xs)[(replies xs).length]? = some (a, u) →
    m.memory.Stands t (dueAt spec xs (replies xs).length a) (Forwards xs)
  dozing : m.memory.parked → m.memory.cold
  serving : m.memory.service ≠ .idle → m.memory.cold = false

theorem pipelined_boot {spec : Spec} (programs : Vector Program n) :
    Pipelined spec 0 [] (boot g spec programs) where
  prompt _ u hu := by
    obtain ⟨j, -, hj⟩ := List.mem_map.mp hu
    cases hj
  spec_eq := rfl
  clock := .inl rfl
  pending := rfl
  few := Nat.le_refl _
  asked := nofun
  replied := nofun
  law _ _ _ h := nomatch h
  next _ _ h := nomatch h
  dozing _ := rfl
  serving h := absurd rfl h

namespace Pipelined

variable {spec : Spec} {t₀ t : Nat} {xs : List (Machine g n)} {l : List (Agent (Fin n))}
  {y x y' : Machine g n}

theorem pending_head (h : Pipelined spec t₀ xs y) {u : Transfer} {rest : List Transfer}
    (hp : y.memory.pending = u :: rest) : ∃ a, (asks xs)[(replies xs).length]? = some (a, u) := by
  rw [h.pending] at hp
  have hlt : (replies xs).length < (asks xs).length := by
    by_contra hle
    rw [List.drop_eq_nil_of_le (Nat.le_of_not_lt hle)] at hp
    cases hp
  rw [List.drop_eq_getElem_cons hlt, List.map_cons, List.cons.injEq] at hp
  refine ⟨(asks xs)[(replies xs).length].1, ?_⟩
  rw [List.getElem?_eq_getElem hlt, ← hp.1]

theorem getElem?_ne_some (h : Pipelined spec t₀ xs y) (hp : y.memory.pending = [])
    {e : Nat × Transfer} : (asks xs)[(replies xs).length]? ≠ some e := by
  intro he
  rw [h.pending, List.map_eq_nil_iff, List.drop_eq_nil_iff] at hp
  have := (List.getElem?_eq_some_iff.mp he).1
  omega

/-- What memory has to answer is over its latency, and only forwarders have delayed it. -/
theorem due_le (h : Pipelined spec t₀ xs y) (hy : Ready t₀ y) (ht : y.queue.nextTime = some t)
    (hdue : (t, .memory) ∈ y.queue.pending) {u : Transfer} {d : Option Block}
    (ho : y.memory.Owes t u d) {a : Nat} {w : Transfer}
    (ha : (asks xs)[(replies xs).length]? = some (a, w)) :
    dueAt spec xs (replies xs).length a ≤ t ∧
      ∀ c, dueAt spec xs (replies xs).length a ≤ c → c < t → Forwards xs c := by
  have hstands := h.next a w ha
  obtain ⟨ready, hs, hle, -⟩ | hs := ho
  · have hserve := (hy.attended.serving u ready hs).resolve_left nofun
    obtain rfl : ready = t := hy.attended.waits.once hserve hdue
    simp only [Memory.Stands, hs] at hstands
    exact ⟨Nat.le_of_eq hstands, fun c hc hlt => by omega⟩
  · obtain rfl := hy.next_eq (hy.answers u d hs) ht
    simp only [Memory.Stands, hs] at hstands
    exact ⟨Nat.le_of_lt hstands.1, hstands.2⟩

section Reply

variable (h : Pipelined spec t₀ xs y) (hreply : ∀ v, y'.bus.current = some v → v.isReply →
  ∃ a u, (asks xs)[(replies xs).length]? = some (a, u) ∧ v.Answers u ∧
    dueAt spec xs (replies xs).length a ≤ t ∧
    ∀ c, dueAt spec xs (replies xs).length a ≤ c → c < t → Forwards xs c)
include h hreply

theorem few_append : (replies (xs ++ [y'])).length ≤ (asks xs).length := by
  rw [replies_append, List.length_append]
  cases hv : y'.bus.current.filter Transfer.isReply with
  | none => exact h.few
  | some v =>
    obtain ⟨hv, hv'⟩ := Option.filter_eq_some_iff.mp hv
    obtain ⟨a, u, ha, -⟩ := hreply v hv hv'
    exact (List.getElem?_eq_some_iff.mp ha).1

/-- **The response of a cycle keeps the law** as those before it have. -/
theorem law_append (hnow : y'.now = t) {k r : Nat} {v : Transfer}
    (hk : (replies (xs ++ [y']))[k]? = some (r, v)) :
    ∃ a u, (asks (xs ++ [y']))[k]? = some (a, u) ∧ v.Answers u ∧ dueAt spec (xs ++ [y']) k a ≤ r ∧
      ∀ c, dueAt spec (xs ++ [y']) k a ≤ c → c < r → Forwards (xs ++ [y']) c := by
  have hlaw : k ≤ (replies xs).length ∧ ∃ a u, (asks xs)[k]? = some (a, u) ∧ v.Answers u ∧
      dueAt spec xs k a ≤ r ∧ ∀ c, dueAt spec xs k a ≤ c → c < r → Forwards xs c := by
    rw [replies_append] at hk
    obtain hk | ⟨rfl, hv⟩ := getElem?_append_toList hk
    · exact ⟨Nat.le_of_lt (List.getElem?_eq_some_iff.mp hk).1, h.law k r v hk⟩
    · obtain ⟨w, hw, he⟩ := Option.map_eq_some_iff.mp hv
      cases he
      obtain ⟨hw, hw'⟩ := Option.filter_eq_some_iff.mp hw
      rw [hnow]
      exact ⟨Nat.le_refl _, hreply _ hw hw'⟩
  obtain ⟨hle, a, u, ha, hans, hdue, hf⟩ := hlaw
  refine ⟨a, u, ?_, hans, ?_, ?_⟩
  · rw [asks_append, List.getElem?_append_left (List.getElem?_eq_some_iff.mp ha).1]
    exact ha
  · rwa [dueAt_append hle]
  · intro c hc hlt
    rw [dueAt_append hle] at hc
    exact (hf c hc hlt).append

end Reply

section Cycle

variable (h : Pipelined spec t₀ xs y) (hy : Ready t₀ y) (ht : y.queue.nextTime = some t)
  (hr : y.Round t l x y') (hnow : y'.now = t)
include h hy ht hr hnow

/-- **A cycle goes on with the timing** if memory does in its turn: what it answers was due, and it
stands by the next request. -/
theorem extend
    (hreply : ∀ v, y'.bus.current = some v → v.isReply → ∃ a u,
      (asks xs)[(replies xs).length]? = some (a, u) ∧ v.Answers u ∧
        dueAt spec xs (replies xs).length a ≤ t ∧
        ∀ c, dueAt spec xs (replies xs).length a ≤ c → c < t → Forwards xs c)
    (hspec : x.memory.spec = y.memory.spec)
    (hpending : x.memory.pending =
      ((asks xs).drop (replies (xs ++ [y'])).length).map Prod.snd)
    (hnext : ∀ a u, (asks xs)[(replies (xs ++ [y'])).length]? = some (a, u) →
      x.memory.Stands (t + 1) (dueAt spec (xs ++ [y']) (replies (xs ++ [y'])).length a)
        (Forwards (xs ++ [y'])))
    (hcold : ∀ u, y'.bus.memoryRequest = some u → x.memory.pending = [] → x.memory.cold)
    (hdozing : x.memory.parked → x.memory.cold)
    (hserving : x.memory.service ≠ .idle → x.memory.cold = false) :
    Pipelined spec (t + 1) (xs ++ [y']) y' := by
  have h₀ := awake_started hy ht
  have hle : t₀ ≤ t := hy.le_next ht
  have hm : y'.memory = (x.memory.snoop y'.bus).2 := hr.aired.bus ▸ hr.aired.memory
  obtain ⟨hp', -, -, hspec', hservice'⟩ := x.memory.snoop_eq y'.bus
  have hreplied := before_append h.replied hle
    (y'.bus.current.filter Transfer.isReply)
  rw [← hnow, ← replies_append, hnow] at hreplied
  have hfew := h.few_append hreply
  constructor
  case prompt => exact hr.prompt h₀ (h.prompt.mono (by omega))
  case spec_eq => rw [hm, hspec', hspec, h.spec_eq]
  case clock => exact .inr (by rw [hnow])
  case pending =>
    rw [hm, hp', hpending, asks_append, List.drop_append_of_le_length hfew, List.map_append]
    cases y'.bus.memoryRequest <;> rfl
  case few =>
    rw [asks_append, List.length_append]
    omega
  case asked =>
    rw [asks_append, hnow]
    exact before_append h.asked hle _
  case replied => exact hreplied
  case law => exact fun k r v hk => h.law_append hreply hnow hk
  case next =>
    intro a u ha
    rw [hm, Memory.stands_snoop]
    rw [asks_append] at ha
    obtain ha | ⟨hlen, hu⟩ := getElem?_append_toList ha
    · exact hnext a u ha
    · -- The request was driven in this cycle, and memory has answered all others.
      have hempty : x.memory.pending = [] := by
        rw [hpending, hlen, List.drop_length, List.map_nil]
      obtain ⟨w, hw, he⟩ := Option.map_eq_some_iff.mp hu
      cases he
      rw [Memory.Stands, Memory.service_of_pending hempty, hcold _ hw hempty, hspec, h.spec_eq,
        hnow]
      exact dueAt_of_replied fun e he => Nat.lt_succ_iff.mp (hreplied e he)
  case dozing =>
    intro hparked
    rw [hm] at hparked ⊢
    rw [Memory.cold_snoop]
    exact hdozing (Memory.parked_of_snoop hparked)
  case serving =>
    rw [hm, Memory.cold_snoop, hservice']
    exact hserving

theorem unanswered (hc : Bus.NotReplied x.bus.current) (hspec : x.memory.spec = y.memory.spec)
    (hp : x.memory.pending = y.memory.pending)
    (hnext : ∀ a u, (asks xs)[(replies xs).length]? = some (a, u) →
      x.memory.Stands (t + 1) (dueAt spec xs (replies xs).length a) (Forwards (xs ++ [y'])))
    (hcold : x.memory.pending = [] → x.memory.cold)
    (hserving : x.memory.service ≠ .idle → x.memory.cold = false) :
    Pipelined spec (t + 1) (xs ++ [y']) y' := by
  obtain ⟨k, hx, -⟩ := hr.within.awake (awake_started hy ht)
  have hc' : Bus.NotReplied y'.bus.current := hr.aired.current_eq ▸ hc
  have hreplies : replies (xs ++ [y']) = replies xs := replies_append_of_notReplied xs y' hc'
  refine h.extend hy ht hr hnow ?_ hspec ?_ ?_ (fun _ _ => hcold)
    (fun hparked => hcold (hx.attended.drained hparked)) hserving
  · intro v hv hreply
    rw [hc' v hv] at hreply
    cases hreply
  · rw [hreplies, hp, h.pending]
  · intro a u ha
    rw [hreplies] at ha ⊢
    rw [dueAt_append (Nat.le_refl _)]
    exact hnext a u ha

theorem answered {u : Transfer} {d : Option Block} (hdue : (t, .memory) ∈ y.queue.pending)
    (ho : y.memory.Owes t u d)
    (hc : x.bus.current = some ⟨u.requester, .memory, u.addr.line, .response, d⟩)
    (hm : x.memory = y.memory.served u) : Pipelined spec (t + 1) (xs ++ [y']) y' := by
  have hle : t₀ ≤ t := hy.later _ hdue
  have hp : y.memory.pending = u :: y.memory.queue := Memory.pending_eq_of_owes ho
  have hbusy : y.memory.service ≠ .idle := by
    obtain ⟨ready, hs, -⟩ | hs := ho <;> simp [hs]
  obtain ⟨hidle, hqueue, hspec⟩ := y.memory.service_served u
  obtain ⟨hcold, hparked⟩ := y.memory.flags_served u
  have hcur : y'.bus.current = some ⟨u.requester, .memory, u.addr.line, .response, d⟩ :=
    hr.aired.current_eq.trans hc
  have hreplies : replies (xs ++ [y']) =
      replies xs ++ [(t, ⟨u.requester, .memory, u.addr.line, .response, d⟩)] := by
    rw [replies_append, hcur, hnow]
    rfl
  have hlen : (replies (xs ++ [y'])).length = (replies xs).length + 1 := by
    rw [hreplies, List.length_append, List.length_singleton]
  obtain ⟨a, ha⟩ := h.pending_head hp
  refine h.extend hy ht hr hnow ?_ (by rw [hm, hspec]) ?_ ?_ ?_ ?_ ?_
  · intro v hv _
    cases hcur.symm.trans hv
    obtain ⟨hready, hf⟩ := h.due_le hy ht hdue ho ha
    exact ⟨a, u, ha, ⟨rfl, rfl, rfl, rfl, Memory.isSome_of_owes hy.sound.memory ho⟩, hready, hf⟩
  · have htail := congrArg List.tail (h.pending.symm.trans hp)
    rw [← List.map_tail, List.tail_drop] at htail
    rw [hm, hlen, htail, Memory.pending]
    simp only [hidle, hqueue, List.tail_cons]
  · intro a' u' ha'
    -- The next request was taken before this cycle, so its time runs from this answer.
    rw [hlen] at ha' ⊢
    have hlt : a' < t := Nat.lt_of_lt_of_le (h.asked _ (List.mem_of_getElem? ha')) hle
    have hprevious : previous (xs ++ [y']) ((replies xs).length + 1) = some t := by
      rw [previous, hreplies, List.getElem?_concat_length]
      rfl
    rw [Memory.Stands, hm, hidle]
    dsimp only
    rw [hspec, hcold, h.serving hbusy, h.spec_eq, dueAt, hprevious]
    exact if_pos hlt
  · intro w hw
    simp [Bus.memoryRequest, hcur, Option.filter] at hw
  · intro hx
    rw [hm, hparked] at hx
    rw [hy.attended.drained hx] at hp
    cases hp
  · intro hx
    rw [hm] at hx
    exact absurd hidle hx

theorem unserved (hdue : (t, .memory) ∉ y.queue.pending) (hm : x.memory = y.memory)
    (hc : Bus.NotReplied x.bus.current) : Pipelined spec (t + 1) (xs ++ [y']) y' := by
  have hnot : (t₀, .memory) ∉ y.queue.pending := fun he => hdue (hy.next_eq he ht ▸ he)
  have hparked : y.memory.service = .idle → y.memory.parked := fun hs => by
    by_contra hp
    exact hnot (hy.memory_due h.prompt hs (by simpa using hp))
  refine h.unanswered hy ht hr hnow hc (by rw [hm]) (by rw [hm]) ?_ ?_ ?_
  · intro a u ha
    have hstands := h.next a u ha
    rw [hm]
    unfold Memory.Stands at hstands ⊢
    cases hs : y.memory.service with
    | idle => exact absurd ha (h.getElem?_ne_some (hy.attended.drained (hparked hs)))
    | busy w ready => simpa only [hs] using hstands
    | responding w d => exact absurd (hy.answers w d hs) hnot
  · intro hp
    rw [hm] at hp ⊢
    exact h.dozing (hparked (Memory.service_of_pending hp))
  · rw [hm]
    exact h.serving

theorem delayed {u w : Transfer} {d : Option Block} (hdue : (t, .memory) ∈ y.queue.pending)
    (ho : y.memory.Owes t u d) (hc : x.bus.current = some w) (hw : w.isForward)
    (hm : x.memory = { y.memory with service := .responding u d }) :
    Pipelined spec (t + 1) (xs ++ [y']) y' := by
  have hcur : y'.bus.current = some w := hr.aired.current_eq.trans hc
  have hn : Bus.NotReplied x.bus.current := by
    intro v hv
    cases hc.symm.trans hv
    exact Transfer.isReply_of_isForward hw
  refine h.unanswered hy ht hr hnow hn (by rw [hm]) ?_ ?_ ?_ ?_
  · rw [hm, Memory.pending_eq_of_owes ho]
    rfl
  · intro a v ha
    obtain ⟨hready, hf⟩ := h.due_le hy ht hdue ho ha
    rw [hm]
    refine ⟨Nat.lt_succ_of_le hready, fun c hle' hlt => ?_⟩
    obtain hlt | rfl := Nat.lt_succ_iff_lt_or_eq.mp hlt
    · exact (hf c hle' hlt).append
    · exact ⟨y', List.mem_append_right _ (List.mem_singleton_self _), hnow, w, hcur, hw⟩
  · intro hx
    rw [hm, Memory.pending] at hx
    cases hx
  · intro _
    rw [hm]
    exact h.serving (by obtain ⟨ready, hs, -⟩ | hs := ho <;> simp [hs])

/-- **What a cycle adds to the timing.** -/
theorem cycle : Pipelined spec (t + 1) (xs ++ [y']) y' := by
  obtain ⟨hdue, hm, hc⟩ | ⟨hdue, hserves⟩ := hr.within.serves (awake_started hy ht) hr.later
  · exact h.unserved hy ht hr hnow hdue hm hc
  generalize hmem : x.memory = m' at hserves
  cases hserves with
  | drain hs hq hc =>
    have hp : y.memory.pending = [] := by simp only [Memory.pending, hs, hq]
    refine h.unanswered hy ht hr hnow hc (by rw [hmem]) ?_ ?_ ?_ ?_
    · rw [hmem]
      rfl
    · intro a u ha
      exact absurd ha (h.getElem?_ne_some hp)
    · intro _
      rw [hmem]
    · intro hx
      rw [hmem] at hx
      exact absurd hs hx
  | @begin u rest hs hq hc =>
    have hp : y.memory.pending = u :: rest := by simp only [Memory.pending, hs, hq]
    have hawake : y.memory.parked = false := by
      by_contra hparked
      rw [hy.attended.drained (by simpa using hparked)] at hp
      cases hp
    obtain rfl := hy.next_eq (hy.memory_due h.prompt hs hawake) ht
    refine h.unanswered hy ht hr hnow hc (by rw [hmem]) ?_ ?_ ?_ ?_
    · rw [hmem, hp]
      rfl
    · intro a w ha
      have hstands := h.next a w ha
      rw [hmem]
      simpa only [Memory.Stands, hs] using hstands
    · intro hx
      rw [hmem] at hx
      cases hx
    · intro _
      rw [hmem]
  | @early u ready hs hlt hc =>
    refine h.unanswered hy ht hr hnow hc (by rw [hmem]) (by rw [hmem]) ?_ ?_ ?_
    · intro a w ha
      have hstands := h.next a w ha
      rw [hmem]
      simpa only [Memory.Stands, hs] using hstands
    · intro hx
      rw [hmem, Memory.pending, hs] at hx
      cases hx
    · intro _
      rw [hmem]
      exact h.serving (by simp [hs])
  | answer ho hc => exact h.answered hy ht hr hnow hdue ho hc hmem
  | retry ho hc hw => exact h.delayed hy ht hr hnow hdue ho hc hw hmem

end Cycle

/-- **A request that was not answered** has been delayed by forwarders since it could be. -/
theorem forwards (h : Pipelined spec t xs y) (hy : Ready t y) {a : Nat} {u : Transfer}
    (ha : (asks xs)[(replies xs).length]? = some (a, u)) {c : Nat}
    (hdue : dueAt spec xs (replies xs).length a ≤ c) (hc : c < t) : Forwards xs c := by
  have hstands := h.next a u ha
  unfold Memory.Stands at hstands
  cases hs : y.memory.service with
  | idle =>
    -- Memory serves nothing, so that the latency lies ahead.
    simp only [hs] at hstands
    omega
  | busy w ready =>
    simp only [hs] at hstands
    have hserve := (hy.attended.serving w ready hs).resolve_left nofun
    have := hy.later _ hserve
    omega
  | responding w d =>
    simp only [hs] at hstands
    exact hstands.2 c hdue hc

end Pipelined

/-! ## Whole runs -/

theorem Visits.now_inj {m₀ m : Machine g n} {xs : List (Machine g n)} (h : m₀.Visits xs m)
    {t₀ : Nat} (h₀ : Ready t₀ m₀) {x y : Machine g n} (hx : x ∈ xs) (hy : y ∈ xs)
    (he : x.now = y.now) : x = y := by
  obtain ⟨t, -, hrising, -⟩ := h.plays.cycles_lt h₀
  rw [List.map_map] at hrising
  exact List.inj_on_of_nodup_map (hrising.imp Nat.ne_of_lt) hx hy he

theorem Visits.not_forwards {m₀ m : Machine g n} {xs : List (Machine g n)} (h : m₀.Visits xs m)
    {t₀ : Nat} (h₀ : Ready t₀ m₀) {r : Nat} {v : Transfer} (hr : (r, v) ∈ replies xs) :
    ¬ Forwards xs r := by
  rintro ⟨y, hy, hnow, w, hw, hf⟩
  obtain ⟨x, hx, he⟩ := List.mem_filterMap.mp hr
  obtain ⟨u, hu, he⟩ := Option.map_eq_some_iff.mp he
  cases he
  obtain ⟨hu, hreply⟩ := Option.filter_eq_some_iff.mp hu
  obtain rfl := h.now_inj h₀ hx hy hnow.symm
  cases hu.symm.trans hw
  rw [Transfer.isReply_of_isForward hf] at hreply
  cases hreply

/-- **Memory keeps its times.** There are no more responses than requests, the `k`-th response
answers the `k`-th request, and it comes in the first cycle in which it can be answered and no
forwarder drives. The first request without a response has met only such cycles in which a forwarder
drove. -/
theorem memory_pipeline {spec : Spec} {programs : List Program} {g : Geometry}
    {m₀ m : Machine g programs.length} {xs : List (Machine g programs.length)}
    (h : ofSpec spec programs = .ok ⟨g, m₀⟩) (hx : m₀.Visits xs m) :
    (replies xs).length ≤ (asks xs).length ∧
    (∀ k r v, (replies xs)[k]? = some (r, v) → ∃ a u, (asks xs)[k]? = some (a, u) ∧
      v.Answers u ∧ IsLeast {c | dueAt spec xs k a ≤ c ∧ ¬ Forwards xs c} r) ∧
    ∀ a u, (asks xs)[(replies xs).length]? = some (a, u) →
      ∀ c, dueAt spec xs (replies xs).length a ≤ c → c ≤ m.now → Forwards xs c := by
  obtain ⟨hv, -, rfl⟩ := ofSpec_eq_ok.mp h
  have h₀ := ready_boot hv ⟨programs.toArray, rfl⟩
  obtain ⟨t, hready, hp⟩ := hx.induct h₀ (P := Pipelined spec) (pipelined_boot _)
    fun hy hp ht hr _ hnow => hp.cycle hy ht hr hnow
  refine ⟨hp.few, fun k r v hk => ?_, fun a u ha c hdue hc => ?_⟩
  · obtain ⟨a, u, ha, hans, hdue, hf⟩ := hp.law k r v hk
    refine ⟨a, u, ha, hans, ⟨hdue, hx.not_forwards h₀ (List.mem_of_getElem? hk)⟩, ?_⟩
    rintro c ⟨hle, hc⟩
    by_contra hlt
    exact hc (hf c hle (Nat.lt_of_not_le hlt))
  · obtain rfl | hclock := hp.clock
    · cases ha
    · exact hp.forwards hready ha hdue (by omega)

/-- The first response is kept off the bus for one cycle, the second request waits behind it, and
the third one finds memory cold. -/
theorem memory_pipeline_tiny : ∃ xs m, tiny.Visits xs m ∧
    (asks xs).map Prod.fst = [1, 3, 9] ∧ (replies xs).map Prod.fst = [5, 7, 12] ∧
    IsLeast {c | 4 ≤ c ∧ ¬ Forwards xs c} 5 ∧ IsLeast {c | 7 ≤ c ∧ ¬ Forwards xs c} 7 ∧
    IsLeast {c | 12 ≤ c ∧ ¬ Forwards xs c} 12 := by
  obtain ⟨xs, m, hx, hasks, hreplies, h₀, h₁, h₂⟩ := exists_visits tiny 13
    (fun xs => (asks xs).map Prod.fst = [1, 3, 9] ∧ (replies xs).map Prod.fst = [5, 7, 12] ∧
      dueAt tinySpec xs 0 1 = 4 ∧ dueAt tinySpec xs 1 3 = 7 ∧ dueAt tinySpec xs 2 9 = 12)
    (by decide +kernel)
  have hlaw : ∀ k a r, ((asks xs).map Prod.fst)[k]? = some a →
      ((replies xs).map Prod.fst)[k]? = some r →
      IsLeast {c | dueAt tinySpec xs k a ≤ c ∧ ¬ Forwards xs c} r := by
    intro k a r ha hr
    rw [List.getElem?_map] at ha hr
    obtain ⟨e, he, rfl⟩ := Option.map_eq_some_iff.mp ha
    obtain ⟨w, hw, rfl⟩ := Option.map_eq_some_iff.mp hr
    obtain ⟨a, u, hu, -, hleast⟩ := (memory_pipeline ofSpec_tiny hx).2.1 k w.1 w.2 hw
    cases he.symm.trans hu
    exact hleast
  rw [hasks, hreplies] at hlaw
  exact ⟨xs, m, hx, hasks, hreplies, h₀ ▸ hlaw 0 1 5 rfl rfl, h₁ ▸ hlaw 1 3 7 rfl rfl,
    h₂ ▸ hlaw 2 9 12 rfl rfl⟩

end Machine

end Snooping
