import Mathlib.Logic.Function.Basic
import Snooping.Proofs.Cache.Reactions

/-!
# The protocol

Coherence is a matter of what the caches have, what they wait for, and what is on its way to them.
Ways, counters, statistics and the clock do not take part in it.

* **`View`**: the state of the protocol between `n` caches and memory.
* `View.Fresh`, `View.Fetching`, `View.writes`: requests that nobody has seen, reads that can still
  be answered, and lines on their way to memory.
* **`View.Turn`**: what one member does before the bus is looked at.
* **`View.Broadcast`**: what becomes of a transfer when everybody looks at the bus.
-/

namespace Snooping

/-- **The state of the protocol.** -/
structure View (n : Nat) where
  stage : Fin n → Stage
  /-- What a cache has of the line of an address. -/
  copy : Fin n → Addr → LineState × Block
  /-- The data that a cache owes to its peers. -/
  jobs : Fin n → List ForwardJob
  /-- The requests that memory has not answered, in order. -/
  pending : List Transfer
  /-- The data that was taken out of memory for the first of them. -/
  captured : Option Block
  /-- The data of a line in memory. -/
  block : Addr → Block
  /-- A line can be written to memory. -/
  lands : Addr → Bool
  /-- What is driven and was not looked at. -/
  current : Option Transfer

namespace View

variable {n : Nat}

/-- The addresses of a line stand for the same. -/
structure Lawful (V : View n) : Prop where
  copy : ∀ {i a b}, a.line = b.line → V.copy i a = V.copy i b
  block : ∀ {a b}, a.line = b.line → V.block a = V.block b
  lands : ∀ {a b}, a.line = b.line → V.lands a = V.lands b

/-- The request of a cache is driven and was not looked at. -/
def Fresh (V : View n) (i : Fin n) : Prop :=
  ∃ t, V.current = some t ∧ t.requester = i ∧ t.func.isRequest

/-- A read of the line was looked at, and its answer will be used. -/
structure Fetching (V : View n) (i : Fin n) (a : Addr) : Prop where
  awaits : V.stage i = .awaits .read a.line
  requested : (V.copy i a).1 = .requested
  seen : ¬ V.Fresh i

/-- The writes of a line that memory has not answered. -/
def writes (V : View n) (a : Addr) : List Transfer :=
  V.pending.filter fun t => t.func = .write ∧ t.addr.line = a.line

/-! ## Turns -/

/-- A cache is at another stage, with other copies. -/
def set (V : View n) (i : Fin n) (s : Stage) (c : Addr → LineState × Block) : View n :=
  { V with stage := Function.update V.stage i s, copy := Function.update V.copy i c }

section Set

variable (V : View n) (i : Fin n) (s : Stage) (c : Addr → LineState × Block)

@[simp] theorem stage_set_self : (V.set i s c).stage i = s := by
  simp only [set, Function.update_self]

@[simp] theorem copy_set_self : (V.set i s c).copy i = c := by
  simp only [set, Function.update_self]

theorem stage_set_of_ne {i j : Fin n} (h : j ≠ i) : (V.set i s c).stage j = V.stage j := by
  simp only [set, Function.update_of_ne h]

theorem copy_set_of_ne {i j : Fin n} (h : j ≠ i) : (V.set i s c).copy j = V.copy j := by
  simp only [set, Function.update_of_ne h]

theorem set_self : V.set i (V.stage i) (V.copy i) = V := by
  simp only [set, Function.update_eq_self]

end Set

/-- A transfer is driven. -/
def drive (V : View n) (t : Transfer) : View n := { V with current := some t }

/-- The data in the answer to a read. -/
def reply (V : View n) (t : Transfer) : Block := V.captured.getD (V.block t.addr)

/-- The answer to the first pending request is driven, and a write lands. -/
def answer (V : View n) (t : Transfer) (rest : List Transfer) : View n :=
  { V with
    pending := rest
    captured := none
    block := fun b =>
      if t.func = .write ∧ V.lands t.addr ∧ b.line = t.addr.line then t.data.getD (V.block b)
      else V.block b
    current := some ⟨t.requester, .memory, t.addr.line, .response,
      if t.func = .read then some (V.reply t) else none⟩ }

/-- **A turn of one member of the protocol**, with the request that ends with it. -/
inductive Turn (V : View n) : Option Request → View n → Prop
  /-- A cache works on a request. -/
  | work {i : Fin n} (hs : V.stage i = .idle ∨ V.stage i = .works) :
      Turn V none (V.set i .works (V.copy i))
  /-- It takes a line away from the others. -/
  | take {i : Fin n} {r : Addr} (hb : V.current = none) (hs : V.stage i = .works)
      (hd : (V.copy i r).1.hasData) :
      Turn V none
        ((V.set i (.taken r.line) (V.copy i)).drive ⟨i, .cache i, r.line, .invalidate, none⟩)
  /-- It writes a dirty line back. -/
  | evict {i : Fin n} {u : Addr} (hb : V.current = none) (hs : V.stage i = .works)
      (hd : (V.copy i u).1.isDirty) :
      Turn V none ((V.set i (.awaits .write u.line) (V.copy i)).drive
        ⟨i, .cache i, u.line, .write, some (V.copy i u).2⟩)
  /-- It keeps a way for a line. -/
  | ask {i : Fin n} {r : Addr} {c : Addr → LineState × Block}
      (hs : V.stage i = .works ∨ ∃ u, V.stage i = .leaves u)
      (hc : Gives (V.stage i) (V.copy i) c r) : Turn V none (V.set i .works c)
  /-- It keeps a way for a line and asks for the line, when nobody owes anything. -/
  | fetch {i : Fin n} {r : Addr} {c : Addr → LineState × Block} (hb : V.current = none)
      (hj : ∀ j, V.jobs j = []) (hs : V.stage i = .works ∨ ∃ u, V.stage i = .leaves u)
      (hc : Gives (V.stage i) (V.copy i) c r) :
      Turn V none ((V.set i (.awaits .read r.line) c).drive ⟨i, .cache i, r.line, .read, none⟩)
  /-- A request ends. -/
  | finish {i : Fin n} {r : Request} {c : Addr → LineState × Block} (hf : ¬ V.Fresh i)
      (hs : V.stage i = .works ∨ V.stage i = .taken r.addr.line)
      (hd : (V.copy i r.addr).1.hasData)
      (hw : r.isWrite → (V.copy i r.addr).1.isSole ∨ V.stage i = .taken r.addr.line)
      (ht : V.stage i = .taken r.addr.line → r.isWrite)
      (hc : ∀ b, c b = if b.line = r.addr.line then r.effect (V.copy i r.addr) else V.copy i b) :
      Turn V (some r) (V.set i .idle c)
  /-- Memory takes out the data of a line, but has to wait for the bus. -/
  | capture {t : Transfer} {rest : List Transfer} (hp : V.pending = t :: rest)
      (hr : t.func = .read) : Turn V none { V with captured := some (V.reply t) }
  /-- Memory answers. -/
  | answer {t : Transfer} {rest : List Transfer} (hb : V.current = none)
      (hp : V.pending = t :: rest) : Turn V none (V.answer t rest)
  /-- A forwarder sends what its cache owes. -/
  | forward {j : Fin n} {k : ForwardJob} {rest : List ForwardJob} (hb : V.current = none)
      (hj : V.jobs j = k :: rest) :
      Turn V none ({ V with jobs := Function.update V.jobs j rest }.drive
        ⟨k.dest, .cache j, k.addr.line, .response, k.data⟩)
  /-- A forwarder sends a notice. -/
  | notice {t : Transfer} (hb : V.current = none) (hf : t.func = .requested) :
      Turn V none (V.drive t)

/-! ## Broadcast -/

/-- The caches have seen a transfer of one of them. -/
def seen (V : View n) (t : Transfer) : View n :=
  { V with
    copy := fun j b => if (j : Nat) ≠ t.requester ∧ b.line = t.addr.line then
      t.func.remains (V.copy j b) else V.copy j b
    stage := fun j => if (j : Nat) ≠ t.requester then (V.stage j).seen t else V.stage j
    current := none }

theorem seen_of_not_isRequest (V : View n) {t : Transfer} (h : t.func.isRequest = false) :
    V.seen t = { V with current := none } := by
  have hcopy : ∀ x, t.func.remains x = x := fun x => by
    revert h
    cases t.func <;> first | exact fun _ => rfl | exact fun h => Bool.noConfusion h
  have hstage : ∀ s : Stage, s.seen t = s := fun s => if_neg fun hx => by
    rcases hx.1 with hf | hf <;> rw [hf] at h <;> exact Bool.noConfusion h
  simp only [seen, hcopy, hstage, ite_self]

/-- A cache owes a line to a peer. -/
def owe (V : View n) (k : Fin n) (job : ForwardJob) : View n :=
  { V with jobs := Function.update V.jobs k (V.jobs k ++ [job]) }

/-- Memory has to answer a request. -/
def enqueue (V : View n) (t : Transfer) : View n := { V with pending := V.pending ++ [t] }

/-- A cache has taken an answer. -/
def taken (V : View n) (i : Fin n) (s : Stage) (c : Addr → LineState × Block) : View n :=
  { V.set i s c with current := none }

/-- **What becomes of a transfer** when everybody looks at it. No line is taken at that time, except
by the transfer itself. -/
inductive Broadcast (V : View n) (t : Transfer) : View n → Prop
  /-- A peer owes the line to a reader. -/
  | claimed {k : Fin n} {s : LineState} (hf : t.func = .read)
      (hq : ∀ j u, V.stage j = .taken u → V.Fresh j) (hk : (k : Nat) ≠ t.requester)
      (hd : (V.copy k t.addr).1.hasData) :
      Broadcast V t ((V.seen t).owe k ⟨t.requester, t.addr, s, some (V.copy k t.addr).2⟩)
  /-- Memory has to answer a reader. -/
  | unclaimed (hf : t.func = .read) (hq : ∀ j u, V.stage j = .taken u → V.Fresh j)
      (hd : ∀ k : Fin n, (k : Nat) ≠ t.requester → ¬ (V.copy k t.addr).1.hasData) :
      Broadcast V t ((V.seen t).enqueue t)
  /-- A line is on its way to memory. -/
  | written (hf : t.func = .write) (hq : ∀ j u, V.stage j = .taken u → V.Fresh j) :
      Broadcast V t ((V.seen t).enqueue t)
  /-- A line was taken away. -/
  | invalidated (hf : t.func = .invalidate) (hq : ∀ j u, V.stage j = .taken u → V.Fresh j) :
      Broadcast V t (V.seen t)
  /-- A line has landed, and may be given up if it is still there. -/
  | landed {i : Fin n} {s : Stage} (hf : t.func = .response) (hi : t.requester = i)
      (hs : V.stage i = .awaits .write t.addr)
      (hl : s = .works ∨ (s = .leaves t.addr ∧ (V.copy i t.addr).1.isDirty)) :
      Broadcast V t (V.taken i s (V.copy i))
  /-- A line has come, for this cache alone only if memory has sent it and nobody else has it. -/
  | filled {i : Fin n} {s : LineState} {c : Addr → LineState × Block} (hf : t.func = .response)
      (hi : t.requester = i) (hs : V.stage i = .awaits .read t.addr)
      (hr : (V.copy i t.addr).1 = .requested)
      (hl : s = .shared ∨ (s = .exclusive ∧
        ∀ j : Fin n, (j : Nat) ≠ t.requester → (V.copy j t.addr).1 = .invalid))
      (hc : ∀ b, c b = if b.line = t.addr.line then (s, t.data.getD Block.zero) else V.copy i b) :
      Broadcast V t (V.taken i .works c)
  /-- A line has come that was taken away meanwhile. -/
  | discarded {i : Fin n} (hf : t.func = .response) (hi : t.requester = i)
      (hs : V.stage i = .awaits .read t.addr) (hr : (V.copy i t.addr).1 ≠ .requested) :
      Broadcast V t (V.taken i .works (V.copy i))
  /-- A notice changes nothing. -/
  | noticed (hf : t.func = .requested) : Broadcast V t { V with current := none }

end View

end Snooping
