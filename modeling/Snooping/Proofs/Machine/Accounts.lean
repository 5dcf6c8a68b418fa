import Snooping.Proofs.Cache.Counts
import Snooping.Proofs.Machine.Burst

/-!
# The accounts of the machine

Every transfer is accounted for: the requests by what the caches have counted, the answers by the
requests, and what a cache has lost by the requests of its peers. The caches take the requests of
the programs and nothing else.

* `Machine.outstanding`: the answers that are still to come.
* `Bus.fresh`: a request that the caches have not looked at yet.
* **`Machine.Audited`**: the accounts, with **`Machine.audited_acts`**,
  **`Machine.audited_aired`** and `Machine.audited_boot`.
* `Machine.load`, `Machine.writeLoad`: the requests of a core, which nothing changes.
* **`Machine.Round.accounts`**: what a cycle keeps.
* **`Machine.Audited.bounds`**: the programs bound everything that is driven.
-/

namespace Snooping

open Finset

variable {g : Geometry} {n : Nat}

namespace Bus

/-- One if a transfer with this function is on the bus. -/
def fresh (b : Bus) (f : Func) : Nat := (b.current.any fun t => t.func = f).toNat

theorem fresh_of_none {b : Bus} (h : b.current = none) (f : Func) : b.fresh f = 0 := by
  rw [fresh, h]
  rfl

theorem fresh_of_some {b : Bus} {t : Transfer} (h : b.current = some t) (f : Func) :
    b.fresh f = if t.func = f then 1 else 0 := by
  rw [fresh, h]
  by_cases hf : t.func = f <;> simp [hf]

theorem carried_of_driven {b b' : Bus} {t : Transfer} (hc : b'.current = some t)
    (ht : b'.transfers = (b.drive t).transfers) (f : Func) :
    b'.carried f = b.carried f + b'.fresh f := by
  rw [fresh_of_some hc, ← carried_drive, carried, carried, ht]

theorem carried_of_asked {b b' : Bus} (h : b.Asked b') (f : Func) :
    b'.carried f + b.fresh f = b.carried f + b'.fresh f := by
  cases h with
  | free => rfl
  | refused => rfl
  | granted hg =>
    rw [carried_of_driven rfl rfl, fresh_of_none (current_eq_none_of_grants hg), Nat.add_zero]

theorem answered_of_asked {b b' : Bus} (h : b.Asked b') : b'.answered = b.answered := by
  cases h with
  | free => rfl
  | refused => rfl
  | @granted t hg ht =>
    rw [answered_drive]
    revert ht
    cases t.func <;> simp [Func.isRequest, Func.isAnswer]

end Bus

namespace Program

/-- The requests of a program. -/
def requests (p : Program) : Nat := p.countP fun x => x.request?.isSome

/-- The writes of a program. -/
def writes (p : Program) : Nat := p.countP fun x => x.request?.any Request.isWrite

theorem requests_cons (x : Instr) (p : Program) :
    requests (x :: p) = requests p + x.request?.isSome.toNat := by
  rw [requests, List.countP_cons]
  cases x.request?.isSome <;> rfl

theorem writes_cons (x : Instr) (p : Program) :
    writes (x :: p) = writes p + (x.request?.any Request.isWrite).toNat := by
  rw [writes, List.countP_cons]
  cases x.request?.any Request.isWrite <;> rfl

end Program

namespace Machine

theorem sum_put {α : Type} (v : Vector α n) (i : Fin n) (x : α) (f : α → Nat) :
    ∑ j : Fin n, f (v.put i x)[j] + f v[i] = ∑ j : Fin n, f v[j] + f x := by
  have hput := map_put f v i x
  have hsum := View.sum_update (fun _ y => y) (fun j : Fin n => f v[j]) i (f x)
  rw [← hput] at hsum
  exact hsum

/-! ## The accounts -/

/-- **The answers that are still to come.** -/
def outstanding (m : Machine g n) : Nat :=
  m.memory.pending.length + ∑ j : Fin n, m.forwarders[j].queue.length

/-- **The accounts of the machine are balanced**, where `k` requests that take a line away and `l`
requests that expect an answer have not been looked at yet. -/
structure Audited (m : Machine g n) (k l : Nat) : Prop where
  balanced : ∀ i : Fin n, m.caches[i].Balanced
  writes : ∑ i : Fin n, m.caches[i].stats.writeBacks = m.bus.carried .write
  invalidations : ∑ i : Fin n, m.caches[i].stats.invalidationsSent = m.bus.carried .invalidate
  acquisitions : ∑ i : Fin n, m.caches[i].stats.busAcquisitions = m.bus.asked
  invalidated : ∀ i : Fin n,
    m.caches[i].stats.invalidated + k ≤ m.bus.carried .write + m.bus.carried .invalidate
  answers : m.bus.answered + m.outstanding + (n + 1) * l ≤
    (n + 1) * (m.bus.carried .read + m.bus.carried .write)

/-- The accounts between two turns. -/
abbrev AuditedNow (m : Machine g n) : Prop :=
  m.Audited (m.bus.fresh .write + m.bus.fresh .invalidate) (m.bus.fresh .read + m.bus.fresh .write)

theorem Audited.keep {m m' : Machine g n} {k l k' l' : Nat} (h : m.Audited k l)
    (hp : ∀ i : Fin n, m'.caches[i].Balanced ∧ m'.caches[i].stats = m.caches[i].stats)
    (hb : ∀ f : Func, f.isRequest → m'.bus.carried f = m.bus.carried f) (hk : k' ≤ k)
    (ha : m'.bus.answered + m'.outstanding + (n + 1) * l' ≤
      m.bus.answered + m.outstanding + (n + 1) * l) : m'.Audited k' l' := by
  have hr := hb .read rfl
  have hw := hb .write rfl
  have hi := hb .invalidate rfl
  refine ⟨fun i => (hp i).1, ?_, ?_, ?_, fun i => ?_, ?_⟩
  · simp only [hp, hw]
    exact h.writes
  · simp only [hp, hi]
    exact h.invalidations
  · simp only [hp, Bus.asked, hr, hw, hi]
    exact h.acquisitions
  · rw [(hp i).2, hw, hi]
    exact Nat.le_trans (Nat.add_le_add_left hk _) (h.invalidated i)
  · rw [hr, hw]
    exact Nat.le_trans ha h.answers

/-! ## Turns -/

section Turn

variable {m m' : Machine g n} {p : Agent (Fin n)} {i : Fin n}

theorem audited_cache (h : m.AuditedNow) (ht : m.caches[i].Tidy) {x : Turn g}
    (hx : m.caches[i].tick m.bus m.now = x) (hb : m.bus.Asked x.bus) :
    (m.putCache i x.cache x.bus).AuditedNow := by
  have hdeed := m.caches[i].deed_tick m.bus m.now
  have hbalanced := Cache.balanced_tick ht (h.balanced i) m.bus m.now
  rw [hx] at hdeed hbalanced
  obtain ⟨hw, hi, hr, hlost⟩ := hdeed.counts
  have hans := Bus.answered_of_asked hb
  have hread := Bus.carried_of_asked hb .read
  have hwrite := Bus.carried_of_asked hb .write
  have hinvalidate := Bus.carried_of_asked hb .invalidate
  have hsum := fun f : Cache g → Nat => sum_put m.caches i x.cache f
  have hwrites := h.writes
  have hinvalidations := h.invalidations
  have hacquisitions := h.acquisitions
  refine ⟨Vector.forall_put (P := fun _ (c : Cache g) => c.Balanced) hbalanced h.balanced, ?_, ?_,
    ?_, fun j => ?_, ?_⟩
  · have := hsum fun c => c.stats.writeBacks
    show ∑ j : Fin n, (m.caches.put i x.cache)[j].stats.writeBacks = x.bus.carried .write
    omega
  · have := hsum fun c => c.stats.invalidationsSent
    show ∑ j : Fin n, (m.caches.put i x.cache)[j].stats.invalidationsSent =
      x.bus.carried .invalidate
    omega
  · have := hsum fun c => c.stats.busAcquisitions
    show ∑ j : Fin n, (m.caches.put i x.cache)[j].stats.busAcquisitions = x.bus.asked
    omega
  · have hj : (m.caches.put i x.cache)[j].stats.invalidated = m.caches[j].stats.invalidated :=
      Vector.forall_put (P := fun (j : Fin n) (c : Cache g) =>
        c.stats.invalidated = m.caches[j].stats.invalidated) hlost (fun _ => rfl) j
    have := h.invalidated j
    show (m.caches.put i x.cache)[j].stats.invalidated +
      (x.bus.fresh .write + x.bus.fresh .invalidate) ≤
        x.bus.carried .write + x.bus.carried .invalidate
    omega
  · have hanswers := h.answers
    -- What is carried and what is fresh grow together, so the answers owed for them cancel out.
    have hexpect : x.bus.carried .read + x.bus.carried .write +
        (m.bus.fresh .read + m.bus.fresh .write) = m.bus.carried .read + m.bus.carried .write +
          (x.bus.fresh .read + x.bus.fresh .write) := by
      omega
    have hle := congrArg ((n + 1) * ·) hexpect
    simp only [Nat.mul_add (n + 1) (_ + _)] at hle
    show x.bus.answered + m.outstanding + (n + 1) * (x.bus.fresh .read + x.bus.fresh .write) ≤
      (n + 1) * (x.bus.carried .read + x.bus.carried .write)
    omega

theorem Audited.still {k l : Nat} (h : m.Audited k l) (hc : m'.caches = m.caches)
    (hb : m'.bus.transfers = m.bus.transfers) (ho : m'.outstanding = m.outstanding) :
    m'.Audited k l := by
  have hcarried : ∀ f, m'.bus.carried f = m.bus.carried f := fun f => by
    rw [Bus.carried, Bus.carried, hb]
  refine h.keep (fun j => ?_) (fun f _ => hcarried f) (Nat.le_refl _) ?_
  · rw [hc]
    exact ⟨h.balanced j, rfl⟩
  · rw [ho, Bus.answered, Bus.answered, hcarried, hcarried]

theorem Audited.reply {k l : Nat} (h : m.Audited k l) {t : Transfer} (ht : t.func.isAnswer)
    (hc : m'.caches = m.caches) (hb : m'.bus.transfers = (m.bus.drive t).transfers)
    (hcur : m'.bus.current = some t) (ho : m'.outstanding + 1 = m.outstanding) :
    m'.AuditedNow := by
  have hcarried : ∀ f, m'.bus.carried f = m.bus.carried f + if t.func = f then 1 else 0 :=
    fun f => by
    rw [← Bus.carried_drive, Bus.carried, Bus.carried, hb]
  have hne : ∀ f : Func, f.isRequest → t.func ≠ f := fun f hf => Func.ne_of_isAnswer ht hf
  have hfresh : ∀ f : Func, f.isRequest → m'.bus.fresh f = 0 := fun f hf =>
    (Bus.fresh_of_some hcur f).trans (if_neg (hne f hf))
  refine h.keep (fun j => ?_) (fun f hf => ?_) ?_ ?_
  · rw [hc]
    exact ⟨h.balanced j, rfl⟩
  · rw [hcarried, if_neg (hne f hf), Nat.add_zero]
  · rw [hfresh .write rfl, hfresh .invalidate rfl]
    exact Nat.zero_le _
  · have hans : m'.bus.answered = m.bus.answered + 1 := by
      rw [Bus.answered, Bus.answered, hcarried, hcarried]
      revert ht
      cases t.func <;> simp [Func.isAnswer] <;> omega
    rw [hans, hfresh .read rfl, hfresh .write rfl]
    omega

theorem outstanding_putForwarder (m : Machine g n) (i : Fin n) (f : Forwarder) (bus : Bus) :
    (m.putForwarder i f bus).outstanding + m.forwarders[i].queue.length =
      m.outstanding + f.queue.length := by
  have := sum_put m.forwarders i f fun f => f.queue.length
  show m.memory.pending.length + ∑ j : Fin n, (m.forwarders.put i f)[j].queue.length + _ =
    m.memory.pending.length + _ + _
  omega

theorem outstanding_sent {k : ForwardJob} {rest : List ForwardJob}
    (hq : m.forwarders[i].queue = k :: rest) {f : Forwarder} (hf : f.queue = rest) (bus : Bus) :
    (m.putForwarder i f bus).outstanding + 1 = m.outstanding := by
  have ho := m.outstanding_putForwarder i f bus
  rw [hq, hf, List.length_cons] at ho
  omega

theorem outstanding_of_memory (hf : m'.forwarders = m.forwarders) {k : Nat}
    (hp : m'.memory.pending.length + k = m.memory.pending.length) :
    m'.outstanding + k = m.outstanding := by
  rw [outstanding, outstanding, hf]
  omega

/-- **A turn keeps the accounts balanced.** -/
theorem audited_acts (h : m.AuditedNow) (hs : m.Sound) (ha : m.Acts p m') : m'.AuditedNow := by
  cases ha with
  | @rest i hq =>
    exact h.still rfl rfl (Nat.add_right_cancel (m.outstanding_putForwarder i _ m.bus))
  | @send i k rest hq hb hl =>
    refine h.reply (t := ⟨k.dest, .cache m.forwarders[i].source, k.addr.line,
      Bus.forwardFunc k.state, k.data⟩) (Bus.isAnswer_forwardFunc k.state) rfl rfl rfl ?_
    exact outstanding_sent hq (f := { m.forwarders[i] with
      queue := rest, sent := m.forwarders[i].sent + 1 }) rfl m.bus
  | @hold i hq hb hl =>
    exact h.still rfl rfl (Nat.add_right_cancel (m.outstanding_putForwarder i _ m.bus))
  | drain hs hq => exact h.still rfl rfl rfl
  | @begin t rest ready hs hq hr hl =>
    exact h.still rfl rfl (outstanding_of_memory (k := 0) (by rfl)
      (congrArg List.length (Memory.pending_busy hs hq)))
  | early hs hr hl => exact h.still rfl rfl rfl
  | answer ho hf hb hl =>
    exact h.reply (t := ⟨_, .memory, _, .response, _⟩) rfl rfl rfl rfl
      (outstanding_of_memory (by rfl) ho.length_pending)
  | @retry t d ho hg hl =>
    exact h.still rfl rfl (outstanding_of_memory (k := 0) (by rfl)
      (congrArg List.length ho.pending_responding))
  | halt hp => exact h.still rfl rfl rfl
  | work hp hl => exact h.still rfl rfl rfl
  | @issue i x rest r hp hr hi =>
    have hbalanced : ({ m.caches[i] with access := some (.start r) } : Cache g).Balanced :=
      Cache.balanced_submit (h.balanced i) hi r
    refine h.keep (Vector.forall_put (P := fun (j : Fin n) (c : Cache g) =>
      c.Balanced ∧ c.stats = m.caches[j].stats) ⟨hbalanced, rfl⟩ fun j => ⟨h.balanced j, rfl⟩)
      (fun _ _ => rfl) (Nat.le_refl _) (Nat.le_refl _)
  | @proceed i c bus ht hb _ _ _ => exact (audited_cache h (hs.tidy i) ht hb).still rfl rfl rfl
  | @await i c bus ht hb _ _ => exact audited_cache h (hs.tidy i) ht hb
  | @finish i c r ht _ _ _ => exact (audited_cache h (hs.tidy i) ht .free).still rfl rfl rfl

end Turn

/-! ## Broadcasts -/

section Aired

variable {m m' : Machine g n}

theorem Aired.carried_eq (h : m.Aired m') (f : Func) : m'.bus.carried f = m.bus.carried f := by
  obtain ⟨s, c, he⟩ := h.bus_eq
  rw [he]
  rfl

theorem length_handed_le (hs : m.Sound) (j : Fin n) :
    (m.handed j).toList.length ≤ m.bus.fresh .read := by
  cases hc : m.bus.current with
  | none =>
    have hcur : (m.seenBus j).current = none := (m.current_seenBus j).trans hc
    have hnone : m.handed j = none := by
      rw [handed, Cache.snoop, hcur]
    rw [hnone]
    exact Nat.zero_le _
  | some u =>
    rw [Bus.fresh_of_some hc]
    by_cases hf : u.func = .read
    · rw [if_pos hf]
      cases m.handed j <;> simp
    · rw [handed_eq_none hc hs hf]
      exact Nat.zero_le _

theorem length_memoryRequest_le (b : Bus) :
    b.memoryRequest.toList.length ≤ b.fresh .read + b.fresh .write := by
  unfold Bus.memoryRequest
  cases hc : b.current with
  | none => exact Nat.zero_le _
  | some u =>
    rw [Bus.fresh_of_some hc, Bus.fresh_of_some hc, Option.filter]
    cases u.func <;> simp

theorem outstanding_aired (h : m.Aired m') (hs : m.Sound) :
    m'.outstanding ≤ m.outstanding + (n + 1) * (m.bus.fresh .read + m.bus.fresh .write) := by
  have hmemory : m'.memory.pending.length ≤
      m.memory.pending.length + (m.bus.fresh .read + m.bus.fresh .write) := by
    obtain ⟨hp, -⟩ := m.memory.snoop_eq (m.seenBus n)
    have hlen := length_memoryRequest_le (m.seenBus n)
    rw [Bus.fresh, Bus.fresh, m.current_seenBus] at hlen
    rw [h.memory, hp, List.length_append]
    exact Nat.add_le_add_left hlen _
  have hqueues : ∑ j : Fin n, m'.forwarders[j].queue.length ≤
      ∑ j : Fin n, m.forwarders[j].queue.length + n * m.bus.fresh .read := by
    have hle : ∀ j : Fin n, m'.forwarders[j].queue.length ≤
        m.forwarders[j].queue.length + m.bus.fresh .read := fun j => by
      rw [h.forwarders j, Forwarder.queue_accept, List.length_append]
      exact Nat.add_le_add_left (length_handed_le hs j) _
    refine Nat.le_trans (sum_le_sum fun j _ => hle j) (Nat.le_of_eq ?_)
    simp [sum_add_distrib]
  have hle : n * m.bus.fresh .read ≤ n * (m.bus.fresh .read + m.bus.fresh .write) :=
    Nat.mul_le_mul_left n (Nat.le_add_right _ _)
  rw [outstanding, outstanding, Nat.add_mul, Nat.one_mul]
  omega

/-- **A broadcast keeps the accounts balanced**, and leaves no request that has not been looked
at. -/
theorem audited_aired (h : m.AuditedNow) (hs : m.Sound) (ha : m.Aired m') : m'.Audited 0 0 := by
  have hcarried := ha.carried_eq
  have hcache : ∀ j : Fin n, ∃ c d, m.caches[j].Endures c d ∧ c.Heeds m'.caches[j] ∧
      m'.caches[j].Balanced ∧ d ≤ m.bus.fresh .write + m.bus.fresh .invalidate := fun j => by
    obtain ⟨d, hd, he, hcause⟩ := m.caches[j].endures_snoop (m.seenBus j)
    refine ⟨_, d, he, ha.heeds j,
      ha.caches j ▸ Cache.balanced_observe (Cache.balanced_endures (h.balanced j) he) _, ?_⟩
    obtain rfl | hpos := Nat.eq_zero_or_pos d
    · exact Nat.zero_le _
    · obtain ⟨t, ht, hf⟩ := hcause hpos
      have ht : m.bus.current = some t := (m.current_seenBus j).symm.trans ht
      rw [Bus.fresh_of_some ht, Bus.fresh_of_some ht]
      obtain hf | hf := hf <;> rw [hf] <;> exact hd
  have hstats : ∀ j : Fin n,
      (m'.caches[j] : Cache g).stats.writeBacks = m.caches[j].stats.writeBacks ∧
      (m'.caches[j] : Cache g).stats.invalidationsSent = m.caches[j].stats.invalidationsSent ∧
      (m'.caches[j] : Cache g).stats.busAcquisitions = m.caches[j].stats.busAcquisitions ∧
      (m'.caches[j] : Cache g).stats.invalidated ≤ m.caches[j].stats.invalidated +
        (m.bus.fresh .write + m.bus.fresh .invalidate) := fun j => by
    obtain ⟨c, d, he, hh, -, hd⟩ := hcache j
    obtain ⟨hw, hi, hb, hl⟩ := hh.stats
    obtain ⟨f, hf⟩ := he.stats
    rw [hw, hi, hb, hl, hf]
    exact ⟨rfl, rfl, rfl, Nat.add_le_add_left hd _⟩
  refine ⟨fun j => ?_, ?_, ?_, ?_, fun j => ?_, ?_⟩
  · obtain ⟨c, d, -, -, hp, -⟩ := hcache j
    exact hp
  · rw [hcarried, ← h.writes]
    exact sum_congr rfl fun j _ => (hstats j).1
  · rw [hcarried, ← h.invalidations]
    exact sum_congr rfl fun j _ => (hstats j).2.1
  · rw [Bus.asked, hcarried, hcarried, hcarried]
    refine Eq.trans ?_ h.acquisitions
    exact sum_congr rfl fun j _ => (hstats j).2.2.1
  · rw [hcarried, hcarried]
    exact Nat.le_trans (hstats j).2.2.2 (h.invalidated j)
  · have hout := outstanding_aired ha hs
    have hanswers := h.answers
    rw [Bus.answered, hcarried, hcarried, hcarried, hcarried]
    rw [Bus.answered] at hanswers
    omega

end Aired

/-! ## The requests of the programs -/

/-- The requests that a core has made or will make. -/
def load (m : Machine g n) (i : Fin n) : Nat := m.caches[i].taken + m.cores[i].program.requests

/-- The writes that a core has made or will make. -/
def writeLoad (m : Machine g n) (i : Fin n) : Nat :=
  m.caches[i].writesTaken + m.cores[i].program.writes

/-- **The cores make the requests of their programs**, no matter when. -/
def SameLoads (m m' : Machine g n) : Prop :=
  ∀ i, m'.load i = m.load i ∧ m'.writeLoad i = m.writeLoad i

theorem SameLoads.trans {m₁ m₂ m₃ : Machine g n} (h : m₁.SameLoads m₂) (h' : m₂.SameLoads m₃) :
    m₁.SameLoads m₃ := fun i =>
  ⟨(h' i).1.trans (h i).1, (h' i).2.trans (h i).2⟩

section Loads

variable {m m' : Machine g n} {p : Agent (Fin n)} {i : Fin n}

theorem sameLoads_of {c : Cache g} {k : Core} (hc : m'.caches = m.caches.put i c)
    (hk : m'.cores = m.cores.put i k)
    (hr : c.taken + k.program.requests = m.load i)
    (hw : c.writesTaken + k.program.writes = m.writeLoad i) : m.SameLoads m' := fun j => by
  rw [load, writeLoad, hc, hk]
  by_cases hj : j = i
  · subst hj
    rw [Vector.getElem_put_self, Vector.getElem_put_self]
    exact ⟨hr, hw⟩
  · rw [Vector.getElem_put_of_ne _ _ hj, Vector.getElem_put_of_ne _ _ hj]
    exact ⟨rfl, rfl⟩

theorem sameLoads_cache {x : Turn g} (hx : m.caches[i].tick m.bus m.now = x)
    (hc : m'.caches = m.caches.put i x.cache) {k : Core} (hk : m'.cores = m.cores.put i k)
    (hp : k.program = m.cores[i].program) : m.SameLoads m' := by
  obtain ⟨hr, hw⟩ := (m.caches[i].deed_tick m.bus m.now).requests
  rw [hx] at hr hw
  exact sameLoads_of hc hk (by rw [hr, hp]; rfl) (by rw [hw, hp]; rfl)

/-- **A turn makes no request that is not in a program.** -/
theorem Acts.sameLoads (ha : m.Acts p m') : m.SameLoads m' := by
  cases ha with
  | @halt i hp =>
    exact sameLoads_of (i := i) (c := m.caches[i])
      (k := { m.cores[i] with activity := .done, doneAt := some m.now })
      (Vector.put_getElem _ _).symm rfl rfl rfl
  | @work i d rest hp hl =>
    refine sameLoads_of (i := i) (c := m.caches[i]) (Vector.put_getElem _ _).symm rfl ?_ ?_
    · rw [load, hp]
      rfl
    · rw [writeLoad, hp]
      rfl
  | @issue i x rest r hp hr hi =>
    refine sameLoads_of (i := i) rfl rfl ?_ ?_
    · rw [load, hp, Program.requests_cons, hr, Cache.taken, Cache.taken, hi]
      simp only [Option.isSome_some, Option.isSome_none, Bool.toNat_true, Bool.toNat_false]
      omega
    · rw [writeLoad, hp, Program.writes_cons, hr, Cache.writesTaken, Cache.writesTaken, hi]
      simp only [Option.any_some, Option.any_none, Access.start, Bool.toNat_false]
      omega
  | @proceed i c bus ht =>
    exact sameLoads_cache ht rfl (Vector.put_getElem _ _).symm rfl
  | @await i c bus ht =>
    exact sameLoads_cache ht rfl (Vector.put_getElem _ _).symm rfl
  | @finish i c r ht => exact sameLoads_cache ht rfl rfl rfl
  | _ => exact fun j => ⟨rfl, rfl⟩

theorem Aired.sameLoads (h : m.Aired m') : m.SameLoads m' := fun j => by
  obtain ⟨d, -, he, -⟩ := m.caches[j].endures_snoop (m.seenBus j)
  obtain ⟨ht, hw⟩ := he.requests
  obtain ⟨ht', hw'⟩ := (h.heeds j).requests
  rw [load, writeLoad, h.cores, ht', hw', ht, hw]
  exact ⟨rfl, rfl⟩

end Loads

/-! ## Cycles -/

section Cycle

variable {m m' x : Machine g n} {p : Agent (Fin n)} {t : Nat} {l : List (Agent (Fin n))}

/-- **A turn counts what it drives.** -/
theorem Acts.carried_eq (ha : m.Acts p m') (f : Func) :
    m'.bus.carried f + m.bus.fresh f = m.bus.carried f + m'.bus.fresh f := by
  cases ha with
  | send _ hb =>
    rw [Bus.fresh_of_none hb]
    exact Bus.carried_of_driven rfl rfl f
  | answer _ _ hb =>
    rw [Bus.fresh_of_none hb]
    exact Bus.carried_of_driven rfl rfl f
  | proceed _ hb => exact Bus.carried_of_asked hb f
  | await _ hb => exact Bus.carried_of_asked hb f
  | _ => rfl

theorem carried_boot (spec : Spec) (programs : Vector Program n) (f : Func) :
    (boot g spec programs).bus.carried f = 0 :=
  Vector.getElem_replicate_place _ _

theorem loads_boot (spec : Spec) (programs : Vector Program n) (i : Fin n) :
    (boot g spec programs).load i = programs[i].requests ∧
      (boot g spec programs).writeLoad i = programs[i].writes := by
  rw [load, writeLoad, cache_boot, core_boot]
  exact ⟨Nat.zero_add _, Nat.zero_add _⟩

theorem audited_boot (spec : Spec) (programs : Vector Program n) :
    (boot g spec programs).Audited 0 0 := by
  have hcache : ∀ i : Fin n, (boot g spec programs).caches[i].Balanced ∧
      (boot g spec programs).caches[i].stats = {} := fun i => by
    rw [cache_boot]
    exact ⟨Cache.balanced_empty _ _, rfl⟩
  have hout : (boot g spec programs).outstanding = 0 := by
    refine (Nat.zero_add _).trans (sum_eq_zero fun j _ => ?_)
    rw [forwarder_boot]
    rfl
  refine ⟨fun i => (hcache i).1, ?_, ?_, ?_, fun i => ?_, ?_⟩
  · simp [hcache, carried_boot]
  · simp [hcache, carried_boot]
  · simp [hcache, carried_boot, Bus.asked]
  · rw [(hcache i).2]
    exact Nat.zero_le _
  · simp [carried_boot, Bus.answered, hout]

/-- **A cycle keeps the accounts balanced**, makes no request that is not in a program, and counts
what it drives. -/
theorem Round.accounts (h : m.Round t l x m') (h₀ : Awake 0 (m.started t)) (hm : m.Audited 0 0) :
    m'.Audited 0 0 ∧ m.SameLoads m' ∧ ∀ f, m'.bus.carried f = m.bus.carried f + m'.bus.fresh f := by
  obtain ⟨k, hx, ⟨haudit, hloads, hcarried⟩, -⟩ := h.within.induct h₀
    (P := fun _ y => y.AuditedNow ∧ m.SameLoads y ∧
      ∀ f, y.bus.carried f = m.bus.carried f + y.bus.fresh f)
    ⟨hm.still rfl rfl rfl, fun _ => ⟨rfl, rfl⟩, fun _ => rfl⟩
    fun {k y p q y'} hy ⟨haudit, hloads, hcarried⟩ hq _ ha ht => by
      have haudit : { y with queue := q }.AuditedNow := haudit.still rfl rfl rfl
      refine ⟨audited_acts haudit (hy.sound.congr rfl rfl rfl rfl) ha, hloads.trans ha.sameLoads,
        fun f => ?_⟩
      have heq : y'.bus.carried f + y.bus.fresh f = y.bus.carried f + y'.bus.fresh f :=
        ha.carried_eq f
      have := hcarried f
      omega
  refine ⟨audited_aired haudit hx.sound h.aired, hloads.trans h.aired.sameLoads, fun f => ?_⟩
  rw [h.aired.carried_eq, Bus.fresh, h.aired.current_eq]
  exact hcarried f

end Cycle

/-! ## What the accounts come to -/

/-- The requests of all programs. -/
def requests (m : Machine g n) : Nat := ∑ i, m.load i

/-- The writes of all programs. -/
def writes (m : Machine g n) : Nat := ∑ i, m.writeLoad i

/-- The attempts that can start over. -/
def restarts (m : Machine g n) : Nat := ∑ i : Fin n, m.caches[i].stats.restarts

/-- **The programs bound everything that is driven.** -/
theorem Audited.bounds {m : Machine g n} (h : m.Audited 0 0) (hs : m.Sound) :
    m.bus.carried .write ≤ m.writes ∧ m.bus.carried .invalidate ≤ m.writes ∧
    m.restarts ≤ n * (2 * m.writes) ∧ m.bus.carried .read ≤ m.requests + m.restarts ∧
    m.bus.answered ≤ (n + 1) * (m.bus.carried .read + m.bus.carried .write) := by
  have hbalanced := fun i => (h.balanced i).bounds (hs.tidy i)
  have hwrite : m.bus.carried .write ≤ m.writes := by
    rw [← h.writes]
    exact sum_le_sum fun i _ => Nat.le_trans (hbalanced i).1 (Nat.le_add_right _ _)
  have hinvalidate : m.bus.carried .invalidate ≤ m.writes := by
    rw [← h.invalidations]
    exact sum_le_sum fun i _ => Nat.le_trans (hbalanced i).2.1 (Nat.le_add_right _ _)
  refine ⟨hwrite, hinvalidate, ?_, ?_, ?_⟩
  · have hle : ∀ i : Fin n, m.caches[i].stats.restarts ≤ 2 * m.writes := fun i => by
      have hr := (hbalanced i).2.2.2.1
      have hi := h.invalidated i
      omega
    refine Nat.le_trans (sum_le_sum fun i _ => hle i) (Nat.le_of_eq ?_)
    simp
  · have hasked : m.bus.asked ≤ ∑ i : Fin n, (m.caches[i].stats.writeBacks +
        m.caches[i].stats.invalidationsSent + (m.load i + m.caches[i].stats.restarts)) := by
      rw [← h.acquisitions]
      refine sum_le_sum fun i _ => Nat.le_trans (hbalanced i).2.2.1 ?_
      have hle : m.caches[i].taken ≤ m.load i := Nat.le_add_right _ _
      omega
    have hw := h.writes
    have hi := h.invalidations
    simp only [sum_add_distrib] at hasked
    unfold Bus.asked at hasked
    unfold requests restarts
    omega
  · have hans := h.answers
    omega

end Machine

end Snooping
