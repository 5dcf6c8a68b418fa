import Snooping.Proofs.Solo.Turns

/-!
# The stations of an access

Between two cycles of a machine with one core somebody is due: the core, its cache, or memory. A
request takes the machine from the core to the cache, each of its transfers takes it by way of
memory back to the cache, and the answer to the request takes it back to the core.

* `Bus.Free`, `Memory.Rests`, `Memory.Asked`, `Memory.Busy`: nobody waits for the bus; memory
  sleeps, has been asked, and is at work.
* **`Machine.At`**: the machine at a station, with `Machine.At.leads`; `Machine.CoreDue`,
  `Machine.CacheDue`, `Machine.MemoryDue`, `Machine.AnswerDue`: the stations.
* `Machine.CoreDue.work`, `Machine.CoreDue.issue`, `Machine.CacheDue.done`,
  `Machine.CacheDue.request`, `Machine.MemoryDue.begin`, `Machine.AnswerDue.answer`: the ways
  between them.
* **`Machine.CacheDue.completes`**: the rest of an access; **`Machine.CoreDue.access`**: all of it.
-/

namespace Snooping

variable {g : Geometry}

/-- Nobody waits for the bus. -/
structure Bus.Free (b : Bus) : Prop where
  forward : b.forwardIntended = false
  response : b.responseIntended = false

theorem Bus.Free.grants {b : Bus} (h : b.Free) (t : Nat) : (b.begin t).grants .core := by
  simp [Bus.grants, mustYield, begin, h.forward, h.response]

theorem Bus.Free.begin {b : Bus} (h : b.Free) (t : Nat) : (b.begin t).Free :=
  ⟨h.forward, h.response⟩

theorem Bus.current_begin (b : Bus) (t : Nat) : (b.begin t).current = none := rfl

/-- Memory has nothing to do. -/
structure Memory.Drained (y : Memory) (s : Spec) : Prop where
  service : y.service = .idle
  queue : y.queue = []
  spec : y.spec = s

/-- Memory sleeps. -/
structure Memory.Rests (y : Memory) (s : Spec) : Prop extends y.Drained s where
  cold : y.cold
  parked : y.parked

/-- Memory has been asked for `u` in its sleep. -/
structure Memory.Asked (y : Memory) (s : Spec) (u : Transfer) : Prop where
  service : y.service = .idle
  queue : y.queue = [u]
  cold : y.cold
  spec : y.spec = s

/-- Memory is at work on `u` until cycle `t`. -/
structure Memory.Busy (y : Memory) (s : Spec) (u : Transfer) (t : Nat) : Prop where
  service : y.service = .busy u t
  queue : y.queue = []
  spec : y.spec = s

namespace Machine

/-- **The machine at a station**: who is due, and what memory is like. -/
inductive At (s : Spec) (due : List (Nat × Agent (Fin 1))) (Y : Memory → Prop) (c : Cache g)
    (k : Core) : Machine g 1 → Prop
  | intro {b : Bus} {f : Forwarder} {y : Memory} {t₀ : Nat} (hk : k.isDone = false) (hb : b.Free)
      (hy : Y y) : At s due Y c k (solo s b c f y k ⟨t₀, due⟩)

/-- **The core is due** in cycle `t`. -/
def CoreDue (s : Spec) (t : Nat) (c : Cache g) (k : Core) (m : Machine g 1) : Prop :=
  At s [(t, .core 0)] (Memory.Rests · s) c k m

/-- **Memory is due** in cycle `t` to begin with request `u`. -/
def MemoryDue (s : Spec) (t : Nat) (u : Transfer) (c : Cache g) (k : Core) (m : Machine g 1) :
    Prop :=
  At s [(t, .memory)] (Memory.Asked · s u) c k m

/-- **Memory is due** in cycle `t` to answer request `u`. -/
def AnswerDue (s : Spec) (t : Nat) (u : Transfer) (c : Cache g) (k : Core) (m : Machine g 1) :
    Prop :=
  At s [(t, .memory)] (Memory.Busy · s u t) c k m

/-- **The cache is due** in cycle `t`, and maybe memory, which has nothing to do. -/
def CacheDue (s : Spec) (t : Nat) (c : Cache g) (k : Core) (m : Machine g 1) : Prop :=
  At s [(t, .cache 0)] (Memory.Rests · s) c k m ∨
    At s [(t, .memory), (t, .cache 0)] (Memory.Drained · s) c k m

section Stations

variable {s : Spec} {t : Nat} {c c' : Cache g} {k : Core} {m : Machine g 1}

theorem allDone_solo {b : Bus} {f : Forwarder} {y : Memory} {q : WakeQueue (Agent (Fin 1))} :
    (solo s b c f y k q).allDone = k.isDone := by
  simp [allDone, solo]

theorem cycle_next {b : Bus} {f : Forwarder} {y : Memory} {p : Agent (Fin 1)}
    {rest : List (Nat × Agent (Fin 1))} {x : Machine g 1}
    (h : (solo s b c f y k ⟨t, rest⟩).runAgent p = .ok x) (fuel : Nat) :
    runDueFor (fuel + 1) (solo s b c f y k ⟨t, (t, p) :: rest⟩) >>= broadcast =
      runDueFor fuel x >>= broadcast := by
  rw [runDueFor_due rfl]
  show ((solo s b c f y k ⟨t, rest⟩).runAgent p >>= _) >>= _ = _
  rw [h]
  rfl

theorem cycle_last {b : Bus} {f : Forwarder} {y : Memory} {p : Agent (Fin 1)}
    {x m' : Machine g 1} (h : (solo s b c f y k ⟨t, []⟩).runAgent p = .ok x)
    (hx : ∀ e ∈ x.queue.pending, x.now < e.1) (hb : x.broadcast = .ok m') (fuel : Nat) :
    runDueFor (fuel + 2) (solo s b c f y k ⟨t, [(t, p)]⟩) >>= broadcast = .ok m' := by
  rw [cycle_next h, runDueFor_over hx]
  exact hb

namespace At

variable {due : List (Nat × Agent (Fin 1))} {Y : Memory → Prop}

theorem isDone (h : At s due Y c k m) : k.isDone = false := by
  cases h
  assumption

/-- **A cycle leads on from a station** if it comes to its end, whatever the bus has recorded. -/
theorem leads (h : At s due Y c k m) (hs : s.maxCycles = none)
    (ht : (⟨0, due⟩ : WakeQueue (Agent (Fin 1))).nextTime = some t) {d : Nat} (hd : 0 < d)
    {Q : Machine g 1 → Prop}
    (hcycle : ∀ (b : Bus) (f : Forwarder) (y : Memory), b.Free → Y y → ∃ m',
      runDueFor 5 (solo s (b.begin t) c f y k ⟨t, due⟩) >>= broadcast = .ok m' ∧ Q m') :
    ∃ m', m.Leads m' d ∧ Q m' := by
  cases h with
  | @intro b f y t₀ hk hb hy =>
    obtain ⟨m', hcycle, hm'⟩ := hcycle b f y hb hy
    exact ⟨m', .of_cycle hs (allDone_solo.trans hk) ht hcycle hd, hm'⟩

end At

/-! ## From the core -/

namespace CoreDue

theorem work (h : CoreDue s t c k m) (hs : s.maxCycles = none) {d : UInt32} {rest : Program}
    (hp : k.program = .other d :: rest) (ht : t + Core.duration d < UInt64.size) :
    ∃ m', m.Leads m' (Core.duration d) ∧ CoreDue s (t + Core.duration d) c { k with
      activity := .busy
      program := rest
      otherCycles := k.otherCycles + Core.duration d } m' := by
  have hd := Core.duration_pos d
  refine h.leads (t := t) hs rfl hd fun b f y hb hy => ?_
  have hcycle := cycle_last (runAgent_work (s := s) (b := b.begin t) (c := c) (f := f) (y := y)
    (q := ⟨t, []⟩) hp ht) (List.forall_mem_singleton.mpr (Nat.lt_add_of_pos_right hd))
    (broadcast_of_undriven (b.current_begin t))
  exact ⟨_, hcycle 3, .intro rfl (hb.begin t) hy⟩

theorem issue (h : CoreDue s t c k m) (hs : s.maxCycles = none) {x : Instr} {r : Request}
    {rest : Program} (hp : k.program = x :: rest) (hx : x.request? = some r)
    (hc : c.access = none)
    (htick : ∀ b t, ({ c with access := some (.start r) } : Cache g).tick b t = c'.goOn b)
    (ht : t + 1 < UInt64.size) :
    ∃ m', m.Leads m' 1 ∧
      CacheDue s (t + 1) c' { k with activity := .waiting, program := rest } m' := by
  refine h.leads (t := t) hs rfl Nat.one_pos fun b f y hb hy => ?_
  have hcycle := cycle_last (runAgent_goOn (s := s) (f := f) (y := y)
    (k := { k with activity := .waiting, program := rest }) (q := ⟨t, []⟩) (htick (b.begin t) t) ht)
    (List.forall_mem_singleton.mpr (Nat.lt_succ_self t)) (broadcast_of_undriven (b.current_begin t))
  exact ⟨_, (cycle_next (runAgent_issue hp hx hc) 4).trans (hcycle 2),
    .inl (.intro rfl (hb.begin t) hy)⟩

end CoreDue

/-! ## From the cache -/

namespace CacheDue

theorem isDone (h : CacheDue s t c k m) : k.isDone = false :=
  h.elim At.isDone At.isDone

theorem leads (h : CacheDue s t c k m) (hs : s.maxCycles = none) {Q : Machine g 1 → Prop}
    (hcycle : ∀ (b : Bus) (f : Forwarder) (y : Memory), b.Free → y.Rests s → ∃ m',
      (∀ fuel, runDueFor (fuel + 2) (solo s (b.begin t) c f y k ⟨t, [(t, .cache 0)]⟩) >>=
        broadcast = .ok m') ∧ Q m') :
    ∃ m', m.Leads m' 1 ∧ Q m' := by
  obtain h | h := h
  · refine h.leads hs rfl Nat.one_pos fun b f y hb hy => ?_
    obtain ⟨m', hcycle, hm'⟩ := hcycle b f y hb hy
    exact ⟨m', hcycle 3, hm'⟩
  · refine h.leads hs rfl Nat.one_pos fun b f y hb hy => ?_
    obtain ⟨m', hcycle, hm'⟩ := hcycle b f { y with cold := true, parked := true } hb
      ⟨⟨hy.service, hy.queue, hy.spec⟩, rfl, rfl⟩
    exact ⟨m', (cycle_next (runAgent_drain hy.service hy.queue) 4).trans (hcycle 2), hm'⟩

theorem done (h : CacheDue s t c k m) (hs : s.maxCycles = none) {r : Request} {hit : Bool}
    {P : Cache g → Prop} (hc : c.Completes r hit P 0) (ht : t + 1 < UInt64.size) :
    ∃ m', m.Leads m' 1 ∧
      ∃ v c', P c' ∧ CoreDue s (t + 1) c' (k.receive ⟨r, v, hit, t⟩) m' := by
  refine h.leads hs fun b f y hb hy => ?_
  obtain ⟨v, c', htick, hp⟩ := hc (b.begin t) t
  have hcycle := cycle_last
    (runAgent_done (s := s) (f := f) (y := y) (k := k) (q := ⟨t, []⟩) htick ht)
    (List.forall_mem_singleton.mpr (Nat.lt_succ_self t)) (broadcast_of_undriven (b.current_begin t))
  exact ⟨_, hcycle, v, c', hp, .intro rfl (hb.begin t) hy⟩

theorem request (h : CacheDue s t c k m) (hs : s.maxCycles = none) {u : Transfer}
    (hu : u.requester = c.id) (hf : u.func = .read ∨ u.func = .write) {P : Cache g → Prop}
    (htick : ∀ b : Bus, b.grants .core → ∃ c' : Cache g, c.tick b t = c'.sleep (b.drive u) ∧
      c'.id = c.id ∧ P c')
    (ht : t + 1 < UInt64.size) :
    ∃ m', m.Leads m' 1 ∧ ∃ c', u.requester = c'.id ∧ P c' ∧ MemoryDue s (t + 1) u c' k m' := by
  refine h.leads hs fun b f y hb hy => ?_
  obtain ⟨c', htick, hid, hp⟩ := htick _ (hb.grants t)
  have hrequest : ((b.begin t).drive u).memoryRequest = some u := by
    obtain hf | hf := hf <;> simp [Bus.memoryRequest, Bus.drive, Bus.begin, Option.filter, hf]
  have hanswer : u.func.isAnswer = false := by
    obtain hf | hf := hf <;> rw [hf] <;> rfl
  have hqueue : (y.enqueue u).2.queue = [u] := by
    rw [Memory.enqueue, hy.queue]
    rfl
  have hu' := hu.trans hid.symm
  have hcycle := cycle_last
    (runAgent_sleep (s := s) (f := f) (y := y) (k := k) (q := ⟨t, []⟩) htick)
    (List.forall_mem_nil _) (broadcast_asked rfl hu' hrequest hanswer hy.parked ht)
  exact ⟨_, hcycle, c', hu', hp, .intro h.isDone ⟨hb.forward, hb.response⟩
    ⟨hy.service, hqueue, hy.cold, hy.spec⟩⟩

end CacheDue

/-! ## From memory -/

theorem add_cache (t t' : Nat) :
    (⟨t, [(t', .memory)]⟩ : WakeQueue (Agent (Fin 1))).add t' (.cache 0) =
      ⟨t, [(t', .memory), (t', .cache 0)]⟩ := by
  have hc : WakeQueue.comparePair (t', Agent.cache (0 : Fin 1)) (t', .memory) = .gt := by
    show (compare t' t').then (compare (Agent.cache (0 : Fin 1)) .memory) = .gt
    rw [Nat.compare_eq_eq.mpr rfl]
    rfl
  rw [WakeQueue.add, WakeQueue.insertPair, hc]
  rfl

theorem MemoryDue.begin {u : Transfer} (h : MemoryDue s t u c k m) (hs : s.maxCycles = none)
    (hcold : 0 < s.coldLatency.toNat) (ht : t + s.coldLatency.toNat < UInt64.size) :
    ∃ m', m.Leads m' s.coldLatency.toNat ∧ AnswerDue s (t + s.coldLatency.toNat) u c k m' := by
  refine h.leads (t := t) hs rfl hcold fun b f y hb hy => ?_
  have hlatency : y.spec.latency y.cold = s.coldLatency.toNat := by
    rw [hy.spec, hy.cold]
    rfl
  have hturn := runAgent_begin (s := s) (b := b.begin t) (c := c) (f := f) (k := k)
    (q := ⟨t, []⟩) hy.service hy.queue (by rwa [hlatency])
  rw [hlatency] at hturn
  have hcycle := cycle_last hturn
    (List.forall_mem_singleton.mpr (Nat.lt_add_of_pos_right hcold))
    (broadcast_of_undriven (b.current_begin t))
  exact ⟨_, hcycle 3, .intro h.isDone (hb.begin t) ⟨rfl, rfl, hy.spec⟩⟩

theorem AnswerDue.answer {u : Transfer} (h : AnswerDue s t u c k m) (hs : s.maxCycles = none)
    (hu : u.requester = c.id) {P : Cache g → Prop}
    (hanswer : ∀ (b : Bus) (d : Option Block), b.current = some (u.reply d) → b.shared = false →
      (c.observe b).1 = true ∧ P (c.observe b).2)
    (ht : t + 1 < UInt64.size) :
    ∃ m', m.Leads m' 1 ∧ ∃ c', P c' ∧ CacheDue s (t + 1) c' k m' := by
  refine h.leads (t := t) hs rfl Nat.one_pos fun b f y hb hy => ?_
  have hturn := runAgent_answer (s := s) (b := b.begin t) (c := c) (f := f) (k := k)
    (q := ⟨t, []⟩) hy.service hb.forward (b.current_begin t) ht
  obtain ⟨hidle, hempty, hspec⟩ := y.service_served u
  generalize hb' : ({ (b.begin t).drive (u.reply (y.answerData u)) with
    responseIntended := false } : Bus) = b' at hturn
  have hcurrent : b'.current = some (u.reply (y.answerData u)) := hb' ▸ rfl
  obtain ⟨hwoken, hp⟩ := hanswer b' _ hcurrent (hb' ▸ rfl)
  have hseen := broadcast_answered (s := s) (f := f) (y := y.served u) (k := k)
    (q := ⟨t, [(t + 1, .memory)]⟩) hcurrent hu hwoken ht
  rw [add_cache] at hseen
  have hcycle := cycle_last hturn (List.forall_mem_singleton.mpr (Nat.lt_succ_self _)) hseen
  exact ⟨_, hcycle 3, _, hp, .inr (.intro h.isDone ⟨hb' ▸ hb.forward, hb' ▸ rfl⟩
    ⟨hidle, hempty.trans hy.queue, hspec.trans hy.spec⟩)⟩

/-! ## Whole accesses -/

/-- **The rest of an access.** Each of its transfers takes the latency and two cycles more. -/
theorem CacheDue.completes {j : Nat} {r : Request} {hit : Bool} {P : Cache g → Prop}
    (hc : c.Completes r hit P j) (h : CacheDue s t c k m) (hs : s.maxCycles = none)
    (hcold : 0 < s.coldLatency.toNat)
    (ht : t + j * (s.coldLatency.toNat + 2) + 1 < UInt64.size) :
    ∃ m', m.Leads m' (j * (s.coldLatency.toNat + 2) + 1) ∧ ∃ v c', P c' ∧
      CoreDue s (t + j * (s.coldLatency.toNat + 2) + 1) c'
        (k.receive ⟨r, v, hit, t + j * (s.coldLatency.toNat + 2)⟩) m' := by
  induction j generalizing t c m with
  | zero =>
    simp only [Nat.zero_mul, Nat.add_zero, Nat.zero_add] at ht ⊢
    exact h.done hs hc ht
  | succ j ih =>
    have hmul : (j + 1) * (s.coldLatency.toNat + 2) =
        1 + s.coldLatency.toNat + 1 + j * (s.coldLatency.toNat + 2) := by
      rw [Nat.succ_mul]
      omega
    rw [hmul] at ht ⊢
    obtain ⟨u, hu, hf, htick⟩ := hc
    obtain ⟨m₁, hrequest, c₁, hu₁, hanswer, h₁⟩ :=
      h.request hs hu hf (fun b => htick b t) (by omega)
    obtain ⟨m₂, hbegin, h₂⟩ := h₁.begin hs hcold (by omega)
    obtain ⟨m₃, hreply, c₃, hc₃, h₃⟩ := h₂.answer hs hu₁ hanswer (by omega)
    obtain ⟨m', hleads, v, c', hp, h'⟩ := ih hc₃ h₃ (by omega)
    refine ⟨m', ((hrequest.trans hbegin).trans hreply).trans hleads, v, c', hp, ?_⟩
    simpa only [Nat.add_assoc] using h'

/-- **An access takes the cycles that it costs** on the ideal cache, and is found if it is there. -/
theorem CoreDue.access {past : List Request} {r : Request} {x : Instr} {rest : Program}
    (h : CoreDue s t c k m) (hs : s.maxCycles = none) (hcold : 0 < s.coldLatency.toNat)
    (hc : c.Mirrors past) (hv : Ideal.visits g (g.index r.addr) past < c.maxCounter)
    (hp : k.program = x :: rest) (hx : x.request? = some r)
    (ht : t + r.cost g s.coldLatency.toNat past < UInt64.size) :
    ∃ m', m.Leads m' (r.cost g s.coldLatency.toNat past) ∧
      ∃ v c', Cache.Mirrors.After c past r c' ∧
      CoreDue s (t + r.cost g s.coldLatency.toNat past) c'
        (Core.receive { k with activity := .waiting, program := rest }
          ⟨r, v, Ideal.hits g past r, t + r.cost g s.coldLatency.toNat past - 1⟩) m' := by
  rw [Request.cost_eq] at ht ⊢
  obtain ⟨c₁, htick, -, hcompletes⟩ := hc.completes hv
  obtain ⟨m₁, hissue, h₁⟩ := h.issue hs hp hx hc.idle htick (by omega)
  obtain ⟨m', hleads, v, c', hafter, h'⟩ := h₁.completes hcompletes hs hcold (by omega)
  refine ⟨m', ?_, v, c', hafter, ?_⟩
  · rw [show Ideal.transfers g past r * (s.coldLatency.toNat + 2) + 2 =
      1 + (Ideal.transfers g past r * (s.coldLatency.toNat + 2) + 1) by omega]
    exact hissue.trans hleads
  · rw [show t + (Ideal.transfers g past r * (s.coldLatency.toNat + 2) + 2) =
      t + 1 + Ideal.transfers g past r * (s.coldLatency.toNat + 2) + 1 by omega]
    exact h'

end Stations

end Machine

end Snooping
