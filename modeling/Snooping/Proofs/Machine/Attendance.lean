import Snooping.Proofs.Machine.Actions

/-!
# Who is awake

An agent sleeps only when somebody else will wake it: a forwarder and memory once they have nothing
to do, a core while its cache works, and a cache while it waits for an answer. Everybody else waits
for one cycle.

* **`WakeQueue.Attends`**, with `WakeQueue.attends_fetch` and `WakeQueue.attends_add`: everybody who
  does not sleep waits for one cycle.
* `Machine.Asleep`: who sleeps.
* **`Machine.Attended`**: what the queue knows of the members, and the bus of those that wait for
  it.
* **`Machine.attended_acts`**: every turn keeps it.
-/

namespace Snooping

variable {g : Geometry} {n : Nat}

/-! ## Queues -/

namespace WakeQueue

/-- **Everybody who does not sleep waits for one cycle.** -/
structure Attends (q : WakeQueue (Agent (Fin n))) (asleep : Agent (Fin n) → Prop) : Prop where
  once : ∀ {p t t'}, (t, p) ∈ q.pending → (t', p) ∈ q.pending → t = t'
  awake : ∀ p, (∃ t, (t, p) ∈ q.pending) ↔ ¬ asleep p
  bounded : ∀ e ∈ q.pending, e.1 < UInt64.size

variable {q q' : WakeQueue (Agent (Fin n))} {A B : Agent (Fin n) → Prop} {p : Agent (Fin n)}
  {k t : Nat}

theorem Attends.congr (h : q.Attends A) (hab : ∀ a, B a ↔ A a) : q.Attends B :=
  ⟨h.once, fun a => (h.awake a).trans (not_congr (hab a)).symm, h.bounded⟩

theorem attends_fetch (h : q.Attends A) (ht : q.Timed k) (hq : q.fetch = .ok (some (p, q'))) :
    ¬ A p ∧ q'.Attends fun a => some p = some a ∨ A a := by
  obtain ⟨-, hpending⟩ := fetch_eq_some hq
  obtain ⟨-, htimed⟩ := timed_fetch hq ht
  have hmem : ∀ {e}, e ∈ q'.pending → e ∈ q.pending := fun he =>
    hpending ▸ List.mem_cons_of_mem _ he
  have hhead : (q.now, p) ∈ q.pending := hpending ▸ List.mem_cons_self
  have hgone : ∀ u, (u, p) ∉ q'.pending := fun u hu => by
    obtain rfl : u = q.now := h.once (hmem hu) hhead
    rw [← now_of_fetch hq] at hu
    have := htimed.later p hu
    omega
  refine ⟨(h.awake p).mp ⟨_, hhead⟩, fun ha hb => h.once (hmem ha) (hmem hb), fun a => ?_,
    fun e he => h.bounded e (hmem he)⟩
  by_cases hap : p = a
  · subst hap
    exact iff_of_false (fun ⟨u, hu⟩ => hgone u hu) (not_not.mpr (.inl rfl))
  · have hsame : ∀ u, (u, a) ∈ q'.pending ↔ (u, a) ∈ q.pending := fun u => by
      rw [hpending, List.mem_cons, or_iff_right]
      exact fun e => hap (Prod.mk.inj e).2.symm
    simp only [hsame, h.awake a, Option.some.injEq, hap, false_or]

theorem attends_add (h : q.Attends A) (hp : A p) (ht : t < UInt64.size) :
    (q.add t p).Attends fun a => a ≠ p ∧ A a := by
  have hgone : ∀ u, (u, p) ∉ q.pending := fun u hu => (h.awake p).mp ⟨u, hu⟩ hp
  refine ⟨fun {a u u'} hu hu' => ?_, fun a => ?_, fun e he => ?_⟩
  · obtain he | he := mem_add.mp hu
    · obtain ⟨rfl, rfl⟩ := Prod.mk.inj he
      obtain he | he := mem_add.mp hu'
      · exact (Prod.mk.inj he).1.symm
      · exact absurd he (hgone _)
    · obtain he' | he' := mem_add.mp hu'
      · obtain ⟨rfl, rfl⟩ := Prod.mk.inj he'
        exact absurd he (hgone _)
      · exact h.once he he'
  · by_cases hap : a = p
    · subst hap
      exact iff_of_true ⟨t, mem_add.mpr (.inl rfl)⟩ fun hx => hx.1 rfl
    · have hsame : ∀ u, (u, a) ∈ (q.add t p).pending ↔ (u, a) ∈ q.pending := fun u => by
        rw [mem_add, or_iff_right]
        exact fun e => hap (Prod.mk.inj e).2
      simp only [hsame, h.awake a, ne_eq, hap, not_false_eq_true, true_and]
  · obtain rfl | he := mem_add.mp he
    · exact ht
    · exact h.bounded e he

section Turn

variable {r : Agent (Fin n)} (h : q.Attends fun a => some p = some a ∨ A a)

include h

theorem Attends.park (hp : B p) (hb : ∀ a, a ≠ p → (B a ↔ A a)) :
    q.Attends fun a => none = some a ∨ B a := by
  refine h.congr fun a => ?_
  by_cases ha : a = p
  · subst ha
    simp [hp]
  · simp [hb a ha, Ne.symm ha]

theorem Attends.goOn (hp : ¬ B p) (hb : ∀ a, a ≠ p → (B a ↔ A a)) (ht : t < UInt64.size) :
    (q.add t p).Attends fun a => none = some a ∨ B a := by
  refine (attends_add h (.inl rfl) ht).congr fun a => ?_
  by_cases ha : a = p
  · subst ha
    simp [hp]
  · simp [hb a ha, ha, Ne.symm ha]

theorem Attends.handOn (hr : A r) (hr' : ¬ B r) (hp : B p)
    (hb : ∀ a, a ≠ p → a ≠ r → (B a ↔ A a)) (ht : t < UInt64.size) :
    (q.add t r).Attends fun a => none = some a ∨ B a := by
  refine (attends_add h (.inr hr) ht).congr fun a => ?_
  by_cases ha : a = r
  · subst ha
    simp [hr']
  · by_cases hap : a = p
    · subst hap
      simp [hp, ha]
    · simp [hb a hap ha, ha, Ne.symm hap]

end Turn

theorem Attends.nodup (h : q.Attends A) (hs : Sorted q.pending) :
    (q.pending.map Prod.snd).Nodup := by
  refine List.pairwise_map.mpr (hs.imp_of_mem fun {x y} hx hy hlt he => ?_)
  have ht : x.1 = y.1 := h.once (p := x.2) hx (he ▸ hy)
  have := le_of_comparePair hlt
  rw [ht, he] at this
  omega

end WakeQueue

theorem Memory.parked_served (m : Memory) (t : Transfer) : (m.served t).parked = m.parked := by
  unfold served
  split_ifs
  · cases t.data with
    | none => rfl
    | some d =>
      dsimp only
      unfold writeBlock
      cases m.store.writeBlock? t.addr d <;> rfl
  · rfl

namespace Machine

/-! ## Sleep -/

/-- **Who sleeps** until somebody else wakes it. -/
def Asleep (m : Machine g n) : Agent (Fin n) → Prop
  | .forwarder i => m.forwarders[i].parked
  | .memory => m.memory.parked
  | .core i => m.cores[i].activity = .waiting ∨ m.cores[i].activity = .done
  | .cache i => m.caches[i].stage.sleeps

section Put

variable {m : Machine g n} {i : Fin n} {bus : Bus} (a : Agent (Fin n))

theorem asleep_putForwarder {f : Forwarder} : (m.putForwarder i f bus).Asleep a ↔
    if a = .forwarder i then f.parked = true else m.Asleep a := by
  cases a with
  | forwarder j =>
    show (m.forwarders.put i f)[j].parked ↔ _
    by_cases hj : j = i
    · subst hj
      simp
    · simp [Vector.getElem_put_of_ne _ _ hj, hj, Asleep]
  | _ => exact Iff.rfl

theorem asleep_putCache {c : Cache g} : (m.putCache i c bus).Asleep a ↔
    if a = .cache i then c.stage.sleeps = true else m.Asleep a := by
  cases a with
  | cache j =>
    show (m.caches.put i c)[j].stage.sleeps ↔ _
    by_cases hj : j = i
    · subst hj
      simp
    · simp [Vector.getElem_put_of_ne _ _ hj, hj, Asleep]
  | _ => exact Iff.rfl

theorem asleep_putCore {c : Core} : (m.putCore i c).Asleep a ↔
    if a = .core i then c.activity = .waiting ∨ c.activity = .done else m.Asleep a := by
  cases a with
  | core j =>
    show (m.cores.put i c)[j].activity = .waiting ∨ (m.cores.put i c)[j].activity = .done ↔ _
    by_cases hj : j = i
    · subst hj
      simp
    · simp [Vector.getElem_put_of_ne _ _ hj, hj, Asleep]
  | _ => exact Iff.rfl

theorem asleep_putMemory {memory : Memory} : (m.putMemory memory bus).Asleep a ↔
    if a = .memory then memory.parked = true else m.Asleep a := by
  cases a <;> exact Iff.rfl

end Put

/-! ## The invariant -/

/-- **What the queue knows of the members**, and the bus of those that wait for it, while `turn` has
its turn: whoever has something to do waits for a cycle, and whoever does not waits for somebody who
has. -/
structure Attended (m : Machine g n) (turn : Option (Agent (Fin n))) : Prop where
  waits : m.queue.Attends fun a => turn = some a ∨ m.Asleep a
  /-- Nobody sleeps in its turn. -/
  rouses : ∀ p, turn = some p → ¬ m.Asleep p
  clock : ∀ p, turn = some p → m.now < UInt64.size
  /-- A core waits while its cache has a request. -/
  paired : ∀ i : Fin n, m.cores[i].activity = .waiting ↔ m.caches[i].stage ≠ .idle
  /-- Memory sleeps only when it has answered everything. -/
  drained : m.memory.parked → m.memory.pending = []
  /-- Memory goes on when its latency is over. -/
  serving : ∀ t ready, m.memory.service = .busy t ready →
    turn = some .memory ∨ (ready, .memory) ∈ m.queue.pending
  forwards : m.bus.forwardIntended → ∃ j : Fin n, m.forwarders[j].queue ≠ []
  responds : m.bus.responseIntended → ∃ t d, m.memory.service = .responding t d

theorem attended_boot (spec : Spec) (programs : Vector Program n) :
    (boot g spec programs).Attended none := by
  have hpending : ∀ {t p}, (t, p) ∈ (firstQueue n).pending ↔ t = 0 ∧ ∃ i, p = .core i := by
    simp [firstQueue, eq_comm]
  have hcore : ∀ i : Fin n, (boot g spec programs).cores[i].activity = .idle := fun i => by
    rw [core_boot]
    rfl
  have hcache : ∀ i : Fin n, (boot g spec programs).caches[i].stage = .idle := fun i => by
    rw [cache_boot]
    rfl
  refine ⟨⟨fun {p t t'} ht ht' => ?_, fun p => ?_, fun e he => ?_⟩, nofun, nofun,
    fun i => ?_, fun _ => rfl, nofun, nofun, nofun⟩
  · exact (hpending.mp ht).1.trans (hpending.mp ht').1.symm
  · simp only [reduceCtorEq, false_or]
    cases p with
    | core i =>
      refine iff_of_true ⟨0, hpending.mpr ⟨rfl, i, rfl⟩⟩ fun hx => ?_
      rw [Asleep, hcore i] at hx
      exact hx.elim nofun nofun
    | forwarder i =>
      refine iff_of_false (fun ⟨t, ht⟩ => nomatch (hpending.mp ht).2) (not_not.mpr ?_)
      show (boot g spec programs).forwarders[i].parked
      rw [forwarder_boot]
      rfl
    | memory => exact iff_of_false (fun ⟨t, ht⟩ => nomatch (hpending.mp ht).2) (not_not.mpr rfl)
    | cache i =>
      refine iff_of_false (fun ⟨t, ht⟩ => nomatch (hpending.mp ht).2) (not_not.mpr ?_)
      rw [Asleep, hcache i]
      rfl
  · obtain ⟨t, p⟩ := e
    obtain ⟨rfl, -⟩ := hpending.mp he
    exact (by decide : 0 < UInt64.size)
  · rw [hcore i, hcache i]
    exact iff_of_false nofun fun hx => hx rfl

/-! ## Turns -/

theorem attended_fetch {m : Machine g n} {p : Agent (Fin n)} {q : WakeQueue (Agent (Fin n))}
    {k : Nat} (h : m.Attended none) (ht : m.queue.Timed k)
    (hq : m.queue.fetch = .ok (some (p, q))) : { m with queue := q }.Attended (some p) := by
  have hwaits : m.queue.Attends m.Asleep := h.waits.congr fun a => by simp
  obtain ⟨hawake, hwaits'⟩ := WakeQueue.attends_fetch hwaits ht hq
  obtain ⟨-, hpending⟩ := WakeQueue.fetch_eq_some hq
  refine ⟨hwaits', fun a ha => ?_, fun a _ => ?_, h.paired, h.drained, fun t ready hs => ?_,
    h.forwards, h.responds⟩
  · cases ha
    exact hawake
  · show q.now < UInt64.size
    rw [WakeQueue.now_of_fetch hq]
    exact h.waits.bounded (m.queue.now, p) (hpending ▸ List.mem_cons_self)
  · have hmem := (h.serving t ready hs).resolve_left nofun
    rw [hpending, List.mem_cons] at hmem
    obtain he | he := hmem
    · obtain ⟨-, rfl⟩ := Prod.mk.inj he
      exact .inl rfl
    · exact .inr he

section Acts

variable {m : Machine g n} {i : Fin n} {q : WakeQueue (Agent (Fin n))}

theorem Attended.putForwarder (h : m.Attended (some (.forwarder i))) {f : Forwarder} {bus : Bus}
    (hw : q.Attends fun a => none = some a ∨ (m.putForwarder i f bus).Asleep a)
    (hq : ∀ e ∈ m.queue.pending, e ∈ q.pending)
    (hf : bus.forwardIntended → f.queue ≠ [] ∨ (f.queue = m.forwarders[i].queue ∧
      m.bus.forwardIntended))
    (hr : bus.responseIntended = m.bus.responseIntended) :
    { m.putForwarder i f bus with queue := q }.Attended none := by
  refine ⟨hw, nofun, nofun, h.paired, h.drained,
    fun t ready hs => .inr (hq _ ((h.serving t ready hs).resolve_left nofun)), fun hx => ?_,
    fun hx => h.responds (hr ▸ hx)⟩
  obtain hne | ⟨he, hm⟩ := hf hx
  · refine ⟨i, ?_⟩
    show (m.forwarders.put i f)[i].queue ≠ []
    rwa [Vector.getElem_put_self]
  · obtain ⟨j, hj⟩ := h.forwards hm
    have hf : m.forwarders[i].queue ≠ [] → f.queue ≠ [] := fun hne => he ▸ hne
    exact ⟨j, Vector.forall_put (P := fun j (k : Forwarder) =>
      m.forwarders[j].queue ≠ [] → k.queue ≠ []) hf (fun _ hne => hne) j hj⟩

theorem Attended.putMemory (h : m.Attended (some .memory)) {x : Memory} {b : Bus}
    (hw : q.Attends fun a => none = some a ∨ (m.putMemory x b).Asleep a)
    (hd : x.parked → x.pending = [])
    (hs : ∀ t ready, x.service = .busy t ready → (ready, .memory) ∈ q.pending)
    (hf : b.forwardIntended = m.bus.forwardIntended)
    (hr : b.responseIntended → ∃ t d, x.service = .responding t d) :
    { m.putMemory x b with queue := q }.Attended none :=
  ⟨hw, nofun, nofun, h.paired, hd, fun t ready hx => .inr (hs t ready hx),
    fun hx => h.forwards (hf ▸ hx), hr⟩

theorem Attended.putCache {p : Agent (Fin n)} (h : m.Attended (some p)) (hp : p ≠ .memory)
    {c : Core} {d : Cache g} {bus : Bus}
    (hw : q.Attends fun a => none = some a ∨ ((m.putCore i c).putCache i d bus).Asleep a)
    (hq : ∀ e ∈ m.queue.pending, e ∈ q.pending)
    (hc : c.activity = .waiting ↔ d.stage ≠ .idle)
    (hf : bus.forwardIntended = m.bus.forwardIntended)
    (hr : bus.responseIntended = m.bus.responseIntended) :
    { (m.putCore i c).putCache i d bus with queue := q }.Attended none := by
  refine ⟨hw, nofun, nofun, fun j => ?_, h.drained, fun t ready hs => .inr (hq _ ?_),
    fun hx => h.forwards (hf ▸ hx), fun hx => h.responds (hr ▸ hx)⟩
  · show (m.cores.put i c)[j].activity = .waiting ↔ (m.caches.put i d)[j].stage ≠ .idle
    by_cases hj : j = i
    · subst hj
      rwa [Vector.getElem_put_self, Vector.getElem_put_self]
    · rw [Vector.getElem_put_of_ne _ _ hj, Vector.getElem_put_of_ne _ _ hj]
      exact h.paired j
  · exact (h.serving t ready hs).resolve_left fun he => hp (Option.some.inj he)

theorem mem_wake {t : Nat} {p : Agent (Fin n)} {e : Nat × Agent (Fin n)}
    (he : e ∈ m.queue.pending) : e ∈ (m.queue.add t p).pending := WakeQueue.mem_add.mpr (.inr he)

theorem intents_of_asked {b b' : Bus} (h : b.Asked b') :
    b'.forwardIntended = b.forwardIntended ∧ b'.responseIntended = b.responseIntended := by
  cases h <;> exact ⟨rfl, rfl⟩

theorem attended_forwarder {m' : Machine g n} (h : m.Attended (some (.forwarder i)))
    (ha : m.Acts (.forwarder i) m') : m'.Attended none := by
  have hawake : ¬ m.forwarders[i].parked := h.rouses _ rfl
  have hother : ∀ {f : Forwarder} {bus : Bus}, ∀ a, a ≠ .forwarder i →
      ((m.putForwarder i f bus).Asleep a ↔ m.Asleep a) := fun a hai => by
    rw [asleep_putForwarder, if_neg hai]
  cases ha with
  | rest hq =>
    refine h.putForwarder (h.waits.park ?_ hother) (fun _ he => he) (fun hf => .inr ⟨rfl, hf⟩) rfl
    rw [asleep_putForwarder, if_pos rfl]
  | send hq hb hl =>
    refine h.putForwarder (h.waits.goOn ?_ hother hl) (fun _ => mem_wake) nofun rfl
    rw [asleep_putForwarder, if_pos rfl]
    exact hawake
  | hold hq hb hl =>
    refine h.putForwarder (h.waits.goOn ?_ hother hl) (fun _ => mem_wake) (fun _ => .inl hq) rfl
    rw [asleep_putForwarder, if_pos rfl]
    exact hawake

theorem attended_memory {m' : Machine g n} (h : m.Attended (some .memory))
    (ha : m.Acts .memory m') : m'.Attended none := by
  have hawake : ¬ m.memory.parked := h.rouses _ rfl
  have hother : ∀ {memory : Memory} {bus : Bus}, ∀ a, a ≠ .memory →
      ((m.putMemory memory bus).Asleep a ↔ m.Asleep a) := fun a hai => by
    rw [asleep_putMemory, if_neg hai]
  have hidle : m.memory.service = .idle → ¬ m.bus.responseIntended := fun hs hr => by
    obtain ⟨t, d, hx⟩ := h.responds hr
    cases hs.symm.trans hx
  cases ha with
  | drain hs hq =>
    -- Memory parks only here, where it owes no answer.
    refine h.putMemory (x := { m.memory with cold := true, parked := true })
      (h.waits.park ?_ hother) (fun _ => ?_) (fun t ready hx => ?_) rfl
      fun hr => absurd hr (hidle hs)
    · rw [asleep_putMemory, if_pos rfl]
    · simp only [Memory.pending, hs, hq]
    · cases hs.symm.trans hx
  | begin hs hq hr hl =>
    refine h.putMemory (h.waits.goOn ?_ hother hl) (fun hx => absurd hx hawake)
      (fun t ready hx => ?_) rfl fun hr => absurd hr (hidle hs)
    · rw [asleep_putMemory, if_pos rfl]
      exact hawake
    · cases hx
      exact WakeQueue.mem_add.mpr (.inl rfl)
  | @early t ready hs hr hl =>
    refine h.putMemory (x := m.memory) (b := m.bus) (h.waits.goOn hawake (fun _ _ => Iff.rfl)
      hl) h.drained (fun t' ready' hx => ?_) rfl h.responds
    cases hs.symm.trans hx
    exact WakeQueue.mem_add.mpr (.inl rfl)
  | @answer t d ho hf hb hl =>
    obtain ⟨hs, -, -⟩ := m.memory.service_served t
    have hpark := m.memory.parked_served t
    refine h.putMemory (h.waits.goOn ?_ hother hl) (fun hx => ?_) (fun t' ready hx => ?_) rfl
      fun hx => absurd hx Bool.false_ne_true
    · rw [asleep_putMemory, if_pos rfl, hpark]
      exact hawake
    · exact absurd (hpark ▸ hx) hawake
    · cases hs.symm.trans hx
  | @retry t d ho hg hl =>
    refine h.putMemory (h.waits.goOn ?_ hother hl) (fun hx => absurd hx hawake)
      (fun t' ready hx => ?_) rfl fun _ => ⟨t, d, rfl⟩
    · rw [asleep_putMemory, if_pos rfl]
      exact hawake
    · cases hx

theorem attended_core {m' : Machine g n} (h : m.Attended (some (.core i)))
    (ha : m.Acts (.core i) m') : m'.Attended none := by
  obtain ⟨hwaiting, -⟩ := not_or.mp (h.rouses _ rfl)
  have hidle : m.caches[i].stage = .idle := not_not.mp (mt (h.paired i).mpr hwaiting)
  have hput : ∀ c : Core, (m.putCore i c).putCache i m.caches[i] m.bus = m.putCore i c :=
    fun c => by
    simp [Machine.putCache, putCore]
  have hother : ∀ {c : Core}, ∀ a, a ≠ .core i → ((m.putCore i c).Asleep a ↔ m.Asleep a) :=
    fun a hai => by rw [asleep_putCore, if_neg hai]
  cases ha with
  | halt hp =>
    rw [← hput]
    refine h.putCache (by simp) (h.waits.park ?_ fun a ha => ?_) (fun _ he => he) ?_ rfl rfl
    · rw [hput, asleep_putCore, if_pos rfl]
      exact .inr rfl
    · rw [hput]
      exact hother a ha
    · rw [hidle]
      exact iff_of_false (by simp) fun hx => hx rfl
  | work hp hl =>
    rw [← hput]
    refine h.putCache (by simp) (h.waits.goOn ?_ (fun a ha => ?_) hl) (fun _ => mem_wake) ?_ rfl rfl
    · rw [hput, asleep_putCore, if_pos rfl]
      simp
    · rw [hput]
      exact hother a ha
    · rw [hidle]
      exact iff_of_false (by simp) fun hx => hx rfl
  | @issue _ x rest r hp hr hi =>
    have hstage : ({ m.caches[i] with access := some (.start r) } : Cache g).stage = .works := rfl
    refine h.putCache (by simp) (h.waits.handOn (r := .cache i) ?_ ?_ ?_ (fun a hc hd => ?_) ?_)
      (fun _ => mem_wake) (iff_of_true rfl (by simp [hstage])) rfl rfl
    · show m.caches[i].stage.sleeps = true
      rw [hidle]
      rfl
    · rw [asleep_putCache, if_pos rfl, hstage]
      exact Bool.false_ne_true
    · rw [asleep_putCache, if_neg (by simp), asleep_putCore, if_pos rfl]
      exact .inl rfl
    · rw [asleep_putCache, if_neg hd]
      exact hother a hc
    · exact h.clock _ rfl

theorem attended_cache {m' : Machine g n} (h : m.Attended (some (.cache i)))
    (ha : m.Acts (.cache i) m') : m'.Attended none := by
  have hput : ∀ (c : Cache g) bus, (m.putCore i m.cores[i]).putCache i c bus = m.putCache i c bus :=
    fun c bus => by simp [Machine.putCache, putCore]
  have hother : ∀ {c : Cache g} {bus : Bus}, ∀ a, a ≠ .cache i →
      ((m.putCache i c bus).Asleep a ↔ m.Asleep a) := fun a hai => by
    rw [asleep_putCache, if_neg hai]
  cases ha with
  | proceed ht hb hs hs' hl =>
    have hidle : ∀ {s : Stage}, s.sleeps = false → s ≠ .idle := fun hx he => by
      rw [he] at hx
      exact Bool.noConfusion hx
    rw [← hput]
    refine h.putCache (by simp) (h.waits.goOn ?_ (fun a ha => ?_) hl) (fun _ => mem_wake) ?_
      (intents_of_asked hb).1 (intents_of_asked hb).2
    · rw [hput, asleep_putCache, if_pos rfl, hs']
      exact Bool.false_ne_true
    · rw [hput]
      exact hother a ha
    · exact (h.paired i).trans (iff_of_true (hidle hs) (hidle hs'))
  | await ht hb hs hs' =>
    rw [← hput]
    refine h.putCache (by simp) (h.waits.park ?_ fun a ha => ?_) (fun _ he => he) ?_
      (intents_of_asked hb).1 (intents_of_asked hb).2
    · rw [hput, asleep_putCache, if_pos rfl]
      exact hs'
    · rw [hput]
      exact hother a ha
    · exact (h.paired i).trans (not_congr hs).symm
  | @finish _ c r ht hs hs' hl =>
    -- The cache goes to sleep, and wakes the core that waited for it.
    have hidle : m.caches[i].stage ≠ .idle := fun he => by
      rw [he] at hs
      exact Bool.noConfusion hs
    have hwaiting := (h.paired i).mpr hidle
    refine h.putCache (by simp) (h.waits.handOn (r := .core i) ?_ ?_ ?_ (fun a hc hd => ?_) hl)
      (fun _ => mem_wake) ?_ rfl rfl
    · exact .inl hwaiting
    · rw [asleep_putCache, if_neg (by simp), asleep_putCore, if_pos rfl]
      simp [Core.receive]
    · rw [asleep_putCache, if_pos rfl, hs']
      rfl
    · rw [asleep_putCache, if_neg hc, asleep_putCore, if_neg hd]
    · exact iff_of_false (by simp [Core.receive]) fun hx => hx hs'

/-- **Every turn leaves everybody attended.** -/
theorem attended_acts {p : Agent (Fin n)} {m' : Machine g n} (h : m.Attended (some p))
    (ha : m.Acts p m') : m'.Attended none := by
  cases p with
  | forwarder i => exact attended_forwarder h ha
  | memory => exact attended_memory h ha
  | core i => exact attended_core h ha
  | cache i => exact attended_cache h ha

end Acts

end Machine

end Snooping
