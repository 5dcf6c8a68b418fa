import Snooping.Proofs.Cache.Bench
import Snooping.Proofs.Cache.Losses
import Snooping.Proofs.Cache.Reactions

/-!
# What becomes of a dirty line

A line that is newer than memory is never just dropped. A peer takes it over, be it on its way to
memory, or it makes room for another line once memory has acknowledged its data.

* `Cache.Guards`: a way still has the line that a request is to replace.
* **`Cache.Sent`**, **`Cache.WrittenBack`**: the line was sent to memory, and memory has answered.
* `Cache.Tracked`: what has happened to the line that is to be replaced, with
  **`Cache.tracked_play`**: a call keeps track of it.
* **`Cache.Fate`**: what a call makes of a dirty line, with `Cache.fate_tick`, `Cache.fate_observe`
  and `Cache.fate_snoop`.
* **`Cache.dirty_kept`**: every call at any time makes one of these of every dirty line.
-/

namespace Snooping

theorem LineState.isDirty_afterPeerRead (s : LineState) : s.afterPeerRead.isDirty = s.isDirty := by
  cases s <;> rfl

/-- The line in the way is about to be replaced: memory has acknowledged its data or is to do so. -/
def Phase.replaces {ways : Nat} : Phase ways → Bool
  | awaitWriteBack _ _ | fill _ => true
  | lookup | hit _ | miss _ | upgrade _ | promote _ | writeBack _ _ | awaitFill _ | installed _ =>
    false

namespace Cache

variable {g : Geometry}

/-! ## The way to memory -/

/-- A way has a dirty line with some tag and data while a request is in progress. -/
structure Guards (c : Cache g) (i : Fin g.sets) (w : Fin g.ways) (tag : Nat) (data : Block)
    (r : Request) : Prop where
  dirty : (c.line i w).state.isDirty
  tag : (c.line i w).tag = tag
  data : (c.line i w).data = data
  request : c.access.map Access.request = some r

/-- **A line was sent to memory** for a request, and has stayed in its way since. -/
def Sent (id : Nat) (log : List (Bench (Cache g) × Bench.Call Act)) (i : Fin g.sets)
    (w : Fin g.ways) (tag : Nat) (data : Block) (r : Request) : Prop :=
  ∃ before b now after, log = before ++ (b, .own (.tick now)) :: after ∧
    Bench.driven? act (b, .own (.tick now)) =
      some ⟨id, .cache id, g.addrAt i tag, .write, some data⟩ ∧
    ∀ e ∈ (b, .own (.tick now)) :: after, e.1.part.Guards i w tag data r

/-- **A line was written back** for a request: it was sent to memory, the cache has observed the
answer of memory, and the line has stayed in its way since. -/
def WrittenBack (id : Nat) (log : List (Bench (Cache g) × Bench.Call Act)) (i : Fin g.sets)
    (w : Fin g.ways) (tag : Nat) (data : Block) (r : Request) : Prop :=
  ∃ before b after t, log = before ++ (b, .own .observe) :: after ∧
    Sent id before i w tag data r ∧ b.bus.current = some t ∧ t.requester = id ∧
    t.source = .memory ∧ t.addr = g.addrAt i tag ∧ t.func = .response ∧
    ∀ e ∈ (b, .own .observe) :: after, e.1.part.Guards i w tag data r

section Log

variable {id : Nat} {log : List (Bench (Cache g) × Bench.Call Act)} {i : Fin g.sets}
  {w : Fin g.ways} {tag : Nat} {data : Block} {r : Request}
  {e : Bench (Cache g) × Bench.Call Act}

theorem forall_guards_concat {f : Bench (Cache g) × Bench.Call Act}
    {after : List (Bench (Cache g) × Bench.Call Act)}
    (h : ∀ x ∈ f :: after, x.1.part.Guards i w tag data r) (he : e.1.part.Guards i w tag data r) :
    ∀ x ∈ f :: (after ++ [e]), x.1.part.Guards i w tag data r := by
  rw [← List.cons_append]
  exact List.forall_mem_append.mpr ⟨h, List.forall_mem_singleton.mpr he⟩

theorem Sent.concat (h : Sent id log i w tag data r) (he : e.1.part.Guards i w tag data r) :
    Sent id (log ++ [e]) i w tag data r := by
  obtain ⟨before, b, now, after, rfl, hdriven, hguards⟩ := h
  exact ⟨before, b, now, after ++ [e], by simp, hdriven, forall_guards_concat hguards he⟩

theorem WrittenBack.concat (h : WrittenBack id log i w tag data r)
    (he : e.1.part.Guards i w tag data r) : WrittenBack id (log ++ [e]) i w tag data r := by
  obtain ⟨before, b, after, t, rfl, hsent, hc, hid, hm, ha, hf, hguards⟩ := h
  exact ⟨before, b, after ++ [e], t, by simp, hsent, hc, hid, hm, ha, hf,
    forall_guards_concat hguards he⟩

end Log

/-! ## The line that is to be replaced -/

/-- **What has happened to a dirty line** in the way of the request in progress: it was sent to
memory if the answer is awaited, and it was written back if the way is to be filled. -/
structure Tracked (id : Nat) (log : List (Bench (Cache g) × Bench.Call Act)) (c : Cache g) :
    Prop where
  sent : ∀ a w u, c.access = some a → a.phase = .awaitWriteBack w u →
    (c.line (g.index a.request.addr) w).state.isDirty →
      Sent id log (g.index a.request.addr) w (c.line (g.index a.request.addr) w).tag
        (c.line (g.index a.request.addr) w).data a.request
  writtenBack : ∀ a w, c.access = some a → a.phase = .fill w →
    (c.line (g.index a.request.addr) w).state.isDirty →
      WrittenBack id log (g.index a.request.addr) w (c.line (g.index a.request.addr) w).tag
        (c.line (g.index a.request.addr) w).data a.request

/-- Nothing becomes dirty, and what stays dirty keeps its tag and its data. -/
def Settles (c c' : Cache g) : Prop :=
  ∀ i w, (c'.line i w).state.isDirty → (c.line i w).state.isDirty ∧
    (c'.line i w).tag = (c.line i w).tag ∧ (c'.line i w).data = (c.line i w).data

theorem Settles.of_sameLines {c c' : Cache g} (h : c.SameLines c') : c.Settles c' :=
  fun i w hd => ⟨(h i w).1 ▸ hd, (h i w).2⟩

theorem settles_snoop (c : Cache g) (bus : Bus) : c.Settles (c.snoop bus).2.1 := by
  intro i w hd
  refine ⟨((c.fades_snoop bus).state i w).isDirty hd, ?_⟩
  obtain ⟨s, hs⟩ := c.line_snoop bus i w
  rw [hs]
  exact ⟨rfl, rfl⟩

section Tracked

variable {id : Nat} {log : List (Bench (Cache g) × Bench.Call Act)} {b b' : Bench (Cache g)}
  {x : Bench.Call Act} {c c' : Cache g}

theorem guards_of_access {a : Access g.ways} {i : Fin g.sets} {w : Fin g.ways}
    (ha : c.access = some a) (hd : (c.line i w).state.isDirty) :
    c.Guards i w (c.line i w).tag (c.line i w).data a.request := ⟨hd, rfl, rfl, by rw [ha]; rfl⟩

theorem Tracked.settle (h : Tracked id log b.part) (hs : b.part.Settles c')
    (ha : c'.access.map (fun a => (a.request, a.phase)) =
      b.part.access.map fun a => (a.request, a.phase)) : Tracked id (log ++ [(b, x)]) c' := by
  have hback : ∀ a', c'.access = some a' →
      ∃ a, b.part.access = some a ∧ a.request = a'.request ∧ a.phase = a'.phase := fun a' ha' => by
    rw [ha', Option.map_some, eq_comm, Option.map_eq_some_iff] at ha
    obtain ⟨a, hacc, he⟩ := ha
    exact ⟨a, hacc, congrArg Prod.fst he, congrArg Prod.snd he⟩
  constructor
  · intro a' w u ha' hp hd
    obtain ⟨a, hacc, hr, hp'⟩ := hback a' ha'
    obtain ⟨hd', ht, hx⟩ := hs _ _ hd
    rw [ht, hx]
    rw [← hr] at hd' ⊢
    exact (h.sent a w u hacc (hp'.trans hp) hd').concat (guards_of_access hacc hd')
  · intro a' w ha' hp hd
    obtain ⟨a, hacc, hr, hp'⟩ := hback a' ha'
    obtain ⟨hd', ht, hx⟩ := hs _ _ hd
    rw [ht, hx]
    rw [← hr] at hd' ⊢
    exact (h.writtenBack a w hacc (hp'.trans hp) hd').concat (guards_of_access hacc hd')

theorem tracked_of_access {a : Access g.ways} (ha : c.access = some a)
    (hsent : ∀ w u, a.phase = .awaitWriteBack w u →
      (c.line (g.index a.request.addr) w).state.isDirty →
        Sent id log (g.index a.request.addr) w (c.line (g.index a.request.addr) w).tag
          (c.line (g.index a.request.addr) w).data a.request)
    (hwritten : ∀ w, a.phase = .fill w → (c.line (g.index a.request.addr) w).state.isDirty →
      WrittenBack id log (g.index a.request.addr) w (c.line (g.index a.request.addr) w).tag
        (c.line (g.index a.request.addr) w).data a.request) : Tracked id log c := by
  constructor
  · intro a' w u ha'
    cases ha.symm.trans ha'
    exact hsent w u
  · intro a' w ha'
    cases ha.symm.trans ha'
    exact hwritten w

theorem tracked_of_phase {a : Access g.ways} (ha : c.access = some a)
    (hp : a.phase.replaces = false) : Tracked id log c := by
  refine tracked_of_access ha (fun w u h => ?_) fun w h => ?_
  · rw [h] at hp
    cases hp
  · rw [h] at hp
    cases hp

theorem tracked_of_idle (ha : c.access = none) : Tracked id log c := by
  constructor
  · intro a w u ha'
    cases ha.symm.trans ha'
  · intro a w ha'
    cases ha.symm.trans ha'

theorem observe_of_awaitWriteBack {a : Access g.ways} {w : Fin g.ways} {u : Addr}
    (ha : c.access = some a) (hp : a.phase = .awaitWriteBack w u) (bus : Bus) :
    (c.observe bus).2 = c ∨ ∃ t, bus.current = some t ∧ t.requester = c.id ∧ t.addr = u.line ∧
      t.func = .response ∧ t.source = .memory ∧ (c.observe bus).2 = c.enter a (.fill w) := by
  unfold observe
  simp only [ha, hp]
  split
  · next t ht =>
    split_ifs with hr
    · obtain ⟨hc, hf⟩ := Option.filter_eq_some_iff.mp ht
      simp only [Bool.and_eq_true, decide_eq_true_eq] at hf
      exact .inr ⟨t, hc, hf.1.1, hf.1.2, hr.1, hr.2, rfl⟩
    · exact .inl rfl
  · exact .inl rfl

theorem tracked_observe (ht : b.part.Tidy) (hid : b.part.id = id) (h : Tracked id log b.part) :
    Tracked id (log ++ [(b, .own .observe)]) (b.part.observe b.bus).2 := by
  have hheeds := b.part.heeds_observe b.bus
  generalize hy : (b.part.observe b.bus).2 = c' at hheeds
  cases hheeds with
  | ignore => exact h.settle (.of_sameLines (.of_sets rfl)) rfl
  | contend =>
    refine h.settle (.of_sameLines (.of_sets rfl)) ?_
    rw [contend, Option.map_map]
    rfl
  | @written a w u ha hp =>
    obtain he | ⟨t, hc, hr, hu, hf, hm, -⟩ := observe_of_awaitWriteBack ha hp b.bus
    · have hacc := congrArg Cache.access (hy.symm.trans he)
      rw [ha] at hacc
      cases hp.symm.trans (congrArg Access.phase (Option.some.inj hacc)).symm
    · refine tracked_of_access rfl (fun _ _ hv => by cases hv) fun v hv hd => ?_
      cases hv
      have hfits := ht.fits a ha
      unfold Fits at hfits
      simp only [hp] at hfits
      have hline : u.line = g.addrAt (g.index a.request.addr)
          (b.part.line (g.index a.request.addr) w).tag := by
        rw [← hfits.2 hd]
        exact Geometry.line_addrAt
          (ht.bounded _ _ (isLive_of_hasData (LineState.hasData_of_isDirty hd)))
      refine ⟨log, b, [], t, rfl, h.sent a w u ha hp hd, hc, hr.trans hid, hm, hu.trans hline, hf,
        fun e he => ?_⟩
      rw [List.mem_singleton.mp he]
      exact guards_of_access (a := a) ha hd
  | install => exact tracked_of_phase rfl rfl
  | restart => exact tracked_of_phase rfl rfl

theorem tracked_tick (ht : b.part.Tidy) (hid : b.part.id = id) (h : Tracked id log b.part)
    (now : Nat) :
    Tracked id (log ++ [(b, .own (.tick now))]) (b.part.tick b.bus now).cache := by
  have ht' := tidy_tick ht b.bus now
  have hplay : Bench.play act b (.own (.tick now)) =
      .ok ⟨(b.part.tick b.bus now).cache, (b.part.tick b.bus now).bus⟩ := rfl
  have hdriven := Bench.driven?_of_play hplay
  clear hplay
  have hdeed := b.part.deed_tick b.bus now
  generalize b.part.tick b.bus now = y at hdeed ht' hdriven
  cases hdeed with
  | sleep => exact h.settle (.of_sameLines (.of_sets rfl)) rfl
  | look ha hp hw =>
    obtain ⟨rfl, -⟩ | rfl := hw <;> exact tracked_of_phase rfl rfl
  | restart | take | yield | fetch | hold => exact tracked_of_phase rfl rfl
  | serve => exact tracked_of_idle rfl
  | @ask a a' w ha hp hv hu hr hg hm =>
    -- The way is kept for the line of the request now.
    obtain ⟨r, missed, contended, p⟩ := a'
    obtain rfl : r = a.request := hr
    refine tracked_of_access rfl (fun _ _ hv => by cases hv) fun v hv hd => ?_
    cases hv
    have hmark := (awaits_iff.mp (b.part.awaits_marked a.request.addr w)).1
    have hd' : ((b.part.marked a.request.addr w).line (g.index a.request.addr) w).state.isDirty :=
      hd
    rw [hmark] at hd'
    cases hd'
  | @evict a a' w u ha hp hd hr hg hm =>
    obtain ⟨r, missed, contended, p⟩ := a'
    obtain rfl : r = a.request := hr
    refine tracked_of_access rfl (fun v u' hv _ => ?_) fun _ hv => by cases hv
    cases hv
    -- The victim is the address of the line, as the new phase says.
    have hfits := ht'.fits ⟨a.request, missed, contended, .awaitWriteBack w u⟩ rfl
    have hu : g.addrAt (g.index a.request.addr) (b.part.line (g.index a.request.addr) w).tag = u :=
      hfits.2 hd
    have hline : u.line = u := by
      rw [← hu]
      exact Geometry.line_addrAt (ht.bounded _ _ (isLive_of_hasData
        (LineState.hasData_of_isDirty hd)))
    refine ⟨log, b, now, [], rfl, ?_, fun e he => ?_⟩
    · rw [hdriven, if_pos (Bus.current_eq_none_of_grants hg)]
      show some (⟨b.part.id, .cache b.part.id, u.line, .write, _⟩ : Transfer) = _
      rw [hid, hline, ← hu]
      rfl
    · rw [List.mem_singleton.mp he]
      exact guards_of_access (a := a) ha hd

/-- **Every call keeps track** of the line that is to be replaced. -/
theorem tracked_play (ht : b.part.Tidy) (hid : b.part.id = id) (h : Tracked id log b.part)
    (hx : Bench.play act b x = .ok b') : Tracked id (log ++ [(b, x)]) b'.part := by
  cases x with
  | other op =>
    cases hx
    exact h.settle (.of_sameLines (.of_sets rfl)) rfl
  | own y =>
    have hy := Bench.play_own hx
    cases y with
    | submit r =>
      have hs := submit_of_act hy
      unfold submit at hs
      split_ifs at hs
      rw [← Except.ok.inj hs]
      exact tracked_of_phase rfl rfl
    | tick now =>
      cases hx
      exact tracked_tick ht hid h now
    | observe =>
      cases hx
      exact tracked_observe ht hid h
    | snoop =>
      cases hx
      exact h.settle (settles_snoop _ _) (b.part.fades_snoop b.bus).access

end Tracked

/-! ## What a call makes of a dirty line -/

/-- **What a call makes of a dirty line**, by the calls before it. -/
inductive Fate (id : Nat) (log : List (Bench (Cache g) × Bench.Call Act)) (x : Bench.Call Act)
    (b b' : Bench (Cache g)) (i : Fin g.sets) (w : Fin g.ways) : Prop
  /-- It stays dirty and keeps its data. -/
  | keep (hd : (b'.part.line i w).state.isDirty)
      (ht : (b'.part.line i w).tag = (b.part.line i w).tag)
      (hx : (b'.part.line i w).data = (b.part.line i w).data)
  /-- The request of this core completes and writes one word of it. -/
  | write {now : Nat} {k : Completion} {a : Addr} {v : Word} (hc : x = .own (.tick now))
      (hk : (b.part.tick b.bus now).done = some k) (hr : k.request = .write a v)
      (ha : a.line = g.addrAt i (b.part.line i w).tag) (hd : (b'.part.line i w).state.isDirty)
      (ht : (b'.part.line i w).tag = (b.part.line i w).tag)
      (hx : (b'.part.line i w).data = (b.part.line i w).data.put a.word v)
  /-- A write or an invalidation of another core is seen, and it is given up. -/
  | take {t : Transfer} (hc : x = .own .snoop) (ht : b.bus.current = some t)
      (hp : t.requester ≠ id) (hf : t.func = .write ∨ t.func = .invalidate)
      (ha : t.addr.line = g.addrAt i (b.part.line i w).tag)
      (hl : (b'.part.line i w).state = .invalid)
  /-- Its way is kept for the line of the request in progress, for which it was written back. -/
  | replace {now : Nat} {a : Access g.ways} (hc : x = .own (.tick now))
      (ha : b'.part.access = some a) (hp : a.phase = .fill w ∨ a.phase = .awaitFill w)
      (hi : g.index a.request.addr = i)
      (hl : (b'.part.line i w).awaits (g.tag a.request.addr))
      (hw : WrittenBack id log i w (b.part.line i w).tag (b.part.line i w).data a.request)

section Fate

variable {id : Nat} {log : List (Bench (Cache g) × Bench.Call Act)} {b b' : Bench (Cache g)}
  {x : Bench.Call Act} {i : Fin g.sets} {w : Fin g.ways}

theorem fate_of_line (hl : (b'.part.line i w).state = (b.part.line i w).state ∧
    (b'.part.line i w).tag = (b.part.line i w).tag ∧
    (b'.part.line i w).data = (b.part.line i w).data)
    (hd : (b.part.line i w).state.isDirty) : Fate id log x b b' i w :=
  .keep (hl.1 ▸ hd) hl.2.1 hl.2.2

theorem PlaceOf.line_eq {c : Cache g} {a : Addr} {v : Fin g.ways} (h : c.PlaceOf a v) :
    a.line = g.addrAt (g.index a) (c.line (g.index a) v).tag := by
  rw [h.1, g.addrAt_place]

theorem fate_marked (ht : b.part.Tidy) (h : Tracked id log b.part) {now : Nat}
    {a a' : Access g.ways} {v : Fin g.ways} {p : Phase g.ways} (ha : b.part.access = some a)
    (hp : a.phase = .miss v ∨ (∃ u, a.phase = .writeBack v u) ∨ a.phase = .fill v)
    (hv : a.phase = .miss v → ¬ (b.part.line (g.index a.request.addr) v).state.isDirty)
    (hu : ∀ u, a.phase = .writeBack v u →
      (b.part.line (g.index a.request.addr) v).state.isDirty →
        g.addrAt (g.index a.request.addr) (b.part.line (g.index a.request.addr) v).tag ≠ u)
    (hr : a'.request = a.request) (hp' : p = .fill v ∨ p = .awaitFill v)
    (ha' : b'.part.access = some { a' with phase := p })
    (hl : ∀ i w, b'.part.line i w = (b.part.marked a.request.addr v).line i w)
    (hd : (b.part.line i w).state.isDirty) : Fate id log (.own (.tick now)) b b' i w := by
  by_cases hiw : g.index a.request.addr = i ∧ v = w
  · obtain ⟨rfl, rfl⟩ := hiw
    obtain hp | ⟨u, hp⟩ | hp := hp
    · exact absurd hd (hv hp)
    · have hfits := ht.fits a ha
      unfold Fits at hfits
      simp only [hp] at hfits
      exact absurd (hfits.2 hd) (hu u hp hd)
    · refine .replace rfl ha' hp' (by rw [hr]) ?_ (hr.symm ▸ h.writtenBack a v ha hp hd)
      rw [hl, hr]
      exact b.part.awaits_marked a.request.addr v
  · refine fate_of_line ?_ hd
    rw [hl, line_marked_of_ne _ _ hiw]
    exact ⟨rfl, rfl, rfl⟩

theorem fate_complete (ht : b.part.Tidy) {now : Nat} {a : Access g.ways} {v : Fin g.ways}
    {c₁ : Cache g} (ha : b.part.access = some a)
    (hp : a.phase = .hit v ∨ a.phase = .installed v ∨ a.phase = .promote v)
    (hk : b.part.Keeps c₁) (hy : b.part.tick b.bus now = c₁.complete a v b.bus now)
    (hb : b'.part = (c₁.complete a v b.bus now).cache) (hd : (b.part.line i w).state.isDirty) :
    Fate id log (.own (.tick now)) b b' i w := by
  have hline : b'.part.line i w = if g.index a.request.addr = i ∧ v = w then
      ((c₁.line (g.index a.request.addr) v).serve c₁.maxCounter a.request).2
      else c₁.line i w := by
    rw [hb]
    exact c₁.line_setLine _ _ _ _ _
  obtain ⟨hs, htag, hdata⟩ := hk.lines i w
  -- A write changes one word of the way it was found in, and no other way.
  by_cases hiw : g.index a.request.addr = i ∧ v = w
  · rw [if_pos hiw] at hline
    obtain ⟨hi, rfl⟩ := hiw
    have hplace : b.part.PlaceOf a.request.addr v := by
      have hfits := ht.fits a ha
      unfold Fits at hfits
      obtain hp | hp | hp := hp <;> simp only [hp] at hfits
      · exact hfits
      · exact hfits.1
      · exact hfits.1
    have haddr := hplace.line_eq
    rw [hi] at hline haddr
    have hdone : (b.part.tick b.bus now).done = some ⟨a.request,
        ((c₁.line (g.index a.request.addr) v).serve c₁.maxCounter a.request).1, !a.missed,
        now⟩ := by
      rw [hy]
      rfl
    cases hr : a.request with
    | read y =>
      rw [hr] at hline
      exact fate_of_line (hline ▸ ⟨hs, htag, hdata⟩) hd
    | write y u =>
      rw [hr] at hline haddr
      refine .write rfl hdone hr haddr ?_ ?_ ?_
      · rw [hline]
        rfl
      · rw [hline, ← htag]
        rfl
      · rw [hline, ← hdata]
        rfl
  · rw [if_neg hiw] at hline
    exact fate_of_line (hline ▸ ⟨hs, htag, hdata⟩) hd

/-- **A turn of the execute side.** -/
theorem fate_tick (ht : b.part.Tidy) (h : Tracked id log b.part) {now : Nat}
    (hx : Bench.play act b (.own (.tick now)) = .ok b') (hd : (b.part.line i w).state.isDirty) :
    Fate id log (.own (.tick now)) b b' i w := by
  cases hx
  have hdeed := b.part.deed_tick b.bus now
  generalize hy : b.part.tick b.bus now = y at hdeed
  cases hdeed with
  | sleep | restart | evict | hold => exact fate_of_line ⟨rfl, rfl, rfl⟩ hd
  | look => exact fate_of_line (b.part.sameLines_age _ _ i w) hd
  | take _ _ _ hk => exact fate_of_line (hk.lines i w) hd
  | yield _ _ _ hk => exact fate_of_line (hk.lines i w) hd
  | fetch ha hp hv hu hr => exact fate_marked ht h ha hp hv hu hr (.inr rfl) rfl (fun _ _ => rfl) hd
  | ask ha hp hv hu hr => exact fate_marked ht h ha hp hv hu hr (.inl rfl) rfl (fun _ _ => rfl) hd
  | serve ha hp hk => exact fate_complete ht ha hp hk hy rfl hd

/-- **An answer**: the line that it brings takes no dirty line's place. -/
theorem fate_observe (ht : b.part.Tidy) (hx : Bench.play act b (.own .observe) = .ok b')
    (hd : (b.part.line i w).state.isDirty) : Fate id log (.own .observe) b b' i w := by
  cases hx
  have hheeds := b.part.heeds_observe b.bus
  generalize (b.part.observe b.bus).2 = c' at hheeds
  cases hheeds with
  | ignore | contend | written | restart => exact fate_of_line ⟨rfl, rfl, rfl⟩ hd
  | @install a v l ha hp ho hl =>
    by_cases hiw : g.index a.request.addr = i ∧ v = w
    · obtain ⟨rfl, rfl⟩ := hiw
      have hfits := ht.fits a ha
      unfold Fits at hfits
      simp only [hp] at hfits
      exact absurd (LineState.hasData_of_isDirty hd) hfits.2
    · refine fate_of_line ?_ hd
      have hline : ((b.part.setLine (g.index a.request.addr) v l).enter a (.installed v)).line i w =
          b.part.line i w := (b.part.line_setLine _ _ _ _ _).trans (if_neg hiw)
      rw [hline]
      exact ⟨rfl, rfl, rfl⟩

theorem dirty_snoop {c : Cache g} (h : c.Distinct) (bus : Bus)
    (hd : (c.line i w).state.isDirty) : ((c.snoop bus).2.1.line i w).state.isDirty ∨
      ((c.snoop bus).2.1.line i w).state = .invalid ∧ ∃ t, bus.current = some t ∧
        t.requester ≠ c.id ∧ (t.func = .write ∨ t.func = .invalidate) ∧
          t.addr.line = g.addrAt i (c.line i w).tag := by
  cases hc : bus.current with
  | none =>
    have he : c.snoop bus = (none, c, bus) := by simp only [snoop, hc]
    rw [he]
    exact .inl hd
  | some t =>
    by_cases hown : t.requester = c.id
    · rw [snoop_own hc hown]
      exact .inl hd
    · have hreact := reaction_snoop h hc hown
      generalize c.snoop bus = y at hreact
      cases hreact with
      | ignore | notice => exact .inl hd
      | @share v f hf hw _ =>
        have hl : ((c.shared (g.index t.addr) v).count f).line i w =
            if g.index t.addr = i ∧ v = w then
              { c.line (g.index t.addr) v with
                state := (c.line (g.index t.addr) v).state.afterPeerRead }
            else c.line i w := c.line_setLine _ _ _ _ _
        dsimp only
        rw [hl]
        split_ifs with hiw
        · obtain ⟨rfl, rfl⟩ := hiw
          exact .inl ((LineState.isDirty_afterPeerRead _).trans hd)
        · exact .inl hd
      | @drop v hf hw =>
        have hl : (c.dropLine (g.index t.addr) v).line i w =
            if g.index t.addr = i ∧ v = w then
              { c.line (g.index t.addr) v with state := .invalid }
            else c.line i w := c.line_setLine _ _ _ _ _
        dsimp only
        rw [hl]
        split_ifs with hiw
        · obtain ⟨rfl, rfl⟩ := hiw
          refine .inr ⟨rfl, t, rfl, hown, hf, ?_⟩
          rw [(carries_iff.mp hw).2, g.addrAt_place]
        · exact .inl hd

theorem fate_snoop (ht : b.part.Tidy) (hid : b.part.id = id)
    (hx : Bench.play act b (.own .snoop) = .ok b') (hd : (b.part.line i w).state.isDirty) :
    Fate id log (.own .snoop) b b' i w := by
  cases hx
  obtain hd' | ⟨hl, t, hc, hp, hf, ha⟩ := dirty_snoop ht.distinct b.bus hd
  · obtain ⟨-, htag, hdata⟩ := settles_snoop b.part b.bus i w hd'
    exact .keep hd' htag hdata
  · exact .take rfl hc (hid ▸ hp) hf ha hl

/-- **A dirty line is never just dropped.** Whatever the calls before, a call keeps it, writes one
word of it, lets a peer take it over, or replaces it once it was written back; and a look at the bus
changes no tag, no counter and no data of any line. -/
theorem dirty_kept {s : Spec} {c₀ : Cache g} {b₀ : Bus} (hc : ofSpec id s = .ok ⟨g, c₀⟩)
    (h : History (Bench.play act) ⟨c₀, b₀⟩ log b) (hx : Bench.play act b x = .ok b') :
    (∀ i w, (b.part.line i w).state.isDirty → Fate id log x b b' i w) ∧
      (x = .own .snoop → ∀ i w, (b'.part.line i w).tag = (b.part.line i w).tag ∧
        (b'.part.line i w).counter = (b.part.line i w).counter ∧
        (b'.part.line i w).data = (b.part.line i w).data) := by
  have ht := tidy_history hc h
  have hid := id_history hc h
  have htrack : Tracked id log b.part := by
    clear hx ht hid
    induction h with
    | start =>
      obtain ⟨-, rfl⟩ := ofSpec_eq_ok hc
      exact tracked_of_idle rfl
    | @call l b b' x h hx ih => exact tracked_play (tidy_history hc h) (id_history hc h) ih hx
  constructor
  · intro i w hd
    match x with
    | .other op =>
      cases hx
      exact fate_of_line ⟨rfl, rfl, rfl⟩ hd
    | .own (.submit r) =>
      have hs := submit_of_act (Bench.play_own hx)
      unfold submit at hs
      split_ifs at hs
      refine fate_of_line ?_ hd
      rw [← Except.ok.inj hs]
      exact ⟨rfl, rfl, rfl⟩
    | .own (.tick now) => exact fate_tick ht htrack hx hd
    | .own .observe => exact fate_observe ht hx hd
    | .own .snoop => exact fate_snoop ht hid hx hd
  · rintro rfl i w
    cases hx
    obtain ⟨s, hs⟩ := b.part.line_snoop b.bus i w
    dsimp only
    rw [hs]
    exact ⟨rfl, rfl, rfl⟩

/-- A dirty line is written back and makes room for another one. -/
theorem dirty_kept_small : ∃ l b b', ofSpec 0 smallSpec = .ok ⟨_, small⟩ ∧
    History (Bench.play act) ⟨small, .idle false⟩ l b ∧
    Bench.play act b (.own (.tick 9)) = .ok b' ∧ (b.part.line ⟨0, by decide⟩ 0).state.isDirty ∧
    ¬ (b'.part.line ⟨0, by decide⟩ 0).state.isDirty ∧
    Fate 0 l (.own (.tick 9)) b b' ⟨0, by decide⟩ 0 := by
  obtain ⟨l, b, h, hd, hn⟩ := exists_history (Bench.play act) ⟨small, .idle false⟩
    [.own (.submit (.write ⟨0⟩ 7)), .own (.tick 0), .own (.tick 1), .other (.begin 2),
      .other (.memoryResponse 0 ⟨0⟩ (some Block.zero)), .own .observe, .own (.tick 2),
      .own (.submit (.read ⟨32⟩)), .other (.begin 3), .own (.tick 3), .own (.tick 4),
      .other (.begin 5), .other (.memoryResponse 0 ⟨32⟩ (some Block.zero)), .own .observe,
      .own (.tick 5), .own (.submit (.read ⟨64⟩)), .other (.begin 6), .own (.tick 6),
      .own (.tick 7), .other (.begin 8), .other (.memoryResponse 0 ⟨0⟩ none), .own .observe,
      .other (.begin 9)]
    (fun _ b => (b.part.line ⟨0, by decide⟩ 0).state.isDirty ∧
      ¬ ((b.part.tick b.bus 9).cache.line ⟨0, by decide⟩ 0).state.isDirty) (by decide +kernel)
  have hx : Bench.play act b (.own (.tick 9)) =
      .ok ⟨(b.part.tick b.bus 9).cache, (b.part.tick b.bus 9).bus⟩ := rfl
  exact ⟨l, b, _, ofSpec_small, h, hx, hd, hn, (dirty_kept ofSpec_small h hx).1 _ _ hd⟩

end Fate

end Cache

end Snooping
