import Snooping.Proofs.Protocol.Exclusion

/-!
# One value for a line

All copies of a line have the same data, and so has memory unless a dirty copy answers for it. A
line that is written back is dirty in its cache until its write has landed; if it is taken away
before, its write is stale, but then somebody else is dirty and will write the line later.

* `Request.update`: what a request makes of a line.
* `View.Evicting`: where the last write of a line can be.
* **`View.Agrees`**: the invariant of one line and its value.
* **`View.agrees_turn`**: the value changes with the requests that end.
-/

namespace Snooping

/-- What a request makes of the data of a line. -/
def Request.update : Request → Addr → Block → Block
  | .read _, _, v => v
  | .write x w, a, v => if a.line = x.line then v.put x.word w else v

theorem Request.update_eq_self {r : Request} {a : Addr} {v : Block}
    (h : ¬ (a.line = r.addr.line ∧ r.isWrite)) : r.update a v = v := by
  cases r with
  | read x => rfl
  | write x w => exact if_neg fun ha => h ⟨ha, rfl⟩

theorem Request.effect_of_not_isWrite {r : Request} (h : ¬ r.isWrite) (x : LineState × Block) :
    r.effect x = x := by
  cases r with
  | read a => rfl
  | write a w => exact absurd rfl h

theorem Request.effect_of_isWrite {r : Request} (h : r.isWrite) {a : Addr}
    (ha : a.line = r.addr.line) (x : LineState × Block) :
    r.effect x = (.modified, r.update a x.2) := by
  cases r with
  | read b => exact Bool.noConfusion h
  | write b w =>
    have ha : a.line = b.line := ha
    simp only [Request.effect, Request.update, if_pos ha]

namespace View

variable {n : Nat}

/-- **The last write of a dirty line that is written back**: on the bus, behind all others on its
way to memory, or in memory. -/
inductive Evicting (V : View n) (i : Fin n) (a : Addr) (v : Block) : Prop
  | driven {t : Transfer} (hc : V.current = some t) (hf : t.func = .write) (hi : t.requester = i)
      (hd : t.data = some v)
  | queued {t : Transfer} (hw : (V.writes a).getLast? = some t) (hi : t.requester = i)
      (hd : t.data = some v)
  | landed {t : Transfer} (hc : V.current = some t) (hf : t.func = .response)
      (hi : t.requester = i) (hw : V.writes a = []) (hb : V.lands a → V.block a = v)

theorem Evicting.congr {V V' : View n} {i : Fin n} {a : Addr} {v : Block} (h : V.Evicting i a v)
    (hcurrent : ∀ t, V.current = some t → V'.current = some t) (hwrites : V'.writes a = V.writes a)
    (hlands : V'.lands = V.lands) (hblock : V'.block a = V.block a) : V'.Evicting i a v := by
  cases h with
  | driven hc hf hi hd => exact .driven (hcurrent _ hc) hf hi hd
  | queued hw hi hd => exact .queued (hwrites ▸ hw) hi hd
  | landed hc hf hi hw hb =>
    rw [← hwrites] at hw
    rw [← hlands, ← hblock] at hb
    exact .landed (hcurrent _ hc) hf hi hw hb

theorem Evicting.answer {V : View n} {i : Fin n} {a : Addr} {v : Block} (h : V.Evicting i a v)
    (hl : V.Lawful) (hn : V.current = none) {t : Transfer} {rest : List Transfer}
    (ht : t.func = .write ∧ t.addr.line = a.line)
    (hwrites : V.writes a = t :: (V.answer t rest).writes a) :
    (V.answer t rest).Evicting i a v := by
  cases h with
  | driven hc | landed hc =>
    rw [hn] at hc
    cases hc
  | @queued u hw hi hd =>
    rw [hwrites] at hw
    cases hr : (V.answer t rest).writes a with
    | nil =>
      rw [hr] at hw
      obtain rfl : t = u := Option.some.inj hw
      refine .landed rfl rfl hi hr fun hx => ?_
      have hx : V.lands t.addr := by rwa [hl.lands ht.2]
      simp [View.answer, ht, hx, hd]
    | cons w ws =>
      refine .queued ?_ hi hd
      rw [hr] at hw ⊢
      exact hw

/-- **Everybody agrees on the value of a line.** -/
structure Agrees (V : View n) (a : Addr) (v : Block) : Prop where
  copies : ∀ i, (V.copy i a).1.hasData → (V.copy i a).2 = v
  settled : V.lands a → (∀ i, ¬ (V.copy i a).1.isDirty ∧ V.stage i ≠ .taken a.line) →
    V.block a = v
  written : V.writes a ≠ [] → ∃ i, (V.copy i a).1.isDirty ∨ V.stage i = .taken a.line
  evicting : ∀ i, V.stage i = .awaits .write a.line → (V.copy i a).1.isDirty → V.Evicting i a v
  leaving : ∀ i, V.stage i = .leaves a.line → V.writes a = [] ∧ (V.lands a → V.block a = v)
  fetched : ∀ i, V.Fetching i a → ∀ t ∈ V.pending, t.requester = i →
    V.block a = v ∧ V.writes a = [] ∧ (∀ j, ¬ (V.copy j a).1.isDirty) ∧
      (V.pending.head? = some t → ∀ b, V.captured = some b → b = v)
  owed : ∀ i, V.Fetching i a → ∀ j, ∀ k ∈ V.jobs j, k.dest = i → k.data = some v
  answered : ∀ i, V.Fetching i a → ∀ t, V.current = some t → t.func = .response →
    t.requester = i → t.data = some v

namespace Agrees

variable {V V' : View n} {a : Addr} {v : Block} {i : Fin n} {s : Stage}
  {c : Addr → LineState × Block}

/-! ## Turns of caches -/

/-- What has landed of a line is its value, if a cache gives up a dirty line only when that had been
written back. -/
theorem settled_of_change (h : V.Agrees a v) (hc : V.DiffersAt V' a i)
    (hlost : (V.copy i a).1.isDirty → ¬ (V'.copy i a).1.isDirty → V.stage i = .leaves a.line)
    (htaken : V.stage i ≠ .taken a.line) (hl : V.lands a)
    (hs : ∀ j, ¬ (V'.copy j a).1.isDirty ∧ V'.stage j ≠ .taken a.line) : V.block a = v := by
  by_cases hd : (V.copy i a).1.isDirty
  · exact (h.leaving i (hlost hd (hs i).1)).2 hl
  · refine h.settled hl fun j => ?_
    by_cases hj : j = i
    · exact hj ▸ ⟨hd, htaken⟩
    · rw [← hc.copy j hj, ← hc.stage j hj]
      exact hs j

theorem written_of_change (h : V.Agrees a v) (hc : V.DiffersAt V' a i)
    (hlost : (V.copy i a).1.isDirty → ¬ (V'.copy i a).1.isDirty → V.stage i = .leaves a.line)
    (htaken : V.stage i ≠ .taken a.line) (hw : V.writes a ≠ []) :
    ∃ j, (V'.copy j a).1.isDirty ∨ V'.stage j = .taken a.line := by
  obtain ⟨j, hj⟩ := h.written hw
  refine ⟨j, ?_⟩
  by_cases hji : j = i
  · subst hji
    have hd := hj.resolve_right htaken
    by_contra hn
    exact hw (h.leaving j (hlost hd fun hx => hn (.inl hx))).1
  · rwa [hc.copy j hji, hc.stage j hji]

/-- Only one cache has changed, it has no more of the line than before, and it has given up a dirty
line only when that had been written back. -/
theorem of_change (h : V.Agrees a v) (hc : V.DiffersAt V' a i) (hjobs : V'.jobs = V.jobs)
    (hpending : V'.pending = V.pending) (hcaptured : V'.captured = V.captured)
    (hblock : V'.block = V.block) (hlands : V'.lands = V.lands)
    (hcurrent : V'.current = V.current ∨
      V.current = none ∧ ∀ t, V'.current = some t → t.func ≠ .response)
    (hless : (V'.copy i a).1.hasData → V'.copy i a = V.copy i a)
    (hlost : (V.copy i a).1.isDirty → ¬ (V'.copy i a).1.isDirty → V.stage i = .leaves a.line)
    (htaken : V.stage i ≠ .taken a.line) (hleaves : V'.stage i ≠ .leaves a.line)
    (hfetch : ¬ V'.Fetching i a)
    (hevict : V'.stage i = .awaits .write a.line → (V'.copy i a).1.isDirty → V'.Evicting i a v) :
    V'.Agrees a v := by
  have hwrites : V'.writes a = V.writes a := by simp only [writes, hpending]
  have hdirty : ∀ j, (V'.copy j a).1.isDirty → (V.copy j a).1.isDirty := by
    intro j hd
    by_cases hj : j = i
    · subst hj
      rwa [hless (LineState.hasData_of_isDirty hd)] at hd
    · rwa [hc.copy j hj] at hd
  have hfetching : ∀ j, V'.Fetching j a → V.Fetching j a := fun j hf =>
    hc.fetching (fun e => hfetch (e ▸ hf)) hf
  refine ⟨fun j hd => ?_, fun hl hs => ?_, fun hw => ?_, fun j hs hd => ?_, fun j hs => ?_,
    fun j hf t ht hr => ?_, fun j hf k job hk => ?_, fun j hf t ht hx hr => ?_⟩
  · by_cases hj : j = i
    · subst hj
      have he := hless hd
      rw [he] at hd ⊢
      exact h.copies j hd
    · rw [hc.copy j hj] at hd ⊢
      exact h.copies j hd
  · rw [hblock]
    exact h.settled_of_change hc hlost htaken (hlands ▸ hl) hs
  · exact h.written_of_change hc hlost htaken (hwrites ▸ hw)
  · by_cases hj : j = i
    · subst hj
      exact hevict hs hd
    · rw [hc.stage j hj] at hs
      rw [hc.copy j hj] at hd
      refine (h.evicting j hs hd).congr (fun t ht => ?_) hwrites hlands (congrFun hblock a)
      obtain he | ⟨he, -⟩ := hcurrent
      · exact he.trans ht
      · cases he.symm.trans ht
  · have hj : j ≠ i := by
      rintro rfl
      exact hleaves hs
    rw [hwrites, hlands, hblock]
    exact h.leaving j (hc.stage j hj ▸ hs)
  · rw [hpending] at ht ⊢
    rw [hblock, hwrites, hcaptured]
    obtain ⟨hb, hw, hd, hx⟩ := h.fetched j (hfetching j hf) t ht hr
    exact ⟨hb, hw, fun k hk => hd k (hdirty k hk), hx⟩
  · exact h.owed j (hfetching j hf) k job (hjobs ▸ hk)
  · obtain he | ⟨-, he⟩ := hcurrent
    · exact h.answered j (hfetching j hf) t (he ▸ ht) hx hr
    · exact absurd hx (he t ht)

theorem set (h : V.Agrees a v) (hs : s = .idle ∨ s = .works)
    (hless : (c a).1.hasData → c a = V.copy i a)
    (hlost : (V.copy i a).1.isDirty → ¬ (c a).1.isDirty → V.stage i = .leaves a.line)
    (htaken : V.stage i ≠ .taken a.line) : (V.set i s c).Agrees a v := by
  have hself : (V.set i s c).stage i = s := stage_set_self V i s c
  refine h.of_change differsAt_set rfl rfl rfl rfl rfl (.inl rfl) ?_ ?_ htaken ?_ ?_ ?_
  · rw [copy_set_self]
    exact hless
  · rw [copy_set_self]
    exact hlost
  · rw [hself]
    rcases hs with rfl | rfl <;> exact nofun
  · intro hf
    have hx := hself.symm.trans hf.awaits
    rcases hs with rfl | rfl <;> cases hx
  · intro hx
    have hx := hself.symm.trans hx
    rcases hs with rfl | rfl <;> cases hx

theorem request (h : V.Agrees a v) (hb : V.current = none) {t : Transfer} (hi : t.requester = i)
    (hr : t.func.isRequest) (hless : (c a).1.hasData → c a = V.copy i a)
    (hlost : (V.copy i a).1.isDirty → ¬ (c a).1.isDirty → V.stage i = .leaves a.line)
    (htaken : V.stage i ≠ .taken a.line) (hleaves : s ≠ .leaves a.line)
    (hevict : s = .awaits .write a.line → t.func = .write ∧ t.data = some v) :
    ((V.set i s c).drive t).Agrees a v := by
  have hself : ((V.set i s c).drive t).stage i = s := stage_set_self V i s c
  have hcopy : ((V.set i s c).drive t).copy i = c := copy_set_self V i s c
  refine h.of_change (differsAt_drive hb hi) rfl rfl rfl rfl rfl (.inr ⟨hb, fun u hu hx => ?_⟩) ?_
    ?_
    htaken ?_ ?_ ?_
  · cases hu
    rw [hx] at hr
    exact Bool.noConfusion hr
  · rw [hcopy]
    exact hless
  · rw [hcopy]
    exact hlost
  · rw [hself]
    exact hleaves
  · exact fun hf => hf.seen (fresh_drive.mpr ⟨hi, hr⟩)
  · intro hx _
    obtain ⟨hf, hd⟩ := hevict (hself.symm.trans hx)
    exact .driven rfl hf hi hd

end Agrees

theorem Exclusive.agrees_write {V : View n} {a : Addr} {i : Fin n} {c : Addr → LineState × Block}
    (he : V.Exclusive a) (hf : ¬ V.Fresh i)
    (hw : (V.copy i a).1.isSole ∨ V.stage i = .taken a.line) {v' : Block}
    (hc : c a = (.modified, v')) : (V.set i .idle c).Agrees a v' := by
  have hd : V.DiffersAt (V.set i .idle c) a i := differsAt_set
  have hself : (V.set i .idle c).copy i a = (.modified, v') := by
    rw [copy_set_self]
    exact hc
  have hnone : ∀ j, j ≠ i → ¬ (V.copy j a).1.hasData := fun j hj => (he.nobody hf hw hj).1
  have hother : ∀ j, j ≠ i → ¬ ((V.set i .idle c).copy j a).1.hasData := fun j hj =>
    (hd.copy j hj).symm ▸ hnone j hj
  have hdirty : ((V.set i .idle c).copy i a).1.isDirty := by
    rw [hself]
    rfl
  have hfetch : ∀ j, ¬ (V.set i .idle c).Fetching j a := by
    intro j hx
    obtain ⟨hj, -⟩ := stage_of_set hx.awaits Stage.noConfusion
    exact (he.nobody hf hw hj).2 (hd.fetching hj hx)
  refine ⟨fun j hd => ?_, fun _ hs => absurd hdirty (hs i).1, fun _ => ⟨i, .inl hdirty⟩,
    fun j hs hd => ?_, fun j hs => ?_, fun j hx => absurd hx (hfetch j),
    fun j hx => absurd hx (hfetch j), fun j hx => absurd hx (hfetch j)⟩
  · by_cases hj : j = i
    · rw [hj, hself]
    · exact absurd hd (hother j hj)
  · obtain ⟨hj, -⟩ := stage_of_set hs Stage.noConfusion
    exact absurd (LineState.hasData_of_isDirty hd) (hother j hj)
  · obtain ⟨hj, hs⟩ := stage_of_set hs Stage.noConfusion
    exact absurd (LineState.hasData_of_isDirty (he.leaving j hs)) (hnone j hj)

/-! ## Turns of memory and forwarders -/

namespace Agrees

variable {V V' : View n} {a : Addr} {v : Block}

theorem of_current (h : V.Agrees a v) (hb : V.current = none) {jobs : Fin n → List ForwardJob}
    {t : Transfer} (hj : ∀ j, ∀ k ∈ jobs j, k ∈ V.jobs j)
    (ha : ∀ i, V.Fetching i a → t.func = .response → t.requester = i → t.data = some v) :
    ({ V with jobs := jobs }.drive t).Agrees a v := by
  have hfetching : ∀ j, ({ V with jobs := jobs }.drive t).Fetching j a → V.Fetching j a :=
    fun j hf => ⟨hf.awaits, hf.requested, not_fresh_of_none hb j⟩
  refine ⟨h.copies, h.settled, h.written, fun j hs hd => ?_, h.leaving,
    fun j hf => h.fetched j (hfetching j hf),
    fun j hf k job hk => h.owed j (hfetching j hf) k job (hj k job hk), fun j hf u hu => ?_⟩
  · refine (h.evicting j hs hd).congr (fun u hc => ?_) rfl rfl rfl
    cases hb.symm.trans hc
  · cases hu
    exact ha j (hfetching j hf)

theorem eq_of_fetching (hb : V.Balanced) {i : Fin n} (hf : V.Fetching i a) {t : Transfer}
    (ht : t ∈ V.pending) (hi : t.requester = i) : t.func = .read ∧ t.addr = a.line := by
  obtain ⟨j, hj, hs⟩ := hb.stage_of_pending ht
  obtain rfl : i = j := Fin.ext (hi.symm.trans hj)
  obtain ⟨hr, ha⟩ := Stage.awaits.inj (hf.awaits.symm.trans hs)
  exact ⟨hr.symm, ha.symm⟩

theorem reply_eq (h : V.Agrees a v) (hb : V.Balanced) (hl : V.Lawful) {i : Fin n}
    (hf : V.Fetching i a) {t : Transfer} {rest : List Transfer} (hp : V.pending = t :: rest)
    (hi : t.requester = i) : V.reply t = v := by
  have ht : t ∈ V.pending := hp ▸ List.mem_cons_self
  obtain ⟨hv, -, -, hx⟩ := h.fetched i hf t ht hi
  unfold reply
  cases hc : V.captured with
  | some b => exact hx (by rw [hp]; rfl) b hc
  | none =>
    have ha := (eq_of_fetching hb hf ht hi).2
    rw [ha, Option.getD_none, hl.block a.line_line]
    exact hv

theorem capture (h : V.Agrees a v) (hb : V.Balanced) (hl : V.Lawful) {t : Transfer}
    {rest : List Transfer} (hp : V.pending = t :: rest) :
    { V with captured := some (V.reply t) }.Agrees a v := by
  refine ⟨h.copies, h.settled, h.written, fun j hs hd => ?_, h.leaving, fun j hf u hu hr => ?_,
    fun j hf => h.owed j ⟨hf.awaits, hf.requested, hf.seen⟩,
    fun j hf => h.answered j ⟨hf.awaits, hf.requested, hf.seen⟩⟩
  · exact (h.evicting j hs hd).congr (fun _ hc => hc) rfl rfl rfl
  · have hold : V.Fetching j a := ⟨hf.awaits, hf.requested, hf.seen⟩
    obtain ⟨hv, hw, hd, hx⟩ := h.fetched j hold u hu hr
    refine ⟨hv, hw, hd, fun hh b hb' => ?_⟩
    cases hb'
    have he : t = u := by
      rw [show ({ V with captured := some (V.reply t) } : View n).pending = t :: rest from hp] at hh
      exact Option.some.inj hh
    rw [h.reply_eq hb hl hold hp (he ▸ hr)]

section Answer

variable (h : V.Agrees a v) (hb : V.Balanced) (hl : V.Lawful) (hn : V.current = none)
  {t : Transfer} {rest : List Transfer} (hp : V.pending = t :: rest)

include hn in
theorem fetching_answer {j : Fin n} (hf : (V.answer t rest).Fetching j a) : V.Fetching j a :=
  ⟨hf.awaits, hf.requested, not_fresh_of_none hn j⟩

include h hb hl hn hp

/-- A write of the line lands, which may be stale. -/
theorem answer_write (ht : t.func = .write ∧ t.addr.line = a.line) :
    (V.answer t rest).Agrees a v := by
  have hmem : t ∈ V.pending := hp ▸ List.mem_cons_self
  have hwrites : V.writes a = t :: (V.answer t rest).writes a := by
    simp [writes, hp, View.answer, ht]
  have hne : V.writes a ≠ [] := by simp [hwrites]
  refine ⟨h.copies, fun hx hs => ?_, fun _ => h.written hne,
    fun j hs hd => (h.evicting j hs hd).answer hl hn ht hwrites,
    fun j hs => absurd (h.leaving j hs).1 hne,
    fun j hf u hu hr => absurd (h.fetched j (fetching_answer hn hf) u ?_ hr).2.1 hne,
    fun j hf => h.owed j (fetching_answer hn hf), fun j hf u hu hx hr => ?_⟩
  · obtain ⟨j, hj⟩ := h.written hne
    exact absurd hj (not_or.mpr (hs j))
  · rw [hp]
    exact List.mem_cons_of_mem t hu
  · cases hu
    have hread := (eq_of_fetching hb (fetching_answer hn hf) hmem hr).1
    exact absurd (ht.1.symm.trans hread) (by decide)

theorem answer_other (ht : ¬ (t.func = .write ∧ t.addr.line = a.line)) :
    (V.answer t rest).Agrees a v := by
  have hmem : t ∈ V.pending := hp ▸ List.mem_cons_self
  have hwrites : (V.answer t rest).writes a = V.writes a := by
    simp [writes, hp, View.answer, ht]
  have hblock : (V.answer t rest).block a = V.block a := by
    refine if_neg fun hx => ht ⟨hx.1, hx.2.2.symm⟩
  refine ⟨h.copies, fun hx hs => ?_, fun hw => h.written (hwrites ▸ hw), fun j hs hd => ?_,
    fun j hs => ?_, fun j hf u hu hr => ?_, fun j hf => h.owed j (fetching_answer hn hf),
    fun j hf u hu hx hr => ?_⟩
  · rw [hblock]
    exact h.settled hx hs
  · refine (h.evicting j hs hd).congr (fun u hc => ?_) hwrites rfl hblock
    cases hn.symm.trans hc
  · rw [hwrites, hblock]
    exact h.leaving j hs
  · have hu : u ∈ V.pending := hp ▸ List.mem_cons_of_mem t hu
    obtain ⟨hv, hw, hd, -⟩ := h.fetched j (fetching_answer hn hf) u hu hr
    exact ⟨hblock.trans hv, hwrites.trans hw, hd, fun _ _ hx => by cases hx⟩
  · cases hu
    have hread := (eq_of_fetching hb (fetching_answer hn hf) hmem hr).1
    simp only [hread, if_true]
    rw [h.reply_eq hb hl (fetching_answer hn hf) hp hr]

theorem answer : (V.answer t rest).Agrees a v := by
  by_cases ht : t.func = .write ∧ t.addr.line = a.line
  · exact h.answer_write hb hl hn hp ht
  · exact h.answer_other hb hl hn hp ht

end Answer

end Agrees

/-- **Turns change the value of a line with the request that ends.** -/
theorem agrees_turn {V V' : View n} {d : Option Request} {a : Addr} {v : Block} (hb : V.Balanced)
    (hl : V.Lawful) (he : V.Exclusive a) (h : V.Agrees a v) (ht : V.Turn d V') :
    V'.Agrees a (d.elim v fun r => r.update a v) := by
  cases ht with
  | work hs =>
    refine h.set (.inr rfl) (fun _ => rfl) (fun hd hn => absurd hd hn) fun hx => ?_
    rw [hx] at hs
    simp at hs
  | take hn hs hd =>
    exact h.request hn rfl rfl (fun _ => rfl) (fun hd hn => absurd hd hn) (by simp [hs]) nofun nofun
  | @evict i u hn hs hd =>
    refine h.request hn rfl rfl (fun _ => rfl) (fun hd hn => absurd hd hn) (by simp [hs]) nofun
      fun hx => ⟨rfl, ?_⟩
    have hu := (Stage.awaits.inj hx).2
    rw [← hl.copy hu.symm, h.copies i (hl.copy hu ▸ LineState.hasData_of_isDirty hd)]
  | ask hs hc =>
    refine h.set (.inr rfl) hc.eq_of_hasData hc.leaves_of_lost fun hx => ?_
    rw [hx] at hs
    simp at hs
  | fetch hn hj hs hc =>
    refine h.request hn rfl rfl hc.eq_of_hasData hc.leaves_of_lost (fun hx => ?_) nofun nofun
    rw [hx] at hs
    simp at hs
  | @finish i r c hf hs hd hw ht hc =>
    by_cases hx : a.line = r.addr.line ∧ r.isWrite
    · obtain ⟨ha, hr⟩ := hx
      refine he.agrees_write hf ?_ ?_
      · rw [hl.copy ha, ha]
        exact hw hr
      · have hv := h.copies i (hl.copy ha ▸ hd)
        rw [hc, if_pos ha, ← hl.copy ha, Option.elim_some, Request.effect_of_isWrite hr ha, hv]
    · have hcopy : c a = V.copy i a := by
        rw [hc]
        split_ifs with ha
        · rw [hl.copy ha, Request.effect_of_not_isWrite fun hr => hx ⟨ha, hr⟩]
        · rfl
      rw [Option.elim_some, Request.update_eq_self hx]
      refine h.set (.inl rfl) (fun _ => hcopy) (fun hd hn => absurd hd (hcopy ▸ hn)) fun hta => ?_
      rcases hs with hs | hs
      · cases hs.symm.trans hta
      · exact hx ⟨Stage.taken.inj (hta.symm.trans hs), ht hs⟩
  | capture hp hr => exact h.capture hb hl hp
  | answer hn hp => exact h.answer hb hl hn hp
  | @forward j k rest hn hj =>
    have hk : k ∈ V.jobs j := hj ▸ List.mem_cons_self
    refine h.of_current hn (fun j' k' hk' => ?_) fun i hf _ hi => h.owed i hf j k hk hi
    by_cases hjj : j' = j
    · subst hjj
      rw [Function.update_self] at hk'
      exact hj ▸ List.mem_cons_of_mem k hk'
    · rwa [Function.update_of_ne hjj] at hk'
  | notice hn hf =>
    refine h.of_current hn (fun _ _ hk => hk) fun i _ hx => ?_
    exact absurd (hf.symm.trans hx) (by decide)

end View

end Snooping
