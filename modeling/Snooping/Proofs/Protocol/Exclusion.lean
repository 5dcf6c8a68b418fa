import Snooping.Proofs.Protocol.Balance

/-!
# One writer for a line

A cache writes a line only when nobody else has data for it: it has the line alone, or it has just
taken the line away from everybody else. What makes this last is that a read that was looked at
leaves no sole owner behind, and that nobody becomes one before the read is answered.

* **`View.Exclusive`**: the invariant of one line.
* `View.Balanced.not_fresh`: a cache that works has nothing on the bus.
* **`View.exclusive_turn`**, **`View.exclusive_broadcast`**: it is kept.
-/

namespace Snooping

/-! ## What is left of a line -/

namespace Func

theorem fades_remains (f : Func) (x : LineState × Block) : x.1.Fades (f.remains x).1 := by
  cases f
  case read => exact .inr (.inl rfl)
  case write | invalidate => exact .inl rfl
  all_goals exact .of_eq rfl

theorem not_isSole_remains_read (x : LineState × Block) : ¬ (Func.read.remains x).1.isSole := by
  obtain ⟨s, d⟩ := x
  cases s <;> exact Bool.false_ne_true

theorem isDirty_remains_read (x : LineState × Block) :
    (Func.read.remains x).1.isDirty = x.1.isDirty := by
  obtain ⟨s, d⟩ := x
  cases s <;> rfl

end Func

namespace View

variable {n : Nat}

/-- **At most one cache may write a line.** -/
structure Exclusive (V : View n) (a : Addr) : Prop where
  sole : ∀ i j, i ≠ j → (V.copy i a).1.isSole → ¬ (V.copy j a).1.hasData
  dirty : ∀ i j, i ≠ j → (V.copy i a).1.isDirty → ¬ (V.copy j a).1.isDirty
  taken : ∀ i, V.stage i = .taken a.line → (V.copy i a).1.hasData
  alone : ∀ i j, i ≠ j → V.stage i = .taken a.line → ¬ V.Fresh i → ¬ (V.copy j a).1.hasData
  waiting : ∀ i, V.stage i = .awaits .read a.line → ¬ (V.copy i a).1.hasData
  leaving : ∀ i, V.stage i = .leaves a.line → (V.copy i a).1.isDirty
  fetching : ∀ i j, i ≠ j → V.Fetching i a →
    ¬ (V.copy j a).1.isSole ∧ (V.stage j = .taken a.line → V.Fresh j)
  writing : ∀ (i : Fin n) t, V.current = some t → t.func = .write → t.requester = i →
    t.addr.line = a.line → (V.copy i a).1.isDirty

/-! ## Who has something on the bus -/

namespace Balanced

variable {V : View n}

theorem stage_of_request (h : V.Balanced) {t : Transfer} (hc : V.current = some t)
    (hf : t.func.isRequest) : ∃ i : Fin n, t.requester = i ∧
      (V.stage i = .awaits t.func t.addr ∨
        (t.func = .invalidate ∧ V.stage i = .taken t.addr.line)) := by
  cases hx : t.func with
  | read | write =>
    refine (h.stage_of_owed (d := t.debt) ?_).imp fun i hi => ⟨hi.1, .inl (hx ▸ hi.2)⟩
    simp [owed, hc, Transfer.owed, hx]
  | invalidate =>
    obtain ⟨i, hi, hs⟩ := h.taking t hc hx
    exact ⟨i, hi, .inr ⟨rfl, hs⟩⟩
  | nothing | response | requested =>
    rw [hx] at hf
    exact Bool.noConfusion hf

theorem addr_of_awaits (h : V.Balanced) {t : Transfer} (hc : V.current = some t)
    (hr : t.func.isRequest) {i : Fin n} (hi : t.requester = i) {f : Func} {u : Addr}
    (hs : V.stage i = .awaits f u) : u = t.addr := by
  obtain ⟨j, hj, hst⟩ := h.stage_of_request hc hr
  obtain rfl : i = j := Fin.ext (hi.symm.trans hj)
  obtain hst | ⟨-, hst⟩ := hst
  · exact (Stage.awaits.inj (hs.symm.trans hst)).2
  · cases hs.symm.trans hst

theorem not_fresh (h : V.Balanced) {i : Fin n} (hs : ∀ f a, V.stage i ≠ .awaits f a)
    (ht : ∀ a, V.stage i ≠ .taken a) : ¬ V.Fresh i := by
  rintro ⟨t, hc, hi, hf⟩
  obtain ⟨j, hj, hst⟩ := h.stage_of_request hc hf
  obtain rfl : i = j := Fin.ext (hi.symm.trans hj)
  obtain hst | ⟨-, hst⟩ := hst
  · exact hs _ _ hst
  · exact ht _ hst

theorem not_fresh_of_works (h : V.Balanced) {i : Fin n}
    (hs : V.stage i = .idle ∨ V.stage i = .works ∨ ∃ u, V.stage i = .leaves u) : ¬ V.Fresh i := by
  refine h.not_fresh (fun f a => ?_) fun a => ?_
  all_goals rcases hs with hs | hs | ⟨u, hs⟩ <;> rw [hs] <;> exact Stage.noConfusion

end Balanced

theorem not_fresh_of_none {V : View n} (hb : V.current = none) (i : Fin n) : ¬ V.Fresh i := by
  rintro ⟨t, ht, -⟩
  rw [hb] at ht
  cases ht

theorem fresh_drive {V : View n} {t : Transfer} {i : Fin n} :
    (V.drive t).Fresh i ↔ t.requester = i ∧ t.func.isRequest := by
  constructor
  · rintro ⟨u, hu, hi, hf⟩
    cases hu
    exact ⟨hi, hf⟩
  · rintro ⟨hi, hf⟩
    exact ⟨t, rfl, hi, hf⟩

/-! ## One cache has changed -/

/-- Of what concerns a line, two views differ only at one cache. -/
structure DiffersAt (V V' : View n) (a : Addr) (i : Fin n) : Prop where
  copy : ∀ j, j ≠ i → V'.copy j a = V.copy j a
  stage : ∀ j, j ≠ i → V'.stage j = V.stage j
  fresh : ∀ j, j ≠ i → (V'.Fresh j ↔ V.Fresh j)

section DiffersAt

variable {V V' : View n} {a : Addr} {i j : Fin n} {s s' : Stage} {c : Addr → LineState × Block}

theorem differsAt_set : V.DiffersAt (V.set i s c) a i :=
  ⟨fun _ hj => congrFun (copy_set_of_ne V s c hj) a, fun _ hj => stage_set_of_ne V s c hj,
    fun _ _ => .rfl⟩

theorem differsAt_drive (hb : V.current = none) {t : Transfer} (hi : t.requester = i) :
    V.DiffersAt ((V.set i s c).drive t) a i := by
  refine ⟨fun _ hj => congrFun (copy_set_of_ne V s c hj) a, fun _ hj => stage_set_of_ne V s c hj,
    fun j hj => iff_of_false (fun hf => hj ?_) (not_fresh_of_none hb j)⟩
  exact Fin.ext ((fresh_drive.mp hf).1.symm.trans hi)

theorem DiffersAt.fetching (h : V.DiffersAt V' a i) (hj : j ≠ i) (hf : V'.Fetching j a) :
    V.Fetching j a :=
  ⟨h.stage j hj ▸ hf.awaits, h.copy j hj ▸ hf.requested, mt (h.fresh j hj).mpr hf.seen⟩

/-- What no two caches had together they still do not have, if the cache that has changed has it
only where the others did not. -/
theorem DiffersAt.apart {P Q : LineState → Prop} (h : V.DiffersAt V' a i)
    (hpq : ∀ j k, j ≠ k → P (V.copy j a).1 → ¬ Q (V.copy k a).1)
    (hp : P (V'.copy i a).1 → ∀ j, j ≠ i → ¬ Q (V.copy j a).1)
    (hq : Q (V'.copy i a).1 → ∀ j, j ≠ i → ¬ P (V.copy j a).1) (j k : Fin n) (hjk : j ≠ k)
    (hx : P (V'.copy j a).1) : ¬ Q (V'.copy k a).1 := by
  by_cases hj : j = i
  · subst hj
    rw [h.copy k hjk.symm]
    exact hp hx k hjk.symm
  · rw [h.copy j hj] at hx
    by_cases hk : k = i
    · subst hk
      exact fun hd => hq hd j hj hx
    · rw [h.copy k hk]
      exact hpq j k hjk hx

theorem stage_of_set (hj : (V.set i s c).stage j = s') (hs : s ≠ s') :
    j ≠ i ∧ V.stage j = s' := by
  have hji : j ≠ i := by
    rintro rfl
    exact hs ((stage_set_self V j s c).symm.trans hj)
  exact ⟨hji, (stage_set_of_ne V s c hji).symm.trans hj⟩

end DiffersAt

/-! ## Turns -/

theorem Exclusive.congr {V V' : View n} {a : Addr} (h : V.Exclusive a) (hs : V'.stage = V.stage)
    (hx : V'.copy = V.copy) (hc : V'.current = V.current) : V'.Exclusive a := by
  have hf : ∀ j, V'.Fresh j ↔ V.Fresh j := fun j => by simp only [Fresh, hc]
  refine ⟨?_, ?_, ?_, fun j k hjk hj hk => ?_, ?_, ?_, fun j k hjk hj => ?_, ?_⟩
  · rw [hx]
    exact h.sole
  · rw [hx]
    exact h.dirty
  · rw [hx, hs]
    exact h.taken
  · rw [hx]
    exact h.alone j k hjk (hs ▸ hj) (mt (hf j).mpr hk)
  · rw [hx, hs]
    exact h.waiting
  · rw [hx, hs]
    exact h.leaving
  · obtain ⟨hk, ht⟩ := h.fetching j k hjk
      ⟨hs ▸ hj.awaits, hx ▸ hj.requested, mt (hf j).mpr hj.seen⟩
    rw [hx, hs]
    exact ⟨hk, fun h => (hf k).mpr (ht h)⟩
  · rw [hx, hc]
    exact h.writing

/-- Only one cache has changed, it has no more of the line than before, and what it has put on the
bus fits its stage. -/
theorem Exclusive.of_change {V V' : View n} {a : Addr} {i : Fin n} (h : V.Exclusive a)
    (hc : V.DiffersAt V' a i) (hless : (V'.copy i a).1.hasData → (V'.copy i a).1 = (V.copy i a).1)
    (htaken : V'.stage i = .taken a.line → (V'.copy i a).1.hasData ∧ V'.Fresh i)
    (hwaits : V'.stage i = .awaits .read a.line → ¬ (V'.copy i a).1.hasData ∧ V'.Fresh i)
    (hleaves : V'.stage i ≠ .leaves a.line)
    (hwrites : ∀ (j : Fin n) t, V'.current = some t → t.func = .write → t.requester = j →
      t.addr.line = a.line → if j = i then (V'.copy i a).1.isDirty else V.current = some t) :
    V'.Exclusive a := by
  have hdata : ∀ j, (V'.copy j a).1.hasData → (V'.copy j a).1 = (V.copy j a).1 := fun j hd => by
    by_cases hj : j = i
    · exact hj ▸ hless (hj ▸ hd)
    · rw [hc.copy j hj]
  have hof : ∀ j, (V'.copy j a).1.hasData → (V.copy j a).1.hasData := fun j hd => hdata j hd ▸ hd
  have hsole : ∀ j, (V'.copy j a).1.isSole → (V.copy j a).1.isSole := fun j hs =>
    hdata j (LineState.hasData_of_isSole hs) ▸ hs
  have hdirty : ∀ j, (V'.copy j a).1.isDirty → (V.copy j a).1.isDirty := fun j hd =>
    hdata j (LineState.hasData_of_isDirty hd) ▸ hd
  refine ⟨fun j k hjk hs hd => h.sole j k hjk (hsole j hs) (hof k hd),
    fun j k hjk hj hk => h.dirty j k hjk (hdirty j hj) (hdirty k hk), fun j hs => ?_,
    fun j k hjk hs hf hd => ?_, fun j hs => ?_, fun j hs => ?_, fun j k hjk hf => ?_,
    fun j t ht hf hr hl => ?_⟩
  · by_cases hj : j = i
    · subst hj
      exact (htaken hs).1
    · rw [hc.copy j hj]
      exact h.taken j (hc.stage j hj ▸ hs)
  · by_cases hj : j = i
    · subst hj
      exact hf (htaken hs).2
    · exact h.alone j k hjk (hc.stage j hj ▸ hs) (mt (hc.fresh j hj).mpr hf) (hof k hd)
  · by_cases hj : j = i
    · subst hj
      exact (hwaits hs).1
    · rw [hc.copy j hj]
      exact h.waiting j (hc.stage j hj ▸ hs)
  · by_cases hj : j = i
    · subst hj
      exact absurd hs hleaves
    · rw [hc.copy j hj]
      exact h.leaving j (hc.stage j hj ▸ hs)
  · have hj : j ≠ i := by
      rintro rfl
      exact hf.seen (hwaits hf.awaits).2
    obtain ⟨hs, ht⟩ := h.fetching j k hjk (hc.fetching hj hf)
    refine ⟨mt (hsole k) hs, fun hk => ?_⟩
    by_cases hki : k = i
    · subst hki
      exact (htaken hk).2
    · exact (hc.fresh k hki).mpr (ht (hc.stage k hki ▸ hk))
  · have hw := hwrites j t ht hf hr hl
    split_ifs at hw with hj
    · exact hj ▸ hw
    · rw [hc.copy j hj]
      exact h.writing j t hw hf hr hl

namespace Exclusive

variable {V : View n} {a : Addr} {i : Fin n} {s : Stage} {c : Addr → LineState × Block}

theorem set (h : V.Exclusive a) (hf : ¬ V.Fresh i) (hs : s = .idle ∨ s = .works)
    (hless : (c a).1.hasData → (c a).1 = (V.copy i a).1) : (V.set i s c).Exclusive a := by
  refine h.of_change differsAt_set ?_ ?_ ?_ ?_ fun j t hc hw hr hl => ?_
  · rw [copy_set_self]
    exact hless
  · rw [stage_set_self]
    rcases hs with rfl | rfl <;> exact nofun
  · rw [stage_set_self]
    rcases hs with rfl | rfl <;> exact nofun
  · rw [stage_set_self]
    rcases hs with rfl | rfl <;> exact nofun
  · split_ifs with hj
    · exact absurd ⟨t, hc, hj ▸ hr, by rw [hw]; rfl⟩ hf
    · exact hc

theorem request (h : V.Exclusive a) (hb : V.current = none) {t : Transfer} (hi : t.requester = i)
    (hr : t.func.isRequest) (hless : (c a).1.hasData → (c a).1 = (V.copy i a).1)
    (htaken : s = .taken a.line → (c a).1.hasData)
    (hwaits : s = .awaits .read a.line → ¬ (c a).1.hasData) (hleaves : s ≠ .leaves a.line)
    (hwrites : t.func = .write → t.addr.line = a.line → (c a).1.isDirty) :
    ((V.set i s c).drive t).Exclusive a := by
  have hfresh : ((V.set i s c).drive t).Fresh i := fresh_drive.mpr ⟨hi, hr⟩
  have hs : ((V.set i s c).drive t).stage i = s := stage_set_self V i s c
  have hx : ((V.set i s c).drive t).copy i = c := copy_set_self V i s c
  refine h.of_change (differsAt_drive hb hi) ?_ ?_ ?_ ?_ fun j u hu hw hk hl => ?_
  · rw [hx]
    exact hless
  · rw [hs, hx]
    exact fun he => ⟨htaken he, hfresh⟩
  · rw [hs, hx]
    exact fun he => ⟨hwaits he, hfresh⟩
  · rw [hs]
    exact hleaves
  · cases hu
    obtain rfl : j = i := Fin.ext (hk.symm.trans hi)
    rw [if_pos rfl, hx]
    exact hwrites hw hl

theorem of_current {V' : View n} (h : V.Exclusive a) (hnf : ∀ j, ¬ V.Fresh j)
    (hstage : V'.stage = V.stage) (hcopy : V'.copy = V.copy)
    (hr : ∀ t, V'.current = some t → t.func.isRequest = false) : V'.Exclusive a := by
  have hf' : ∀ j, ¬ V'.Fresh j := by
    rintro j ⟨t, hc, -, hq⟩
    exact absurd ((hr t hc).symm.trans hq) (by decide)
  refine ⟨fun j k => ?_, fun j k => ?_, fun j => ?_, fun j k hjk hs _ => ?_, fun j => ?_,
    fun j => ?_,
    fun j k hjk hf => ?_, fun j t hc hw _ _ => ?_⟩
  · rw [hcopy]
    exact h.sole j k
  · rw [hcopy]
    exact h.dirty j k
  · rw [hcopy, hstage]
    exact h.taken j
  · rw [hcopy]
    exact h.alone j k hjk (hstage ▸ hs) (hnf j)
  · rw [hcopy, hstage]
    exact h.waiting j
  · rw [hcopy, hstage]
    exact h.leaving j
  · have hold : V.Fetching j a :=
      ⟨hstage ▸ hf.awaits, hcopy ▸ hf.requested, hnf j⟩
    obtain ⟨hs, ht⟩ := h.fetching j k hjk hold
    rw [hcopy, hstage]
    exact ⟨hs, fun hk => absurd (ht hk) (hnf k)⟩
  · have := hr t hc
    rw [hw] at this
    exact Bool.noConfusion this

theorem nobody (h : V.Exclusive a) (hf : ¬ V.Fresh i)
    (hw : (V.copy i a).1.isSole ∨ V.stage i = .taken a.line) {j : Fin n} (hj : j ≠ i) :
    ¬ (V.copy j a).1.hasData ∧ ¬ V.Fetching j a := by
  rcases hw with hw | hw
  · exact ⟨h.sole i j hj.symm hw, fun hx => (h.fetching j i hj hx).1 hw⟩
  · exact ⟨h.alone i j hj.symm hw hf, fun hx => hf ((h.fetching j i hj hx).2 hw)⟩

theorem write (h : V.Exclusive a) (hf : ¬ V.Fresh i)
    (hw : (V.copy i a).1.isSole ∨ V.stage i = .taken a.line) : (V.set i .idle c).Exclusive a := by
  have hc : V.DiffersAt (V.set i .idle c) a i := differsAt_set
  have hnone : ∀ j, j ≠ i → ¬ (V.copy j a).1.hasData := fun j hj => (h.nobody hf hw hj).1
  refine ⟨hc.apart (P := (·.isSole)) (Q := (·.hasData)) h.sole (fun _ => hnone)
      fun _ j hj hs => hnone j hj (LineState.hasData_of_isSole hs),
    hc.apart (P := (·.isDirty)) (Q := (·.isDirty)) h.dirty
      (fun _ j hj hd => hnone j hj (LineState.hasData_of_isDirty hd))
      fun _ j hj hd => hnone j hj (LineState.hasData_of_isDirty hd),
    fun j hs => ?_, fun j k hjk hs hx => ?_, fun j hs => ?_, fun j hs => ?_, fun j k hjk hx => ?_,
    fun j t ht hx hr hl => ?_⟩
  · obtain ⟨hj, hs⟩ := stage_of_set hs nofun
    rw [hc.copy j hj]
    exact h.taken j hs
  · obtain ⟨hj, hs⟩ := stage_of_set hs nofun
    exact absurd (h.taken j hs) (hnone j hj)
  · obtain ⟨hj, -⟩ := stage_of_set hs nofun
    rw [hc.copy j hj]
    exact hnone j hj
  · obtain ⟨hj, hs⟩ := stage_of_set hs nofun
    rw [hc.copy j hj]
    exact h.leaving j hs
  · obtain ⟨hj, -⟩ := stage_of_set hx.awaits nofun
    exact absurd (hc.fetching hj hx) (h.nobody hf hw hj).2
  · have hj : j ≠ i := by
      rintro rfl
      exact hf ⟨t, ht, hr, by rw [hx]; rfl⟩
    rw [hc.copy j hj]
    exact h.writing j t ht hx hr hl

end Exclusive

/-- **Turns keep a line exclusive.** -/
theorem exclusive_turn {V V' : View n} {d : Option Request} {a : Addr} (hb : V.Balanced)
    (hl : V.Lawful) (h : V.Exclusive a) (ht : V.Turn d V') : V'.Exclusive a := by
  cases ht with
  | work hs =>
    refine h.set (hb.not_fresh_of_works ?_) (.inr rfl) fun _ => rfl
    exact hs.imp_right .inl
  | @take i r hn hs hd =>
    refine h.request hn rfl rfl (fun _ => rfl) (fun he => ?_) nofun nofun nofun
    rw [← hl.copy (Stage.taken.inj he)]
    exact hd
  | @evict i u hn hs hd =>
    refine h.request hn rfl rfl (fun _ => rfl) nofun (fun he => ?_) nofun fun _ he => ?_
    · cases he
    · rw [← hl.copy (u.line_line.symm.trans he)]
      exact hd
  | ask hs hc =>
    refine h.set (hb.not_fresh_of_works (.inr hs)) (.inr rfl) fun hd => ?_
    rw [hc.eq_of_hasData hd]
  | fetch hn hj hs hc =>
    refine h.request hn rfl rfl (fun hd => by rw [hc.eq_of_hasData hd]) nofun (fun he => ?_) nofun
      nofun
    rw [hc.marked a (Stage.awaits.inj he).2.symm]
    decide
  | @finish i r c hf hs hd hw _ hc =>
    by_cases hx : a.line = r.addr.line ∧ r.isWrite
    · refine h.write hf ?_
      rw [hl.copy hx.1, hx.1]
      exact hw hx.2
    · refine h.set hf (.inl rfl) fun _ => ?_
      rw [hc]
      split_ifs with ha
      · rw [hl.copy ha]
        cases r with
        | read x => rfl
        | write x v => exact absurd ⟨ha, rfl⟩ hx
      · rfl
  | capture hp hr => exact h.congr rfl rfl rfl
  | answer hn hp =>
    refine h.of_current (not_fresh_of_none hn) rfl rfl fun u hu => ?_
    cases hu
    rfl
  | forward hn hj =>
    refine h.of_current (not_fresh_of_none hn) rfl rfl fun u hu => ?_
    cases hu
    rfl
  | notice hn hf =>
    refine h.of_current (not_fresh_of_none hn) rfl rfl fun u hu => ?_
    cases hu
    rw [hf]
    rfl

/-! ## Broadcasts -/

section Seen

variable {V : View n} {t : Transfer} {a : Addr}

theorem fades_seen (V : View n) (t : Transfer) (a : Addr) (j : Fin n) :
    (V.copy j a).1.Fades ((V.seen t).copy j a).1 := by
  dsimp only [seen]
  split_ifs
  · exact t.func.fades_remains _
  · exact .of_eq rfl

theorem requester_of_fresh {i : Fin n} (hc : V.current = some t) (hi : V.Fresh i) :
    t.requester = i := by
  obtain ⟨u, hu, hi, -⟩ := hi
  rw [hc] at hu
  cases hu
  exact hi

theorem copy_seen_self {i : Fin n} (hi : t.requester = i) : (V.seen t).copy i = V.copy i := by
  funext b
  exact if_neg fun hx => hx.1 hi.symm

theorem copy_seen_of_ne (h : a.line ≠ t.addr.line) (j : Fin n) :
    (V.seen t).copy j a = V.copy j a := if_neg fun hx => h hx.2

theorem copy_seen {i j : Fin n} (hi : t.requester = i) (hj : j ≠ i) (h : a.line = t.addr.line) :
    (V.seen t).copy j a = t.func.remains (V.copy j a) :=
  if_pos ⟨fun hx => hj (Fin.ext (hx.trans hi)), h⟩

theorem stage_of_seen {j : Fin n} {s : Stage} (h : (V.seen t).stage j = s) (hs : s ≠ .works) :
    V.stage j = s := by
  dsimp only [seen] at h
  unfold Stage.seen at h
  split_ifs at h
  · exact absurd h.symm hs
  · exact h
  · exact h

theorem gone_of_seen {i j : Fin n} (hi : t.requester = i) (hj : j ≠ i) (h : a.line = t.addr.line)
    (hf : t.func = .write ∨ t.func = .invalidate) :
    (V.seen t).copy j a = (.invalid, Block.zero) := by
  rw [copy_seen hi hj h]
  rcases hf with hf | hf <;> rw [hf] <;> rfl

theorem works_of_seen {i j : Fin n} (hi : t.requester = i) (hj : j ≠ i) (hl : a.line = t.addr.line)
    (hf : t.func = .write ∨ t.func = .invalidate) (hs : V.stage j = .leaves a.line) :
    (V.seen t).stage j = .works := by
  have hne : (j : Nat) ≠ t.requester := fun e => hj (Fin.ext (e.trans hi))
  dsimp only [View.seen]
  rw [if_pos hne, hs, Stage.seen, if_pos ⟨hf, by rw [hl]⟩]

theorem isDirty_of_leaves_seen {i j : Fin n} (hi : t.requester = i) (hr : t.func.isRequest)
    (hd : (V.copy j a).1.isDirty) (hs : (V.seen t).stage j = .leaves a.line) :
    ((V.seen t).copy j a).1.isDirty := by
  by_cases hji : j = i
  · subst hji
    rwa [copy_seen_self hi]
  by_cases hl : a.line = t.addr.line
  · have hn : ¬ (t.func = .write ∨ t.func = .invalidate) := by
      intro hx
      cases (works_of_seen hi hji hl hx (stage_of_seen hs Stage.noConfusion)).symm.trans hs
    have hf : t.func = .read := by
      revert hr hn
      cases t.func <;> simp [Func.isRequest]
    rwa [copy_seen hi hji hl, hf, Func.isDirty_remains_read]
  · rwa [copy_seen_of_ne hl]

theorem Exclusive.seen (h : V.Exclusive a) (hb : V.Balanced) (hc : V.current = some t)
    (hr : t.func.isRequest) (hq : ∀ j u, V.stage j = .taken u → V.Fresh j) :
    (V.seen t).Exclusive a := by
  obtain ⟨i, hi, hst⟩ := hb.stage_of_request hc hr
  have hfresh : ∀ j, V.Fresh j → j = i := fun j hf =>
    Fin.ext ((requester_of_fresh hc hf).symm.trans hi)
  -- a line that was taken is taken by what is driven
  have htaken : ∀ j, V.stage j = .taken a.line →
      j = i ∧ t.func = .invalidate ∧ a.line = t.addr.line := by
    intro j hj
    obtain rfl := hfresh j (hq j _ hj)
    obtain hst | ⟨hf, hst⟩ := hst
    · rw [hj] at hst
      cases hst
    · rw [hj] at hst
      exact ⟨rfl, hf, Stage.taken.inj hst⟩
  have hfades := V.fades_seen t a
  refine ⟨fun j k hjk hs hd => h.sole j k hjk ((hfades j).isSole hs) ((hfades k).hasData hd),
    fun j k hjk hd hd' => h.dirty j k hjk ((hfades j).isDirty hd) ((hfades k).isDirty hd'),
    fun j hs => ?_, fun j k hjk hs _ => ?_,
    fun j hs hd => h.waiting j (stage_of_seen hs nofun) ((hfades j).hasData hd), fun j hs => ?_,
    fun j k hjk hf => ?_, fun _ _ hx => nomatch hx⟩
  · obtain ⟨rfl, -⟩ := htaken j (stage_of_seen hs nofun)
    rw [copy_seen_self hi]
    exact h.taken j (stage_of_seen hs nofun)
  · obtain ⟨rfl, hf, hl⟩ := htaken j (stage_of_seen hs nofun)
    rw [gone_of_seen hi hjk.symm hl (.inr hf)]
    decide
  · exact isDirty_of_leaves_seen hi hr (h.leaving j (stage_of_seen hs nofun)) hs
  · have hj := stage_of_seen hf.awaits nofun
    have hreq := (hfades j).requested hf.requested
    by_cases hfj : V.Fresh j
    · -- the read of `j` is what is driven
      obtain rfl := hfresh j hfj
      obtain hst | ⟨-, hst⟩ := hst
      · rw [hj] at hst
        obtain ⟨hread, hl⟩ := Stage.awaits.inj hst
        refine ⟨?_, fun hk => ?_⟩
        · rw [copy_seen hi hjk.symm (by rw [← hl, Addr.line_line]), ← hread]
          exact Func.not_isSole_remains_read _
        · exact absurd (htaken k (stage_of_seen hk nofun)).1 hjk.symm
      · rw [hj] at hst
        cases hst
    · obtain ⟨hs, ht⟩ := h.fetching j k hjk ⟨hj, hreq, hfj⟩
      refine ⟨mt (hfades k).isSole hs, fun hk => ?_⟩
      obtain ⟨rfl, hx, hl⟩ := htaken k (stage_of_seen hk nofun)
      have hgone := gone_of_seen (V := V) hi hjk hl (.inr hx)
      exact absurd hf.requested (by rw [hgone]; decide)

end Seen

theorem not_fresh_of_func {V : View n} {t : Transfer} (hc : V.current = some t)
    (hf : t.func.isRequest = false) (i : Fin n) : ¬ V.Fresh i := by
  rintro ⟨u, hu, -, hr⟩
  rw [hc] at hu
  cases hu
  exact absurd (hf.symm.trans hr) (by decide)

theorem Exclusive.shares {V : View n} {a : Addr} (h : V.Exclusive a) (hfresh : ∀ j, ¬ V.Fresh j)
    {i j : Fin n} (hj : j ≠ i) (hd : (V.copy i a).1.hasData ∨ V.Fetching i a) :
    ¬ (V.copy j a).1.isSole ∧ V.stage j ≠ .taken a.line := by
  obtain hd | hf := hd
  · exact ⟨fun hs => h.sole j i hj hs hd, fun ht => h.alone j i hj ht (hfresh j) hd⟩
  · obtain ⟨hs, ht⟩ := h.fetching i j hj.symm hf
    exact ⟨hs, fun hx => hfresh j (ht hx)⟩

section Answered

variable {V : View n} {a : Addr} {i j k : Fin n} {s s' : Stage} {c : Addr → LineState × Block}

theorem differsAt_taken (hf : ∀ j, ¬ V.Fresh j) : V.DiffersAt (V.taken i s c) a i :=
  ⟨fun _ hj => congrFun (copy_set_of_ne V s c hj) a, fun _ hj => stage_set_of_ne V s c hj,
    fun j _ => iff_of_false (not_fresh_of_none rfl j) (hf j)⟩

theorem stage_of_taken (hs : s = .works ∨ ∃ u, s = .leaves u)
    (hj : (V.taken i s c).stage j = s') (hw : s' ≠ .works) (hl : ∀ u, s' ≠ .leaves u) :
    j ≠ i ∧ V.stage j = s' := by
  refine stage_of_set (V := V) (s := s) (c := c) hj ?_
  obtain rfl | ⟨u, rfl⟩ := hs
  · exact hw.symm
  · exact (hl u).symm

theorem Exclusive.left_by_sole (h : V.Exclusive a) {x : LineState}
    (hx : x.isSole → (V.copy i a).1.isSole ∨ ∀ j, j ≠ i → (V.copy j a).1 = .invalid)
    (hs : x.isSole) (j : Fin n) (hj : j ≠ i) : ¬ (V.copy j a).1.hasData := by
  obtain hx | hx := hx hs
  · exact h.sole i j hj.symm hx
  · rw [hx j hj]
    decide

theorem Exclusive.fetching_taken (h : V.Exclusive a) (hf : ∀ j, ¬ V.Fresh j)
    (hs : s = .works ∨ ∃ u, s = .leaves u)
    (hsole : (c a).1.isSole → (V.copy i a).1.isSole ∨ ∀ j, j ≠ i → (V.copy j a).1 = .invalid)
    (hjk : j ≠ k) (hx : (V.taken i s c).Fetching j a) :
    ¬ ((V.taken i s c).copy k a).1.isSole ∧ (V.taken i s c).stage k ≠ .taken a.line := by
  have hc : V.DiffersAt (V.taken i s c) a i := differsAt_taken hf
  obtain ⟨hji, -⟩ := stage_of_taken hs hx.awaits nofun nofun
  have hold := hc.fetching hji hx
  obtain ⟨hns, ht⟩ := h.fetching j k hjk hold
  refine ⟨?_, fun hk => hf k (ht (stage_of_taken hs hk nofun nofun).2)⟩
  by_cases hk : k = i
  · subst hk
    rw [show (V.taken k s c).copy k = c from copy_set_self V k s c]
    intro hsk
    obtain hsk | hsk := hsole hsk
    · exact hns hsk
    · exact absurd hold.requested (by rw [hsk j hji]; decide)
  · rw [hc.copy k hk]
    exact hns

/-- What a cache takes keeps a line exclusive, if it becomes a sole owner only when nobody else has
anything of the line. -/
theorem Exclusive.answered {t : Transfer} (h : V.Exclusive a) (ht : V.current = some t)
    (hf : t.func = .response) (hs : s = .works ∨ s = .leaves a.line ∧ (c a).1.isDirty ∨
      ∃ u, s = .leaves u ∧ u ≠ a.line)
    (hdirty : (c a).1.isDirty → (V.copy i a).1.isDirty)
    (hsole : (c a).1.isSole → (V.copy i a).1.isSole ∨ ∀ j, j ≠ i → (V.copy j a).1 = .invalid)
    (hdata : (c a).1.hasData → (V.copy i a).1.hasData ∨ V.Fetching i a) :
    (V.taken i s c).Exclusive a := by
  have hfresh : ∀ j, ¬ V.Fresh j := not_fresh_of_func ht (by rw [hf]; rfl)
  have hc : V.DiffersAt (V.taken i s c) a i := differsAt_taken hfresh
  have hself : (V.taken i s c).copy i = c := copy_set_self V i s c
  have hnext : s = .works ∨ ∃ u, s = .leaves u :=
    hs.imp_right fun hx => hx.elim (fun hx => ⟨_, hx.1⟩) fun ⟨u, hx⟩ => ⟨u, hx.1⟩
  have hnone : (c a).1.isSole → ∀ j, j ≠ i → ¬ (V.copy j a).1.hasData := h.left_by_sole hsole
  have halone : (c a).1.isDirty → ∀ j, j ≠ i → ¬ (V.copy j a).1.isDirty :=
    fun hd j hj => h.dirty i j hj.symm (hdirty hd)
  have hshares : (c a).1.hasData → ∀ j, j ≠ i →
      ¬ (V.copy j a).1.isSole ∧ V.stage j ≠ .taken a.line :=
    fun hd j hj => h.shares hfresh hj (hdata hd)
  rw [← hself] at hnone halone hshares
  refine ⟨hc.apart (P := (·.isSole)) (Q := (·.hasData)) h.sole hnone
      fun hd j hj => (hshares hd j hj).1,
    hc.apart (P := (·.isDirty)) (Q := (·.isDirty)) h.dirty halone halone,
    fun j hj => ?_, fun j k hjk hj _ => ?_, fun j hj => ?_, fun j hj => ?_, fun j k hjk hx => ?_,
    fun _ _ hx => nomatch hx⟩
  · obtain ⟨hji, hj⟩ := stage_of_taken hnext hj nofun nofun
    rw [hc.copy j hji]
    exact h.taken j hj
  · obtain ⟨-, hold⟩ := stage_of_taken hnext hj nofun nofun
    by_cases hk : k = i
    · subst hk
      exact fun hd => (hshares hd j hjk).2 hold
    · rw [hc.copy k hk]
      exact h.alone j k hjk hold (hfresh j)
  · obtain ⟨hji, hj⟩ := stage_of_taken hnext hj nofun nofun
    rw [hc.copy j hji]
    exact h.waiting j hj
  · by_cases hji : j = i
    · subst hji
      have hj : s = .leaves a.line := (stage_set_self V j s c).symm.trans hj
      rw [hself]
      rcases hs with hs | ⟨-, hs⟩ | ⟨u, hs, hu⟩
      · cases hs.symm.trans hj
      · exact hs
      · exact absurd (Stage.leaves.inj (hs.symm.trans hj)) hu
    · rw [hc.copy j hji]
      exact h.leaving j ((hc.stage j hji).symm.trans hj)
  · exact (h.fetching_taken hfresh hnext hsole hjk hx).imp_right fun hn hk => absurd hk hn

end Answered

/-- **Broadcasts keep a line exclusive.** -/
theorem exclusive_broadcast {V V' : View n} {t : Transfer} {a : Addr} (hb : V.Balanced)
    (hl : V.Lawful) (h : V.Exclusive a) (hc : V.current = some t) (ht : V.Broadcast t V') :
    V'.Exclusive a := by
  cases ht with
  | claimed hf hq hk hd =>
    exact (h.seen hb hc (by rw [hf]; rfl) hq).congr rfl rfl rfl
  | unclaimed hf hq hd => exact (h.seen hb hc (by rw [hf]; rfl) hq).congr rfl rfl rfl
  | written hf hq => exact (h.seen hb hc (by rw [hf]; rfl) hq).congr rfl rfl rfl
  | invalidated hf hq => exact h.seen hb hc (by rw [hf]; rfl) hq
  | @landed i s hf hi hs hx =>
    refine h.answered hc hf ?_ (fun hd => hd) .inl .inl
    obtain rfl | ⟨rfl, hd⟩ := hx
    · exact .inl rfl
    · by_cases ha : t.addr = a.line
      · rw [ha, hl.copy a.line_line] at hd
        exact .inr (.inl ⟨by rw [ha], hd⟩)
      · exact .inr (.inr ⟨_, rfl, ha⟩)
  | @filled i s c hf hi hs hr hx hcopy =>
    have hclean : ¬ s.isDirty := by
      obtain rfl | ⟨rfl, -⟩ := hx <;> decide
    refine h.answered hc hf (.inl rfl) (fun hd => ?_) (fun hd => ?_) fun hd => ?_
    · rw [hcopy] at hd
      split_ifs at hd
      · exact absurd hd hclean
      · exact hd
    · rw [hcopy] at hd
      split_ifs at hd with ha
      · obtain rfl | ⟨-, hx⟩ := hx
        · exact Bool.noConfusion hd
        · refine .inr fun j hj => ?_
          rw [hl.copy ha]
          exact hx j fun e => hj (Fin.ext (e.trans hi))
      · exact .inl hd
    · rw [hcopy] at hd
      split_ifs at hd with ha
      · have hline := (hb.line i _ _ hs).2
        refine .inr ⟨?_, ?_, not_fresh_of_func hc (by rw [hf]; rfl) i⟩
        · rw [hs, ha, hline]
        · rw [hl.copy ha]
          exact hr
      · exact .inl hd
  | discarded hf hi hs hr => exact h.answered hc hf (.inl rfl) (fun hd => hd) .inl .inl
  | noticed hf =>
    exact h.of_current (not_fresh_of_func hc (by rw [hf]; rfl)) rfl rfl fun _ hx => nomatch hx

/-! ## After a broadcast -/

theorem Broadcast.gone {V V' : View n} {t : Transfer} (h : V.Broadcast t V')
    (hf : t.func = .write ∨ t.func = .invalidate) {j : Fin n} (hj : (j : Nat) ≠ t.requester) :
    (V'.copy j t.addr).1 = .invalid := by
  have hseen : ((V.seen t).copy j t.addr).1 = .invalid := by
    simp only [seen, hj, ne_eq, not_false_eq_true, and_self, if_true]
    rcases hf with hf | hf <;> rw [hf] <;> rfl
  cases h with
  | written => exact hseen
  | invalidated => exact hseen
  | claimed hx => rcases hf with hf | hf <;> cases hf.symm.trans hx
  | unclaimed hx => rcases hf with hf | hf <;> cases hf.symm.trans hx
  | landed hx => rcases hf with hf | hf <;> cases hf.symm.trans hx
  | filled hx => rcases hf with hf | hf <;> cases hf.symm.trans hx
  | discarded hx => rcases hf with hf | hf <;> cases hf.symm.trans hx
  | noticed hx => rcases hf with hf | hf <;> cases hf.symm.trans hx

theorem Broadcast.taken {V V' : View n} {t : Transfer} (h : V.Broadcast t V') {i : Fin n} {a : Addr}
    (hs : V'.stage i = .taken a) : V.stage i = .taken a := by
  have htake : ∀ {k : Fin n} {s : Stage} {c : Addr → LineState × Block},
      (∀ u, s ≠ .taken u) → (V.taken k s c).stage i = .taken a → V.stage i = .taken a :=
    fun {k s c} hn hs => by
      by_cases hk : i = k
      · subst hk
        rw [View.taken, stage_set_self] at hs
        exact absurd hs (hn a)
      · rwa [View.taken, stage_set_of_ne _ _ _ hk] at hs
  cases h with
  | claimed => exact stage_of_seen hs nofun
  | unclaimed => exact stage_of_seen hs nofun
  | written => exact stage_of_seen hs nofun
  | invalidated => exact stage_of_seen hs nofun
  | landed _ _ _ hl =>
    refine htake (fun u => ?_) hs
    rcases hl with rfl | ⟨rfl, -⟩ <;> exact Stage.noConfusion
  | filled => exact htake (fun u => Stage.noConfusion) hs
  | discarded => exact htake (fun u => Stage.noConfusion) hs
  | noticed => exact hs

end View

end Snooping
