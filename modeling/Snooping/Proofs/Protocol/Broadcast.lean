import Snooping.Proofs.Protocol.Agreement

/-!
# The value of a line under broadcasts

What is driven moves the value of a line from one place to another. A read that no cache can answer
finds the value in memory; a line beyond the end of memory then has a new value, which is what
memory gives for it.

* `View.Agrees.seen_other`: a transfer of another line.
* `View.Agrees.seen_claimed`, `View.Agrees.seen_unclaimed`: a read that a cache answers, and one
  that memory answers.
* `View.Agrees.seen_gone`, `View.Agrees.seen_written`: a transfer that takes the line away.
* `View.Agrees.answered_set`: an answer.
* **`View.agrees_broadcast`**: the value of a line in memory does not change.
-/

namespace Snooping.View

variable {n : Nat} {V : View n} {t : Transfer} {a : Addr} {v : Block} {i : Fin n}

/-! ## Requests -/

theorem stage_seen_of_taken {j : Fin n} {u : Addr} (h : V.stage j = .taken u) :
    (V.seen t).stage j = .taken u := by
  dsimp only [seen]
  rw [h]
  split_ifs
  · exact if_neg fun hx => Stage.noConfusion hx.2
  · rfl

theorem mem_of_enqueued {pending pending' : List Transfer} {t u : Transfer}
    (hp : pending' = pending ∨ pending' = pending ++ [t]) (hu : u ∈ pending') (hne : u ≠ t) :
    u ∈ pending ∧ (pending'.head? = some u → pending.head? = some u) := by
  obtain rfl | rfl := hp
  · exact ⟨hu, id⟩
  · have hu : u ∈ pending := (List.mem_append.mp hu).resolve_right fun hx =>
      hne (List.mem_singleton.mp hx)
    refine ⟨hu, fun hh => ?_⟩
    rwa [List.head?_append_of_ne_nil _ (List.ne_nil_of_mem hu)] at hh

theorem stage_taken_iff {f : Func} {b : Addr} {s : Stage} {c : Addr → LineState × Block}
    (hst : V.stage i = .awaits f b) (hs : s = .works ∨ ∃ u, s = .leaves u) {j : Fin n} {u : Addr} :
    (V.taken i s c).stage j = .taken u ↔ V.stage j = .taken u := by
  refine ⟨fun hx => ?_, fun hx => ?_⟩
  · exact (stage_of_taken hs hx Stage.noConfusion fun _ => Stage.noConfusion).2
  · have hj : j ≠ i := by
      rintro rfl
      cases hst.symm.trans hx
    exact (stage_set_of_ne V s c hj).trans hx

namespace Evicting

theorem data_of_write (h : V.Evicting i a v) (hb : V.Balanced) (hc : V.current = some t)
    (hf : t.func = .write) (hi : t.requester = i) : t.data = some v := by
  cases h with
  | driven hu _ _ hd =>
    rw [hc] at hu
    cases hu
    exact hd
  | queued hw hq =>
    have hw := List.mem_of_mem_getLast? hw
    exact absurd (hq.trans hi.symm) (hb.requester_ne hc (.inr (.inl hf)) (List.mem_filter.mp hw).1)
  | landed hu hx =>
    rw [hc] at hu
    cases hu
    exact absurd (hf.symm.trans hx) (by decide)

theorem landed_of_response (h : V.Evicting i a v) (hb : V.Balanced) (hc : V.current = some t)
    (hf : t.func = .response) (hi : t.requester = i) :
    V.writes a = [] ∧ (V.lands a → V.block a = v) := by
  cases h with
  | driven hu hx =>
    rw [hc] at hu
    cases hu
    exact absurd (hf.symm.trans hx) (by decide)
  | queued hw hq =>
    have hw := List.mem_of_mem_getLast? hw
    exact absurd (hq.trans hi.symm) (hb.requester_ne hc (.inr (.inr hf)) (List.mem_filter.mp hw).1)
  | landed _ _ _ hw hblock => exact ⟨hw, hblock⟩

theorem taken {j : Fin n} (h : V.Evicting j a v) (hc : V.current = some t)
    (hf : t.func = .response) (hi : t.requester = i) (hj : j ≠ i) {s : Stage}
    {c : Addr → LineState × Block} : (V.taken i s c).Evicting j a v := by
  cases h with
  | queued hw hi hd => exact .queued hw hi hd
  | driven hu hx =>
    rw [hc] at hu
    cases hu
    exact absurd (hf.symm.trans hx) (by decide)
  | landed hu _ hr =>
    rw [hc] at hu
    cases hu
    exact absurd (Fin.ext (hr.symm.trans hi)) hj

end Evicting

namespace Agrees

theorem seen_other (h : V.Agrees a v) (hb : V.Balanced) (hc : V.current = some t)
    (hr : t.func.isRequest) (ha : a.line ≠ t.addr.line) {jobs : Fin n → List ForwardJob}
    {pending : List Transfer}
    (hj : ∀ j, ∀ k ∈ jobs j, k ∈ V.jobs j ∨ k.dest = t.requester)
    (hp : pending = V.pending ∨ pending = V.pending ++ [t]) :
    { V.seen t with jobs := jobs, pending := pending }.Agrees a v := by
  set V' : View n := { V.seen t with jobs := jobs, pending := pending } with hV
  have hcopy : ∀ j, V'.copy j a = V.copy j a := copy_seen_of_ne ha
  have hstage : ∀ {j s}, V'.stage j = s → s ≠ .works → V.stage j = s := stage_of_seen
  have hwrites : V'.writes a = V.writes a := by
    have hn : ¬ (t.func = .write ∧ t.addr.line = a.line) := fun hx => ha hx.2.symm
    rcases hp with hp | hp
    · simp only [writes, hV, hp]
    · simp only [writes, hV, hp, List.filter_append]
      simp [hn]
  -- who still waits for this line has not driven what is seen
  have hother : ∀ {j}, V'.stage j = .awaits .read a.line → t.requester ≠ j := by
    intro j hs hj
    have hl := hb.addr_of_awaits hc hr hj (hstage hs Stage.noConfusion)
    exact ha (by rw [← hl, Addr.line_line])
  have hfetching : ∀ {j}, V'.Fetching j a → V.Fetching j a := fun {j} hf =>
    ⟨hstage hf.awaits Stage.noConfusion, hcopy j ▸ hf.requested,
      fun hx => hother hf.awaits (requester_of_fresh hc hx)⟩
  refine ⟨fun j => ?_, fun hl hs => h.settled hl fun j => ?_, fun hw => ?_, fun j hs hd => ?_,
    fun j hs => ?_, fun j hf u hu hq => ?_, fun j hf j' k hk hd => ?_, fun _ _ _ hx => by cases hx⟩
  · rw [hcopy]
    exact h.copies j
  · rw [← hcopy]
    exact ⟨(hs j).1, fun hx => (hs j).2 (stage_seen_of_taken hx)⟩
  · obtain ⟨j, hj⟩ := h.written (hwrites ▸ hw)
    refine ⟨j, ?_⟩
    rw [hcopy]
    exact hj.imp_right stage_seen_of_taken
  · rw [hcopy] at hd
    have hold := hstage hs Stage.noConfusion
    cases h.evicting j hold hd with
    | queued hw hi hd => exact .queued (hwrites ▸ hw) hi hd
    | driven hu hf hi _ =>
      have hl := hb.addr_of_awaits hu (by rw [hf]; rfl) hi hold
      rw [hc] at hu
      cases hu
      exact absurd (by rw [← hl, Addr.line_line]) ha
    | landed hu hf =>
      rw [hc] at hu
      cases hu
      rw [hf] at hr
      exact Bool.noConfusion hr
  · rw [hwrites]
    exact h.leaving j (hstage hs Stage.noConfusion)
  · have hne : u ≠ t := fun e => hother hf.awaits (e ▸ hq)
    obtain ⟨hu, hhead⟩ := mem_of_enqueued hp hu hne
    obtain ⟨hv, hw, hd, hx⟩ := h.fetched j (hfetching hf) u hu hq
    refine ⟨hv, hwrites.trans hw, fun k => ?_, fun hh => hx (hhead hh)⟩
    rw [hcopy]
    exact hd k
  · obtain hk | hk := hj j' k hk
    · exact h.owed j (hfetching hf) j' k hk hd
    · exact absurd (hk.symm.trans hd) (hother hf.awaits)

/-- A transfer that takes the line away leaves it with its requester. -/
theorem seen_gone (h : V.Agrees a v) (hi : t.requester = i)
    (ha : a.line = t.addr.line) (hf : t.func = .write ∨ t.func = .invalidate)
    {pending : List Transfer} (hs : V.stage i = .taken a.line ∨
      V.stage i = .awaits .write a.line ∧ (V.copy i a).1.isDirty ∧
        { V.seen t with pending := pending }.Evicting i a v) :
    { V.seen t with pending := pending }.Agrees a v := by
  set V' : View n := { V.seen t with pending := pending } with hV
  have hcopy : V'.copy i = V.copy i := copy_seen_self hi
  have hstage : ∀ {j s}, V'.stage j = s → s ≠ .works → V.stage j = s := stage_of_seen
  have hgone : ∀ j, j ≠ i → V'.copy j a = (.invalid, Block.zero) :=
    fun j hj => gone_of_seen hi hj ha hf
  have hfetch : ∀ j, ¬ V'.Fetching j a := by
    intro j hx
    by_cases hj : j = i
    · subst hj
      have hold := hstage hx.awaits Stage.noConfusion
      rcases hs with hs | ⟨hs, -⟩ <;> cases hs.symm.trans hold
    · have hr := hx.requested
      rw [hgone j hj] at hr
      cases hr
  have hown : (V'.copy i a).1.isDirty ∨ V'.stage i = .taken a.line := by
    rw [hcopy]
    exact hs.symm.imp (fun hx => hx.2.1) stage_seen_of_taken
  refine ⟨fun j hd => ?_, fun _ hn => absurd hown (not_or.mpr (hn i)), fun _ => ⟨i, hown⟩,
    fun j hw hd => ?_, fun j hl => ?_, fun j hx => absurd hx (hfetch j),
    fun j hx => absurd hx (hfetch j), fun j hx => absurd hx (hfetch j)⟩
  · by_cases hj : j = i
    · subst hj
      rw [hcopy] at hd ⊢
      exact h.copies j hd
    · rw [hgone j hj] at hd
      exact Bool.noConfusion hd
  · by_cases hj : j = i
    · subst hj
      obtain hs | ⟨-, -, hs⟩ := hs
      · cases hs.symm.trans (hstage hw Stage.noConfusion)
      · exact hs
    · rw [hgone j hj] at hd
      exact Bool.noConfusion hd
  · have hold := hstage hl Stage.noConfusion
    by_cases hj : j = i
    · subst hj
      rcases hs with hs | ⟨hs, -⟩ <;> cases hs.symm.trans hold
    · cases (works_of_seen hi hj ha hf hold).symm.trans hl

theorem seen_written (h : V.Agrees a v) (hb : V.Balanced) (he : V.Exclusive a)
    (hc : V.current = some t) (hf : t.func = .write) (ha : a.line = t.addr.line) :
    ((V.seen t).enqueue t).Agrees a v := by
  obtain ⟨i, hi, hst⟩ := hb.stage_of_request hc (by rw [hf]; rfl)
  obtain hst | ⟨hx, -⟩ := hst
  · have hline := (hb.line i _ _ hst).2
    have hst : V.stage i = .awaits .write a.line := by rw [hst, hf, ha, hline]
    have hd := he.writing i t hc hf hi ha.symm
    have hdata := (h.evicting i hst hd).data_of_write hb hc hf hi
    refine h.seen_gone hi ha (.inl hf) (.inr ⟨hst, hd, .queued ?_ hi hdata⟩)
    simp only [writes, View.seen, List.filter_append]
    simp [hf, ha]
  · exact absurd (hf.symm.trans hx) (by decide)

section Read

variable (h : V.Agrees a v) (hb : V.Balanced) (hl : V.Lawful) (he : V.Exclusive a)
  (hc : V.current = some t) (hf : t.func = .read)

include hf in
theorem copy_seen_read (j : Fin n) : ((V.seen t).copy j a).1.isDirty = (V.copy j a).1.isDirty ∧
    ((V.seen t).copy j a).2 = (V.copy j a).2 := by
  dsimp only [View.seen]
  split_ifs
  · rw [hf]
    exact ⟨Func.isDirty_remains_read _, rfl⟩
  · exact ⟨rfl, rfl⟩

include hf in
theorem stage_seen_read : (V.seen t).stage = V.stage := by
  funext j
  dsimp only [View.seen]
  split_ifs
  · exact if_neg fun hx => by simp [hf] at hx
  · rfl

include hb hc hf in
theorem requester_of_read : ∃ i : Fin n, t.requester = i ∧ V.stage i = .awaits .read t.addr ∧
    t.addr.line = t.addr := by
  obtain ⟨i, hi, hst⟩ := hb.stage_of_request hc (by rw [hf]; rfl)
  obtain hst | ⟨hx, -⟩ := hst
  · rw [hf] at hst
    exact ⟨i, hi, hst, (hb.line i _ _ hst).2⟩
  · exact absurd (hf.symm.trans hx) (by decide)

include hb hc hf in
theorem not_taken_of_read (hq : ∀ j u, V.stage j = .taken u → V.Fresh j) (j : Fin n) (u : Addr) :
    V.stage j ≠ .taken u := by
  intro hj
  obtain ⟨i, hi, hst, -⟩ := requester_of_read hb hc hf
  obtain rfl : j = i := Fin.ext ((requester_of_fresh hc (hq j u hj)).symm.trans hi)
  cases hj.symm.trans hst

include h hb hc hf in
/-- A peer that has data for the line owes it to the reader. -/
theorem seen_claimed {k : Fin n} {s : LineState}
    (hk : (V.copy k a).1.hasData) :
    ((V.seen t).owe k ⟨t.requester, t.addr, s, some (V.copy k a).2⟩).Agrees a v := by
  obtain ⟨i, hi, hst, hline⟩ := requester_of_read hb hc hf
  set V' : View n := (V.seen t).owe k ⟨t.requester, t.addr, s, some (V.copy k a).2⟩ with hV
  have hstage : V'.stage = V.stage := stage_seen_read hf
  have hcopy : ∀ j, (V'.copy j a).1.isDirty = (V.copy j a).1.isDirty ∧
      (V'.copy j a).2 = (V.copy j a).2 := copy_seen_read hf
  have hfades : ∀ j, (V.copy j a).1.Fades (V'.copy j a).1 := V.fades_seen t a
  have hfetching : ∀ {j}, V'.Fetching j a → j ≠ i → V.Fetching j a := fun {j} hx hj =>
    ⟨hstage ▸ hx.awaits, (hfades j).requested hx.requested,
      fun hy => hj (Fin.ext ((requester_of_fresh hc hy).symm.trans hi))⟩
  have hjobs : ∀ j, ∀ job ∈ V'.jobs j, job = ⟨i, t.addr, s, some (V.copy k a).2⟩ := by
    intro j job hjob
    have hquiet := hb.quiet t hc hf
    change job ∈ Function.update V.jobs k (V.jobs k ++ [_]) j at hjob
    by_cases hjk : j = k
    · subst hjk
      rw [Function.update_self, hquiet j, List.nil_append, List.mem_singleton] at hjob
      rw [hjob, hi]
    · rw [Function.update_of_ne hjk, hquiet j] at hjob
      exact absurd hjob List.not_mem_nil
  refine ⟨fun j hd => ?_, fun hx hs => h.settled hx fun j => ?_, fun hw => ?_, fun j hs hd => ?_,
    fun j hs => ?_, fun j hx u hu hr => ?_, fun j hx j' job hjob hd => ?_,
    fun _ _ _ hx => by cases hx⟩
  · rw [(hcopy j).2]
    exact h.copies j ((hfades j).hasData hd)
  · rw [← (hcopy j).1, ← hstage]
    exact hs j
  · obtain ⟨j, hj⟩ := h.written hw
    exact ⟨j, by rwa [(hcopy j).1, hstage]⟩
  · rw [(hcopy j).1] at hd
    cases h.evicting j (hstage ▸ hs) hd with
    | queued hw hi hd => exact .queued hw hi hd
    | driven hu hx | landed hu hx =>
      rw [hc] at hu
      cases hu
      exact absurd (hf.symm.trans hx) (by decide)
  · exact h.leaving j (hstage ▸ hs)
  · have hj : j ≠ i := by
      rintro rfl
      exact hb.requester_ne hc (.inl hf) hu (hr.trans hi.symm)
    obtain ⟨hv, hw, hd, hh⟩ := h.fetched j (hfetching hx hj) u hu hr
    exact ⟨hv, hw, fun j => by rw [(hcopy j).1]; exact hd j, hh⟩
  · rw [hjobs j' job hjob]
    exact congrArg some (h.copies k hk)

include h hb hl he hc hf in
/-- If no cache has data for the line then memory gives its value. -/
theorem seen_unclaimed (ha : a.line = t.addr.line) (hq : ∀ j u, V.stage j = .taken u → V.Fresh j)
    (hd : ∀ k : Fin n, (k : Nat) ≠ t.requester → ¬ (V.copy k t.addr).1.hasData) :
    ((V.seen t).enqueue t).Agrees a (V.block a) ∧
      (V.lands a → V.block a = v) := by
  obtain ⟨i, hi, hst, hline⟩ := requester_of_read hb hc hf
  have hnone : ∀ k, ¬ (V.copy k a).1.hasData := by
    intro k
    by_cases hk : k = i
    · subst hk
      exact he.waiting k (by rw [hst, ha, hline])
    · rw [hl.copy ha]
      exact hd k fun e => hk (Fin.ext (e.trans hi))
  have hclean : ∀ k, ¬ (V.copy k a).1.isDirty := fun k hx =>
    hnone k (LineState.hasData_of_isDirty hx)
  have hnt := not_taken_of_read hb hc hf hq
  have hwrites : V.writes a = [] := by
    by_contra hw
    obtain ⟨k, hk | hk⟩ := h.written hw
    · exact hclean k hk
    · exact hnt k _ hk
  set V' : View n := (V.seen t).enqueue t with hV
  have hstage : V'.stage = V.stage := stage_seen_read hf
  have hfades : ∀ j, (V.copy j a).1.Fades (V'.copy j a).1 := V.fades_seen t a
  have hwrites' : V'.writes a = [] := by
    simp only [writes, hV, View.enqueue, View.seen, List.filter_append] at hwrites ⊢
    rw [hwrites]
    simp [hf]
  refine ⟨⟨fun j hx => absurd ((hfades j).hasData hx) (hnone j), fun _ _ => rfl,
    fun hx => absurd hwrites' hx, fun j _ hx => absurd ((hfades j).isDirty hx) (hclean j),
    fun j hs => absurd (he.leaving j (hstage ▸ hs)) (hclean j), fun j hx u hu hr => ?_,
    fun j hx j' job hjob => ?_, fun _ _ _ hx => by cases hx⟩,
    fun hx => h.settled hx fun k => ⟨hclean k, hnt k _⟩⟩
  · refine ⟨rfl, hwrites', fun k hk => hclean k ((hfades k).isDirty hk), fun hh b hcap => ?_⟩
    cases hp : V.pending with
    | nil => cases (hb.idle hp).symm.trans hcap
    | cons w ws =>
      have hwu : w = u := by
        have hh : (V.pending ++ [t]).head? = some u := hh
        rw [hp] at hh
        exact Option.some.inj hh
      subst hwu
      have hw : w ∈ V.pending := hp ▸ List.mem_cons_self
      have hj : j ≠ i := by
        rintro rfl
        exact hb.requester_ne hc (.inl hf) hw (hr.trans hi.symm)
      have hold : V.Fetching j a := ⟨hstage ▸ hx.awaits, (hfades j).requested hx.requested,
        fun hy => hj (Fin.ext ((requester_of_fresh hc hy).symm.trans hi))⟩
      obtain ⟨hv, -, -, hcv⟩ := h.fetched j hold w hw hr
      exact (hcv (by rw [hp]; rfl) b hcap).trans hv.symm
  · have hquiet : V'.jobs j' = [] := hb.quiet t hc hf j'
    rw [hquiet] at hjob
    exact absurd hjob List.not_mem_nil

end Read

/-! ## Answers -/

theorem answered_set (h : V.Agrees a v) (hc : V.current = some t) (hf : t.func = .response)
    (hi : t.requester = i) {s : Stage} {c : Addr → LineState × Block} {f : Func}
    (hst : V.stage i = .awaits f t.addr) (hs : s = .works ∨ ∃ u, s = .leaves u)
    (hdata : (c a).1.hasData → (c a).2 = v) (hdirty : (c a).1.isDirty = (V.copy i a).1.isDirty)
    (hleave : s = .leaves a.line → V.writes a = [] ∧ (V.lands a → V.block a = v)) :
    (V.taken i s c).Agrees a v := by
  have hd : V.DiffersAt (V.taken i s c) a i :=
    differsAt_taken (not_fresh_of_func hc (by rw [hf]; rfl))
  have hself : (V.taken i s c).stage i = s := stage_set_self V i s c
  have hcopy : (V.taken i s c).copy i = c := copy_set_self V i s c
  have hdirty : ∀ j, ((V.taken i s c).copy j a).1.isDirty = (V.copy j a).1.isDirty := by
    intro j
    by_cases hj : j = i
    · subst hj
      rw [hcopy]
      exact hdirty
    · rw [hd.copy j hj]
  have hawaits : ∀ {j f u}, (V.taken i s c).stage j = .awaits f u → j ≠ i ∧
      V.stage j = .awaits f u := fun hj =>
    stage_of_taken hs hj Stage.noConfusion fun _ => Stage.noConfusion
  have hfetching : ∀ {j}, (V.taken i s c).Fetching j a → V.Fetching j a := fun hx =>
    hd.fetching (hawaits hx.awaits).1 hx
  refine ⟨fun j hx => ?_, fun hl hn => h.settled hl fun j => ?_, fun hw => ?_, fun j hx hd => ?_,
    fun j hx => ?_, fun j hx u hu hr => ?_, fun j hx => h.owed j (hfetching hx),
    fun _ _ _ hx => by cases hx⟩
  · by_cases hj : j = i
    · subst hj
      rw [hcopy] at hx ⊢
      exact hdata hx
    · rw [hd.copy j hj] at hx ⊢
      exact h.copies j hx
  · rw [← hdirty]
    exact ⟨(hn j).1, fun hx => (hn j).2 ((stage_taken_iff hst hs).mpr hx)⟩
  · obtain ⟨j, hj⟩ := h.written hw
    refine ⟨j, ?_⟩
    rw [hdirty]
    exact hj.imp_right (stage_taken_iff hst hs).mpr
  · obtain ⟨hj, hold⟩ := hawaits hx
    exact (h.evicting j hold (hdirty j ▸ hd)).taken hc hf hi hj
  · by_cases hj : j = i
    · subst hj
      exact hleave (hself.symm.trans hx)
    · exact h.leaving j (hd.stage j hj ▸ hx)
  · obtain ⟨hv, hw, hn, hh⟩ := h.fetched j (hfetching hx) u hu hr
    exact ⟨hv, hw, fun k => by rw [hdirty]; exact hn k, hh⟩

theorem landed (h : V.Agrees a v) (hb : V.Balanced) (hl : V.Lawful) (hc : V.current = some t)
    (hf : t.func = .response) (hi : t.requester = i) {s : Stage}
    (hs : V.stage i = .awaits .write t.addr)
    (hx : s = .works ∨ (s = .leaves t.addr ∧ (V.copy i t.addr).1.isDirty)) :
    (V.taken i s (V.copy i)).Agrees a v := by
  have hnext : s = .works ∨ ∃ u, s = .leaves u := hx.imp_right fun hy => ⟨_, hy.1⟩
  refine h.answered_set hc hf hi hs hnext (h.copies i) rfl fun hleave => ?_
  obtain rfl | ⟨rfl, hd⟩ := hx
  · cases hleave
  · have ha := Stage.leaves.inj hleave
    rw [ha] at hs
    rw [ha, hl.copy a.line_line] at hd
    exact (h.evicting i hs hd).landed_of_response hb hc hf hi

theorem filled (h : V.Agrees a v) (hb : V.Balanced) (hl : V.Lawful) (hc : V.current = some t)
    (hf : t.func = .response) (hi : t.requester = i) {s : LineState} {c : Addr → LineState × Block}
    (hs : V.stage i = .awaits .read t.addr) (hr : (V.copy i t.addr).1 = .requested)
    (hclean : s.isDirty = false) (hcopy : ∀ b, c b =
      if b.line = t.addr.line then (s, t.data.getD Block.zero) else V.copy i b) :
    (V.taken i .works c).Agrees a v := by
  refine h.answered_set hc hf hi hs (.inl rfl) (fun hd => ?_) ?_ Stage.noConfusion
  · rw [hcopy] at hd ⊢
    split_ifs at hd ⊢ with ha
    · have hfetch : V.Fetching i a := by
        refine ⟨?_, ?_, not_fresh_of_func hc (by rw [hf]; rfl) i⟩
        · rw [hs, ha, (hb.line i _ _ hs).2]
        · rw [hl.copy ha]
          exact hr
      rw [h.answered i hfetch t hc hf hi]
      rfl
    · exact h.copies i hd
  · rw [hcopy]
    split_ifs with ha
    · rw [hl.copy ha, hr]
      exact hclean
    · rfl

theorem noticed (h : V.Agrees a v) (hc : V.current = some t) (hf : t.func = .requested) :
    ({ V with current := none } : View n).Agrees a v := by
  have hfetching : ∀ j, ({ V with current := none } : View n).Fetching j a → V.Fetching j a :=
    fun j hx => ⟨hx.awaits, hx.requested, not_fresh_of_func hc (by rw [hf]; rfl) j⟩
  refine ⟨h.copies, h.settled, h.written, fun j hs hd => ?_, h.leaving,
    fun j hx => h.fetched j (hfetching j hx), fun j hx => h.owed j (hfetching j hx),
    fun _ _ _ hx => by cases hx⟩
  cases h.evicting j hs hd with
  | queued hw hi hd => exact .queued hw hi hd
  | driven hu hx | landed hu hx =>
    rw [hc] at hu
    cases hu
    exact absurd (hf.symm.trans hx) (by decide)

end Agrees

/-- **Broadcasts keep the value of a line**, if the line has a place in memory. -/
theorem agrees_broadcast {V' : View n} (hb : V.Balanced) (hl : V.Lawful) (he : V.Exclusive a)
    (h : V.Agrees a v) (hc : V.current = some t) (ht : V.Broadcast t V') :
    ∃ v', V'.Agrees a v' ∧ (V.lands a → v' = v) := by
  cases ht with
  | @claimed k s hf hq hk hd =>
    refine ⟨v, ?_, fun _ => rfl⟩
    by_cases ha : a.line = t.addr.line
    · rw [← hl.copy ha] at hd ⊢
      exact h.seen_claimed hb hc hf hd
    · refine h.seen_other hb hc (by rw [hf]; rfl) ha (fun j job hjob => ?_) (.inl rfl)
      by_cases hj : j = k
      · subst hj
        rw [Function.update_self, List.mem_append, List.mem_singleton] at hjob
        exact hjob.imp_right fun e => by rw [e]
      · rw [Function.update_of_ne hj] at hjob
        exact .inl hjob
  | unclaimed hf hq hd =>
    by_cases ha : a.line = t.addr.line
    · exact ⟨_, h.seen_unclaimed hb hl he hc hf ha hq hd⟩
    · exact ⟨v, h.seen_other hb hc (by rw [hf]; rfl) ha (fun _ _ => .inl) (.inr rfl), fun _ => rfl⟩
  | written hf hq =>
    refine ⟨v, ?_, fun _ => rfl⟩
    by_cases ha : a.line = t.addr.line
    · exact h.seen_written hb he hc hf ha
    · exact h.seen_other hb hc (by rw [hf]; rfl) ha (fun _ _ => .inl) (.inr rfl)
  | invalidated hf hq =>
    refine ⟨v, ?_, fun _ => rfl⟩
    by_cases ha : a.line = t.addr.line
    · obtain ⟨i, hi, hst⟩ := hb.taking t hc hf
      exact h.seen_gone hi ha (.inr hf) (.inl (by rw [hst, ha]))
    · exact h.seen_other hb hc (by rw [hf]; rfl) ha (fun _ _ => .inl) (.inl rfl)
  | landed hf hi hs hx => exact ⟨v, h.landed hb hl hc hf hi hs hx, fun _ => rfl⟩
  | @filled i s c hf hi hs hr hx hcopy =>
    have hclean : s.isDirty = false := by
      obtain rfl | ⟨rfl, -⟩ := hx <;> rfl
    exact ⟨v, h.filled hb hl hc hf hi hs hr hclean hcopy, fun _ => rfl⟩
  | discarded hf hi hs hr =>
    exact ⟨v, h.answered_set hc hf hi hs (.inl rfl) (h.copies _) rfl Stage.noConfusion,
      fun _ => rfl⟩
  | noticed hf => exact ⟨v, h.noticed hc hf, fun _ => rfl⟩

end Snooping.View
