import Snooping.Proofs.Cache.Fading

/-!
# Answers to a cache

The answer to a read fills the copy that was kept for it, unless the line was taken away meanwhile.
The answer to a write lets the line be given up.

* `Cache.tidy_observe`: a cache stays tidy while it looks for its answer.
* `Cache.observe_of_ne`, `Cache.observe_of_func`: what is no answer for this cache.
* **`Cache.observe_read`**, **`Cache.observe_write`**: what an answer does.
-/

namespace Snooping.Cache

variable {g : Geometry}

theorem access_of_awaits_read {c : Cache g} {u : Addr} (h : c.stage = .awaits .read u) :
    ∃ a w, c.access = some a ∧ a.phase = .awaitFill w ∧ a.request.addr.line = u := by
  cases ha : c.access with
  | none =>
    simp only [stage, ha] at h
    cases h
  | some a =>
    rw [stage_of_access ha] at h
    cases hp : a.phase <;> simp only [hp, stageOf, reduceCtorEq] at h
    case awaitWriteBack => cases h
    case awaitFill w => exact ⟨a, w, rfl, hp, (Stage.awaits.inj h).2⟩
    case fill w =>
      split_ifs at h

theorem access_of_awaits_write {c : Cache g} {u : Addr} (h : c.stage = .awaits .write u) :
    ∃ a w v, c.access = some a ∧ a.phase = .awaitWriteBack w v ∧ v.line = u := by
  cases ha : c.access with
  | none =>
    simp only [stage, ha] at h
    cases h
  | some a =>
    rw [stage_of_access ha] at h
    cases hp : a.phase <;> simp only [hp, stageOf, reduceCtorEq] at h
    case awaitWriteBack w v => exact ⟨a, w, v, rfl, hp, (Stage.awaits.inj h).2⟩
    case awaitFill => cases h
    case fill w =>
      split_ifs at h

theorem awaits_iff_copy {c : Cache g} (h : c.Distinct) {r : Addr} {w : Fin g.ways}
    (hw : c.PlaceOf r w) : (c.line (g.index r) w).awaits (g.tag r) ↔ (c.copy r).1 = .requested := by
  constructor
  · intro ha
    rw [copy_of_carries h (carries_of_awaits ha)]
    exact (awaits_iff.mp ha).1
  · intro hr
    obtain ⟨-, hc⟩ := hw.2.copy_eq h fun e => absurd (e.symm.trans hr) (by decide)
    rw [hc] at hr
    exact awaits_iff.mpr ⟨hr, hw.1⟩

theorem fillState_ne (bus : Bus) (t : Transfer) (k : Bool) :
    bus.fillState t k ≠ .requested ∧ bus.fillState t k ≠ .invalid ∧
      ¬ (bus.fillState t k).isDirty := by
  unfold Bus.fillState
  split <;> decide

/-- The cache with the awaited line filled. -/
def filled (c : Cache g) (r : Addr) (w : Fin g.ways) (s : LineState) (d : Block) : Cache g :=
  c.setLine (g.index r) w ⟨s, (c.line (g.index r) w).tag, c.maxCounter, d⟩

section Install

variable {c : Cache g} (h : c.Tidy) {a : Access g.ways} {w : Fin g.ways}
  (hacc : c.access = some a) (hp : a.phase = .awaitFill w)

include h hacc hp

theorem placeOf_of_awaitFill : c.PlaceOf a.request.addr w := by
  have hf := h.fits a hacc
  unfold Fits at hf
  rw [hp] at hf
  exact hf.1

theorem requested_of_awaitFill {i : Fin g.sets} {v : Fin g.ways}
    (hr : (c.line i v).state = .requested) : g.index a.request.addr = i ∧ w = v := by
  obtain ⟨b, hb, hq, hi, -⟩ := h.requested i v hr
  rw [hacc] at hb
  cases hb
  rw [hp] at hq
  simp only [Phase.awaitFill.injEq, reduceCtorEq, false_or] at hq
  exact ⟨hi, hq⟩

theorem tidy_install (bus : Bus) (t : Transfer) : (c.install a w bus t).Tidy := by
  have hw := placeOf_of_awaitFill h hacc hp
  have hfill := fillState_ne bus t a.contended
  unfold install
  dsimp only
  split_ifs with ha
  · have hs : (c.filled a.request.addr w (bus.fillState t a.contended)
        (t.data.getD Block.zero)).Steady := by
      refine ⟨distinct_setLine h.distinct (hw.2.of_tag hw.1), bounded_setLine h.bounded ?_,
        fun i v => ?_⟩
      · rw [hw.1]
        exact bound_of_addr _
      · rw [filled, line_setLine]
        split_ifs with hv
        · exact hfill.1
        · exact fun hr => hv (requested_of_awaitFill h hacc hp hr)
    refine hs.tidy_of_access (.of_sets rfl) (a := { a with phase := .installed w }) rfl
      ⟨⟨?_, ?_⟩, ?_⟩
    · show ((c.setLine _ w _).line _ w).tag = _
      rw [line_setLine_self]
      exact hw.1
    · intro v hv
      change ((c.setLine _ w _).line _ v).carries _ at hv
      rw [line_setLine] at hv
      split_ifs at hv with hv'
      · exact hv'.2.symm
      · exact hw.2 v hv
    · show ¬ ((c.setLine _ w _).line _ w).state.isDirty
      rw [line_setLine_self]
      exact hfill.2.2
  · refine Steady.tidy_restart ⟨h.distinct, h.bounded, fun i v hr => ?_⟩ a
    obtain ⟨rfl, rfl⟩ := requested_of_awaitFill h hacc hp hr
    exact ha (awaits_iff.mpr ⟨hr, hw.1⟩)

theorem copy_install (bus : Bus) (t : Transfer) (hr : (c.copy a.request.addr).1 = .requested)
    (b : Addr) : (c.install a w bus t).copy b =
      if b.line = a.request.addr.line then
        (bus.fillState t a.contended, t.data.getD Block.zero)
      else c.copy b := by
  have hw := placeOf_of_awaitFill h hacc hp
  have ha := (awaits_iff_copy h.distinct hw).mpr hr
  have hfill := fillState_ne bus t a.contended
  have hd : (c.filled a.request.addr w (bus.fillState t a.contended)
      (t.data.getD Block.zero)).Distinct := distinct_setLine h.distinct (hw.2.of_tag hw.1)
  have hi : (c.install a w bus t).copy = (c.filled a.request.addr w
      (bus.fillState t a.contended) (t.data.getD Block.zero)).copy := by
    unfold install
    simp only [if_pos ha]
    exact SameLines.copy_eq (c := c.filled a.request.addr w _ _) (.of_sets rfl) hd
  rw [hi, filled]
  refine copy_setLine_of_tag h.distinct (carries_of_awaits ha) ?_ b
  exact carries_iff.mpr ⟨isLive_iff.mpr hfill.2.1, hw.1⟩

theorem copy_install_of_gone (bus : Bus) (t : Transfer)
    (hr : (c.copy a.request.addr).1 ≠ .requested) : (c.install a w bus t).copy = c.copy := by
  have hw := placeOf_of_awaitFill h hacc hp
  unfold install
  simp only [if_neg (mt (awaits_iff_copy h.distinct hw).mp hr)]
  exact SameLines.copy_eq (.of_sets rfl) h.distinct

omit h hacc hp in
theorem stage_install (c : Cache g) (a : Access g.ways) (w : Fin g.ways) (bus : Bus)
    (t : Transfer) : (c.install a w bus t).stage = .works := by
  unfold install
  dsimp only
  split_ifs <;> rfl

end Install

theorem tidy_enter_fill {c : Cache g} (h : c.Tidy) {a : Access g.ways} {w : Fin g.ways} {u : Addr}
    (hacc : c.access = some a) (hp : a.phase = .awaitWriteBack w u) :
    (c.enter a (.fill w)).Tidy := by
  have hf := h.fits a hacc
  unfold Fits at hf
  simp only [hp] at hf
  have hs : c.Steady := h.steady fun b v hb => by
    rw [hacc] at hb
    cases hb
    rw [hp]
    simp
  refine hs.tidy_of_access (.of_sets rfl) (a := { a with phase := .fill w }) rfl
    ⟨hf.1.onlyAt w, fun hd ht => ?_⟩
  exact hf.1 w (carries_iff.mpr ⟨isLive_of_hasData hd, ht⟩)

/-- **A cache stays tidy** while it looks for its answer. -/
theorem tidy_observe {c : Cache g} (h : c.Tidy) (bus : Bus) : (c.observe bus).2.Tidy := by
  unfold observe
  cases hacc : c.access with
  | none => exact h
  | some a =>
    dsimp only
    cases hp : a.phase with
    | awaitWriteBack w u =>
      dsimp only
      split
      · split
        · exact tidy_enter_fill h hacc hp
        · exact h
      · exact h
    | awaitFill w =>
      dsimp only
      split
      · split
        · exact c.fades_contend.tidy h
        · exact tidy_install h hacc hp bus _
      · exact h
    | _ => exact h

theorem observe_of_ne {c : Cache g} {bus : Bus} {t : Transfer} (ht : bus.current = some t)
    (h : t.requester ≠ c.id) : c.observe bus = (false, c) := by
  have ha : ∀ u, bus.answerFor c.id u = none := fun u => by
    simp [Bus.answerFor, ht, h, Option.filter]
  unfold observe
  simp only [ha]
  split
  · rfl
  · split <;> rfl

theorem observe_of_func {c : Cache g} {bus : Bus} {t : Transfer} (h : c.Tidy)
    (ht : bus.current = some t) (hf : t.func ≠ .response) :
    (c.observe bus).1 = false ∧ (c.observe bus).2.copy = c.copy ∧
      (c.observe bus).2.stage = c.stage := by
  have hans : ∀ u, bus.answerFor c.id u = none ∨
      (bus.answerFor c.id u = some t ∧ t.func = .requested) := fun u => by
    by_cases hx : (t.requester = c.id && t.addr = u.line && t.func.isAnswer) = true
    · refine .inr ⟨by simp only [Bus.answerFor, ht, Option.filter, hx, if_true], ?_⟩
      have hx := (Bool.and_eq_true_iff.mp hx).2
      revert hx hf
      cases t.func <;> simp [Func.isAnswer]
    · exact .inl (by simp only [Bus.answerFor, ht, Option.filter, if_neg hx])
  have hsame : c.contend.copy = c.copy ∧ c.contend.stage = c.stage :=
    ⟨SameLines.copy_eq (.of_sets rfl) h.distinct, c.fades_contend.stage_eq fun _ _ hd => hd⟩
  unfold observe
  cases c.access with
  | none => exact ⟨rfl, rfl, rfl⟩
  | some a =>
    dsimp only
    cases a.phase with
    | awaitWriteBack w u =>
      obtain hn | ⟨hn, -⟩ := hans u
      · simp only [hn, and_self]
      · simp only [hn, hf, false_and, if_false, and_self]
    | awaitFill w =>
      obtain hn | ⟨hn, hr⟩ := hans a.request.addr
      · simp only [hn, and_self]
      · simp only [hn, hr, if_true]
        exact ⟨trivial, hsame⟩
    | _ => exact ⟨rfl, rfl, rfl⟩

/-- **The answer to a read** fills the copy, if it is still awaited. -/
theorem observe_read {c : Cache g} {bus : Bus} {t : Transfer} (h : c.Tidy)
    (ht : bus.current = some t) (hid : t.requester = c.id) (hf : t.func = .response)
    (hst : c.stage = .awaits .read t.addr) :
    (c.observe bus).1 = true ∧ (c.observe bus).2.stage = .works ∧
      ((c.copy t.addr).1 = .requested → ∃ k, ∀ b, (c.observe bus).2.copy b =
        if b.line = t.addr.line then (bus.fillState t k, t.data.getD Block.zero) else c.copy b) ∧
      ((c.copy t.addr).1 ≠ .requested → (c.observe bus).2.copy = c.copy) := by
  obtain ⟨a, w, hacc, hp, hl⟩ := access_of_awaits_read hst
  have hans : bus.answerFor c.id a.request.addr = some t := by
    simp [Bus.answerFor, ht, hid, hf, hl, Func.isAnswer, Option.filter]
  have ho : c.observe bus = (true, c.install a w bus t) := by
    simp [observe, hacc, hp, hans, hf]
  have hline : t.addr.line = a.request.addr.line := by rw [← hl, Addr.line_line]
  rw [ho, c.copy_congr hline, hline]
  exact ⟨rfl, c.stage_install a w bus t, fun hr => ⟨_, copy_install h hacc hp bus t hr⟩,
    copy_install_of_gone h hacc hp bus t⟩

/-- **The answer to a write** lets the line be given up, unless a peer has taken it over. -/
theorem observe_write {c : Cache g} {bus : Bus} {t : Transfer} (h : c.Tidy)
    (ht : bus.current = some t) (hid : t.requester = c.id) (hf : t.func = .response)
    (hm : t.source = .memory) (hst : c.stage = .awaits .write t.addr) :
    (c.observe bus).1 = true ∧ (c.observe bus).2.copy = c.copy ∧
      ((c.observe bus).2.stage = .works ∨
        ((c.observe bus).2.stage = .leaves t.addr ∧ (c.copy t.addr).1.isDirty)) := by
  obtain ⟨a, w, u, hacc, hp, hl⟩ := access_of_awaits_write hst
  have hans : bus.answerFor c.id u = some t := by
    simp [Bus.answerFor, ht, hid, hf, hl, Func.isAnswer, Option.filter]
  have ho : c.observe bus = (true, c.enter a (.fill w)) := by
    simp [observe, hacc, hp, hans, hf, hm]
  rw [ho]
  have hfill := tidy_enter_fill h hacc hp
  have hcopy : (c.enter a (.fill w)).copy = c.copy := SameLines.copy_eq (.of_sets rfl) h.distinct
  refine ⟨rfl, hcopy, ?_⟩
  by_cases hd : (c.line (g.index a.request.addr) w).state.isDirty
  · have hf := h.fits a hacc
    unfold Fits at hf
    simp only [hp] at hf
    have hs : (c.enter a (.fill w)).stage = .leaves u := by
      rw [stage_of_access rfl, ← hf.2 hd]
      exact if_pos hd
    obtain ⟨hx, hu⟩ := dirty_of_leaves hfill hs
    rw [hcopy] at hx
    rw [hl] at hu
    rw [hu]
    exact .inr ⟨hs, hx⟩
  · refine .inl ?_
    rw [stage_of_access rfl]
    exact if_neg hd

theorem id_observe (c : Cache g) (bus : Bus) : (c.observe bus).2.id = c.id := by
  unfold observe install
  dsimp only
  split
  · rfl
  · split
    · split
      · split_ifs <;> rfl
      · rfl
    · split
      · split_ifs <;> rfl
      · rfl
    · rfl

end Snooping.Cache
