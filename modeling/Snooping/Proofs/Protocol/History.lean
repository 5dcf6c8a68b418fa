import Snooping.Proofs.Protocol.Exclusion

/-!
# Requests and answers in a history

For each cache the history of the bus is a sequence of reads and writes in which every one is
followed by its answer before the next one. A cache waits if and only if its last request has no
answer yet.

* **`Answered`**: a history with an answer behind every request but possibly the last.
* `Transfer.concerns`: the requests of a cache and the answers to it.
* `View.Since`: how the waiting caches change within a cycle, `View.since_turn`.
* **`View.answered_step`**: the transfer of one cycle keeps a history answered.
-/

namespace Snooping

/-- **Every request is followed by its answer**, but for the request that is left open. -/
inductive Answered : List Transfer → Option Transfer → Prop
  | nil : Answered [] none
  | ask {l : List Transfer} {t : Transfer} (h : Answered l none)
      (hf : t.func = .read ∨ t.func = .write) : Answered (l ++ [t]) (some t)
  | answer {l : List Transfer} {t u : Transfer} (h : Answered l (some t)) (hf : u.func = .response)
      (ha : u.addr = t.addr) (hd : u.data.isSome ↔ t.func = .read) : Answered (l ++ [u]) none

/-- A request of core `i` that is answered, or an answer to it. -/
def Transfer.concerns (i : Nat) (t : Transfer) : Bool :=
  t.requester = i && (t.func = .read || t.func = .write || t.func = .response)

namespace View

variable {n : Nat}

/-- How the waiting caches have changed since the stages `s₀`: only the cache whose request is
driven has begun to wait. -/
structure Since (s₀ : Fin n → Stage) (V : View n) : Prop where
  kept : ∀ i f a, s₀ i = .awaits f a → V.stage i = .awaits f a
  asked : ∀ i f a, V.stage i = .awaits f a → s₀ i = .awaits f a ∨
    ∃ u, V.current = some u ∧ u.requester = i ∧ u.func = f ∧ u.addr = a
  fresh : ∀ (i : Fin n) u, V.current = some u → u.requester = i →
    (u.func = .read ∨ u.func = .write) → ∀ f a, s₀ i ≠ .awaits f a

theorem since_refl {V : View n} (h : V.current = none) : V.Since V.stage where
  kept _ _ _ hs := hs
  asked _ _ _ hs := .inl hs
  fresh _ _ hc := nomatch h.symm.trans hc

section Turn

variable {s₀ : Fin n → Stage} {V V' : View n}

theorem Since.keep (h : V.Since s₀)
    (hs : ∀ i f a, V'.stage i = .awaits f a ↔ V.stage i = .awaits f a)
    (hc : V'.current = V.current ∨
      (V.current = none ∧ ∀ t, V'.current = some t → ¬ (t.func = .read ∨ t.func = .write))) :
    V'.Since s₀ := by
  refine ⟨fun i f a hi => (hs i f a).mpr (h.kept i f a hi), fun i f a hi => ?_,
    fun i u hu hi hf => ?_⟩
  · obtain hi | ⟨u, hu, hx⟩ := h.asked i f a ((hs i f a).mp hi)
    · exact .inl hi
    · obtain hc | ⟨hn, -⟩ := hc
      · exact .inr ⟨u, hc.trans hu, hx⟩
      · cases hn.symm.trans hu
  · obtain hc | ⟨-, hn⟩ := hc
    · exact h.fresh i u (hc.symm.trans hu) hi hf
    · exact absurd hf (hn u hu)

theorem Since.set (h : V.Since s₀) {i : Fin n} {s : Stage} {c : Addr → LineState × Block}
    (hs : ∀ f a, V.stage i ≠ .awaits f a) (hs' : ∀ f a, s ≠ .awaits f a) {o : Option Transfer}
    (hc : o = V.current ∨
      (V.current = none ∧ ∀ t, o = some t → ¬ (t.func = .read ∨ t.func = .write))) :
    { V.set i s c with current := o }.Since s₀ := by
  refine h.keep (fun j f a => ?_) hc
  show (V.set i s c).stage j = _ ↔ _
  by_cases hj : j = i
  · subst hj
    rw [stage_set_self]
    exact iff_of_false (hs' f a) (hs f a)
  · rw [stage_set_of_ne _ _ _ hj]

theorem Since.request (h : V.Since s₀) {i : Fin n} {c : Addr → LineState × Block} {u : Transfer}
    (hb : V.current = none) (hs : ∀ f a, V.stage i ≠ .awaits f a) (hi : u.requester = i) :
    ((V.set i (.awaits u.func u.addr) c).drive u).Since s₀ := by
  have hnone : ∀ f a, s₀ i ≠ .awaits f a := fun f a hx => hs f a (h.kept i f a hx)
  refine ⟨fun j f a hj => ?_, fun j f a hj => ?_, fun j w hw hj _ => ?_⟩
  · have hne : j ≠ i := fun e => hnone f a (e ▸ hj)
    show (V.set i _ c).stage j = _
    rw [stage_set_of_ne _ _ _ hne]
    exact h.kept j f a hj
  · change (V.set i _ c).stage j = _ at hj
    by_cases hji : j = i
    · subst hji
      rw [stage_set_self] at hj
      cases hj
      exact .inr ⟨u, rfl, hi, rfl, rfl⟩
    · rw [stage_set_of_ne _ _ _ hji] at hj
      obtain hj | ⟨w, hw, -⟩ := h.asked j f a hj
      · exact .inl hj
      · cases hb.symm.trans hw
  · cases hw
    rw [Fin.ext (hj.symm.trans hi)]
    exact hnone

theorem since_turn {d : Option Request} (h : V.Since s₀) (ht : V.Turn d V') : V'.Since s₀ := by
  have hanswer : ∀ {t : Transfer}, t.func = .response ∨ t.func = .requested →
      ∀ u, some t = some u → ¬ (u.func = .read ∨ u.func = .write) := fun hf u hu hx => by
    cases hu
    rcases hf with hf | hf <;> rw [hf] at hx <;> simp at hx
  cases ht with
  | work hs =>
    refine h.set (fun f a hx => ?_) (fun _ _ => Stage.noConfusion) (.inl rfl)
    rcases hs with hs | hs <;> cases hs.symm.trans hx
  | take hb hs hd =>
    refine h.set (fun f a hx => ?_) (fun _ _ => Stage.noConfusion) (.inr ⟨hb, fun u hu hx => ?_⟩)
    · cases hs.symm.trans hx
    · cases hu
      simp at hx
  | @evict i u hb hs hd =>
    refine h.request (u := ⟨i, .cache i, u.line, .write, some (V.copy i u).2⟩) hb
      (fun f a hx => ?_) rfl
    cases hs.symm.trans hx
  | ask hs hc =>
    refine h.set (fun f a hx => ?_) (fun _ _ => Stage.noConfusion) (.inl rfl)
    rcases hs with hs | ⟨u, hs⟩ <;> cases hs.symm.trans hx
  | @fetch i r c hb hj hs hc =>
    refine h.request (u := ⟨i, .cache i, r.line, .read, none⟩) hb (fun f a hx => ?_) rfl
    rcases hs with hs | ⟨u, hs⟩ <;> cases hs.symm.trans hx
  | finish hf hs hd hw htaken hc =>
    refine h.set (fun f a hx => ?_) (fun _ _ => Stage.noConfusion) (.inl rfl)
    rcases hs with hs | hs <;> cases hs.symm.trans hx
  | capture hp hr => exact h.keep (fun _ _ _ => .rfl) (.inl rfl)
  | answer hb hp => exact h.keep (fun _ _ _ => .rfl) (.inr ⟨hb, hanswer (.inl rfl)⟩)
  | forward hb hj => exact h.keep (fun _ _ _ => .rfl) (.inr ⟨hb, hanswer (.inl rfl)⟩)
  | notice hb hf => exact h.keep (fun _ _ _ => .rfl) (.inr ⟨hb, hanswer (.inr hf)⟩)

end Turn

/-! ## Broadcasts -/

/-- Only the cache that is answered ceases to wait. -/
theorem Broadcast.awaits_iff {V V' : View n} {t : Transfer} (h : V.Broadcast t V') {i : Fin n}
    {f : Func} {a : Addr} : V'.stage i = .awaits f a ↔
      V.stage i = .awaits f a ∧ ¬ (t.func = .response ∧ t.requester = i) := by
  have hseen : (V.seen t).stage i = .awaits f a ↔ V.stage i = .awaits f a := by
    refine ⟨fun hs => stage_of_seen hs nofun, fun hs => ?_⟩
    dsimp only [seen]
    rw [hs]
    have hkeep : (Stage.awaits f a).seen t = .awaits f a := if_neg fun hx => nomatch hx.2
    rw [hkeep, ite_self]
  have hother : t.func ≠ .response → ((V.seen t).stage i = .awaits f a ↔
      V.stage i = .awaits f a ∧ ¬ (t.func = .response ∧ t.requester = i)) := fun hf =>
    hseen.trans (iff_of_eq (by simp [hf]))
  have htaken : ∀ {k : Fin n} {s : Stage} {c : Addr → LineState × Block}, t.func = .response →
      t.requester = k → (∀ f a, s ≠ .awaits f a) → ((V.taken k s c).stage i = .awaits f a ↔
        V.stage i = .awaits f a ∧ ¬ (t.func = .response ∧ t.requester = i)) :=
    fun {k s c} hf hk hs => by
      show (V.set k s c).stage i = _ ↔ _
      by_cases hi : i = k
      · subst hi
        rw [stage_set_self]
        exact iff_of_false (hs f a) fun hx => hx.2 ⟨hf, hk⟩
      · rw [stage_set_of_ne _ _ _ hi]
        exact ⟨fun hx => ⟨hx, fun he => hi (Fin.ext (he.2.symm.trans hk))⟩, fun hx => hx.1⟩
  cases h with
  | claimed hf => exact hother (by rw [hf]; decide)
  | unclaimed hf => exact hother (by rw [hf]; decide)
  | written hf => exact hother (by rw [hf]; decide)
  | invalidated hf => exact hother (by rw [hf]; decide)
  | landed hf hi _ hl =>
    refine htaken hf hi fun g b => ?_
    rcases hl with rfl | ⟨rfl, -⟩ <;> exact Stage.noConfusion
  | filled hf hi => exact htaken hf hi fun _ _ => Stage.noConfusion
  | discarded hf hi => exact htaken hf hi fun _ _ => Stage.noConfusion
  | noticed hf => exact iff_of_eq (by simp [hf])

/-! ## Cycles -/

/-- A history in which the request of a cache is open if and only if the cache waits for its
answer. -/
def Matches (stage : Stage) (o : Option Transfer) : Prop :=
  ∀ f a, stage = .awaits f a ↔ ∃ t, o = some t ∧ t.func = f ∧ t.addr = a

theorem matches_of_undriven {s₀ : Fin n → Stage} {V : View n} {i : Fin n} {o : Option Transfer}
    (h : V.Since s₀) (hc : V.current = none) (ho : Matches (s₀ i) o) : Matches (V.stage i) o := by
  intro f a
  rw [← ho f a]
  refine ⟨fun hs => (h.asked i f a hs).resolve_right ?_, h.kept i f a⟩
  rintro ⟨u, hu, -⟩
  cases hc.symm.trans hu

section Step

variable {s₀ : Fin n → Stage} {V V' : View n} {i : Fin n} {l : List Transfer} {t : Transfer}
  {o : Option Transfer} (hb : V.Balanced) (h : V.Since s₀) (hc : V.current = some t)
  (ht : V.Broadcast t V') (ho : Matches (s₀ i) o)

include hb h hc ht ho

theorem matches_of_other (hn : t.concerns i = false) : Matches (V'.stage i) o := by
  intro f a
  have hnr : ¬ (t.func = .response ∧ t.requester = i) := fun ⟨hf, hi⟩ => by
    simp [Transfer.concerns, hf, hi] at hn
  rw [ht.awaits_iff, ← ho f a, and_iff_left hnr]
  refine ⟨fun hs => (h.asked i f a hs).resolve_right ?_, h.kept i f a⟩
  rintro ⟨u, hu, hi, hf, -⟩
  cases hc.symm.trans hu
  have hfunc := (hb.line i f a hs).1
  rcases hfunc with rfl | rfl <;> simp [Transfer.concerns, hf, hi] at hn

theorem matches_of_request (hi : t.requester = i) (hf : t.func = .read ∨ t.func = .write) :
    o = none ∧ Matches (V'.stage i) (some t) := by
  have hfresh := h.fresh i t hc hi hf
  have hr : t.func.isRequest := by rcases hf with hf | hf <;> rw [hf] <;> rfl
  obtain ⟨j, hj, hs⟩ := hb.stage_of_request hc hr
  obtain rfl : i = j := Fin.ext (hi.symm.trans hj)
  have hs : V.stage i = .awaits t.func t.addr := hs.resolve_right fun hx => by
    rcases hf with hf | hf <;> cases hf.symm.trans hx.1
  refine ⟨?_, fun f a => ?_⟩
  · cases o with
    | none => rfl
    | some u => exact absurd ((ho _ _).mpr ⟨u, rfl, rfl, rfl⟩) (hfresh _ _)
  · have hnr : ¬ (t.func = .response ∧ t.requester = i) := fun hx => by
      rcases hf with hf | hf <;> cases hf.symm.trans hx.1
    rw [ht.awaits_iff, and_iff_left hnr, hs]
    constructor
    · intro he
      cases he
      exact ⟨t, rfl, rfl, rfl⟩
    · rintro ⟨u, hu, rfl, rfl⟩
      cases hu
      rfl

theorem matches_of_response (hi : t.requester = i) (hf : t.func = .response) :
    (∃ u, o = some u ∧ t.addr = u.addr ∧ (t.data.isSome ↔ u.func = .read)) ∧
      Matches (V'.stage i) none := by
  obtain ⟨j, hj, hs⟩ := hb.stage_of_response hc hf
  obtain rfl : i = j := Fin.ext (hi.symm.trans hj)
  have hs₀ := (h.asked i _ _ hs).resolve_right fun ⟨u, hu, _, hx, _⟩ => by
    cases hc.symm.trans hu
    rw [hf] at hx
    split_ifs at hx
  obtain ⟨u, hu, hfunc, haddr⟩ := (ho _ _).mp hs₀
  refine ⟨⟨u, hu, haddr.symm, ?_⟩, fun f a => ?_⟩
  · rw [hfunc]
    cases t.data.isSome <;> simp
  · rw [ht.awaits_iff]
    exact iff_of_false (fun hx => hx.2 ⟨hf, hi⟩) fun ⟨w, hw, _⟩ => nomatch hw

/-- **The transfer of a cycle** keeps the history of a cache answered. -/
theorem answered_step (ha : Answered (l.filter (·.concerns i)) o) :
    ∃ o', Answered ((l ++ [t]).filter (·.concerns i)) o' ∧ Matches (V'.stage i) o' := by
  rw [List.filter_append]
  by_cases hx : t.concerns i
  · rw [List.filter_cons_of_pos hx, List.filter_nil]
    simp only [Transfer.concerns, Bool.and_eq_true, Bool.or_eq_true, decide_eq_true_eq] at hx
    obtain ⟨hi, hf | hf⟩ := hx
    · obtain ⟨rfl, hm⟩ := matches_of_request hb h hc ht ho hi hf
      exact ⟨some t, .ask ha hf, hm⟩
    · obtain ⟨⟨u, rfl, haddr, hd⟩, hm⟩ := matches_of_response hb h hc ht ho hi hf
      exact ⟨none, .answer ha hf haddr hd, hm⟩
  · rw [List.filter_cons_of_neg hx, List.filter_nil, List.append_nil]
    exact ⟨o, ha, matches_of_other hb h hc ht ho (Bool.eq_false_iff.mpr hx)⟩

end Step

end View

end Snooping
