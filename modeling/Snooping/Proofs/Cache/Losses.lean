import Snooping.Proofs.Cache.Accounts
import Snooping.Proofs.Cache.Answers

/-!
# What peers and answers cost a cache

A cache loses a line only to a write or the taking away of that line by a peer, and its request
starts over only when the answer comes for a line that was lost.

* `Cache.Fades.any_eq`, `Cache.Fades.lost_of`: what fading lines change.
* **`Cache.Endures`**, `Cache.endures_snoop`: what the transfer of a peer leaves behind.
* **`Cache.Heeds`**, `Cache.heeds_observe`: what an answer leaves behind.
* **`Cache.balanced_endures`**, **`Cache.balanced_observe`**: the accounts stay balanced.
-/

namespace Snooping.Cache

variable {g : Geometry}

/-! ## Transfers of peers -/

namespace Fades

variable {c c' : Cache g}

theorem any_eq (h : c.Fades c') (f : Request × Phase g.ways → Bool) :
    (c'.access.any fun a => f (a.request, a.phase)) =
      c.access.any fun a => f (a.request, a.phase) := by
  have he := congrArg (Option.any f) h.access
  simpa only [Option.any_map] using he

theorem inPhase_eq (h : c.Fades c') (p : Phase g.ways → Bool) : c'.inPhase p = c.inPhase p :=
  congrArg Bool.toNat (h.any_eq fun x => p x.2)

theorem unsaved_le (h : c.Fades c') : c'.unsaved.card ≤ c.unsaved.card :=
  Cache.unsaved_le fun i w hd hl => ⟨(h.state i w).isDirty hd, by
    rw [← hl]
    exact (h.any_eq fun x => decide (g.index x.1.addr = i) && x.2.leaves w).symm⟩

theorem lost_of (h : c.Fades c')
    (hd : ∀ i w, (c.line i w).state.hasData → (c'.line i w).state.hasData)
    (hr : ∀ i w, (c.line i w).state = .requested → (c'.line i w).state = .requested)
    (hl : c'.lost = true) : c.lost = true := by
  obtain ⟨a', ha', hl⟩ := (Option.any_eq_true _ _).mp hl
  obtain ⟨a, ha, hreq, hp⟩ := h.access_eq_some ha'
  rw [hreq, hp] at hl
  rw [lost_of_access ha]
  have ho : ∀ {i w t}, (c.line i w).offers t → (c'.line i w).offers t := fun hx =>
    offers_iff.mpr ⟨hd _ _ (offers_iff.mp hx).1, (h.tag _ _).trans (offers_iff.mp hx).2⟩
  have hw : ∀ {i w t}, (c.line i w).awaits t → (c'.line i w).awaits t := fun hx =>
    awaits_iff.mpr ⟨hr _ _ (awaits_iff.mp hx).1, (h.tag _ _).trans (awaits_iff.mp hx).2⟩
  cases hq : a.phase <;> rw [hq] at hl <;>
    simp only [Phase.misses, Bool.not_eq_true', Bool.false_eq_true] at hl ⊢
  case awaitFill w => exact Bool.eq_false_iff.mpr (mt hw (Bool.eq_false_iff.mp hl))
  all_goals exact Bool.eq_false_iff.mpr (mt ho (Bool.eq_false_iff.mp hl))

end Fades

/-- **What the transfer of a peer leaves behind.** The lines fade, and the line of a request is gone
only if one was taken away; here `d` is the number of lines that were. -/
structure Endures (c c' : Cache g) (d : Nat) : Prop where
  fades : c.Fades c'
  stats : ∃ f, c'.stats = { c.stats with forwards := f, invalidated := c.stats.invalidated + d }
  lost : c'.lost.toNat ≤ c.lost.toNat + d

theorem toNat_le_of_imp {a b : Bool} (h : a = true → b = true) : a.toNat ≤ b.toNat := by
  cases a with
  | false => exact Nat.zero_le _
  | true => rw [h rfl]

theorem endures_refl (c : Cache g) : c.Endures c 0 := ⟨.refl c, ⟨_, rfl⟩, Nat.le_refl _⟩

theorem endures_contend (c : Cache g) : c.Endures c.contend 0 :=
  ⟨c.fades_contend, ⟨_, rfl⟩,
    toNat_le_of_imp (c.fades_contend.lost_of (fun _ _ hd => hd) fun _ _ hr => hr)⟩

theorem lost_shared {c : Cache g} {i : Fin g.sets} {w : Fin g.ways} {f : CacheStats → CacheStats}
    (hl : ((c.shared i w).count f).lost = true) : c.lost = true := by
  have hshared : c.Fades (c.shared i w) := fades_shared
  have hline : ∀ j v, (c.shared i w).line j v = if i = j ∧ w = v then
      { c.line i w with state := (c.line i w).state.afterPeerRead } else c.line j v :=
    fun j v => c.line_setLine i j w v _
  refine hshared.lost_of (fun j v hd => ?_) (fun j v hr => ?_) hl
  · rw [hline]
    split_ifs with hv
    · obtain ⟨rfl, rfl⟩ := hv
      revert hd
      cases (c.line i w).state <;> exact fun hd => hd
    · exact hd
  · rw [hline]
    split_ifs with hv
    · obtain ⟨rfl, rfl⟩ := hv
      dsimp only
      rw [hr]
      rfl
    · exact hr

theorem endures_shareLine (c : Cache g) (bus : Bus) (t : Transfer) (i : Fin g.sets)
    (w : Fin g.ways) : c.Endures (c.shareLine bus t i w).2.1 0 := by
  have hshared : c.Fades (c.shared i w) := fades_shared
  have hcount : ∃ k, (c.shareLine bus t i w).2.1 =
      (c.shared i w).count fun s => { s with forwards := k } := by
    unfold shareLine Bus.claim
    cases bus.claimed
    · exact ⟨c.stats.forwards + 1, rfl⟩
    · exact ⟨c.stats.forwards, rfl⟩
  obtain ⟨k, he⟩ := hcount
  rw [he]
  exact ⟨⟨hshared.access, hshared.tag, hshared.state⟩, ⟨k, rfl⟩, toNat_le_of_imp lost_shared⟩

/-- **Only a write or the taking away of a line costs a cache one.** -/
theorem endures_snoop (c : Cache g) (bus : Bus) : ∃ d ≤ 1, c.Endures (c.snoop bus).2.1 d ∧
    (0 < d → ∃ t, bus.current = some t ∧ (t.func = .write ∨ t.func = .invalidate)) := by
  have hrefl : ∃ d ≤ 1, c.Endures c d ∧
      (0 < d → ∃ t, bus.current = some t ∧ (t.func = .write ∨ t.func = .invalidate)) :=
    ⟨0, Nat.zero_le _, c.endures_refl, nofun⟩
  unfold snoop
  split
  · exact hrefl
  · split
    · exact hrefl
    · split
      · exact hrefl
      · next u hu =>
        split
        · exact hrefl
        · next w _ =>
          unfold react
          split
          · split
            · exact ⟨0, Nat.zero_le _, c.endures_contend, nofun⟩
            · exact ⟨0, Nat.zero_le _, c.endures_shareLine bus u _ w, nofun⟩
          · next hf =>
            refine ⟨1, Nat.le_refl _, ⟨fades_dropLine, ⟨_, rfl⟩, ?_⟩, fun _ => ⟨u, ?_, ?_⟩⟩
            · exact Nat.le_trans (Bool.toNat_le _) (Nat.le_add_left _ _)
            · exact (Option.filter_eq_some_iff.mp hu).1
            · have hr := (Bool.and_eq_true_iff.mp (Option.filter_eq_some_iff.mp hu).2).2
              revert hf hr
              cases u.func <;> simp [Func.isRequest]

theorem balanced_endures {c c' : Cache g} {d : Nat} (h : c.Balanced) (he : c.Endures c' d) :
    c'.Balanced := by
  have hb := he.fades.unsaved_le
  have htook := he.fades.inPhase_eq Phase.took
  have hasked := he.fades.inPhase_eq Phase.asked
  have hlost := he.lost
  obtain ⟨f, hs⟩ := he.stats
  obtain ⟨h₁, h₂, h₃, h₄⟩ := h
  refine ⟨?_, ?_, ?_, ?_⟩
  · rw [hs]
    exact Nat.le_trans (Nat.add_le_add_left hb _) h₁
  · rw [hs, htook]
    exact h₂
  · rw [hs, hasked]
    exact h₃
  · rw [hs]
    show c.stats.restarts + c'.lost.toNat ≤ c.stats.invalidated + d
    omega

/-! ## Answers -/

/-- **What an answer leaves behind.** -/
inductive Heeds (c : Cache g) : Cache g → Prop
  /-- It is for somebody else. -/
  | ignore : Heeds c c
  /-- A peer waits for the line too. -/
  | contend : Heeds c c.contend
  /-- The line in the way has been written back. -/
  | written {a : Access g.ways} {w : Fin g.ways} {u : Addr} (ha : c.access = some a)
      (hp : a.phase = .awaitWriteBack w u) : Heeds c (c.enter a (.fill w))
  /-- The line has come. -/
  | install {a : Access g.ways} {w : Fin g.ways} {l : Line} (ha : c.access = some a)
      (hp : a.phase = .awaitFill w) (ho : l.offers (g.tag a.request.addr))
      (hd : ¬ l.state.isDirty) :
      Heeds c ((c.setLine (g.index a.request.addr) w l).enter a (.installed w))
  /-- The line was taken away while it was awaited. -/
  | restart {a : Access g.ways} {w : Fin g.ways} (ha : c.access = some a)
      (hp : a.phase = .awaitFill w)
      (hl : ¬ (c.line (g.index a.request.addr) w).awaits (g.tag a.request.addr)) :
      Heeds c (c.restart a)

theorem heeds_observe (c : Cache g) (bus : Bus) : c.Heeds (c.observe bus).2 := by
  unfold observe
  cases ha : c.access with
  | none => exact .ignore
  | some a =>
    dsimp only
    cases hp : a.phase with
    | awaitWriteBack w u =>
      dsimp only
      split
      · split
        · exact .written ha hp
        · exact .ignore
      · exact .ignore
    | awaitFill w =>
      dsimp only
      split
      · next t _ =>
        split
        · exact .contend
        · dsimp only
          unfold install
          dsimp only
          split_ifs with hl
          · obtain ⟨-, htag⟩ := awaits_iff.mp hl
            refine .install ha hp (offers_iff.mpr ⟨?_, htag⟩) (fillState_ne bus t a.contended).2.2
            unfold Bus.fillState
            split <;> rfl
          · exact .restart ha hp hl
      · exact .ignore
    | _ => exact .ignore

theorem balanced_observe {c : Cache g} (h : c.Balanced) (bus : Bus) :
    (c.observe bus).2.Balanced := by
  have hx := c.heeds_observe bus
  generalize (c.observe bus).2 = c' at hx
  cases hx with
  | ignore => exact h
  | contend => exact balanced_endures h c.endures_contend
  | @written a w u ha hp =>
    refine h.keep (b := c.stats.busWaitCycles) (f := c.stats.forwards) rfl
      (unsaved_le fun i v hd hl => ⟨hd, ?_⟩) ?_ ?_ nofun
    · rw [leaving_of_access ha, hp]
      exact hl
    · rw [inPhase_of_access ha, hp]
      exact Nat.zero_le _
    · rw [inPhase_of_access ha, hp]
      exact Nat.zero_le _
  | @install a w l ha hp ho hd =>
    have hleaves : ∀ v, a.phase.leaves v = false := fun v => by rw [hp]; rfl
    have hline : ∀ i v, ((c.setLine (g.index a.request.addr) w l).enter a (.installed w)).line i v =
        if g.index a.request.addr = i ∧ w = v then l else c.line i v := fun i v =>
      c.line_setLine _ i w v l
    refine h.keep (b := c.stats.busWaitCycles) (f := c.stats.forwards) rfl
      (unsaved_le fun i v hx _ => ⟨?_, leaving_eq_false ha hleaves i v⟩) ?_ (Bool.toNat_le _)
      fun hx => ?_
    · rw [hline] at hx
      split_ifs at hx with hv
      · exact absurd hx hd
      · exact hx
    · rw [inPhase_of_access ha, hp]
      exact Nat.zero_le _
    · rw [lost_of_access rfl] at hx
      simp only [Phase.misses, hline, and_self, if_true, ho, Bool.not_true,
        Bool.false_eq_true] at hx
  | @restart a w ha hp hl =>
    refine balanced_restart h ha (fun v => by rw [hp]; rfl) (by rw [hp]; rfl) ?_
    rw [lost_of_access ha, hp]
    exact (Bool.not_eq_true' _).mpr (Bool.eq_false_iff.mpr hl)

end Snooping.Cache
