import Snooping.Proofs.Cache.Fading

/-!
# The counters of the lines

A line that is used gets the counter of a line that was just used, and all others only age. So no
counter is ever above that one.

* **`Cache.Recent`**: no counter is above the one of a line that was just used.
* `Cache.Recent.submit`, **`Cache.Recent.tick`**: the execute side keeps it.
* `Cache.Recent.observe`, `Cache.Recent.snoop`: so does the snoop side.
-/

namespace Snooping.Cache

variable {g : Geometry}

/-- **No counter is above `m`**, which is the counter of a line that was just used. -/
structure Recent (c : Cache g) (m : Nat) : Prop where
  maxCounter : c.maxCounter = m
  counter : ∀ i w, (c.line i w).counter ≤ m

theorem recent_empty (m id : Nat) : (empty g m id).Recent m := by
  refine ⟨rfl, fun i w => ?_⟩
  rw [line_empty]
  exact Nat.zero_le m

namespace Recent

variable {c c' : Cache g} {m : Nat} (h : c.Recent m) {a : Access g.ways} {w : Fin g.ways}

include h

theorem of_sets (hs : c'.sets = c.sets) (hm : c'.maxCounter = c.maxCounter) : c'.Recent m := by
  refine ⟨hm.trans h.maxCounter, fun i w => ?_⟩
  rw [line, hs]
  exact h.counter i w

theorem setLine {i : Fin g.sets} {l : Line} (hl : l.counter ≤ c.maxCounter) :
    (c.setLine i w l).Recent m := by
  refine ⟨h.maxCounter, fun j v => ?_⟩
  rw [line_setLine]
  split_ifs
  · exact h.maxCounter ▸ hl
  · exact h.counter j v

theorem line_le (i : Fin g.sets) : (c.line i w).counter ≤ c.maxCounter :=
  h.maxCounter ▸ h.counter i w

theorem age (i : Fin g.sets) (hit : Option (Fin g.ways)) : (c.age i hit).Recent m := by
  refine ⟨h.maxCounter, fun j w => ?_⟩
  rw [line_age]
  split_ifs
  · exact Nat.le_trans (Nat.sub_le _ 1) (h.counter j w)
  · exact h.counter j w

/-! ## The execute side -/

theorem submit {r : Request} (hs : c.submit r = .ok c') : c'.Recent m := by
  unfold Cache.submit at hs
  split_ifs at hs
  cases hs
  exact h.of_sets rfl rfl

theorem lookUp (bus : Bus) : (c.lookUp a bus).cache.Recent m :=
  (h.age (g.index a.request.addr) (c.sets[g.index a.request.addr].find?
    (g.tag a.request.addr))).of_sets rfl rfl

theorem complete (bus : Bus) (now : Nat) : (c.complete a w bus now).cache.Recent m := by
  have hl : ((c.line (g.index a.request.addr) w).serve c.maxCounter a.request).2.counter ≤
      c.maxCounter := by
    cases a.request <;> exact Nat.le_refl _
  exact (h.setLine hl).of_sets rfl rfl

theorem upgrade (bus : Bus) : (c.upgrade a w bus).cache.Recent m := by
  unfold Cache.upgrade
  dsimp only
  split_ifs <;> exact h.of_sets rfl rfl

theorem useHit (bus : Bus) (now : Nat) : (c.useHit a w bus now).cache.Recent m := by
  have hused : (c.setLine (g.index a.request.addr) w { c.line (g.index a.request.addr) w with
      counter := c.maxCounter }).Recent m := h.setLine (Nat.le_refl _)
  unfold Cache.useHit
  dsimp only
  split_ifs
  · exact hused.upgrade bus
  · exact hused.complete bus now
  · exact h.of_sets rfl rfl

theorem useInstalled (bus : Bus) (now : Nat) : (c.useInstalled a w bus now).cache.Recent m := by
  unfold Cache.useInstalled
  dsimp only
  split_ifs
  · exact h.upgrade bus
  · exact h.complete bus now
  · exact h.of_sets rfl rfl

theorem marked (r : Addr) : (c.marked r w).Recent m := by
  unfold Cache.marked
  split_ifs
  · exact h
  · exact h.setLine (Nat.le_refl _)

theorem fill (bus : Bus) : (c.fill a w bus).cache.Recent m := by
  obtain ⟨a', f, -, ⟨-, he⟩ | ⟨-, he⟩⟩ := c.fill_cases a w bus
  · rw [he]
    exact (h.marked a.request.addr).of_sets rfl rfl
  · rw [he]
    exact (h.marked a.request.addr).of_sets rfl rfl

theorem writeBack {u : Addr} (bus : Bus) : (c.writeBack a w u bus).cache.Recent m := by
  unfold Cache.writeBack
  dsimp only
  split_ifs
  · exact h.of_sets rfl rfl
  · exact h.of_sets rfl rfl
  · exact h.fill bus

theorem makeRoom (bus : Bus) : (c.makeRoom a w bus).cache.Recent m := by
  unfold Cache.makeRoom
  dsimp only
  split_ifs
  · exact h.writeBack bus
  · exact h.fill bus

/-- **A turn of the execute side** uses lines or lets them age. -/
theorem tick (bus : Bus) (now : Nat) : (c.tick bus now).cache.Recent m := by
  unfold Cache.tick
  cases c.access with
  | none => exact h
  | some a =>
    dsimp only
    cases a.phase
    case lookup => exact h.lookUp bus
    case hit w => exact h.useHit bus now
    case miss w => exact h.makeRoom bus
    case upgrade w => exact h.upgrade bus
    case promote w => exact h.complete bus now
    case writeBack w u => exact h.writeBack bus
    case fill w => exact h.fill bus
    case installed w => exact h.useInstalled bus now
    case awaitWriteBack | awaitFill => exact h

/-! ## The snoop side -/

theorem install (bus : Bus) (t : Transfer) : (c.install a w bus t).Recent m := by
  unfold Cache.install
  dsimp only
  split_ifs
  · exact (h.setLine (Nat.le_refl _)).of_sets rfl rfl
  · exact h.of_sets rfl rfl

theorem observe (bus : Bus) : (c.observe bus).2.Recent m := by
  unfold Cache.observe
  split
  · exact h
  · split
    · split
      · split_ifs
        · exact h.of_sets rfl rfl
        · exact h
      · exact h
    · split
      · split_ifs
        · exact h.of_sets rfl rfl
        · exact h.install bus _
      · exact h
    · exact h

theorem snoop (bus : Bus) : (c.snoop bus).2.1.Recent m := by
  refine ⟨(c.constants_snoop bus).2.trans h.maxCounter, fun i w => ?_⟩
  obtain ⟨s, hs⟩ := c.line_snoop bus i w
  rw [hs]
  exact h.counter i w

end Recent

end Snooping.Cache
