import Snooping.Proofs.Cache.Losses

/-!
# What a cache counts

A turn counts what it drives, and every request that a cache has taken is ended once. The effort of
a cache tells that it gets on: it never sinks, and it grows in every turn on a free bus that drives
nothing.

* `Bus.carried`: the transfers of one kind.
* `Cache.taken`, `Cache.writesTaken`: the requests that a cache has taken.
* `Cache.effort`: how far a cache has come.
* **`Cache.Deed.counts`**, **`Cache.Deed.requests`**, **`Cache.Deed.effort`**: what a turn counts.
* `Cache.Endures.requests`, `Cache.Heeds.requests`, `Cache.Heeds.effort`: the same for what is seen.
-/

namespace Snooping

/-! ## Transfers -/

namespace Bus

/-- **The transfers with a function** so far. -/
def carried (b : Bus) (f : Func) : Nat := b.transfers[f.code]

theorem carried_drive (b : Bus) (t : Transfer) (f : Func) :
    (b.drive t).carried f = b.carried f + if t.func = f then 1 else 0 := by
  show (b.transfers.put t.func.code (b.transfers[t.func.code] + 1))[f.code] = _
  by_cases hf : t.func = f
  · subst hf
    rw [Vector.getElem_put_self, if_pos rfl]
    rfl
  · rw [Vector.getElem_put_of_ne _ _ fun he => hf (Func.code_injective he).symm, if_neg hf]
    rfl

/-- The requests of cores so far. -/
def asked (b : Bus) : Nat := b.carried .read + b.carried .write + b.carried .invalidate

/-- The answers so far. -/
def answered (b : Bus) : Nat := b.carried .response + b.carried .requested

theorem asked_drive (b : Bus) (t : Transfer) :
    (b.drive t).asked = b.asked + t.func.isRequest.toNat := by
  simp only [asked, carried_drive]
  cases t.func <;> simp [Func.isRequest] <;> omega

theorem answered_drive (b : Bus) (t : Transfer) :
    (b.drive t).answered = b.answered + t.func.isAnswer.toNat := by
  simp only [answered, carried_drive]
  cases t.func <;> simp [Func.isAnswer] <;> omega

end Bus

namespace Phase

/-- The line has been looked up. -/
def looked {ways : Nat} : Phase ways → Bool
  | lookup => false
  | hit _ | miss _ | upgrade _ | promote _ | writeBack _ _ | awaitWriteBack _ _ | fill _
  | awaitFill _ | installed _ => true

end Phase

namespace Cache

variable {g : Geometry}

/-- The requests that a cache has taken so far. -/
def taken (c : Cache g) : Nat := c.stats.served + c.access.isSome.toNat

/-- The writes that a cache has taken so far. -/
def writesTaken (c : Cache g) : Nat :=
  c.stats.wrote + (c.access.any fun a => a.request.isWrite).toNat

/-- **How far a cache has come** with its requests. An attempt that starts over counts for more than
what it had found. -/
def effort (c : Cache g) : Nat := 2 * (c.stats.served + c.stats.restarts) + c.inPhase Phase.looked

/-- **What the accounts come to**, by the requests that were taken. -/
theorem Balanced.bounds {c : Cache g} (h : c.Balanced) (ht : c.Tidy) :
    c.stats.writeBacks ≤ c.writesTaken ∧ c.stats.invalidationsSent ≤ c.writesTaken ∧
    c.stats.busAcquisitions ≤
      c.stats.writeBacks + c.stats.invalidationsSent + (c.taken + c.stats.restarts) ∧
    c.stats.restarts ≤ c.stats.invalidated ∧ c.effort ≤ 2 * (c.taken + c.stats.restarts) + 1 := by
  have hasked := c.inPhase_le Phase.asked
  have htook := ht.took_le
  have hlooked : c.inPhase Phase.looked ≤ 1 := Bool.toNat_le _
  obtain ⟨h₁, h₂, h₃, h₄⟩ := h
  unfold taken writesTaken effort
  omega

/-! ## Turns -/

section Turn

variable {c : Cache g} {bus : Bus} {now : Nat} {x : Turn g}

/-- **A turn counts what it drives.** -/
theorem Deed.counts (h : c.Deed bus now x) :
    x.cache.stats.writeBacks + bus.carried .write = c.stats.writeBacks + x.bus.carried .write ∧
    x.cache.stats.invalidationsSent + bus.carried .invalidate =
      c.stats.invalidationsSent + x.bus.carried .invalidate ∧
    x.cache.stats.busAcquisitions + bus.asked = c.stats.busAcquisitions + x.bus.asked ∧
    x.cache.stats.invalidated = c.stats.invalidated := by
  cases h with
  | sleep => exact ⟨rfl, rfl, rfl, rfl⟩
  | look => exact ⟨rfl, rfl, rfl, rfl⟩
  | restart => exact ⟨rfl, rfl, rfl, rfl⟩
  | @take c₁ a w ha hq ho hk hg =>
    simp only [goOn, enter, count, hk.stats, Bus.carried_drive, Bus.asked_drive, Func.isRequest,
      Bool.toNat_true, reduceCtorEq, if_true, if_false, and_true]
    omega
  | yield _ _ _ hk =>
    simp only [goOn, enter, turnedAway, count, hk.stats, and_true]
    exact ⟨rfl, rfl, rfl⟩
  | @serve c₁ a w ha hq hk =>
    obtain ⟨e₁, e₂, e₃, -, e₅⟩ := c₁.stats.finish_eq a.request.isWrite a.missed
    rw [← hk.stats]
    exact ⟨congrArg (· + bus.carried .write) e₁, congrArg (· + bus.carried .invalidate) e₂,
      congrArg (· + bus.asked) e₃, e₅⟩
  | fetch =>
    simp only [Cache.sleep, enter, count, stats_marked, Bus.carried_drive, Bus.asked_drive,
      Func.isRequest, Bool.toNat_true, reduceCtorEq, if_false, and_true]
    omega
  | ask =>
    simp only [goOn, enter, turnedAway, count, stats_marked, and_true]
    exact ⟨rfl, rfl, rfl⟩
  | evict =>
    simp only [Cache.sleep, enter, count, Bus.carried_drive, Bus.asked_drive, Func.isRequest,
      Bool.toNat_true, reduceCtorEq, if_true, if_false, and_true]
    omega
  | hold => exact ⟨rfl, rfl, rfl, rfl⟩

omit bus now x in
theorem requests_of_access {c c' : Cache g} {a a' : Access g.ways} (ha : c.access = some a)
    (ha' : c'.access = some a') (hr : a'.request = a.request)
    (hs : c'.stats.served = c.stats.served ∧ c'.stats.wrote = c.stats.wrote) :
    c'.taken = c.taken ∧ c'.writesTaken = c.writesTaken := by
  simp [taken, writesTaken, ha, ha', hr, hs]

theorem Deed.requests (h : c.Deed bus now x) :
    x.cache.taken = c.taken ∧ x.cache.writesTaken = c.writesTaken := by
  cases h with
  | sleep => exact ⟨rfl, rfl⟩
  | look ha => exact requests_of_access ha rfl rfl ⟨rfl, rfl⟩
  | restart ha => exact requests_of_access ha rfl rfl ⟨rfl, rfl⟩
  | take ha _ _ hk =>
    refine requests_of_access ha rfl rfl ?_
    rw [← hk.stats]
    exact ⟨rfl, rfl⟩
  | yield ha _ _ hk =>
    refine requests_of_access ha rfl rfl ?_
    rw [← hk.stats]
    exact ⟨rfl, rfl⟩
  | @serve c₁ a w ha hq hk =>
    have hserved := c₁.stats.served_finish a.request.isWrite a.missed
    have hwrote := c₁.stats.wrote_finish a.request.isWrite a.missed
    simp only [taken, writesTaken, ha, ← hk.stats]
    exact ⟨hserved, hwrote⟩
  | @fetch a a' w ha _ _ _ hr =>
    refine requests_of_access ha rfl hr ?_
    rw [← c.stats_marked a.request.addr w]
    exact ⟨rfl, rfl⟩
  | @ask a a' w ha _ _ _ hr =>
    refine requests_of_access ha rfl hr ?_
    rw [← c.stats_marked a.request.addr w]
    exact ⟨rfl, rfl⟩
  | evict ha _ _ hr => exact requests_of_access ha rfl hr ⟨rfl, rfl⟩
  | hold ha _ hr => exact requests_of_access ha rfl hr ⟨rfl, rfl⟩

omit bus now x in
theorem effort_of_access {c c' : Cache g} {a a' : Access g.ways} (ha : c.access = some a)
    (ha' : c'.access = some a') (hp : a.phase.looked = true → a'.phase.looked = true)
    (hs : c'.stats.served = c.stats.served ∧ c'.stats.restarts = c.stats.restarts) :
    c.effort ≤ c'.effort := by
  rw [effort, effort, inPhase_of_access ha, inPhase_of_access ha', hs.1, hs.2]
  exact Nat.add_le_add_left (toNat_le_of_imp hp) _

/-- **A cache gets on**: on a bus that is granted, every turn drives something or grows the
effort. -/
theorem Deed.effort (h : c.Deed bus now x) : c.effort ≤ x.cache.effort ∧
    (bus.grants .core → c.stage.sleeps = false → x.bus.current ≠ none ∨
      c.effort + 1 ≤ x.cache.effort) := by
  cases h with
  | sleep hs => exact ⟨Nat.le_refl _, fun _ hx => Bool.noConfusion (hs.symm.trans hx)⟩
  | @look a hit w p ha hl hw =>
    have he : ((c.age (g.index a.request.addr) hit).enter a p).effort = c.effort + 1 := by
      have hp : p.looked = true := by obtain ⟨rfl, -⟩ | rfl := hw <;> rfl
      rw [Cache.effort, Cache.effort, inPhase_of_access ha, inPhase_of_access rfl, hl]
      dsimp only
      rw [hp]
      rfl
    exact ⟨he ▸ Nat.le_succ _, fun _ _ => .inr (Nat.le_of_eq he.symm)⟩
  | @restart a w ha hq ho =>
    have hle : c.inPhase Phase.looked ≤ 1 := Bool.toNat_le _
    have he : (c.restart a).effort = 2 * (c.stats.served + (c.stats.restarts + 1)) := rfl
    have hlt : c.effort + 1 ≤ (c.restart a).effort := by
      rw [he, Cache.effort]
      omega
    exact ⟨Nat.le_of_succ_le hlt, fun _ _ => .inr hlt⟩
  | take ha _ _ hk hg =>
    refine ⟨effort_of_access ha rfl (fun _ => rfl) ?_, fun _ _ => .inl nofun⟩
    rw [← hk.stats]
    exact ⟨rfl, rfl⟩
  | yield ha _ _ hk hg =>
    refine ⟨effort_of_access ha rfl (fun _ => rfl) ?_, fun hx => absurd hx hg⟩
    rw [← hk.stats]
    exact ⟨rfl, rfl⟩
  | @serve c₁ a w ha hq hk =>
    have hle : c.inPhase Phase.looked ≤ 1 := Bool.toNat_le _
    have hserved := c₁.stats.served_finish a.request.isWrite a.missed
    obtain ⟨-, -, -, hrestarts, -⟩ := c₁.stats.finish_eq a.request.isWrite a.missed
    have hlt : c.effort + 1 ≤ (c₁.complete a w bus now).cache.effort := by
      have he : (c₁.complete a w bus now).cache.effort =
        2 * ((c₁.stats.finish a.request.isWrite a.missed).served +
          (c₁.stats.finish a.request.isWrite a.missed).restarts) := rfl
      rw [he, hserved, hrestarts, hk.stats, Cache.effort]
      omega
    exact ⟨Nat.le_of_succ_le hlt, fun _ _ => .inr hlt⟩
  | @fetch a a' w ha _ _ _ hr hg =>
    refine ⟨effort_of_access ha rfl (fun _ => rfl) ?_, fun _ _ => .inl nofun⟩
    rw [← c.stats_marked a.request.addr w]
    exact ⟨rfl, rfl⟩
  | @ask a a' w ha _ _ _ hr hg =>
    refine ⟨effort_of_access ha rfl (fun _ => rfl) ?_, fun hx => absurd hx hg⟩
    rw [← c.stats_marked a.request.addr w]
    exact ⟨rfl, rfl⟩
  | evict ha _ _ hr hg =>
    exact ⟨effort_of_access ha rfl (fun _ => rfl) ⟨rfl, rfl⟩, fun _ _ => .inl nofun⟩
  | hold ha _ hr hg =>
    exact ⟨effort_of_access ha rfl (fun _ => rfl) ⟨rfl, rfl⟩, fun hx => absurd hx hg⟩

end Turn

/-! ## What is seen -/

variable {c c' : Cache g}

theorem Endures.requests {d : Nat} (h : c.Endures c' d) :
    c'.taken = c.taken ∧ c'.writesTaken = c.writesTaken := by
  obtain ⟨f, hs⟩ := h.stats
  have hsome : c'.access.isSome = c.access.isSome := by
    simpa only [Option.isSome_map] using congrArg Option.isSome h.fades.access
  have hwrite := h.fades.any_eq fun x => x.1.isWrite
  rw [taken, writesTaken, hs, hsome, hwrite]
  exact ⟨rfl, rfl⟩

theorem Endures.effort {d : Nat} (h : c.Endures c' d) : c'.effort = c.effort := by
  obtain ⟨f, hs⟩ := h.stats
  rw [Cache.effort, hs, h.fades.inPhase_eq]
  rfl

theorem Heeds.requests (h : c.Heeds c') : c'.taken = c.taken ∧ c'.writesTaken = c.writesTaken := by
  cases h with
  | ignore => exact ⟨rfl, rfl⟩
  | contend => exact c.endures_contend.requests
  | written ha => exact requests_of_access ha rfl rfl ⟨rfl, rfl⟩
  | install ha => exact requests_of_access ha rfl rfl ⟨rfl, rfl⟩
  | restart ha => exact requests_of_access ha rfl rfl ⟨rfl, rfl⟩

theorem Heeds.effort (h : c.Heeds c') : c.effort ≤ c'.effort := by
  cases h with
  | ignore => exact Nat.le_refl _
  | contend => exact Nat.le_of_eq c.endures_contend.effort.symm
  | written ha => exact effort_of_access ha rfl (fun _ => rfl) ⟨rfl, rfl⟩
  | install ha => exact effort_of_access ha rfl (fun _ => rfl) ⟨rfl, rfl⟩
  | @restart a w ha hp =>
    have hle : c.inPhase Phase.looked ≤ 1 := Bool.toNat_le _
    have he : (c.restart a).effort = 2 * (c.stats.served + (c.stats.restarts + 1)) := rfl
    rw [he, Cache.effort]
    omega

theorem Heeds.stats (h : c.Heeds c') : c'.stats.writeBacks = c.stats.writeBacks ∧
    c'.stats.invalidationsSent = c.stats.invalidationsSent ∧
    c'.stats.busAcquisitions = c.stats.busAcquisitions ∧
    c'.stats.invalidated = c.stats.invalidated := by
  cases h <;> exact ⟨rfl, rfl, rfl, rfl⟩

end Cache

end Snooping
