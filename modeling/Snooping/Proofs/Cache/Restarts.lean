import Snooping.Proofs.Cache.Bench
import Snooping.Proofs.Cache.Losses
import Snooping.Proofs.Cache.Reactions

/-!
# Restarts follow the loss of the line

A request starts over for one reason only: since it has started, or has last started over, the cache
has seen a peer take away the line of the request. There are no more restarts than lines were taken
away, and a request whose line nobody takes away never starts over.

* **`Cache.takesAccessLine`**, `Cache.restarts`, `Cache.submits`: what can be told of a call.
* `Cache.lost_tick`, `Cache.lost_observe`, **`Cache.lost_snoop`**: how the line of a request gets
  lost.
* `Cache.lost_of_restarts`: only a request that has lost its line starts over.
* **`Cache.takesAccessLine_of_lost`**: a line that is lost was taken away in this attempt.
* **`Cache.restarts_le_invalidated`**: the bound on restarts, and what comes before each of them.
-/

namespace Snooping.Cache

variable {g : Geometry}

/-! ## Calls -/

/-- **A peer takes away the line of the access in progress**: the cache looks at a write or at the
taking away of a line that it holds, and that its access is about. -/
def takesAccessLine (e : Bench (Cache g) × Bench.Call Act) : Bool :=
  e.2 = .own .snoop && e.1.bus.current.any fun t => t.requester ≠ e.1.part.id &&
    (t.func = .write || t.func = .invalidate) && e.1.part.holds t.addr &&
    e.1.part.access.any fun a => a.request.addr.line = t.addr.line

/-- A call hands in a request. -/
def submits (e : Bench (Cache g) × Bench.Call Act) : Bool :=
  match e.2 with
  | .own (.submit _) => true
  | .own (.tick _) | .own .observe | .own .snoop | .other _ => false

/-- In a call, the request starts over. -/
def restarts (e : Bench (Cache g) × Bench.Call Act) : Bool :=
  (Bench.play act e.1 e.2).toOption.any fun b => e.1.part.stats.restarts < b.part.stats.restarts

/-- With a call, an attempt begins. -/
def begins (e : Bench (Cache g) × Bench.Call Act) : Bool := submits e || restarts e

/-! ## How a line gets lost -/

variable {c c' : Cache g} {bus : Bus} {now : Nat}

theorem lost_tick (h : c.Tidy) (hl : (c.tick bus now).cache.lost = true) :
    (c.tick bus now).cache = c := by
  have hd := c.deed_tick bus now
  generalize c.tick bus now = x at hd hl
  cases hd with
  | sleep => rfl
  | look ha hp hw => cases (lost_look h ha hp hw).symm.trans hl
  | @yield c₁ a w ha hp ho hk =>
    have hkept : (c₁.enter a (.upgrade w)).lost = false :=
      congrArg Bool.not (offers_of_sameLines hk.lines ho)
    cases hkept.symm.trans hl
  | @fetch a a' w ha hp hv hu hr =>
    have hmarked : ((c.marked a.request.addr w).enter a' (.awaitFill w)).lost = false := by
      rw [lost_of_access rfl, hr]
      exact congrArg Bool.not (c.awaits_marked a.request.addr w)
    cases hmarked.symm.trans hl
  | restart | take | serve | ask | evict | hold => cases hl

theorem lost_observe (hl : (c.observe bus).2.lost = true) :
    c.lost = true ∧ (c.observe bus).2.stats = c.stats := by
  have hx := c.heeds_observe bus
  generalize (c.observe bus).2 = c' at hx hl
  cases hx with
  | ignore => exact ⟨hl, rfl⟩
  | contend => exact ⟨c.fades_contend.lost_of (fun _ _ hd => hd) (fun _ _ hr => hr) hl, rfl⟩
  | @install a w l ha hp ho hd =>
    have hcome :
        ((c.setLine (g.index a.request.addr) w l).enter a (.installed w)).lost = false := by
      rw [lost_of_access rfl]
      show (!((c.setLine (g.index a.request.addr) w l).line _ w).offers _) = false
      rw [line_setLine_self, ho]
      rfl
    cases hcome.symm.trans hl
  | written | restart => cases hl

theorem tag_of_misses (h : c.Tidy) {a : Access g.ways} (ha : c.access = some a)
    {l l' : Fin g.ways → Line} {t : Nat} (hm : a.phase.misses l t = false)
    (hm' : a.phase.misses l' t = true) :
    ∃ w, l' w ≠ l w ∧ (c.line (g.index a.request.addr) w).tag = g.tag a.request.addr := by
  have hf := h.fits a ha
  unfold Fits at hf
  have hne : ∀ {x y : Bool}, x = false → y = true → y ≠ x := by
    rintro x y rfl rfl
    exact Bool.noConfusion
  cases hp : a.phase <;> simp only [hp, Phase.misses] at hf hm hm'
  case hit w => exact ⟨w, fun e => hne hm hm' (by rw [e]), hf.1⟩
  case upgrade w => exact ⟨w, fun e => hne hm hm' (by rw [e]), hf.1.1⟩
  case awaitFill w => exact ⟨w, fun e => hne hm hm' (by rw [e]), hf.1.1⟩
  case installed w => exact ⟨w, fun e => hne hm hm' (by rw [e]), hf.1.1⟩
  all_goals cases hm'

/-- **A look at the bus loses the line of an access** only if a peer takes it away. -/
theorem lost_snoop (h : c.Tidy) (hl : (c.snoop bus).2.1.lost = true) :
    c.lost = true ∨ takesAccessLine (⟨c, bus⟩, .own .snoop) = true := by
  cases ht : bus.current with
  | none =>
    have hsame : c.snoop bus = (none, c, bus) := by simp only [snoop, ht]
    rw [hsame] at hl
    exact .inl hl
  | some t =>
    by_cases hid : t.requester = c.id
    · rw [snoop_own ht hid] at hl
      exact .inl hl
    have hsnoop := reaction_snoop h.distinct ht hid
    generalize c.snoop bus = r at hsnoop hl
    cases hsnoop with
    | ignore => exact .inl hl
    | notice => exact .inl (c.fades_contend.lost_of (fun _ _ hd => hd) (fun _ _ hr => hr) hl)
    | share => exact .inl (lost_shared hl)
    | @drop w hf hw =>
      rw [or_iff_not_imp_left, Bool.not_eq_true]
      intro hlost
      obtain ⟨a, hacc, hl⟩ := (Option.any_eq_true _ _).mp hl
      have ha : c.access = some a := hacc
      rw [lost_of_access ha] at hlost
      obtain ⟨v, hne, htag⟩ := tag_of_misses h ha hlost hl
      -- Only the line that was dropped has changed, and it carries the tag of the transfer.
      obtain ⟨hi, rfl⟩ : g.index t.addr = g.index a.request.addr ∧ w = v := by
        by_contra hn
        exact hne ((c.line_setLine _ _ w v _).trans (if_neg hn))
      have hline : a.request.addr.line = t.addr.line := by
        rw [Geometry.line_eq_line_iff (g := g), ← hi, ← htag, ← hi]
        exact ⟨rfl, (carries_iff.mp hw).2⟩
      have hheld : c.holds t.addr = true := by
        rw [holds_iff h.distinct, copy_of_carries h.distinct hw]
        exact isLive_iff.mp (carries_iff.mp hw).1
      simp [takesAccessLine, ht, hid, hf, hheld, ha, hline]

/-! ## Histories -/

variable {b b' : Bench (Cache g)} {x : Bench.Call Act}

theorem restarts_of_play (h : Bench.play act b x = .ok b') :
    restarts (b, x) = decide (b.part.stats.restarts < b'.part.stats.restarts) := by
  unfold restarts
  rw [h]
  rfl

theorem restarts_tick (hr : c.stats.restarts < (c.tick bus now).cache.stats.restarts) :
    c.lost = true := by
  have hd := c.deed_tick bus now
  generalize c.tick bus now = y at hd hr
  cases hd with
  | @restart a w ha hp ho =>
    rw [lost_of_access ha]
    obtain hp | hp | hp := hp <;> rw [hp] <;> simpa [Phase.misses] using ho
  | take ha hp ho hk => exact absurd hr (by simp [goOn, count, enter, hk.stats])
  | yield ha hp ho hk => exact absurd hr (by simp [goOn, turnedAway, count, enter, hk.stats])
  | @serve c₁ a w ha hp hk =>
    have hsame := (c₁.stats.finish_eq a.request.isWrite a.missed).2.2.2.1
    rw [hk.stats] at hsame
    exact absurd hr (Nat.not_lt.mpr (Nat.le_of_eq (hk.stats ▸ hsame)))
  | fetch => exact absurd hr (by simp [sleep, count, enter, stats_marked])
  | ask => exact absurd hr (by simp [goOn, turnedAway, count, enter, stats_marked])
  | sleep | look | evict | hold => exact absurd hr (Nat.lt_irrefl _)

theorem restarts_observe (hr : c.stats.restarts < (c.observe bus).2.stats.restarts) :
    c.lost = true := by
  have hx := c.heeds_observe bus
  generalize (c.observe bus).2 = c' at hx hr
  cases hx with
  | @restart a w ha hp hl =>
    rw [lost_of_access ha, hp]
    exact (Bool.not_eq_true' _).mpr (Bool.eq_false_iff.mpr hl)
  | ignore | contend | written | install => exact absurd hr (Nat.lt_irrefl _)

theorem restarts_snoop (c : Cache g) (bus : Bus) :
    (c.snoop bus).2.1.stats.restarts = c.stats.restarts := by
  obtain ⟨d, -, he, -⟩ := c.endures_snoop bus
  obtain ⟨f, hs⟩ := he.stats
  rw [hs]

theorem lost_submit {r : Request} (h : c.submit r = .ok c') :
    c'.stats = c.stats ∧ c'.lost = false := by
  unfold submit at h
  split at h
  · cases h
    exact ⟨rfl, rfl⟩
  · cases h

theorem lost_of_restarts (h : Bench.play act b x = .ok b') (hr : restarts (b, x) = true) :
    b.part.lost = true := by
  rw [restarts_of_play h, decide_eq_true_iff] at hr
  cases x with
  | own y =>
    cases y with
    | submit r =>
      rw [(lost_submit (submit_of_act (Bench.play_own h))).1] at hr
      exact absurd hr (Nat.lt_irrefl _)
    | tick now =>
      cases h
      exact restarts_tick hr
    | observe =>
      cases h
      exact restarts_observe hr
    | snoop =>
      cases h
      rw [restarts_snoop] at hr
      exact absurd hr (Nat.lt_irrefl _)
  | other op =>
    cases h
    exact absurd hr (Nat.lt_irrefl _)

theorem lost_play (ht : b.part.Tidy) (h : Bench.play act b x = .ok b')
    (hl : b'.part.lost = true) :
    begins (b, x) = false ∧ (b.part.lost = true ∨ takesAccessLine (b, x) = true) := by
  have hbegins (hs : submits (b, x) = false) (hr : b'.part.stats.restarts = b.part.stats.restarts) :
      begins (b, x) = false := by
    rw [begins, hs, restarts_of_play h, hr]
    simp
  cases x with
  | own y =>
    cases y with
    | submit r =>
      cases (lost_submit (submit_of_act (Bench.play_own h))).2.symm.trans hl
    | tick now =>
      cases h
      have hsame := lost_tick ht hl
      exact ⟨hbegins rfl (congrArg (·.stats.restarts) hsame), .inl (hsame ▸ hl)⟩
    | observe =>
      cases h
      obtain ⟨hlost, hstats⟩ := lost_observe hl
      exact ⟨hbegins rfl (congrArg (·.restarts) hstats), .inl hlost⟩
    | snoop =>
      cases h
      exact ⟨hbegins rfl (restarts_snoop _ _), lost_snoop ht hl⟩
  | other op =>
    cases h
    exact ⟨hbegins rfl rfl, .inl hl⟩

variable {s : Spec} {c₀ : Cache g} {id : Nat} {b₀ : Bus}
  {l : List (Bench (Cache g) × Bench.Call Act)}

/-- **A line that is lost was taken away in this attempt.** -/
theorem takesAccessLine_of_lost (hc : ofSpec id s = .ok ⟨g, c₀⟩)
    (h : History (Bench.play act) ⟨c₀, b₀⟩ l b) (hl : b.part.lost = true) :
    (since begins l).any takesAccessLine = true := by
  induction h with
  | start =>
    obtain ⟨-, rfl⟩ := ofSpec_eq_ok hc
    cases hl
  | @call l b b' x h hx ih =>
    obtain ⟨hb, hl⟩ := lost_play (tidy_history hc h) hx hl
    rw [since_concat, hb, if_neg Bool.false_ne_true, List.any_append]
    obtain hl | hr := hl
    · rw [ih hl, Bool.true_or]
    · rw [List.any_cons, hr, Bool.true_or, Bool.or_true]

theorem balanced_act {bus' : Bus} {y : Act} (h : c.Tidy ∧ c.Balanced)
    (hx : act y c bus = .ok (c', bus')) : c'.Tidy ∧ c'.Balanced := by
  refine ⟨tidy_act h.1 hx, act_keeps hx (fun r d hs => ?_)
    (fun now => balanced_tick h.1 h.2 bus now) (balanced_observe h.2 bus) ?_⟩
  · unfold submit at hs
    split at hs
    · next hi =>
      cases hs
      exact balanced_submit h.2 (Option.isNone_iff_eq_none.mp hi) r
    · cases hs
  · obtain ⟨d, -, he, -⟩ := c.endures_snoop bus
    exact balanced_endures h.2 he

/-- **No restart without a line that was taken away**: there were no more restarts than lines were
taken away, and since a request that starts over was handed in, or has last started over, a peer has
taken its line away. A request whose line nobody has taken away does not start over. -/
theorem restarts_le_invalidated (hc : ofSpec id s = .ok ⟨g, c₀⟩)
    (h : History (Bench.play act) ⟨c₀, b₀⟩ l b) :
    b.part.stats.restarts ≤ b.part.stats.invalidated ∧ ∀ x,
      (restarts (b, x) = true → (since begins l).any takesAccessLine = true) ∧
      ((since submits l).any takesAccessLine = false → restarts (b, x) = false) := by
  have htaken : ∀ x, restarts (b, x) = true → (since begins l).any takesAccessLine = true := by
    intro x hr
    cases hx : Bench.play act b x with
    | ok b' => exact takesAccessLine_of_lost hc h (lost_of_restarts hx hr)
    | error f =>
      rw [restarts, hx] at hr
      cases hr
  constructor
  · obtain ⟨-, rfl⟩ := ofSpec_eq_ok hc
    have hbalanced := (Bench.invariant (P := fun c => c.Tidy ∧ c.Balanced) h
      ⟨tidy_empty _ id, balanced_empty _ id⟩ balanced_act).2
    exact Nat.le_trans (Nat.le_add_right _ _) hbalanced.restarts
  · intro x
    refine ⟨htaken x, fun hn => Bool.eq_false_iff.mpr fun hr => ?_⟩
    obtain ⟨e, he, htake⟩ := List.any_eq_true.mp (htaken x hr)
    have hmem := mem_since (p := submits) (fun e hs => by rw [begins, hs, Bool.true_or]) he
    rw [List.any_eq_true.mpr ⟨e, hmem, htake⟩] at hn
    cases hn

/-- The awaited line is taken away, and the request starts over when the answer comes. -/
theorem restarts_le_invalidated_small : ∃ l b, ofSpec 0 smallSpec = .ok ⟨_, small⟩ ∧
    History (Bench.play act) ⟨small, .idle false⟩ l b ∧ restarts (b, .own .observe) = true ∧
    (since begins l).any takesAccessLine = true := by
  obtain ⟨l, b, h, hr⟩ := exists_history (Bench.play act) ⟨small, .idle false⟩
    [.own (.submit (.write ⟨0⟩ 7)), .own (.tick 0), .own (.tick 1), .own .snoop,
      .other (.begin 2), .other (.invalidate 1 ⟨0⟩), .own .snoop, .other (.begin 3),
      .other (.memoryResponse 0 ⟨0⟩ (some Block.zero))]
    (fun _ b => restarts (b, .own .observe) = true) (by decide +kernel)
  exact ⟨l, b, ofSpec_small, h, hr, ((restarts_le_invalidated ofSpec_small h).2 _).1 hr⟩

end Snooping.Cache
