import Snooping.Proofs.Cache.Bench
import Snooping.Proofs.Cache.Courses

/-!
# The age of a line

A line that is used gets a full counter, and loses a step with every lookup in its set that another
line is the reason for. Requests may start over and look their line up again, and peers may take
lines away meanwhile: nevertheless the counters tell how long ago the lines were used, and a new
line takes the place of the one that was used least recently.

* **`Cache.uses`**, **`Cache.looks`**, `Cache.lookups`: the calls that count.
* `Cache.Passes`, with `Cache.passes_play`: what a call does to the lines of others.
* `Cache.looked`, **`Cache.lookups_lt`**: of two lines, the one that was used later has seen fewer
  lookups.
* **`Cache.Counted`**, **`Cache.counted`**: the counter of a line tells its age.
* **`Cache.Chosen`**, `Cache.chosen`: the way for a new line.
* **`Cache.counters_exact`**: both, at any time.
-/

namespace Snooping.Cache

variable {g : Geometry}

/-! ## Uses and lookups -/

/-- The request that a call has ended. -/
def ended? (e : Bench (Cache g) × Bench.Call Act) : Option Request :=
  match e.2 with
  | .own (.tick now) => (e.1.part.tick e.1.bus now).done.map Completion.request
  | .own (.submit _) | .own .observe | .own .snoop | .other _ => none

/-- **A call uses a line**: it ends a request for the line with a tag in a set. -/
def uses (i : Fin g.sets) (t : Nat) (e : Bench (Cache g) × Bench.Call Act) : Bool :=
  (ended? e).any (·.isFor i t)

/-- **A call looks up** a line of a set. -/
def looks (i : Fin g.sets) (e : Bench (Cache g) × Bench.Call Act) : Bool :=
  match e.2 with
  | .own (.tick _) => e.1.part.access.any fun a => a.phase = .lookup && g.index a.request.addr = i
  | .own (.submit _) | .own .observe | .own .snoop | .other _ => false

/-- **The age of a line**: the lookups in its set since it was used. -/
def lookups (i : Fin g.sets) (t : Nat) (l : List (Bench (Cache g) × Bench.Call Act)) : Nat :=
  (since (uses i t) l).countP (looks i)

/-! ## What a call does -/

/-- **What a call does** to the request in progress and to the lines of others. -/
structure Passes (e : Bench (Cache g) × Bench.Call Act) (c' : Cache g) : Prop where
  /-- A line that the request is not about ages with every lookup in its set, and nothing else
  happens to it, unless it is given up. -/
  lines : ∀ i w, (c'.line i w).isLive →
    (∀ r, e.1.part.underWay = some r → r.isFor i (c'.line i w).tag = false) →
      (e.1.part.line i w).isLive ∧ (e.1.part.line i w).tag = (c'.line i w).tag ∧
        (c'.line i w).counter = (e.1.part.line i w).counter - (looks i e).toNat
  /-- A request that is in progress stays so until it ends. -/
  request : ended? e = none → ∀ r, e.1.part.underWay = some r → c'.underWay = some r
  /-- A request ends after its lookup, and its line was just used. -/
  ended : ∀ r, ended? e = some r →
    (∃ a, e.1.part.access = some a ∧ a.request = r ∧ a.phase ≠ .lookup) ∧ c'.underWay = none ∧
      ∀ i w, (c'.line i w).isLive → r.isFor i (c'.line i w).tag →
        (c'.line i w).counter = e.1.part.maxCounter
  /-- A request is past its lookup if it was before, or if this call looks its line up. -/
  phase : ∀ a', c'.access = some a' → a'.phase ≠ .lookup → ended? e = none ∧
    (looks (g.index a'.request.addr) e = true ∨
      ∃ a, e.1.part.access = some a ∧ a.request = a'.request ∧ a.phase ≠ .lookup)

section Passes

variable {c c' : Cache g} {bus : Bus}

theorem passes_submit {r : Request} (h : c.submit r = .ok c') :
    Passes (⟨c, bus⟩, .own (.submit r)) c' := by
  unfold submit at h
  split at h
  · next hi =>
    cases h
    have hn : c.access = none := Option.isNone_iff_eq_none.mp hi
    constructor
    case lines => exact fun i w hl _ => ⟨hl, rfl, rfl⟩
    case request =>
      intro _ r' hr
      rw [underWay, hn] at hr
      cases hr
    case ended =>
      intro r' hr
      cases hr
    case phase =>
      intro a' ha' hp
      cases ha'
      exact absurd rfl hp
  · cases h

theorem passes_snoop (c : Cache g) (bus : Bus) :
    Passes (⟨c, bus⟩, .own .snoop) (c.snoop bus).2.1 := by
  have hf := c.fades_snoop bus
  constructor
  case lines =>
    intro i w hl _
    obtain ⟨s, hs⟩ := c.line_snoop bus i w
    refine ⟨hf.isLive hl, (hf.tag i w).symm, ?_⟩
    rw [hs]
    rfl
  case request => exact fun _ r hr => hf.underWay.trans hr
  case ended =>
    intro r hr
    cases hr
  case phase =>
    intro a' ha' hp
    obtain ⟨a, ha, hr, hq⟩ := hf.access_eq_some ha'
    exact ⟨rfl, .inr ⟨a, ha, hr.symm, hq ▸ hp⟩⟩

theorem passes_observe (c : Cache g) (bus : Bus) :
    Passes (⟨c, bus⟩, .own .observe) (c.observe bus).2 := by
  have hx := c.heeds_observe bus
  constructor
  case lines =>
    intro i w hl hn
    have hline : (c.observe bus).2.line i w = c.line i w := by
      cases ha : c.access with
      | none => simp only [observe, ha]
      | some a => exact spares_observe ha bus i w hl (hn _ (underWay_of_access ha))
    rw [hline] at hl ⊢
    exact ⟨hl, rfl, rfl⟩
  case request => exact fun _ r hr => hx.underWay.trans hr
  case ended =>
    intro r hr
    cases hr
  case phase =>
    intro a' ha' hp
    refine ⟨rfl, .inr ?_⟩
    generalize (c.observe bus).2 = c' at hx ha'
    cases hx with
    | ignore => exact ⟨a', ha', rfl, hp⟩
    | contend =>
      obtain ⟨a, ha, hr, hq⟩ := c.fades_contend.access_eq_some ha'
      exact ⟨a, ha, hr.symm, hq ▸ hp⟩
    | written ha hq =>
      cases ha'
      exact ⟨_, ha, rfl, by simp [hq]⟩
    | install ha hq =>
      cases ha'
      exact ⟨_, ha, rfl, by simp [hq]⟩
    | restart ha hq =>
      cases ha'
      exact absurd rfl hp

theorem passes_lookUp {a : Access g.ways} (ha : c.access = some a) (hp : a.phase = .lookup)
    (now : Nat) : Passes (⟨c, bus⟩, .own (.tick now)) (c.tick bus now).cache := by
  have htick : c.tick bus now = c.lookUp a bus := by
    unfold tick
    rw [ha]
    simp only [hp]
  have hended : ended? (g := g) (⟨c, bus⟩, .own (.tick now)) = none := by
    simp only [ended?, htick]
    rfl
  have hlooks : ∀ i, looks (g := g) i (⟨c, bus⟩, .own (.tick now)) =
      decide (g.index a.request.addr = i) := by
    intro i
    simp [looks, ha, hp]
  rw [htick]
  constructor
  case lines =>
    intro i w hl hn
    have hfor := hn _ (underWay_of_access ha)
    have hline : (c.lookUp a bus).cache.line i w = _ := c.line_age (g.index a.request.addr) i
      (c.sets[g.index a.request.addr].find? (g.tag a.request.addr)) w
    rw [hlooks]
    rw [hline] at hl hfor ⊢
    split_ifs at hl hfor ⊢ with hv
    · rw [decide_eq_true hv.1]
      exact ⟨hl, rfl, rfl⟩
    · -- The line that was found in the set is the one of the request.
      have hi : g.index a.request.addr ≠ i := by
        rintro rfl
        have hfound := not_not.mp fun hne => hv ⟨rfl, hne⟩
        have htag := (carries_iff.mp (LineSet.carries_of_find? hfound)).2
        exact absurd hfor (by simp [Request.isFor, ← htag, line])
      rw [decide_eq_false hi]
      exact ⟨hl, rfl, rfl⟩
  case request => exact fun _ r hr => by rw [← hr, underWay_of_access ha]; rfl
  case ended =>
    intro r hr
    cases hended.symm.trans hr
  case phase =>
    intro a' ha' _
    refine ⟨hended, .inl ?_⟩
    cases ha'
    simp [hlooks]

theorem passes_tick (h : c.Tidy) (bus : Bus) (now : Nat) :
    Passes (⟨c, bus⟩, .own (.tick now)) (c.tick bus now).cache := by
  cases ha : c.access with
  | none =>
    have htick : c.tick bus now = c.sleep bus := by
      unfold tick
      rw [ha]
    have hended : ended? (g := g) (⟨c, bus⟩, .own (.tick now)) = none := by
      simp only [ended?, htick]
      rfl
    rw [htick]
    constructor
    case lines => exact fun i w hl _ => ⟨hl, rfl, by simp [looks, ha, sleep]⟩
    case request => exact fun _ r hr => hr
    case ended =>
      intro r hr
      cases hended.symm.trans hr
    case phase =>
      intro a' ha'
      cases ha.symm.trans ha'
  | some a =>
    -- Only a lookup makes lines older; a later turn changes the line of its own request at most.
    by_cases hp : a.phase = .lookup
    · exact passes_lookUp ha hp now
    have hspares := spares_tick h ha hp bus now
    have hlooks : ∀ i, looks (g := g) i (⟨c, bus⟩, .own (.tick now)) = false := by
      intro i
      simp [looks, ha, hp]
    have hdeed := c.deed_tick bus now
    constructor
    case lines =>
      intro i w hl hn
      have hline := hspares i w hl (hn _ (underWay_of_access ha))
      rw [hline] at hl ⊢
      rw [hlooks]
      exact ⟨hl, rfl, rfl⟩
    case request =>
      intro hn r hr
      obtain ⟨-, hu⟩ | ⟨k, hk, -⟩ := hdeed.underWay
      · exact hu.trans hr
      · simp [ended?, hk] at hn
    case ended =>
      intro r hr
      obtain ⟨k, hk, rfl⟩ := Option.map_eq_some_iff.mp hr
      obtain ⟨hn, -⟩ | ⟨k', hk', -, -, -, hu⟩ := hdeed.underWay
      · cases hn.symm.trans hk
      · obtain ⟨hacc, hfull⟩ := hdeed.full h hk
        exact ⟨hacc, hu, hfull⟩
    case phase =>
      intro a' ha' _
      obtain ⟨hn, hu⟩ | ⟨k, -, -, -, -, hu⟩ := hdeed.underWay
      · rw [underWay_of_access ha, underWay_of_access ha'] at hu
        exact ⟨by simp only [ended?, hn]; rfl, .inr ⟨a, ha, (Option.some.inj hu).symm, hp⟩⟩
      · rw [underWay_of_access ha'] at hu
        cases hu

end Passes

variable {b b' : Bench (Cache g)} {x : Bench.Call Act}
  {l : List (Bench (Cache g) × Bench.Call Act)}

theorem passes_play (ht : b.part.Tidy) (h : Bench.play act b x = .ok b') :
    Passes (b, x) b'.part := by
  cases x with
  | own y =>
    cases y with
    | submit r => exact passes_submit (submit_of_act (Bench.play_own h))
    | tick now =>
      cases h
      exact passes_tick ht b.bus now
    | observe =>
      cases h
      exact passes_observe b.part b.bus
    | snoop =>
      cases h
      exact passes_snoop b.part b.bus
  | other op =>
    cases h
    constructor
    case lines => exact fun i w hl _ => ⟨hl, rfl, rfl⟩
    case request => exact fun _ r hr => hr
    case ended =>
      intro r hr
      cases hr
    case phase => exact fun a' ha' hp => ⟨rfl, .inr ⟨a', ha', rfl, hp⟩⟩

/-! ## Ages -/

variable {i : Fin g.sets} {t t' : Nat} {e : Bench (Cache g) × Bench.Call Act}

theorem uses_eq_false (h : ended? e = none) : uses i t e = false := by
  rw [uses, h]
  rfl

theorem uses_unique (h : uses i t e = true) (hne : t ≠ t') : uses i t' e = false := by
  unfold uses at h ⊢
  obtain ⟨r, hr, hfor⟩ := (Option.any_eq_true _ _).mp h
  have ht : g.index r.addr = i ∧ g.tag r.addr = t := by simpa [Request.isFor] using hfor
  simp [hr, Request.isFor, ht, hne]

theorem lookups_concat (i : Fin g.sets) (t : Nat) (l : List (Bench (Cache g) × Bench.Call Act))
    (e : Bench (Cache g) × Bench.Call Act) :
    lookups i t (l ++ [e]) = if uses i t e then 0 else lookups i t l + (looks i e).toNat := by
  unfold lookups
  rw [since_concat]
  split_ifs
  · rfl
  · cases hl : looks i e <;> simp [hl]

section History

variable {s : Spec} {c₀ : Cache g} {id : Nat} {b₀ : Bus} (hc : ofSpec id s = .ok ⟨g, c₀⟩)
  (h : History (Bench.play act) ⟨c₀, b₀⟩ l b)

include hc h

/-- **A request that is past its lookup** was looked up since any line was used. -/
theorem looked {a : Access g.ways} (ha : b.part.access = some a) (hp : a.phase ≠ .lookup)
    (i : Fin g.sets) (t : Nat) :
    (since (uses i t) l).any (looks (g.index a.request.addr)) = true := by
  induction h generalizing a with
  | start =>
    obtain ⟨-, rfl⟩ := ofSpec_eq_ok hc
    cases ha
  | @call l b b' x h hx ih =>
    obtain ⟨hended, hlooks | ⟨a₀, ha₀, hr, hp₀⟩⟩ :=
      (passes_play (tidy_history hc h) hx).phase a ha hp
    · rw [since_concat, uses_eq_false hended]
      simp [hlooks]
    · rw [since_concat, uses_eq_false hended, ← hr]
      simp [ih ha₀ hp₀]

/-- **A line that was used later** has seen fewer lookups. -/
theorem lookups_lt (hu : (since (uses i t) l).any (uses i t') = true) :
    lookups i t' l < lookups i t l := by
  induction h with
  | start => cases hu
  | @call l b b' x h hx ih =>
    rw [since_concat] at hu
    rw [lookups_concat, lookups_concat]
    cases ht : uses i t (b, x) with
    | true =>
      rw [ht] at hu
      cases hu
    | false =>
      cases ht' : uses i t' (b, x) with
      | true =>
        -- The request that has ended was looked up after the other line was used.
        obtain ⟨r, hr, hfor⟩ := (Option.any_eq_true _ _).mp ht'
        obtain ⟨⟨a, ha, rfl, hp⟩, -⟩ := (passes_play (tidy_history hc h) hx).ended r hr
        have hlooked := looked hc h ha hp i t
        have hi : g.index a.request.addr = i ∧ g.tag a.request.addr = t' := by
          simpa [Request.isFor] using hfor
        rw [hi.1] at hlooked
        have hpos : 0 < lookups i t l := List.countP_pos_iff.mpr (List.any_eq_true.mp hlooked)
        rw [if_pos rfl, if_neg Bool.false_ne_true]
        omega
      | false =>
        rw [ht, if_neg Bool.false_ne_true, List.any_append, List.any_cons, ht'] at hu
        have := ih (by simpa using hu)
        rw [if_neg Bool.false_ne_true, if_neg Bool.false_ne_true]
        omega

end History

/-- **The counter of a line tells its age**: the line was used, and has lost a step with every
lookup in its set since. -/
structure Counted (m : Nat) (l : List (Bench (Cache g) × Bench.Call Act)) (c : Cache g)
    (i : Fin g.sets) (w : Fin g.ways) : Prop where
  used : l.any (uses i (c.line i w).tag) = true
  counter : (c.line i w).counter = m - lookups i (c.line i w).tag l

section History

variable {s : Spec} {c₀ : Cache g} {id : Nat} {b₀ : Bus} (hc : ofSpec id s = .ok ⟨g, c₀⟩)
  (h : History (Bench.play act) ⟨c₀, b₀⟩ l b) {w : Fin g.ways}

include hc h

theorem maxCounter_history : b.part.maxCounter = s.maxCounter.toNat := by
  obtain ⟨-, rfl⟩ := ofSpec_eq_ok hc
  exact (Bench.invariant h (recent_empty _ id) recent_act).maxCounter

/-- **The counters are exact**, but for the line of the request in progress. -/
theorem counted (hl : (b.part.line i w).isLive)
    (hn : ∀ r, b.part.underWay = some r → r.isFor i (b.part.line i w).tag = false) :
    Counted s.maxCounter.toNat l b.part i w := by
  induction h with
  | start =>
    obtain ⟨-, rfl⟩ := ofSpec_eq_ok hc
    rw [line_empty] at hl
    cases hl
  | @call l b b' x h hx ih =>
    have hpass := passes_play (tidy_history hc h) hx
    generalize ht : (b'.part.line i w).tag = t at hn
    cases hu : uses i t (b, x) with
    | true =>
      obtain ⟨r, hr, hfor⟩ := (Option.any_eq_true _ _).mp hu
      have hfull := (hpass.ended r hr).2.2 i w hl (ht ▸ hfor)
      refine ⟨by simp [ht, hu], ?_⟩
      rw [ht, lookups_concat, hu, if_pos rfl, hfull, maxCounter_history hc h]
      rfl
    | false =>
      have hn₀ : ∀ r, b.part.underWay = some r → r.isFor i t = false := by
        intro r hr
        cases he : ended? (b, x) with
        | none => exact hn r (hpass.request he r hr)
        | some k =>
          obtain ⟨⟨a, ha, rfl, -⟩, -⟩ := hpass.ended k he
          rw [underWay_of_access ha] at hr
          cases hr
          simpa [uses, he] using hu
      obtain ⟨hlive, htag, hcounter⟩ := hpass.lines i w hl (ht ▸ hn₀)
      obtain ⟨hused, hexact⟩ := ih hlive (by rwa [htag, ht])
      rw [htag, ht] at hused hexact
      refine ⟨by simp [ht, hused], ?_⟩
      rw [ht, lookups_concat, hu, if_neg Bool.false_ne_true, hcounter, hexact]
      show _ - (looks i (b, x)).toNat = _
      omega

end History

/-! ## The way for a new line -/

/-- **The way that a lookup chooses** when it does not find its line, where `c'` is the cache
afterwards. -/
structure Chosen (l : List (Bench (Cache g) × Bench.Call Act)) (c c' : Cache g) (i : Fin g.sets)
    (w : Fin g.ways) : Prop where
  /-- It is the first free one. -/
  free : (∃ v, (c.line i v).isLive = false) →
    (c.line i w).isLive = false ∧ ∀ v < w, (c.line i v).isLive = true
  /-- If none is free, every other line was used after the one that gives way, unless more than one
  of them is too old to be told apart. -/
  oldest : (∀ v, (c.line i v).isLive = true) →
    (∀ v v', (c'.line i v).counter = 0 → (c'.line i v').counter = 0 → v = v') →
      ∀ v, v ≠ w → (since (uses i (c.line i w).tag) l).any (uses i (c.line i v).tag) = true

theorem tick_of_not_holds {c : Cache g} {a : Access g.ways} (ha : c.access = some a)
    (hp : a.phase = .lookup) (hm : c.holds a.request.addr = false) (bus : Bus) (now : Nat) :
    c.tick bus now = ((c.age (g.index a.request.addr) none).enter a
      (.miss ((c.sets[g.index a.request.addr].age none).victim g.ways_pos))).goOn bus := by
  have hf : c.sets[g.index a.request.addr].find? (g.tag a.request.addr) = none :=
    Option.isNone_iff_eq_none.mp (by simpa [holds] using hm)
  unfold tick
  rw [ha]
  simp only [hp, lookUp, hf]
  rfl

section History

variable {s : Spec} {c₀ : Cache g} {id : Nat} {b₀ : Bus} (hc : ofSpec id s = .ok ⟨g, c₀⟩)
  (h : History (Bench.play act) ⟨c₀, b₀⟩ l b) {w : Fin g.ways}

include hc h

theorem counted_of_not_holds {a : Access g.ways} (ha : b.part.access = some a)
    (hm : b.part.holds a.request.addr = false)
    (hl : (b.part.line (g.index a.request.addr) w).isLive) :
    Counted s.maxCounter.toNat l b.part (g.index a.request.addr) w := by
  refine counted hc h hl fun r hr => ?_
  rw [underWay_of_access ha] at hr
  cases hr
  have hn : ¬ (b.part.line (g.index a.request.addr) w).carries (g.tag a.request.addr) :=
    lookup?_eq_none.mp (by simpa [lookup?, holds] using hm) w
  rw [carries_iff] at hn
  simpa [Request.isFor, eq_comm] using fun ht => hn ⟨hl, ht⟩

theorem chosen {a : Access g.ways} (ha : b.part.access = some a) (hp : a.phase = .lookup)
    (hm : b.part.holds a.request.addr = false) (now : Nat) :
    Chosen l b.part (b.part.tick b.bus now).cache (g.index a.request.addr)
      ((b.part.sets[g.index a.request.addr].age none).victim g.ways_pos) := by
  set i := g.index a.request.addr
  set s' := b.part.sets[i].age none with hs'
  have hset : ∀ v, s'[v] = (b.part.line i v).aged := by
    intro v
    rw [hs', LineSet.getElem_age, if_neg (Option.some_ne_none v).symm]
    rfl
  have hline : ∀ v, (b.part.tick b.bus now).cache.line i v = (b.part.line i v).aged := by
    intro v
    rw [tick_of_not_holds ha hp hm]
    exact (b.part.line_age i i none v).trans
      (if_pos ⟨rfl, (Option.some_ne_none v).symm⟩)
  have hlive : ∀ v, s'[v].isLive = (b.part.line i v).isLive := by
    intro v
    rw [hset]
    rfl
  constructor
  case free =>
    rintro ⟨v, hv⟩
    obtain ⟨hfree, hfirst⟩ := s'.victim_of_free g.ways_pos ⟨v, (hlive v).trans hv⟩
    exact ⟨(hlive _).symm.trans hfree, fun v hv => (hlive v).symm.trans (hfirst v hv)⟩
  case oldest =>
    intro hall hzero v hne
    have hexact : ∀ u, Counted s.maxCounter.toNat l b.part i u := fun u =>
      counted_of_not_holds hc h ha hm (hall u)
    have hle := s'.counter_victim_le g.ways_pos (fun u => (hlive u).trans (hall u)) v
    set w := s'.victim g.ways_pos
    have htag : (b.part.line i v).tag ≠ (b.part.line i w).tag := fun ht =>
      hne ((tidy_history hc h).distinct i v w (hall v) (hall w) ht)
    obtain hu | hu := any_since_or (fun e he => uses_unique he (Ne.symm htag)) (hexact w).used
      (hexact v).used
    · exact hu
    · -- Otherwise the way that was chosen is the younger one, and both counters are at zero.
      have hlt := lookups_lt hc h hu
      have hw := (hexact w).counter
      have hv := (hexact v).counter
      rw [hset, hset] at hle
      have hle : (b.part.line i w).counter - 1 ≤ (b.part.line i v).counter - 1 := hle
      refine absurd (hzero v w ?_ ?_) hne
      · rw [hline]
        show (b.part.line i v).counter - 1 = 0
        omega
      · rw [hline]
        show (b.part.line i w).counter - 1 = 0
        omega

/-- **The counters are exact**, whatever the peers do: the counter of every line but that of the
request in progress tells how many lookups there were in its set since it was used. A lookup that
does not find its line takes the first free way, or else the line that was used least recently. -/
theorem counters_exact :
    (∀ i w, (b.part.line i w).isLive →
      (∀ r, b.part.underWay = some r → r.isFor i (b.part.line i w).tag = false) →
        Counted s.maxCounter.toNat l b.part i w) ∧
    ∀ a now, b.part.access = some a → a.phase = .lookup → b.part.holds a.request.addr = false →
      ∃ w, (b.part.tick b.bus now).cache.access = some { a with phase := .miss w } ∧
        Chosen l b.part (b.part.tick b.bus now).cache (g.index a.request.addr) w := by
  refine ⟨fun i w => counted hc h, fun a now ha hp hm => ⟨_, ?_, chosen hc h ha hp hm now⟩⟩
  rw [tick_of_not_holds ha hp hm]
  rfl

end History

theorem counters_exact_small : ∃ l b, ofSpec 0 smallSpec = .ok ⟨_, small⟩ ∧
    History (Bench.play act) ⟨small, .idle false⟩ l b ∧
    (b.part.line 0 0).counter = 3 ∧ (b.part.line 0 1).counter = 4 ∧
    Counted 4 l b.part 0 0 ∧
    (since (uses 0 (b.part.line 0 0).tag) l).any (uses 0 (b.part.line 0 1).tag) = true := by
  obtain ⟨l, b, h, h0, h1, hlive, htag, hacc, hm, hmiss, hpos⟩ :=
    exists_history (Bench.play act) ⟨small, .idle false⟩
    [.own (.submit (.read ⟨0⟩)), .own (.tick 0), .own (.tick 1), .other (.begin 2),
      .other (.memoryResponse 0 ⟨0⟩ (some Block.zero)), .own .observe, .own (.tick 3),
      .own (.submit (.read ⟨32⟩)), .own (.tick 4), .other (.begin 5), .own (.tick 5),
      .other (.begin 6), .other (.memoryResponse 0 ⟨32⟩ (some Block.zero)), .own .observe,
      .own (.tick 7), .own (.submit (.read ⟨64⟩))]
    (fun _ b => (b.part.line 0 0).counter = 3 ∧ (b.part.line 0 1).counter = 4 ∧
      (∀ v, (b.part.line 0 v).isLive) ∧ (b.part.line 0 0).tag = 0 ∧
      b.part.access = some (.start (.read ⟨64⟩)) ∧
      b.part.holds ⟨64⟩ = false ∧
      (b.part.tick b.bus 8).cache.access.map Access.phase = some (.miss 0) ∧
      ∀ v, 0 < ((b.part.tick b.bus 8).cache.line 0 v).counter) (by decide +kernel)
  obtain ⟨hcounted, hchosen⟩ := counters_exact ofSpec_small h
  obtain ⟨w, hw, hx⟩ := hchosen _ 8 hacc rfl hm
  rw [hw] at hmiss
  cases hmiss
  refine ⟨l, b, ofSpec_small, h, h0, h1, hcounted 0 0 (hlive 0) fun r hr => ?_, ?_⟩
  · rw [underWay_of_access hacc] at hr
    cases hr
    rw [htag]
    decide
  · exact hx.oldest hlive (fun v v' hv => absurd hv (Nat.ne_of_gt (hpos v))) 1 (by decide)

end Snooping.Cache
