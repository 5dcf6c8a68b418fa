import Snooping.Proofs.Machine.Order

/-!
# Misses

A request counts as a miss just when its core has asked for its line, no matter how often it starts
over and how long another line has to be written back before.

* `Machine.fetches`: the lines that a core has asked for.
* `Search`, `Search.Steps`: a request in progress, and what a turn is for it;
  `Cache.Deed.search`: what the turn of its cache is.
* **`Explained`**: the requests of a core are told from what it has asked for, and
  **`Explained.step`**: they stay so.
* `Machine.Acts.searched`, `Machine.Aired.search_eq`: turns and broadcasts.
* **`Machine.Plays.explained`**: what holds in every state between steps.
-/

namespace Snooping

variable {g : Geometry} {n : Nat}

/-! ## Lines that are asked for -/

/-- The line that core `i` asks for with a transfer. -/
def Transfer.fetched (i : Nat) (t : Transfer) : Option Addr :=
  if t.func = .read ∧ t.requester = i then some t.addr else none

theorem Transfer.fetched_of_ne {t : Transfer} (h : t.func ≠ .read) (i : Nat) :
    t.fetched i = none := if_neg fun hx => h hx.1

namespace Bus

/-- The line that core `i` asks for on the bus. -/
def fetched (b : Bus) (i : Nat) : Option Addr := b.current.bind (Transfer.fetched i)

theorem fetched_of_none {b : Bus} (h : b.current = none) (i : Nat) : b.fetched i = none := by
  rw [fetched, h]
  rfl

theorem fetched_of_driven {b b' : Bus} {t : Transfer} (h : b.current = none)
    (h' : b'.current = some t) (i : Nat) :
    (b'.fetched i).toList = (b.fetched i).toList ++ (t.fetched i).toList := by
  rw [fetched_of_none h, fetched, h']
  rfl

end Bus

/-- **The lines that a core has asked for**, with their cycles. -/
def Machine.fetches (log : List (Nat × Option Transfer)) (i : Nat) : List (Nat × Addr) :=
  log.flatMap fun e => (e.2.bind (Transfer.fetched i)).toList.map (Prod.mk e.1)

theorem Machine.fetches_append (log : List (Nat × Option Transfer)) (t : Nat) (b : Bus) (i : Nat) :
    fetches (log ++ [(t, b.current)]) i =
      fetches log i ++ (b.fetched i).toList.map (Prod.mk t) := by
  rw [fetches, List.flatMap_append, List.flatMap_singleton]
  rfl

/-! ## Requests in progress -/

/-- The line was not found, and has not been asked for since. -/
def Phase.due {ways : Nat} : Phase ways → Bool
  | writeBack _ _ | awaitWriteBack _ _ | fill _ => true
  | lookup | hit _ | miss _ | upgrade _ | promote _ | awaitFill _ | installed _ => false

/-- **A request in progress**, as far as its misses are concerned. -/
structure Search where
  request : Request
  /-- A lookup did not find its line. -/
  missed : Bool
  /-- Its line is still to be asked for. -/
  due : Bool
  deriving DecidableEq

/-- **What a turn is for a request in progress**, with the line that is asked for and the request
that ends. -/
inductive Search.Steps (now : Nat) (o : Option Search) :
    Option Search → Option Addr → Option Completion → Prop
  | still : Steps now o o none none
  | start {r : Request} (ho : o = none) : Steps now o (some ⟨r, false, false⟩) none none
  /-- The line was not found. -/
  | miss {s : Search} {m : Bool} (ho : o = some s) (hm : m = true ∨ s.due = true ∧ m = s.missed) :
      Steps now o (some ⟨s.request, m, true⟩) none none
  /-- The line was not found, and is asked for. -/
  | ask {s : Search} {m : Bool} (ho : o = some s) (hm : m = true ∨ s.due = true ∧ m = s.missed) :
      Steps now o (some ⟨s.request, m, false⟩) (some s.request.addr.line) none
  | finish {s : Search} {r : Completion} (ho : o = some s) (hd : s.due = false)
      (hr : r.request = s.request) (hh : r.hit = !s.missed) (hc : r.cycle = now) :
      Steps now o none none (some r)

namespace Cache

/-- The request in progress, as far as its misses are concerned. -/
def search (c : Cache g) : Option Search := c.access.map fun a => ⟨a.request, a.missed, a.phase.due⟩

theorem search_of_access {c : Cache g} {a : Access g.ways} (h : c.access = some a) :
    c.search = some ⟨a.request, a.missed, a.phase.due⟩ := by
  rw [search, h]
  rfl

theorem search_of_phase {c : Cache g} {a : Access g.ways} (h : c.access = some a)
    {p : Phase g.ways} (hp : p.due = a.phase.due) :
    c.search = some ⟨a.request, a.missed, p.due⟩ := by
  rw [search_of_access h, hp]

section Deed

variable {c : Cache g} {a a' : Access g.ways} {w : Fin g.ways}

theorem due_of_three (h : a.phase = .hit w ∨ a.phase = .upgrade w ∨ a.phase = .installed w) :
    a.phase.due = false := by
  obtain h | h | h := h <;> rw [h] <;> rfl

theorem missed_of_filled (h : a.phase = .miss w ∨ a.phase.due = true)
    (hm : a'.missed = (a.missed || a.phase.isMiss)) :
    a'.missed = true ∨ a.phase.due = true ∧ a'.missed = a.missed := by
  obtain h | h := h
  · refine .inl ?_
    rw [hm, h]
    exact Bool.or_true _
  · refine .inr ⟨h, ?_⟩
    have hn : a.phase.isMiss = false := by
      revert h
      cases a.phase <;> first | exact fun _ => rfl | exact nofun
    rw [hm, hn, Bool.or_false]

theorem steps_miss (ha : c.access = some a) (hp : a.phase = .miss w ∨ a.phase.due = true)
    (hr : a'.request = a.request) (hm : a'.missed = (a.missed || a.phase.isMiss)) (now : Nat) :
    Search.Steps now c.search (some ⟨a'.request, a'.missed, true⟩) none none := by
  rw [hr]
  exact .miss (search_of_access ha) (missed_of_filled hp hm)

theorem steps_ask (ha : c.access = some a) (hp : a.phase = .miss w ∨ a.phase.due = true)
    (hr : a'.request = a.request) (hm : a'.missed = (a.missed || a.phase.isMiss)) (now : Nat) :
    Search.Steps now c.search (some ⟨a'.request, a'.missed, false⟩)
      (some a'.request.addr.line) none := by
  rw [hr]
  exact .ask (search_of_access ha) (missed_of_filled hp hm)

/-- **What the turn of a cache is for its request.** -/
theorem Deed.search {bus : Bus} {now : Nat} {x : Turn g} (h : c.Deed bus now x) :
    ∃ asked, Search.Steps now c.search x.cache.search asked x.done ∧
      ∀ i, (x.bus.fetched i).toList =
        (bus.fetched i).toList ++ if c.id = i then asked.toList else [] := by
  -- Most turns ask for no line.
  have hquiet : ∀ {b : Bus}, (∀ i, (b.fetched i).toList = (bus.fetched i).toList) →
      ∀ i, (b.fetched i).toList =
        (bus.fetched i).toList ++ if c.id = i then (none : Option Addr).toList else [] :=
    fun hb i => by simp [hb i]
  have hdrive : ∀ {t : Transfer}, bus.grants .core → t.func ≠ .read →
      ∀ i, ((bus.drive t).fetched i).toList = (bus.fetched i).toList := fun hg hf i => by
    rw [Bus.fetched_of_driven (Bus.current_eq_none_of_grants hg) rfl, Transfer.fetched_of_ne hf,
      Option.toList_none, List.append_nil]
  have hsame : ∀ (a : Access g.ways) (p : Phase g.ways), c.access = some a → a.phase.due = false →
      p.due = false → Search.Steps now c.search (some ⟨a.request, a.missed, p.due⟩) none none :=
    fun a p ha hd hp => search_of_phase ha (hp.trans hd.symm) ▸ .still
  cases h with
  | sleep => exact ⟨none, .still, hquiet fun _ => rfl⟩
  | @look a hit w p ha hp hw =>
    refine ⟨none, hsame a p ha (by rw [hp]; rfl) ?_, hquiet fun _ => rfl⟩
    obtain ⟨rfl, -⟩ | rfl := hw <;> rfl
  | @restart a w ha hp =>
    exact ⟨none, hsame a .lookup ha (due_of_three hp) rfl, hquiet fun _ => rfl⟩
  | @take c₁ a w ha hp _ _ hg =>
    exact ⟨none, hsame a (.promote w) ha (due_of_three hp) rfl, hquiet (hdrive hg nofun)⟩
  | @yield c₁ a w ha hp =>
    exact ⟨none, hsame a (.upgrade w) ha (due_of_three hp) rfl, hquiet fun _ => rfl⟩
  | serve ha hp =>
    refine ⟨none, .finish (search_of_access ha) ?_ rfl rfl rfl, hquiet fun _ => rfl⟩
    obtain hp | hp | hp := hp <;> rw [hp] <;> rfl
  | @fetch a a' w ha hp _ _ hr hg hm =>
    have hp : a.phase = .miss w ∨ a.phase.due = true :=
      hp.imp_right fun hp => by obtain ⟨u, hp⟩ | hp := hp <;> rw [hp] <;> rfl
    refine ⟨some a'.request.addr.line, steps_ask ha hp hr hm now, fun i => ?_⟩
    rw [Bus.fetched_of_driven (Bus.current_eq_none_of_grants hg) rfl, Transfer.fetched, hr]
    by_cases hi : c.id = i <;> simp [hi]
  | @ask a a' w ha hp _ _ hr _ hm =>
    have hp : a.phase = .miss w ∨ a.phase.due = true :=
      hp.imp_right fun hp => by obtain ⟨u, hp⟩ | hp := hp <;> rw [hp] <;> rfl
    exact ⟨none, steps_miss ha hp hr hm now, hquiet fun _ => rfl⟩
  | @evict a a' w u ha hp _ hr hg hm =>
    have hp : a.phase = .miss w ∨ a.phase.due = true := hp.imp_right fun hp => by rw [hp]; rfl
    exact ⟨none, steps_miss ha hp hr hm now, hquiet (hdrive hg nofun)⟩
  | @hold a a' w u ha hp hr _ hm =>
    have hp : a.phase = .miss w ∨ a.phase.due = true := hp.imp_right fun hp => by rw [hp]; rfl
    exact ⟨none, steps_miss ha hp hr hm now, hquiet fun _ => rfl⟩

end Deed

theorem search_snoop (c : Cache g) (bus : Bus) : (c.snoop bus).2.1.search = c.search := by
  unfold snoop
  split
  · rfl
  · split
    · rfl
    · split
      · rfl
      · split
        · rfl
        · unfold react
          split
          · split
            · simp only [search, contend, Option.map_map]
              rfl
            · unfold shareLine
              dsimp only
              split <;> rfl
          · rfl

/-- An answer is not what a miss is told from: a line that has been written back is still to be
asked for, and one that was asked for is not asked for until the next lookup. -/
theorem Heeds.search {c c' : Cache g} (h : c.Heeds c') : c'.search = c.search := by
  cases h with
  | ignore => rfl
  | contend =>
    simp only [Cache.search, Cache.contend, Option.map_map]
    rfl
  | @written a w u ha hp => exact (search_of_phase ha (p := .fill w) (by rw [hp]; rfl)).symm
  | @install a w l ha hp => exact (search_of_phase ha (p := .installed w) (by rw [hp]; rfl)).symm
  | @restart a w ha hp => exact (search_of_phase ha (p := .lookup) (by rw [hp]; rfl)).symm

end Cache

/-! ## Requests that have ended -/

/-- A cycle comes after these requests have ended. -/
def After (done : List Completion) (t : Nat) : Prop := ∀ r ∈ done, r.cycle < t

/-- A cycle comes while request `r` is in progress, since `done` have ended before it. -/
def During (done : List Completion) (r : Completion) (t : Nat) : Prop := After done t ∧ t < r.cycle

/-- A cycle comes while one of these requests is in progress. -/
def Charged (done : List Completion) (t : Nat) : Prop :=
  ∃ before r after, done = before ++ r :: after ∧ During before r t

/-- **A miss is told from what was asked for**: the request has missed just when its core has asked
for a line while it was in progress, and then for no line but its own. -/
structure Completion.Explained (asked : List (Nat × Addr)) (done : List Completion)
    (r : Completion) : Prop where
  missed : r.hit = false ↔ ∃ e ∈ asked, During done r e.1
  line : ∀ e ∈ asked, During done r e.1 → e.2 = r.request.addr.line

/-- **The requests of a core are told from what it has asked for**: those that have ended, and the
one in progress. -/
structure Explained (asked : List (Nat × Addr)) (o : Option Search) (done : List Completion) :
    Prop where
  idle : o = none → ∀ e ∈ asked, ¬ After done e.1
  missed : ∀ s, o = some s → (s.missed = true ↔ s.due = true ∨ ∃ e ∈ asked, After done e.1)
  line : ∀ s, o = some s → ∀ e ∈ asked, After done e.1 → e.2 = s.request.addr.line
  ended : ∀ before r after, done = before ++ r :: after → r.Explained asked before
  charged : ∀ e ∈ asked, Charged done e.1 ∨ After done e.1
  /-- The core has gone on after each of them. -/
  timely : ∀ r ∈ done, r.cycle + 1 < UInt64.size

theorem Completion.Explained.later {asked asked' : List (Nat × Addr)} {done : List Completion}
    {r : Completion} (h : r.Explained asked done) (hlate : ∀ e ∈ asked', r.cycle ≤ e.1) :
    r.Explained (asked ++ asked') done := by
  have hmem : ∀ {e}, e ∈ asked ++ asked' → During done r e.1 → e ∈ asked := fun he hd =>
    (List.mem_append.mp he).resolve_right fun hx => Nat.not_le_of_lt hd.2 (hlate _ hx)
  refine ⟨h.missed.trans ⟨fun ⟨e, he, hd⟩ => ⟨e, List.mem_append_left _ he, hd⟩,
    fun ⟨e, he, hd⟩ => ⟨e, hmem he hd, hd⟩⟩, fun e he hd => h.line e (hmem he hd) hd⟩

section Step

variable {asked : List (Nat × Addr)} {o o' : Option Search} {done : List Completion} {now : Nat}
  {x : Option Addr} {y : Option Completion} {s : Search}

namespace Explained

theorem start (h : Explained asked none done) (r : Request) :
    Explained asked (some ⟨r, false, false⟩) done := by
  have hidle := h.idle rfl
  refine ⟨nofun, fun s hs => ?_, fun s hs e he ha => absurd ha (hidle e he), h.ended, h.charged,
    h.timely⟩
  cases hs
  exact iff_of_false Bool.false_ne_true fun hx =>
    hx.elim Bool.false_ne_true fun ⟨e, he, ha⟩ => hidle e he ha

theorem miss (h : Explained asked (some s) done) :
    Explained asked (some ⟨s.request, true, true⟩) done := by
  refine ⟨nofun, fun s hs => ?_, fun s' hs => ?_, h.ended, h.charged, h.timely⟩
  · cases hs
    exact iff_of_true rfl (.inl rfl)
  · cases hs
    exact h.line s rfl

theorem ask (h : Explained asked (some s) done) (hlast : After done now) :
    Explained (asked ++ [(now, s.request.addr.line)]) (some ⟨s.request, true, false⟩) done := by
  refine ⟨nofun, fun s hs => ?_, fun s' hs e he ha => ?_, fun before r after he => ?_,
    fun e he => ?_, h.timely⟩
  · cases hs
    exact iff_of_true rfl (.inr ⟨_, List.mem_concat_self, hlast⟩)
  · cases hs
    obtain he | he := List.mem_append.mp he
    · exact h.line s rfl e he ha
    · rw [List.mem_singleton.mp he]
  · refine (h.ended before r after he).later fun e hx => ?_
    rw [List.mem_singleton.mp hx]
    exact Nat.le_of_lt (hlast r (by rw [he]; simp))
  · obtain he | he := List.mem_append.mp he
    · exact h.charged e he
    · rw [List.mem_singleton.mp he]
      exact .inr hlast

/-- All that was asked for since the last request has ended was for the one that ends now. -/
theorem ends (h : Explained asked (some s) done) {r : Completion} (hd : s.due = false)
    (hr : r.request = s.request) (hh : r.hit = !s.missed)
    (hbefore : ∀ e ∈ asked, e.1 < r.cycle) : r.Explained asked done := by
  have hduring : ∀ e ∈ asked, During done r e.1 ↔ After done e.1 := fun e he =>
    and_iff_left (hbefore e he)
  refine ⟨?_, fun e he hx => ?_⟩
  · rw [hh, Bool.not_eq_false', h.missed s rfl, hd]
    simp only [Bool.false_eq_true, false_or]
    exact exists_congr fun e => and_congr_right fun he => (hduring e he).symm
  · rw [hr]
    exact h.line s rfl e he hx.1

theorem finish (h : Explained asked (some s) done) {r : Completion}
    (hends : r.Explained asked done) (hbefore : ∀ e ∈ asked, e.1 < r.cycle)
    (hnow : r.cycle + 1 < UInt64.size) : Explained asked none (done ++ [r]) := by
  refine ⟨fun _ e he ha => ?_, nofun, nofun, fun before x after hx => ?_, fun e he => .inl ?_,
    fun x hx => ?_⟩
  · have := ha r List.mem_concat_self
    have := hbefore e he
    omega
  · obtain rfl | ⟨after, y, rfl⟩ := List.eq_nil_or_concat after
    · obtain ⟨rfl, hy⟩ := List.append_inj' hx rfl
      cases hy
      exact hends
    · have hx : done ++ [r] = (before ++ x :: after) ++ [y] := by simpa using hx
      exact h.ended before x after (List.append_inj' hx rfl).1
  · obtain ⟨before, x, after, rfl, hx⟩ | hx := h.charged e he
    · exact ⟨before, x, after ++ [r], by simp, hx⟩
    · exact ⟨done, r, [], rfl, hx, hbefore e he⟩
  · obtain hx | hx := List.mem_append.mp hx
    · exact h.timely x hx
    · rw [List.mem_singleton.mp hx]
      exact hnow

/-- **A turn keeps the requests of a core told** from what it has asked for. What it asks for and
what it ends is the first of its kind in this cycle. -/
theorem step (h : Explained asked o done) (hs : Search.Steps now o o' x y)
    (hdone : x ≠ none ∨ y ≠ none → After done now)
    (hasked : y ≠ none → ∀ e ∈ asked, e.1 < now) (hnow : y ≠ none → now + 1 < UInt64.size) :
    Explained (asked ++ x.toList.map (Prod.mk now)) o' (done ++ y.toList) := by
  have hmissed : ∀ {s m}, o = some s → (m = true ∨ s.due = true ∧ m = s.missed) → m = true :=
    fun {s m} ho hm => hm.elim id fun ⟨hd, he⟩ => he.trans ((h.missed s ho).mpr (.inl hd))
  cases hs with
  | still => simpa using h
  | @start r ho =>
    subst ho
    simpa using h.start r
  | @miss s m ho hm =>
    obtain rfl := hmissed ho hm
    subst ho
    simpa using h.miss
  | @ask s m ho hm =>
    obtain rfl := hmissed ho hm
    subst ho
    simpa using h.ask (hdone (.inl nofun))
  | @finish s r ho hd hr hh hc =>
    subst ho hc
    have hbefore := hasked nofun
    simpa using h.finish (h.ends hd hr hh hbefore) hbefore (hnow nofun)

end Explained

end Step

namespace Machine

/-! ## Turns and broadcasts -/

/-- **What a turn is for core `j`**: it asks for a line or ends a request only if it is the turn of
its cache. -/
structure Searched (m m' : Machine g n) (p : Agent (Fin n)) (j : Fin n) (x : Option Addr)
    (y : Option Completion) : Prop where
  steps : Search.Steps m.now m.caches[j].search m'.caches[j].search x y
  bus : (m'.bus.fetched j).toList = (m.bus.fetched j).toList ++ x.toList
  completed : m'.cores[j].completed.toList = m.cores[j].completed.toList ++ y.toList
  turn : x ≠ none ∨ y ≠ none → p = .cache j
  bounded : y ≠ none → m.now + 1 < UInt64.size

section Turn

variable {m m' : Machine g n} {p : Agent (Fin n)} {i : Fin n}

theorem searched_still {j : Fin n} (hc : m'.caches[j].search = m.caches[j].search)
    (hb : (m'.bus.fetched j).toList = (m.bus.fetched j).toList)
    (hk : m'.cores[j].completed = m.cores[j].completed) : ∃ x y, m.Searched m' p j x y :=
  ⟨none, none, hc ▸ .still, by simpa using hb, by simp [hk], by simp, by simp⟩

theorem searched_cache {t : Turn g} (ht : m.caches[i].tick m.bus m.now = t)
    (hi : m.caches[i].id = i) (hc : m'.caches = m.caches.put i t.cache) (hb : m'.bus = t.bus)
    (hk : ∀ j : Fin n, m'.cores[j].completed.toList =
      m.cores[j].completed.toList ++ if j = i then t.done.toList else [])
    (hl : t.done ≠ none → m.now + 1 < UInt64.size) (j : Fin n) :
    ∃ x y, m.Searched m' (.cache i) j x y := by
  obtain ⟨asked, hs, hbus⟩ := (m.caches[i].deed_tick m.bus m.now).search
  rw [ht, hi] at hbus
  rw [ht] at hs
  have hbus := hbus j
  have hkept := hk j
  by_cases hj : j = i
  · subst hj
    rw [if_pos rfl] at hbus hkept
    refine ⟨asked, t.done, ?_, hb ▸ hbus, hkept, fun _ => rfl, hl⟩
    rw [hc, Vector.getElem_put_self]
    exact hs
  · rw [if_neg fun he => hj (Fin.ext he.symm), List.append_nil] at hbus
    rw [if_neg hj, List.append_nil] at hkept
    refine searched_still ?_ (hb ▸ hbus) (Array.toList_inj.mp hkept)
    rw [hc, Vector.getElem_put_of_ne _ _ hj]

theorem searched_issue {r : Request} (hi : m.caches[i].access = none)
    (hc : m'.caches = m.caches.put i { m.caches[i] with access := some (.start r) })
    (hb : m'.bus = m.bus) {j : Fin n} (hk : m'.cores[j].completed = m.cores[j].completed) :
    ∃ x y, m.Searched m' (.core i) j x y := by
  have hnone : m.caches[i].search = none := by
    rw [Cache.search, hi]
    rfl
  by_cases hj : j = i
  · subst hj
    refine ⟨none, none, ?_, by simp [hb], by simp [hk], by simp, by simp⟩
    rw [hc, Vector.getElem_put_self]
    exact .start hnone
  · refine searched_still ?_ (by rw [hb]) hk
    rw [hc, Vector.getElem_put_of_ne _ _ hj]

theorem completed_receive (m : Machine g n) (i : Fin n) (r : Completion) (j : Fin n) :
    (m.cores.put i (m.cores[i].receive r))[j].completed.toList =
      m.cores[j].completed.toList ++ if j = i then [r] else [] := by
  by_cases hj : j = i
  · subst hj
    rw [Vector.getElem_put_self, if_pos rfl, Core.receive, Array.toList_push]
  · rw [Vector.getElem_put_of_ne _ _ hj, if_neg hj, List.append_nil]

/-- **What a turn is for every core.** -/
theorem Acts.searched (ha : m.Acts p m') (hm : m.Sound) (j : Fin n) :
    ∃ x y, m.Searched m' p j x y := by
  have hdriven : ∀ {b : Bus} {t : Transfer}, m.bus.current = none → b.current = some t →
      t.func ≠ .read → (b.fetched j).toList = (m.bus.fetched j).toList := fun hn hc hf => by
    rw [Bus.fetched_of_driven hn hc, Transfer.fetched_of_ne hf, Option.toList_none,
      List.append_nil]
  have hkept : ∀ {i : Fin n} {k : Core}, k.completed = m.cores[i].completed →
      (m.cores.put i k)[j].completed = m.cores[j].completed := fun {i k} hk =>
    Vector.forall_put (P := fun (j : Fin n) (k : Core) => k.completed = m.cores[j].completed) hk
      (fun _ => rfl) j
  cases ha with
  | @send i k rest hq hb hl =>
    have hread : Bus.forwardFunc k.state ≠ .read :=
      Func.ne_of_isAnswer (Bus.isAnswer_forwardFunc k.state) rfl
    exact searched_still rfl (hdriven hb rfl hread) rfl
  | answer ho hf hb hl => exact searched_still rfl (hdriven hb rfl nofun) rfl
  | @halt i hp =>
    exact searched_still rfl rfl
      (hkept (i := i) (k := { m.cores[i] with activity := .done, doneAt := some m.now }) rfl)
  | @work i d rest hp hl =>
    exact searched_still rfl rfl (hkept (i := i) (k := { m.cores[i] with
      activity := .busy
      program := rest
      otherCycles := m.cores[i].otherCycles + Core.duration d }) rfl)
  | @issue i x rest r hp hr hi =>
    have hcore := hkept (i := i)
      (k := { m.cores[i] with activity := .waiting, program := rest }) rfl
    refine searched_issue (r := r) hi ?_ ?_ hcore
    · rfl
    · rfl
  | @proceed i c bus ht hb hs hs' hl =>
    exact searched_cache ht (hm.number i) rfl rfl (fun j => by simp [Cache.goOn]; rfl)
      (fun hx => absurd rfl hx) j
  | @await i c bus ht hb hs hs' =>
    exact searched_cache ht (hm.number i) rfl rfl (fun j => by simp [Cache.sleep]; rfl)
      (fun hx => absurd rfl hx) j
  | @finish i c r ht hs hs' hl =>
    refine searched_cache ht (hm.number i) ?_ ?_ (m.completed_receive i r) (fun _ => hl) j
    · rfl
    · rfl
  | _ => exact searched_still rfl rfl rfl

theorem Aired.search_eq (h : m.Aired m') (j : Fin n) :
    m'.caches[j].search = m.caches[j].search := by
  rw [(h.heeds j).search, Cache.search_snoop]

end Turn

/-! ## Runs -/

/-- **The requests of all cores are told** from what they have asked for. -/
def Explained (log : List (Nat × Option Transfer)) (m : Machine g n) : Prop :=
  ∀ j : Fin n,
    Snooping.Explained (fetches log j) m.caches[j].search m.cores[j].completed.toList

section Run

variable {m m' x : Machine g n} {log : List (Nat × Option Transfer)} {t : Nat}
  {l : List (Agent (Fin n))}

theorem Awake.explained {k : Nat} {y y' : Machine g n} {p : Agent (Fin n)}
    {q : WakeQueue (Agent (Fin n))} (hy : Awake k y) (hq : y.queue.fetch = .ok (some (p, q)))
    (hk : k ≤ p.slot) (ha : { y with queue := q }.Acts p y') (hlog : ∀ e ∈ log, e.1 < y.now)
    (hp : y.Explained (log ++ [(y.now, y.bus.current)])) :
    y'.Explained (log ++ [(y.now, y'.bus.current)]) := fun j => by
  obtain ⟨a, b, hsearched⟩ := ha.searched (hy.sound.congr rfl rfl rfl rfl) j
  have hnow : q.now = y.now := WakeQueue.now_of_fetch hq
  have hsteps : Search.Steps q.now y.caches[j].search y'.caches[j].search a b := hsearched.steps
  have hbus : (y'.bus.fetched j).toList = (y.bus.fetched j).toList ++ a.toList := hsearched.bus
  have hcompleted : y'.cores[j].completed.toList = y.cores[j].completed.toList ++ b.toList :=
    hsearched.completed
  have hbounded : b ≠ none → q.now + 1 < UInt64.size := hsearched.bounded
  rw [hnow] at hsteps hbounded
  rw [hcompleted, fetches_append, hbus, List.map_append, ← List.append_assoc, ← fetches_append]
  refine (hp j).step hsteps (fun hab => hy.completed_lt (hsearched.turn hab ▸ hk))
    (fun hb e he => ?_) hbounded
  -- The cache has had no turn before in this cycle, so that it has asked for nothing.
  have hfree : y.bus.fetched j = none := by
    cases hc : y.bus.current with
    | none => exact Bus.fetched_of_none hc j
    | some u =>
      rw [Bus.fetched, hc]
      refine if_neg fun ⟨hf, hu⟩ => ?_
      have hlt := hy.fresh j ⟨u, hc, hu, by rw [hf]; rfl⟩
      rw [hsearched.turn (.inr hb)] at hk
      omega
  rw [fetches_append, hfree, Option.toList_none, List.map_nil, List.append_nil] at he
  obtain ⟨c, hc, hmem⟩ := List.mem_flatMap.mp he
  obtain ⟨a, -, rfl⟩ := List.mem_map.mp hmem
  exact hlog c hc

/-- **A cycle keeps the requests of all cores told** from what they have asked for. -/
theorem Round.explained (h : m.Round t l x m') (h₀ : Awake 0 (m.started t))
    (hlog : ∀ e ∈ log, e.1 < t) (hm : m.Explained log) :
    m'.Explained (log ++ [(t, m'.bus.current)]) := by
  have hstart : (m.started t).Explained (log ++ [(t, (m.started t).bus.current)]) := fun j => by
    rw [fetches_append, Bus.fetched_of_none (by rfl), Option.toList_none, List.map_nil,
      List.append_nil]
    exact hm j
  obtain ⟨k, -, ⟨-, hx⟩, -⟩ := h.within.induct h₀
    (P := fun _ y => y.now = t ∧ y.Explained (log ++ [(t, y.bus.current)])) ⟨rfl, hstart⟩
    fun hy ⟨hnow, hp⟩ hq hk ha ht => by
      subst hnow
      exact ⟨ht.now.trans (WakeQueue.now_of_fetch hq), hy.explained hq hk ha hlog hp⟩
  rw [h.aired.current_eq]
  intro j
  rw [h.aired.search_eq, h.aired.cores]
  exact hx j

theorem explained_boot (spec : Spec) (programs : Vector Program n) :
    (boot g spec programs).Explained [] := fun j => by
  rw [cache_boot, core_boot]
  exact ⟨fun _ => nofun, nofun, nofun, fun _ _ _ hx => absurd hx (by simp [Core.start]), nofun,
    nofun⟩

end Run

/-- **What was asked for tells the misses** in every state between steps. -/
theorem Plays.explained {spec : Spec} {programs : List Program} {m₀ m : Machine g programs.length}
    {log : List (Nat × Option Transfer)} (h : ofSpec spec programs = .ok ⟨g, m₀⟩)
    (hl : m₀.Plays log m) : m.Explained log := by
  obtain ⟨-, -, h₀⟩ := ofSpec_eq_ok.mp h
  obtain ⟨t, -, -, hx⟩ := hl.induct (ready_start h)
    (P := fun t log m => (∀ e ∈ log, e.1 < t) ∧ m.Explained log) ⟨nofun, h₀ ▸ explained_boot spec _⟩
    fun {t₁ log y t l x y'} hready ⟨hlog, hy⟩ ht hround => by
      obtain ⟨e, he, rfl⟩ := WakeQueue.mem_of_nextTime ht
      have hlt : ∀ c ∈ log, c.1 < e.1 := fun c hc =>
        Nat.lt_of_lt_of_le (hlog c hc) (hready.later e he)
      refine ⟨fun c hc => ?_, hround.explained (awake_started hready ht) hlt hy⟩
      obtain hc | hc := List.mem_append.mp hc
      · exact Nat.lt_succ_of_lt (hlt c hc)
      · rw [List.mem_singleton.mp hc]
        exact Nat.lt_succ_self _
  exact hx

end Machine

end Snooping
