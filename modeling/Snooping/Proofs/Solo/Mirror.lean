import Mathlib.Data.List.Perm.Subperm
import Snooping.Cache.Basic
import Snooping.Proofs.Solo.Ideal

/-!
# Ways and counters

The ways and counters of a set stand for the order in which its lines were accessed. Counters tell
the order as long as none of them has sunk to zero, which takes more lookups than a full counter has
steps.

* **`LineSet.Tracks`**: the ways of a set in the order of their counters hold the lines that were
  accessed last.
* `LineSet.Tracks.find?_isSome_iff`: an access is found if the ideal cache has its line.
* `LineSet.Tracks.victim_cases`: the way for a new line is free, or that of the line to be evicted.
* **`LineSet.Tracks.touch`**: a served access goes to the front of the order.
* **`Cache.Mirrors`**: all sets of a cache, with `Cache.Mirrors.serve`.
-/

namespace Snooping

variable {g : Geometry} {i : Fin g.sets}

namespace LineSet

/-! ## One set -/

/-- **A set holds the lines that were accessed last**: `order` lists the ways that are taken, the
last used one first. -/
structure Tracks (s : LineSet g.ways) (i : Fin g.sets) (order : List (Fin g.ways))
    (max visits : Nat) (lines : List Nat) (written : Nat → Bool) : Prop where
  nodup : order.Nodup
  lines : order.map (fun w => g.lineIn i s[w].tag) = lines.take g.ways
  newer : order.Pairwise fun v w => s[w].counter < s[v].counter
  counter : ∀ w ∈ order, s[w].counter ≤ max ∧ max ≤ s[w].counter + visits
  state : ∀ w ∈ order, s[w].state =
    if written (g.lineIn i s[w].tag) then .modified else .exclusive
  free : ∀ w, w ∉ order → s[w].state = .invalid

theorem tracks_empty (i : Fin g.sets) (max : Nat) (written : Nat → Bool) :
    (empty g.ways).Tracks i [] max 0 [] written where
  nodup := .nil
  lines := by simp
  newer := .nil
  counter := nofun
  state := nofun
  free w _ := by simp [empty, Line.free]

/-- The way that a lookup finds or chooses. -/
def placeFor (s : LineSet g.ways) (tag : Nat) : Fin g.ways :=
  (s.find? tag).getD ((s.age none).victim g.ways_pos)

namespace Tracks

variable {s s' : LineSet g.ways} {order : List (Fin g.ways)} {max visits : Nat} {lines : List Nat}
  {written written' : Nat → Bool} {tag : Nat} {w : Fin g.ways}

theorem mem_iff_isLive (h : s.Tracks i order max visits lines written) (w : Fin g.ways) :
    w ∈ order ↔ s[w].isLive := by
  constructor
  · intro hw
    rw [Line.isLive, h.state w hw]
    split_ifs <;> rfl
  · intro hw
    by_contra hn
    rw [Line.isLive, h.free w hn] at hw
    simp at hw

theorem nodup_lines (h : s.Tracks i order max visits lines written) (hl : lines.Nodup) :
    (order.map fun w => g.lineIn i s[w].tag).Nodup := by
  rw [h.lines]
  exact hl.sublist (List.take_sublist _ _)

theorem mem_of_find? (h : s.Tracks i order max visits lines written) (hw : s.find? tag = some w) :
    w ∈ order ∧ s[w].tag = tag := by
  have hc := carries_of_find? hw
  rw [Line.carries, Bool.and_eq_true, decide_eq_true_eq] at hc
  exact ⟨(h.mem_iff_isLive w).mpr hc.1, hc.2⟩

/-- **A line is found if it is one of those that were accessed last.** -/
theorem find?_isSome_iff (h : s.Tracks i order max visits lines written) (tag : Nat) :
    (s.find? tag).isSome ↔ g.lineIn i tag ∈ lines.take g.ways := by
  rw [← h.lines, List.mem_map]
  constructor
  · intro hs
    obtain ⟨w, hw⟩ := Option.isSome_iff_exists.mp hs
    obtain ⟨hmem, rfl⟩ := h.mem_of_find? hw
    exact ⟨w, hmem, rfl⟩
  · rintro ⟨w, hw, he⟩
    by_contra hn
    rw [Option.not_isSome_iff_eq_none, find?, first?_eq_none] at hn
    refine hn w ?_
    rw [Line.carries, (h.mem_iff_isLive w).mp hw, g.lineIn_injective i he]
    simp

/-! ## The way for a new line -/

theorem counter_pos (h : s.Tracks i order max visits lines written) (hv : visits < max)
    (hw : w ∈ order) : 0 < s[w].counter := by
  have := (h.counter w hw).2
  omega

theorem victim_cases (h : s.Tracks i order max visits lines written) (hv : visits < max) :
    ((s.age none).victim g.ways_pos ∉ order ∧ order.length < g.ways) ∨
      (order.length = g.ways ∧
        ∃ init, order = init ++ [(s.age none).victim g.ways_pos]) := by
  have hage : ∀ w : Fin g.ways, (s.age none)[w] = s[w].aged := fun w => by
    rw [getElem_age, if_neg (Option.some_ne_none w).symm]
  have hlive : ∀ w : Fin g.ways, (s.age none)[w].isLive = s[w].isLive := fun w => by
    rw [hage]
    rfl
  rw [victim]
  cases hf : (s.age none).first? (!·.isLive) with
  | some w =>
    left
    rw [Option.getD_some]
    have hw : w ∉ order := fun hw => by
      have hfree := (first?_eq_some hf).1
      rw [hlive, (h.mem_iff_isLive w).mp hw] at hfree
      cases hfree
    refine ⟨hw, ?_⟩
    have hnodup : (w :: order).Nodup := List.nodup_cons.mpr ⟨hw, h.nodup⟩
    have hle := (hnodup.subperm fun v _ => List.mem_finRange v).length_le
    rwa [List.length_cons, List.length_finRange] at hle
  | none =>
    right
    rw [Option.getD_none]
    have hall : ∀ w, w ∈ order := fun w => by
      have := first?_eq_none.mp hf w
      rw [hlive] at this
      exact (h.mem_iff_isLive w).mpr (by simpa using this)
    have hlen : order.length = g.ways := by
      have hle := (h.nodup.subperm fun w _ => List.mem_finRange w).length_le
      have hge := ((List.nodup_finRange g.ways).subperm fun w _ => hall w).length_le
      rw [List.length_finRange] at hle hge
      exact Nat.le_antisymm hle hge
    refine ⟨hlen, order.dropLast, ?_⟩
    have hne : order ≠ [] := List.ne_nil_of_mem (hall ⟨0, g.ways_pos⟩)
    -- All counters but that of the last way are larger than its own.
    have hlast : (s.age none).oldest g.ways_pos = order.getLast hne := by
      by_contra hold
      have hle := counter_oldest_le (s.age none) g.ways_pos (order.getLast hne)
      have hpairs := h.newer
      rw [← List.dropLast_append_getLast hne, List.pairwise_append] at hpairs
      have hmem := hall ((s.age none).oldest g.ways_pos)
      rw [← List.dropLast_append_getLast hne, List.mem_append, List.mem_singleton] at hmem
      have hlt := hpairs.2.2 _ (hmem.resolve_right hold) _ (List.mem_singleton_self _)
      have hpos := h.counter_pos hv (List.getLast_mem hne)
      simp only [hage, Line.aged] at hle
      omega
    rw [hlast, List.dropLast_append_getLast hne]

theorem state_victim (h : s.Tracks i order max visits lines written) (hv : visits < max) :
    s[(s.age none).victim g.ways_pos].state =
      match lines[g.ways - 1]? with
      | none => .invalid
      | some l => if written l then .modified else .exclusive := by
  have hpos := g.ways_pos
  have hlast : lines[g.ways - 1]? =
      (order.map fun w => g.lineIn i s[w].tag)[g.ways - 1]? := by
    rw [h.lines, List.getElem?_take_of_lt (by omega)]
  rw [hlast, List.getElem?_map]
  obtain ⟨hfree, hlen⟩ | ⟨hlen, init, he⟩ := h.victim_cases hv
  · rw [List.getElem?_eq_none (by omega)]
    exact h.free _ hfree
  · have hinit : g.ways - 1 = init.length := by
      rw [he, List.length_append, List.length_singleton] at hlen
      omega
    have hw : order[g.ways - 1]? = some ((s.age none).victim g.ways_pos) := by
      rw [hinit]
      exact he ▸ List.getElem?_concat_length
    rw [hw]
    exact h.state _ (List.mem_of_getElem? hw)

/-! ## Served accesses -/

theorem take_lines (h : s.Tracks i order max visits lines written) (hv : visits < max)
    (hl : lines.Nodup) (tag : Nat) :
    (g.lineIn i tag :: lines.filter (· ≠ g.lineIn i tag)).take g.ways =
      g.lineIn i tag :: (order.erase (s.placeFor tag)).map fun v => g.lineIn i s[v].tag := by
  have hpos := g.ways_pos
  have hfound := h.find?_isSome_iff tag
  rw [List.take_cons hpos]
  refine congrArg _ ?_
  rw [placeFor]
  cases hf : s.find? tag with
  | some w =>
    obtain ⟨hw, rfl⟩ := h.mem_of_find? hf
    rw [hf] at hfound
    rw [Ideal.take_filter_of_mem hl (hfound.mp rfl), ← h.lines, List.filter_map, Option.getD_some,
      h.nodup.erase_eq_filter]
    refine congrArg _ (List.filter_congr fun v hv' => ?_)
    -- Different ways have different lines.
    have hinj := List.inj_on_of_nodup_map (h.nodup_lines hl) hv' hw
    by_cases he : v = w
    · simp [he]
    · simp [he, mt hinj he]
  | none =>
    rw [hf] at hfound
    have hnot : g.lineIn i tag ∉ lines.take g.ways := fun hm => nomatch hfound.mpr hm
    rw [Ideal.take_filter_of_notMem fun hm => hnot (List.take_subset_take_left _ (by omega) hm),
      Option.getD_none]
    have hlines := h.lines
    obtain ⟨hfree, hlen⟩ | ⟨hlen, init, he⟩ := h.victim_cases hv
    · have hshort : lines.length < g.ways := by
        have := congrArg List.length hlines
        rw [List.length_map, List.length_take] at this
        omega
      rw [List.erase_of_not_mem hfree, hlines, List.take_of_length_le (by omega),
        List.take_of_length_le (by omega)]
    · have hnot : (s.age none).victim g.ways_pos ∉ init := by
        have := h.nodup
        rw [he, List.nodup_append] at this
        exact fun hm => this.2.2 _ hm _ (List.mem_singleton_self _) rfl
      have hinit : order.erase ((s.age none).victim g.ways_pos) = init := by
        generalize (s.age none).victim g.ways_pos = w at he hnot
        rw [he, List.erase_append_right _ hnot, List.erase_cons_head, List.append_nil]
      have hlen' : (lines.take g.ways).length = g.ways := by
        rw [← hlines, List.length_map, hlen]
      have hdrop := congrArg List.dropLast hlines
      rw [he, List.map_append, List.map_singleton, List.dropLast_concat, List.dropLast_eq_take,
        hlen', List.take_take, Nat.min_eq_left (Nat.sub_le _ _)] at hdrop
      rw [hinit, hdrop]

/-- **A served access goes to the front of the order**, whether its way was found or chosen. All
other ways have aged. -/
theorem touch (h : s.Tracks i order max visits lines written) (hv : visits < max)
    (hothers : ∀ v, v ≠ w → s'[v] = s[v].aged) (htag : s'[w].tag = tag)
    (hcounter : s'[w].counter = max)
    (hstate : s'[w].state = if written' (g.lineIn i tag) then .modified else .exclusive)
    {lines' : List Nat} (hlines : lines'.take g.ways =
      g.lineIn i tag :: (order.erase w).map fun v => g.lineIn i s[v].tag)
    (hwritten : ∀ l, l ≠ g.lineIn i tag → written' l = written l) (hl : lines'.Nodup) :
    s'.Tracks i (w :: order.erase w) max (visits + 1) lines' written' := by
  have hrest : ∀ v ∈ order.erase w, v ∈ order ∧ v ≠ w := fun v hv =>
    ⟨List.mem_of_mem_erase hv, ((List.Nodup.mem_erase_iff h.nodup).mp hv).1⟩
  have hmap : (order.erase w).map (fun v => g.lineIn i s'[v].tag) =
      (order.erase w).map fun v => g.lineIn i s[v].tag :=
    List.map_congr_left fun v hv => by rw [hothers v (hrest v hv).2, Line.aged]
  constructor
  case nodup =>
    rw [List.nodup_cons]
    exact ⟨fun hw => (hrest w hw).2 rfl, h.nodup.erase w⟩
  case lines => rw [List.map_cons, htag, hmap, hlines]
  case newer =>
    rw [List.pairwise_cons]
    refine ⟨fun v hv' => ?_, ?_⟩
    · obtain ⟨hmem, hne⟩ := hrest v hv'
      have hle := (h.counter v hmem).1
      have hpos := h.counter_pos hv hmem
      rw [hothers v hne, hcounter, Line.aged]
      dsimp only
      omega
    · refine (h.newer.sublist List.erase_sublist).imp_of_mem fun {u v} hu hv' hlt => ?_
      obtain ⟨hmem, hne⟩ := hrest v hv'
      have hpos := h.counter_pos hv hmem
      rw [hothers v hne, hothers u (hrest u hu).2, Line.aged, Line.aged]
      dsimp only
      omega
  case counter =>
    intro v hv'
    obtain rfl | hv' := List.mem_cons.mp hv'
    · rw [hcounter]
      omega
    · obtain ⟨hmem, hne⟩ := hrest v hv'
      have hbounds := h.counter v hmem
      have hpos := h.counter_pos hv hmem
      rw [hothers v hne, Line.aged]
      dsimp only
      omega
  case state =>
    intro v hv'
    obtain rfl | hv' := List.mem_cons.mp hv'
    · rw [htag, hstate]
    · obtain ⟨hmem, hne⟩ := hrest v hv'
      -- No other way has the line of the access.
      have hline : g.lineIn i s[v].tag ≠ g.lineIn i tag := fun he => by
        have hnodup := hl.sublist (List.take_sublist g.ways lines')
        rw [hlines, List.nodup_cons, List.mem_map] at hnodup
        exact hnodup.1 ⟨v, hv', he⟩
      rw [hothers v hne, Line.aged]
      dsimp only
      rw [h.state v hmem, hwritten _ hline]
  case free =>
    intro v hv'
    rw [List.mem_cons, not_or] at hv'
    have hmem : v ∉ order := fun hmem => hv'.2 ((List.mem_erase_of_ne hv'.1).mpr hmem)
    rw [hothers v hv'.1, Line.aged]
    exact h.free v hmem

end Tracks

end LineSet

/-! ## All sets -/

/-- **A cache at rest is the ideal one** after the accesses `past`. -/
structure Cache.Mirrors (c : Cache g) (past : List Request) : Prop where
  id : c.id = 0
  idle : c.access = none
  sets : ∀ i : Fin g.sets, ∃ order, c.sets[i].Tracks i order c.maxCounter (Ideal.visits g i past)
    (Ideal.recent g i past) (Ideal.written g past)

theorem Cache.mirrors_empty (g : Geometry) (max : Nat) : (empty g max 0).Mirrors [] where
  id := rfl
  idle := rfl
  sets i := ⟨[], by
    rw [empty, Vector.getElem_replicate_place]
    exact LineSet.tracks_empty i max _⟩

/-- The way that the lookup of a request finds or chooses. -/
def Cache.place (c : Cache g) (r : Request) : Fin g.ways :=
  c.sets[g.index r.addr].placeFor (g.tag r.addr)

/-- **A request is being served**: its way is its own, and the other lines of its set have aged. -/
structure Cache.Serving (c : Cache g) (r : Request) (w : Fin g.ways) (c' : Cache g) : Prop where
  id : c'.id = c.id
  maxCounter : c'.maxCounter = c.maxCounter
  aged : ∀ v, v ≠ w → c'.line (g.index r.addr) v = (c.line (g.index r.addr) v).aged
  same : ∀ i : Fin g.sets, i ≠ g.index r.addr → c'.sets[i] = c.sets[i]

namespace Cache.Mirrors

variable {c c' : Cache g} {past : List Request} {r : Request}

/-- **A served request is an access of the ideal cache.** -/
theorem serve (h : c.Mirrors past) (hv : Ideal.visits g (g.index r.addr) past < c.maxCounter)
    (hs : c.Serving r (c.place r) c') (hidle : c'.access = none)
    {l : Line} (hl : c'.line (g.index r.addr) (c.place r) = l) (htag : l.tag = g.tag r.addr)
    (hcounter : l.counter = c.maxCounter)
    (hstate : l.state =
      if Ideal.written g (r :: past) r.addr.lineNumber then .modified else .exclusive) :
    c'.Mirrors (r :: past) := by
  subst hl
  refine ⟨hs.id.trans h.id, hidle, fun i => ?_⟩
  obtain ⟨order, ho⟩ := h.sets i
  rw [hs.maxCounter]
  by_cases hi : g.index r.addr = i
  · subst hi
    rw [Ideal.visits_cons_self rfl, Ideal.recent_cons_self rfl, ← g.lineIn_place r.addr]
    refine ⟨_, ho.touch hv hs.aged htag hcounter ?_ ?_ ?_ ?_⟩
    · rw [g.lineIn_place]
      exact hstate
    · exact ho.take_lines hv (Ideal.nodup_recent _ _) _
    · rw [g.lineIn_place]
      exact fun l => Ideal.written_cons_of_ne
    · rw [g.lineIn_place, ← Ideal.recent_cons_self rfl]
      exact Ideal.nodup_recent _ _
  · rw [Ideal.visits_cons_of_ne hi, Ideal.recent_cons_of_ne hi, hs.same i (Ne.symm hi)]
    refine ⟨order, { ho with state := fun w hw => ?_ }⟩
    rw [ho.state w hw, Ideal.written_cons_of_ne (Geometry.lineIn_ne hi _)]

end Cache.Mirrors

end Snooping
