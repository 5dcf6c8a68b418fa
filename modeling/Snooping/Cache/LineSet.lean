import Snooping.Address
import Snooping.LineState

/-!
# Lines and sets

A set holds a few lines in its ways. Every line has a counter that is full when the line is used and
sinks by one with every lookup in its set that goes to another line, so that it tells the lines by
their age.

* `Line`, **`LineSet`**.
* `LineSet.find?`: the way of a tag.
* `LineSet.age`: what a lookup does to the counters.
* `LineSet.victim`: the way that is given up for a new line, with `LineSet.victim_of_free` and
  `LineSet.counter_victim_le`.
-/

namespace Snooping

/-- One line of a cache. -/
structure Line where
  state : LineState
  tag : Nat
  /-- How recently the line was used. -/
  counter : Nat
  data : Block
  deriving DecidableEq

namespace Line

/-- A free place. -/
def free : Line := ⟨.invalid, 0, 0, Block.zero⟩

/-- The place is taken, be it for a line that is still awaited. -/
def isLive (l : Line) : Bool := l.state ≠ .invalid

/-- The place is taken by the line with this tag. -/
def carries (l : Line) (tag : Nat) : Bool := l.isLive && l.tag = tag

/-- The line with this tag is there, with its data. -/
def offers (l : Line) (tag : Nat) : Bool := l.state.hasData && l.tag = tag

/-- The place is kept for the line with this tag. -/
def awaits (l : Line) (tag : Nat) : Bool := l.state = .requested && l.tag = tag

/-- The line loses one step of recency. -/
def aged (l : Line) : Line := { l with counter := l.counter - 1 }

end Line

/-- **The lines of one set, by way.** -/
abbrev LineSet (ways : Nat) := Vector Line ways

namespace LineSet

variable {ways : Nat}

/-- A set without lines. -/
def empty (ways : Nat) : LineSet ways := Vector.replicate ways .free

/-- The first way whose line has a property. -/
def first? (s : LineSet ways) (p : Line → Bool) : Option (Fin ways) :=
  (List.finRange ways).find? fun w => p s[w]

/-- The way that carries a tag. -/
def find? (s : LineSet ways) (tag : Nat) : Option (Fin ways) := s.first? (·.carries tag)

/-- The set after a lookup: every way but the one that was hit has aged. -/
def age (s : LineSet ways) (hit : Option (Fin ways)) : LineSet ways :=
  Vector.ofFn fun w => if hit = some w then s[w] else s[w].aged

/-- The way with the least counter, the first of them if there are more. -/
def oldest (s : LineSet ways) (h : 0 < ways) : Fin ways :=
  (List.finRange ways).foldl (fun best w => if s[w].counter < s[best].counter then w else best)
    ⟨0, h⟩

/-- The way for a new line: a free one if there is one, otherwise the oldest. -/
def victim (s : LineSet ways) (h : 0 < ways) : Fin ways :=
  (s.first? (!·.isLive)).getD (s.oldest h)

/-- A tag that two ways carry, the first such way counting. -/
def duplicate? (s : LineSet ways) : Option Nat :=
  (List.finRange ways).findSome? fun w =>
    if s[w].isLive && (List.finRange ways).any fun v => w < v && s[v].carries s[w].tag then
      some s[w].tag
    else none

/-! ## What is found -/

theorem first?_eq_some {s : LineSet ways} {p : Line → Bool} {w : Fin ways}
    (h : s.first? p = some w) : p s[w] ∧ ∀ v < w, ¬ p s[v] := by
  obtain ⟨hp, as, bs, hl, has⟩ := List.find?_eq_some_iff_append.mp h
  refine ⟨hp, fun v hv => ?_⟩
  have hlt : (as ++ w :: bs).Pairwise (· < ·) := hl ▸ List.pairwise_lt_finRange ways
  have hm : v ∈ as ++ w :: bs := hl ▸ List.mem_finRange v
  rcases List.mem_append.mp hm with hm | hm
  · simpa using has v hm
  · rcases List.mem_cons.mp hm with rfl | hm
    · exact absurd hv (by omega)
    · have := (List.pairwise_cons.mp (List.pairwise_append.mp hlt).2.1).1 v hm
      exact absurd hv (by omega)

theorem first?_eq_none {s : LineSet ways} {p : Line → Bool} :
    s.first? p = none ↔ ∀ w : Fin ways, ¬ p s[w] := by
  simp [first?]

theorem carries_of_find? {s : LineSet ways} {tag : Nat} {w : Fin ways} (h : s.find? tag = some w) :
    s[w].carries tag := (first?_eq_some h).1

theorem getElem_age (s : LineSet ways) (hit : Option (Fin ways)) (w : Fin ways) :
    (s.age hit)[w] = if hit = some w then s[w] else s[w].aged := by
  simp [age]

/-! ## What is chosen -/

section Victim

variable (s : LineSet ways) (h : 0 < ways)

theorem counter_oldest_le (w : Fin ways) :
    s[s.oldest h].counter ≤ s[w].counter := by
  have hfold : ∀ (l : List (Fin ways)) (b : Fin ways),
      s[l.foldl (fun best w => if s[w].counter < s[best].counter then w else best) b].counter ≤
        s[b].counter ∧ ∀ v ∈ l,
      s[l.foldl (fun best w => if s[w].counter < s[best].counter then w else best) b].counter ≤
        s[v].counter := by
    intro l
    induction l with
    | nil => exact fun b => ⟨Nat.le_refl _, nofun⟩
    | cons x l ih =>
      intro b
      rw [List.foldl_cons]
      obtain ⟨hb, hl⟩ := ih (if s[x].counter < s[b].counter then x else b)
      have hle : s[if s[x].counter < s[b].counter then x else b].counter ≤ s[b].counter ∧
          s[if s[x].counter < s[b].counter then x else b].counter ≤ s[x].counter := by
        split <;> omega
      refine ⟨Nat.le_trans hb hle.1, fun v hv => ?_⟩
      obtain rfl | hv := List.mem_cons.mp hv
      · exact Nat.le_trans hb hle.2
      · exact hl v hv
  exact (hfold _ _).2 w (List.mem_finRange w)

theorem victim_of_free (hfree : ∃ v : Fin ways, s[v].isLive = false) :
    s[s.victim h].isLive = false ∧ ∀ v < s.victim h, s[v].isLive = true := by
  unfold victim
  cases hf : s.first? (!·.isLive) with
  | none =>
    obtain ⟨v, hv⟩ := hfree
    exact absurd hv (by simpa using first?_eq_none.mp hf v)
  | some w =>
    obtain ⟨hw, hfirst⟩ := first?_eq_some hf
    exact ⟨by simpa using hw, fun v hv => by simpa using hfirst v hv⟩

/-- If no way is free, the one that is chosen has the least counter. -/
theorem counter_victim_le (hlive : ∀ v : Fin ways, s[v].isLive = true) (w : Fin ways) :
    s[s.victim h].counter ≤ s[w].counter := by
  have hf : s.first? (!·.isLive) = none := first?_eq_none.mpr fun v => by simp [hlive v]
  rw [victim, hf]
  exact s.counter_oldest_le h w

end Victim

end LineSet

end Snooping
