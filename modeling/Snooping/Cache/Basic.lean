import Snooping.Cache.LineSet
import Snooping.Instr
import Snooping.Spec

/-!
# Caches

The private cache of one core serves one request at a time. A request goes through phases: it is
looked up, may have to write a line back to make room, fetches its line, and may have to take it
away from the other caches before it writes.

* `Phase`, `Access`: the request in progress.
* `CacheStats`: what a cache counts.
* **`Cache`**, with `Cache.empty`, `Cache.line`, `Cache.setLine`.
* What can be seen from outside: `Cache.lookup?`, `Cache.holds`, `Cache.lineState`,
  `Cache.resident`, `Cache.duplicate?`.
-/

namespace Snooping

/-- Where a request stands; `way` is the place of its line in its set. -/
inductive Phase (ways : Nat)
  /-- Its line is to be looked up. -/
  | lookup
  /-- The lookup found the line. -/
  | hit (way : Fin ways)
  /-- The lookup found no line and chose a way for it. -/
  | miss (way : Fin ways)
  /-- The line is there and has to be taken away from the others. -/
  | upgrade (way : Fin ways)
  /-- The line was taken away from the others. -/
  | promote (way : Fin ways)
  /-- The line in the way has to be written back. -/
  | writeBack (way : Fin ways) (victim : Addr)
  /-- The line in the way is on its way to memory. -/
  | awaitWriteBack (way : Fin ways) (victim : Addr)
  /-- The line has to be asked for. -/
  | fill (way : Fin ways)
  /-- The line was asked for. -/
  | awaitFill (way : Fin ways)
  /-- The line has come. -/
  | installed (way : Fin ways)
  deriving DecidableEq

/-- The request in progress. -/
structure Access (ways : Nat) where
  request : Request
  /-- A lookup did not find its line. -/
  missed : Bool
  /-- A peer showed interest in the line while it was being fetched. -/
  contended : Bool
  phase : Phase ways
  deriving DecidableEq

/-- A request that was just handed in. -/
def Access.start {ways : Nat} (request : Request) : Access ways := ⟨request, false, false, .lookup⟩

/-- What a cache counts. -/
structure CacheStats where
  readHits : Nat := 0
  readMisses : Nat := 0
  writeHits : Nat := 0
  writeMisses : Nat := 0
  writeBacks : Nat := 0
  invalidationsSent : Nat := 0
  invalidated : Nat := 0
  forwards : Nat := 0
  restarts : Nat := 0
  busAcquisitions : Nat := 0
  busWaitCycles : Nat := 0
  deriving DecidableEq

/-- The statistics after one more request has ended. -/
def CacheStats.finish (s : CacheStats) (isWrite missed : Bool) : CacheStats :=
  match isWrite, missed with
  | false, false => { s with readHits := s.readHits + 1 }
  | false, true => { s with readMisses := s.readMisses + 1 }
  | true, false => { s with writeHits := s.writeHits + 1 }
  | true, true => { s with writeMisses := s.writeMisses + 1 }

/-- **The cache of one core.** -/
structure Cache (g : Geometry) where
  id : Nat
  /-- The counter of a line that was just used. -/
  maxCounter : Nat
  sets : Vector (LineSet g.ways) g.sets
  /-- The request in progress, if there is one. -/
  access : Option (Access g.ways)
  stats : CacheStats

namespace Cache

variable {g : Geometry}

/-- A cache without lines. -/
def empty (g : Geometry) (maxCounter : Nat) (id : Nat) : Cache g where
  id := id
  maxCounter := maxCounter
  sets := Vector.replicate g.sets (.empty g.ways)
  access := none
  stats := {}

/-- The cache that a specification describes. -/
def ofSpec (id : Nat) (s : Spec) : Except Failure ((g : Geometry) × Cache g) := do
  let g ← s.validate
  return ⟨g, empty g s.maxCounter.toNat id⟩

/-- The line in a way. -/
def line (c : Cache g) (i : Fin g.sets) (w : Fin g.ways) : Line := c.sets[i][w]

/-- The cache with another line in a way. -/
def setLine (c : Cache g) (i : Fin g.sets) (w : Fin g.ways) (l : Line) : Cache g :=
  { c with sets := c.sets.put i (c.sets[i].put w l) }

@[simp] theorem line_setLine_self (c : Cache g) (i : Fin g.sets) (w : Fin g.ways) (l : Line) :
    (c.setLine i w l).line i w = l := by
  simp [line, setLine]

theorem line_setLine_of_ne (c : Cache g) {i j : Fin g.sets} {w v : Fin g.ways} (l : Line)
    (h : (i, w) ≠ (j, v)) : (c.setLine i w l).line j v = c.line j v := by
  by_cases hi : i = j
  · subst hi
    have hw : v ≠ w := fun e => h (by rw [e])
    simp [line, setLine, Vector.getElem_put_of_ne _ _ hw]
  · simp [line, setLine, Vector.getElem_put_of_ne _ _ (Ne.symm hi)]

/-- The cache with its request in another phase. -/
def enter (c : Cache g) (a : Access g.ways) (p : Phase g.ways) : Cache g :=
  { c with access := some { a with phase := p } }

/-- The cache with other statistics. -/
def count (c : Cache g) (f : CacheStats → CacheStats) : Cache g := { c with stats := f c.stats }

/-- The request starts over from the lookup. -/
def restart (c : Cache g) (a : Access g.ways) : Cache g :=
  (c.enter a .lookup).count fun s => { s with restarts := s.restarts + 1 }

/-- No request is in progress. -/
def isIdle (c : Cache g) : Bool := c.access.isNone

/-! ## What can be seen from outside -/

/-- The line of an address, present or awaited. -/
def lookup? (c : Cache g) (a : Addr) : Option Line :=
  (c.sets[g.index a].find? (g.tag a)).map (c.line (g.index a))

/-- The line of an address is present or awaited. -/
def holds (c : Cache g) (a : Addr) : Bool := (c.sets[g.index a].find? (g.tag a)).isSome

/-- The state of the line of an address. -/
def lineState (c : Cache g) (a : Addr) : LineState := ((c.lookup? a).map Line.state).getD .invalid

/-- The lines that are present or awaited, with their addresses, by set and by way. -/
def resident (c : Cache g) : List (Addr × Line) :=
  (List.finRange g.sets).flatMap fun i =>
    (c.sets[i].toList.filter Line.isLive).map fun l => (g.addrAt i l.tag, l)

/-- The address of a line that is in two ways of its set, in the first such set. -/
def duplicate? (c : Cache g) : Option Addr :=
  (List.finRange g.sets).findSome? fun i => c.sets[i].duplicate?.map (g.addrAt i)

end Cache

end Snooping
