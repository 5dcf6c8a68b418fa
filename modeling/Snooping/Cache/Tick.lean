import Snooping.Bus.Basic
import Snooping.Cache.Basic
import Snooping.Agent

/-!
# The execute side of a cache

A cache takes a request, works on it turn by turn, and says when it has ended. It may lose any line
to a peer between two of its turns, so a turn looks at the line again and starts over from the
lookup if the line is gone.

* `Cache.submit`: takes a request.
* `Turn`, **`Cache.tick`**: one turn, with one function for each phase.
-/

namespace Snooping

/-- What a turn of a cache comes to. -/
structure Turn (g : Geometry) where
  next : Next
  /-- The request that has ended. -/
  done : Option Completion
  cache : Cache g
  bus : Bus

/-- The word that a request reads or writes, and its line afterwards. -/
def Line.serve (l : Line) (maxCounter : Nat) : Request → Word × Line
  | .read a => (l.data[a.word], { l with counter := maxCounter })
  | .write a v =>
    (v, { l with counter := maxCounter, state := .modified, data := l.data.put a.word v })

namespace Cache

variable {g : Geometry}

/-- Takes a request; a fault if the cache is not idle. -/
def submit (c : Cache g) (r : Request) : Except Fault (Cache g) :=
  if c.isIdle then .ok { c with access := some (.start r) } else .error (.cacheBusy c.id)

/-- The turn ends, and the request goes on in the next cycle. -/
def goOn (c : Cache g) (bus : Bus) : Turn g := ⟨.after 1, none, c, bus⟩

/-- The turn ends, and the request goes on when somebody wakes the cache. -/
def sleep (c : Cache g) (bus : Bus) : Turn g := ⟨.park, none, c, bus⟩

/-- One more cycle is spent on waiting for the bus. -/
def turnedAway (c : Cache g) : Cache g :=
  c.count fun s => { s with busWaitCycles := s.busWaitCycles + 1 }

/-- The request has come through: the line is there and may be used as the request needs. -/
def complete (c : Cache g) (a : Access g.ways) (w : Fin g.ways) (bus : Bus) (now : Nat) :
    Turn g :=
  let i := g.index a.request.addr
  let (value, l) := (c.line i w).serve c.maxCounter a.request
  let c := (c.setLine i w l).count (·.finish a.request.isWrite a.missed)
  ⟨.park, some ⟨a.request, value, !a.missed, now⟩, { c with access := none }, bus⟩

/-- Looks the line up, or else chooses a way for it. -/
def lookUp (c : Cache g) (a : Access g.ways) (bus : Bus) : Turn g :=
  let i := g.index a.request.addr
  let found := c.sets[i].find? (g.tag a.request.addr)
  let s := c.sets[i].age found
  let p := match found with
    | some w => Phase.hit w
    | none => Phase.miss (s.victim g.ways_pos)
  ({ c with sets := c.sets.put i s }.enter a p).goOn bus

/-- Takes the line away from the other caches. -/
def upgrade (c : Cache g) (a : Access g.ways) (w : Fin g.ways) (bus : Bus) : Turn g :=
  if (c.line (g.index a.request.addr) w).offers (g.tag a.request.addr) then
    let (granted, bus) := bus.invalidate c.id a.request.addr
    if granted then
      ((c.enter a (.promote w)).count fun s => { s with
        invalidationsSent := s.invalidationsSent + 1
        busAcquisitions := s.busAcquisitions + 1 }).goOn bus
    else (c.enter a (.upgrade w)).turnedAway.goOn bus
  else (c.restart a).goOn bus

/-- Uses a line that was found, taking it away from the others first if it is to be written and
others may have it. -/
def useHit (c : Cache g) (a : Access g.ways) (w : Fin g.ways) (bus : Bus) (now : Nat) : Turn g :=
  let i := g.index a.request.addr
  let l := c.line i w
  if l.offers (g.tag a.request.addr) then
    let c := c.setLine i w { l with counter := c.maxCounter }
    if a.request.isWrite && !l.state.isSole then c.upgrade a w bus else c.complete a w bus now
  else (c.restart a).goOn bus

/-- Keeps the way for the line and asks for it. -/
def fill (c : Cache g) (a : Access g.ways) (w : Fin g.ways) (bus : Bus) : Turn g :=
  let i := g.index a.request.addr
  let tag := g.tag a.request.addr
  let (a, c) :=
    if (c.line i w).awaits tag then (a, c)
    else ({ a with contended := false }, c.setLine i w ⟨.requested, tag, c.maxCounter, Block.zero⟩)
  let (granted, bus) := bus.read c.id a.request.addr
  if granted then
    ((c.enter a (.awaitFill w)).count fun s => { s with
      busAcquisitions := s.busAcquisitions + 1 }).sleep bus
  else (c.enter a (.fill w)).turnedAway.goOn bus

/-- Writes the victim back, unless a peer has taken it over. -/
def writeBack (c : Cache g) (a : Access g.ways) (w : Fin g.ways) (victim : Addr) (bus : Bus) :
    Turn g :=
  let i := g.index a.request.addr
  let l := c.line i w
  if l.state.isDirty ∧ g.addrAt i l.tag = victim then
    let (granted, bus) := bus.write c.id victim l.data
    if granted then
      ((c.enter a (.awaitWriteBack w victim)).count fun s => { s with
        writeBacks := s.writeBacks + 1
        busAcquisitions := s.busAcquisitions + 1 }).sleep bus
    else (c.enter a (.writeBack w victim)).turnedAway.goOn bus
  else c.fill a w bus

/-- Makes room in the way that was chosen. -/
def makeRoom (c : Cache g) (a : Access g.ways) (w : Fin g.ways) (bus : Bus) : Turn g :=
  let i := g.index a.request.addr
  let l := c.line i w
  let a := { a with missed := true }
  if l.state.isDirty then c.writeBack a w (g.addrAt i l.tag) bus else c.fill a w bus

/-- Uses a line that has come, taking it away from the others first if it is to be written and came
as one of several copies. -/
def useInstalled (c : Cache g) (a : Access g.ways) (w : Fin g.ways) (bus : Bus) (now : Nat) :
    Turn g :=
  let l := c.line (g.index a.request.addr) w
  if l.offers (g.tag a.request.addr) then
    if a.request.isWrite && l.state = .shared then c.upgrade a w bus else c.complete a w bus now
  else (c.restart a).goOn bus

/-- **One turn of the execute side.** -/
def tick (c : Cache g) (bus : Bus) (now : Nat) : Turn g :=
  match c.access with
  | none => c.sleep bus
  | some a =>
    match a.phase with
    | .lookup => c.lookUp a bus
    | .hit w => c.useHit a w bus now
    | .miss w => c.makeRoom a w bus
    | .upgrade w => c.upgrade a w bus
    | .promote w => c.complete a w bus now
    | .writeBack w victim => c.writeBack a w victim bus
    | .fill w => c.fill a w bus
    | .installed w => c.useInstalled a w bus now
    | .awaitWriteBack _ _ | .awaitFill _ => c.sleep bus

end Cache

end Snooping
