import Snooping.Cache.Basic
import Snooping.Forwarder

/-!
# The snoop side of a cache

A cache looks at everything that is driven. Requests of its peers take its lines away or ask for
them, and answers to its own request wake its execute side.

* **`Cache.snoop`**: reacts to a peer, and hands back the job it now owes.
* **`Cache.observe`**: takes an answer, and tells whether the execute side goes on.
-/

namespace Snooping.Cache

variable {g : Geometry}

/-! ## Requests and answers of peers -/

/-- A peer showed interest in the line being fetched. -/
def contend (c : Cache g) : Cache g :=
  { c with access := c.access.map fun a => { a with contended := true } }

/-- Gives up the line in a way. -/
def dropLine (c : Cache g) (i : Fin g.sets) (w : Fin g.ways) : Cache g :=
  (c.setLine i w { c.line i w with state := .invalid }).count fun s =>
    { s with invalidated := s.invalidated + 1 }

/-- Shares the line in a way with a peer that reads it, and forwards it unless another cache has
claimed the read. -/
def shareLine (c : Cache g) (bus : Bus) (t : Transfer) (i : Fin g.sets) (w : Fin g.ways) :
    Option ForwardJob × Cache g × Bus :=
  let l := { c.line i w with state := (c.line i w).state.afterPeerRead }
  let c := c.setLine i w l
  let (first, bus) := bus.claim
  if first then
    (some ⟨t.requester, t.addr, l.state, some l.data⟩,
      c.count fun s => { s with forwards := s.forwards + 1 }, bus)
  else (none, c, bus)

/-- Reacts to the request of a peer for the line in a way. -/
def react (c : Cache g) (bus : Bus) (t : Transfer) (i : Fin g.sets) (w : Fin g.ways) :
    Option ForwardJob × Cache g × Bus :=
  if t.func = .read then
    if (c.line i w).state = .requested then
      (some ⟨t.requester, t.addr, .requested, none⟩, c.contend, bus)
    else c.shareLine bus t i w
  else (none, c.dropLine i w, bus)

/-- **Looks at what is driven.** An answer to a peer about a line that is held here pulls the shared
line of the bus; a request of a peer is reacted to. -/
def snoop (c : Cache g) (bus : Bus) : Option ForwardJob × Cache g × Bus :=
  match bus.current with
  | none => (none, c, bus)
  | some t =>
    if t.func = .response ∧ t.requester ≠ c.id then
      (none, c, if c.holds t.addr then bus.assertShared else bus)
    else
      match bus.requestFor c.id with
      | none => (none, c, bus)
      | some t =>
        match c.sets[g.index t.addr].find? (g.tag t.addr) with
        | none => (none, c, bus)
        | some w => c.react bus t (g.index t.addr) w

/-! ## Answers to the own request -/

/-- Takes the answer to a read. What was taken away while it was awaited is stale, and the request
starts over. -/
def install (c : Cache g) (a : Access g.ways) (w : Fin g.ways) (bus : Bus) (t : Transfer) :
    Cache g :=
  let i := g.index a.request.addr
  let l := c.line i w
  if l.awaits (g.tag a.request.addr) then
    (c.setLine i w { l with
      state := bus.fillState t a.contended
      counter := c.maxCounter
      data := t.data.getD Block.zero }).enter a (.installed w)
  else c.restart a

/-- **Takes the awaited answer off the bus**, with whether the execute side goes on. -/
def observe (c : Cache g) (bus : Bus) : Bool × Cache g :=
  match c.access with
  | none => (false, c)
  | some a =>
    match a.phase with
    | .awaitWriteBack w victim =>
      match bus.answerFor c.id victim with
      | some t =>
        if t.func = .response ∧ t.source = .memory then (true, c.enter a (.fill w)) else (false, c)
      | none => (false, c)
    | .awaitFill w =>
      match bus.answerFor c.id a.request.addr with
      | some t => if t.func = .requested then (false, c.contend) else (true, c.install a w bus t)
      | none => (false, c)
    | _ => (false, c)

end Snooping.Cache
