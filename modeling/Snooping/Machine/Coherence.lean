import Snooping.Machine.Basic

/-!
# The coherence check

The caches contradict each other if a cache holds a line in two ways, or if two caches hold a line
that each of them believes to be its own alone. The check goes through the caches in order and names
the first contradiction.

* `soleLines`: the lines that a cache believes to be its own alone.
* `Holders`: the sole lines met so far, with their holders.
* **`Machine.violation?`**, `Machine.checkCoherence`.
-/

namespace Snooping

/-- The addresses of the lines that no other cache may have data for. -/
def Cache.soleLines {g : Geometry} (c : Cache g) : List Addr :=
  (c.resident.filter fun e => e.2.state.isSole).map Prod.fst

/-- The sole lines met so far with their holders, the last first. -/
abbrev Holders := List (Addr × Nat)

/-- Adds the sole lines of a cache, unless one of them has a holder. -/
def Holders.claim (core : Nat) : Holders → List Addr → Except Violation Holders
  | hs, [] => .ok hs
  | hs, a :: as =>
    match hs.lookup a with
    | some other => .error (.exclusiveTwice other core a)
    | none => Holders.claim core ((a, core) :: hs) as

/-- Adds a cache to the caches checked so far. -/
def Holders.addCache {g : Geometry} (hs : Holders) (c : Cache g) : Except Violation Holders :=
  match c.duplicate? with
  | some a => .error (.duplicate c.id a)
  | none => hs.claim c.id c.soleLines

namespace Machine

variable {g : Geometry} {n : Nat}

/-- **The first contradiction between the caches.** -/
def violation? (m : Machine g n) : Option Violation :=
  match m.caches.toList.foldlM Holders.addCache [] with
  | .ok _ => none
  | .error v => some v

/-- The contradiction as an error of the current cycle. -/
def checkCoherence (m : Machine g n) : Except SimError Unit :=
  match m.violation? with
  | none => .ok ()
  | some v => .error (.incoherent m.now v)

end Machine

end Snooping
