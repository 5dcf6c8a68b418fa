/-!
# Line states

The five states of the MOESI protocol, and a sixth for a line that is still being fetched.

* **`LineState`**, with `LineState.hasData` and `LineState.isDirty`.
-/

namespace Snooping

/-- **What a cache knows about a line it has a place for.** -/
inductive LineState
  /-- The place is free. -/
  | invalid
  /-- The only copy, newer than memory. -/
  | modified
  /-- One of several copies, newer than memory, which this cache has to write back. -/
  | owned
  /-- The only copy, the same as in memory. -/
  | exclusive
  /-- One of several copies. -/
  | shared
  /-- Asked for and not yet here. -/
  | requested
  deriving DecidableEq

namespace LineState

/-- The line can be read. -/
def hasData : LineState → Bool
  | modified | owned | exclusive | shared => true
  | invalid | requested => false

/-- The line is newer than memory, and this cache answers for it. -/
def isDirty : LineState → Bool
  | modified | owned => true
  | invalid | exclusive | shared | requested => false

/-- No other cache has data for the line. -/
def isSole : LineState → Bool
  | modified | exclusive => true
  | invalid | owned | shared | requested => false

/-- What is left of a state once a peer reads the line. -/
def afterPeerRead : LineState → LineState
  | modified => owned
  | exclusive => shared
  | s => s

end LineState

end Snooping
