/-!
# Log records

What is told beside the results, by importance.

* `Level`, `Record`; `Level.shows`: which records a log of some level shows.
-/

namespace Snooping

/-- The importance of a record. -/
inductive Level
  | error
  | warn
  | info
  deriving DecidableEq

namespace Level

/-- The name of a level. -/
def name : Level → String
  | error => "ERROR"
  | warn => "WARN"
  | info => "INFO"

/-- Higher is less important. -/
def rank : Level → Nat
  | error => 1
  | warn => 2
  | info => 3

end Level

/-- One line of a log. -/
structure Record where
  level : Level
  text : String
  deriving DecidableEq

/-- The least important level that is shown, if anything is. -/
abbrev Verbosity := Option Level

/-- The record is shown. -/
def Verbosity.shows (v : Verbosity) (r : Record) : Bool :=
  v.any fun least => r.level.rank ≤ least.rank

end Snooping
