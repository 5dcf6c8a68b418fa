import Snooping.Address
import Snooping.Fault

/-!
# Errors

What can be wrong with a configuration, with a trace file or with a run, each with its one wording.

* `ConfigError`, `FileError`, `Violation`: the causes.
* **`SimError`** and `SimError.message`: the errors of a simulation as they are reported.
* **`Failure`**: an error or a fault, for operations that yield no state beside them.
-/

namespace Snooping

/-- The command line in one line. -/
def usage : String :=
  "usage: cachesim-moesi <trace-dir> <testname> [--cache-size N] [--assoc N] [--max-cycles N] " ++
    "[--no-check]"

/-- What is wrong with a configuration or with the options that give it. -/
inductive ConfigError
  | zeroAssociativity
  | badGeometry (cacheSize ways : Nat)
  | badMemory (size : Nat)
  | zeroLatency
  | zeroCounter
  | noCores
  | needsValue (option : String)
  | invalidValue (option value : String)
  | unknownOption (option : String)
  | wrongUsage
  deriving DecidableEq

/-- The wording of a configuration error. -/
def ConfigError.message : ConfigError → String
  | zeroAssociativity => "associativity must be at least 1"
  | badGeometry cacheSize ways =>
    "cache of " ++ toString cacheSize ++ " bytes with " ++ toString ways ++
      "-way sets does not give a power-of-two number of " ++ toString lineSize ++
      "-byte line sets"
  | badMemory size =>
    "memory of " ++ toString size ++ " bytes is not a whole number of " ++ toString lineSize ++
      "-byte lines"
  | zeroLatency => "memory latencies must be non-zero"
  | zeroCounter => "recency counter maximum must be non-zero"
  | noCores => "at least one core trace is required"
  | needsValue option => option ++ " needs a value"
  | invalidValue option value => "invalid value '" ++ value ++ "' for " ++ option
  | unknownOption option => "unknown option " ++ option ++ "\n" ++ usage
  | wrongUsage => usage

/-- Why a file or a directory cannot be read as text. -/
inductive FileError
  | notFound
  | notADirectory
  | isADirectory
  | notUtf8
  /-- Any other refusal, in the words of the system. -/
  | refused (words : String)
  deriving DecidableEq

/-- The wording of a file error. -/
def FileError.message : FileError → String
  | notFound => "No such file or directory (os error 2)"
  | notADirectory => "Not a directory (os error 20)"
  | isADirectory => "Is a directory (os error 21)"
  | notUtf8 => "stream did not contain valid UTF-8"
  | refused words => words

/-- How the caches can contradict each other. -/
inductive Violation
  /-- One cache holds a line in two ways of a set. -/
  | duplicate (core : Nat) (addr : Addr)
  /-- Two caches hold a line, each as its only holder. -/
  | exclusiveTwice (first second : Nat) (addr : Addr)
  deriving DecidableEq

/-- The wording of a violation. -/
def Violation.message : Violation → String
  | duplicate core addr => "cache " ++ toString core ++ " holds " ++ addr.text ++ " twice"
  | exclusiveTwice first second addr =>
    "caches " ++ toString first ++ " and " ++ toString second ++ " both hold " ++ addr.text ++
      " exclusively"

/-- **The errors of a simulation.** -/
inductive SimError
  | config (cause : ConfigError)
  | traceRead (path : String) (cause : FileError)
  | noTraces (testName : String)
  | incoherent (cycle : Nat) (violation : Violation)
  | stalled (cycle : Nat)
  | cycleLimit (limit : Nat)
  deriving DecidableEq

/-- The wording of an error. -/
def SimError.message : SimError → String
  | config cause => "Invalid configuration: " ++ cause.message
  | traceRead path cause => "Failed to read trace file '" ++ path ++ "': " ++ cause.message
  | noTraces testName => "No trace files named '" ++ testName ++ "*.data' found"
  | incoherent cycle violation =>
    "Coherence violation at cycle " ++ toString cycle ++ ": " ++ violation.message
  | stalled cycle =>
    "Simulation stalled at cycle " ++ toString cycle ++ " with cores still running"
  | cycleLimit limit => "Cycle limit reached: " ++ toString limit ++ " cycles"

/-- **An operation that yields nothing**: it met an error, or it faulted. -/
inductive Failure
  | error (e : SimError)
  | fault (f : Fault)
  deriving DecidableEq

/-- A configuration error as a failure. -/
def Failure.config (cause : ConfigError) : Failure := .error (.config cause)

/-- A computation that can only fault, among those that can also meet an error. -/
def Failure.lift {α : Type} : Except Fault α → Except Failure α
  | .ok a => .ok a
  | .error f => .error (.fault f)

end Snooping
