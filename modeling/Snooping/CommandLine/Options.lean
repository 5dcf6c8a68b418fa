import Snooping.Spec
import Snooping.Text.Numeral

/-!
# Command-line options

The command line names a directory and a test, in this order, and may give options anywhere among
them. An option with a value takes the next argument as its value, whatever that looks like; of an
option given twice the last one counts. The first argument that is wrong is reported, and a wrong
number of names only if no argument is.

* `Setting`: the options with a value.
* `Item`, `Item.ofArgs`: the arguments, each option with its value.
* **`Options`**, **`Options.ofArgs`**: what a command line asks for.
-/

namespace Snooping

/-- An option with a value. -/
inductive Setting
  | cacheSize
  | ways
  | maxCycles
  deriving DecidableEq

namespace Setting

/-- The option as it is written. -/
def flag : Setting → String
  | cacheSize => "--cache-size"
  | ways => "--assoc"
  | maxCycles => "--max-cycles"

/-- The option that is written so. -/
def ofFlag? (arg : String) : Option Setting :=
  [cacheSize, ways, maxCycles].find? fun s => s.flag = arg

/-- The values of an option lie below its bound. -/
def bound : Setting → Nat
  | cacheSize | ways => UInt32.size
  | maxCycles => UInt64.size

/-- The value of an option, a decimal numeral. -/
def read (s : Setting) (arg : String) : Except ConfigError Nat :=
  match Text.numeral? 10 s.bound arg.toList with
  | some n => .ok n
  | none => .error (.invalidValue s.flag arg)

/-- A specification with one value changed. -/
def apply (s : Setting) (value : Nat) (spec : Spec) : Spec :=
  match s with
  | cacheSize => { spec with cacheSize := UInt32.ofNat value }
  | ways => { spec with ways := UInt32.ofNat value }
  | maxCycles => { spec with maxCycles := some (UInt64.ofNat value) }

end Setting

/-- A piece of the command line. -/
inductive Item
  | name (text : String)
  | setting (s : Setting) (value : Nat)
  | noCheck
  deriving DecidableEq

namespace Item

/-- The option that leaves the coherence check out. -/
def noCheckFlag : String := "--no-check"

/-- An argument that takes no value. -/
def ofArg (arg : String) : Except ConfigError Item :=
  if arg = noCheckFlag then .ok noCheck
  else if "--".toList.isPrefixOf arg.toList then .error (.unknownOption arg)
  else .ok (name arg)

/-- The items of a command line, or the first argument that is wrong. -/
def ofArgs : List String → Except ConfigError (List Item)
  | [] => .ok []
  | arg :: rest =>
    match Setting.ofFlag? arg, rest with
    | some s, [] => .error (.needsValue s.flag)
    | some s, value :: rest => do
      let n ← s.read value
      return setting s n :: (← ofArgs rest)
    | none, rest => do
      let i ← ofArg arg
      return i :: (← ofArgs rest)

/-- The name that an item is. -/
def name? : Item → Option String
  | name text => some text
  | setting _ _ | noCheck => none

/-- What an item changes in a specification. -/
def apply (spec : Spec) : Item → Spec
  | name _ => spec
  | setting s value => s.apply value spec
  | noCheck => { spec with checkCoherence := false }

end Item

/-- **What a command line asks for.** -/
structure Options where
  dir : String
  testName : String
  spec : Spec

/-- **Reads a command line.** -/
def Options.ofArgs (args : List String) : Except ConfigError Options := do
  let items ← Item.ofArgs args
  match items.filterMap Item.name? with
  | [dir, testName] => return ⟨dir, testName, items.foldl Item.apply {}⟩
  | _ => throw .wrongUsage

end Snooping
