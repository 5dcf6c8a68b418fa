import Snooping.Instr
import Snooping.Text.Blank
import Snooping.Text.Numeral

/-!
# Trace text

A trace is the program of one core, one instruction on a line: an operation and a hexadecimal
number. Operation 0 loads from an address, 1 stores to it, and 2 spends cycles on other work. A
store may give its value in a third field; otherwise it writes a stamp that tells the core and the
instruction. Blank lines and lines that begin with `#` say nothing, and what is no instruction is
skipped and remembered.

* `stamp`: the value of a store that gives none.
* `Instr.ofFields?`, `Instr.ofLine?`: one line.
* **`Reading.ofText`**: the program of a text, and the lines that were skipped.
-/

namespace Snooping

/-- The value that instruction `index` of a core stores by default. -/
def stamp (core : Nat) (index : Nat) : Word :=
  (UInt32.ofNat core <<< 24) ||| (UInt32.ofNat index &&& 0xffffff)

/-- The instruction that the fields of a line write; `value` is stored by default. Fields after the
third are not looked at. -/
def Instr.ofFields? (value : Word) : List (List Char) → Option Instr
  | op :: arg :: rest => do
    let op ← Text.numeral? 10 UInt32.size op
    let arg ← Text.hex? arg
    match op, rest.head?.map Text.hex? with
    | 0, none => some (.read ⟨arg⟩)
    | 1, none => some (.write ⟨arg⟩ value)
    | 1, some (some v) => some (.write ⟨arg⟩ v)
    | 2, none => some (.other arg)
    | _, _ => none
  | _ => none

/-- The instruction on line `l`, as instruction `index` of its core. -/
def Instr.ofLine? (core : Nat) (index : Nat) (l : List Char) : Option Instr :=
  Instr.ofFields? (stamp core index) (Text.fields l)

/-- A line that was skipped, counted from 1. -/
structure SkippedLine where
  number : Nat
  text : String
  deriving DecidableEq

/-- The warning about a skipped line. -/
def SkippedLine.message (core : Nat) (s : SkippedLine) : String :=
  "core " ++ toString core ++ ": skipping malformed trace line " ++ toString s.number ++ ": '" ++
    s.text ++ "'"

/-- **What has been read of a trace.** -/
structure Reading where
  /-- The lines seen so far. -/
  seen : Nat
  program : Array Instr
  skipped : Array SkippedLine

namespace Reading

/-- Nothing has been read. -/
def start : Reading := ⟨0, #[], #[]⟩

/-- A trimmed line that says nothing. -/
def isSilent (l : List Char) : Bool := l.isEmpty || l.head? = some '#'

/-- Reads one more line. -/
def addLine (core : Nat) (r : Reading) (l : List Char) : Reading :=
  let l := Text.trim l
  let r := { r with seen := r.seen + 1 }
  if isSilent l then r
  else
    match Instr.ofLine? core r.program.size l with
    | some i => { r with program := r.program.push i }
    | none => { r with skipped := r.skipped.push ⟨r.seen, String.ofList l⟩ }

/-- **Reads the trace of a core.** -/
def ofText (core : Nat) (text : List Char) : Reading :=
  (Text.lines text).foldl (addLine core) start

/-- The warnings of a reading, in the order of the lines. -/
def warnings (core : Nat) (r : Reading) : List String :=
  r.skipped.toList.map (SkippedLine.message core)

end Reading

end Snooping
