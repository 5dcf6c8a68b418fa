import Snooping.Error
import Snooping.Log
import Snooping.Text.Quoted
import Snooping.Trace.Parse

/-!
# Trace directories

The traces of a test are the files of a directory whose names begin with the name of the test and
end in `.data`, one for each core, in the order of their names. Names are compared by code points,
which is the order of their bytes.

* `Listing`: a directory, as far as it can be read.
* `isTraceName`, `Listing.selected`: the files of a test.
* **`Listing.programs`**: their programs, or the first file that cannot be read.
-/

namespace Snooping

/-- A file, as far as its bytes can be read. -/
abbrev Content := Except FileError ByteArray

/-- The entries of a directory by name, in no particular order. -/
abbrev Listing := List (String × Content)

/-- The text of a file. -/
def Content.text : Content → Except FileError String
  | .error e => .error e
  | .ok bytes =>
    match String.fromUTF8? bytes with
    | some s => .ok s
    | none => .error .notUtf8

/-- The name of a trace of the test. Beginning and end may overlap. -/
def isTraceName (testName name : String) : Bool :=
  testName.toList.isPrefixOf name.toList && ".data".toList.isSuffixOf name.toList

/-- The path of an entry. -/
def entryPath (dir name : String) : String :=
  if dir.isEmpty || dir.toList.getLast? = some '/' then dir ++ name else dir ++ "/" ++ name

/-- Programs, or why there are none, with what was told on the way. -/
structure ReadResult where
  log : List Record
  result : Except SimError (List Program)

namespace Listing

/-- The traces of a test in the order of their names. -/
def selected (l : Listing) (testName : String) : Listing :=
  (l.filter fun e => isTraceName testName e.1).mergeSort fun a b => !decide (b.1 < a.1)

/-- Reads the files one after the other, the first of them for `core`. -/
def readFiles (dir : String) (core : Nat) : Listing → ReadResult
  | [] => ⟨[], .ok []⟩
  | (name, content) :: rest =>
    let told : Record := ⟨.info, "reading file: " ++ Text.quoted name⟩
    match content.text with
    | .error e => ⟨[told], .error (.traceRead (entryPath dir name) e)⟩
    | .ok text =>
      let r := Reading.ofText core text.toList
      let later := readFiles dir (core + 1) rest
      ⟨told :: (r.warnings core).map (⟨.warn, ·⟩) ++ later.log,
        later.result.map (r.program.toList :: ·)⟩

/-- **The programs of a test**, from a directory that may itself be unreadable. -/
def programs (dir testName : String) : Except FileError Listing → ReadResult
  | .error e => ⟨[], .error (.traceRead dir e)⟩
  | .ok l =>
    match l.selected testName with
    | [] => ⟨[], .error (.noTraces testName)⟩
    | files => readFiles dir 0 files

end Listing

end Snooping
