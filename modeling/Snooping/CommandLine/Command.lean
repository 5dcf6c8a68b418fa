import Snooping.CommandLine.Options
import Snooping.Log
import Snooping.Machine.Run
import Snooping.Trace.Directory

/-!
# The command

The command reads the traces of a test, runs a machine on them and prints its report. On the way it
tells what it does, in a log that can be shortened to the important records.

* `Outcome`: what the command has told, and the lines it prints or the error it ends with.
* `simulate`: runs programs.
* **`command`**: the whole command, over a view of the file system.
* `Verbosity.ofSetting`: how much of the log is shown.
-/

namespace Snooping

/-- How much of the log is shown, by the name of the least important level; everything is shown if
nothing is said. -/
def Verbosity.ofSetting : Option String → Verbosity
  | none => some .info
  | some s =>
    match s.toLower with
    | "" | "error" => some .error
    | "warn" => some .warn
    | "info" | "debug" | "trace" => some .info
    | _ => none

/-- **What a command comes to.** -/
structure Outcome where
  log : List Record
  /-- The lines it prints. -/
  result : Except SimError (List String)

namespace Outcome

/-- A command that ends with an error, which is its last record. -/
def failed (log : List Record) (e : SimError) : Outcome :=
  ⟨log ++ [⟨.error, e.message⟩], .error e⟩

/-- The lines it prints. -/
def output (o : Outcome) : List String := o.result.toOption.getD []

/-- Zero for success, one for an error. -/
def exitCode (o : Outcome) : Nat := if o.result.isOk then 0 else 1

/-- The log as it is shown. -/
def shownLog (o : Outcome) (v : Verbosity) : List Record := o.log.filter v.shows

end Outcome

/-- The ends of the programs that are over, in the order in which they came. -/
def Machine.finishes {g : Geometry} {n : Nat} (m : Machine g n) : List Record :=
  let ends := m.cores.toList.filterMap fun c => c.doneAt.map fun t => (t, c.id)
  (ends.mergeSort fun a b => a.1 ≤ b.1).map fun (t, id) =>
    ⟨.info, "core " ++ toString id ++ ": trace finished at cycle " ++ toString t⟩

/-- Runs programs, after something has been told. -/
def simulate (told : List Record) (spec : Spec) (programs : List Program) :
    Except Fault Outcome :=
  match Machine.ofSpec spec programs with
  | .error (.fault f) => throw f
  | .error (.error e) => return .failed told e
  | .ok ⟨_, m⟩ => do
    let (result, m) ← m.run
    let told := told ++
      [⟨.info, "simulating " ++ toString programs.length ++ " cores"⟩] ++ m.finishes
    match result with
    | .error e => return .failed told e
    | .ok () =>
      let finished := "finished simulation in " ++ toString m.now ++ " cycles"
      return ⟨told ++ [⟨.info, finished⟩], .ok (← m.report.lines)⟩

/-- **The command.** `files` tells what can be read of a directory. -/
def command (files : String → Except FileError Listing) (args : List String) :
    Except Fault Outcome :=
  match Options.ofArgs args with
  | .error e => return .failed [] (.config e)
  | .ok o =>
    let read := Listing.programs o.dir o.testName (files o.dir)
    match read.result with
    | .error e => return .failed read.log e
    | .ok programs => simulate read.log o.spec programs

end Snooping
