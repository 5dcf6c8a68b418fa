import Snooping.CommandLine.Command

/-!
# The program

Runs the command on the real file system, with the log on standard error and the report on standard
output. Exit codes: 0 for a finished run, 1 for an error, 101 for a fault.
-/

namespace Snooping

/-- What the system says about a file. -/
def FileError.ofSystem (e : IO.Error) : FileError :=
  match e with
  | .noFileOrDirectory .. => .notFound
  | .inappropriateType _ code _ =>
    if code = 20 then .notADirectory else if code = 21 then .isADirectory else .refused (toString e)
  | e => .refused (toString e)

/-- What can be read of a file. -/
def Content.load (path : String) : IO Content := do
  try return .ok (← IO.FS.readBinFile path)
  catch e => return .error (.ofSystem e)

/-- What can be read of a directory, as far as it concerns a test. -/
def Listing.load (dir testName : String) : IO (Except FileError Listing) := do
  if dir.isEmpty then return .error .notFound
  try
    let names := (← ((← IO.currentDir) / dir).readDir).toList.map (·.fileName)
    let wanted := names.filter (isTraceName testName)
    return .ok (← wanted.mapM fun name => return (name, ← Content.load (entryPath dir name)))
  catch e => return .error (.ofSystem e)

/-- A span of nanoseconds in milliseconds. -/
def milliseconds (nanos : Nat) : String :=
  let part := toString (nanos / 1000 % 1000)
  toString (nanos / 1000000) ++ "." ++ String.ofList (List.replicate (3 - part.length) '0') ++
    part ++ "ms"

/-- Runs the command line, and returns the exit code. -/
def runProgram (args : List String) : IO UInt32 := do
  let verbosity := Verbosity.ofSetting (← IO.getEnv "CACHESIM_LOG_LEVEL")
  let listing ← match Options.ofArgs args with
    | .ok o => Listing.load o.dir o.testName
    | .error _ => pure (.error .notFound)
  let started ← IO.monoNanosNow
  match command (fun _ => listing) args with
  | .error f =>
    IO.eprintln f.message
    return 101
  | .ok o =>
    for r in o.shownLog verbosity do
      IO.eprintln ("[" ++ r.level.name ++ "] " ++ r.text)
    for l in o.output do
      IO.println l
    if o.result.isOk then
      IO.println ("execution time " ++ milliseconds ((← IO.monoNanosNow) - started))
    return UInt32.ofNat o.exitCode

end Snooping

/-- The program. -/
def main (args : List String) : IO UInt32 := Snooping.runProgram args
