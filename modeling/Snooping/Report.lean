import Snooping.Bus.Transfer
import Snooping.Cache.Basic
import Snooping.Memory.Controller
import Snooping.Text.Fixed
import Snooping.Text.Pad

/-!
# Reports

What a run is summed up to: a table of the cores, the transfers of the bus by function, and how long
a core waited for the bus. The sums are 64-bit sums.

* `CoreReport`, **`Report`**: the counts.
* `CoreReport.hitRate`, `Report.busAcquisition`: the ratios.
* **`Report.text`**: the printed form.
-/

namespace Snooping

/-- The counts of one core. -/
structure CoreReport where
  id : Nat
  doneAt : Option Nat
  otherCycles : Nat
  cache : CacheStats
  forwardsSent : Nat

/-- **The counts of a run.** -/
structure Report where
  cycles : Nat
  cores : List CoreReport
  /-- The number of transfers with each function code. -/
  transfers : Vector Nat 6
  /-- The attempts to drive the bus that were turned away. -/
  rejected : Nat
  memory : MemoryStats

/-- The quotient of two 64-bit counts, zero if there is nothing to divide by. -/
def ratio (num den : Nat) : Float :=
  if den = 0 then 0.0 else num.toUInt64.toFloat / den.toUInt64.toFloat

namespace CoreReport

/-- The loads of a core. -/
def reads (c : CoreReport) : Except Fault Nat := sum64 c.cache.readHits c.cache.readMisses

/-- The stores of a core. -/
def writes (c : CoreReport) : Except Fault Nat := sum64 c.cache.writeHits c.cache.writeMisses

/-- The share of loads and stores that found their line, in percent. -/
def hitRate (c : CoreReport) : Except Fault Float := do
  let total ← sum64 (← c.reads) (← c.writes)
  let hits ← sum64 c.cache.readHits c.cache.writeHits
  return ratio hits total * 100.0

end CoreReport

namespace Report

/-- The requests that memory served. -/
def memoryAccesses (r : Report) : Except Fault Nat := sum64 r.memory.reads r.memory.writes

/-- The cycles that a core waited for the bus, per transfer that it drove. -/
def busAcquisition (r : Report) : Except Fault Float := do
  let acquired ← total64 (r.cores.map (·.cache.busAcquisitions))
  let waited ← total64 (r.cores.map (·.cache.busWaitCycles))
  return ratio waited acquired

/-! ## Printed form -/

/-- The head of the table of cores. -/
def header : String :=
  String.intercalate " " <| Text.padLeft 4 "CPU" ::
    ["Reads", "RHit", "RMiss", "Writes", "WHit", "WMiss", "WBack", "Hitrate"].map (Text.padLeft 8)

/-- The row of one core. -/
def row (c : CoreReport) : Except Fault String := do
  let counts := [← c.reads, c.cache.readHits, c.cache.readMisses, ← c.writes, c.cache.writeHits,
    c.cache.writeMisses, c.cache.writeBacks]
  return String.intercalate " " <| Text.padLeft 4 (toString c.id) ::
    counts.map (fun n => Text.padLeft 8 (toString n)) ++
    [Text.padLeft 7 (Text.fixed2 (← c.hitRate)) ++ "%"]

/-- The functions that the report counts. -/
def countedFuncs : List Func := [.read, .write, .invalidate, .response, .requested]

/-- The line of one function. -/
def funcLine (r : Report) (f : Func) : String :=
  "bus " ++ Text.padRight 10 f.name ++ " " ++ Text.padLeft 10 (toString r.transfers[f.code])

/-- The lines of a report. -/
def lines (r : Report) : Except Fault (List String) := do
  let rows ← r.cores.mapM row
  let accesses ← r.memoryAccesses
  let average ← r.busAcquisition
  return ["finished simulation in " ++ toString r.cycles ++ " cycles", header] ++ rows ++ [""] ++
    countedFuncs.map r.funcLine ++
    ["bus rejected attempts " ++ Text.padLeft 10 (toString r.rejected),
      "main memory accesses " ++ Text.padLeft 11 (toString accesses),
      "average bus acquisition time: " ++ Text.fixed2 average ++ " cycles"]

/-- **The printed report.** -/
def text (r : Report) : Except Fault String := return String.intercalate "\n" (← r.lines)

end Report

end Snooping
