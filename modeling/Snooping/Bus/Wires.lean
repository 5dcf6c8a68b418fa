import Snooping.Bus.Basic

/-!
# The wires of the bus

The request fields as they are seen in one clock period, each of them undriven or with a value.

* `Wire`, `Wires`, **`Bus.wires`** and their texts.
-/

namespace Snooping

/-- One field of the bus. -/
inductive Wire (α : Type)
  | undriven
  | driven (value : α)

/-- A wire is written as its value, and as `Z` while nobody drives it. -/
def Wire.text {α : Type} (write : α → String) : Wire α → String
  | undriven => "Z"
  | driven value => write value

/-- The fields of a request. -/
structure Wires where
  requester : Wire Nat
  source : Wire Source
  addr : Wire Addr
  func : Wire Func

/-- The fields of the bus in this clock period. -/
def Bus.wires (b : Bus) : Wires :=
  match b.current with
  | none => ⟨.undriven, .undriven, .undriven, .undriven⟩
  | some t => ⟨.driven t.requester, .driven t.source, .driven t.addr, .driven t.func⟩

/-- All fields in one line. -/
def Wires.text (w : Wires) : String :=
  "proc_id=" ++ w.requester.text toString ++ " source_id=" ++ w.source.text Source.text ++
    " addr=" ++ w.addr.text Addr.text ++ " func=" ++ w.func.text Func.name

end Snooping
