import Mathlib.Algebra.GroupWithZero.Nat
import Mathlib.Data.List.Nodup
import Mathlib.Tactic.Common
import Snooping.Instr
import Snooping.Spec

/-!
# The ideal cache

A cache that writes lines back and replaces the one that was used least recently, told from the
accesses of a program alone. There are no ways and no counters here. The accesses so far are listed
with the last one first, and a line is named by its number.

* **`Ideal.recent`**: the lines of a set by their last access.
* **`Ideal.hits`**: the line of an access is there; `Ideal.evicted?`: the line that gives way to it.
* **`Ideal.written`**: a line was written since it was fetched; `Ideal.writesBack`: it has to be
  written back.
* **`Request.cost`**, `Instr.cost`: the cycles of an access and of an instruction;
  `Program.costs`, `Program.lookups`, `Program.writeBacks`: the same for a whole program.
-/

namespace Snooping

/-- The number of the line with a set index and a tag. -/
def Geometry.lineIn (g : Geometry) (i : Fin g.sets) (tag : Nat) : Nat := tag * g.sets + i

theorem Geometry.lineIn_injective (g : Geometry) (i : Fin g.sets) :
    Function.Injective (g.lineIn i) := by
  intro s t h
  exact Nat.eq_of_mul_eq_mul_right g.sets_pos (Nat.add_right_cancel h)

theorem Geometry.lineIn_place (g : Geometry) (a : Addr) :
    g.lineIn (g.index a) (g.tag a) = a.lineNumber :=
  Nat.div_add_mod' a.lineNumber g.sets

theorem Geometry.lineIn_ne {g : Geometry} {i : Fin g.sets} {a : Addr} (h : g.index a ≠ i)
    (tag : Nat) : g.lineIn i tag ≠ a.lineNumber := by
  intro he
  refine h (Fin.ext ?_)
  show a.lineNumber % g.sets = i
  rw [← he, lineIn, Nat.mul_add_mod_self_right, Nat.mod_eq_of_lt i.isLt]

namespace Ideal

variable (g : Geometry)

/-! ## Recency -/

/-- **The lines of a set that were accessed**, the last one first. -/
def recent (i : Fin g.sets) : List Request → List Nat
  | [] => []
  | r :: past =>
    if g.index r.addr = i then
      r.addr.lineNumber :: (recent i past).filter (· ≠ r.addr.lineNumber)
    else recent i past

/-- The number of accesses to a set. -/
def visits (i : Fin g.sets) (past : List Request) : Nat := past.countP (g.index ·.addr = i)

/-- **An access finds its line**: it is among those of its set that were accessed last, as many as
the set has ways. -/
def hits (past : List Request) (r : Request) : Bool :=
  r.addr.lineNumber ∈ (recent g (g.index r.addr) past).take g.ways

/-- The line that gives way to an access: the least recently accessed one of a full set. -/
def evicted? (past : List Request) (r : Request) : Option Nat :=
  if hits g past r then none else (recent g (g.index r.addr) past)[g.ways - 1]?

/-- **A line was written since it was fetched**, by the access that fetched it or by a later one. -/
def written : List Request → Nat → Bool
  | [], _ => false
  | r :: past, l =>
    if r.addr.lineNumber = l then r.isWrite || (hits g past r && written past l)
    else written past l

/-- An access evicts a line that was written since it was fetched. -/
def writesBack (past : List Request) (r : Request) : Bool :=
  (evicted? g past r).any (written g past)

/-- The transfers that an access asks for. -/
def transfers (past : List Request) (r : Request) : Nat :=
  if hits g past r then 0 else if writesBack g past r then 2 else 1

section Lemmas

variable {g} {i : Fin g.sets} {r : Request} {past : List Request}

theorem recent_cons_self (h : g.index r.addr = i) : recent g i (r :: past) =
    r.addr.lineNumber :: (recent g i past).filter (· ≠ r.addr.lineNumber) := if_pos h

theorem recent_cons_of_ne (h : g.index r.addr ≠ i) :
    recent g i (r :: past) = recent g i past := if_neg h

theorem nodup_recent (i : Fin g.sets) (past : List Request) : (recent g i past).Nodup := by
  induction past with
  | nil => exact .nil
  | cons r past ih =>
    by_cases h : g.index r.addr = i
    · rw [recent_cons_self h, List.nodup_cons]
      exact ⟨by simp, ih.filter _⟩
    · rwa [recent_cons_of_ne h]

theorem visits_cons_self (h : g.index r.addr = i) :
    visits g i (r :: past) = visits g i past + 1 := by
  simp [visits, h]

theorem visits_cons_of_ne (h : g.index r.addr ≠ i) :
    visits g i (r :: past) = visits g i past := by
  simp [visits, h]

theorem written_cons_self : written g (r :: past) r.addr.lineNumber =
    (r.isWrite || (hits g past r && written g past r.addr.lineNumber)) := if_pos rfl

theorem written_cons_of_ne {l : Nat} (h : l ≠ r.addr.lineNumber) :
    written g (r :: past) l = written g past l := if_neg h.symm

end Lemmas

/-! ## The last lines of a list -/

section Take

variable {α : Type} [DecidableEq α] {x : α} {l : List α} {k : Nat}

theorem take_filter_of_mem (hl : l.Nodup) (hx : x ∈ l.take k) :
    (l.filter (· ≠ x)).take (k - 1) = (l.take k).filter (· ≠ x) := by
  induction l generalizing k with
  | nil => simp
  | cons y l ih =>
    obtain ⟨hy, hl⟩ := List.nodup_cons.mp hl
    cases k with
    | zero => cases hx
    | succ k =>
      rw [List.take_succ_cons, Nat.add_sub_cancel]
      by_cases he : y = x
      · subst he
        have hne : ∀ z ∈ l, z ≠ y := fun z hz => by
          rintro rfl
          exact hy hz
        rw [List.filter_cons_of_neg (by simp), List.filter_cons_of_neg (by simp),
          List.filter_eq_self.mpr fun z hz => by simp [hne z hz],
          List.filter_eq_self.mpr fun z hz => by simp [hne z (List.mem_of_mem_take hz)]]
      · have hx := (List.mem_cons.mp hx).resolve_left (Ne.symm he)
        obtain ⟨j, rfl⟩ : ∃ j, k = j + 1 := Nat.exists_eq_add_one.mpr (by
          by_contra hk
          rw [Nat.eq_zero_of_not_pos hk] at hx
          cases hx)
        rw [List.filter_cons_of_pos (by simp [he]), List.filter_cons_of_pos (by simp [he]),
          List.take_succ_cons, ← ih hl hx, Nat.add_sub_cancel]

theorem take_filter_of_notMem (hx : x ∉ l.take k) : (l.filter (· ≠ x)).take k = l.take k := by
  induction l generalizing k with
  | nil => rfl
  | cons y l ih =>
    cases k with
    | zero => rfl
    | succ k =>
      rw [List.take_succ_cons, List.mem_cons, not_or] at hx
      rw [List.filter_cons_of_pos (by simpa using Ne.symm hx.1), List.take_succ_cons,
        List.take_succ_cons, ih hx.2]

end Take

end Ideal

/-! ## Costs -/

section Cost

variable (g : Geometry) (cold : Nat) (past : List Request)

/-- The cycles of an access: a hit, a line that has to be fetched, and one that has to be fetched
after another one was written back. -/
def Request.cost (r : Request) : Nat :=
  if Ideal.hits g past r then 2 else if Ideal.writesBack g past r then 2 * cold + 6 else cold + 4

/-- An access takes two cycles for itself, and the latency and two more for each transfer. -/
theorem Request.cost_eq (r : Request) :
    r.cost g cold past = Ideal.transfers g past r * (cold + 2) + 2 := by
  unfold cost Ideal.transfers
  split_ifs <;> omega

/-- **The cycles of an instruction** after the accesses `past`. Other work takes a cycle at
least. -/
def Instr.cost : Instr → Nat
  | .other d => max d.toNat 1
  | .read a => (Request.read a).cost g cold past
  | .write a v => (Request.write a v).cost g cold past

end Cost

namespace Program

/-- The instructions of a program, each with the accesses before it, the last one first. -/
def withPast (past : List Request) : Program → List (List Request × Instr)
  | [] => []
  | x :: rest => (past, x) :: withPast (x.request?.toList ++ past) rest

variable (g : Geometry) (cold : Nat) (past : List Request) (program : Program)

/-- **The cycles of a program** on an ideal cache. -/
def costs : Nat := ((program.withPast past).map fun e => e.2.cost g cold e.1).sum

/-- **Its accesses**, with whether they find their lines. -/
def lookups : List (Request × Bool) :=
  (program.withPast past).filterMap fun e => e.2.request?.map fun r => (r, Ideal.hits g e.1 r)

/-- **How many of them write a line back.** -/
def writeBacks : Nat :=
  (program.withPast past).countP fun e => e.2.request?.any (Ideal.writesBack g e.1)

section Cons

variable {g cold past} {x : Instr} {rest : Program} {r : Request}

theorem costs_access (hx : x.request? = some r) : costs g cold past (x :: rest) =
    r.cost g cold past + rest.costs g cold (r :: past) := by
  have hcost : x.cost g cold past = r.cost g cold past := by
    cases x <;> cases hx <;> rfl
  rw [costs, withPast, List.map_cons, List.sum_cons, hx, hcost]
  rfl

theorem costs_other {d : UInt32} : costs g cold past (.other d :: rest) =
    max d.toNat 1 + rest.costs g cold past := rfl

theorem lookups_access (hx : x.request? = some r) : lookups g past (x :: rest) =
    (r, Ideal.hits g past r) :: rest.lookups g (r :: past) := by
  rw [lookups, withPast, List.filterMap_cons, hx]
  rfl

theorem writeBacks_access (hx : x.request? = some r) : writeBacks g past (x :: rest) =
    (Ideal.writesBack g past r).toNat + rest.writeBacks g (r :: past) := by
  rw [writeBacks, withPast, List.countP_cons, hx, Option.any_some, Nat.add_comm]
  cases Ideal.writesBack g past r <;> rfl

end Cons

end Program

end Snooping
