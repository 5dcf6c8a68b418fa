/-!
# Agents

The activities that the clock wakes, and how each of them leaves the stage.

* **`Agent`**, ordered by kind and then by number: forwarders, memory, cores, caches.
* `Next`: when an agent wants to go on.
-/

namespace Snooping

/-- **An activity of the machine**, its kind numbered by `ι`. -/
inductive Agent (ι : Type)
  | forwarder (i : ι)
  | memory
  | core (i : ι)
  | cache (i : ι)
  deriving DecidableEq

namespace Agent

variable {ι : Type}

/-- The place of a kind in a cycle: what answers comes before what asks. -/
def rank : Agent ι → Nat
  | forwarder _ => 0
  | memory => 1
  | core _ => 2
  | cache _ => 3

/-- The number of an agent within its kind. -/
def index? : Agent ι → Option ι
  | forwarder i | core i | cache i => some i
  | memory => none

theorem ext_rank {p q : Agent ι} (hr : p.rank = q.rank) (hi : p.index? = q.index?) : p = q := by
  cases p <;> cases q <;> simp_all [rank, index?]

instance [Ord ι] : Ord (Agent ι) := ⟨compareLex (compareOn rank) (compareOn index?)⟩

instance [Ord ι] [Std.TransOrd ι] : Std.TransOrd (Agent ι) :=
  inferInstanceAs (Std.TransCmp (compareLex (compareOn rank) (compareOn index?)))

instance [Ord ι] [Std.LawfulEqOrd ι] : Std.LawfulEqOrd (Agent ι) where
  compare_self {_} := Ordering.then_eq_eq.mpr ⟨Std.ReflCmp.compare_self, Std.ReflCmp.compare_self⟩
  eq_of_compare {p q} h := by
    obtain ⟨hr, hi⟩ := Ordering.then_eq_eq.mp h
    exact ext_rank (Std.LawfulEqOrd.eq_of_compare hr) (Std.LawfulEqOrd.eq_of_compare hi)

end Agent

/-- When an agent goes on. -/
inductive Next
  /-- After some cycles. -/
  | after (delay : Nat)
  /-- When somebody else wakes it. -/
  | park
  /-- Never. -/
  | halt
  deriving DecidableEq

end Snooping
