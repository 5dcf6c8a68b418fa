import Mathlib.Data.List.Sort
import Snooping.Machine.Basic
import Snooping.Proofs.Protocol.Agreement

/-!
# The order in which requests end

All requests that have ended, by cycle and then by core. In this order the machine is compared with
a memory that does one request after the other.

* **`Machine.timeline`**: the requests of all cores in order.
* **`lastWrite`**: the last word written to a place; `valueOf`: the same for all words of a line.
* `Machine.timeline_append`: the next request to end comes last.
* `Faithful`: reads return what was written last.
-/

namespace Snooping

variable {g : Geometry} {n : Nat}

/-- A request that has ended, with its core. -/
structure Entry (n : Nat) where
  core : Fin n
  ended : Completion
  deriving DecidableEq

namespace Entry

/-- The first ends in an earlier cycle, or in the same for a smaller core. -/
def Before (x y : Entry n) : Prop :=
  x.ended.cycle < y.ended.cycle ∨ (x.ended.cycle = y.ended.cycle ∧ x.core < y.core)

/-- The same, or with the same cycle and core. -/
def Upto (x y : Entry n) : Prop :=
  x.ended.cycle < y.ended.cycle ∨ (x.ended.cycle = y.ended.cycle ∧ x.core ≤ y.core)

instance (x y : Entry n) : Decidable (x.Before y) := by unfold Before; infer_instance

instance (x y : Entry n) : Decidable (x.Upto y) := by unfold Upto; infer_instance

instance : Std.Total (Upto (n := n)) where
  total x y := by
    simp only [Upto]
    omega

instance : IsTrans (Entry n) Upto where
  trans x y z hxy hyz := by
    simp only [Upto] at *
    omega

theorem Before.upto {x y : Entry n} (h : x.Before y) : x.Upto y := by
  simp only [Before, Upto] at *
  omega

theorem Before.not_upto {x y : Entry n} (h : x.Before y) : ¬ y.Upto x := by
  simp only [Before, Upto] at *
  omega

/-- The word that is written to a place. -/
def written? (e : Entry n) (a : Addr) (w : Fin lineWords) : Option Word :=
  match e.ended.request with
  | .read _ => none
  | .write x v => if x.line = a.line ∧ x.word = w then some v else none

end Entry

/-! ## What was written last -/

/-- **The last word written to word `w` of a line**, 0 if there is none. -/
def lastWrite (l : List (Entry n)) (a : Addr) (w : Fin lineWords) : Word :=
  (l.filterMap fun e => e.written? a w).getLast?.getD 0

/-- A line once all requests were done in order. -/
def valueOf (l : List (Entry n)) (a : Addr) : Block :=
  l.foldl (fun b e => e.ended.request.update a b) Block.zero

theorem valueOf_append (l : List (Entry n)) (e : Entry n) (a : Addr) :
    valueOf (l ++ [e]) a = e.ended.request.update a (valueOf l a) := by
  rw [valueOf, List.foldl_append]
  rfl

theorem lastWrite_append (l : List (Entry n)) (e : Entry n) (a : Addr) (w : Fin lineWords) :
    lastWrite (l ++ [e]) a w = (e.written? a w).getD (lastWrite l a w) := by
  rw [lastWrite, List.filterMap_append]
  cases he : e.written? a w with
  | none => simp [he, lastWrite]
  | some v => simp [he]

theorem getElem_update (r : Request) (a : Addr) (b : Block) (i : Fin n) (v : Word) (hit : Bool)
    (t : Nat) (w : Fin lineWords) :
    (r.update a b)[w] = (Entry.written? ⟨i, ⟨r, v, hit, t⟩⟩ a w).getD b[w] := by
  cases r with
  | read x => rfl
  | write x v =>
    simp only [Request.update, Entry.written?]
    by_cases hx : a.line = x.line
    · by_cases hw : x.word = w
      · subst hw
        simp [hx]
      · simp [hx, hw, Vector.getElem_put_of_ne _ _ (Ne.symm hw)]
    · simp [hx, Ne.symm hx]

theorem getElem_valueOf (l : List (Entry n)) (a : Addr) (w : Fin lineWords) :
    (valueOf l a)[w] = lastWrite l a w := by
  induction l using List.reverseRecOn with
  | nil => simp [valueOf, lastWrite, Block.zero]
  | append_singleton l e ih =>
    rw [valueOf_append, lastWrite_append, ← ih]
    exact getElem_update _ a _ e.core e.ended.value e.ended.hit e.ended.cycle w

theorem lastWrite_line (l : List (Entry n)) (a : Addr) (w : Fin lineWords) :
    lastWrite l a.line w = lastWrite l a w := by
  simp only [lastWrite, Entry.written?, a.line_line]

/-- Reads of the first `size` bytes return what was written last. -/
def Faithful (size : UInt32) (l : List (Entry n)) : Prop :=
  ∀ before e after, l = before ++ e :: after → ∀ a, e.ended.request = .read a → a.val < size →
    e.ended.value = lastWrite before a a.word

theorem faithful_append {size : UInt32} {l : List (Entry n)} {e : Entry n} (h : Faithful size l)
    (he : ∀ a, e.ended.request = .read a → a.val < size → e.ended.value = lastWrite l a a.word) :
    Faithful size (l ++ [e]) := by
  intro before x after hx
  obtain rfl | ⟨after, y, rfl⟩ := List.eq_nil_or_concat after
  · obtain ⟨rfl, hy⟩ := List.append_inj' hx rfl
    cases hy
    exact he
  · have hx : l ++ [e] = (before ++ x :: after) ++ [y] := by simpa using hx
    exact h before x after (List.append_inj' hx rfl).1

/-! ## The timeline -/

namespace Machine

/-- The requests that have ended, core by core. -/
def entries (m : Machine g n) : List (Entry n) :=
  (List.finRange n).flatMap fun i => m.cores[i].completed.toList.map (Entry.mk i)

/-- **The requests that have ended**, by cycle and then by core. -/
def timeline (m : Machine g n) : List (Entry n) := m.entries.insertionSort Entry.Upto

theorem perm_timeline (m : Machine g n) : m.timeline.Perm m.entries := List.perm_insertionSort _ _

theorem entries_congr {m m' : Machine g n}
    (h : ∀ i : Fin n, m'.cores[i].completed = m.cores[i].completed) : m'.entries = m.entries := by
  simp only [entries, h]

theorem entries_push {m m' : Machine g n} {i : Fin n} {c : Completion}
    (hi : m'.cores[i].completed = m.cores[i].completed.push c)
    (h : ∀ j, j ≠ i → m'.cores[j].completed = m.cores[j].completed) :
    m'.entries.Perm (⟨i, c⟩ :: m.entries) := by
  obtain ⟨pre, post, hs⟩ := List.append_of_mem (List.mem_finRange i)
  have hnodup := hs ▸ List.nodup_finRange n
  obtain ⟨-, hpost, hd⟩ := List.nodup_append.mp hnodup
  have hpre : ∀ j ∈ pre, j ≠ i := fun j hj => hd j hj i List.mem_cons_self
  have hpost : ∀ j ∈ post, j ≠ i := fun j hj e => (List.nodup_cons.mp hpost).1 (e ▸ hj)
  have hsame : ∀ l : List (Fin n), (∀ j ∈ l, j ≠ i) →
      (l.flatMap fun j => m'.cores[j].completed.toList.map (Entry.mk j)) =
        l.flatMap fun j => m.cores[j].completed.toList.map (Entry.mk j) := fun l hl => by
    refine List.flatMap_congr fun j hj => ?_
    rw [h j (hl j hj)]
  simp only [entries, hs, List.flatMap_append, List.flatMap_cons, hsame pre hpre, hsame post hpost,
    hi, Array.toList_push, List.map_append, List.map_cons, List.map_nil, List.append_assoc,
    List.singleton_append]
  exact (List.perm_middle.append_left _).trans List.perm_middle

/-- **The next request to end comes last.** -/
theorem timeline_append {m m' : Machine g n} {e : Entry n} (h : m'.entries.Perm (e :: m.entries))
    (hs : m.timeline.Pairwise Entry.Before) (hb : ∀ x ∈ m.timeline, x.Before e) :
    m'.timeline = m.timeline ++ [e] := by
  have hperm : m'.timeline.Perm (m.timeline ++ [e]) := by
    refine (perm_timeline m').trans (h.trans ?_)
    exact ((perm_timeline m).symm.cons e).trans (List.perm_append_singleton e _).symm
  have hstrict : (m.timeline ++ [e]).Pairwise Entry.Before :=
    List.pairwise_append.mpr ⟨hs, List.pairwise_singleton _ _, fun x hx y hy =>
      List.mem_singleton.mp hy ▸ hb x hx⟩
  -- No two requests share a cycle and a core, so that there is only one way to order them.
  have hone : ∀ x ∈ m.timeline ++ [e], ∀ y ∈ m.timeline ++ [e], x.Upto y → y.Upto x → x = y :=
    List.Pairwise.forall_of_forall_of_flip (fun _ _ _ _ => rfl)
      (hstrict.imp fun hxy _ hyx => absurd hyx hxy.not_upto)
      (hstrict.imp fun hxy hyx _ => absurd hyx hxy.not_upto)
  exact hperm.eq_of_pairwise (fun x y hx hy => hone x (hperm.mem_iff.mp hx) y hy)
    (List.pairwise_insertionSort _ _) (hstrict.imp Entry.Before.upto)

end Machine

end Snooping
