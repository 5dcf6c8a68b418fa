/-!
# Vectors and their places

The places of a vector are the numbers below its length. To look at one takes no proof that it is
there.

* `Vector.put`: a vector with another entry at a place.
* `Vector.getElem_put_self`, `Vector.getElem_put_of_ne`, `Vector.forall_put`: its entries.
* `Vector.mem_iff_place`: the entries are what is at the places.
-/

namespace Vector

variable {α : Type} {n : Nat}

instance instGetElemPlace : GetElem (Vector α n) (Fin n) α fun _ _ => True where
  getElem v i _ := v.get i

/-- The vector with entry `x` at place `i`. -/
def put (v : Vector α n) (i : Fin n) (x : α) : Vector α n := v.set i x

@[simp] theorem getElem_put_self (v : Vector α n) (i : Fin n) (x : α) : (v.put i x)[i] = x :=
  Vector.getElem_set_self i.isLt

theorem getElem_put_of_ne (v : Vector α n) {i j : Fin n} (x : α) (h : j ≠ i) :
    (v.put i x)[j] = v[j] :=
  Vector.getElem_set_ne i.isLt j.isLt fun e => h (Fin.ext e.symm)

/-- What holds at all places of a vector, and of the other entry, holds after the change. -/
theorem forall_put {v : Vector α n} {i : Fin n} {x : α} {P : Fin n → α → Prop} (hx : P i x)
    (hv : ∀ j, P j v[j]) (j : Fin n) : P j (v.put i x)[j] := by
  by_cases hj : j = i
  · subst hj
    rwa [getElem_put_self]
  · rw [getElem_put_of_ne v x hj]
    exact hv j

@[simp] theorem put_getElem (v : Vector α n) (i : Fin n) : v.put i v[i] = v :=
  Vector.set_getElem_self i.isLt

@[simp] theorem getElem_ofFn_place (f : Fin n → α) (i : Fin n) : (Vector.ofFn f)[i] = f i :=
  Vector.getElem_ofFn i.isLt

@[simp] theorem getElem_replicate_place (x : α) (i : Fin n) : (Vector.replicate n x)[i] = x :=
  Vector.getElem_replicate i.isLt

theorem mem_iff_place {v : Vector α n} {x : α} : x ∈ v ↔ ∃ i : Fin n, v[i] = x :=
  Vector.mem_iff_getElem.trans
    ⟨fun ⟨i, h, e⟩ => ⟨⟨i, h⟩, e⟩, fun ⟨i, e⟩ => ⟨i, i.isLt, e⟩⟩

end Vector
