import Mathlib.Algebra.Ring.Nat

/-!
# Vectors at an index of their own length

`v[i]` with `i : Fin n` asks for no bound, and a literal index of a vector is read as such an `i`.
The rules of `map`, `ofFn`, `replicate` and `set` are stated at these indices; `getElem_fin` leads
back to numbers, and `ext_fin` compares two vectors.
-/

@[default_instance high]
instance Vector.instGetElemFin {α : Type} {n : Nat} :
    GetElem (Vector α n) (Fin n) α fun _ _ => True where
  getElem v i _ := getElem v i.1 i.2

namespace Vector
variable {α β : Type} {n : Nat}

@[simp] theorem getElem_fin (v : Vector α n) (i : Fin n) : v[i] = getElem v i.1 i.2 := rfl

theorem ext_fin {v w : Vector α n} (h : ∀ i : Fin n, v[i] = w[i]) : v = w :=
  Vector.ext fun i hi => h ⟨i, hi⟩

theorem getElem_map_fin (f : α → β) (v : Vector α n) (i : Fin n) : (v.map f)[i] = f v[i] :=
  Vector.getElem_map f i.2

theorem getElem_ofFn_fin (f : Fin n → α) (i : Fin n) : (Vector.ofFn f)[i] = f i :=
  Vector.getElem_ofFn i.2

theorem getElem_replicate_fin (x : α) (i : Fin n) : (Vector.replicate n x)[i] = x :=
  Vector.getElem_replicate i.2

theorem getElem_set_fin_self (v : Vector α n) (i : Fin n) (x : α) : (v.set i x i.2)[i] = x :=
  Vector.getElem_set_self i.2

theorem getElem_set_fin_ne {i j : Fin n} (hj : j ≠ i) (v : Vector α n) (x : α) :
    (v.set i x i.2)[j] = v[j] :=
  Vector.getElem_set_ne i.2 j.2 fun e => hj (Fin.ext e.symm)

end Vector

/-! the lengths in use: a literal is an index of a vector that is not empty -/

instance Nat.neZero_four : NeZero 4 := ⟨Nat.succ_ne_zero 3⟩
instance Nat.neZero_ten : NeZero 10 := ⟨Nat.succ_ne_zero 9⟩
instance Nat.neZero_nineteen : NeZero 19 := ⟨Nat.succ_ne_zero 18⟩
instance Nat.neZero_twentyFive : NeZero 25 := ⟨Nat.succ_ne_zero 24⟩
