import Onion.Lib.Logged

/-!
# Runs that show another run

`Refines f R x y` says that what `f` shows of the events of the run `x` is the log of the run `y`,
and that their results are in the relation `R`.  Proofs follow the structure of both:

* `Refines.pure`, `Refines.bind`   step by step;
* `Refines.after`, `Refines.before`   a part of `x` that shows nothing;
* `Refines.forEach`     a loop over a list, and one over what is left of it;
* `Refines.select`      what is read off the events that are shown.
-/

namespace Logged
variable {ε δ α β γ κ : Type}

/-- `x` shows the events of `y`, and ends in relation to its end -/
structure Refines (f : ε → Option δ) (R : α → β → Prop) (x : Logged ε α) (y : Logged δ β) :
    Prop where
  shown : select f x = y.log
  val : R x.val y.val

namespace Refines
variable {f : ε → Option δ} {R : α → β → Prop} {S : γ → κ → Prop} {x : Logged ε α}
  {y : Logged δ β}

theorem pure {a : α} {b : β} (h : R a b) : Refines f R (Pure.pure a) (Pure.pure b) := ⟨rfl, h⟩

theorem bind {k : α → Logged ε γ} {l : β → Logged δ κ} (h : Refines f R x y)
    (hk : R x.val y.val → Refines f S (k x.val) (l y.val)) : Refines f S (x >>= k) (y >>= l) := by
  obtain ⟨hshown, hval⟩ := hk h.val
  refine ⟨?_, hval⟩
  rw [select_bind, h.shown, hshown]
  rfl

theorem after {k : α → Logged ε γ} {y : Logged δ κ} (hx : select f x = [])
    (hk : Refines f S (k x.val) y) : Refines f S (x >>= k) y := by
  refine ⟨?_, hk.val⟩
  rw [select_bind, hx, List.nil_append]
  exact hk.shown

theorem before {k : α → Logged ε γ} {T : γ → β → Prop} (h : Refines f R x y)
    (hk : R x.val y.val → select f (k x.val) = [] ∧ T (k x.val).val y.val) :
    Refines f T (x >>= k) y := by
  obtain ⟨hnil, hval⟩ := hk h.val
  refine ⟨?_, hval⟩
  rw [select_bind, hnil, List.append_nil]
  exact h.shown

/-- a loop over what `g` gives: where it gives nothing, nothing is shown -/
theorem forEach {ι ι' : Type} {body : ι → α → Logged ε α} {body' : ι' → β → Logged δ β}
    {g : ι → Option ι'} {xs : List ι} {a : α} {b : β} (h : R a b)
    (hbody : ∀ i a b, R a b → Refines f R (body i a) ((g i).elim (Pure.pure b) fun j => body' j b)) :
    Refines f R (Logged.forEach body xs a) (Logged.forEach body' (xs.filterMap g) b) := by
  induction xs generalizing a b with
  | nil => exact pure h
  | cons i xs ih =>
    have hi := hbody i a b h
    cases hg : g i with
    | none =>
      rw [hg] at hi
      rw [List.filterMap_cons_none hg]
      exact after hi.shown (ih hi.val)
    | some j =>
      rw [hg] at hi
      rw [List.filterMap_cons_some hg]
      exact bind hi ih

/-- what is read off the events that are shown -/
theorem select {f' : ε → Option γ} {g : δ → Option γ} (h : Refines f R x y)
    (hf : ∀ e, f' e = (f e).bind g) : Logged.select f' x = y.log.filterMap g := by
  have hf' : f' = fun e => (f e).bind g := by
    funext e
    exact hf e
  rw [← h.shown, Logged.select, Logged.select, List.filterMap_filterMap, hf']

end Refines
end Logged
