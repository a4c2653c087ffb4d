import Onion.Lib.Trace
import Mathlib.Algebra.BigOperators.Group.Finset.Basic
import Mathlib.Algebra.Ring.Nat

/-!
# Potentials

A potential is a number for every state; if every event lowers it, a run is not longer than it was
at the start.  Events that raise it are paid for one by one.

* `run_length`   the length of a run;
* `sum_update`   a potential that is a sum over threads, when one of them moves.
-/

namespace Trace
variable {S E : Type} {step : S → E → Option S} {s t : S} {es : List E}

/-- every event lowers the potential by one, up to what it gains -/
theorem run_length {I : S → Prop} {left : S → ℕ} {gain : E → ℕ}
    (hI : ∀ {s e s'}, I s → step s e = some s' → I s')
    (hleft : ∀ {s e s'}, I s → step s e = some s' → left s' + 1 ≤ left s + gain e)
    (hrun : run step s es = some t) (hs : I s) :
    es.length + left t ≤ left s + (es.map gain).sum := by
  induction es generalizing s with
  | nil =>
    obtain rfl := Option.some.inj hrun
    rw [List.length_nil, Nat.zero_add]
    exact Nat.le_add_right _ _
  | cons e es ih =>
    obtain ⟨s', hstep, hrest⟩ := run_cons hrun
    have hfirst := hleft hs hstep
    have hlater := ih hrest (hI hs hstep)
    rw [List.length_cons, List.map_cons, List.sum_cons]
    omega

/-- thread `i` of `n` moves to `b` -/
theorem sum_update {T : Type} (left : T → ℕ) (threads : ℕ → T) (b : T) {i n : ℕ} (hi : i < n) :
    ∃ others, (∑ j ∈ Finset.range n, left (threads j)) = left (threads i) + others ∧
      (∑ j ∈ Finset.range n, left (Function.update threads i b j)) = left b + others := by
  have hmem : i ∈ Finset.range n := Finset.mem_range.mpr hi
  refine ⟨∑ j ∈ (Finset.range n).erase i, left (threads j), (Finset.add_sum_erase _ _ hmem).symm, ?_⟩
  rw [← Finset.add_sum_erase _ _ hmem, Function.update_self]
  refine congrArg _ (Finset.sum_congr rfl fun j hj => ?_)
  rw [Function.update_of_ne (Finset.ne_of_mem_erase hj)]

end Trace
