import Mathlib.Init

/-!
# A mutex

`holds i` says that thread `i` is at a place in its code where it has the mutex.  The mutex is
`Owned` when it records just that: then no two threads are in their critical sections at a time.

* `Owned.acquire`, `Owned.release`, `Owned.keep`   the three kinds of steps;
* `Owned.exclusive`                                one thread at a time.
-/

namespace Mutex
variable {I : Type}

/-- the mutex is held by the thread that is in its critical section -/
def Owned (mutex : Option I) (holds : I → Bool) : Prop :=
  ∀ i, mutex = some i ↔ holds i = true

variable {mutex : Option I} {holds holds' : I → Bool} {i j : I}

theorem Owned.exclusive (h : Owned mutex holds) (hi : holds i = true) (hj : holds j = true) :
    i = j := by
  have e := (h i).mpr hi
  rw [(h j).mpr hj] at e
  exact (Option.some.inj e).symm

/-- nobody is in a critical section while the mutex is free -/
theorem Owned.free (h : Owned none holds) (i : I) : holds i = false := by
  cases hi : holds i with
  | false => rfl
  | true => cases (h i).mpr hi

theorem Owned.keep (h : Owned mutex holds) (hall : ∀ j, holds' j = holds j) :
    Owned mutex holds' := by
  intro j
  rw [hall j]
  exact h j

theorem Owned.acquire (h : Owned none holds) (hi : holds' i = true)
    (hother : ∀ j, j ≠ i → holds' j = holds j) : Owned (some i) holds' := by
  intro j
  constructor
  · intro e
    rw [← Option.some.inj e]
    exact hi
  · intro hj
    refine Classical.byContradiction fun hne => ?_
    rw [hother j fun e => hne (congrArg some e.symm), h.free j] at hj
    cases hj

theorem Owned.release (h : Owned mutex holds) (hi : holds i = true) (hi' : holds' i = false)
    (hother : ∀ j, j ≠ i → holds' j = holds j) : Owned none holds' := by
  intro j
  refine ⟨nofun, fun hj => ?_⟩
  by_cases e : j = i
  · rw [e, hi'] at hj
    cases hj
  · rw [hother j e] at hj
    exact absurd (h.exclusive hj hi) e

end Mutex
