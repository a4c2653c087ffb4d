import Mathlib.Init

/-!
# Runs of a machine

A machine is a step function: the event `e` takes the state `s` to a next state if it can happen
there.  A run is a list of events.

* `run_inv`      what every step preserves holds at the end of every run;
* `Meets`        every event of a run meets a condition in the state before it;
* `Meets.inv`    the same for what these events preserve.
-/

namespace Trace
variable {S E : Type} (step : S → E → Option S)

/-- the events one after the other, if each can happen -/
def run : S → List E → Option S
  | s, [] => some s
  | s, e :: es => (step s e).bind fun s' => run s' es

/-- every event meets `C` in the state before it -/
def Meets (C : S → E → Prop) : S → List E → Prop
  | _, [] => True
  | s, e :: es => C s e ∧ ∀ s', step s e = some s' → Meets C s' es

variable {step} {s t : S} {e : E} {es : List E}

theorem run_cons (h : run step s (e :: es) = some t) :
    ∃ s', step s e = some s' ∧ run step s' es = some t :=
  Option.bind_eq_some_iff.mp h

/-- an invariant of the steps that meet `C` -/
theorem Meets.inv {C : S → E → Prop} {I : S → Prop}
    (hI : ∀ {s e s'}, I s → C s e → step s e = some s' → I s') (hm : Meets step C s es)
    (hrun : run step s es = some t) (hs : I s) : I t := by
  induction es generalizing s with
  | nil => exact Option.some.inj hrun ▸ hs
  | cons e es ih =>
    obtain ⟨s', hstep, hrest⟩ := run_cons hrun
    exact ih (hm.2 s' hstep) hrest (hI hs hm.1 hstep)

theorem meets_true (s : S) (es : List E) : Meets step (fun _ _ => True) s es := by
  induction es generalizing s with
  | nil => trivial
  | cons e es ih => exact ⟨trivial, fun s' _ => ih s'⟩

/-- an invariant of all steps -/
theorem run_inv {I : S → Prop} (hI : ∀ {s e s'}, I s → step s e = some s' → I s')
    (hrun : run step s es = some t) (hs : I s) : I t :=
  (meets_true s es).inv (fun hs _ hstep => hI hs hstep) hrun hs

/-- a run that ends outside of `B`, which no step leaves, meets whatever keeps out of `B` -/
theorem meets_of_avoids {C : S → E → Prop} {I B : S → Prop}
    (hI : ∀ {s e s'}, I s → step s e = some s' → I s')
    (hB : ∀ {s e s'}, B s → step s e = some s' → B s')
    (henter : ∀ {s e s'}, I s → ¬ C s e → step s e = some s' → B s')
    (hrun : run step s es = some t) (hs : I s) (ht : ¬ B t) : Meets step C s es := by
  induction es generalizing s with
  | nil => trivial
  | cons e es ih =>
    obtain ⟨s', hstep, hrest⟩ := run_cons hrun
    refine ⟨?_, fun s'' hstep' => ?_⟩
    · refine Classical.byContradiction fun hc => ?_
      exact ht (run_inv hB hrest (henter hs hc hstep))
    · obtain rfl := Option.some.inj (hstep.symm.trans hstep')
      exact ih hrest (hI hs hstep)

end Trace
