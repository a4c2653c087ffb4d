import Onion.Lib.Trace

/-!
# One machine over another

A machine with finer steps shows, at each of its events, some events of a coarser machine (often
none).  When each step can be followed, so can each run.

* `shown`        the coarse events of a run, in order;
* `Simulates`    every step is followed by the events that it shows;
* `Simulates.run`   every run is followed by the events that it shows.
-/

namespace Trace
variable {S E T F : Type}

theorem run_append (step : S → E → Option S) (s : S) (es fs : List E) :
    run step s (es ++ fs) = (run step s es).bind fun t => run step t fs := by
  induction es generalizing s with
  | nil => rfl
  | cons e es ih =>
    show (step s e).bind _ = ((step s e).bind _).bind _
    rw [Option.bind_assoc]
    exact congrArg _ (funext fun t => ih t)

section
variable (step : S → E → Option S) (coarse : T → F → Option T) (label : S → E → List F)

/-- the coarse events of a run -/
def shown : S → List E → List F
  | _, [] => []
  | s, e :: es => label s e ++ ((step s e).elim [] fun s' => shown s' es)

/-- the step from `s` by `e` is followed from every related coarse state -/
def Simulates (R : S → T → Prop) : Prop :=
  ∀ {s t e s'}, R s t → step s e = some s' → ∃ t', run coarse t (label s e) = some t' ∧ R s' t'

end

variable {step : S → E → Option S} {coarse : T → F → Option T} {label : S → E → List F}
  {R : S → T → Prop} {s s' : S} {t : T} {es : List E}

theorem Simulates.run (h : Simulates step coarse label R) (hR : R s t)
    (hrun : Trace.run step s es = some s') :
    ∃ t', Trace.run coarse t (shown step label s es) = some t' ∧ R s' t' := by
  induction es generalizing s t with
  | nil => exact ⟨t, rfl, Option.some.inj hrun ▸ hR⟩
  | cons e es ih =>
    obtain ⟨s₁, hstep, hrest⟩ := run_cons hrun
    obtain ⟨t₁, hlabel, hR₁⟩ := h hR hstep
    obtain ⟨t', hshown, hR'⟩ := ih hR₁ hrest
    refine ⟨t', ?_, hR'⟩
    show Trace.run coarse t (label s e ++ (step s e).elim [] fun s' => shown step label s' es) = _
    rw [hstep, run_append, hlabel]
    exact hshown

end Trace
