import Onion.Lib.Trace
import Onion.Cli.Report

/-!
# The end of an engine, seen from the loop of `main`

The engine thread pushes candidates, returns from `run()` and stores `engine_done`; `main` waits on
the queue with a timeout and, after a timeout, loads the flag.  The wait and the load are two steps,
and the engine thread may run between them.

* `Session.step`     one step of one of the two threads;
* `run_mainLoop`     what `main` does in a session is `mainLoop` on the rounds that it took;
* `queue_empty_iff`  with exit code 4 the queue is empty unless the flag was stored between a
                     timeout and its load, after a push there.
-/

namespace Onion
open Logged

/-- the thread of the engine: it may push until it returns -/
inductive Runner where
  | running
  | returned
  /-- `engine_done` is stored -/
  | done
deriving DecidableEq

/-- where `main` is in its loop -/
inductive LoopPc where
  | head
  /-- in `pop_wait_for` -/
  | wait
  | popped (c : MatchCandidate)
  /-- `pop_wait_for` returned nothing; the load of `engine_done` is next -/
  | timedOut
  | left

/-- the two threads and the queue, with the pushes so far and the rounds that `main` completed -/
structure Session where
  runner : Runner
  queue : List MatchCandidate
  pc : LoopPc
  main : MainState
  pushed : List MatchCandidate
  turns : List Turn

inductive SessionEvent where
  | push (c : MatchCandidate)
  /-- `run()` returns -/
  | finish
  /-- `engine_done.store(true)` -/
  | store
  /-- the condition of the loop, with the value of `g_interrupted` -/
  | head (interrupted : Bool)
  | pop
  /-- the wait times out, on an empty queue -/
  | timeout
  /-- verify, write and report -/
  | handle
  /-- `engine_done.load()` -/
  | load

namespace Session

section
variable (base : Bytes 32 → Option (Bytes 32)) (os : Os) (outdir : List Char)
  (patterns : List CompiledPattern) (count : Nat)

/-- an event, if its thread is there -/
def step (s : Session) : SessionEvent → Option Session
  | .push c =>
    if s.runner = .running then some { s with queue := s.queue ++ [c], pushed := s.pushed ++ [c] }
    else none
  | .finish => if s.runner = .running then some { s with runner := .returned } else none
  | .store => if s.runner = .returned then some { s with runner := .done } else none
  | .head interrupted =>
    match s.pc with
    | .head =>
      if (count = 0 ∨ s.main.found < count) ∧ ¬ interrupted then some { s with pc := .wait }
      else some { s with pc := .left, turns := s.turns ++ [⟨interrupted, none, false⟩] }
    | _ => none
  | .pop =>
    match s.pc, s.queue with
    | .wait, c :: queue => some { s with pc := .popped c, queue := queue }
    | _, _ => none
  | .timeout =>
    match s.pc, s.queue with
    | .wait, [] => some { s with pc := .timedOut }
    | _, _ => none
  | .handle =>
    match s.pc with
    | .popped c =>
      let r := (Onion.handle base os outdir patterns c s.main).val
      some { s with
        pc := if r.1 then .head else .left
        main := r.2
        turns := s.turns ++ [⟨false, some c, false⟩] }
    | _ => none
  | .load =>
    match s.pc with
    | .timedOut =>
      if s.runner = .done then
        some { s with
          pc := .left
          main := { s.main with exitCode := if s.main.exitCode = 0 then 4 else s.main.exitCode }
          turns := s.turns ++ [⟨false, none, true⟩] }
      else some { s with pc := .head, turns := s.turns ++ [⟨false, none, false⟩] }
    | _ => none

end

/-- before the first round -/
def start (w : World) : Session := ⟨.running, [], .head, ⟨0, 0, w⟩, [], []⟩

def handled (s : Session) : List MatchCandidate := s.turns.filterMap Turn.popped

section
variable {base : Bytes 32 → Option (Bytes 32)} {os : Os} {outdir : List Char}
  {patterns : List CompiledPattern} {count : Nat} {s s' t : Session} {e : SessionEvent}
  {es : List SessionEvent}

/-- what each event needs, and what it does -/
def Effect (base : Bytes 32 → Option (Bytes 32)) (os : Os) (outdir : List Char)
    (patterns : List CompiledPattern) (count : Nat) (s s' : Session) : SessionEvent → Prop
  | .push c => s.runner = .running ∧
      s' = { s with queue := s.queue ++ [c], pushed := s.pushed ++ [c] }
  | .finish => s.runner = .running ∧ s' = { s with runner := .returned }
  | .store => s.runner = .returned ∧ s' = { s with runner := .done }
  | .head interrupted => s.pc = .head ∧
      (((count = 0 ∨ s.main.found < count) ∧ ¬ interrupted) ∧ s' = { s with pc := .wait } ∨
        ¬ ((count = 0 ∨ s.main.found < count) ∧ ¬ interrupted) ∧
          s' = { s with pc := .left, turns := s.turns ++ [⟨interrupted, none, false⟩] })
  | .pop => s.pc = .wait ∧ ∃ c queue, s.queue = c :: queue ∧
      s' = { s with pc := .popped c, queue := queue }
  | .timeout => s.pc = .wait ∧ s.queue = [] ∧ s' = { s with pc := .timedOut }
  | .handle => ∃ c, s.pc = .popped c ∧
      let r := (Onion.handle base os outdir patterns c s.main).val
      s' = { s with
        pc := if r.1 then .head else .left
        main := r.2
        turns := s.turns ++ [⟨false, some c, false⟩] }
  | .load => s.pc = .timedOut ∧
      (s.runner = .done ∧ s' = { s with
          pc := .left
          main := { s.main with exitCode := if s.main.exitCode = 0 then 4 else s.main.exitCode }
          turns := s.turns ++ [⟨false, none, true⟩] } ∨
        s.runner ≠ .done ∧
          s' = { s with pc := .head, turns := s.turns ++ [⟨false, none, false⟩] })

theorem step_cases (h : step base os outdir patterns count s e = some s') :
    Effect base os outdir patterns count s s' e := by
  cases e with
  | push c =>
    rw [step, Option.ite_none_right_eq_some] at h
    exact ⟨h.1, (Option.some.inj h.2).symm⟩
  | finish =>
    rw [step, Option.ite_none_right_eq_some] at h
    exact ⟨h.1, (Option.some.inj h.2).symm⟩
  | store =>
    rw [step, Option.ite_none_right_eq_some] at h
    exact ⟨h.1, (Option.some.inj h.2).symm⟩
  | head interrupted =>
    rw [step] at h
    split at h
    next hpc =>
      refine ⟨hpc, ?_⟩
      split at h
      next hgo => exact Or.inl ⟨hgo, (Option.some.inj h).symm⟩
      next hgo => exact Or.inr ⟨hgo, (Option.some.inj h).symm⟩
    · cases h
  | pop =>
    rw [step] at h
    split at h
    next c queue hpc hq => exact ⟨hpc, c, queue, hq, (Option.some.inj h).symm⟩
    · cases h
  | timeout =>
    rw [step] at h
    split at h
    next hpc hq => exact ⟨hpc, hq, (Option.some.inj h).symm⟩
    · cases h
  | handle =>
    rw [step] at h
    split at h
    next c hpc => exact ⟨c, hpc, (Option.some.inj h).symm⟩
    · cases h
  | load =>
    rw [step] at h
    split at h
    next hpc =>
      refine ⟨hpc, ?_⟩
      split at h
      next hd => exact Or.inl ⟨hd, (Option.some.inj h).symm⟩
      next hd => exact Or.inr ⟨hd, (Option.some.inj h).symm⟩
    · cases h

/-! ## where the candidates are -/

/-- the candidate that `main` holds -/
def inHand (s : Session) : List MatchCandidate :=
  match s.pc with
  | .popped c => [c]
  | _ => []

/-- every candidate that was pushed was handled, is in hand, or is in the queue -/
def Conserved (s : Session) : Prop := s.pushed = s.handled ++ s.inHand ++ s.queue

theorem handled_snoc (turns : List Turn) (turn : Turn) :
    (turns ++ [turn]).filterMap Turn.popped = turns.filterMap Turn.popped ++ turn.popped.toList := by
  rw [List.filterMap_append]
  cases h : turn.popped with
  | none => exact congrArg _ (List.filterMap_cons_none h)
  | some c => exact congrArg _ (List.filterMap_cons_some h)

theorem step_conserved (hs : s.Conserved) (h : step base os outdir patterns count s e = some s') :
    s'.Conserved := by
  have hstep := step_cases h
  rw [Conserved, handled, inHand] at hs
  rw [Conserved, handled, inHand]
  cases e with
  | push c =>
    obtain ⟨-, rfl⟩ := hstep
    dsimp only
    rw [hs, List.append_assoc]
  | finish =>
    obtain ⟨-, rfl⟩ := hstep
    exact hs
  | store =>
    obtain ⟨-, rfl⟩ := hstep
    exact hs
  | head interrupted =>
    obtain ⟨hpc, ⟨-, rfl⟩ | ⟨-, rfl⟩⟩ := hstep
    · rw [hpc] at hs
      exact hs
    · rw [hpc] at hs
      dsimp only
      rw [handled_snoc, Option.toList_none, List.append_nil]
      exact hs
  | pop =>
    obtain ⟨hpc, c, queue, hq, rfl⟩ := hstep
    rw [hpc, hq, List.append_nil] at hs
    dsimp only
    rw [hs, List.append_assoc]
    rfl
  | timeout =>
    obtain ⟨hpc, hq, rfl⟩ := hstep
    rw [hpc] at hs
    exact hs
  | handle =>
    obtain ⟨c, hpc, rfl⟩ := hstep
    rw [hpc] at hs
    have hnone : (match (if (Onion.handle base os outdir patterns c s.main).val.1 then LoopPc.head
        else .left) with | .popped c => [c] | _ => []) = ([] : List MatchCandidate) := by
      split_ifs <;> rfl
    dsimp only
    rw [handled_snoc, hnone, List.append_nil]
    exact hs
  | load =>
    obtain ⟨hpc, ⟨-, rfl⟩ | ⟨-, rfl⟩⟩ := hstep
    · rw [hpc] at hs
      dsimp only
      rw [handled_snoc, Option.toList_none, List.append_nil]
      exact hs
    · rw [hpc] at hs
      dsimp only
      rw [handled_snoc, Option.toList_none, List.append_nil]
      exact hs

/-! ## what `main` does is its loop -/

/-- the rounds so far, and then any others, are a run of `mainLoop` -/
def Follows (base : Bytes 32 → Option (Bytes 32)) (os : Os) (outdir : List Char)
    (patterns : List CompiledPattern) (count : Nat) (first : MainState) (s : Session) : Prop :=
  ∀ rest, let r := (mainLoop base os outdir patterns count (s.turns ++ rest) first).val
    match s.pc with
    | .left => r = s.main
    | .head => r = (mainLoop base os outdir patterns count rest s.main).val
    | _ => r = (mainLoop base os outdir patterns count rest s.main).val ∧
        (count = 0 ∨ s.main.found < count)

theorem step_follows {first : MainState} (hs : s.Follows base os outdir patterns count first)
    (h : step base os outdir patterns count s e = some s') :
    s'.Follows base os outdir patterns count first := by
  have hstep := step_cases h
  intro rest
  have hloop : ∀ rest, _ := hs
  cases e with
  | push c =>
    obtain ⟨-, rfl⟩ := hstep
    exact hs rest
  | finish =>
    obtain ⟨-, rfl⟩ := hstep
    exact hs rest
  | store =>
    obtain ⟨-, rfl⟩ := hstep
    exact hs rest
  | head interrupted =>
    obtain ⟨hpc, ⟨hgo, rfl⟩ | ⟨hgo, rfl⟩⟩ := hstep
    · simp only [hpc] at hloop
      exact ⟨hloop rest, hgo.1⟩
    · simp only [hpc] at hloop
      show (mainLoop base os outdir patterns count (s.turns ++ [_] ++ rest) first).val = s.main
      rw [List.append_assoc]
      refine (hloop _).trans ?_
      rw [List.singleton_append, mainLoop, if_neg hgo]
      rfl
  | pop =>
    obtain ⟨hpc, c, queue, hq, rfl⟩ := hstep
    simp only [hpc] at hloop
    exact hloop rest
  | timeout =>
    obtain ⟨hpc, hq, rfl⟩ := hstep
    simp only [hpc] at hloop
    exact hloop rest
  | handle =>
    obtain ⟨c, hpc, rfl⟩ := hstep
    simp only [hpc] at hloop
    obtain ⟨hnext, hgo⟩ := hloop ([⟨false, some c, false⟩] ++ rest)
    rw [← List.append_assoc, List.singleton_append, mainLoop,
      if_pos ⟨hgo, Bool.false_ne_true⟩] at hnext
    dsimp only at hnext ⊢
    rw [bind_val] at hnext
    by_cases hlive : (Onion.handle base os outdir patterns c s.main).val.1 = true
    · rw [if_pos hlive] at hnext ⊢
      exact hnext
    · rw [if_neg hlive] at hnext ⊢
      exact hnext
  | load =>
    obtain ⟨hpc, ⟨hd, rfl⟩ | ⟨hd, rfl⟩⟩ := hstep
    · simp only [hpc] at hloop
      obtain ⟨hnext, hgo⟩ := hloop ([⟨false, none, true⟩] ++ rest)
      rw [← List.append_assoc, List.singleton_append, mainLoop,
        if_pos ⟨hgo, Bool.false_ne_true⟩] at hnext
      exact hnext
    · simp only [hpc] at hloop
      obtain ⟨hnext, hgo⟩ := hloop ([⟨false, none, false⟩] ++ rest)
      rw [← List.append_assoc, List.singleton_append, mainLoop,
        if_pos ⟨hgo, Bool.false_ne_true⟩] at hnext
      exact hnext

/-- **A session ends as `mainLoop` does** on the rounds that `main` took. -/
theorem run_mainLoop {w : World}
    (h : Trace.run (step base os outdir patterns count) (start w) es = some t)
    (hleft : t.pc = .left) :
    (mainLoop base os outdir patterns count t.turns ⟨0, 0, w⟩).val = t.main := by
  have hfollows : t.Follows base os outdir patterns count ⟨0, 0, w⟩ :=
    Trace.run_inv step_follows h fun rest => rfl
  have hrest := hfollows []
  rw [hleft, List.append_nil] at hrest
  exact hrest

/-! ## the exit code -/

theorem handle_exit (base : Bytes 32 → Option (Bytes 32)) (os : Os) (outdir : List Char)
    (patterns : List CompiledPattern) (c : MatchCandidate) (m : MainState) :
    let r := (Onion.handle base os outdir patterns c m).val
    r.1 = true ∧ r.2.exitCode = m.exitCode ∨ r.1 = false ∧ (r.2.exitCode = 2 ∨ r.2.exitCode = 3) := by
  dsimp only
  cases hv : verify base c patterns with
  | error e =>
    rw [Onion.handle, hv]
    exact Or.inr ⟨rfl, Or.inl rfl⟩
  | ok v =>
    by_cases hw : (writeTorKeys os outdir v m.world).1 = .ok ()
    · rw [handle_ok hv hw]
      exact Or.inl ⟨rfl, rfl⟩
    · rw [handle_error hv hw]
      exact Or.inr ⟨rfl, Or.inr rfl⟩

/-- exit code 4 comes from a load that sees the flag -/
structure ExitCode (s : Session) : Prop where
  zero : s.pc ≠ .left → s.main.exitCode = 0
  four : s.main.exitCode = 4 → s.runner = .done

theorem step_exitCode (hs : s.ExitCode) (h : step base os outdir patterns count s e = some s') :
    s'.ExitCode := by
  have hstep := step_cases h
  obtain ⟨h0, h4⟩ := hs
  cases e with
  | push c =>
    obtain ⟨-, rfl⟩ := hstep
    exact ⟨h0, h4⟩
  | finish =>
    obtain ⟨hr, rfl⟩ := hstep
    refine ⟨h0, fun he => ?_⟩
    rw [h4 he] at hr
    cases hr
  | store =>
    obtain ⟨-, rfl⟩ := hstep
    exact ⟨h0, fun _ => rfl⟩
  | head interrupted =>
    obtain ⟨hpc, ⟨-, rfl⟩ | ⟨-, rfl⟩⟩ := hstep
    · exact ⟨fun _ => h0 (by rw [hpc]; nofun), h4⟩
    · exact ⟨fun hne => absurd rfl hne, h4⟩
  | pop =>
    obtain ⟨hpc, c, queue, -, rfl⟩ := hstep
    exact ⟨fun _ => h0 (by rw [hpc]; nofun), h4⟩
  | timeout =>
    obtain ⟨hpc, -, rfl⟩ := hstep
    exact ⟨fun _ => h0 (by rw [hpc]; nofun), h4⟩
  | handle =>
    obtain ⟨c, hpc, rfl⟩ := hstep
    have h0' := h0 (by rw [hpc]; nofun)
    rcases handle_exit base os outdir patterns c s.main with ⟨hlive, he⟩ | ⟨hdead, he⟩
    · refine ⟨fun _ => he.trans h0', fun h => ?_⟩
      rw [he, h0'] at h
      cases h
    · refine ⟨fun hne => ?_, fun h => ?_⟩
      · rw [hdead] at hne
        exact absurd rfl hne
      · rw [h] at he
        omega
  | load =>
    obtain ⟨hpc, ⟨hd, rfl⟩ | ⟨-, rfl⟩⟩ := hstep
    · exact ⟨fun hne => absurd rfl hne, fun _ => hd⟩
    · exact ⟨fun _ => h0 (by rw [hpc]; nofun), h4⟩

/-! ## the window -/

/-- the flag is not stored between a timeout and its load, after a push there -/
def StoredOutside (s : Session) : SessionEvent → Prop
  | .store => s.pc = .timedOut → s.queue = []
  | _ => True

/-- once the flag is stored, a timeout and exit code 4 mean an empty queue -/
structure Drained (s : Session) : Prop where
  exitCode : s.ExitCode
  timedOut : s.runner = .done → s.pc = .timedOut → s.queue = []
  four : s.main.exitCode = 4 → s.queue = []

theorem step_drained (hs : s.Drained) (hc : s.StoredOutside e)
    (h : step base os outdir patterns count s e = some s') : s'.Drained := by
  have hexit := step_exitCode hs.exitCode h
  have hstep := step_cases h
  cases e with
  | push c =>
    obtain ⟨hr, rfl⟩ := hstep
    refine ⟨hexit, fun hd => ?_, fun h4 => ?_⟩
    · rw [show s.runner = _ from hd] at hr
      cases hr
    · rw [hs.exitCode.four h4] at hr
      cases hr
  | finish =>
    obtain ⟨hr, rfl⟩ := hstep
    exact ⟨hexit, nofun, hs.four⟩
  | store =>
    obtain ⟨hr, rfl⟩ := hstep
    exact ⟨hexit, fun _ hpc => hc hpc, hs.four⟩
  | head interrupted =>
    obtain ⟨hpc, ⟨-, rfl⟩ | ⟨-, rfl⟩⟩ := hstep
    · exact ⟨hexit, nofun, hs.four⟩
    · exact ⟨hexit, nofun, hs.four⟩
  | pop =>
    obtain ⟨hpc, c, queue, hq, rfl⟩ := hstep
    refine ⟨hexit, nofun, fun h4 => ?_⟩
    have hnil := hs.four h4
    rw [hq] at hnil
    cases hnil
  | timeout =>
    obtain ⟨hpc, hq, rfl⟩ := hstep
    exact ⟨hexit, fun _ _ => hq, hs.four⟩
  | handle =>
    obtain ⟨c, hpc, rfl⟩ := hstep
    refine ⟨hexit, fun _ ht => ?_, fun h4 => ?_⟩
    · split_ifs at ht
    · have h0 := hs.exitCode.zero (by rw [hpc]; nofun)
      rcases handle_exit base os outdir patterns c s.main with ⟨-, he⟩ | ⟨-, he⟩
      · rw [show _ = 4 from h4, h0] at he
        cases he
      · rw [show _ = 4 from h4] at he
        omega
  | load =>
    obtain ⟨hpc, ⟨hd, rfl⟩ | ⟨-, rfl⟩⟩ := hstep
    · exact ⟨hexit, nofun, fun _ => hs.timedOut hd hpc⟩
    · exact ⟨hexit, nofun, hs.four⟩

/-- the flag is up, and `main` is past its last timeout with candidates in the queue -/
structure Lost (s : Session) : Prop where
  runner : s.runner = .done
  pc : s.pc = .timedOut ∨ s.pc = .left
  queue : s.queue ≠ []

theorem step_lost (hs : s.Lost) (h : step base os outdir patterns count s e = some s') :
    s'.Lost := by
  have hstep := step_cases h
  obtain ⟨hr, hpc, hq⟩ := hs
  have hne : ∀ pc, pc ≠ LoopPc.timedOut → pc ≠ .left → s.pc ≠ pc := by
    rintro pc h1 h2 rfl
    exact hpc.elim h1 h2
  cases e with
  | push c => exact absurd (hr.symm.trans hstep.1) nofun
  | finish => exact absurd (hr.symm.trans hstep.1) nofun
  | store => exact absurd (hr.symm.trans hstep.1) nofun
  | head interrupted => exact absurd hstep.1 (hne _ nofun nofun)
  | pop => exact absurd hstep.1 (hne _ nofun nofun)
  | timeout => exact absurd hstep.1 (hne _ nofun nofun)
  | handle =>
    obtain ⟨c, hc, -⟩ := hstep
    exact absurd hc (hne _ nofun nofun)
  | load =>
    obtain ⟨-, ⟨-, rfl⟩ | ⟨hd, -⟩⟩ := hstep
    · exact ⟨hr, Or.inr rfl, hq⟩
    · exact absurd hr hd

theorem enters_lost (hc : ¬ s.StoredOutside e)
    (h : step base os outdir patterns count s e = some s') : s'.Lost := by
  have hstep := step_cases h
  cases e with
  | store =>
    obtain ⟨-, rfl⟩ := hstep
    obtain ⟨hpc, hq⟩ := Classical.not_imp.mp hc
    exact ⟨rfl, Or.inl hpc, hq⟩
  | _ => exact absurd trivial hc

theorem start_drained (w : World) : (start w).Drained :=
  ⟨⟨fun _ => rfl, nofun⟩, nofun, nofun⟩

/-- **With exit code 4** every candidate that was pushed has been handled exactly when the flag was
never stored between a timeout and its load with a push in between. -/
theorem queue_empty_iff (base : Bytes 32 → Option (Bytes 32)) (os : Os) (outdir : List Char)
    (patterns : List CompiledPattern) (count : Nat) (w : World) (es : List SessionEvent)
    (t : Session) (h : Trace.run (step base os outdir patterns count) (start w) es = some t)
    (h4 : t.main.exitCode = 4) :
    (t.queue = [] ∧ t.handled = t.pushed) ↔
      Trace.Meets (step base os outdir patterns count) StoredOutside (start w) es := by
  have hconserved : t.Conserved := Trace.run_inv step_conserved h rfl
  have hexit : t.ExitCode := Trace.run_inv step_exitCode h (start_drained w).exitCode
  constructor
  · intro ht
    exact Trace.meets_of_avoids (I := fun _ => True) (B := Lost) (fun _ _ => trivial) step_lost
      (fun _ => enters_lost) h trivial fun hlost => hlost.queue ht.1
  · intro hm
    have hq := (hm.inv step_drained h (start_drained w)).four h4
    have hleft : t.pc = .left := by
      by_contra hne
      rw [hexit.zero hne] at h4
      cases h4
    rw [Conserved, inHand, hleft, hq, List.append_nil] at hconserved
    refine ⟨hq, ?_⟩
    rw [hconserved]
    exact (List.append_nil _).symm

end

/-- a candidate is handled; the engine returns, and a wait times out after it -/
def quietRun : List SessionEvent :=
  [.push zeroCandidate, .head false, .pop, .handle, .finish, .store, .head false, .timeout, .load]

theorem quietRun_ends {base : Bytes 32 → Option (Bytes 32)} {os : Os} {outdir : List Char}
    {patterns : List CompiledPattern} {w : World} {m : MainState}
    (hm : (Onion.handle base os outdir patterns zeroCandidate ⟨0, 0, w⟩).val = (true, m))
    (hfound : m.found ≤ 1) (hexit : m.exitCode = 0) :
    Trace.run (step base os outdir patterns 2) (start w) quietRun =
      some ⟨.done, [], .left, { m with exitCode := 4 }, [zeroCandidate],
        [⟨false, some zeroCandidate, false⟩, ⟨false, none, true⟩]⟩ := by
  simp [quietRun, Trace.run, step, start, hm, hfound, hexit]

/-- a quiet run ends with exit code 4 -/
theorem queue_empty_iff_quiet :
    ∃ t, Trace.run (step (fun _ => some zero32) soundOs [] letterPatterns 2) (start freshState.world)
        quietRun = some t ∧ t.main.exitCode = 4 ∧ t.handled = [zeroCandidate] ∧
      ((t.queue = [] ∧ t.handled = t.pushed) ↔
        Trace.Meets (step (fun _ => some zero32) soundOs [] letterPatterns 2) StoredOutside
          (start freshState.world) quietRun) := by
  have hw := (writeTorKeys_ok soundOs_sound (w := freshState.world)
    (r := ⟨zeroCandidate.secret, zero32, onionAddressFromPubkey zero32⟩) rfl []).1
  have hrun := quietRun_ends (handle_ok (s := freshState) zero_verified hw)
    (show (0 + 1) % 2^64 ≤ 1 by norm_num) rfl
  exact ⟨_, hrun, rfl, rfl, queue_empty_iff _ soundOs [] letterPatterns 2 freshState.world quietRun _
    hrun rfl⟩

/-- a candidate pushed, and the flag stored, between the timeout and the load -/
def lossyRun : List SessionEvent :=
  [.head false, .timeout, .push zeroCandidate, .finish, .store, .load]

/-- exit code 4, with a verified candidate in the queue -/
theorem candidate_left_behind :
    ∃ t, Trace.run (step (fun _ => some zero32) soundOs [] letterPatterns 1) (start freshState.world)
        lossyRun = some t ∧ t.main.exitCode = 4 ∧ t.queue = [zeroCandidate] ∧ t.handled = [] ∧
      ∃ v, verify (fun _ => some zero32) zeroCandidate letterPatterns = .ok v :=
  ⟨_, rfl, rfl, rfl, rfl, _, zero_verified⟩

end Session

end Onion
