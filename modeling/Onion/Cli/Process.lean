import Onion.Engine.ResultQueue
import Onion.Cli.Shutdown

/-!
# The whole process, step by step

The workers of all engines push on one `ResultQueue`; `CompositeEngine::run` returns when all of
them have, and the runner thread then stores `engine_done`; `main` runs its loop.  Here `push` and
`pop_wait_for` are not one step each but run on the mutex and the condition variable.

* `Process.step`        one step of one thread;
* `Process.session`     what the coarser machine of `Session` sees;
* `Process.simulates`   every step is followed there;
* `Process.refines`     a run of the process is a run of a session.
-/

namespace Onion

/-- where `main` is: before a round, in a round (up to the end of `pop_wait_for` as the queue has
it, and then after it), or out of the loop -/
inductive MainPc where
  | head
  | call
  | left
deriving DecidableEq

structure Process where
  queue : ResultQueue Push
  runner : Runner
  pc : MainPc
  main : MainState
  turns : List Turn

inductive ProcessEvent where
  /-- a step in `push` or in `pop_wait_for` -/
  | queue (e : QueueEvent)
  /-- the last worker has returned, and so does `run()` -/
  | finish
  /-- `engine_done.store(true)` -/
  | store
  /-- the condition of the loop, with the value of `g_interrupted`, and the call -/
  | head (interrupted : Bool)
  /-- verify, write and report -/
  | handle
  /-- `engine_done.load()` -/
  | load

namespace Process

/-- the worker is not in `push`, and will not call it again -/
def returned (p : Producer Push) : Bool := decide (p.pc = .outside) && p.todo.isEmpty

section
variable (base : Bytes 32 → Option (Bytes 32)) (os : Os) (outdir : List Char)
  (patterns : List CompiledPattern) (count workers : Nat)

def step (s : Process) : ProcessEvent → Option Process
  | .queue .enter => none
  | .queue e => (s.queue.step e).map fun queue => { s with queue := queue }
  | .finish =>
    if s.runner = .running ∧ (List.range workers).all (fun t => returned (s.queue.producers t)) then
      some { s with runner := .returned }
    else none
  | .store => if s.runner = .returned then some { s with runner := .done } else none
  | .head interrupted =>
    match s.pc with
    | .head =>
      if (count = 0 ∨ s.main.found < count) ∧ ¬ interrupted then
        (s.queue.step .enter).map fun queue => { s with pc := .call, queue := queue }
      else some { s with pc := .left, turns := s.turns ++ [⟨interrupted, none, false⟩] }
    | _ => none
  | .handle =>
    match s.pc, s.queue.consumer with
    | .call, .outside (some c) =>
      let r := (Onion.handle base os outdir patterns c.cand s.main).val
      some { s with
        pc := if r.1 then .head else .left
        main := r.2
        turns := s.turns ++ [⟨false, some c.cand, false⟩] }
    | _, _ => none
  | .load =>
    match s.pc, s.queue.consumer with
    | .call, .outside none =>
      if s.runner = .done then
        some { s with
          pc := .left
          main := { s.main with exitCode := if s.main.exitCode = 0 then 4 else s.main.exitCode }
          turns := s.turns ++ [⟨false, none, true⟩] }
      else some { s with pc := .head, turns := s.turns ++ [⟨false, none, false⟩] }
    | _, _ => none

end

/-- before the first round; worker `t` is to push `program t` -/
def start (program : Nat → List Push) (w : World) : Process :=
  ⟨ResultQueue.start program, .running, .head, ⟨0, 0, w⟩, []⟩

/-- in a round: before the value is taken, with it, or with the knowledge that there is none -/
def callPc : PopPc Push → LoopPc
  | .outside (some c) | .leaving (some c) => .popped c.cand
  | .outside none | .leaving none => .timedOut
  | _ => .wait

/-- `main` is in `pop_wait_for` -/
def inside : PopPc Push → Bool
  | .outside _ => false
  | _ => true

def loopPc (s : Process) : LoopPc :=
  match s.pc with
  | .head => .head
  | .call => callPc s.queue.consumer
  | .left => .left

/-- the process, seen as a session -/
def session (s : Process) : Session :=
  ⟨s.runner, s.queue.queue.map Push.cand, s.loopPc, s.main,
    s.queue.pushed.map fun x => x.2.cand, s.turns⟩

/-- what an event of the process is in a session: a candidate is pushed by `push_back` and popped by
`pop_front`, and the wait times out at the last test of its predicate -/
def shows (s : Process) : ProcessEvent → List SessionEvent
  | .queue (.pushBack t) => ((s.queue.producers t).todo.head?.map fun p => .push p.cand).toList
  | .queue .popFront => [.pop]
  | .queue .test =>
    match s.queue.consumer, s.queue.queue with
    | .testing true, [] => [.timeout]
    | _, _ => []
  | .queue _ => []
  | .finish => [.finish]
  | .store => [.store]
  | .head interrupted => [.head interrupted]
  | .handle => [.handle]
  | .load => [.load]

/-- no worker is in `push` once `run()` has returned, and `main` is in `pop_wait_for` in its rounds
only -/
structure Inv (workers : Nat) (s : Process) : Prop where
  queue : s.queue.Inv
  idle : s.pc ≠ .call → ∃ last, s.queue.consumer = .outside last
  quiet : s.runner ≠ .running → ∀ t < workers, returned (s.queue.producers t) = true
  beyond : ∀ t, workers ≤ t → returned (s.queue.producers t) = true

section
variable {q q' : ResultQueue Push} {e : QueueEvent} {t : Nat}

theorem returned_iff {p : Producer Push} : returned p = true ↔ p.pc = .outside ∧ p.todo = [] := by
  rw [returned, Bool.and_eq_true, decide_eq_true_iff, List.isEmpty_iff]

theorem step_returned (hp : returned (q.producers t) = true) (h : q.step e = some q') :
    returned (q'.producers t) = true := by
  have hstep := ResultQueue.step_cases h
  obtain ⟨hpc, htodo⟩ := returned_iff.mp hp
  have hother : ∀ {u p}, t ≠ u → returned (Function.update q.producers u p t) = true := by
    intro u p hne
    rw [Function.update_of_ne hne]
    exact hp
  have hpcs : ∀ {u pc}, (q.producers u).pc = pc → pc ≠ .outside → t ≠ u := by
    rintro u pc rfl hne rfl
    exact hne hpc
  cases e with
  | call u =>
    obtain ⟨-, hne, rfl⟩ := hstep
    refine hother fun e => hne ?_
    rw [← e]
    exact htodo
  | lock u =>
    obtain ⟨hu, -, rfl⟩ := hstep
    exact hother (hpcs hu nofun)
  | pushBack u =>
    obtain ⟨hu, a, todo, -, rfl⟩ := hstep
    exact hother (hpcs hu nofun)
  | unlock u =>
    obtain ⟨hu, rfl⟩ := hstep
    exact hother (hpcs hu nofun)
  | notify u =>
    obtain ⟨hu, rfl⟩ := hstep
    exact hother (hpcs hu nofun)
  | enter =>
    obtain ⟨-, rfl⟩ := hstep
    exact hp
  | lockPop =>
    obtain ⟨-, -, rfl⟩ := hstep
    exact hp
  | test =>
    obtain ⟨timedOut, -, ⟨-, rfl⟩ | ⟨-, -, rfl⟩ | ⟨-, -, rfl⟩⟩ := hstep
    · exact hp
    · exact hp
    · exact hp
  | wake =>
    obtain ⟨-, rfl⟩ := hstep
    exact hp
  | relock timedOut =>
    obtain ⟨-, -, rfl⟩ := hstep
    exact hp
  | popFront =>
    obtain ⟨-, a, queue, -, rfl⟩ := hstep
    exact hp
  | leave =>
    obtain ⟨r, -, rfl⟩ := hstep
    exact hp

theorem step_outside {last : Option Push} (hc : q.consumer = .outside last) (he : e ≠ .enter)
    (h : q.step e = some q') : q'.consumer = .outside last := by
  have hstep := ResultQueue.step_cases h
  cases e with
  | call u =>
    obtain ⟨-, -, rfl⟩ := hstep
    exact hc
  | lock u =>
    obtain ⟨-, -, rfl⟩ := hstep
    exact hc
  | pushBack u =>
    obtain ⟨-, a, todo, -, rfl⟩ := hstep
    exact hc
  | unlock u =>
    obtain ⟨-, rfl⟩ := hstep
    exact hc
  | notify u =>
    obtain ⟨-, rfl⟩ := hstep
    show q.consumer.notified = _
    rw [hc]
    rfl
  | enter => exact absurd rfl he
  | lockPop =>
    have hpc := hstep.1
    rw [hc] at hpc
    cases hpc
  | test =>
    obtain ⟨timedOut, hpc, -⟩ := hstep
    rw [hc] at hpc
    cases hpc
  | wake =>
    have hpc := hstep.1
    rw [hc] at hpc
    cases hpc
  | relock timedOut =>
    have hpc := hstep.1
    rw [hc] at hpc
    cases hpc
  | popFront =>
    have hpc := hstep.1
    rw [hc] at hpc
    cases hpc
  | leave =>
    obtain ⟨r, hpc, -⟩ := hstep
    rw [hc] at hpc
    cases hpc

end

section
variable {base : Bytes 32 → Option (Bytes 32)} {os : Os} {outdir : List Char}
  {patterns : List CompiledPattern} {count workers : Nat} {s s' : Process} {e : ProcessEvent}
  {es : List ProcessEvent}

/-- what each event needs, and what it does -/
def Effect (base : Bytes 32 → Option (Bytes 32)) (os : Os) (outdir : List Char)
    (patterns : List CompiledPattern) (count workers : Nat) (s s' : Process) : ProcessEvent → Prop
  | .queue e => e ≠ .enter ∧ ∃ queue, s.queue.step e = some queue ∧ s' = { s with queue := queue }
  | .finish => s.runner = .running ∧ (∀ t < workers, returned (s.queue.producers t) = true) ∧
      s' = { s with runner := .returned }
  | .store => s.runner = .returned ∧ s' = { s with runner := .done }
  | .head interrupted => s.pc = .head ∧
      (((count = 0 ∨ s.main.found < count) ∧ ¬ interrupted) ∧
          (∃ queue, s.queue.step .enter = some queue ∧
            s' = { s with pc := .call, queue := queue }) ∨
        ¬ ((count = 0 ∨ s.main.found < count) ∧ ¬ interrupted) ∧
          s' = { s with pc := .left, turns := s.turns ++ [⟨interrupted, none, false⟩] })
  | .handle => s.pc = .call ∧ ∃ c, s.queue.consumer = .outside (some c) ∧
      let r := (Onion.handle base os outdir patterns c.cand s.main).val
      s' = { s with
        pc := if r.1 then .head else .left
        main := r.2
        turns := s.turns ++ [⟨false, some c.cand, false⟩] }
  | .load => s.pc = .call ∧ s.queue.consumer = .outside none ∧
      (s.runner = .done ∧ s' = { s with
          pc := .left
          main := { s.main with exitCode := if s.main.exitCode = 0 then 4 else s.main.exitCode }
          turns := s.turns ++ [⟨false, none, true⟩] } ∨
        s.runner ≠ .done ∧
          s' = { s with pc := .head, turns := s.turns ++ [⟨false, none, false⟩] })

theorem step_queue {e : QueueEvent} (he : e ≠ .enter) :
    step base os outdir patterns count workers s (.queue e) =
      (s.queue.step e).map fun queue => { s with queue := queue } := by
  cases e with
  | enter => exact absurd rfl he
  | _ => rfl

theorem step_cases (h : step base os outdir patterns count workers s e = some s') :
    Effect base os outdir patterns count workers s s' e := by
  cases e with
  | queue e =>
    have he : e ≠ .enter := by
      rintro rfl
      cases h
    rw [step_queue he, Option.map_eq_some_iff] at h
    obtain ⟨queue, hqueue, rfl⟩ := h
    exact ⟨he, queue, hqueue, rfl⟩
  | finish =>
    rw [step, Option.ite_none_right_eq_some] at h
    refine ⟨h.1.1, fun t ht => ?_, (Option.some.inj h.2).symm⟩
    exact List.all_eq_true.mp h.1.2 t (List.mem_range.mpr ht)
  | store =>
    rw [step, Option.ite_none_right_eq_some] at h
    exact ⟨h.1, (Option.some.inj h.2).symm⟩
  | head interrupted =>
    rw [step] at h
    split at h
    next hpc =>
      refine ⟨hpc, ?_⟩
      split at h
      next hgo =>
        obtain ⟨queue, hqueue, rfl⟩ := Option.map_eq_some_iff.mp h
        exact Or.inl ⟨hgo, queue, hqueue, rfl⟩
      next hgo => exact Or.inr ⟨hgo, (Option.some.inj h).symm⟩
    · cases h
  | handle =>
    rw [step] at h
    split at h
    next c hpc hc => exact ⟨hpc, c, hc, (Option.some.inj h).symm⟩
    · cases h
  | load =>
    rw [step] at h
    split at h
    next hpc hc =>
      refine ⟨hpc, hc, ?_⟩
      split at h
      next hd => exact Or.inl ⟨hd, (Option.some.inj h).symm⟩
      next hd => exact Or.inr ⟨hd, (Option.some.inj h).symm⟩
    · cases h

theorem step_inv (hs : s.Inv workers)
    (h : step base os outdir patterns count workers s e = some s') : s'.Inv workers := by
  have hstep := step_cases h
  obtain ⟨hqueue, hidle, hquiet, hbeyond⟩ := hs
  cases e with
  | queue e =>
    obtain ⟨he, queue, hq, rfl⟩ := hstep
    refine ⟨ResultQueue.step_inv hqueue hq, fun hpc => ?_, fun hr t ht => ?_, fun t ht => ?_⟩
    · obtain ⟨last, hc⟩ := hidle hpc
      exact ⟨last, step_outside hc he hq⟩
    · exact step_returned (hquiet hr t ht) hq
    · exact step_returned (hbeyond t ht) hq
  | finish =>
    obtain ⟨-, hall, rfl⟩ := hstep
    exact ⟨hqueue, hidle, fun _ => hall, hbeyond⟩
  | store =>
    obtain ⟨hr, rfl⟩ := hstep
    exact ⟨hqueue, hidle, fun _ => hquiet (by rw [hr]; decide), hbeyond⟩
  | head interrupted =>
    obtain ⟨hpc, ⟨-, queue, hq, rfl⟩ | ⟨-, rfl⟩⟩ := hstep
    · refine ⟨ResultQueue.step_inv hqueue hq, fun hne => absurd rfl hne, fun hr t ht => ?_,
        fun t ht => ?_⟩
      · exact step_returned (hquiet hr t ht) hq
      · exact step_returned (hbeyond t ht) hq
    · exact ⟨hqueue, fun _ => hidle (by rw [hpc]; decide), hquiet, hbeyond⟩
  | handle =>
    obtain ⟨-, c, hc, rfl⟩ := hstep
    exact ⟨hqueue, fun _ => ⟨_, hc⟩, hquiet, hbeyond⟩
  | load =>
    obtain ⟨-, hc, ⟨-, rfl⟩ | ⟨-, rfl⟩⟩ := hstep
    · exact ⟨hqueue, fun _ => ⟨_, hc⟩, hquiet, hbeyond⟩
    · exact ⟨hqueue, fun _ => ⟨_, hc⟩, hquiet, hbeyond⟩

theorem start_inv {program : Nat → List Push} (hn : ∀ t, workers ≤ t → program t = []) (w : World) :
    (start program w).Inv workers where
  queue := ResultQueue.start_inv program
  idle _ := ⟨none, rfl⟩
  quiet hr := absurd rfl hr
  beyond t ht := returned_iff.mpr ⟨rfl, hn t ht⟩

/-! ## the session -/

theorem callPc_notified (c : PopPc Push) : callPc c.notified = callPc c := by
  cases c <;> rfl

/-- a step that a session does not see -/
theorem silent {queue : ResultQueue Push} (hc : callPc queue.consumer = callPc s.queue.consumer)
    (hq : queue.queue = s.queue.queue) (hp : queue.pushed = s.queue.pushed) :
    Trace.run (Session.step base os outdir patterns count) s.session [] =
      some (session { s with queue := queue }) := by
  unfold session loopPc
  dsimp only
  rw [hq, hp, hc]
  rfl

theorem run_one {S E : Type} (step : S → E → Option S) (s : S) (e : E) :
    Trace.run step s [e] = step s e :=
  Option.bind_fun_some _

theorem call_of_inside (hs : s.Inv workers) (hc : inside s.queue.consumer = true) :
    s.pc = .call := by
  by_contra hne
  obtain ⟨last, h⟩ := hs.idle hne
  rw [h] at hc
  cases hc

theorem running_of_inside {t : Nat} (hs : s.Inv workers)
    (ht : (s.queue.producers t).pc ≠ .outside) : s.runner = .running := by
  by_contra hne
  refine ht (returned_iff.mp ?_).1
  by_cases hlt : t < workers
  · exact hs.quiet hne t hlt
  · exact hs.beyond t (Nat.le_of_not_lt hlt)

theorem queue_simulated {e : QueueEvent} {queue : ResultQueue Push} (hs : s.Inv workers)
    (h : s.queue.step e = some queue) (he : e ≠ .enter) :
    Trace.run (Session.step base os outdir patterns count) s.session (s.shows (.queue e)) =
      some (session { s with queue := queue }) := by
  have hstep := ResultQueue.step_cases h
  cases e with
  | call t =>
    obtain ⟨-, -, rfl⟩ := hstep
    rfl
  | lock t =>
    obtain ⟨-, -, rfl⟩ := hstep
    rfl
  | pushBack t =>
    obtain ⟨hpc, a, todo, htodo, rfl⟩ := hstep
    have hrun : s.runner = .running := running_of_inside (t := t) hs (by rw [hpc]; decide)
    have hshow : s.shows (.queue (.pushBack t)) = [.push a.cand] := by
      rw [shows, htodo]
      rfl
    rw [hshow, run_one, Session.step]
    unfold session loopPc
    dsimp only
    rw [if_pos hrun]
    rw [List.map_append, List.map_append]
    rfl
  | unlock t =>
    obtain ⟨-, rfl⟩ := hstep
    rfl
  | notify t =>
    obtain ⟨-, rfl⟩ := hstep
    exact silent (callPc_notified s.queue.consumer) rfl rfl
  | enter => exact absurd rfl he
  | lockPop =>
    obtain ⟨hpc, -, rfl⟩ := hstep
    exact silent (by rw [hpc]; rfl) rfl rfl
  | test =>
    obtain ⟨timedOut, hpc, hcases⟩ := hstep
    have hcall : s.pc = .call := call_of_inside hs (by rw [hpc]; rfl)
    have hwait : s.loopPc = .wait := by
      rw [loopPc, hcall, hpc]
      rfl
    rcases hcases with ⟨hq, rfl⟩ | ⟨hq, rfl, rfl⟩ | ⟨hq, rfl, rfl⟩
    · have hshow : s.shows (.queue .test) = [] := by
        obtain ⟨a, rest, hcons⟩ := List.exists_cons_of_ne_nil hq
        rw [shows, hpc, hcons]
        cases timedOut <;> rfl
      rw [hshow]
      exact silent (by rw [hpc]; rfl) rfl rfl
    · -- the deadline has passed, and the queue is empty
      have hshow : s.shows (.queue .test) = [.timeout] := by
        rw [shows, hpc, hq]
      rw [hshow, run_one, Session.step]
      unfold session
      dsimp only
      rw [hwait, hq, loopPc, hcall]
      rfl
    · have hshow : s.shows (.queue .test) = [] := by
        rw [shows, hpc, hq]
      rw [hshow]
      exact silent (by rw [hpc]; rfl) rfl rfl
  | wake =>
    obtain ⟨hpc, rfl⟩ := hstep
    exact silent (by rw [hpc]; rfl) rfl rfl
  | relock timedOut =>
    obtain ⟨hpc, -, rfl⟩ := hstep
    exact silent (by rw [hpc]; rfl) rfl rfl
  | popFront =>
    obtain ⟨hpc, a, rest, hq, rfl⟩ := hstep
    have hcall : s.pc = .call := call_of_inside hs (by rw [hpc]; rfl)
    rw [shows, run_one, Session.step]
    unfold session loopPc
    dsimp only
    rw [hcall, hpc, hq]
    rfl
  | leave =>
    obtain ⟨r, hpc, rfl⟩ := hstep
    refine silent ?_ rfl rfl
    rw [hpc]
    cases r with
    | none => rfl
    | some a => rfl

/-- **Every step of the process is followed in a session.** -/
theorem simulates : Trace.Simulates (step base os outdir patterns count workers)
    (Session.step base os outdir patterns count) shows
    fun s t => s.Inv workers ∧ t = s.session := by
  rintro s _ e s' ⟨hs, rfl⟩ h
  refine ⟨s'.session, ?_, step_inv hs h, rfl⟩
  have hstep := step_cases h
  cases e with
  | queue e =>
    obtain ⟨he, queue, hq, rfl⟩ := hstep
    exact queue_simulated hs hq he
  | finish =>
    obtain ⟨hr, -, rfl⟩ := hstep
    rw [shows, run_one, Session.step]
    exact if_pos hr
  | store =>
    obtain ⟨hr, rfl⟩ := hstep
    rw [shows, run_one, Session.step]
    exact if_pos hr
  | head interrupted =>
    rw [shows, run_one, Session.step]
    obtain ⟨hpc, ⟨hgo, queue, hq, rfl⟩ | ⟨hgo, rfl⟩⟩ := hstep
    · obtain ⟨⟨last, hc⟩, rfl⟩ := ResultQueue.step_cases hq
      unfold session loopPc
      dsimp only
      rw [hpc]
      exact if_pos hgo
    · unfold session loopPc
      dsimp only
      rw [hpc]
      exact if_neg hgo
  | handle =>
    obtain ⟨hpc, c, hc, rfl⟩ := hstep
    rw [shows, run_one, Session.step]
    unfold session loopPc
    dsimp only
    rw [hpc, hc]
    dsimp only [callPc]
    refine congrArg some ?_
    split_ifs <;> rfl
  | load =>
    rw [shows, run_one, Session.step]
    obtain ⟨hpc, hc, ⟨hd, rfl⟩ | ⟨hd, rfl⟩⟩ := hstep
    · unfold session loopPc
      dsimp only
      rw [hpc, hc]
      exact if_pos hd
    · unfold session loopPc
      dsimp only
      rw [hpc, hc]
      exact if_neg hd

variable {program : Nat → List Push} {w : World}

theorem run_session (hn : ∀ t, workers ≤ t → program t = [])
    (h : Trace.run (step base os outdir patterns count workers) (start program w) es = some s) :
    Trace.run (Session.step base os outdir patterns count) (Session.start w)
      (Trace.shown (step base os outdir patterns count workers) shows (start program w) es) =
        some s.session := by
  have hstart : (start program w).Inv workers ∧ Session.start w = (start program w).session :=
    ⟨start_inv hn w, rfl⟩
  obtain ⟨t, hrun, -, rfl⟩ := simulates.run hstart h
  exact hrun

/-- **A run of the process is a run of a session**, of the events that it shows. -/
theorem refines (base : Bytes 32 → Option (Bytes 32)) (os : Os) (outdir : List Char)
    (patterns : List CompiledPattern) (count workers : Nat) (program : Nat → List Push)
    (hn : ∀ t, workers ≤ t → program t = []) (w : World) (es : List ProcessEvent) (s : Process)
    (h : Trace.run (step base os outdir patterns count workers) (start program w) es = some s) :
    Trace.run (Session.step base os outdir patterns count) (Session.start w)
      (Trace.shown (step base os outdir patterns count workers) shows (start program w) es) =
        some s.session :=
  run_session hn h

/-! ## what `main` does with what the workers push -/

theorem step_lift {I : ResultQueue Push → Prop}
    (hI : ∀ {q e q'}, I q → ResultQueue.step q e = some q' → I q') (hs : I s.queue)
    (h : step base os outdir patterns count workers s e = some s') : I s'.queue := by
  have hstep := step_cases h
  cases e with
  | queue e =>
    obtain ⟨-, queue, hq, rfl⟩ := hstep
    exact hI hs hq
  | finish =>
    obtain ⟨-, -, rfl⟩ := hstep
    exact hs
  | store =>
    obtain ⟨-, rfl⟩ := hstep
    exact hs
  | head interrupted =>
    obtain ⟨-, ⟨-, queue, hq, rfl⟩ | ⟨-, rfl⟩⟩ := hstep
    · exact hI hs hq
    · exact hs
  | handle =>
    obtain ⟨-, c, -, rfl⟩ := hstep
    exact hs
  | load =>
    obtain ⟨-, -, ⟨-, rfl⟩ | ⟨-, rfl⟩⟩ := hstep
    · exact hs
    · exact hs

theorem run_history
    (h : Trace.run (step base os outdir patterns count workers) (start program w) es = some s) :
    s.queue.History program :=
  Trace.run_inv (I := fun s => s.queue.History program)
    (step_lift fun hs hq => ResultQueue.step_history hs hq) h (ResultQueue.start_history program)

theorem run_exitCode (hn : ∀ t, workers ≤ t → program t = [])
    (h : Trace.run (step base os outdir patterns count workers) (start program w) es = some s) :
    s.session.ExitCode :=
  Trace.run_inv Session.step_exitCode (run_session hn h) (Session.start_drained w).exitCode

theorem run_loop (hn : ∀ t, workers ≤ t → program t = [])
    (h : Trace.run (step base os outdir patterns count workers) (start program w) es = some s)
    (hleft : s.pc = .left) :
    (mainLoop base os outdir patterns count s.turns ⟨0, 0, w⟩).val = s.main := by
  have hpc : s.session.pc = .left := by
    show s.loopPc = _
    rw [loopPc, hleft]
  exact Session.run_mainLoop (run_session hn h) hpc

/-- what `main` popped comes first -/
theorem popped_first (hn : ∀ t, workers ≤ t → program t = [])
    (h : Trace.run (step base os outdir patterns count workers) (start program w) es = some s) :
    s.turns.filterMap Turn.popped <+: s.queue.pushed.map fun x => x.2.cand := by
  have hconserved : s.session.Conserved :=
    Trace.run_inv Session.step_conserved (run_session hn h) rfl
  rw [Session.Conserved, List.append_assoc] at hconserved
  exact ⟨_, hconserved.symm⟩

theorem pushed_mem (hn : ∀ t, workers ≤ t → program t = [])
    (h : Trace.run (step base os outdir patterns count workers) (start program w) es = some s)
    {x : Nat × Push} (hx : x ∈ s.queue.pushed) : x.1 < workers ∧ x.2 ∈ program x.1 := by
  have hmem : x.2 ∈ program x.1 := by
    rw [← (run_history h).own x.1]
    exact List.mem_append_left _ (ResultQueue.mem_pushedBy hx)
  refine ⟨Nat.lt_of_not_le fun hle => ?_, hmem⟩
  rw [hn _ hle] at hmem
  cases hmem

theorem popped_mem (hn : ∀ t, workers ≤ t → program t = [])
    (h : Trace.run (step base os outdir patterns count workers) (start program w) es = some s)
    {c : MatchCandidate} (hc : c ∈ s.turns.filterMap Turn.popped) :
    ∃ t < workers, ∃ p ∈ program t, p.cand = c := by
  obtain ⟨x, hx, rfl⟩ := List.mem_map.mp ((popped_first hn h).subset hc)
  obtain ⟨ht, hp⟩ := pushed_mem hn h hx
  exact ⟨x.1, ht, x.2, hp, rfl⟩

/-- exit code 4 comes after the last push -/
theorem run_done (hn : ∀ t, workers ≤ t → program t = [])
    (h : Trace.run (step base os outdir patterns count workers) (start program w) es = some s)
    (h4 : s.main.exitCode = 4) (t : Nat) (ht : t < workers) : (s.queue.producers t).todo = [] := by
  have hdone : s.runner = .done := (run_exitCode hn h).four h4
  have hinv : s.Inv workers := Trace.run_inv step_inv h (start_inv hn w)
  exact (returned_iff.mp (hinv.quiet (by rw [hdone]; decide) t ht)).2

/-- **How a process ends**: `main` has run its loop on a first part of the pushes, in their order;
each worker pushed a first part of its program, in its order; and with exit code 4 all of it. -/
theorem outcome (base : Bytes 32 → Option (Bytes 32)) (os : Os) (outdir : List Char)
    (patterns : List CompiledPattern) (count workers : Nat) (program : Nat → List Push)
    (hn : ∀ t, workers ≤ t → program t = []) (w : World) (es : List ProcessEvent) (s : Process)
    (h : Trace.run (step base os outdir patterns count workers) (start program w) es = some s)
    (hleft : s.pc = .left) :
    (mainLoop base os outdir patterns count s.turns ⟨0, 0, w⟩).val = s.main ∧
      s.turns.filterMap Turn.popped <+: s.queue.pushed.map (fun x => x.2.cand) ∧
      (∀ t, ResultQueue.pushedBy t s.queue.pushed <+: program t) ∧
      (s.main.exitCode = 4 → Interleaving workers program s.queue.pushed) :=
  ⟨run_loop hn h hleft, popped_first hn h, fun t => ⟨_, (run_history h).own t⟩,
    fun h4 => ((run_history h).all_pushed hn (run_done hn h h4)).1⟩

end

/-- one worker with one candidate, which it pushes after the last test of the predicate -/
def lateProgram (t : Nat) : List Push := if t = 0 then [⟨0, 0, zeroCandidate⟩] else []

theorem lateProgram_beyond (t : Nat) (ht : 1 ≤ t) : lateProgram t = [] := if_neg (by omega)

def lateRun : List ProcessEvent :=
  [.head false, .queue .lockPop, .queue .test, .queue .wake, .queue (.relock true), .queue .test,
    .queue .leave, .queue (.call 0), .queue (.lock 0), .queue (.pushBack 0), .queue (.unlock 0),
    .queue (.notify 0), .finish, .store, .load]

/-- a run of the process that ends with exit code 4, and its session -/
theorem refines_late :
    ∃ s, Trace.run (step (fun _ => some zero32) soundOs [] letterPatterns 1 1)
        (start lateProgram freshState.world) lateRun = some s ∧ s.main.exitCode = 4 ∧
      Trace.run (Session.step (fun _ => some zero32) soundOs [] letterPatterns 1)
        (Session.start freshState.world)
        (Trace.shown (step (fun _ => some zero32) soundOs [] letterPatterns 1 1) shows
          (start lateProgram freshState.world) lateRun) = some s.session :=
  ⟨_, rfl, rfl, refines _ soundOs [] letterPatterns 1 1 lateProgram lateProgram_beyond
    freshState.world lateRun _ rfl⟩

/-- its candidate was pushed, and is not handled -/
theorem outcome_late :
    ∃ s, Trace.run (step (fun _ => some zero32) soundOs [] letterPatterns 1 1)
        (start lateProgram freshState.world) lateRun = some s ∧
      (mainLoop (fun _ => some zero32) soundOs [] letterPatterns 1 s.turns
        ⟨0, 0, freshState.world⟩).val = s.main ∧
      s.turns.filterMap Turn.popped <+: s.queue.pushed.map (fun x => x.2.cand) ∧
      (∀ t, ResultQueue.pushedBy t s.queue.pushed <+: lateProgram t) ∧
      (s.main.exitCode = 4 → Interleaving 1 lateProgram s.queue.pushed) :=
  ⟨_, rfl, outcome _ soundOs [] letterPatterns 1 1 lateProgram lateProgram_beyond
    freshState.world lateRun _ rfl rfl⟩

end Process

end Onion
