import Onion.Cli.Process
import Onion.Lib.Potential

/-!
# How long the process can run

Every step of a thread uses up some of what the workers have to push, of what is in the queue, or of
the round that `main` is in.  Only a wait that is woken before its deadline, and one that times out
while the engine runs, can be repeated.

* `steps`       what is left to do, as a number of steps;
* `step_steps`  a step lowers it, but for these two;
* `through`     when no thread has a step, everything is done;
* `finishes`    a run of the process.
-/

namespace Onion
namespace Process
open Finset

/-- the steps of a worker, and nine of `main` for every value that it pushes -/
def workerSteps (p : Producer Push) : Nat :=
  match p.pc with
  | .outside => 14 * p.todo.length
  | .locking => 14 * p.todo.length - 1
  | .locked => 14 * p.todo.length - 2
  | .pushedBack => 14 * p.todo.length + 2
  | .notifying => 14 * p.todo.length + 1

def runnerSteps : Runner → Nat
  | .running => 2
  | .returned => 1
  | .done => 0

/-- the steps of a round, up to the end of the loop -/
def popSteps : PopPc Push → Nat
  | .outside (some _) => 9
  | .outside none => 1
  | .locking => 7
  | .testing true => 3
  | .testing false => 6
  | .parked => 5
  | .waking => 4
  | .taking => 2
  | .leaving (some _) => 10
  | .leaving none => 2

def mainSteps (s : Process) : Nat :=
  match s.pc with
  | .head => 9 * s.queue.queue.length + 8
  | .call => 9 * s.queue.queue.length + popSteps s.queue.consumer
  | .left => 0

/-- of all workers -/
def pushSteps (workers : Nat) (q : ResultQueue Push) : Nat :=
  ∑ t ∈ range workers, workerSteps (q.producers t)

def steps (workers : Nat) (s : Process) : Nat :=
  pushSteps workers s.queue + runnerSteps s.runner + s.mainSteps

/-- a wait that is woken before its deadline, and one that times out -/
def gain : ProcessEvent → Nat
  | .queue (.relock false) => 3
  | .load => 8
  | _ => 0

section
variable {workers t : Nat} {q q' : ResultQueue Push} {e : QueueEvent}

theorem popSteps_notified (c : PopPc Push) : popSteps c.notified ≤ popSteps c := by
  cases c with
  | parked => decide
  | _ => exact le_rfl

theorem worker_step (hq : q.Inv) (ht : t < workers) (hthread : e.thread = .producer t)
    (h : q.step e = some q') :
    pushSteps workers q' + 1 ≤ pushSteps workers q ∧
      pushSteps workers q' + 9 * q'.queue.length + 1 ≤ pushSteps workers q + 9 * q.queue.length ∧
      popSteps q'.consumer ≤ popSteps q.consumer := by
  have hstep := ResultQueue.step_cases h
  have hcalling := hq.calling t
  unfold pushSteps
  cases e with
  | call u =>
    obtain rfl : u = t := Holder.producer.inj hthread
    obtain ⟨hpc, hne, rfl⟩ := hstep
    have hpos := List.length_pos_of_ne_nil hne
    obtain ⟨others, hold, hnew⟩ :=
      Trace.sum_update workerSteps q.producers ⟨.locking, (q.producers u).todo⟩ ht
    rw [ResultQueue.move, hold, hnew, workerSteps, workerSteps, hpc]
    dsimp only
    exact ⟨by omega, by omega, le_rfl⟩
  | lock u =>
    obtain rfl : u = t := Holder.producer.inj hthread
    obtain ⟨hpc, -, rfl⟩ := hstep
    have hpos := List.length_pos_of_ne_nil (hcalling (Or.inl hpc))
    obtain ⟨others, hold, hnew⟩ :=
      Trace.sum_update workerSteps q.producers ⟨.locked, (q.producers u).todo⟩ ht
    rw [ResultQueue.move, hold, hnew, workerSteps, workerSteps, hpc]
    dsimp only
    exact ⟨by omega, by omega, le_rfl⟩
  | pushBack u =>
    obtain rfl : u = t := Holder.producer.inj hthread
    obtain ⟨hpc, a, todo, htodo, rfl⟩ := hstep
    obtain ⟨others, hold, hnew⟩ := Trace.sum_update workerSteps q.producers ⟨.pushedBack, todo⟩ ht
    rw [hold, hnew, workerSteps, workerSteps, hpc, htodo]
    dsimp only
    rw [List.length_append, List.length_singleton, List.length_cons]
    exact ⟨by omega, by omega, le_rfl⟩
  | unlock u =>
    obtain rfl : u = t := Holder.producer.inj hthread
    obtain ⟨hpc, rfl⟩ := hstep
    obtain ⟨others, hold, hnew⟩ :=
      Trace.sum_update workerSteps q.producers ⟨.notifying, (q.producers u).todo⟩ ht
    rw [ResultQueue.move, hold, hnew, workerSteps, workerSteps, hpc]
    dsimp only
    exact ⟨by omega, by omega, le_rfl⟩
  | notify u =>
    obtain rfl : u = t := Holder.producer.inj hthread
    obtain ⟨hpc, rfl⟩ := hstep
    obtain ⟨others, hold, hnew⟩ :=
      Trace.sum_update workerSteps q.producers ⟨.outside, (q.producers u).todo⟩ ht
    rw [ResultQueue.move, hold, hnew, workerSteps, workerSteps, hpc]
    dsimp only
    exact ⟨by omega, by omega, popSteps_notified _⟩
  | _ => cases hthread

theorem pop_step (workers : Nat) (hthread : e.thread = .consumer) (he : e ≠ .enter) (h : q.step e = some q') :
    pushSteps workers q' = pushSteps workers q ∧ 9 * q'.queue.length + popSteps q'.consumer + 1 ≤
      9 * q.queue.length + popSteps q.consumer + gain (.queue e) := by
  have hstep := ResultQueue.step_cases h
  cases e with
  | enter => exact absurd rfl he
  | lockPop =>
    obtain ⟨hpc, -, rfl⟩ := hstep
    rw [hpc]
    exact ⟨rfl, le_rfl⟩
  | test =>
    obtain ⟨timedOut, hpc, ⟨hq, rfl⟩ | ⟨hq, rfl, rfl⟩ | ⟨hq, rfl, rfl⟩⟩ := hstep
    · rw [hpc]
      cases timedOut with
      | true => exact ⟨rfl, le_rfl⟩
      | false =>
        refine ⟨rfl, ?_⟩
        dsimp only [popSteps, gain]
        omega
    · rw [hpc]
      exact ⟨rfl, le_rfl⟩
    · rw [hpc]
      exact ⟨rfl, le_rfl⟩
  | wake =>
    obtain ⟨hpc, rfl⟩ := hstep
    rw [hpc]
    exact ⟨rfl, le_rfl⟩
  | relock timedOut =>
    obtain ⟨hpc, -, rfl⟩ := hstep
    rw [hpc]
    cases timedOut with
    | true => exact ⟨rfl, le_rfl⟩
    | false => exact ⟨rfl, le_rfl⟩
  | popFront =>
    obtain ⟨hpc, a, queue, hqueue, rfl⟩ := hstep
    rw [hpc, hqueue, List.length_cons]
    refine ⟨rfl, ?_⟩
    dsimp only [popSteps, gain]
    omega
  | leave =>
    obtain ⟨r, hpc, rfl⟩ := hstep
    rw [hpc]
    cases r with
    | none => exact ⟨rfl, le_rfl⟩
    | some a => exact ⟨rfl, le_rfl⟩
  | _ => cases hthread

end

section
variable {base : Bytes 32 → Option (Bytes 32)} {os : Os} {outdir : List Char}
  {patterns : List CompiledPattern} {count workers : Nat} {s s' : Process} {e : ProcessEvent}
  {es : List ProcessEvent} {program : Nat → List Push} {w : World}

theorem call_of_step {e : QueueEvent} {q : ResultQueue Push} (hs : s.Inv workers)
    (hthread : e.thread = .consumer) (he : e ≠ .enter) (h : s.queue.step e = some q) :
    s.pc = .call := by
  refine call_of_inside hs ?_
  have hstep := ResultQueue.step_cases h
  cases e with
  | enter => exact absurd rfl he
  | lockPop => rw [hstep.1]; rfl
  | test =>
    obtain ⟨timedOut, hpc, -⟩ := hstep
    rw [hpc]
    rfl
  | wake => rw [hstep.1]; rfl
  | relock timedOut => rw [hstep.1]; rfl
  | popFront => rw [hstep.1]; rfl
  | leave =>
    obtain ⟨r, hpc, -⟩ := hstep
    rw [hpc]
    rfl
  | _ => cases hthread

theorem worker_of_step {e : QueueEvent} {q : ResultQueue Push} {t : Nat} (hs : s.Inv workers)
    (hthread : e.thread = .producer t) (h : s.queue.step e = some q) : t < workers := by
  by_contra hge
  obtain ⟨hpc, htodo⟩ := returned_iff.mp (hs.beyond t (Nat.le_of_not_lt hge))
  have hstep := ResultQueue.step_cases h
  cases e with
  | call u =>
    obtain rfl : u = t := Holder.producer.inj hthread
    exact hstep.2.1 htodo
  | lock u =>
    obtain rfl : u = t := Holder.producer.inj hthread
    cases hpc.symm.trans hstep.1
  | pushBack u =>
    obtain rfl : u = t := Holder.producer.inj hthread
    cases hpc.symm.trans hstep.1
  | unlock u =>
    obtain rfl : u = t := Holder.producer.inj hthread
    cases hpc.symm.trans hstep.1
  | notify u =>
    obtain rfl : u = t := Holder.producer.inj hthread
    cases hpc.symm.trans hstep.1
  | _ => cases hthread

theorem step_steps (hs : s.Inv workers)
    (h : step base os outdir patterns count workers s e = some s') :
    steps workers s' + 1 ≤ steps workers s + gain e := by
  have hstep := step_cases h
  unfold steps mainSteps
  cases e with
  | queue e =>
    obtain ⟨he, q, hq, rfl⟩ := hstep
    dsimp only
    cases hthread : e.thread with
    | producer t =>
      obtain ⟨hpush, hboth, hpop⟩ := worker_step hs.queue (worker_of_step hs hthread hq) hthread hq
      cases s.pc with
      | head => dsimp only; omega
      | call => dsimp only; omega
      | left => dsimp only; omega
    | consumer =>
      obtain ⟨hpush, hpop⟩ := pop_step workers hthread he hq
      rw [call_of_step hs hthread he hq, hpush]
      dsimp only
      omega
  | finish =>
    obtain ⟨hr, -, rfl⟩ := hstep
    rw [hr]
    dsimp only [runnerSteps, gain]
    omega
  | store =>
    obtain ⟨hr, rfl⟩ := hstep
    rw [hr]
    dsimp only [runnerSteps, gain]
    omega
  | head interrupted =>
    obtain ⟨hpc, ⟨-, queue, hq, rfl⟩ | ⟨-, rfl⟩⟩ := hstep
    · obtain ⟨-, rfl⟩ := ResultQueue.step_cases hq
      rw [hpc]
      exact le_rfl
    · rw [hpc]
      dsimp only [gain]
      omega
  | handle =>
    obtain ⟨hpc, c, hc, rfl⟩ := hstep
    rw [hpc, hc]
    dsimp only [popSteps, gain]
    cases (Onion.handle base os outdir patterns c.cand s.main).val.1 with
    | true => exact le_rfl
    | false =>
      show _ + _ + 0 + 1 ≤ _
      omega
  | load =>
    obtain ⟨hpc, hc, ⟨-, rfl⟩ | ⟨-, rfl⟩⟩ := hstep
    · rw [hpc, hc]
      dsimp only [popSteps, gain]
      omega
    · rw [hpc, hc]
      exact le_rfl

/-! ## when no thread has a step -/

/-- a step in the queue is one of the process, unless it is a call -/
theorem enabled_step {i : Holder} (h : s.queue.Enabled i)
    (hi : i = .consumer → ∀ last, s.queue.consumer ≠ .outside last) :
    ∃ e, (step base os outdir patterns count workers s e).isSome = true := by
  obtain ⟨e, rfl, he⟩ := h
  refine ⟨.queue e, ?_⟩
  obtain ⟨q, hq⟩ := Option.isSome_iff_exists.mp he
  have hne : e ≠ .enter := by
    rintro rfl
    obtain ⟨⟨last, hc⟩, -⟩ := ResultQueue.step_cases hq
    exact hi rfl last hc
  rw [step_queue hne, hq]
  rfl

/-- a thread that is in the queue, or is to push, has a step, or another one has -/
theorem busy_step (hs : s.Inv workers) {i : Holder} (hbusy : s.queue.Busy i)
    (hi : i = .consumer → ∀ last, s.queue.consumer ≠ .outside last) :
    ∃ e, (step base os outdir patterns count workers s e).isSome = true := by
  obtain hgo | ⟨j, -, hm, hgo⟩ := hs.queue.busy hbusy
  · exact enabled_step hgo hi
  · refine enabled_step hgo fun hj last hc => ?_
    have hholds := (hs.queue.owned j).mp hm
    rw [hj, ResultQueue.holds, hc] at hholds
    cases hholds

theorem through (hs : s.Inv workers)
    (hstuck : ∀ e, step base os outdir patterns count workers s e = none) :
    s.pc = .left ∧ s.runner = .done ∧ ∀ t, returned (s.queue.producers t) = true := by
  have hnone : ¬ ∃ e, (step base os outdir patterns count workers s e).isSome = true := by
    rintro ⟨e, he⟩
    rw [hstuck e] at he
    cases he
  have hreturned : ∀ t, returned (s.queue.producers t) = true := fun t => by
    by_contra hne
    refine hnone (busy_step hs (i := .producer t) ?_ fun hi => by cases hi)
    by_contra hidle
    obtain ⟨hpc, htodo⟩ := not_or.mp hidle
    exact hne (returned_iff.mpr ⟨not_not.mp hpc, not_not.mp htodo⟩)
  have hleft : s.pc = .left := by
    cases hpc : s.pc with
    | left => rfl
    | head =>
      refine absurd ⟨.head true, ?_⟩ hnone
      rw [step, hpc]
      dsimp only
      rw [if_neg fun h => h.2 rfl]
      rfl
    | call =>
      cases hc : s.queue.consumer with
      | outside last =>
        cases last with
        | some c =>
          refine absurd ⟨.handle, ?_⟩ hnone
          rw [step, hpc, hc]
          rfl
        | none =>
          refine absurd ⟨.load, ?_⟩ hnone
          rw [step, hpc, hc]
          dsimp only
          split <;> rfl
      | _ =>
        refine absurd (busy_step hs (i := .consumer) trivial fun _ last h => ?_) hnone
        cases hc.symm.trans h
  refine ⟨hleft, ?_, hreturned⟩
  cases hr : s.runner with
  | done => rfl
  | running =>
    refine absurd ⟨.finish, ?_⟩ hnone
    rw [step, if_pos ⟨hr, List.all_eq_true.mpr fun t _ => hreturned t⟩]
    rfl
  | returned =>
    refine absurd ⟨.store, ?_⟩ hnone
    rw [step, if_pos hr]
    rfl

/-! ## a run -/

/-- a wait that is woken before its deadline -/
def early : ProcessEvent → Bool
  | .queue (.relock false) => true
  | _ => false

/-- a wait that found nothing -/
def missed : ProcessEvent → Bool
  | .load => true
  | _ => false

theorem sum_gain (es : List ProcessEvent) :
    (es.map gain).sum = 3 * es.countP early + 8 * es.countP missed := by
  induction es with
  | nil => rfl
  | cons e es ih =>
    rw [List.map_cons, List.sum_cons, ih, List.countP_cons, List.countP_cons]
    have he : gain e = 3 * (if early e = true then 1 else 0) + 8 * if missed e = true then 1 else 0 := by
      cases e with
      | queue e =>
        cases e with
        | relock timedOut => cases timedOut <;> rfl
        | _ => rfl
      | _ => rfl
    omega

theorem start_steps (program : Nat → List Push) (w : World) :
    steps workers (start program w) = 14 * ∑ t ∈ range workers, (program t).length + 10 := by
  rw [mul_sum]
  rfl

end

/-- **The process ends.**  A run over what the workers push has so many steps, but for waits that are
woken early or find nothing; and when no thread has a step, `main` has left its loop, the flag is
stored, and every worker has returned. -/
theorem finishes (base : Bytes 32 → Option (Bytes 32)) (os : Os) (outdir : List Char)
    (patterns : List CompiledPattern) (count workers : Nat) (program : Nat → List Push)
    (hn : ∀ t, workers ≤ t → program t = []) (w : World) (es : List ProcessEvent) (s : Process)
    (h : Trace.run (step base os outdir patterns count workers) (start program w) es = some s) :
    es.length ≤ 14 * ∑ t ∈ range workers, (program t).length + 10 + 3 * es.countP early +
      8 * es.countP missed ∧
    ((∀ e, step base os outdir patterns count workers s e = none) →
      s.pc = .left ∧ s.runner = .done ∧ ∀ t, returned (s.queue.producers t) = true) := by
  have hstart : (start program w).Inv workers := start_inv hn w
  refine ⟨?_, through (Trace.run_inv step_inv h hstart)⟩
  have hlength : es.length + steps workers s ≤ steps workers (start program w) + (es.map gain).sum :=
    Trace.run_length step_inv step_steps h hstart
  rw [start_steps, sum_gain] at hlength
  omega

theorem finishes_late :
    ∃ s, Trace.run (step (fun _ => some zero32) soundOs [] letterPatterns 1 1)
        (start lateProgram freshState.world) lateRun = some s ∧
      lateRun.length ≤ 14 * ∑ t ∈ range 1, (lateProgram t).length + 10 + 3 * lateRun.countP early +
        8 * lateRun.countP missed ∧
      ((∀ e, step (fun _ => some zero32) soundOs [] letterPatterns 1 1 s e = none) →
        s.pc = .left ∧ s.runner = .done ∧ ∀ t, returned (s.queue.producers t) = true) :=
  ⟨_, rfl, finishes _ soundOs [] letterPatterns 1 1 lateProgram lateProgram_beyond
    freshState.world lateRun _ rfl⟩

end Process
end Onion
