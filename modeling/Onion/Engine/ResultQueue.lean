import Onion.Lib.Simulation
import Onion.Lib.Mutex
import Onion.Engine.Engine
import Mathlib.Logic.Function.Basic

/-!
# `ResultQueue`, step by step

Workers call `push` and one consumer calls `pop_wait_for`; both take the mutex, and the consumer
sleeps on the condition variable.  Between any two steps of one thread the others may run.  A sleep
ends by a notification, by the timeout, or for no reason.

* `ResultQueue.step`      one step of one thread;
* `Inv`                   the mutex has one holder, and what each thread knows of the queue;
* `no_lost_wakeup`        the consumer sleeps over a candidate only if a notification is to come;
* `run_fifo`              nothing is lost, doubled or reordered;
* `not_stuck`             a thread that waits for the mutex waits for one that can go on.
-/

namespace Onion

/-- where a worker is: outside of `push`, or before one of its steps -/
inductive PushPc where
  | outside
  /-- at the `lock_guard` -/
  | locking
  /-- with the mutex, before `push_back` -/
  | locked
  /-- with the mutex, after `push_back` -/
  | pushedBack
  /-- without the mutex, before `notify_one` -/
  | notifying
deriving DecidableEq

/-- where the consumer is -/
inductive PopPc (α : Type) where
  /-- outside of `pop_wait_for`, which returned `last` -/
  | outside (last : Option α)
  /-- at the `unique_lock` -/
  | locking
  /-- with the mutex, before the predicate; the deadline may have passed -/
  | testing (timedOut : Bool)
  /-- asleep, without the mutex -/
  | parked
  /-- awake, without the mutex -/
  | waking
  /-- with the mutex, the predicate was true -/
  | taking
  /-- with the mutex, about to return -/
  | leaving (r : Option α)

/-- a worker, with the values that it still has to push; the first one is the argument of a call -/
structure Producer (α : Type) where
  pc : PushPc
  todo : List α

inductive Holder where
  | producer (t : Nat)
  | consumer
deriving DecidableEq

/-- the queue and its threads, with what was pushed and what was returned so far -/
structure ResultQueue (α : Type) where
  mutex : Option Holder
  queue : List α
  producers : Nat → Producer α
  consumer : PopPc α
  pushed : List (Nat × α)
  returned : List (Option α)

inductive QueueEvent where
  /-- worker `t` calls `push` with its next value -/
  | call (t : Nat)
  | lock (t : Nat)
  | pushBack (t : Nat)
  | unlock (t : Nat)
  | notify (t : Nat)
  /-- `pop_wait_for` is called -/
  | enter
  | lockPop
  /-- the predicate of the wait -/
  | test
  /-- the sleep ends without a notification -/
  | wake
  /-- the wait takes the mutex again, and has or has not timed out -/
  | relock (timedOut : Bool)
  | popFront
  /-- the mutex is released and `pop_wait_for` returns -/
  | leave
deriving DecidableEq

/-- the thread of an event -/
def QueueEvent.thread : QueueEvent → Holder
  | .call t | .lock t | .pushBack t | .unlock t | .notify t => .producer t
  | _ => .consumer

def PushPc.holds : PushPc → Bool
  | .locked | .pushedBack => true
  | _ => false

def PopPc.holds {α : Type} : PopPc α → Bool
  | .testing _ | .taking | .leaving _ => true
  | _ => false

/-- after `push_back`, and before the notification -/
def PushPc.notifies : PushPc → Bool
  | .pushedBack | .notifying => true
  | _ => false

/-- `notify_one`, with one thread that can sleep -/
def PopPc.notified {α : Type} : PopPc α → PopPc α
  | .parked => .waking
  | pc => pc

namespace ResultQueue
variable {α : Type}

def move (s : ResultQueue α) (t : Nat) (pc : PushPc) : ResultQueue α :=
  { s with producers := Function.update s.producers t ⟨pc, (s.producers t).todo⟩ }

/-- an event, if its thread is there -/
def step (s : ResultQueue α) : QueueEvent → Option (ResultQueue α)
  | .call t =>
    match (s.producers t).pc, (s.producers t).todo with
    | .outside, _ :: _ => some (s.move t .locking)
    | _, _ => none
  | .lock t =>
    if (s.producers t).pc = .locking ∧ s.mutex = none then
      some { s.move t .locked with mutex := some (.producer t) }
    else none
  | .pushBack t =>
    match (s.producers t).pc, (s.producers t).todo with
    | .locked, a :: todo => some { s with
        queue := s.queue ++ [a]
        producers := Function.update s.producers t ⟨.pushedBack, todo⟩
        pushed := s.pushed ++ [(t, a)] }
    | _, _ => none
  | .unlock t =>
    if (s.producers t).pc = .pushedBack then some { s.move t .notifying with mutex := none }
    else none
  | .notify t =>
    if (s.producers t).pc = .notifying then
      some { s.move t .outside with consumer := s.consumer.notified }
    else none
  | .enter =>
    match s.consumer with
    | .outside _ => some { s with consumer := .locking }
    | _ => none
  | .lockPop =>
    match s.consumer, s.mutex with
    | .locking, none => some { s with consumer := .testing false, mutex := some .consumer }
    | _, _ => none
  | .test =>
    match s.consumer, s.queue with
    | .testing _, _ :: _ => some { s with consumer := .taking }
    | .testing true, [] => some { s with consumer := .leaving none }
    | .testing false, [] => some { s with consumer := .parked, mutex := none }
    | _, _ => none
  | .wake =>
    match s.consumer with
    | .parked => some { s with consumer := .waking }
    | _ => none
  | .relock timedOut =>
    match s.consumer, s.mutex with
    | .waking, none => some { s with consumer := .testing timedOut, mutex := some .consumer }
    | _, _ => none
  | .popFront =>
    match s.consumer, s.queue with
    | .taking, a :: queue => some { s with consumer := .leaving (some a), queue := queue }
    | _, _ => none
  | .leave =>
    match s.consumer with
    | .leaving r =>
      some { s with consumer := .outside r, mutex := none, returned := s.returned ++ [r] }
    | _ => none

/-- an empty queue; worker `t` is to push `program t` -/
def start (program : Nat → List α) : ResultQueue α :=
  ⟨none, [], fun t => ⟨.outside, program t⟩, .outside none, [], []⟩

/-- what each event needs, and what it does -/
def Effect (s s' : ResultQueue α) : QueueEvent → Prop
  | .call t => (s.producers t).pc = .outside ∧ (s.producers t).todo ≠ [] ∧ s' = s.move t .locking
  | .lock t => (s.producers t).pc = .locking ∧ s.mutex = none ∧
      s' = { s.move t .locked with mutex := some (.producer t) }
  | .pushBack t => (s.producers t).pc = .locked ∧ ∃ a todo, (s.producers t).todo = a :: todo ∧
      s' = { s with
        queue := s.queue ++ [a]
        producers := Function.update s.producers t ⟨.pushedBack, todo⟩
        pushed := s.pushed ++ [(t, a)] }
  | .unlock t => (s.producers t).pc = .pushedBack ∧ s' = { s.move t .notifying with mutex := none }
  | .notify t => (s.producers t).pc = .notifying ∧
      s' = { s.move t .outside with consumer := s.consumer.notified }
  | .enter => (∃ last, s.consumer = .outside last) ∧ s' = { s with consumer := .locking }
  | .lockPop => s.consumer = .locking ∧ s.mutex = none ∧
      s' = { s with consumer := .testing false, mutex := some .consumer }
  | .test => ∃ timedOut, s.consumer = .testing timedOut ∧
      (s.queue ≠ [] ∧ s' = { s with consumer := .taking } ∨
        s.queue = [] ∧ timedOut = true ∧ s' = { s with consumer := .leaving none } ∨
        s.queue = [] ∧ timedOut = false ∧ s' = { s with consumer := .parked, mutex := none })
  | .wake => s.consumer = .parked ∧ s' = { s with consumer := .waking }
  | .relock timedOut => s.consumer = .waking ∧ s.mutex = none ∧
      s' = { s with consumer := .testing timedOut, mutex := some .consumer }
  | .popFront => s.consumer = .taking ∧ ∃ a queue, s.queue = a :: queue ∧
      s' = { s with consumer := .leaving (some a), queue := queue }
  | .leave => ∃ r, s.consumer = .leaving r ∧
      s' = { s with consumer := .outside r, mutex := none, returned := s.returned ++ [r] }

variable {s s' : ResultQueue α} {e : QueueEvent} {es : List QueueEvent} {t u : Nat}
  {i : Holder} {program : Nat → List α}

theorem step_cases (h : step s e = some s') : Effect s s' e := by
  cases e with
  | call t =>
    rw [step] at h
    split at h
    next hpc htodo => exact ⟨hpc, htodo ▸ List.cons_ne_nil _ _, (Option.some.inj h).symm⟩
    · cases h
  | lock t =>
    rw [step, Option.ite_none_right_eq_some] at h
    exact ⟨h.1.1, h.1.2, (Option.some.inj h.2).symm⟩
  | pushBack t =>
    rw [step] at h
    split at h
    next a todo hpc htodo => exact ⟨hpc, a, todo, htodo, (Option.some.inj h).symm⟩
    · cases h
  | unlock t =>
    rw [step, Option.ite_none_right_eq_some] at h
    exact ⟨h.1, (Option.some.inj h.2).symm⟩
  | notify t =>
    rw [step, Option.ite_none_right_eq_some] at h
    exact ⟨h.1, (Option.some.inj h.2).symm⟩
  | enter =>
    rw [step] at h
    split at h
    next last hpc => exact ⟨⟨last, hpc⟩, (Option.some.inj h).symm⟩
    · cases h
  | lockPop =>
    rw [step] at h
    split at h
    next hpc hm => exact ⟨hpc, hm, (Option.some.inj h).symm⟩
    · cases h
  | test =>
    rw [step] at h
    split at h
    next b c rest hpc hq =>
      exact ⟨b, hpc, Or.inl ⟨hq ▸ List.cons_ne_nil _ _, (Option.some.inj h).symm⟩⟩
    next hpc hq => exact ⟨true, hpc, Or.inr (Or.inl ⟨hq, rfl, (Option.some.inj h).symm⟩)⟩
    next hpc hq => exact ⟨false, hpc, Or.inr (Or.inr ⟨hq, rfl, (Option.some.inj h).symm⟩)⟩
    · cases h
  | wake =>
    rw [step] at h
    split at h
    next hpc => exact ⟨hpc, (Option.some.inj h).symm⟩
    · cases h
  | relock timedOut =>
    rw [step] at h
    split at h
    next hpc hm => exact ⟨hpc, hm, (Option.some.inj h).symm⟩
    · cases h
  | popFront =>
    rw [step] at h
    split at h
    next a queue hpc hq => exact ⟨hpc, a, queue, hq, (Option.some.inj h).symm⟩
    · cases h
  | leave =>
    rw [step] at h
    split at h
    next r hpc => exact ⟨r, hpc, (Option.some.inj h).symm⟩
    · cases h

/-! ## the mutex, and the queue -/

/-- the threads in their critical sections -/
def holds (producers : Nat → Producer α) (consumer : PopPc α) : Holder → Bool
  | .producer t => (producers t).pc.holds
  | .consumer => consumer.holds

/-- a worker in a call has a value to push -/
def Calling (p : Producer α) : Prop := p.pc = .locking ∨ p.pc = .locked → p.todo ≠ []

section
variable {mutex : Option Holder} {producers : Nat → Producer α} {p : Producer α}
  {c c' : PopPc α}

theorem holds_update (h : i ≠ .producer t) :
    holds (Function.update producers t p) c i = holds producers c i := by
  cases i with
  | producer u =>
    show (Function.update producers t p u).pc.holds = _
    rw [Function.update_of_ne fun e => h (congrArg _ e)]
    rfl
  | consumer => rfl

theorem holds_update_self :
    holds (Function.update producers t p) c (.producer t) = p.pc.holds := by
  show (Function.update producers t p t).pc.holds = _
  rw [Function.update_self]

theorem holds_consumer (h : i ≠ .consumer) : holds producers c' i = holds producers c i := by
  cases i with
  | producer u => rfl
  | consumer => exact absurd rfl h

theorem keep_producer (hs : Mutex.Owned mutex (holds producers c))
    (h : p.pc.holds = (producers t).pc.holds) :
    Mutex.Owned mutex (holds (Function.update producers t p) c) := by
  refine hs.keep fun i => ?_
  by_cases hi : i = .producer t
  · rw [hi, holds_update_self]
    exact h
  · exact holds_update hi

theorem keep_consumer (hs : Mutex.Owned mutex (holds producers c)) (h : c'.holds = c.holds) :
    Mutex.Owned mutex (holds producers c') := by
  refine hs.keep fun i => ?_
  by_cases hi : i = .consumer
  · rw [hi]
    exact h
  · exact holds_consumer hi

end

theorem holds_notified (c : PopPc α) : c.notified.holds = c.holds := by
  cases c <;> rfl

theorem step_owned (hs : Mutex.Owned s.mutex (holds s.producers s.consumer))
    (h : step s e = some s') : Mutex.Owned s'.mutex (holds s'.producers s'.consumer) := by
  have hstep := step_cases h
  cases e with
  | call t =>
    obtain ⟨hpc, -, rfl⟩ := hstep
    exact keep_producer hs (by rw [hpc]; rfl)
  | lock t =>
    obtain ⟨-, hm, rfl⟩ := hstep
    rw [hm] at hs
    exact hs.acquire holds_update_self fun _ hi => holds_update hi
  | pushBack t =>
    obtain ⟨hpc, a, todo, -, rfl⟩ := hstep
    exact keep_producer hs (by rw [hpc]; rfl)
  | unlock t =>
    obtain ⟨hpc, rfl⟩ := hstep
    exact hs.release (i := .producer t) (congrArg PushPc.holds hpc) holds_update_self fun _ hi => holds_update hi
  | notify t =>
    obtain ⟨hpc, rfl⟩ := hstep
    exact keep_consumer (keep_producer hs (by rw [hpc]; rfl)) (holds_notified s.consumer)
  | enter =>
    obtain ⟨⟨last, hpc⟩, rfl⟩ := hstep
    exact keep_consumer hs (by rw [hpc]; rfl)
  | lockPop =>
    obtain ⟨-, hm, rfl⟩ := hstep
    rw [hm] at hs
    exact hs.acquire rfl fun _ hi => holds_consumer hi
  | test =>
    obtain ⟨timedOut, hpc, ⟨-, rfl⟩ | ⟨-, -, rfl⟩ | ⟨-, -, rfl⟩⟩ := hstep
    · exact keep_consumer hs (by rw [hpc]; rfl)
    · exact keep_consumer hs (by rw [hpc]; rfl)
    · exact hs.release (i := .consumer) (congrArg PopPc.holds hpc) rfl fun _ hi => holds_consumer hi
  | wake =>
    obtain ⟨hpc, rfl⟩ := hstep
    exact keep_consumer hs (by rw [hpc]; rfl)
  | relock timedOut =>
    obtain ⟨-, hm, rfl⟩ := hstep
    rw [hm] at hs
    exact hs.acquire rfl fun _ hi => holds_consumer hi
  | popFront =>
    obtain ⟨hpc, a, queue, -, rfl⟩ := hstep
    exact keep_consumer hs (by rw [hpc]; rfl)
  | leave =>
    obtain ⟨r, hpc, rfl⟩ := hstep
    exact hs.release (i := .consumer) (congrArg PopPc.holds hpc) rfl fun _ hi => holds_consumer hi

theorem step_calling (hs : ∀ t, Calling (s.producers t)) (h : step s e = some s') :
    ∀ t, Calling (s'.producers t) := by
  have hstep := step_cases h
  have hupdate : ∀ {t p}, Calling p → ∀ u, Calling (Function.update s.producers t p u) :=
    fun hp => (Function.forall_update_iff _ fun _ => Calling).mpr ⟨hp, fun u _ => hs u⟩
  cases e with
  | call t =>
    obtain ⟨-, htodo, rfl⟩ := hstep
    exact hupdate fun _ => htodo
  | lock t =>
    obtain ⟨hpc, -, rfl⟩ := hstep
    exact hupdate fun _ => hs t (Or.inl hpc)
  | pushBack t =>
    obtain ⟨-, a, todo, -, rfl⟩ := hstep
    exact hupdate nofun
  | unlock t =>
    obtain ⟨-, rfl⟩ := hstep
    exact hupdate nofun
  | notify t =>
    obtain ⟨-, rfl⟩ := hstep
    exact hupdate nofun
  | enter =>
    obtain ⟨-, rfl⟩ := hstep
    exact hs
  | lockPop =>
    obtain ⟨-, -, rfl⟩ := hstep
    exact hs
  | test =>
    obtain ⟨timedOut, -, ⟨-, rfl⟩ | ⟨-, -, rfl⟩ | ⟨-, -, rfl⟩⟩ := hstep
    · exact hs
    · exact hs
    · exact hs
  | wake =>
    obtain ⟨-, rfl⟩ := hstep
    exact hs
  | relock timedOut =>
    obtain ⟨-, -, rfl⟩ := hstep
    exact hs
  | popFront =>
    obtain ⟨-, a, queue, -, rfl⟩ := hstep
    exact hs
  | leave =>
    obtain ⟨r, -, rfl⟩ := hstep
    exact hs

/-- what the consumer knows of the queue -/
structure Seen (s : ResultQueue α) : Prop where
  taking : s.consumer = .taking → s.queue ≠ []
  missed : s.consumer = .leaving none → s.queue = []

theorem notified_eq {c d : PopPc α} (hd : d.holds = true) (h : c.notified = d) : c = d := by
  cases c with
  | parked =>
    rw [← h] at hd
    cases hd
  | _ => exact h

theorem step_seen (hs : s.Seen) (hm : Mutex.Owned s.mutex (holds s.producers s.consumer))
    (h : step s e = some s') : s'.Seen := by
  have hstep := step_cases h
  cases e with
  | call t =>
    obtain ⟨-, -, rfl⟩ := hstep
    exact ⟨hs.taking, hs.missed⟩
  | lock t =>
    obtain ⟨-, -, rfl⟩ := hstep
    exact ⟨hs.taking, hs.missed⟩
  | pushBack t =>
    obtain ⟨hpc, a, todo, -, rfl⟩ := hstep
    refine ⟨fun _ => List.append_ne_nil_of_right_ne_nil _ (List.cons_ne_nil _ _), fun hc => ?_⟩
    -- the consumer and the worker would both have the mutex
    have hboth : Holder.producer t = .consumer :=
      hm.exclusive (congrArg PushPc.holds hpc) (congrArg PopPc.holds hc)
    cases hboth
  | unlock t =>
    obtain ⟨-, rfl⟩ := hstep
    exact ⟨hs.taking, hs.missed⟩
  | notify t =>
    obtain ⟨-, rfl⟩ := hstep
    exact ⟨fun hc => hs.taking (notified_eq rfl hc), fun hc => hs.missed (notified_eq rfl hc)⟩
  | enter =>
    obtain ⟨-, rfl⟩ := hstep
    exact ⟨nofun, nofun⟩
  | lockPop =>
    obtain ⟨-, -, rfl⟩ := hstep
    exact ⟨nofun, nofun⟩
  | test =>
    obtain ⟨timedOut, -, ⟨hq, rfl⟩ | ⟨hq, -, rfl⟩ | ⟨-, -, rfl⟩⟩ := hstep
    · exact ⟨fun _ => hq, nofun⟩
    · exact ⟨nofun, fun _ => hq⟩
    · exact ⟨nofun, nofun⟩
  | wake =>
    obtain ⟨-, rfl⟩ := hstep
    exact ⟨nofun, nofun⟩
  | relock timedOut =>
    obtain ⟨-, -, rfl⟩ := hstep
    exact ⟨nofun, nofun⟩
  | popFront =>
    obtain ⟨-, a, queue, -, rfl⟩ := hstep
    exact ⟨nofun, nofun⟩
  | leave =>
    obtain ⟨r, -, rfl⟩ := hstep
    exact ⟨nofun, nofun⟩

/-- asleep over a candidate, with a notification to come -/
def Awake (s : ResultQueue α) : Prop :=
  s.consumer = .parked → s.queue ≠ [] → ∃ t, (s.producers t).pc.notifies = true

theorem notifies_update {producers : Nat → Producer α} {p : Producer α}
    (h : ∃ u, (producers u).pc.notifies = true)
    (hp : (producers t).pc.notifies = true → p.pc.notifies = true) :
    ∃ u, (Function.update producers t p u).pc.notifies = true := by
  obtain ⟨u, hu⟩ := h
  refine ⟨u, ?_⟩
  by_cases e : u = t
  · rw [e] at hu ⊢
    rw [Function.update_self]
    exact hp hu
  · rw [Function.update_of_ne e]
    exact hu

theorem notified_ne_parked (c : PopPc α) : c.notified ≠ .parked := by
  cases c <;> nofun

theorem step_awake (hs : s.Awake) (h : step s e = some s') : s'.Awake := by
  have hstep := step_cases h
  intro hpark hq
  cases e with
  | call t =>
    obtain ⟨hpc, -, rfl⟩ := hstep
    exact notifies_update (hs hpark hq) (by rw [hpc]; nofun)
  | lock t =>
    obtain ⟨hpc, -, rfl⟩ := hstep
    exact notifies_update (hs hpark hq) (by rw [hpc]; nofun)
  | pushBack t =>
    obtain ⟨-, a, todo, -, rfl⟩ := hstep
    exact ⟨t, congrArg (·.pc.notifies) (Function.update_self t _ s.producers)⟩
  | unlock t =>
    obtain ⟨-, rfl⟩ := hstep
    exact notifies_update (hs hpark hq) fun _ => rfl
  | notify t =>
    obtain ⟨-, rfl⟩ := hstep
    exact absurd hpark (notified_ne_parked _)
  | enter =>
    obtain ⟨-, rfl⟩ := hstep
    cases hpark
  | lockPop =>
    obtain ⟨-, -, rfl⟩ := hstep
    cases hpark
  | test =>
    obtain ⟨timedOut, -, ⟨-, rfl⟩ | ⟨-, -, rfl⟩ | ⟨hnil, -, rfl⟩⟩ := hstep
    · cases hpark
    · cases hpark
    · exact absurd hnil hq
  | wake =>
    obtain ⟨-, rfl⟩ := hstep
    cases hpark
  | relock timedOut =>
    obtain ⟨-, -, rfl⟩ := hstep
    cases hpark
  | popFront =>
    obtain ⟨-, a, queue, -, rfl⟩ := hstep
    cases hpark
  | leave =>
    obtain ⟨r, -, rfl⟩ := hstep
    cases hpark

/-- the mutex has one holder, and everyone knows of the queue what it needs -/
structure Inv (s : ResultQueue α) : Prop where
  owned : Mutex.Owned s.mutex (holds s.producers s.consumer)
  calling : ∀ t, Calling (s.producers t)
  seen : s.Seen
  awake : s.Awake

theorem step_inv (hs : s.Inv) (h : step s e = some s') : s'.Inv :=
  ⟨step_owned hs.owned h, step_calling hs.calling h, step_seen hs.seen hs.owned h,
    step_awake hs.awake h⟩

theorem start_inv (program : Nat → List α) : (start program).Inv where
  owned i := ⟨nofun, fun h => by cases i <;> cases h⟩
  calling _ := nofun
  seen := ⟨nofun, nofun⟩
  awake := nofun

theorem run_inv (h : Trace.run step (start program) es = some s) : s.Inv :=
  Trace.run_inv step_inv h (start_inv program)

/-- **No wake-up is lost**: when the consumer sleeps and there is a candidate in the queue, a worker
has yet to notify. -/
theorem no_lost_wakeup (program : Nat → List α) (es : List QueueEvent) (s : ResultQueue α)
    (h : Trace.run step (start program) es = some s) (hpark : s.consumer = .parked)
    (hq : s.queue ≠ []) :
    ∃ t, (s.producers t).pc = .pushedBack ∨ (s.producers t).pc = .notifying := by
  obtain ⟨t, ht⟩ := (run_inv h).awake hpark hq
  refine ⟨t, ?_⟩
  cases hpc : (s.producers t).pc with
  | pushedBack => exact Or.inl rfl
  | notifying => exact Or.inr rfl
  | _ =>
    rw [hpc] at ht
    cases ht

/-- two values for worker 0, one for worker 1 -/
def twoWorkers : Nat → List Nat
  | 0 => [10, 11]
  | 1 => [20]
  | _ => []

/-- the consumer falls asleep, and worker 0 pushes -/
def sleepyRun : List QueueEvent := [.enter, .lockPop, .test, .call 0, .lock 0, .pushBack 0]

theorem no_lost_wakeup_sleepy : ∃ s, Trace.run step (start twoWorkers) sleepyRun = some s ∧
    s.consumer = .parked ∧ s.queue ≠ [] ∧
    ∃ t, (s.producers t).pc = .pushedBack ∨ (s.producers t).pc = .notifying :=
  ⟨_, rfl, rfl, List.cons_ne_nil _ _,
    no_lost_wakeup twoWorkers sleepyRun _ rfl rfl (List.cons_ne_nil _ _)⟩

/-! ## the order -/

/-- the value that the consumer is about to return -/
def inHand (s : ResultQueue α) : List α :=
  match s.consumer with
  | .leaving (some a) => [a]
  | _ => []

/-- what worker `t` pushed -/
def pushedBy (t : Nat) (pushed : List (Nat × α)) : List α :=
  pushed.filterMap fun x => if x.1 = t then some x.2 else none

/-- what was pushed, against what was returned and what the workers are to push -/
structure History (program : Nat → List α) (s : ResultQueue α) : Prop where
  order : s.pushed.map Prod.snd = s.returned.filterMap id ++ s.inHand ++ s.queue
  own : ∀ t, pushedBy t s.pushed ++ (s.producers t).todo = program t

theorem move_todo (s : ResultQueue α) (t : Nat) (pc : PushPc) (u : Nat) :
    ((s.move t pc).producers u).todo = (s.producers u).todo := by
  show (Function.update s.producers t _ u).todo = _
  by_cases e : u = t
  · rw [e, Function.update_self]
  · rw [Function.update_of_ne e]

theorem pushedBy_cons (t : Nat) (x : Nat × α) (pushed : List (Nat × α)) :
    pushedBy t (x :: pushed) = (if x.1 = t then [x.2] else []) ++ pushedBy t pushed := by
  by_cases e : x.1 = t <;> simp [pushedBy, e]

theorem pushedBy_snoc (u t : Nat) (a : α) (pushed : List (Nat × α)) :
    pushedBy u (pushed ++ [(t, a)]) = pushedBy u pushed ++ if t = u then [a] else [] := by
  rw [pushedBy, List.filterMap_append]
  exact congrArg _ ((pushedBy_cons u (t, a) []).trans (List.append_nil _))

theorem step_own (hs : ∀ u, pushedBy u s.pushed ++ (s.producers u).todo = program u)
    (h : step s e = some s') (u : Nat) :
    pushedBy u s'.pushed ++ (s'.producers u).todo = program u := by
  have hstep := step_cases h
  have hmove : ∀ t pc, pushedBy u s.pushed ++ ((s.move t pc).producers u).todo = program u := by
    intro t pc
    rw [move_todo]
    exact hs u
  cases e with
  | call t =>
    obtain ⟨-, -, rfl⟩ := hstep
    exact hmove t _
  | lock t =>
    obtain ⟨-, -, rfl⟩ := hstep
    exact hmove t _
  | pushBack t =>
    obtain ⟨-, a, todo, htodo, rfl⟩ := hstep
    dsimp only
    rw [pushedBy_snoc, ← hs u]
    by_cases e : u = t
    · rw [e, Function.update_self, if_pos rfl, htodo, List.append_assoc]
      rfl
    · rw [Function.update_of_ne e, if_neg fun h => e h.symm, List.append_nil]
  | unlock t =>
    obtain ⟨-, rfl⟩ := hstep
    exact hmove t _
  | notify t =>
    obtain ⟨-, rfl⟩ := hstep
    exact hmove t _
  | enter =>
    obtain ⟨-, rfl⟩ := hstep
    exact hs u
  | lockPop =>
    obtain ⟨-, -, rfl⟩ := hstep
    exact hs u
  | test =>
    obtain ⟨timedOut, -, ⟨-, rfl⟩ | ⟨-, -, rfl⟩ | ⟨-, -, rfl⟩⟩ := hstep
    · exact hs u
    · exact hs u
    · exact hs u
  | wake =>
    obtain ⟨-, rfl⟩ := hstep
    exact hs u
  | relock timedOut =>
    obtain ⟨-, -, rfl⟩ := hstep
    exact hs u
  | popFront =>
    obtain ⟨-, a, queue, -, rfl⟩ := hstep
    exact hs u
  | leave =>
    obtain ⟨r, -, rfl⟩ := hstep
    exact hs u

theorem inHand_notified (c : PopPc α) :
    (match c.notified with | .leaving (some a) => [a] | _ => []) =
      (match c with | .leaving (some a) => [a] | _ => [] : List α) := by
  cases c <;> rfl

theorem step_order (hs : s.pushed.map Prod.snd = s.returned.filterMap id ++ s.inHand ++ s.queue)
    (h : step s e = some s') :
    s'.pushed.map Prod.snd = s'.returned.filterMap id ++ s'.inHand ++ s'.queue := by
  have hstep := step_cases h
  rw [inHand] at hs
  rw [inHand]
  cases e with
  | call t =>
    obtain ⟨-, -, rfl⟩ := hstep
    exact hs
  | lock t =>
    obtain ⟨-, -, rfl⟩ := hstep
    exact hs
  | pushBack t =>
    obtain ⟨-, a, todo, -, rfl⟩ := hstep
    dsimp only
    rw [List.map_append, hs, List.append_assoc]
    rfl
  | unlock t =>
    obtain ⟨-, rfl⟩ := hstep
    exact hs
  | notify t =>
    obtain ⟨-, rfl⟩ := hstep
    refine hs.trans ?_
    rw [← inHand_notified]
    rfl
  | enter =>
    obtain ⟨⟨last, hpc⟩, rfl⟩ := hstep
    rw [hpc] at hs
    exact hs
  | lockPop =>
    obtain ⟨hpc, -, rfl⟩ := hstep
    rw [hpc] at hs
    exact hs
  | test =>
    obtain ⟨timedOut, hpc, ⟨-, rfl⟩ | ⟨-, -, rfl⟩ | ⟨-, -, rfl⟩⟩ := hstep
    · rw [hpc] at hs
      exact hs
    · rw [hpc] at hs
      exact hs
    · rw [hpc] at hs
      exact hs
  | wake =>
    obtain ⟨hpc, rfl⟩ := hstep
    rw [hpc] at hs
    exact hs
  | relock timedOut =>
    obtain ⟨hpc, -, rfl⟩ := hstep
    rw [hpc] at hs
    exact hs
  | popFront =>
    obtain ⟨hpc, a, queue, hq, rfl⟩ := hstep
    rw [hpc, hq, List.append_nil] at hs
    dsimp only
    rw [hs, List.append_assoc]
    rfl
  | leave =>
    obtain ⟨r, hpc, rfl⟩ := hstep
    rw [hpc] at hs
    dsimp only
    rw [hs, List.filterMap_append, List.append_nil]
    cases r with
    | none => rfl
    | some a => rfl

theorem start_history (program : Nat → List α) : (start program).History program :=
  ⟨rfl, fun _ => rfl⟩

theorem step_history (hs : s.History program) (h : step s e = some s') : s'.History program :=
  ⟨step_order hs.order h, step_own hs.own h⟩

/-- **The queue is a queue**: what `pop_wait_for` returned, what it holds and what is in the queue
are the pushes in their order, and each worker's pushes are the first part of its program. -/
theorem run_fifo (program : Nat → List α) (es : List QueueEvent) (s : ResultQueue α)
    (h : Trace.run step (start program) es = some s) : s.History program :=
  Trace.run_inv step_history h (start_history program)

/-- both workers push, and the consumer pops once -/
def busyRun : List QueueEvent := sleepyRun ++ [.unlock 0, .call 1, .lock 1, .pushBack 1, .unlock 1,
  .notify 1, .notify 0, .relock false, .test, .popFront, .leave, .call 0]

theorem run_fifo_busy : ∃ s, Trace.run step (start twoWorkers) busyRun = some s ∧
    s.History twoWorkers :=
  ⟨_, rfl, run_fifo twoWorkers busyRun _ rfl⟩

theorem pushedBy_below {n : Nat} (ht : t < n) (pushed : List (Nat × α)) :
    pushedBy t (pushed.filter fun x => decide (x.1 < n)) = pushedBy t pushed := by
  rw [pushedBy, List.filterMap_filter]
  refine List.filterMap_congr fun x _ => ?_
  by_cases e : x.1 = t
  · rw [if_pos (decide_eq_true (e ▸ ht))]
  · rw [if_neg e, ite_self]

theorem pushedBy_last {n : Nat} {pushed : List (Nat × α)} (hn : ∀ x ∈ pushed, x.1 < n + 1) :
    pushed.filter (fun x => !decide (x.1 < n)) = (pushedBy n pushed).map fun a => (n, a) := by
  induction pushed with
  | nil => rfl
  | cons x pushed ih =>
    rw [pushedBy_cons, List.map_append, ← ih fun y hy => hn y (List.mem_cons_of_mem _ hy)]
    by_cases e : x.1 = n
    · rw [if_pos e, List.filter_cons_of_pos (by simp [e]), ← e]
      rfl
    · have hlt : x.1 < n := Nat.lt_of_le_of_ne (Nat.le_of_lt_succ (hn x List.mem_cons_self)) e
      rw [if_neg e, List.filter_cons_of_neg (by simp [hlt])]
      rfl

theorem interleaving_pushedBy {n : Nat} {pushed : List (Nat × Push)} (hn : ∀ x ∈ pushed, x.1 < n) :
    Interleaving n (fun t => pushedBy t pushed) pushed := by
  induction n generalizing pushed with
  | zero =>
    have e : pushed = [] :=
      List.eq_nil_iff_forall_not_mem.mpr fun x hx => absurd (hn x hx) (Nat.not_lt_zero _)
    rw [e]
    exact List.Perm.nil
  | succ n ih =>
    have hsplit := List.filter_append_perm (fun x => decide (x.1 < n)) pushed
    have hbelow : Interleaving n (fun t => pushedBy t (pushed.filter fun x => decide (x.1 < n)))
        (pushed.filter fun x => decide (x.1 < n)) :=
      ih fun x hx => of_decide_eq_true (List.mem_filter.mp hx).2
    unfold Interleaving threadPushes at hbelow ⊢
    rw [List.range_succ, List.flatMap_append, List.flatMap_singleton, ← pushedBy_last hn]
    refine hsplit.symm.trans (List.Perm.append_right _ (hbelow.trans (List.Perm.of_eq ?_)))
    refine List.flatMap_congr fun t ht => ?_
    exact congrArg _ (pushedBy_below (List.mem_range.mp ht) pushed)

theorem mem_pushedBy {x : Nat × α} {pushed : List (Nat × α)} (hx : x ∈ pushed) :
    x.2 ∈ pushedBy x.1 pushed :=
  List.mem_filterMap.mpr ⟨x, hx, if_pos rfl⟩

/-- **When every worker is through** with its program, the queue received an interleaving of the
programs, each in its order. -/
theorem History.all_pushed {n : Nat} {program : Nat → List Push} {s : ResultQueue Push}
    (hs : s.History program) (hn : ∀ t, n ≤ t → program t = [])
    (hdone : ∀ t < n, (s.producers t).todo = []) :
    Interleaving n program s.pushed ∧ ∀ t < n, pushedBy t s.pushed = program t := by
  have hbelow : ∀ x ∈ s.pushed, x.1 < n := by
    intro x hx
    refine Nat.lt_of_not_le fun hle => ?_
    have hempty := hs.own x.1
    rw [hn _ hle] at hempty
    exact List.ne_nil_of_mem (mem_pushedBy hx) (List.append_eq_nil_iff.mp hempty).1
  have hall : ∀ t < n, pushedBy t s.pushed = program t := by
    intro t ht
    rw [← hs.own t, hdone t ht, List.append_nil]
  refine ⟨(interleaving_pushedBy hbelow).trans (List.Perm.of_eq ?_), hall⟩
  exact List.flatMap_congr fun t ht => congrArg _ (hall t (List.mem_range.mp ht))

/-! ## who waits for whom -/

def Enabled (s : ResultQueue α) (i : Holder) : Prop := ∃ e, e.thread = i ∧ (step s e).isSome = true

/-- a worker has something to push, or is in a call; the consumer always calls again -/
def Busy (s : ResultQueue α) : Holder → Prop
  | .producer t => (s.producers t).pc ≠ .outside ∨ (s.producers t).todo ≠ []
  | .consumer => True

theorem holder_enabled (hs : s.Inv) (hi : holds s.producers s.consumer i = true) : s.Enabled i := by
  cases i with
  | producer t =>
    cases hpc : (s.producers t).pc with
    | locked =>
      obtain ⟨a, todo, htodo⟩ := List.exists_cons_of_ne_nil (hs.calling t (Or.inr hpc))
      refine ⟨.pushBack t, rfl, ?_⟩
      rw [step, hpc, htodo]
      rfl
    | pushedBack =>
      refine ⟨.unlock t, rfl, ?_⟩
      rw [step, if_pos hpc]
      rfl
    | _ =>
      rw [holds, hpc] at hi
      cases hi
  | consumer =>
    cases hpc : s.consumer with
    | testing timedOut =>
      cases hq : s.queue with
      | cons a queue =>
        refine ⟨.test, rfl, ?_⟩
        rw [step, hpc, hq]
        rfl
      | nil =>
        cases timedOut with
        | true =>
          refine ⟨.test, rfl, ?_⟩
          rw [step, hpc, hq]
          rfl
        | false =>
          refine ⟨.test, rfl, ?_⟩
          rw [step, hpc, hq]
          rfl
    | taking =>
      obtain ⟨a, queue, hq⟩ := List.exists_cons_of_ne_nil (hs.seen.taking hpc)
      refine ⟨.popFront, rfl, ?_⟩
      rw [step, hpc, hq]
      rfl
    | leaving r =>
      refine ⟨.leave, rfl, ?_⟩
      rw [step, hpc]
      rfl
    | _ =>
      rw [holds, hpc] at hi
      cases hi

/-- a thread that is busy outside of its critical section can go on when the mutex is free -/
theorem free_enabled (hm : s.mutex = none) (hbusy : s.Busy i)
    (hi : holds s.producers s.consumer i = false) : s.Enabled i := by
  cases i with
  | producer t =>
    cases hpc : (s.producers t).pc with
    | outside =>
      obtain ⟨a, todo, htodo⟩ := List.exists_cons_of_ne_nil (hbusy.resolve_left fun h => h hpc)
      refine ⟨.call t, rfl, ?_⟩
      rw [step, hpc, htodo]
      rfl
    | locking =>
      refine ⟨.lock t, rfl, ?_⟩
      rw [step, if_pos ⟨hpc, hm⟩]
      rfl
    | notifying =>
      refine ⟨.notify t, rfl, ?_⟩
      rw [step, if_pos hpc]
      rfl
    | _ =>
      rw [holds, hpc] at hi
      cases hi
  | consumer =>
    cases hpc : s.consumer with
    | outside last =>
      refine ⟨.enter, rfl, ?_⟩
      rw [step, hpc]
      rfl
    | locking =>
      refine ⟨.lockPop, rfl, ?_⟩
      rw [step, hpc, hm]
      rfl
    | parked =>
      refine ⟨.wake, rfl, ?_⟩
      rw [step, hpc]
      rfl
    | waking =>
      refine ⟨.relock true, rfl, ?_⟩
      rw [step, hpc, hm]
      rfl
    | _ =>
      rw [holds, hpc] at hi
      cases hi

theorem Inv.busy (hs : s.Inv) (hbusy : s.Busy i) :
    s.Enabled i ∨ ∃ j, j ≠ i ∧ s.mutex = some j ∧ s.Enabled j := by
  cases hi : holds s.producers s.consumer i with
  | true => exact Or.inl (holder_enabled hs hi)
  | false =>
    cases hm : s.mutex with
    | none => exact Or.inl (free_enabled hm hbusy hi)
    | some j =>
      have hj := (hs.owned j).mp hm
      refine Or.inr ⟨j, fun e => ?_, rfl, holder_enabled hs hj⟩
      rw [← e, hj] at hi
      cases hi

/-- **Nobody is stuck**: a busy thread can go on, or the mutex is held by another that can. -/
theorem not_stuck (program : Nat → List α) (es : List QueueEvent) (s : ResultQueue α)
    (h : Trace.run step (start program) es = some s) (i : Holder) (hbusy : s.Busy i) :
    s.Enabled i ∨ ∃ j, j ≠ i ∧ s.mutex = some j ∧ s.Enabled j :=
  (run_inv h).busy hbusy

theorem not_stuck_sleepy : ∃ s, Trace.run step (start twoWorkers) sleepyRun = some s ∧
    s.Busy .consumer ∧
    (s.Enabled .consumer ∨ ∃ j, j ≠ .consumer ∧ s.mutex = some j ∧ s.Enabled j) :=
  ⟨_, rfl, trivial, not_stuck twoWorkers sleepyRun _ rfl .consumer trivial⟩

end ResultQueue

end Onion
