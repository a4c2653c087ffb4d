import Mathlib.Init

/-!
# Operations that are done later, in order

A state with a queue of operations on it.  They are done one by one, at any time, each on the state
that it finds then; whoever owns the state may write to it in between.

* `done`            the state when all of the queue is done;
* `done_advance`    the next operation does not change it;
* `Meets`           every operation will find a state that meets a condition;
* `Later`           the same queue, some of it done.
-/

structure Queued (S O : Type) where
  now : S
  queue : List O

namespace Queued
variable {S O : Type} (exec : S → O → S)

def done (x : Queued S O) : S := x.queue.foldl exec x.now

def advance (x : Queued S O) : Queued S O :=
  match x.queue with
  | [] => x
  | op :: ops => ⟨exec x.now op, ops⟩

def push (op : O) (x : Queued S O) : Queued S O := ⟨x.now, x.queue ++ [op]⟩

def write (f : S → S) (x : Queued S O) : Queued S O := ⟨f x.now, x.queue⟩

def clear (x : Queued S O) : Queued S O := ⟨x.now, []⟩

variable {exec} {x y z : Queued S O} {op : O} {f : S → S} {P : S → O → Prop}

theorem done_nil (h : x.queue = []) : x.done exec = x.now := by
  rw [done, h]
  rfl

theorem done_advance (x : Queued S O) : (x.advance exec).done exec = x.done exec := by
  obtain ⟨s, ops⟩ := x
  cases ops with
  | nil => rfl
  | cons op ops => rfl

/-! ## conditions along the queue -/

/-- every operation of the list will find a state that meets `P` -/
def MeetsFrom (exec : S → O → S) (P : S → O → Prop) : S → List O → Prop
  | _, [] => True
  | s, op :: ops => P s op ∧ MeetsFrom exec P (exec s op) ops

def Meets (exec : S → O → S) (P : S → O → Prop) (x : Queued S O) : Prop :=
  MeetsFrom exec P x.now x.queue

theorem Meets.advance (h : Meets exec P x) : Meets exec P (x.advance exec) := by
  obtain ⟨s, ops⟩ := x
  cases ops with
  | nil => exact h
  | cons op ops => exact h.2

theorem Meets.clear (x : Queued S O) : Meets exec P x.clear := trivial

theorem Meets.push (h : Meets exec P x) (hop : P (x.done exec) op) : Meets exec P (x.push op) := by
  obtain ⟨s, ops⟩ := x
  show MeetsFrom exec P s (ops ++ [op])
  induction ops generalizing s with
  | nil => exact ⟨hop, trivial⟩
  | cons o ops ih => exact ⟨h.1, ih (exec s o) h.2 hop⟩

/-! ## progress -/

/-- `y` is `x` after some of its queue is done -/
inductive Later (exec : S → O → S) (x : Queued S O) : Queued S O → Prop where
  | refl : Later exec x x
  | step {y : Queued S O} : Later exec x y → Later exec x (y.advance exec)

theorem Later.trans (h : Later exec x y) (h' : Later exec y z) : Later exec x z := by
  induction h' with
  | refl => exact h
  | step _ ih => exact ih.step

theorem Later.done (h : Later exec x y) : y.done exec = x.done exec := by
  induction h with
  | refl => rfl
  | step _ ih => rw [done_advance, ih]

theorem Later.meets (h : Later exec x y) (hx : Meets exec P x) : Meets exec P y := by
  induction h with
  | refl => exact hx
  | step _ ih => exact ih.advance

theorem Later.mem (h : Later exec x y) (hop : op ∈ y.queue) : op ∈ x.queue := by
  induction h with
  | refl => exact hop
  | @step y _ ih =>
    refine ih ?_
    obtain ⟨s, ops⟩ := y
    cases ops with
    | nil => exact hop
    | cons o ops => exact List.mem_cons_of_mem _ hop

theorem Later.eq_of_nil (h : Later exec x y) (hx : x.queue = []) : y = x := by
  induction h with
  | refl => rfl
  | step _ ih =>
    rw [ih, Queued.advance, hx]

theorem Later.push (h : Later exec x y) (op : O) : Later exec (x.push op) (y.push op) := by
  induction h with
  | refl => exact .refl
  | @step y _ ih =>
    obtain ⟨s, ops⟩ := y
    cases ops with
    | nil => exact ih
    | cons o ops => exact ih.step

theorem Later.write (h : Later exec x y) (hf : ∀ op ∈ x.queue, ∀ s, exec (f s) op = f (exec s op)) :
    Later exec (x.write f) (y.write f) := by
  induction h with
  | refl => exact .refl
  | @step y hy ih =>
    have hf : ∀ op ∈ y.queue, ∀ s, exec (f s) op = f (exec s op) := fun op hop => hf op (hy.mem hop)
    obtain ⟨s, ops⟩ := y
    cases ops with
    | nil => exact ih
    | cons o ops =>
      have hstep : Later exec (x.write f) ⟨exec (f s) o, ops⟩ := ih.step
      rw [hf o List.mem_cons_self] at hstep
      exact hstep

theorem Later.proj {A : Type} {p : S → A} (h : Later exec x y)
    (hp : ∀ s op, p (exec s op) = p s) : p y.now = p x.now := by
  induction h with
  | refl => rfl
  | @step y _ ih =>
    rw [← ih]
    obtain ⟨s, ops⟩ := y
    cases ops with
    | nil => rfl
    | cons o ops => exact hp s o

end Queued
