import Onion.Lib.Indexed

/-!
# Runs that keep a log, and rules for their loops

A run `Logged ε α` is a result with the list of events on the way to it.  `Holds G x Q` says that
every event of the run `x` satisfies `G` and its result satisfies `Q`; the rules below prove it
along the structure of the code:

* `Holds.pure`, `Holds.bind`, `Holds.mono`   straight-line code;
* `forUp`, `forDown`       the loops `i = 0 .. n-1` and `i = n-1 .. 0`;
* `Holds.forUp`, `Holds.forDown`   their invariant rules;
* `all`, `Holds.all`       independent runs, one per index;
* `forEach`, `Holds.forEach`   the loop over a list;
* `select`      the part of the log that a reader is interested in, and its rules.
-/

/-- a result with the events that led to it -/
structure Logged (ε α : Type) where
  val : α
  log : List ε

namespace Logged
variable {ε α β : Type}

instance : Monad (Logged ε) where
  pure a := ⟨a, []⟩
  bind x f := ⟨(f x.val).val, x.log ++ (f x.val).log⟩

@[simp] theorem pure_val (a : α) : (pure a : Logged ε α).val = a := rfl
@[simp] theorem pure_log (a : α) : (pure a : Logged ε α).log = [] := rfl
@[simp] theorem bind_val (x : Logged ε α) (f : α → Logged ε β) :
    (x >>= f).val = (f x.val).val := rfl
@[simp] theorem bind_log (x : Logged ε α) (f : α → Logged ε β) :
    (x >>= f).log = x.log ++ (f x.val).log := rfl

instance : LawfulMonad (Logged ε) := by
  refine LawfulMonad.mk' _ ?_ ?_ ?_
  · intro α x
    exact congrArg (Logged.mk x.val) (List.append_nil x.log)
  · intro α β a f
    exact congrArg (Logged.mk _) (List.nil_append _)
  · intro α β γ x f g
    exact congrArg (Logged.mk _) (List.append_assoc _ _ _)

/-- every event satisfies `G`, the result satisfies `Q` -/
def Holds (G : ε → Prop) (x : Logged ε α) (Q : α → Prop) : Prop :=
  (∀ e ∈ x.log, G e) ∧ Q x.val

namespace Holds
variable {G : ε → Prop} {Q R : α → Prop} {S : β → Prop}

theorem pure {a : α} (h : Q a) : Holds G (pure a) Q := ⟨fun _ he => absurd he (by simp), h⟩

theorem mono {x : Logged ε α} (h : Holds G x Q) (hQ : ∀ a, Q a → R a) : Holds G x R :=
  ⟨h.1, hQ _ h.2⟩

theorem imp {G' : ε → Prop} {x : Logged ε α} (h : Holds G x Q) (hG : ∀ e, G e → G' e) :
    Holds G' x Q :=
  ⟨fun e he => hG e (h.1 e he), h.2⟩

theorem bind {x : Logged ε α} {f : α → Logged ε β} (hx : Holds G x Q)
    (hf : ∀ a, Q a → Holds G (f a) S) : Holds G (x >>= f) S := by
  obtain ⟨hl, hv⟩ := hf x.val hx.2
  refine ⟨fun e he => ?_, hv⟩
  rcases List.mem_append.mp he with h | h
  · exact hx.1 e h
  · exact hl e h

end Holds

/-- `for i = 0 .. n-1` -/
def forUp (f : Nat → α → Logged ε α) : Nat → α → Logged ε α
  | 0, s => Pure.pure s
  | n+1, s => forUp f n s >>= f n

/-- `for i = n-1 .. 0` -/
def forDown (f : Nat → α → Logged ε α) : Nat → α → Logged ε α
  | 0, s => Pure.pure s
  | n+1, s => f n s >>= forDown f n

/-- `f 0`, `f 1`, ..., one after the other -/
def all {n : Nat} (f : Fin n → Logged ε α) : Logged ε (Vector α n) :=
  ⟨Vector.ofFn fun i => (f i).val, (List.finRange n).flatMap fun i => (f i).log⟩

theorem forUp_succ (f : Nat → α → Logged ε α) (n : Nat) (s : α) :
    forUp f (n+1) s = forUp f n s >>= f n := rfl
theorem forDown_succ (f : Nat → α → Logged ε α) (n : Nat) (s : α) :
    forDown f (n+1) s = f n s >>= forDown f n := rfl

namespace Holds
variable {G : ε → Prop} {f : Nat → α → Logged ε α}

/-- invariant rule of the upward loop: `I i` holds before round `i` -/
theorem forUp (I : Nat → α → Prop) (n : Nat) {s : α} (h0 : I 0 s)
    (step : ∀ i s, i < n → I i s → Holds G (f i s) (I (i+1))) :
    Holds G (Logged.forUp f n s) (I n) := by
  induction n with
  | zero => exact Holds.pure h0
  | succ n ih =>
    rw [forUp_succ]
    exact (ih fun i s hi => step i s (by omega)).bind fun s hs => step n s (by omega) hs

/-- invariant rule of the downward loop: `I (i+1)` holds before round `i` -/
theorem forDown (I : Nat → α → Prop) (n : Nat) {s : α} (hn : I n s)
    (step : ∀ i s, i < n → I (i+1) s → Holds G (f i s) (I i)) :
    Holds G (Logged.forDown f n s) (I 0) := by
  induction n generalizing s with
  | zero => exact Holds.pure hn
  | succ n ih =>
    rw [forDown_succ]
    exact (step n s (by omega) hn).bind fun s hs => ih hs fun i s hi => step i s (by omega)

theorem all {n : Nat} {f : Fin n → Logged ε α} {Q : Fin n → α → Prop}
    (h : ∀ i, Holds G (f i) (Q i)) : Holds G (Logged.all f) fun v => ∀ i, Q i v[i] := by
  refine ⟨fun e he => ?_, fun i => ?_⟩
  · obtain ⟨i, -, hi⟩ := List.mem_flatMap.mp he
    exact (h i).1 e hi
  · have e : (Logged.all f).val[i] = (f i).val := by
      simp [Logged.all]
    rw [e]
    exact (h i).2

end Holds

/-! ## loops over a list, and parts of the log -/

/-- `for x in xs` -/
def forEach {ι : Type} (f : ι → α → Logged ε α) : List ι → α → Logged ε α
  | [], s => Pure.pure s
  | x :: xs, s => f x s >>= forEach f xs

/-- the same run in a larger log -/
def lift {δ : Type} (φ : ε → δ) (x : Logged ε α) : Logged δ α := ⟨x.val, x.log.map φ⟩

theorem Holds.lift {δ : Type} {G : δ → Prop} {φ : ε → δ} {x : Logged ε α} {Q : α → Prop}
    (hx : Holds (fun e => G (φ e)) x Q) : Holds G (Logged.lift φ x) Q := by
  refine ⟨fun e he => ?_, hx.2⟩
  obtain ⟨e', he', rfl⟩ := List.mem_map.mp he
  exact hx.1 e' he'

/-- the results of `f` on the log, in order -/
def select {γ : Type} (f : ε → Option γ) (x : Logged ε α) : List γ := x.log.filterMap f

theorem Holds.forEach {ι : Type} {G : ε → Prop} {f : ι → α → Logged ε α} (I : α → Prop)
    {xs : List ι} {s : α} (h0 : I s) (step : ∀ x ∈ xs, ∀ s, I s → Holds G (f x s) I) :
    Holds G (Logged.forEach f xs s) I := by
  induction xs generalizing s with
  | nil => exact Holds.pure h0
  | cons x xs ih =>
    exact (step x (by simp) s h0).bind fun s hs =>
      ih hs fun y hy => step y (List.mem_cons_of_mem _ hy)

section
variable {γ δ ι : Type} {f : ε → Option γ}

theorem select_pure (a : α) : select f (Pure.pure a : Logged ε α) = [] := rfl

theorem select_bind (x : Logged ε α) (g : α → Logged ε β) :
    select f (x >>= g) = select f x ++ select f (g x.val) := List.filterMap_append

theorem select_lift (φ : δ → ε) (x : Logged δ α) : select f (lift φ x) = select (f ∘ φ) x := by
  rw [select, lift, List.filterMap_map]
  rfl

theorem select_eq_nil {x : Logged ε α} (h : ∀ e, f e = none) : select f x = [] :=
  List.filterMap_eq_nil_iff.mpr fun e _ => h e

/-- `f` selects none of the events that the run may have -/
theorem Holds.select_eq_nil {G : ε → Prop} {Q : α → Prop} {x : Logged ε α} (h : Holds G x Q)
    (hf : ∀ e, G e → f e = none) : select f x = [] :=
  List.filterMap_eq_nil_iff.mpr fun e he => hf e (h.1 e he)

theorem select_forUp {body : Nat → α → Logged ε α} {g : Nat → List γ} {n : Nat} {s : α}
    (h : ∀ i s, i < n → select f (body i s) = g i) :
    select f (forUp body n s) = (List.range n).flatMap g := by
  induction n with
  | zero => rfl
  | succ n ih =>
    rw [forUp_succ, select_bind, ih fun i s hi => h i s (by omega), h n _ (by omega),
      List.range_succ, List.flatMap_append, List.flatMap_singleton]

theorem select_forEach {body : ι → α → Logged ε α} {g : ι → List γ} {xs : List ι} {s : α}
    (h : ∀ x ∈ xs, ∀ s, select f (body x s) = g x) :
    select f (forEach body xs s) = xs.flatMap g := by
  induction xs generalizing s with
  | nil => rfl
  | cons x xs ih =>
    rw [forEach, select_bind, h x (by simp), ih fun y hy => h y (List.mem_cons_of_mem _ hy),
      List.flatMap_cons]

end

end Logged
