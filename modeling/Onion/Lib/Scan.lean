import Onion.Lib.Trace
import Mathlib.Algebra.BigOperators.Group.Finset.Basic
import Mathlib.Logic.Function.Basic
import Mathlib.Algebra.Order.BigOperators.Group.Finset

/-!
# Summing counters while they are raised

`n` counters, each with a writer of its own that stores one value after the other; a reader loads
them one by one and adds them up in a register modulo `m`.

* `Scan.step`      one access of a writer or of the reader;
* `Scan.Inv`       where the sum of a scan is, between the totals at its ends;
* `Scan.run_between`   the scans of a run: each between the totals when it began and when it ended,
                   and none below an earlier one.
-/

namespace Scan

/-- a scan that has loaded the counters below `pos`; `low` is the total when it began -/
structure Partial where
  low : ℕ
  pos : ℕ
  sum : ℕ

/-- a scan that has ended; `high` is the total then -/
structure Reading where
  low : ℕ
  sum : ℕ
  high : ℕ

structure Board where
  slots : ℕ → ℕ
  /-- what the writer of a counter stores next -/
  todo : ℕ → List ℕ
  scan : Option Partial
  readings : List Reading

inductive Access where
  | store (i : ℕ)
  | start
  | load
  | finish

def total (slots : ℕ → ℕ) (n : ℕ) : ℕ := ∑ i ∈ Finset.range n, slots i

def step (n m : ℕ) (s : Board) : Access → Option Board
  | .store i =>
    match s.todo i with
    | [] => none
    | v :: rest => some { s with
        slots := Function.update s.slots i v, todo := Function.update s.todo i rest }
  | .start =>
    match s.scan with
    | none => some { s with scan := some ⟨total s.slots n, 0, 0⟩ }
    | some _ => none
  | .load =>
    match s.scan with
    | some c =>
      if c.pos < n then some { s with scan := some ⟨c.low, c.pos + 1, (c.sum + s.slots c.pos) % m⟩ }
      else none
    | none => none
  | .finish =>
    match s.scan with
    | some c =>
      if c.pos = n then some { s with
        scan := none, readings := s.readings ++ [⟨c.low, c.sum, total s.slots n⟩] }
      else none
    | none => none

def start (program : ℕ → List ℕ) : Board := ⟨fun _ => 0, program, none, []⟩

theorem total_succ (slots : ℕ → ℕ) (n : ℕ) : total slots (n + 1) = total slots n + slots n :=
  Finset.sum_range_succ slots n

theorem total_raise (slots : ℕ → ℕ) {i v : ℕ} (hv : slots i ≤ v) (n : ℕ) :
    total (Function.update slots i v) n = total slots n + if i < n then v - slots i else 0 := by
  induction n with
  | zero => rfl
  | succ n ih =>
    rw [total_succ, total_succ, ih]
    by_cases hn : i = n
    · rw [hn, Function.update_self, if_neg (Nat.lt_irrefl n), if_pos (Nat.lt_succ_self n)]
      rw [hn] at hv
      omega
    · rw [Function.update_of_ne (Ne.symm hn)]
      split <;> split <;> omega

theorem total_mono {slots slots' : ℕ → ℕ} (h : ∀ i, slots i ≤ slots' i) (n : ℕ) :
    total slots n ≤ total slots' n := Finset.sum_le_sum fun i _ => h i

theorem total_le (slots : ℕ → ℕ) {k n : ℕ} (hk : k ≤ n) : total slots k ≤ total slots n :=
  Finset.sum_le_sum_of_subset (Finset.range_subset_range.mpr hk)

/-- what the counter will be when its writer is through -/
def last (s : Board) (i : ℕ) : ℕ := (s.todo i).getLastD (s.slots i)

/-- the sum of a scan lags behind the counters that it has loaded, and not behind the total when it
began -/
structure Partial.Inv (n : ℕ) (s : Board) (c : Partial) : Prop where
  pos : c.pos ≤ n
  above : c.low + total s.slots c.pos ≤ c.sum + total s.slots n
  below : c.sum ≤ total s.slots c.pos
  later : ∀ r ∈ s.readings, r.high ≤ c.low

structure Inv (n m : ℕ) (s : Board) : Prop where
  rising : ∀ i, (s.slots i :: s.todo i).Pairwise (· ≤ ·)
  bound : total (last s) n < m
  scan : ∀ c, s.scan = some c → c.Inv n s
  readings : ∀ r ∈ s.readings, (r.low ≤ r.sum ∧ r.sum ≤ r.high) ∧ r.high ≤ total s.slots n
  order : s.readings.Pairwise fun a b => a.high ≤ b.low

theorem le_getLastD {a : ℕ} {l : List ℕ} (h : (a :: l).Pairwise (· ≤ ·)) : a ≤ l.getLastD a := by
  cases l with
  | nil => exact le_rfl
  | cons b l =>
    rw [List.getLastD_eq_getLast?, List.getLast?_eq_some_getLast (List.cons_ne_nil b l), Option.getD_some]
    exact (List.pairwise_cons.mp h).1 _ (List.getLast_mem _)

section
variable {n m : ℕ} {s s' : Board} {e : Access} {es : List Access} {program : ℕ → List ℕ}

theorem Inv.total_lt (hs : Inv n m s) : total s.slots n < m :=
  (total_mono (fun i => le_getLastD (hs.rising i)) n).trans_lt hs.bound

def Effect (n m : ℕ) (s s' : Board) : Access → Prop
  | .store i => ∃ v rest, s.todo i = v :: rest ∧ s' = { s with
      slots := Function.update s.slots i v, todo := Function.update s.todo i rest }
  | .start => s.scan = none ∧ s' = { s with scan := some ⟨total s.slots n, 0, 0⟩ }
  | .load => ∃ c, s.scan = some c ∧ c.pos < n ∧
      s' = { s with scan := some ⟨c.low, c.pos + 1, (c.sum + s.slots c.pos) % m⟩ }
  | .finish => ∃ c, s.scan = some c ∧ c.pos = n ∧ s' = { s with
      scan := none, readings := s.readings ++ [⟨c.low, c.sum, total s.slots n⟩] }

theorem step_cases (h : step n m s e = some s') : Effect n m s s' e := by
  cases e with
  | store i =>
    rw [step] at h
    split at h
    · cases h
    next v rest htodo => exact ⟨v, rest, htodo, (Option.some.inj h).symm⟩
  | start =>
    rw [step] at h
    split at h
    next hscan => exact ⟨hscan, (Option.some.inj h).symm⟩
    · cases h
  | load =>
    rw [step] at h
    split at h
    next c hscan =>
      rw [Option.ite_none_right_eq_some] at h
      exact ⟨c, hscan, h.1, (Option.some.inj h.2).symm⟩
    · cases h
  | finish =>
    rw [step] at h
    split at h
    next c hscan =>
      rw [Option.ite_none_right_eq_some] at h
      exact ⟨c, hscan, h.1, (Option.some.inj h.2).symm⟩
    · cases h

theorem store_inv {i v : ℕ} {rest : List ℕ} (hs : Inv n m s) (htodo : s.todo i = v :: rest) :
    Inv n m { s with
      slots := Function.update s.slots i v, todo := Function.update s.todo i rest } := by
  have hi := hs.rising i
  rw [htodo] at hi
  obtain ⟨hhead, htail⟩ := List.pairwise_cons.mp hi
  have hv : s.slots i ≤ v := hhead v List.mem_cons_self
  have hraise := total_raise s.slots hv
  refine ⟨fun j => ?_, ?_, fun c hc => ?_, fun r hr => ?_, hs.order⟩
  · show (Function.update s.slots i v j :: Function.update s.todo i rest j).Pairwise _
    by_cases hj : j = i
    · rw [hj, Function.update_self, Function.update_self]
      exact htail
    · rw [Function.update_of_ne hj, Function.update_of_ne hj]
      exact hs.rising j
  · have hlast : last { s with
        slots := Function.update s.slots i v, todo := Function.update s.todo i rest } = last s := by
      funext j
      show (Function.update s.todo i rest j).getLastD (Function.update s.slots i v j) = _
      by_cases hj : j = i
      · rw [hj, Function.update_self, Function.update_self, last, htodo, List.getLastD_cons]
      · rw [Function.update_of_ne hj, Function.update_of_ne hj]
        rfl
    rw [hlast]
    exact hs.bound
  · obtain ⟨hpos, habove, hbelow, hlater⟩ := hs.scan c hc
    refine ⟨hpos, ?_, ?_, hlater⟩
    · dsimp only
      rw [hraise, hraise]
      split <;> split <;> omega
    · dsimp only
      rw [hraise]
      exact hbelow.trans (Nat.le_add_right _ _)
  · refine ⟨(hs.readings r hr).1, ?_⟩
    dsimp only
    rw [hraise]
    exact (hs.readings r hr).2.trans (Nat.le_add_right _ _)

theorem step_inv (hs : Inv n m s) (h : step n m s e = some s') : Inv n m s' := by
  have heffect := step_cases h
  cases e with
  | store i =>
    obtain ⟨v, rest, htodo, rfl⟩ := heffect
    exact store_inv hs htodo
  | start =>
    obtain ⟨-, rfl⟩ := heffect
    refine ⟨hs.rising, hs.bound, fun c hc => ?_, hs.readings, hs.order⟩
    obtain rfl := Option.some.inj hc
    exact ⟨Nat.zero_le n, by dsimp only [total]; simp, Nat.zero_le _, fun r hr => (hs.readings r hr).2⟩
  | load =>
    obtain ⟨c, hc, hpos, rfl⟩ := heffect
    obtain ⟨-, habove, hbelow, hlater⟩ := hs.scan c hc
    have hsucc := total_succ s.slots c.pos
    have hle := (total_le s.slots (Nat.succ_le_of_lt hpos)).trans_lt hs.total_lt
    have hsum : (c.sum + s.slots c.pos) % m = c.sum + s.slots c.pos := Nat.mod_eq_of_lt (by
      rw [Nat.succ_eq_add_one] at hle
      omega)
    refine ⟨hs.rising, hs.bound, fun c' hc' => ?_, hs.readings, hs.order⟩
    obtain rfl := Option.some.inj hc'
    refine ⟨Nat.succ_le_of_lt hpos, ?_, ?_, hlater⟩
    · dsimp only
      omega
    · dsimp only
      omega
  | finish =>
    obtain ⟨c, hc, hpos, rfl⟩ := heffect
    obtain ⟨-, habove, hbelow, hlater⟩ := hs.scan c hc
    rw [hpos] at habove hbelow
    refine ⟨hs.rising, hs.bound, fun c' hc' => (by cases hc'), fun r hr => ?_, ?_⟩
    · rcases List.mem_append.mp hr with hr | hr
      · exact hs.readings r hr
      · rw [List.mem_singleton.mp hr]
        exact ⟨⟨Nat.le_of_add_le_add_right habove, hbelow⟩, le_rfl⟩
    · refine List.pairwise_append.mpr ⟨hs.order, List.pairwise_singleton _ _, fun r hr r' hr' => ?_⟩
      rw [List.mem_singleton.mp hr']
      exact hlater r hr

theorem start_inv (hrising : ∀ i, (program i).Pairwise (· ≤ ·))
    (hbound : total (fun i => (program i).getLastD 0) n < m) : Inv n m (start program) where
  rising i := List.pairwise_cons.mpr ⟨fun _ _ => Nat.zero_le _, hrising i⟩
  bound := hbound
  scan c hc := by cases hc
  readings r hr := by cases hr
  order := List.Pairwise.nil

/-- **The scans of a run**: each between the totals at its ends, none below an earlier one. -/
theorem run_between (hrising : ∀ i, (program i).Pairwise (· ≤ ·))
    (hbound : total (fun i => (program i).getLastD 0) n < m)
    (h : Trace.run (step n m) (start program) es = some s) :
    (∀ r ∈ s.readings, r.low ≤ r.sum ∧ r.sum ≤ r.high) ∧
      s.readings.Pairwise fun a b => a.sum ≤ b.sum := by
  have hs : Inv n m s := Trace.run_inv step_inv h (start_inv hrising hbound)
  refine ⟨fun r hr => (hs.readings r hr).1, hs.order.imp_of_mem fun {a b} ha hb hab => ?_⟩
  exact ((hs.readings a ha).1.2.trans hab).trans (hs.readings b hb).1.1

end

end Scan
