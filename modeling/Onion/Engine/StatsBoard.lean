import Onion.Engine.Accounts
import Onion.Engine.Naive
import Onion.Lib.Scan

/-!
# `StatsBoard`: what the workers store, and what `total()` reads

* `totals`           the totals of a worker that counts the same number every time;
* `EngineTotals`     what a worker of each engine stores, with the candidates that it has tested;
* `worker_slot`, `NaiveCpuEngine.worker_slot`, `CudaEngine.run_slot`   the last of them is in the slot
                     at the end;
* `writers`          which slots have a worker, for each `--engine`;
* `StatsBoard.tried`   `total()` is between the totals when it began and when it ended, and never
                     goes back.
-/

namespace Onion
open Logged

/-- the totals after one, two, ..., `n` rounds of `step` candidates, in a 64-bit register -/
def totals (step n : Nat) : List Nat := (List.range n).map fun k => (k + 1) * step % 2^64

theorem totals_succ (step n : Nat) :
    totals step (n + 1) = totals step n ++ [(n + 1) * step % 2^64] := by
  rw [totals, totals, List.range_succ, List.map_append, List.map_singleton]

theorem totals_last (step n : Nat) : (totals step n).getLastD 0 = n * step % 2^64 := by
  cases n with
  | zero => rw [Nat.zero_mul]; rfl
  | succ n => rw [totals_succ, List.getLastD_concat]

theorem totals_rising {step n : Nat} (h : n * step < 2^64) : (totals step n).Pairwise (· ≤ ·) := by
  refine List.pairwise_map.mpr (List.pairwise_lt_range.imp_of_mem fun {j k} hj hk hjk => ?_)
  have hle : ∀ i ∈ List.range n, (i + 1) * step < 2^64 := fun i hi =>
    (Nat.mul_le_mul_right step (List.mem_range.mp hi)).trans_lt h
  rw [Nat.mod_eq_of_lt (hle j hj), Nat.mod_eq_of_lt (hle k hk)]
  exact Nat.mul_le_mul_right step (by omega)

/-! ## the CPU engines -/

/-- the batches that a run has completed -/
def batches {α : Type} (cfg : EngineConfig) (x : Worker α) : Nat :=
  ((epochs x).map fun e => cfg.completed e.2).sum

section
variable {lanes : Nat} {S O : Type} {ops : LaneOps lanes S O} (wk : Walks ops) {h : Host}
  {cfg : EngineConfig}

include wk in
theorem epochLoop_slot (fuel : Nat) {s : WorkerState O} (hs : Settled ops cfg s) :
    (epochLoop ops h cfg fuel s).val.slot =
      (s.slot + batches cfg (epochLoop ops h cfg fuel s) * (lanes * cfg.batch)) % 2^64 := by
  have hidle : s.slot = (s.slot + 0 * (lanes * cfg.batch)) % 2^64 := by
    rw [Nat.zero_mul, Nat.add_zero, hs.slot, Nat.mod_eq_of_lt hs.lt]
  induction fuel generalizing s with
  | zero => exact hidle
  | succ fuel ih =>
    rw [epochLoop]
    cases hp : s.polls with
    | zero => exact hidle
    | succ polls =>
      have hs' := hs.polls polls
      obtain ⟨hr, -, hprogress⟩ := epoch_val (h := h) wk hs'
      have he : batches cfg (epoch ops h cfg { s with polls := polls } >>= epochLoop ops h cfg fuel) =
          cfg.completed polls + batches cfg (epochLoop ops h cfg fuel
            (epoch ops h cfg { s with polls := polls }).val) := by
        rw [batches, epochs, select_bind, List.map_append, List.sum_append]
        refine congrArg₂ _ ?_ rfl
        rw [← epochs, epoch_epochs]
        exact Nat.add_zero _
      have hslot : (epoch ops h cfg { s with polls := polls }).val.slot =
          (s.slot + lanes * (cfg.completed polls * cfg.batch)) % 2^64 := hprogress.slot
      dsimp only
      rw [bind_val, he, ih hr (by
        rw [Nat.zero_mul, Nat.add_zero, hr.slot, Nat.mod_eq_of_lt hr.lt]), hslot, Nat.mod_add_mod,
        Nat.add_mul, Nat.add_assoc, Nat.mul_left_comm lanes]

include wk in
theorem worker_slot (polls : Nat) : (worker ops h cfg polls).val.slot =
    (totals (lanes * cfg.batch) (batches cfg (worker ops h cfg polls))).getLastD 0 := by
  rw [totals_last, worker, epochLoop_slot wk polls (initial_settled wk cfg polls), Nat.zero_add]

end

namespace NaiveCpuEngine
variable {h : Host} {patterns : List CompiledPattern}

def keyed (h : Host) (draw : Nat) : Bool :=
  (h.baseNoclamp (expandSeed h.sha512 (h.rand draw)).scalar).isSome

/-- the draws with a key, among the first `n` -/
def tested (h : Host) (n : Nat) : Nat := (List.range n).countP (keyed h)

theorem tested_succ (n : Nat) : tested h (n + 1) = tested h n + if keyed h n then 1 else 0 := by
  rw [tested, List.range_succ, List.countP_append, List.countP_singleton]
  rfl

theorem candidate_total {draw total : Nat} (ht : total = tested h draw % 2^64) :
    (candidate h patterns draw total).val = tested h (draw + 1) % 2^64 := by
  rw [tested_succ, keyed]
  simp only [candidate, pubkeyFromScalar]
  cases h.baseNoclamp (expandSeed h.sha512 (h.rand draw)).scalar with
  | none => exact ht
  | some pk =>
    show (total + 1) % 2^64 = (tested h draw + 1) % 2^64
    rw [ht, Nat.mod_add_mod]

theorem round_total (rng n : Nat) {total : Nat} (ht : total = tested h rng % 2^64) :
    (forUp (fun i total => candidate h patterns (rng + i) total) n total).val =
      tested h (rng + n) % 2^64 := by
  induction n with
  | zero => exact ht
  | succ n ih =>
    rw [forUp_succ, bind_val]
    exact candidate_total ih

def stores (h : Host) (polls : Nat) : List Nat :=
  (List.range polls).map fun k => tested h (kCheckInterval * (k + 1)) % 2^64

theorem loop_slot (polls : Nat) {s : State} (ht : s.localTotal = tested h s.rng % 2^64)
    (hslot : s.slot = s.localTotal) :
    (loop h patterns polls s).val.slot = tested h (s.rng + kCheckInterval * polls) % 2^64 := by
  induction polls generalizing s with
  | zero => exact hslot.trans ht
  | succ polls ih =>
    have htotal : (forUp (fun i total => candidate h patterns (s.rng + i) total) kCheckInterval
        s.localTotal).val = tested h (s.rng + kCheckInterval) % 2^64 := round_total _ _ ht
    rw [loop]
    generalize forUp (fun i total => candidate h patterns (s.rng + i) total) kCheckInterval
      s.localTotal = x at htotal ⊢
    rw [bind_val, ih (s := ⟨s.rng + kCheckInterval, x.val, x.val⟩) htotal rfl, Nat.mul_succ,
      Nat.add_comm (kCheckInterval * polls), Nat.add_assoc]

theorem worker_slot (polls : Nat) :
    (worker h patterns polls).val.slot = (stores h polls).getLastD 0 := by
  rw [worker, loop_slot polls rfl rfl, Nat.zero_add]
  cases polls with
  | zero => rfl
  | succ polls =>
    rw [stores, List.range_succ, List.map_append, List.map_singleton, List.getLastD_concat]

theorem tested_mono {m n : Nat} (hmn : m ≤ n) : tested h m ≤ tested h n :=
  List.Sublist.countP_le (List.range_sublist.mpr hmn)

theorem stores_rising {polls : Nat} (hlt : tested h (kCheckInterval * polls) < 2^64) :
    (stores h polls).Pairwise (· ≤ ·) := by
  refine List.pairwise_map.mpr (List.pairwise_lt_range.imp_of_mem fun {j k} hj hk hjk => ?_)
  have hle : ∀ i ∈ List.range polls, tested h (kCheckInterval * (i + 1)) < 2^64 := fun i hi =>
    (tested_mono (Nat.mul_le_mul_left _ (List.mem_range.mp hi))).trans_lt hlt
  rw [Nat.mod_eq_of_lt (hle j hj), Nat.mod_eq_of_lt (hle k hk)]
  exact tested_mono (Nat.mul_le_mul_left _ (by omega))

end NaiveCpuEngine

theorem CudaEngine.run_slot {h : Host} {cfg : CudaConfig}
    {dev : Device cfg.threads cfg.kStepsPerThread} {s : CudaState kPipelineDepth}
    (h0 : s.droppedDegenerate = 0 ∧ s.total = 0 ∧ s.stat = 0) : ∃ rounds ≤ s.polls,
      (run h cfg dev s).val.stat =
        (totals (cfg.threads * cfg.kStepsPerThread) rounds).getLastD 0 := by
  obtain ⟨hdd, htotal, hstat⟩ := h0
  have hs : Shown s := ⟨by rw [hdd]; exact Nat.two_pow_pos 64, by rw [htotal]; exact Nat.two_pow_pos 64,
    hstat.trans htotal.symm⟩
  obtain ⟨n, hn, ha⟩ : ∃ n ≤ s.polls, Accounted h cfg dev n s (run h cfg dev s) :=
    run_accounted kPipelineDepth_ne hs
  refine ⟨n, hn, ?_⟩
  rw [ha.stat, ha.total, htotal, Nat.zero_add, totals_last]

/-! ## the board -/

/-- the engines that `main` selects by `--engine` and `--simd` -/
inductive EngineName where
  | incremental
  | incrementalX4
  | naive
  | cuda
  | cpuGpu
deriving DecidableEq

/-- the slots of the board; `threads` is an `unsigned` -/
def boardSlots (engine : EngineName) (threads : Nat) : Nat :=
  if engine = .cpuGpu then (threads + 1) % 2^32 else threads

/-- the slots with a writer: the CPU threads, and the `stats_slot` of the GPU engine -/
def writers : EngineName → Nat → List Nat
  | .cuda, _ => [0]
  | .cpuGpu, threads => List.range threads ++ [threads]
  | _, threads => List.range threads

/-- every writer has a slot of its own -/
theorem writers_slots (engine : EngineName) {threads : Nat} (hpos : 1 ≤ threads)
    (hlt : threads + 1 < 2^32) : (writers engine threads).Nodup ∧
      ∀ i ∈ writers engine threads, i < boardSlots engine threads := by
  have hrange : (List.range threads).Nodup ∧ ∀ i ∈ List.range threads, i < threads :=
    ⟨List.nodup_range, fun i hi => List.mem_range.mp hi⟩
  cases engine with
  | incremental => exact hrange
  | incrementalX4 => exact hrange
  | naive => exact hrange
  | cuda =>
    refine ⟨List.nodup_singleton 0, fun i hi => ?_⟩
    rw [List.mem_singleton.mp hi]
    exact hpos
  | cpuGpu =>
    have hslots : boardSlots .cpuGpu threads = threads + 1 := Nat.mod_eq_of_lt hlt
    rw [hslots, writers, ← List.range_succ]
    exact ⟨List.nodup_range, fun i hi => List.mem_range.mp hi⟩

/-- what a worker of an engine stores, and how many candidates it has tested in the end -/
inductive EngineTotals (h : Host) : List Nat → Nat → Prop where
  | naive (polls : Nat) : EngineTotals h (NaiveCpuEngine.stores h polls)
      (NaiveCpuEngine.tested h (NaiveCpuEngine.kCheckInterval * polls))
  | incremental (cfg : EngineConfig) (polls : Nat) : EngineTotals h
      (totals (1 * cfg.batch) (batches cfg (IncrementalCpuEngine.worker h cfg polls)))
      (batches cfg (IncrementalCpuEngine.worker h cfg polls) * (1 * cfg.batch))
  | incrementalX4 (cfg : EngineConfig) (polls : Nat) : EngineTotals h
      (totals (4 * cfg.batch) (batches cfg (IncrementalCpuEngineX4.worker h cfg polls)))
      (batches cfg (IncrementalCpuEngineX4.worker h cfg polls) * (4 * cfg.batch))
  | cuda (cfg : CudaConfig) (rounds : Nat) : EngineTotals h
      (totals (cfg.threads * cfg.kStepsPerThread) rounds)
      (rounds * (cfg.threads * cfg.kStepsPerThread))

/-- without an overflow, the totals rise to the candidates tested -/
theorem EngineTotals.rising {h : Host} {stores : List Nat} {tested : Nat}
    (hs : EngineTotals h stores tested) (hlt : tested < 2^64) :
    stores.Pairwise (· ≤ ·) ∧ stores.getLastD 0 = tested := by
  have htotals : ∀ step n, n * step < 2^64 →
      (totals step n).Pairwise (· ≤ ·) ∧ (totals step n).getLastD 0 = n * step := fun step n hn =>
    ⟨totals_rising hn, by rw [totals_last, Nat.mod_eq_of_lt hn]⟩
  cases hs with
  | naive polls =>
    have hslot : (NaiveCpuEngine.worker h [] polls).val.slot =
        (NaiveCpuEngine.stores h polls).getLastD 0 := NaiveCpuEngine.worker_slot polls
    refine ⟨NaiveCpuEngine.stores_rising hlt, ?_⟩
    rw [← hslot, NaiveCpuEngine.worker, NaiveCpuEngine.loop_slot polls rfl rfl, Nat.zero_add,
      Nat.mod_eq_of_lt hlt]
  | incremental cfg polls => exact htotals _ _ hlt
  | incrementalX4 cfg polls => exact htotals _ _ hlt
  | cuda cfg rounds => exact htotals _ _ hlt

/-- **`StatsBoard::total()`**, beside the workers of any engine: every slot that is written is on the
board and has one writer; and while fewer than `2^64` candidates are tested, each call returns a
number between the totals when it began and when it ended, and none less than an earlier call. -/
theorem StatsBoard.tried (engine : EngineName) (threads : Nat) (hpos : 1 ≤ threads)
    (hthreads : threads + 1 < 2^32) (h : Nat → Host) (program : Nat → List Nat)
    (tested : Nat → Nat)
    (hstores : ∀ i ∈ writers engine threads, EngineTotals (h i) (program i) (tested i))
    (hidle : ∀ i ∉ writers engine threads, program i = [] ∧ tested i = 0)
    (hwrap : Scan.total tested (boardSlots engine threads) < 2^64) (es : List Scan.Access)
    (s : Scan.Board) (hrun : Trace.run (Scan.step (boardSlots engine threads) (2^64))
      (Scan.start program) es = some s) :
    ((writers engine threads).Nodup ∧ ∀ i, program i ≠ [] → i < boardSlots engine threads) ∧
      (∀ r ∈ s.readings, r.low ≤ r.sum ∧ r.sum ≤ r.high) ∧
      s.readings.Pairwise fun a b => a.sum ≤ b.sum := by
  obtain ⟨hnodup, hslots⟩ := writers_slots engine hpos hthreads
  have hlt : ∀ i ∈ writers engine threads, tested i < 2^64 := fun i hi =>
    (Finset.single_le_sum (f := tested) (fun _ _ => Nat.zero_le _)
      (Finset.mem_range.mpr (hslots i hi))).trans_lt hwrap
  have hprogram : ∀ i, (program i).Pairwise (· ≤ ·) ∧ (program i).getLastD 0 = tested i := by
    intro i
    by_cases hi : i ∈ writers engine threads
    · exact (hstores i hi).rising (hlt i hi)
    · obtain ⟨hnil, hzero⟩ := hidle i hi
      rw [hnil, hzero]
      exact ⟨List.Pairwise.nil, rfl⟩
  refine ⟨⟨hnodup, fun i hne => hslots i ?_⟩, Scan.run_between (fun i => (hprogram i).1) ?_ hrun⟩
  · by_contra hi
    exact hne (hidle i hi).1
  · rw [show (fun i => (program i).getLastD 0) = tested from funext fun i => (hprogram i).2]
    exact hwrap

/-- a CPU thread that is not through its first batch, and a GPU after two launches -/
def gpuTotals (i : Nat) : List Nat := if i = 1 then totals (8 * 16) 2 else []

/-- `total()` begins between the launches, and loads the slot of the GPU after the second -/
theorem StatsBoard.tried_gpu :
    ∃ s, Trace.run (Scan.step 2 (2^64)) (Scan.start gpuTotals)
        [.store 1, .start, .load, .store 1, .load, .finish] = some s ∧
      s.readings = [⟨128, 256, 256⟩] ∧ (∀ i, gpuTotals i ≠ [] → i < 2) ∧
      ∀ r ∈ s.readings, r.low ≤ r.sum ∧ r.sum ≤ r.high := by
  have hstores : ∀ i ∈ writers .cpuGpu 1, EngineTotals (constHost 0) (gpuTotals i)
      (if i = 1 then 2 * (8 * 16) else 0) := by
    intro i hi
    rcases List.mem_cons.mp hi with rfl | hi
    · exact EngineTotals.incremental ⟨letterPatterns, 2, 4, by decide, by decide⟩ 0
    · rw [List.mem_singleton.mp hi]
      exact EngineTotals.cuda ⟨letterPatterns, 8, 4, 16, by decide, by decide⟩ 2
  have hidle : ∀ i ∉ writers .cpuGpu 1, gpuTotals i = [] ∧ (if i = 1 then 2 * (8 * 16) else 0) = 0 := by
    intro i hi
    have hne : i ≠ 1 := fun he => hi (by rw [he]; decide)
    exact ⟨if_neg hne, if_neg hne⟩
  obtain ⟨⟨-, hslots⟩, hbetween, -⟩ := StatsBoard.tried .cpuGpu 1 le_rfl (by decide)
    (fun _ => constHost 0) gpuTotals _ hstores hidle (by decide)
    [.store 1, .start, .load, .store 1, .load, .finish] _ rfl
  exact ⟨_, rfl, by rfl, hslots, hbetween⟩

end Onion
