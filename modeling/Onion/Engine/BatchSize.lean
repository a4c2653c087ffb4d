import Onion.Engine.Found

/-!
# Which batch sizes make progress

* `Advances`        what an epoch should do: nothing undefined, at least one call of `next_batch`,
                    and a slot that grows by the candidates tested;
* `advances_iff`    it does so for batch sizes from one to the epoch length, while the 64-bit slot
                    does not overflow;
* `batch_sizes`     the same for the two engines.
-/

namespace Onion
open Logged

/-- neither a division by zero nor an access past the end of a vector -/
def EngineEvent.Defined : EngineEvent → Prop
  | .divZero => False
  | .machine .outOfRange => False
  | _ => True

theorem EngineEvent.Good.defined {e : EngineEvent} (h : e.Good) : e.Defined := by
  cases e with
  | divZero => exact h
  | machine m =>
    cases m with
    | outOfRange => exact h
    | _ => trivial
  | _ => trivial

section
variable {lanes : Nat} {S O : Type}

/-- from the state `s`, wherever the epoch is stopped nothing undefined happens, and unless it is
stopped before its last batch it tests candidates and counts them -/
structure Advances (ops : LaneOps lanes S O) (h : Host) (cfg : EngineConfig) (s : WorkerState O) :
    Prop where
  defined : ∀ polls, ∀ e ∈ (epoch ops h cfg { s with polls := polls }).log, e.Defined
  searched : ∀ polls, cfg.epochCandidates / cfg.batch ≤ polls →
    0 < nextBatches (epoch ops h cfg { s with polls := polls })
  counted : ∀ polls, cfg.epochCandidates / cfg.batch ≤ polls →
    (epoch ops h cfg { s with polls := polls }).val.slot =
      s.slot + lanes * cfg.batch * (cfg.epochCandidates / cfg.batch)
  grows : 0 < lanes * cfg.batch * (cfg.epochCandidates / cfg.batch)

variable {ops : LaneOps lanes S O} (wk : Walks ops) {h : Host} {cfg : EngineConfig}

theorem batchLoop_searched (a0 : Vector (Bytes 32) lanes) (draw left : Nat)
    {s : S × WorkerState O} (hp : 0 < s.2.polls) :
    0 < nextBatches (batchLoop ops h cfg a0 draw (left + 1) s) := by
  rw [batchLoop]
  cases hp' : s.2.polls with
  | zero => omega
  | succ polls =>
    rw [nextBatches, select_bind, List.length_append, select_workBatch (fun _ => rfl) fun _ => rfl]
    exact Nat.lt_add_right _ Nat.one_pos

theorem epoch_nextBatches (s : WorkerState O) : nextBatches (epoch ops h cfg s) =
    nextBatches (batchLoop ops h cfg (baseScalars h lanes s.rng) s.rng
      (cfg.epochCandidates / cfg.batch)
      ((ops.new (baseScalars h lanes s.rng)).val, { s with rng := s.rng + lanes })) := by
  have hdiv : select EngineEvent.nextBatch? (divide cfg.epochCandidates cfg.batch) = [] := by
    rw [divide, select]
    split <;> rfl
  rw [epoch, nextBatches, select_bind, select_bind, select_bind, select_bind, hdiv,
    select_machine fun _ => rfl]
  exact congrArg List.length (List.append_nil _)

theorem epoch_divZero (h0 : cfg.batch = 0) (s : WorkerState O) :
    EngineEvent.divZero ∈ (epoch ops h cfg s).log := by
  rw [epoch]
  simp only [bind_log, List.mem_append]
  refine Or.inr (Or.inr (Or.inl ?_))
  rw [divide, if_pos h0]
  exact List.mem_singleton.mpr rfl

include wk in
theorem advances_iff (hlanes : 0 < lanes) {s : WorkerState O} (hs : Settled ops cfg s) :
    Advances ops h cfg s ↔ (1 ≤ cfg.batch ∧ cfg.batch ≤ cfg.epochCandidates) ∧
      s.slot + lanes * cfg.batch * (cfg.epochCandidates / cfg.batch) < 2^64 := by
  -- the slot after an epoch that is not stopped
  have hslot : ∀ polls, cfg.epochCandidates / cfg.batch ≤ polls →
      (epoch ops h cfg { s with polls := polls }).val.slot =
        (s.slot + lanes * cfg.batch * (cfg.epochCandidates / cfg.batch)) % 2^64 := by
    intro polls hp
    have hpr := (epoch_val (h := h) wk (hs.polls polls)).2.2.slot
    rw [EngineConfig.completed, min_eq_left hp] at hpr
    rw [hpr, Nat.mul_comm (_ / _), Nat.mul_assoc]
  constructor
  · intro ha
    have hpos : 1 ≤ cfg.batch := by
      refine Nat.pos_of_ne_zero fun h0 => ?_
      exact ha.defined 0 _ (epoch_divZero h0 _)
    have hdiv : 0 < cfg.epochCandidates / cfg.batch := Nat.pos_of_mul_pos_left ha.grows
    refine ⟨⟨hpos, (Nat.div_pos_iff.mp hdiv).2⟩, ?_⟩
    rw [← ha.counted _ le_rfl, hslot _ le_rfl]
    exact Nat.mod_lt _ (Nat.two_pow_pos 64)
  · rintro ⟨⟨hpos, hle⟩, hlt⟩
    have hdiv : 0 < cfg.epochCandidates / cfg.batch := Nat.div_pos hle hpos
    refine ⟨fun polls e he => ?_, fun polls hp => ?_, fun polls hp => ?_, ?_⟩
    · exact ((epoch_ok (h := h) wk (hs.polls polls) hpos).1 e he).defined
    · rw [epoch_nextBatches]
      obtain ⟨n, hn⟩ := Nat.exists_eq_succ_of_ne_zero hdiv.ne'
      rw [hn]
      exact batchLoop_searched _ _ _ (hdiv.trans_le hp)
    · rw [hslot polls hp, Nat.mod_eq_of_lt hlt]
    · exact Nat.mul_pos (Nat.mul_pos hlanes hpos) hdiv

end

/-- **Which batch sizes make progress.**  In both engines, from every state between two epochs: the
epoch advances exactly when the batch is at least one and at most the epoch, and the slot does not
overflow. -/
theorem batch_sizes (h : Host) (cfg : EngineConfig) :
    (∀ s, Settled laneOps cfg s → (Advances laneOps h cfg s ↔
      (1 ≤ cfg.batch ∧ cfg.batch ≤ cfg.epochCandidates) ∧
        s.slot + 1 * cfg.batch * (cfg.epochCandidates / cfg.batch) < 2^64)) ∧
    (∀ s, Settled laneOpsX4 cfg s → (Advances laneOpsX4 h cfg s ↔
      (1 ≤ cfg.batch ∧ cfg.batch ≤ cfg.epochCandidates) ∧
        s.slot + 4 * cfg.batch * (cfg.epochCandidates / cfg.batch) < 2^64)) :=
  ⟨fun _ hs => advances_iff laneWalks (by decide) hs,
    fun _ hs => advances_iff laneWalksX4 (by decide) hs⟩

/-- the default batch and epoch, in the first epoch of both workers -/
theorem batch_sizes_default :
    let h := constHost 0
    let cfg : EngineConfig := ⟨letterPatterns, 1024, 2^22, by decide, by decide⟩
    Advances laneOps h cfg ⟨laneOps.sized 1024, 0, 5000, 0, 0⟩ ∧
      Advances laneOpsX4 h cfg ⟨laneOpsX4.sized 1024, 0, 5000, 0, 0⟩ := by
  intro h cfg
  obtain ⟨h1, h4⟩ := batch_sizes h cfg
  exact ⟨(h1 _ (initial_settled laneWalks cfg 5000)).mpr (by decide),
    (h4 _ (initial_settled laneWalksX4 cfg 5000)).mpr (by decide)⟩

/-- no batch size is refused: zero divides by zero, and one more than the epoch tests nothing -/
theorem batch_size_unchecked :
    let h := constHost 0
    let none : EngineConfig := ⟨letterPatterns, 0, 2^22, by decide, by decide⟩
    let long : EngineConfig := ⟨letterPatterns, 2^22 + 1, 2^22, by decide, by decide⟩
    EngineEvent.divZero ∈ (IncrementalCpuEngine.epoch h none (startState 0 5)).log ∧
      ¬ Advances laneOps h none (startState 0 5) ∧
      nextBatches (IncrementalCpuEngine.epoch h long (startState (2^22 + 1) 5)) = 0 ∧
      ¬ Advances laneOps h long (startState (2^22 + 1) 5) := by
  intro h none long
  have hlong : nextBatches (IncrementalCpuEngine.epoch h long (startState (2^22 + 1) 5)) = 0 := by
    have h0 : long.epochCandidates / long.batch = 0 := by decide
    rw [IncrementalCpuEngine.epoch, epoch_nextBatches, h0]
    rfl
  have hdiv : EngineEvent.divZero ∈ (IncrementalCpuEngine.epoch h none (startState 0 5)).log :=
    epoch_divZero rfl _
  refine ⟨hdiv, fun ha => ha.defined 5 _ hdiv, hlong, fun ha => ?_⟩
  have hs := ha.searched 5 (by decide)
  exact absurd hlong hs.ne'

end Onion
