import Onion.Engine.Engine
import Onion.Crypto.IncrementalX4

/-!
# `incremental_engine.cpp`, `incremental_engine_x4.cpp`: the CPU workers

`IncrementalCpuEngine` walks one base scalar at a time and `IncrementalCpuEngineX4` four; they run
the same code over a different stepper.
-/

namespace Onion
open Logged

/-- the values an engine is constructed with; `batch` is a `size_t`, the epoch length a `uint64_t` -/
structure EngineConfig where
  patterns : List CompiledPattern
  batch : Nat
  epochCandidates : Nat
  batch_lt : batch < 2^64
  epoch_lt : epochCandidates < 2^64

/-- a match on pattern `p`: a fresh PRF prefix, and a push unless libsodium rejects the scalar -/
def offer (h : Host) (a0 : Bytes 32) (draw i p rng : Nat) : Worker Unit :=
  let scalar := scalarAdd8i a0 i
  match pubkeyFromScalar h.baseNoclamp scalar with
  | some pk => record (.push ⟨draw, i, ⟨⟨scalar, h.rand rng⟩, pk, p⟩⟩)
  | none => return ()

def tryPatterns (h : Host) (a0 : Bytes 32) (draw i : Nat) (y : Bytes 32) :
    List CompiledPattern → Nat → Nat → Worker Nat
  | [], _, rng => return rng
  | pat :: pats, p, rng =>
    if matchesPubkey pat y then do
      offer h a0 draw i p rng
      tryPatterns h a0 draw i y pats (p + 1) (rng + 1)
    else tryPatterns h a0 draw i y pats (p + 1) rng

/-- what the two workers differ in: the steppers `S`, the output buffers `O`, and the number of
base scalars walked at a time -/
structure LaneOps (lanes : Nat) (S O : Type) where
  new : Vector (Bytes 32) lanes → Run S
  consumed : S → Nat
  nextBatch : S → O → Nat → Run (S × O)
  lane : O → Fin lanes → List (Bytes 32)
  /-- the buffers, sized to the batch -/
  sized : Nat → O

/-- the variables of a worker, its stop token, and its slot of the `StatsBoard` -/
structure WorkerState (O : Type) where
  ybatch : O
  rng : Nat
  polls : Nat
  localTotal : Nat
  slot : Nat

section
variable {lanes : Nat} {S O : Type} (ops : LaneOps lanes S O) (h : Host) (cfg : EngineConfig)

/-- one batch: step, then every candidate of every lane against every pattern -/
def workBatch (a0 : Vector (Bytes 32) lanes) (draw : Nat) (s : S × WorkerState O) :
    Worker (S × WorkerState O) := do
  let baseIndex := ops.consumed s.1
  record .nextBatch
  let r ← lift .machine (ops.nextBatch s.1 s.2.ybatch cfg.batch)
  let rng ← forEach (fun (l : Fin lanes) rng => forUp (fun k rng => do
      let y ← lift .machine (vget (ops.lane r.2 l) k (Bytes.ofNat 32 0))
      tryPatterns h a0[l] (draw + l) ((baseIndex + k) % 2^64) y cfg.patterns 0 rng) cfg.batch rng)
    (List.finRange lanes) s.2.rng
  let total := (s.2.localTotal + lanes * cfg.batch) % 2^64
  return (r.1, { s.2 with ybatch := r.2, rng := rng, localTotal := total, slot := total })

def batchLoop (a0 : Vector (Bytes 32) lanes) (draw : Nat) :
    Nat → S × WorkerState O → Worker (S × WorkerState O)
  | 0, s => return s
  | left+1, s =>
    match s.2.polls with
    | 0 => return s
    | polls+1 => do
      let s ← workBatch ops h cfg a0 draw (s.1, { s.2 with polls := polls })
      batchLoop a0 draw left s

/-- the fresh clamped base scalars of an epoch that starts at draw `rng` -/
def baseScalars (h : Host) (lanes rng : Nat) : Vector (Bytes 32) lanes :=
  Vector.ofFn fun l => clamp (h.rand (rng + l))

def epoch (s : WorkerState O) : Worker (WorkerState O) := do
  record (.epoch s.rng s.polls)
  let a0 := baseScalars h lanes s.rng
  let stepper ← lift .machine (ops.new a0)
  let batches ← divide cfg.epochCandidates cfg.batch
  let r ← batchLoop ops h cfg a0 s.rng batches (stepper, { s with rng := s.rng + lanes })
  return r.2

/-- `while (!stop)`: every round takes a poll, so `fuel` need not exceed the polls -/
def epochLoop : Nat → WorkerState O → Worker (WorkerState O)
  | 0, s => return s
  | fuel+1, s =>
    match s.polls with
    | 0 => return s
    | polls+1 => do
      let s ← epoch ops h cfg { s with polls := polls }
      epochLoop fuel s

def worker (polls : Nat) : Worker (WorkerState O) :=
  epochLoop ops h cfg polls ⟨ops.sized cfg.batch, 0, polls, 0, 0⟩

end

/-- one walk, of the scalar stepper -/
def laneOps : LaneOps 1 IncrementalStepper (List (Bytes 32)) where
  new a0 := IncrementalStepper.new a0[Fin.last 0]
  consumed := Stepper.consumed
  nextBatch st out _ := st.nextBatch out
  lane out _ := out
  sized n := List.replicate n (Bytes.ofNat 32 0)

/-- four walks, of the vector stepper -/
def laneOpsX4 : LaneOps 4 IncrementalStepperX4 Out4 where
  new := IncrementalStepperX4.new
  consumed := Stepper.consumed
  nextBatch := IncrementalStepperX4.nextBatch
  lane out l := out[l]
  sized n := Vector.replicate 4 (List.replicate n (Bytes.ofNat 32 0))

def IncrementalCpuEngine.epoch := Onion.epoch laneOps
def IncrementalCpuEngine.worker := Onion.worker laneOps

def IncrementalCpuEngineX4.epoch := Onion.epoch laneOpsX4
def IncrementalCpuEngineX4.worker := Onion.worker laneOpsX4

end Onion
