import Onion.Engine.Engine

/-!
# `cuda_engine.cu`, `search_kernel.cu`: the GPU engine

The host thread of `CudaEngine`, with the device behind it.  The streams of the pipeline slots run
in order: what is enqueued on a slot is done when the host drains it.

* `Device`          the answers of the CUDA runtime, the bytes that the threads compare, and the
                    order in which they get to the hit counter;
* `searchKernel`    one launch: a match is recorded in the next free hit slot;
* `CudaEngine.run`  the host loop over `kPipelineDepth` slots.
-/

namespace Onion
open Logged

/-! ## the search kernel -/

/-- a hit: candidate `t + j*T` -/
structure HitSlot where
  t : Nat
  j : Nat
  patternIndex : Nat
deriving DecidableEq

def kMaxConstPatterns : Nat := 16

def kMaxHitSlots : Nat := 256

/-- the hit counter and the slots on the device; the counter is an `int` there, which a launch with
fewer than `2^31` matches does not fill -/
structure HitBuffer where
  hitCount : Nat
  slots : Vector HitSlot kMaxHitSlots

/-- `match_and_record`: the first pattern that matches is recorded, in the slot that the counter
gives out -/
def matchAndRecord (enc : Bytes 32) (t j : Nat) : List CompiledPattern → Nat → HitBuffer → HitBuffer
  | [], _, buf => buf
  | pat :: pats, p, buf =>
    if matchesPubkey pat enc then
      let slot := buf.hitCount
      ⟨slot + 1, if hs : slot < kMaxHitSlots then buf.slots.set slot ⟨t, j, p⟩ hs else buf.slots⟩
    else matchAndRecord enc t j pats (p + 1) buf

/-- step `j` of thread `t`, for all of them -/
def candidates (T M : Nat) : List (Nat × Nat) :=
  (List.range T).flatMap fun t => (List.range M).map fun j => (t, j)

/-- the device: `ok n` is whether call number `n` of the CUDA runtime succeeds, `y` what a thread
compares at a step, from the start points and the big step that were uploaded -/
structure Device (T M : Nat) where
  ok : Nat → Bool
  y : List GeP3 → GeCachedAffine → Nat → Nat → Bytes 32
  /-- the order of the candidates over all threads, when call `n` launches the kernel -/
  order : Nat → List (Nat × Nat)
  order_perm : ∀ n, (order n).Perm (candidates T M)

/-- the knobs after `init`, and the steps per thread that the build fixes; all three are an `int` -/
structure CudaConfig where
  patterns : List CompiledPattern
  threads : Nat
  block : Nat
  kStepsPerThread : Nat
  threads_lt : threads < 2^31
  steps_lt : kStepsPerThread < 2^31

/-- a launch: every thread takes every step of its walk -/
def searchKernel {T M : Nat} (dev : Device T M) (patterns : List CompiledPattern)
    (starts : List GeP3) (bigstep : GeCachedAffine) (launch : Nat) (buf : HitBuffer) : HitBuffer :=
  (dev.order launch).foldl
    (fun buf c => matchAndRecord (dev.y starts bigstep c.1 c.2) c.1 c.2 patterns 0 buf) buf

/-! ## the host -/

/-- the buffers of a pipeline slot: `a0` and the staged counter on the host, the rest on the device;
with the draw that `a0` came from, and the call that launched the kernel -/
structure PipelineSlot where
  draw : Nat
  launch : Nat
  slotA0 : Bytes 32
  hHitCount : Nat
  starts : List GeP3
  bigstep : GeCachedAffine
  buffer : HitBuffer

structure CudaState (depth : Nat) where
  rng : Nat
  polls : Nat
  /-- calls of the CUDA runtime so far -/
  calls : Nat
  slots : Vector PipelineSlot depth
  droppedEpochErrors : Nat
  droppedDegenerate : Nat
  hitOverflowEvents : Nat
  total : Nat
  stat : Nat

namespace CudaEngine
variable {depth : Nat} (h : Host) (cfg : CudaConfig)
  (dev : Device cfg.threads cfg.kStepsPerThread)

def modifySlot (slot : Fin depth) (f : PipelineSlot → PipelineSlot) (s : CudaState depth) :
    CudaState depth :=
  { s with slots := s.slots.set slot (f s.slots[slot]) slot.isLt }

/-- a call of the CUDA runtime: if it succeeds, call number `n` does `f n` to the slot -/
def call (slot : Fin depth) (f : Nat → PipelineSlot → PipelineSlot) (s : CudaState depth) :
    Bool × CudaState depth :=
  let s' := { s with calls := s.calls + 1 }
  if dev.ok s.calls then (true, modifySlot slot (f s.calls) s') else (false, s')

/-- `CUDA_OK`: go on unless the call failed -/
def cudaOk (r : Bool × CudaState depth) (f : CudaState depth → Bool × CudaState depth) :
    Bool × CudaState depth :=
  if r.1 then f r.2 else r

/-- `n` allocations, up to the first that fails -/
def allocate : Nat → CudaState depth → Bool × CudaState depth
  | 0, s => (true, s)
  | n+1, s =>
    let s' := { s with calls := s.calls + 1 }
    if dev.ok s.calls then allocate n s' else (false, s')

/-- the checks, the two copies of `upload_patterns`, and nine allocations for every slot -/
def init (s : CudaState depth) : Bool × CudaState depth :=
  if cfg.patterns = [] then (false, s)
  else if kMaxConstPatterns < cfg.patterns.length then (false, s)
  else if cfg.threads = 0 ∨ cfg.block = 0 then (false, s)
  else allocate cfg dev (2 + depth * 9) s

/-- the variables of the loop over the start points -/
structure StartLoop where
  starts : List GeP3
  cur : GeP3
  bigstep : GeP3

/-- start point `t`: `P_{t+1} = P_t + 8B`; the sum for the big step stops at `T*(8B)` -/
def startPoint (step8b : GeCachedAffine) (t : Nat) (s : StartLoop) : Run StartLoop := do
  let cur ← geMadd s.cur step8b
  let bigstep ← (if t + 1 < cfg.threads then geMadd s.bigstep step8b else pure s.bigstep : Run GeP3)
  return ⟨s.starts ++ [s.cur], cur, bigstep⟩

def startPoints (a0 : Bytes 32) : Run (List GeP3 × GeCachedAffine) := do
  let A0 ← geScalarmultBase a0
  let step8bP3 ← geScalarmultBase (Bytes.ofNat 32 8)
  let step8b ← geToCachedAffine step8bP3
  let s ← forUp (startPoint cfg step8b) cfg.threads ⟨[], A0, step8bP3⟩
  let bigstep ← geToCachedAffine s.bigstep
  return (s.starts, bigstep)

def setupEpoch (slot : Fin depth) (draw : Nat) (a0 : Bytes 32) (s : CudaState depth) :
    Worker (Bool × CudaState depth) := do
  let pts ← lift .machine (startPoints cfg a0)
  let s := modifySlot slot (fun x => { x with draw := draw, slotA0 := a0 }) s
  let r := call cfg dev slot (fun _ x => { x with starts := pts.1 }) s
  let r := cudaOk r (call cfg dev slot fun _ x => { x with bigstep := pts.2 })
  return cudaOk r fun s =>
    call cfg dev slot (fun _ x => { x with buffer := { x.buffer with hitCount := x.hHitCount } })
      (modifySlot slot (fun x => { x with hHitCount := 0 }) s)

/-- `launch_epoch`: the kernel, and the counter read back -/
def launchEpoch (slot : Fin depth) (s : CudaState depth) : Bool × CudaState depth :=
  let r := call cfg dev slot (fun n x => { x with
    launch := n
    buffer := searchKernel dev cfg.patterns x.starts x.bigstep n x.buffer }) s
  cudaOk r (call cfg dev slot fun _ x => { x with hHitCount := x.buffer.hitCount })

def hitIndex (T : Nat) (hit : HitSlot) : Nat := (hit.t + hit.j * T) % 2^64

/-- a hit read back: its scalar, and a push unless libsodium rejects it -/
def pushHit (x : PipelineSlot) (hit : HitSlot) (s : CudaState depth) :
    Worker (CudaState depth) :=
  let idx := hitIndex cfg.threads hit
  let scalar := scalarAdd8i x.slotA0 idx
  match pubkeyFromScalar h.baseNoclamp scalar with
  | none => return { s with droppedDegenerate := (s.droppedDegenerate + 1) % 2^64 }
  | some pk => do
    record (.push ⟨x.draw, idx, ⟨⟨scalar, h.rand s.rng⟩, pk, hit.patternIndex⟩⟩)
    return { s with rng := s.rng + 1 }

/-- more hits than slots -/
def countOverflow (hitCount : Nat) (s : CudaState depth) : CudaState depth :=
  if kMaxHitSlots < hitCount then { s with hitOverflowEvents := (s.hitOverflowEvents + 1) % 2^64 }
  else s

def harvest (slot : Fin depth) (s : CudaState depth) : Worker (Bool × CudaState depth) :=
  let x := s.slots[slot]
  let n := if x.hHitCount < kMaxHitSlots then x.hHitCount else kMaxHitSlots
  let r := call cfg dev slot (fun _ x => x) (countOverflow x.hHitCount s)
  if ¬ r.1 then return r
  else do
    record (.harvested x.draw x.launch)
    let s ← forEach (pushHit h cfg x) (x.buffer.slots.toList.take n) r.2
    return (true, s)

/-- `drain_epoch`: wait for the slot, and push what it recorded -/
def drainEpoch (slot : Fin depth) (s : CudaState depth) : Worker (Bool × CudaState depth) :=
  let r := call cfg dev slot (fun _ x => x) s
  if ¬ r.1 then return r
  else if r.2.slots[slot].hHitCount = 0 then return r
  else harvest h cfg dev slot r.2

def startEpoch (slot : Fin depth) (s : CudaState depth) : Worker (Bool × CudaState depth) := do
  let r ← setupEpoch cfg dev slot s.rng (clamp (h.rand s.rng)) { s with rng := s.rng + 1 }
  return cudaOk r (launchEpoch cfg dev slot)

/-- `!stop && start_epoch(slot)`; a failure is counted unless it came with the stop -/
def tryStart (slot : Fin depth) (s : CudaState depth) : Worker (Bool × CudaState depth) :=
  match s.polls with
  | 0 => return (false, s)
  | polls+1 => do
    let r ← startEpoch h cfg dev slot { s with polls := polls }
    if r.1 then return r
    else
      match r.2.polls with
      | 0 => return r
      | polls+1 => return (false, { r.2 with
          polls := polls, droppedEpochErrors := (r.2.droppedEpochErrors + 1) % 2^64 })

def round [NeZero depth] (cur : Fin depth) (s : CudaState depth) :
    Worker (Bool × CudaState depth) := do
  let next ← tryStart h cfg dev (cur + 1) s
  let r ← drainEpoch h cfg dev cur next.2
  let dropped := if r.1 then r.2.droppedEpochErrors else (r.2.droppedEpochErrors + 1) % 2^64
  let total := (r.2.total + cfg.threads * cfg.kStepsPerThread) % 2^64
  return (next.1, { r.2 with droppedEpochErrors := dropped, total := total, stat := total })

/-- `while (cur_live && !stop)`: every round takes a poll, so `fuel` need not exceed the polls -/
def loop [NeZero depth] : Nat → Fin depth → Bool × CudaState depth → Worker (CudaState depth)
  | 0, _, s => return s.2
  | fuel+1, cur, (curLive, s) =>
    if ¬ curLive then return s
    else
      match s.polls with
      | 0 => return s
      | polls+1 => do
        let r ← round h cfg dev cur { s with polls := polls }
        loop fuel (cur + 1) r

def run [NeZero depth] (s : CudaState depth) : Worker (CudaState depth) := do
  let r := init cfg dev s
  if ¬ r.1 then return r.2
  else
    let first ← tryStart h cfg dev 0 r.2
    loop h cfg dev s.polls 0 first

end CudaEngine

/-- two epochs are in flight -/
def kPipelineDepth : Nat := 2

instance : NeZero kPipelineDepth := ⟨by decide⟩

theorem kPipelineDepth_ne : ∀ c : Fin kPipelineDepth, c ≠ c + 1 := by decide

end Onion
