import Onion.Lib.Queued
import Onion.Engine.CudaRuns

/-!
# `cuda_engine.cu`: the run loop beside streams that run on their own

What the host enqueues on the stream of a slot is done later, in order, on what the pinned buffers of
the slot hold at that time.  The code is that of `CudaEngine.run`; its statistics are left out.

* `PinnedSlot`   a slot with the staging buffers that the host writes;
* `Timing`       how far each stream gets between two actions of the host;
* `write`, `enqueue`, `synchronize`   the actions;
* `run`          the loop.
-/

namespace Onion
open Logged

/-- an operation on a stream -/
inductive StreamOp where
  | copyStarts
  | copyBigstep
  | copyHitCount
  | kernel (launch : Nat)
  | readHitCount
deriving DecidableEq

/-- the buffers of a slot, with the pinned ones that the uploads read; `undrained` tells that a
kernel was launched on the slot, and its epoch not drained since -/
structure PinnedSlot extends PipelineSlot where
  hStarts : List GeP3
  hBigstep : GeCachedAffine
  undrained : Bool

inductive PipelineEvent where
  | machine (e : Event)
  /-- an operation of a stream starts, on a hit counter of `hitCount` -/
  | exec (op : StreamOp) (hitCount : Nat)
  /-- the host writes to the buffers of a slot -/
  | write (undrained : Bool)
  /-- `start_epoch` succeeded -/
  | started (draw launch : Nat)
  /-- the turn of a live epoch: the loop goes on, or `stop` was requested -/
  | turn (draw launch : Nat) (stop : Bool)
  /-- the hits of an epoch are read back -/
  | harvested (draw launch : Nat)
  | push (p : Push)
  /-- `drain_epoch` has returned, after a wait with call number `call` -/
  | drained (draw launch call : Nat)

abbrev Pipe := Logged PipelineEvent

/-- the streams: which of them get on before an action of the host, and how much of a stream is done
when its synchronisation fails and the rest is lost -/
structure Timing (depth : Nat) where
  ticks : Nat → List (Fin depth)
  kept : Nat → Nat

structure AsyncState (depth : Nat) where
  rng : Nat
  polls : Nat
  calls : Nat
  /-- actions of the host so far -/
  clock : Nat
  slots : Vector (Queued PinnedSlot StreamOp) depth

namespace Pipeline
variable {depth : Nat} (h : Host) (cfg : CudaConfig)
  (dev : Device cfg.threads cfg.kStepsPerThread) (tm : Timing depth)

def log (e : PipelineEvent) : Pipe Unit := ⟨(), [e]⟩

/-! ## the streams -/

def exec (x : PinnedSlot) : StreamOp → PinnedSlot
  | .copyStarts => { x with starts := x.hStarts }
  | .copyBigstep => { x with bigstep := x.hBigstep }
  | .copyHitCount => { x with buffer := { x.buffer with hitCount := x.hHitCount } }
  | .kernel n => { x with buffer := searchKernel dev cfg.patterns x.starts x.bigstep n x.buffer }
  | .readHitCount => { x with hHitCount := x.buffer.hitCount }

def update (slot : Fin depth) (f : Queued PinnedSlot StreamOp → Queued PinnedSlot StreamOp)
    (s : AsyncState depth) : AsyncState depth :=
  { s with slots := s.slots.set slot (f s.slots[slot]) slot.isLt }

/-- the stream of a slot gets on by one operation -/
def advance (slot : Fin depth) (s : AsyncState depth) : Pipe (AsyncState depth) :=
  match s.slots[slot].queue with
  | [] => return s
  | op :: _ => do
    log (.exec op s.slots[slot].now.buffer.hitCount)
    return update slot (Queued.advance (exec cfg dev)) s

/-- what the streams do before the next action of the host -/
def tick (s : AsyncState depth) : Pipe (AsyncState depth) :=
  forEach (advance cfg dev) (tm.ticks s.clock) { s with clock := s.clock + 1 }

/-! ## the actions of the host -/

def write (slot : Fin depth) (f : PinnedSlot → PinnedSlot) (s : AsyncState depth) :
    Pipe (AsyncState depth) := do
  let s ← tick cfg dev tm s
  log (.write s.slots[slot].now.undrained)
  return update slot (Queued.write f) s

/-- `cudaMemcpyAsync`, or a launch: enqueued if the call succeeds -/
def enqueue (slot : Fin depth) (op : Nat → StreamOp) (s : AsyncState depth) :
    Pipe (Bool × AsyncState depth) := do
  let s ← tick cfg dev tm s
  let s' := { s with calls := s.calls + 1 }
  if dev.ok s.calls then return (true, update slot (Queued.push (op s.calls)) s')
  else return (false, s')

/-- `cudaStreamSynchronize`: when it returns, nothing is left on the stream -/
def synchronize (slot : Fin depth) (s : AsyncState depth) : Pipe (Bool × AsyncState depth) := do
  let s ← tick cfg dev tm s
  let left := s.slots[slot].queue.length
  let r ← forUp (fun _ => advance cfg dev slot)
    (if dev.ok s.calls then left else min (tm.kept s.calls) left) s
  return (dev.ok s.calls, update slot Queued.clear { r with calls := s.calls + 1 })

/-! ## epochs -/

def setupEpoch (slot : Fin depth) (draw : Nat) (a0 : Bytes 32) (s : AsyncState depth) :
    Pipe (Bool × AsyncState depth) := do
  let pts ← lift .machine (CudaEngine.startPoints cfg a0)
  let s ← write cfg dev tm slot (fun x => { x with draw := draw, slotA0 := a0 }) s
  let s ← write cfg dev tm slot (fun x => { x with hStarts := pts.1 }) s
  let s ← write cfg dev tm slot (fun x => { x with hBigstep := pts.2 }) s
  let r ← enqueue cfg dev tm slot (fun _ => .copyStarts) s
  if ¬ r.1 then return r
  else do
    let r ← enqueue cfg dev tm slot (fun _ => .copyBigstep) r.2
    if ¬ r.1 then return r
    else do
      let s ← write cfg dev tm slot (fun x => { x with hHitCount := 0 }) r.2
      enqueue cfg dev tm slot (fun _ => .copyHitCount) s

/-- the kernel of call number `launch` is on the stream -/
def markLaunched (launch : Nat) (x : PinnedSlot) : PinnedSlot :=
  { x with launch := launch, undrained := true }

def launchEpoch (slot : Fin depth) (s : AsyncState depth) : Pipe (Bool × AsyncState depth) := do
  let r ← enqueue cfg dev tm slot .kernel s
  if ¬ r.1 then return r
  else do
    let s := update slot (Queued.write (markLaunched s.calls)) r.2
    enqueue cfg dev tm slot (fun _ => .readHitCount) s

def noteStart (draw launch : Nat) (t : Bool × AsyncState depth) : Pipe (Bool × AsyncState depth) :=
  if t.1 then do
    log (.started draw launch)
    return t
  else return t

def startEpoch (slot : Fin depth) (s : AsyncState depth) : Pipe (Bool × AsyncState depth) := do
  let r ← setupEpoch cfg dev tm slot s.rng (clamp (h.rand s.rng)) { s with rng := s.rng + 1 }
  if ¬ r.1 then return r
  else do
    let t ← launchEpoch cfg dev tm slot r.2
    noteStart s.rng r.2.calls t

/-- a hit read back -/
def pushHit (x : PipelineSlot) (hit : HitSlot) (rng : Nat) : Pipe Nat :=
  let idx := CudaEngine.hitIndex cfg.threads hit
  let scalar := scalarAdd8i x.slotA0 idx
  match pubkeyFromScalar h.baseNoclamp scalar with
  | none => return rng
  | some pk => do
    log (.push ⟨x.draw, idx, ⟨⟨scalar, h.rand rng⟩, pk, hit.patternIndex⟩⟩)
    return rng + 1

/-- the hits of a slot: the copy of the slots, and a push for each -/
def harvest (x : PipelineSlot) (s : AsyncState depth) : Pipe (Bool × AsyncState depth) :=
  let s' := { s with calls := s.calls + 1 }
  if ¬ dev.ok s.calls then return (false, s')
  else do
    log (.harvested x.draw x.launch)
    let rng ← forEach (pushHit h cfg x) (CudaEngine.recorded x) s.rng
    return (true, { s' with rng := rng })

/-- the slot is drained: read its hits back, unless the wait failed -/
def readBack (slot : Fin depth) (r : Bool × AsyncState depth) : Pipe (Bool × AsyncState depth) :=
  let x := r.2.slots[slot].now
  let s := update slot (Queued.write fun x => { x with undrained := false }) r.2
  if ¬ r.1 then return (false, s)
  else if x.hHitCount = 0 then return (true, s)
  else harvest h cfg dev x.toPipelineSlot s

def drainEpoch (slot : Fin depth) (s : AsyncState depth) : Pipe (Bool × AsyncState depth) := do
  let r ← synchronize cfg dev tm slot s
  let x := r.2.slots[slot].now
  let t ← readBack h cfg dev slot r
  log (.drained x.draw x.launch s.calls)
  return t

/-! ## the loop -/

def tryStart (slot : Fin depth) (s : AsyncState depth) : Pipe (Bool × AsyncState depth) :=
  match s.polls with
  | 0 => return (false, s)
  | polls+1 => do
    let r ← startEpoch h cfg dev tm slot { s with polls := polls }
    if r.1 then return r
    else
      match r.2.polls with
      | 0 => return r
      | polls+1 => return (false, { r.2 with polls := polls })

/-- start the next epoch, then drain this one -/
def round [NeZero depth] (cur : Fin depth) (s : AsyncState depth) :
    Pipe (Bool × AsyncState depth) := do
  let next ← tryStart h cfg dev tm (cur + 1) s
  let r ← drainEpoch h cfg dev tm cur next.2
  return (next.1, r.2)

def loop [NeZero depth] : Nat → Fin depth → Bool × AsyncState depth → Pipe (AsyncState depth)
  | 0, _, s => return s.2
  | fuel+1, cur, (curLive, s) =>
    if ¬ curLive then return s
    else
      match s.polls with
      | 0 => do
        log (.turn s.slots[cur].now.draw s.slots[cur].now.launch true)
        return s
      | polls+1 => do
        log (.turn s.slots[cur].now.draw s.slots[cur].now.launch false)
        let r ← round h cfg dev tm cur { s with polls := polls }
        loop fuel (cur + 1) r

/-- `n` allocations, up to the first that fails -/
def allocate : Nat → AsyncState depth → Bool × AsyncState depth
  | 0, s => (true, s)
  | n+1, s =>
    let s' := { s with calls := s.calls + 1 }
    if dev.ok s.calls then allocate n s' else (false, s')

def init (s : AsyncState depth) : Bool × AsyncState depth :=
  if cfg.patterns = [] then (false, s)
  else if kMaxConstPatterns < cfg.patterns.length then (false, s)
  else if cfg.threads = 0 ∨ cfg.block = 0 then (false, s)
  else allocate cfg dev (2 + depth * 9) s

def run [NeZero depth] (s : AsyncState depth) : Pipe (AsyncState depth) := do
  let r := init cfg dev s
  if ¬ r.1 then return r.2
  else
    let first ← tryStart h cfg dev tm 0 r.2
    loop h cfg dev tm s.polls 0 first

/-- before the run: nothing on the streams, anything in the buffers -/
def start (polls : Nat) (slots : Vector PinnedSlot depth) : AsyncState depth :=
  ⟨0, polls, 0, 0, slots.map fun x => ⟨{ x with undrained := false }, []⟩⟩

end Pipeline

end Onion
