import Onion.Crypto.Fe25519x4
import Onion.Crypto.Incremental

/-!
# `ge25519x4.cpp` and `incremental_x4.cpp`: four walks in lockstep
-/

namespace Onion

structure GeP3x4 where
  X : Fe4
  Y : Fe4
  Z : Fe4
  T : Fe4

structure GeCachedAffinex4 where
  YplusX : Fe4
  YminusX : Fe4
  T2d : Fe4

/-- the `load4` lambda of `ge_p3x4_pack`: each element goes through its bytes -/
def load4 (f : Vector Fe 4) : Run Fe4 := do
  let b ← Logged.all fun l : Fin 4 => feToBytes f[l]
  return fe4Load b

def geP3x4Pack (p : Vector GeP3 4) : Run GeP3x4 := do
  let X ← load4 (p.map GeP3.X)
  let Y ← load4 (p.map GeP3.Y)
  let Z ← load4 (p.map GeP3.Z)
  let T ← load4 (p.map GeP3.T)
  return ⟨X, Y, Z, T⟩

def fe4Broadcast (f : Fe) : Run Fe4 := do
  let b ← feToBytes f
  return fe4Load #v[b, b, b, b]

def geCachedAffinex4Broadcast (q : GeCachedAffine) : Run GeCachedAffinex4 := do
  let yplusx ← fe4Broadcast q.YplusX
  let yminusx ← fe4Broadcast q.YminusX
  let t2d ← fe4Broadcast q.T2d
  return ⟨yplusx, yminusx, t2d⟩

def geMaddX4 (p : GeP3x4) (q : GeCachedAffinex4) : Run GeP3x4 := do
  let a ← fe4Mul (← fe4Sub p.Y p.X) q.YminusX
  let b ← fe4Mul (← fe4Add p.Y p.X) q.YplusX
  let c ← fe4Mul q.T2d p.T
  let d ← fe4Add p.Z p.Z
  let e ← fe4Sub b a
  let f ← fe4Sub d c
  let g ← fe4Add d c
  let h ← fe4Add b a
  return ⟨← fe4Mul e f, ← fe4Mul g h, ← fe4Mul f g, ← fe4Mul e h⟩

abbrev IncrementalStepperX4 := Stepper GeP3x4 GeCachedAffinex4 Fe4

abbrev Out4 := Vector (List (Bytes 32)) 4

/-- `fe4_store_y(y, out[0][i], out[1][i], out[2][i], out[3][i])` -/
def storeY4 (out : Out4) (i : Nat) (y : Fe4) : Run Out4 :=
  Logged.all fun l : Fin 4 => vset out[l] i (fe4StoreY y)[l]

def stepOpsX4 : StepOps GeP3x4 GeCachedAffinex4 Fe4 Out4 where
  Y := GeP3x4.Y
  Z := GeP3x4.Z
  zero := Vector.replicate 10 (vSet1 0)
  madd := geMaddX4
  mul := fe4Mul
  invert := fe4Invert
  store := storeY4

def IncrementalStepperX4.new (a0 : Vector (Bytes 32) 4) : Run IncrementalStepperX4 := do
  let p ← Logged.all fun l : Fin 4 => geScalarmultBase a0[l]
  let cur ← geP3x4Pack p
  let step8b ← geCachedAffinex4Broadcast (← geToCachedAffine (← geScalarmultBase eight))
  return ⟨cur, step8b, 0, [], [], []⟩

/-- `next_batch`; the output vectors may be longer than `n` -/
def IncrementalStepperX4.nextBatch (st : IncrementalStepperX4) (out : Out4) (n : Nat) :
    Run (IncrementalStepperX4 × Out4) := st.nextBatchImpl stepOpsX4 out n

/-- construct a stepper and call `next_batch` on each set of buffers -/
def IncrementalStepperX4.run (a0 : Vector (Bytes 32) 4) (calls : List (Out4 × Nat)) :
    Run (IncrementalStepperX4 × List (Nat × Out4)) := do
  let st ← IncrementalStepperX4.new a0
  st.nextBatches stepOpsX4 calls

end Onion
