import Onion.Crypto.Walk
import Onion.Engine.Cuda

/-!
# `search_kernel.cu`: what a thread of the kernel compares

Thread `t` walks from its start point by the big step, `Y` and `Z` of every step are kept, and one
inversion serves them all.  The field is a parameter: both backends export the same operations.

* `gedMadd`       addition of a cached affine point;
* `fusedSteps`    the default inversion, with two arrays: `combo[j] = Y[j]*z[0]*...*z[j-1]`, and `zs`;
* `legacySteps`   the inversion with three arrays, `ONION_CUDA_NO_FUSED_COMBO`;
* `kernelDevice`  the device on which every thread compares these.
-/

namespace Onion

/-- `fed_*`: the operations that a backend exports -/
structure DeviceField (F : Type) where
  add : F → F → F
  sub : F → F → F
  mul : F → F → F
  sq : F → F
  fromBytes : Bytes 32 → F
  toBytes : F → Bytes 32

structure DevP3 (F : Type) where
  X : F
  Y : F
  Z : F
  T : F

structure DevCachedAffine (F : Type) where
  YplusX : F
  YminusX : F
  T2d : F

/-- what a batch inversion reads of a walk -/
structure DevWalk (F S : Type) where
  Y : S → F
  Z : S → F
  next : S → S

/-- the two inversions of the kernel -/
inductive BatchInversion where
  | fusedCombo
  | threeArrays
deriving DecidableEq

namespace DeviceField
variable {F S : Type} (fd : DeviceField F)

def one : F := fd.fromBytes (Bytes.ofNat 32 1)

def invert (z : F) : F :=
  (invertChain (fun a b => pure (fd.mul a b)) (fun a => pure (fd.sq a)) z).val

def gedMadd (p : DevP3 F) (q : DevCachedAffine F) : DevP3 F :=
  let a := fd.mul (fd.sub p.Y p.X) q.YminusX
  let b := fd.mul (fd.add p.Y p.X) q.YplusX
  let c := fd.mul q.T2d p.T
  let d := fd.add p.Z p.Z
  let e := fd.sub b a
  let f := fd.sub d c
  let g := fd.add d c
  let h := fd.add b a
  ⟨fd.mul e f, fd.mul g h, fd.mul f g, fd.mul e h⟩

/-! ## the upload -/

/-- `to_device_fe`: the canonical bytes, read back on the device side -/
def toDeviceFe (f : Fe) : F := fd.fromBytes (feToBytes f).val

def toDeviceP3 (p : GeP3) : DevP3 F :=
  ⟨fd.toDeviceFe p.X, fd.toDeviceFe p.Y, fd.toDeviceFe p.Z, fd.toDeviceFe p.T⟩

def toDeviceCached (q : GeCachedAffine) : DevCachedAffine F :=
  ⟨fd.toDeviceFe q.YplusX, fd.toDeviceFe q.YminusX, fd.toDeviceFe q.T2d⟩

/-! ## the default inversion -/

variable (w : DevWalk F S)

/-- the forward pass: `combo`, `zs`, the product `pe` of the `z` so far, and the current point -/
structure Fused (F S : Type) where
  combo : List F
  zs : List F
  pe : F
  cur : S

def fusedStep (s : Fused F S) : Fused F S where
  combo := s.combo ++ [fd.mul (w.Y s.cur) s.pe]
  zs := s.zs ++ [w.Z s.cur]
  pe := fd.mul s.pe (w.Z s.cur)
  cur := w.next s.cur

/-- the backward pass: the steps with what they compare, from `i-1` down to `0` -/
def fusedBack (combo zs : List F) : Nat → F → List (Nat × F)
  | 0, _ => []
  | i+1, run => (i, fd.mul run (combo.getD i fd.one)) ::
    fusedBack combo zs i (if i ≠ 0 then fd.mul run (zs.getD i fd.one) else run)

/-- `M` steps from `start` -/
def fusedSteps (M : Nat) (start : S) : List (Nat × F) :=
  let s := (fd.fusedStep w)^[M] ⟨[], [], fd.one, start⟩
  fd.fusedBack s.combo s.zs M (fd.invert s.pe)

/-! ## the inversion with three arrays -/

/-- the forward pass: `ys`, `zs`, and the current point -/
structure Stashed (F S : Type) where
  ys : List F
  zs : List F
  cur : S

def stash (s : Stashed F S) : Stashed F S := ⟨s.ys ++ [w.Y s.cur], s.zs ++ [w.Z s.cur], w.next s.cur⟩

/-- `prefix[0] .. prefix[i]` -/
def prefixes (zs : List F) : Nat → List F
  | 0 => [zs.getD 0 fd.one]
  | i+1 => prefixes zs i ++ [fd.mul ((prefixes zs i).getD i fd.one) (zs.getD (i + 1) fd.one)]

def legacyBack (ys zs pre : List F) : Nat → F → List (Nat × F)
  | 0, _ => []
  | i+1, inv =>
    let zinv := if i = 0 then inv else fd.mul inv (pre.getD (i - 1) fd.one)
    (i, fd.mul (ys.getD i fd.one) zinv) ::
      legacyBack ys zs pre i (if i ≠ 0 then fd.mul inv (zs.getD i fd.one) else inv)

def legacySteps (M : Nat) (start : S) : List (Nat × F) :=
  let s := (stash w)^[M] ⟨[], [], start⟩
  let pre := fd.prefixes s.zs (M - 1)
  fd.legacyBack s.ys s.zs pre M (fd.invert (pre.getD (M - 1) fd.one))

/-! ## the kernel -/

/-- the walk of a thread: `cur = ged_madd(cur, step)` -/
def pointWalk (step : DevCachedAffine F) : DevWalk F (DevP3 F) where
  Y := DevP3.Y
  Z := DevP3.Z
  next p := fd.gedMadd p step

def steps (inv : BatchInversion) (M : Nat) (start : S) : List (Nat × F) :=
  match inv with
  | .fusedCombo => fd.fusedSteps w M start
  | .threeArrays => fd.legacySteps w M start

/-- the steps of thread `t` in its order, with the bytes that it compares; threads past the start
points return at once -/
def threadSteps (inv : BatchInversion) (M : Nat) (starts : List GeP3) (bigstep : GeCachedAffine)
    (t : Nat) : List (Nat × Bytes 32) :=
  match starts[t]? with
  | none => []
  | some p => (fd.steps (fd.pointWalk (fd.toDeviceCached bigstep)) inv M (fd.toDeviceP3 p)).map
      (Prod.map id fd.toBytes)

end DeviceField

/-- a device that runs `search_kernel` on the field `fd` -/
def kernelDevice {F : Type} (fd : DeviceField F) (inv : BatchInversion) (T M : Nat)
    (ok : Nat → Bool) (order : Nat → List (Nat × Nat))
    (order_perm : ∀ n, (order n).Perm (candidates T M)) : Device T M where
  ok := ok
  y starts bigstep t j :=
    ((fd.threadSteps inv M starts bigstep t).lookup j).getD (Bytes.ofNat 32 0)
  order := order
  order_perm := order_perm

end Onion
