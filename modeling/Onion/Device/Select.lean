import Onion.Device.Field51
import Onion.Device.Tracked

/-!
# `device_field_select.cuh`: one kernel, two fields

`ONION_CUDA_FIELD32` chooses the backend that the kernel is compiled with.

* `FieldBackend`   the two backends, and the device that runs each;
* `clean`          what the backend gets right: everything, or what its record says;
* `seen`           a clean candidate is found as it is.
-/

namespace Onion

/-- the backends: `device_field.cuh`, and `device_field32.cuh`, which the default build has -/
inductive FieldBackend where
  | limbs51
  | words32
deriving DecidableEq

namespace FieldBackend

def device (b : FieldBackend) (inv : BatchInversion) (T M : Nat) (ok : Nat → Bool)
    (order : Nat → List (Nat × Nat)) (order_perm : ∀ n, (order n).Perm (candidates T M)) :
    Device T M :=
  match b with
  | limbs51 => device51 inv T M ok order order_perm
  | words32 => kernelDevice field32 inv T M ok order order_perm

/-- whether the backend computes candidate `i` of the launch from draw `draw` in range -/
def clean (b : FieldBackend) (inv : BatchInversion) (h : Host) (cfg : CudaConfig) (draw i : Nat) :
    Bool :=
  match b with
  | limbs51 => true
  | words32 => cleanCandidate inv h cfg draw i

theorem seen (b : FieldBackend) (inv : BatchInversion) {h : Host} {cfg : CudaConfig}
    (ok : Nat → Bool) (order : Nat → List (Nat × Nat))
    (perm : ∀ n, (order n).Perm (candidates cfg.threads cfg.kStepsPerThread)) {draw i : Nat}
    (hi : i < cfg.threads * cfg.kStepsPerThread) (hclean : b.clean inv h cfg draw i = true) :
    seenPattern h cfg (b.device inv _ _ ok order perm) draw i =
      firstPattern h cfg.patterns draw i := by
  cases b with
  | limbs51 => exact device51_sees cfg inv ok order perm h draw i hi
  | words32 => exact device32_seen inv ok order perm h hi hclean

end FieldBackend

end Onion
