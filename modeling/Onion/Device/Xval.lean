import Onion.Lib.Scatter
import Onion.Device.Select
import Onion.Engine.Clamp
import Onion.Crypto.Order

/-!
# `xval_kernel.cu`: the gate of the device fields

One thread a chain walks `A0, A0 + 8B, ..` and inverts every `Z` by itself; the test compares the
leading 31 bytes of each `y` with libsodium.

* `chainStep`, `chainYs`   `incremental_chain`, the loop of a thread;
* `XvalDevice`             calls that may fail, and threads whose writes land in any order;
* `runIncrementalXval`     the host side;
* `xvalGate`               the test;
* `xval_passes`            chains of clamped scalars pass, in the range of the field.
-/

namespace Onion
open Logged DeviceField

namespace DeviceField
variable {F : Type} (fd : DeviceField F)

def quotient (p : DevP3 F) : F := fd.mul p.Y (fd.invert p.Z)

/-- one step of a chain: write `y`, and go on by `8B` -/
def chainStep (step8b : DevCachedAffine F) (s : DevP3 F × List (Bytes 32)) :
    DevP3 F × List (Bytes 32) :=
  (fd.gedMadd s.1 step8b, s.2 ++ [fd.toBytes (fd.quotient s.1)])

/-- what a chain writes -/
def chainYs (step8b : DevCachedAffine F) (steps : Nat) (start : DevP3 F) : List (Bytes 32) :=
  ((fd.chainStep step8b)^[steps] (start, [])).2

theorem chain_eq (step8b : DevCachedAffine F) (start : DevP3 F) (steps : Nat) :
    (fd.chainStep step8b)^[steps] (start, []) =
      ((fd.pointWalk step8b).next^[steps] start, (List.range steps).map fun i =>
        fd.toBytes (fd.quotient ((fd.pointWalk step8b).next^[i] start))) := by
  induction steps with
  | zero => rfl
  | succ steps ih =>
    rw [Function.iterate_succ_apply', ih, chainStep, map_range_succ, Function.iterate_succ_apply']
    rfl

theorem iterate_related {F G S U : Type} {R : F → G → Prop} {Q : S → U → Prop} {w : DevWalk F S}
    {v : DevWalk G U} (h : WalkRelated w v R Q) {p : S} {q : U} (hpq : Q p q) (i : Nat) :
    Q (w.next^[i] p) (v.next^[i] q) := by
  induction i with
  | zero => exact hpq
  | succ i ih =>
    rw [Function.iterate_succ_apply', Function.iterate_succ_apply']
    exact h.next ih

end DeviceField

namespace FieldBackend

/-- what the thread of a chain writes, from the uploaded start point and step -/
def chainYs (b : FieldBackend) (step8b : GeCachedAffine) (steps : Nat) (start : GeP3) :
    List (Bytes 32) :=
  match b with
  | limbs51 => field51.chainYs (toDeviceCached51 step8b) steps (toDeviceP351 start)
  | words32 => field32.chainYs (field32.toDeviceCached step8b) steps (field32.toDeviceP3 start)

/-- whether the backend computes step `i` of a chain in range -/
def chainClean (b : FieldBackend) (step8b : GeCachedAffine) (start : GeP3) (i : Nat) : Bool :=
  match b with
  | limbs51 => true
  | words32 => (tracked.quotient ((tracked.pointWalk (tracked.toDeviceCached step8b)).next^[i]
      (tracked.toDeviceP3 start))).clean

/-! ## a chain -/

section
variable {start : GeP3} {step8b : GeCachedAffine} {P Q : EdPoint} (hP : Rep start P)
  (hQ : AffineRep step8b Q)
include hP hQ

theorem exact_quotient (i : Nat) :
    exactField.quotient ((exactField.pointWalk (exactField.toDeviceCached step8b)).next^[i]
      (exactField.toDeviceP3 start)) = (P + i • Q).y := by
  have hrep := iterate_ok exactField_exact (toDeviceP3_rep exactField_exact hP)
    (toDeviceCached_rep exactField_exact hQ) i
  have hinv := invert_val exactField_exact ((exactField.pointWalk
    (exactField.toDeviceCached step8b)).next^[i] (exactField.toDeviceP3 start)).Z
  rw [id, id] at hinv
  rw [quotient, hinv]
  exact hrep.div_z.2

/-- **A chain** writes the `y` of `P + i•Q` in every step that is computed in range. -/
theorem chainYs_getElem? (b : FieldBackend) {steps i : Nat} (hi : i < steps)
    (hclean : b.chainClean step8b start i = true) :
    (b.chainYs step8b steps start)[i]? = some (canonBytes (P + i • Q).y) := by
  have hexact := exact_quotient hP hQ i
  cases b with
  | limbs51 =>
    have hw := pointWalk_related (toDeviceCached51_same hQ)
    have hsame := iterate_related hw (toDeviceP351_same hP) i
    have hy := element_related.mul hsame.Y (invert_related element_related hsame.Z)
    rw [chainYs, DeviceField.chainYs, chain_eq, List.getElem?_map, List.getElem?_range hi,
      Option.map_some, quotient, toBytes51 hy, ← hexact]
    rfl
  | words32 =>
    have hwords : WalkRelated (field32.pointWalk (field32.toDeviceCached step8b))
        (tracked.pointWalk (tracked.toDeviceCached step8b)) Represented (PointRelated Represented) :=
      pointWalk_ops words_related step8b
    have hstands : WalkRelated (tracked.pointWalk (tracked.toDeviceCached step8b))
        (exactField.pointWalk (exactField.toDeviceCached step8b)) Stands (PointRelated Stands) :=
      pointWalk_ops clean_related step8b
    have hw := iterate_related hwords (toDeviceP3_ops words_related start) i
    have hs := iterate_related hstands (toDeviceP3_ops clean_related start) i
    have hyw := words_related.mul hw.Y (invert_related words_related.muls hw.Z)
    have hys := clean_related.mul hs.Y (invert_related clean_related.muls hs.Z)
    rw [chainYs, DeviceField.chainYs, chain_eq, List.getElem?_map, List.getElem?_range hi,
      Option.map_some, quotient, toBytes32 hyw hys hclean, ← hexact]
    rfl

end

theorem chainYs_length (b : FieldBackend) (step8b : GeCachedAffine) (steps : Nat) (start : GeP3) :
    (b.chainYs step8b steps start).length = steps := by
  cases b <;> rw [chainYs, DeviceField.chainYs, chain_eq, List.length_map, List.length_range]

/-! ## the kernel -/

/-- what thread `c` computes; threads past the chains return at once -/
def threadYs (b : FieldBackend) (starts : List GeP3) (step8b : GeCachedAffine) (steps c : Nat) :
    List (Bytes 32) :=
  match starts[c]? with
  | none => []
  | some start => b.chainYs step8b steps start

def stepBytes (b : FieldBackend) (starts : List GeP3) (step8b : GeCachedAffine) (steps c i : Nat) :
    List UInt8 :=
  ((b.threadYs starts step8b steps c).getD i (Bytes.ofNat 32 0)).1

/-- where thread `c` writes them: at `(c*steps + i)*32` -/
def threadWrites (b : FieldBackend) (starts : List GeP3) (step8b : GeCachedAffine) (steps c : Nat) :
    List (Nat × UInt8) :=
  (List.range (b.threadYs starts step8b steps c).length).flatMap fun i =>
    writesAt ((c * steps * 32 + i * 32) % 2^64) (b.stepBytes starts step8b steps c i)

/-- `incremental_chain<<<grid, 64>>>` -/
def launchWrites (b : FieldBackend) (starts : List GeP3) (step8b : GeCachedAffine)
    (steps grid : Nat) : List (Nat × UInt8) :=
  (List.range (grid * 64)).flatMap (b.threadWrites starts step8b steps)

/-- what all the chains write, one after the other -/
def chainBytes (b : FieldBackend) (starts : List GeP3) (step8b : GeCachedAffine) (steps : Nat) :
    List UInt8 :=
  (List.range starts.length).flatMap fun c =>
    (List.range steps).flatMap (b.stepBytes starts step8b steps c)

section
variable {b : FieldBackend} {starts : List GeP3} {step8b : GeCachedAffine} {steps : Nat}

theorem stepBytes_length (c i : Nat) : (b.stepBytes starts step8b steps c i).length = 32 :=
  ((b.threadYs starts step8b steps c).getD i (Bytes.ofNat 32 0)).2

theorem chainBytes_length : (b.chainBytes starts step8b steps).length =
    starts.length * (steps * 32) :=
  blocks_length _ (fun c => blocks_length _ (stepBytes_length c) _) _

/-- the threads write the chains, each byte once -/
theorem launchWrites_eq {grid : Nat} (hgrid : starts.length ≤ grid * 64)
    (hsize : starts.length * steps * 32 < 2^64) :
    b.launchWrites starts step8b steps grid = writesAt 0 (b.chainBytes starts step8b steps) := by
  obtain ⟨m, hm⟩ := Nat.exists_eq_add_of_le hgrid
  have hpast : ((List.range m).map (starts.length + ·)).flatMap
      (b.threadWrites starts step8b steps) = [] := by
    refine List.flatMap_eq_nil_iff.mpr fun c hc => ?_
    obtain ⟨k, -, rfl⟩ := List.mem_map.mp hc
    rw [threadWrites, threadYs, List.getElem?_eq_none (Nat.le_add_right _ _)]
    rfl
  rw [launchWrites, hm, List.range_add, List.flatMap_append, hpast, List.append_nil, chainBytes,
    writesAt_blocks _ fun c => blocks_length _ (stepBytes_length c) _]
  refine List.flatMap_congr fun c hc => ?_
  have hc := List.mem_range.mp hc
  have hlen : (b.threadYs starts step8b steps c).length = steps := by
    rw [threadYs, List.getElem?_eq_getElem hc]
    exact chainYs_length b step8b steps _
  rw [threadWrites, hlen, writesAt_blocks _ (stepBytes_length c)]
  refine List.flatMap_congr fun i hi => ?_
  have hplace : c * steps + i < starts.length * steps :=
    calc c * steps + i < c * steps + steps := Nat.add_lt_add_left (List.mem_range.mp hi) _
      _ = (c + 1) * steps := (Nat.succ_mul c steps).symm
      _ ≤ starts.length * steps := Nat.mul_le_mul_right steps hc
  rw [Nat.zero_add, ← Nat.mul_assoc, Nat.mod_eq_of_lt (by omega)]

end

end FieldBackend

/-! ## the host -/

/-- the calls of the CUDA runtime, and the memory of the device -/
structure XvalDevice where
  /-- which calls succeed -/
  ok : Nat → Bool
  /-- `d_out` as it was allocated -/
  dOut : (n : Nat) → { l : List UInt8 // l.length = n }
  /-- the order in which the writes of the threads land -/
  schedule : List (Nat × UInt8) → List (Nat × UInt8)
  schedule_perm : ∀ ws, (schedule ws).Perm ws

def xvalStarts (a0 : List (Bytes 32)) : List GeP3 := a0.map fun a => (geScalarmultBase a).val

def xvalStep : Run GeCachedAffine := do
  let step8bP3 ← geScalarmultBase (Bytes.ofNat 32 8)
  geToCachedAffine step8bP3

/-- `run_incremental_xval`: what it copies to `out_y`, unless a call fails; a launch without blocks
fails -/
def runIncrementalXval (b : FieldBackend) (dev : XvalDevice) (a0 : List (Bytes 32)) (steps : Nat) :
    Option (List UInt8) :=
  let outBytes := a0.length * steps * 32 % 2^64
  let grid := (a0.length + 64 - 1) / 64
  let writes := b.launchWrites (xvalStarts a0) xvalStep.val steps grid
  if (List.range 8).all dev.ok ∧ grid ≠ 0 then
    some (scatter (dev.dOut outBytes).1 (dev.schedule writes))
  else none

theorem xvalStep_ok : AffineRep xvalStep.val (8 • basePoint) := by
  have hstep : Ok xvalStep fun q => AffineRep q (8 • basePoint) := by
    unfold xvalStep
    refine (geScalarmultBase_ok (Bytes.ofNat 32 8)).bind fun p hp => ?_
    rw [eight_toNat] at hp
    exact geToCachedAffine_ok hp
  exact hstep.2

section
variable {b : FieldBackend} {dev : XvalDevice} {a0 : List (Bytes 32)} {steps : Nat}
  {out : List UInt8}

/-- what a run that succeeds copies back, in whatever order the threads wrote it -/
theorem runIncrementalXval_eq (hsize : a0.length * steps * 32 < 2^64)
    (hrun : runIncrementalXval b dev a0 steps = some out) :
    out = b.chainBytes (xvalStarts a0) xvalStep.val steps := by
  have hlen : (xvalStarts a0).length = a0.length := List.length_map _
  unfold runIncrementalXval at hrun
  dsimp only at hrun
  split at hrun
  · rw [← Option.some.inj hrun, FieldBackend.launchWrites_eq (by omega) (by rwa [hlen])]
    refine scatter_full (dev.schedule_perm _) ?_
    rw [(dev.dOut _).2, FieldBackend.chainBytes_length, hlen, Nat.mod_eq_of_lt hsize, Nat.mul_assoc]
  · cases hrun

/-- `out_y[(c*steps + i)*32 ..]` is the `y` of `(a0_c + 8i)B`, where the field is in range -/
theorem xval_slice (hsize : a0.length * steps * 32 < 2^64)
    (hrun : runIncrementalXval b dev a0 steps = some out) {c : Nat} {a : Bytes 32}
    (ha : a0[c]? = some a) {i : Nat} (hi : i < steps)
    (hclean : b.chainClean xvalStep.val (geScalarmultBase a).val i = true) :
    (out.drop (c * (steps * 32) + i * 32)).take 32 =
      (canonBytes (walkPoint (a.toNat % 2^255) i).y).1 := by
  have hstart : (xvalStarts a0)[c]? = some (geScalarmultBase a).val := by
    rw [xvalStarts, List.getElem?_map, ha, Option.map_some]
  have hc : c < (xvalStarts a0).length := (List.getElem?_eq_some_iff.mp hstart).1
  have hrep := (geScalarmultBase_ok a).2
  have hy := FieldBackend.chainYs_getElem? hrep xvalStep_ok b hi hclean
  rw [runIncrementalXval_eq hsize hrun, FieldBackend.chainBytes,
    rows_slice _ FieldBackend.stepBytes_length hc hi, FieldBackend.stepBytes,
    FieldBackend.threadYs, hstart]
  dsimp only
  rw [List.getD_eq_getElem?_getD, hy, Option.getD_some, walkPoint, Nat.mul_comm 8 i, add_smul,
    mul_smul]

end

/-! ## the test -/

/-- `add8_le`: bytes are touched while there is a carry -/
def add8Le : List UInt8 → Nat → List UInt8
  | [], _ => []
  | x :: xs, carry =>
    if carry = 0 then x :: xs
    else
      let s := x.toNat + (carry &&& 0xff)
      UInt8.ofNat (s &&& 0xff) :: add8Le xs (s >>> 8)

theorem add8Le_length (b : List UInt8) (carry : Nat) : (add8Le b carry).length = b.length := by
  induction b generalizing carry with
  | nil => rfl
  | cons x xs ih =>
    rw [add8Le]
    split
    · rfl
    · rw [List.length_cons, ih, List.length_cons]

theorem le_add8Le (b : List UInt8) {carry : Nat} (hc : carry < 256) :
    le (add8Le b carry) = (le b + carry) % 256^b.length := by
  induction b generalizing carry with
  | nil => simp [add8Le, le_nil, Nat.mod_one]
  | cons x xs ih =>
    have hx := x.toNat_lt
    have h255 : (0xff : Nat) = 2^8 - 1 := rfl
    rw [add8Le]
    split
    · rename_i h
      rw [h, Nat.add_zero, Nat.mod_eq_of_lt (le_lt _)]
    · dsimp only
      have hand : carry &&& 0xff = carry := by
        rw [h255, Nat.and_two_pow_sub_one_eq_mod]
        exact Nat.mod_eq_of_lt hc
      rw [hand, le_cons, le_cons, List.length_cons, pow_succ', Nat.mod_mul, UInt8.toNat_ofNat', h255,
        Nat.and_two_pow_sub_one_eq_mod, Nat.shiftRight_eq_div_pow, ih (by omega)]
      have e : (x.toNat + 256 * le xs + carry) / 256 = le xs + (x.toNat + carry) / 2^8 := by omega
      rw [e]
      omega

def nextScalar (a : Bytes 32) : Bytes 32 := ⟨add8Le a.1 8, (add8Le_length a.1 8).trans a.2⟩

theorem nextScalar_toNat {a : Bytes 32} (h : a.toNat + 8 < 2^256) :
    (nextScalar a).toNat = a.toNat + 8 := by
  have hval : (nextScalar a).toNat = (a.toNat + 8) % 256^a.1.length := le_add8Le a.1 (by decide)
  rw [hval, a.2]
  exact Nat.mod_eq_of_lt h

/-- the steps of a chain from step `i` on: libsodium gives a key, and its leading 31 bytes are
those of the device -/
def chainGate (base : Bytes 32 → Option (Bytes 32)) (chain : List UInt8) :
    Nat → Nat → Bytes 32 → Bool
  | 0, _, _ => true
  | n+1, i, a =>
    match base a with
    | none => false
    | some ref => decide (((chain.drop (i * 32)).take 32).take 31 = ref.1.take 31) &&
      chainGate base chain n (i + 1) (nextScalar a)

/-- the test, for what `run_incremental_xval` copied -/
def xvalGate (base : Bytes 32 → Option (Bytes 32)) (a0 : List (Bytes 32)) (steps : Nat)
    (out : List UInt8) : Bool :=
  a0.zipIdx.all fun x => chainGate base (out.drop (x.2 * steps * 32)) steps 0 x.1

/-- the sign of `x` is in the last byte -/
theorem leading_bytes (P : EdPoint) : (canonBytes P.y).1.take 31 = (encodePoint P).1.take 31 := by
  have hcanon : le ((canonBytes P.y).1.take 31 ++ (canonBytes P.y).1.drop 31) = P.y.val := by
    rw [List.take_append_drop]
    exact canonBytes_toNat P.y
  have hencode : le ((encodePoint P).1.take 31 ++ (encodePoint P).1.drop 31) =
      P.y.val + 2^255 * (P.x.val % 2) := by
    rw [List.take_append_drop]
    exact encodePoint_toNat P
  have hlen : ∀ b : Bytes 32, (b.1.take 31).length = 31 := fun b => by
    rw [List.length_take, b.2]
    rfl
  have hlo := le_lt ((canonBytes P.y).1.take 31)
  have hlo' := le_lt ((encodePoint P).1.take 31)
  rw [le_append, hlen] at hcanon hencode
  rw [hlen] at hlo hlo'
  refine le_inj ((hlen _).trans (hlen _).symm) ?_
  omega

/-- a clamped scalar and the multiples of 8 after it have keys, up to `2^255` -/
theorem clamped_key {base : Bytes 32 → Option (Bytes 32)} (hrfc : Rfc8032 base) {a s : Bytes 32}
    (ha : Clamped a) {i : Nat} (hs : s.toNat = a.toNat + 8 * i) (hlt : a.toNat + 8 * i < 2^255) :
    base s = some (encodePoint (walkPoint (a.toNat % 2^255) i)) := by
  obtain ⟨h8, hlo, hhi⟩ := clamped_iff.mp ha
  have hmod : s.toNat % 2^255 = a.toNat + 8 * i := by rw [hs, Nat.mod_eq_of_lt hlt]
  have hne : (a.toNat + 8 * i) • basePoint ≠ 0 := by
    intro h0
    have hcop : Nat.Coprime 8 kOrder := by decide
    have h8k : 8 * kOrder ∣ a.toNat + 8 * i := hcop.mul_dvd_of_dvd_of_dvd
      (h8.add (Nat.dvd_mul_right 8 i)) (smul_basePoint_eq_zero_iff.mp h0)
    have hle := Nat.le_of_dvd (by omega) h8k
    have hk : kOrder = 2^252 + 27742317777372353535851937790883648493 := rfl
    omega
  rw [hrfc, hmod, Nat.mod_eq_of_lt hhi, if_neg hne, walkPoint]

theorem chainGate_passes {base : Bytes 32 → Option (Bytes 32)} (hrfc : Rfc8032 base) {a : Bytes 32}
    (ha : Clamped a) {chain : List UInt8} {steps : Nat} (hrange : ∀ i < steps, a.toNat + 8 * i < 2^255)
    (hslice : ∀ i < steps, (chain.drop (i * 32)).take 32 =
      (canonBytes (walkPoint (a.toNat % 2^255) i).y).1) {n i : Nat} (hn : i + n = steps)
    {s : Bytes 32} (hs : s.toNat = a.toNat + 8 * i) : chainGate base chain n i s = true := by
  induction n generalizing i s with
  | zero => rfl
  | succ n ih =>
    have hi : i < steps := by omega
    rw [chainGate, clamped_key hrfc ha hs (hrange i hi)]
    dsimp only
    rw [hslice i hi, leading_bytes, decide_eq_true rfl, Bool.true_and]
    refine ih (by omega) ?_
    have hr := hrange i hi
    rw [nextScalar_toNat (by omega), hs]
    omega

/-- **The gate passes** for every number of chains and steps, in whatever order the threads write:
when no call fails, chains of clamped scalars below `2^255` that the field computes in range give
what the header promises, and the leading 31 bytes of the keys of libsodium. -/
theorem xval_passes (base : Bytes 32 → Option (Bytes 32)) (hrfc : Rfc8032 base) (b : FieldBackend)
    (dev : XvalDevice) (a0 : List (Bytes 32)) (steps : Nat) (hsize : a0.length * steps * 32 < 2^64)
    (hclamped : ∀ a ∈ a0, Clamped a) (hrange : ∀ a ∈ a0, ∀ i < steps, a.toNat + 8 * i < 2^255)
    (hclean : ∀ a ∈ a0, ∀ i < steps, b.chainClean xvalStep.val (geScalarmultBase a).val i = true)
    (out : List UInt8) (hrun : runIncrementalXval b dev a0 steps = some out) :
    (∀ c a, a0[c]? = some a → ∀ i < steps, (out.drop (c * (steps * 32) + i * 32)).take 32 =
      (canonBytes (walkPoint a.toNat i).y).1) ∧
    xvalGate base a0 steps out = true := by
  have hslice : ∀ c a, a0[c]? = some a → ∀ i < steps,
      (out.drop (c * (steps * 32) + i * 32)).take 32 =
        (canonBytes (walkPoint (a.toNat % 2^255) i).y).1 := fun c a ha i hi =>
    xval_slice hsize hrun ha hi (hclean a (List.mem_of_getElem? ha) i hi)
  refine ⟨fun c a ha i hi => ?_, ?_⟩
  · obtain ⟨-, -, hhi⟩ := clamped_iff.mp (hclamped a (List.mem_of_getElem? ha))
    rw [hslice c a ha i hi, Nat.mod_eq_of_lt hhi]
  · rw [xvalGate, List.all_eq_true]
    rintro ⟨a, c⟩ hmem
    have ha : a0[c]? = some a := List.mem_zipIdx_iff_getElem?.mp hmem
    have hin := List.mem_of_getElem? ha
    refine chainGate_passes hrfc (hclamped a hin) (hrange a hin) (fun i hi => ?_)
      (Nat.zero_add steps) (Nat.add_zero _).symm
    rw [List.drop_drop, Nat.mul_assoc]
    exact hslice c a ha i hi

/-- a device whose writes land from the last to the first -/
def backwardDevice : XvalDevice where
  ok _ := true
  dOut n := ⟨List.replicate n 0xff, List.length_replicate⟩
  schedule ws := ws.reverse
  schedule_perm ws := ws.reverse_perm

/-- two chains of four steps -/
theorem xval_passes_backward :
    let a0 := [Bytes.ofNat 32 (2^254), Bytes.ofNat 32 (2^254 + 40)]
    ∃ out, runIncrementalXval .limbs51 backwardDevice a0 4 = some out ∧
      xvalGate rfcBase a0 4 out = true := by
  intro a0
  have ha : ∀ a ∈ a0, Clamped a ∧ a.toNat < 2^254 + 48 := by
    intro a ha
    obtain ⟨k, hk, rfl⟩ : ∃ k ≤ 5, a = Bytes.ofNat 32 (2^254 + 8 * k) := by
      rcases List.mem_cons.mp ha with rfl | ha
      · exact ⟨0, by decide, rfl⟩
      · exact ⟨5, le_rfl, List.mem_singleton.mp ha⟩
    rw [clamped_iff, Bytes.toNat_ofNat, Nat.mod_eq_of_lt (by omega)]
    exact ⟨by omega, by omega⟩
  have hrun : ∃ out, runIncrementalXval .limbs51 backwardDevice a0 4 = some out := by
    unfold runIncrementalXval
    exact ⟨_, if_pos ⟨by decide, by decide⟩⟩
  obtain ⟨out, hrun⟩ := hrun
  refine ⟨out, hrun, (xval_passes rfcBase rfcBase_rfc8032 .limbs51 backwardDevice a0 4 (by decide)
    (fun a h => (ha a h).1) (fun a h i hi => ?_) (fun _ _ _ _ => rfl) out hrun).2⟩
  have hlt := (ha a h).2
  omega

end Onion
