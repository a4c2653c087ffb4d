import Onion.Device.Related
import Onion.Device.Genuine
import Onion.Device.FieldBytes

/-!
# The kernel with the 51-bit field

`device_field.cuh` computes on machine words, which wrap.  In a thread of the kernel they never do:
the limbs of a walk stay below `2^51`, and each element stands for the one of the exact field.

* `Element`           limbs below `2^51`, and the value;
* `gedMadd_related`   a step of the walk, in both fields;
* `threadSteps51_eq`  a thread writes the bytes of the exact field;
* `device51_sees`     a launch finds what its candidates match;
* `run51_exact`       and a whole run pushes it.
-/

namespace Onion
open Logged DeviceField

/-! ## the upload -/

def toDeviceP351 (p : GeP3) : DevP3 Fe :=
  ⟨toDeviceFe51 p.X, toDeviceFe51 p.Y, toDeviceFe51 p.Z, toDeviceFe51 p.T⟩

def toDeviceCached51 (q : GeCachedAffine) : DevCachedAffine Fe :=
  ⟨toDeviceFe51 q.YplusX, toDeviceFe51 q.YminusX, toDeviceFe51 q.T2d⟩

/-- what thread `t` compares, with the limbs of the host copied -/
def threadSteps51 (inv : BatchInversion) (M : Nat) (starts : List GeP3) (bigstep : GeCachedAffine)
    (t : Nat) : List (Nat × Bytes 32) :=
  match starts[t]? with
  | none => []
  | some p => (field51.steps (field51.pointWalk (toDeviceCached51 bigstep)) inv M
      (toDeviceP351 p)).map (Prod.map id field51.toBytes)

/-- a device that runs `search_kernel` on the 51-bit field -/
def device51 (inv : BatchInversion) (T M : Nat) (ok : Nat → Bool) (order : Nat → List (Nat × Nat))
    (order_perm : ∀ n, (order n).Perm (candidates T M)) : Device T M where
  ok := ok
  y starts bigstep t j :=
    ((threadSteps51 inv M starts bigstep t).lookup j).getD (Bytes.ofNat 32 0)
  order := order
  order_perm := order_perm

/-! ## the words and the field -/

/-- limbs below `2^51`, which stand for `v` -/
def Element (f : Fe) (v : Fp) : Prop := f.Bnd (2^51) ∧ f.toFp = v

theorem Element.loose {f : Fe} {v : Fp} (h : Element f v) : f.Bnd (2^54) := h.1.mono (by norm_num)

theorem add51 {a b : Fe} {A B : Nat} (ha : a.Bnd A) (hb : b.Bnd B) (h : A + B < 2^64) :
    (field51.add a b).Bnd (A + B) ∧ (field51.add a b).toFp = a.toFp + b.toFp := by
  unfold field51
  exact (feAdd_ok ha hb h).2

theorem sub51 {a b : Fe} {A : Nat} (ha : a.Bnd A) (hA : A ≤ 2^54) (hb : b.Bnd (2^54 - 152)) :
    Element (field51.sub a b) (a.toFp - b.toFp) := by
  unfold field51
  exact (feSub_ok ha hA hb).2

theorem mul51 {a b : Fe} (ha : a.Bnd (2^54)) (hb : b.Bnd (2^54)) :
    Element (field51.mul a b) (a.toFp * b.toFp) := by
  unfold field51
  exact (feMul_ok ha hb).2

theorem sq51 {a : Fe} (ha : a.Bnd (2^54)) : Element (field51.sq a) (a.toFp * a.toFp) := by
  unfold field51
  exact (feSq_ok ha).2

theorem fromBytes51 (s : Bytes 32) : Element (field51.fromBytes s) (exactField.fromBytes s) := by
  unfold field51 exactField
  refine ⟨feFromBytes_bnd s, ?_⟩
  dsimp only
  rw [fed51FromBytes, Fe.toFp, feFromBytes_val]

theorem toBytes51 {f : Fe} {v : Fp} (h : Element f v) :
    field51.toBytes f = exactField.toBytes v := by
  unfold field51 exactField
  refine Bytes.toNat_inj ?_
  dsimp only
  rw [fed51ToBytes, (feToBytes_ok h.loose).2, canonBytes_toNat, h.2]

theorem element_related : MulRelated field51 exactField Element where
  one := fromBytes51 _
  mul {a b c d} ha hc := by
    have h := mul51 ha.loose hc.loose
    rw [ha.2, hc.2] at h
    exact h
  sq {a b} ha := by
    have h := sq51 ha.loose
    rw [ha.2] at h
    exact h

/-- the coordinates of a point, in both fields -/
structure SamePoint (p : DevP3 Fe) (q : DevP3 Fp) : Prop where
  X : Element p.X q.X
  Y : Element p.Y q.Y
  Z : Element p.Z q.Z
  T : Element p.T q.T

/-- the addend, in both fields; `YplusX` is a sum that is not reduced -/
structure SameAddend (p : DevCachedAffine Fe) (q : DevCachedAffine Fp) : Prop where
  yplusx : p.YplusX.Bnd (2^52)
  yplusx_eq : p.YplusX.toFp = q.YplusX
  yminusx : Element p.YminusX q.YminusX
  t2d : Element p.T2d q.T2d

theorem gedMadd_related {p : DevP3 Fe} {p' : DevP3 Fp} {q : DevCachedAffine Fe}
    {q' : DevCachedAffine Fp} (hp : SamePoint p p') (hq : SameAddend q q') :
    SamePoint (field51.gedMadd p q) (exactField.gedMadd p' q') := by
  have small {f : Fe} {v : Fp} (h : Element f v) : f.Bnd (2^54 - 152) := h.1.mono (by norm_num)
  unfold DeviceField.gedMadd
  obtain ⟨bs, es⟩ := sub51 hp.Y.1 (by norm_num) (small hp.X)
  obtain ⟨ba, ea⟩ := mul51 (bs.mono (by norm_num)) hq.yminusx.loose
  obtain ⟨bu, eu⟩ := add51 hp.Y.1 hp.X.1 (by norm_num)
  obtain ⟨bb, eb⟩ := mul51 (bu.mono (by norm_num)) (hq.yplusx.mono (by norm_num))
  obtain ⟨bc, ec⟩ := mul51 hq.t2d.loose hp.T.loose
  obtain ⟨bd, ed⟩ := add51 hp.Z.1 hp.Z.1 (by norm_num)
  obtain ⟨be, ee⟩ := sub51 bb (by norm_num) (ba.mono (by norm_num))
  obtain ⟨bf, ef⟩ := sub51 bd (by norm_num) (bc.mono (by norm_num))
  obtain ⟨bg, eg⟩ := add51 bd bc (by norm_num)
  obtain ⟨bh, eh⟩ := add51 bb ba (by norm_num)
  have be := be.mono (show 2^51 ≤ 2^54 by norm_num)
  have bf := bf.mono (show 2^51 ≤ 2^54 by norm_num)
  have bg := bg.mono (show 2^51 + 2^51 + 2^51 ≤ 2^54 by norm_num)
  have bh := bh.mono (show 2^51 + 2^51 ≤ 2^54 by norm_num)
  have hx := mul51 be bf
  have hy := mul51 bg bh
  have hz := mul51 bf bg
  have ht := mul51 be bh
  rw [ee, ef, ea, eb, ec, ed, es, eu, hp.X.2, hp.Y.2, hp.Z.2, hp.T.2, hq.yplusx_eq, hq.yminusx.2,
    hq.t2d.2] at hx
  rw [eg, eh, ea, eb, ec, ed, es, eu, hp.X.2, hp.Y.2, hp.Z.2, hp.T.2, hq.yplusx_eq, hq.yminusx.2,
    hq.t2d.2] at hy
  rw [ef, eg, ec, ed, hp.Z.2, hp.T.2, hq.t2d.2] at hz
  rw [ee, eh, ea, eb, es, eu, hp.X.2, hp.Y.2, hq.yplusx_eq, hq.yminusx.2] at ht
  exact ⟨hx, hy, hz, ht⟩

/-! ## a thread -/

theorem toDeviceFe51_same {f : Fe} (hf : f.Bnd (2^54)) :
    (toDeviceFe51 f).toFp = exactField.toDeviceFe f :=
  (toDeviceFe_val exactField_exact hf).symm

theorem toDeviceP351_same {p : GeP3} {P : EdPoint} (hp : Rep p P) :
    SamePoint (toDeviceP351 p) (exactField.toDeviceP3 p) where
  X := ⟨hp.X, toDeviceFe51_same (hp.X.mono (by norm_num))⟩
  Y := ⟨hp.Y, toDeviceFe51_same (hp.Y.mono (by norm_num))⟩
  Z := ⟨hp.Z, toDeviceFe51_same (hp.Z.mono (by norm_num))⟩
  T := ⟨hp.T, toDeviceFe51_same (hp.T.mono (by norm_num))⟩

theorem toDeviceCached51_same {q : GeCachedAffine} {Q : EdPoint} (hq : AffineRep q Q) :
    SameAddend (toDeviceCached51 q) (exactField.toDeviceCached q) where
  yplusx := hq.yplusx
  yplusx_eq := toDeviceFe51_same (hq.yplusx.mono (by norm_num))
  yminusx := ⟨hq.yminusx, toDeviceFe51_same (hq.yminusx.mono (by norm_num))⟩
  t2d := ⟨hq.t2d, toDeviceFe51_same (hq.t2d.mono (by norm_num))⟩

theorem pointWalk_related {q : DevCachedAffine Fe} {q' : DevCachedAffine Fp} (hq : SameAddend q q') :
    WalkRelated (field51.pointWalk q) (exactField.pointWalk q') Element SamePoint where
  Y h := h.Y
  Z h := h.Z
  next h := gedMadd_related h hq

/-- **A thread on the machine words** compares the bytes of the exact field. -/
theorem threadSteps51_eq (inv : BatchInversion) (M : Nat) {starts : List GeP3}
    {bigstep : GeCachedAffine} {t : Nat} {p : GeP3} {P Q : EdPoint} (ht : starts[t]? = some p)
    (hp : Rep p P) (hQ : AffineRep bigstep Q) :
    threadSteps51 inv M starts bigstep t = exactField.threadSteps inv M starts bigstep t := by
  have hw := pointWalk_related (toDeviceCached51_same hQ)
  have hsteps := steps_related element_related hw inv M (toDeviceP351_same hp)
  rw [threadSteps51, threadSteps, ht]
  dsimp only
  exact map_toBytes_related field51.toBytes exactField.toBytes toBytes51 hsteps

/-! ## a launch -/

section
variable {cfg : CudaConfig} (inv : BatchInversion) (ok : Nat → Bool)
  (order : Nat → List (Nat × Nat))
  (perm : ∀ n, (order n).Perm (candidates cfg.threads cfg.kStepsPerThread))

theorem device51_y {a0 : Bytes 32} (ha : a0.toNat < 2^255) (hT : 1 ≤ cfg.threads)
    (hM : 1 ≤ cfg.kStepsPerThread) {t j : Nat} (ht : t < cfg.threads)
    (hj : j < cfg.kStepsPerThread) :
    (device51 inv _ _ ok order perm).y (CudaEngine.startPoints cfg a0).val.1
        (CudaEngine.startPoints cfg a0).val.2 t j =
      canonBytes ((a0.toNat + 8 * (t + j * cfg.threads)) • basePoint).y := by
  obtain ⟨-, hstarts, hbig⟩ := (startPoints_ok cfg a0 hT).2
  obtain ⟨p, hp, hrep⟩ := hstarts t ht
  have hsteps := (threadSteps51_eq inv cfg.kStepsPerThread hp hrep hbig).trans
    (epochSteps_eq exactField_exact inv a0 hT hM ht)
  rw [Nat.mod_eq_of_lt ha] at hsteps
  unfold device51
  dsimp only
  rw [hsteps, List.lookup_graph _ (List.mem_reverse.mpr (List.mem_range.mpr hj)), Option.getD_some]

variable (cfg) in
/-- the machine words find what the candidates match -/
theorem device51_sees (h : Host) : SeesTrue h cfg (device51 inv _ _ ok order perm) := by
  intro draw i hi
  have hlt : (baseScalar h draw).toNat < 2^255 := (clamp_toNat _).2.2
  have hT : 1 ≤ cfg.threads := Nat.pos_of_mul_pos_right ((Nat.zero_le i).trans_lt hi)
  have hj : i / cfg.threads < cfg.kStepsPerThread := Nat.div_lt_of_lt_mul hi
  have hsplit : i % cfg.threads + i / cfg.threads * cfg.threads = i := by
    rw [Nat.mul_comm, Nat.mod_add_div]
  rw [seenPattern, device51_y inv ok order perm hlt hT ((Nat.zero_le _).trans_lt hj)
    (Nat.mod_lt i hT) hj, hsplit]
  rfl

end

/-! ## a run -/

/-- **A run of the GPU engine on the 51-bit field.**  Every push is a candidate of a harvested
launch with the first pattern that its true `y` matches; and a harvested launch with no more matches
than slots pushes all of them that have a public key. -/
theorem CudaEngine.run51_exact (inv : BatchInversion) (h : Host) (cfg : CudaConfig)
    (ok : Nat → Bool) (order : Nat → List (Nat × Nat))
    (perm : ∀ n, (order n).Perm (candidates cfg.threads cfg.kStepsPerThread))
    (s : CudaState kPipelineDepth) :
    let r := run h cfg (device51 inv _ _ ok order perm) s
    let size := cfg.threads * cfg.kStepsPerThread
    let first := firstPattern h cfg.patterns
    let scalar := fun draw i => scalarAdd8i (baseScalar h draw) i
    (∀ x ∈ hits r, (∃ d ∈ harvests r, x.draw = d.1) ∧ x.index < size ∧
      first x.draw x.index = some x.pattern ∧ x.scalar = scalar x.draw x.index ∧
      h.baseNoclamp x.scalar = some x.pubkey) ∧
    ∀ d ∈ harvests r, (List.range size).countP (fun i => (first d.1 i).isSome) ≤ kMaxHitSlots →
      ∀ i < size, ∀ p pk, first d.1 i = some p → h.baseNoclamp (scalar d.1 i) = some pk →
        ⟨d.1, i, scalar d.1 i, pk, p⟩ ∈ hits r := by
  intro r size first scalar
  obtain ⟨hsound, hcomplete⟩ := run_clean kPipelineDepth_ne s (fun _ _ => true)
    fun draw i hi _ => device51_sees cfg inv ok order perm h draw i hi
  constructor
  · intro x hx
    obtain ⟨hd, hi, hscalar, hk, hfirst⟩ := hsound x hx
    exact ⟨hd, hi, hfirst rfl, hscalar, hk⟩
  · intro d hd hfew i hi p pk hp hk
    refine hcomplete d hd ?_ i hi rfl p pk hp hk
    simpa only [Bool.not_true, Bool.or_false] using hfew

/-- launches of 128 candidates, against four letters -/
theorem CudaEngine.run51_exact_letters :
    let h := constHost 0
    let cfg : CudaConfig := ⟨letterPatterns.take 4, 8, 4, 16, by decide, by decide⟩
    let r := run h cfg (device51 .fusedCombo 8 16 (fun _ => true) (fun _ => candidates 8 16)
      fun _ => .refl _) (startCuda 9)
    (∀ x ∈ hits r, x.index < 128 ∧ firstPattern h cfg.patterns x.draw x.index = some x.pattern) ∧
    ∀ d ∈ harvests r, ∀ i < 128, ∀ p pk, firstPattern h cfg.patterns d.1 i = some p →
      h.baseNoclamp (scalarAdd8i (baseScalar h d.1) i) = some pk →
      ∃ x ∈ hits r, x.draw = d.1 ∧ x.index = i ∧ x.pattern = p ∧ x.pubkey = pk := by
  intro h cfg r
  obtain ⟨hsound, hcomplete⟩ := run51_exact .fusedCombo h cfg (fun _ => true)
    (fun _ => candidates 8 16) (fun _ => .refl _) (startCuda 9)
  constructor
  · intro x hx
    obtain ⟨-, hi, hfirst, -⟩ := hsound x hx
    exact ⟨hi, hfirst⟩
  · intro d hd i hi p pk hp hk
    have hfew := List.countP_le_length (l := List.range 128)
      (p := fun i => (firstPattern h cfg.patterns d.1 i).isSome)
    rw [List.length_range] at hfew
    exact ⟨_, hcomplete d hd (hfew.trans (by decide)) i hi p pk hp hk, rfl, rfl, rfl, rfl⟩

end Onion
