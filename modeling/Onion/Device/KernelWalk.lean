import Onion.Device.BatchInverse
import Onion.Engine.Found

/-!
# An epoch of the search kernel

The host sets up start points and the big step, thread `t` compares candidate `t + j*T` in step `j`,
and the host reconstructs its scalar from the recorded `(t, j)`.

* `startPoints_ok`     what `setup_epoch` uploads;
* `gedMadd_ok`, `iterate_ok`   the walk of a thread;
* `threadSteps_eq`     what a thread compares, with either inversion;
* `stride_bijOn`       `(t, j)` to `t + j*T` is a bijection;
* `matched_genuine`    a recorded hit leads back to the scalar that matched;
* `search_epoch`       all of it, for an epoch from any base scalar below `2^255`.
-/

namespace Onion
open Logged TwistedEdwards

/-! ## the upload -/

section
variable {a0 : Bytes 32}

/-- in round `t` of the loop over the start points -/
structure Starting (a T t : Nat) (s : CudaEngine.StartLoop) : Prop where
  len : s.starts.length = t
  starts : ∀ k < t, ∃ p, s.starts[k]? = some p ∧ Rep p (walkPoint a k)
  cur : Rep s.cur (walkPoint a t)
  bigstep : Rep s.bigstep ((min (t + 1) T * 8) • basePoint)

theorem startPoint_ok {cfg : CudaConfig} {a t : Nat} {step8b : GeCachedAffine}
    {s : CudaEngine.StartLoop} (h8 : AffineRep step8b (8 • basePoint)) (ht : t < cfg.threads)
    (hs : Starting a cfg.threads t s) :
    Ok (CudaEngine.startPoint cfg step8b t s) (Starting a cfg.threads (t + 1)) := by
  unfold CudaEngine.startPoint
  refine (geMadd_ok hs.cur h8).bind fun cur hcur => ?_
  rw [walkPoint_succ] at hcur
  have hstarts : ∀ k < t + 1, ∃ p, (s.starts ++ [s.cur])[k]? = some p ∧ Rep p (walkPoint a k) := by
    intro k hk
    by_cases hkt : k < t
    · rw [List.getElem?_append_left (hs.len.symm ▸ hkt)]
      exact hs.starts k hkt
    · have hkt : k = s.starts.length := hs.len ▸ (by omega : k = t)
      rw [hkt, List.getElem?_concat_length, hs.len]
      exact ⟨_, rfl, hs.cur⟩
  have hlen : (s.starts ++ [s.cur]).length = t + 1 := by
    rw [List.length_append, hs.len, List.length_singleton]
  have hb := hs.bigstep
  rw [min_eq_left (show t + 1 ≤ cfg.threads from ht)] at hb
  by_cases hlast : t + 1 < cfg.threads
  · rw [if_pos hlast]
    refine (geMadd_ok hb h8).bind fun big hbig => Holds.pure ⟨hlen, hstarts, hcur, ?_⟩
    rw [← add_smul, ← Nat.succ_mul] at hbig
    rw [min_eq_left (show t + 1 + 1 ≤ cfg.threads from hlast)]
    exact hbig
  · rw [if_neg hlast]
    refine Holds.bind (Q := fun big => Rep big (((t + 1) * 8) • basePoint)) (Holds.pure hb)
      fun big hbig => Holds.pure ⟨hlen, hstarts, hcur, ?_⟩
    rw [min_eq_right (show cfg.threads ≤ t + 1 + 1 by omega), show cfg.threads = t + 1 by omega]
    exact hbig

theorem eight_toNat : (Bytes.ofNat 32 8).toNat % 2^255 = 8 := by
  rw [Bytes.toNat_ofNat]
  norm_num

/-- **`setup_epoch`** uploads the points of the first candidates, and `T*8B`. -/
theorem startPoints_ok (cfg : CudaConfig) (a0 : Bytes 32) (hT : 1 ≤ cfg.threads) :
    Ok (CudaEngine.startPoints cfg a0) fun r => r.1.length = cfg.threads ∧
      (∀ t < cfg.threads, ∃ p, r.1[t]? = some p ∧ Rep p (walkPoint (a0.toNat % 2^255) t)) ∧
      AffineRep r.2 ((cfg.threads * 8) • basePoint) := by
  unfold CudaEngine.startPoints
  refine (geScalarmultBase_ok a0).bind fun A0 hA0 => ?_
  refine (geScalarmultBase_ok (Bytes.ofNat 32 8)).bind fun b hb => ?_
  rw [eight_toNat] at hb
  refine (geToCachedAffine_ok hb).bind fun step8b h8 => ?_
  have h0 : Starting (a0.toNat % 2^255) cfg.threads 0 ⟨[], A0, b⟩ := by
    refine ⟨rfl, fun k hk => absurd hk (Nat.not_lt_zero k), ?_, ?_⟩
    · rw [walkPoint]
      exact hA0
    · rw [min_eq_left (show 0 + 1 ≤ cfg.threads from hT)]
      exact hb
  refine (Holds.forUp (Starting (a0.toNat % 2^255) cfg.threads) cfg.threads h0
    fun t s ht hs => startPoint_ok h8 ht hs).bind fun s hs => ?_
  refine (geToCachedAffine_ok hs.bigstep).bind fun big hbig => Holds.pure ⟨hs.len, hs.starts, ?_⟩
  rwa [min_eq_right (Nat.le_succ _)] at hbig

end

/-! ## the walk of a thread -/

namespace DeviceField

section
variable {F : Type} {fd : DeviceField F} {val : F → Fp} (hfd : fd.Exact val)

def DevRep (val : F → Fp) (p : DevP3 F) (P : EdPoint) : Prop :=
  Represents (val p.X) (val p.Y) (val p.Z) (val p.T) P

structure DevAffineRep (val : F → Fp) (q : DevCachedAffine F) (Q : EdPoint) : Prop where
  yplusx : val q.YplusX = Q.y + Q.x
  yminusx : val q.YminusX = Q.y - Q.x
  t2d : val q.T2d = Q.x * Q.y * (2 * ed25519.d)

include hfd

theorem toDeviceFe_val {f : Fe} (hf : f.Bnd (2^54)) : val (fd.toDeviceFe f) = f.toFp := by
  have hb : (feToBytes f).val.toNat = f.toFp.val := (feToBytes_ok hf).2
  have hlt : f.toFp.val < 2^255 := by
    have h := ZMod.val_lt f.toFp
    have hp := p25519_add
    omega
  rw [toDeviceFe, hfd.fromBytes, hb, Nat.mod_eq_of_lt hlt, ZMod.natCast_zmod_val]

theorem toDeviceP3_rep {p : GeP3} {P : EdPoint} (hp : Rep p P) :
    DevRep val (fd.toDeviceP3 p) P := by
  show Represents (val (fd.toDeviceFe p.X)) (val (fd.toDeviceFe p.Y)) (val (fd.toDeviceFe p.Z))
    (val (fd.toDeviceFe p.T)) P
  rw [toDeviceFe_val hfd (hp.X.mono (by norm_num)), toDeviceFe_val hfd (hp.Y.mono (by norm_num)),
    toDeviceFe_val hfd (hp.Z.mono (by norm_num)), toDeviceFe_val hfd (hp.T.mono (by norm_num))]
  exact hp.rep

theorem toDeviceCached_rep {q : GeCachedAffine} {Q : EdPoint} (hq : AffineRep q Q) :
    DevAffineRep val (fd.toDeviceCached q) Q := by
  refine ⟨?_, ?_, ?_⟩
  · exact (toDeviceFe_val hfd (hq.yplusx.mono (by norm_num))).trans hq.yplusx_eq
  · exact (toDeviceFe_val hfd (hq.yminusx.mono (by norm_num))).trans hq.yminusx_eq
  · exact (toDeviceFe_val hfd (hq.t2d.mono (by norm_num))).trans hq.t2d_eq

theorem gedMadd_ok {p : DevP3 F} {q : DevCachedAffine F} {P Q : EdPoint} (hp : DevRep val p P)
    (hq : DevAffineRep val q Q) : DevRep val (fd.gedMadd p q) (P + Q) := by
  have h := Represents.madd hp Q
  rw [← hq.yplusx, ← hq.yminusx, ← hq.t2d] at h
  unfold DevRep gedMadd
  simp only [hfd.add, hfd.sub, hfd.mul]
  exact h

theorem iterate_ok {p : DevP3 F} {q : DevCachedAffine F} {P Q : EdPoint} (hp : DevRep val p P)
    (hq : DevAffineRep val q Q) (j : Nat) :
    DevRep val ((fd.pointWalk q).next^[j] p) (P + j • Q) := by
  induction j with
  | zero =>
    rw [zero_smul, add_zero]
    exact hp
  | succ j ih =>
    rw [Function.iterate_succ_apply', succ_nsmul, ← add_assoc]
    exact gedMadd_ok hfd ih hq

/-- **What a thread compares**: the `y` of every step, from the last to the first. -/
theorem threadSteps_eq (inv : BatchInversion) {M : Nat} (hM : 1 ≤ M) {starts : List GeP3}
    {bigstep : GeCachedAffine} {t : Nat} {p : GeP3} {P Q : EdPoint} (ht : starts[t]? = some p)
    (hp : Rep p P) (hQ : AffineRep bigstep Q) : fd.threadSteps inv M starts bigstep t =
      (List.range M).reverse.map fun j => (j, canonBytes (P + j • Q).y) := by
  have hrep : ∀ j, DevRep val ((fd.pointWalk (fd.toDeviceCached bigstep)).next^[j] (fd.toDeviceP3 p))
      (P + j • Q) := iterate_ok hfd (toDeviceP3_rep hfd hp) (toDeviceCached_rep hfd hQ)
  have hvals := steps_val hfd (fd.pointWalk (fd.toDeviceCached bigstep)) (fd.toDeviceP3 p) inv hM
    fun k _ => (hrep k).z_ne
  have hbytes : fd.toBytes = canonBytes ∘ val := funext hfd.toBytes
  rw [threadSteps, ht]
  show (fd.steps _ inv M _).map (Prod.map id fd.toBytes) = _
  rw [hbytes, show Prod.map id (canonBytes ∘ val) = Prod.map (@id Nat) canonBytes ∘ Prod.map id val
    from rfl, ← List.map_map, hvals, quotients, List.map_map]
  refine List.map_congr_left fun j _ => ?_
  exact congrArg (fun y => (j, canonBytes y)) (hrep j).div_z.2

end

end DeviceField

/-! ## the candidates -/

/-- the stride visits every candidate once -/
theorem stride_bijOn (T M : Nat) (hT : 1 ≤ T) : Set.BijOn (fun c : Nat × Nat => c.1 + c.2 * T)
    {c | c.1 < T ∧ c.2 < M} {i | i < T * M} := by
  refine ⟨?_, ?_, ?_⟩
  · rintro ⟨t, j⟩ ⟨ht, hj⟩
    show t + j * T < T * M
    calc t + j * T < T + j * T := Nat.add_lt_add_right ht _
      _ = (j + 1) * T := by rw [Nat.succ_mul, Nat.add_comm]
      _ ≤ M * T := Nat.mul_le_mul_right T hj
      _ = T * M := Nat.mul_comm M T
  · rintro ⟨t, j⟩ ⟨ht, -⟩ ⟨t', j'⟩ ⟨ht', -⟩ h
    have h : t + j * T = t' + j' * T := h
    have hmod := congrArg (· % T) h
    have hdiv := congrArg (· / T) h
    simp only [Nat.add_mul_mod_self_right, Nat.mod_eq_of_lt ht, Nat.mod_eq_of_lt ht'] at hmod
    simp only [Nat.add_mul_div_right _ _ hT, Nat.div_eq_of_lt ht, Nat.div_eq_of_lt ht',
      Nat.zero_add] at hdiv
    rw [hmod, hdiv]
  · intro i hi
    refine ⟨(i % T, i / T), ⟨Nat.mod_lt i hT, Nat.div_lt_of_lt_mul hi⟩, ?_⟩
    show i % T + i / T * T = i
    rw [Nat.mul_comm, Nat.mod_add_div]

/-! ## an epoch -/

section
variable {F : Type} {fd : DeviceField F} {val : F → Fp} (hfd : fd.Exact val) (inv : BatchInversion)
  {cfg : CudaConfig} (a0 : Bytes 32)

theorem walkPoint_stride (a T t j : Nat) :
    walkPoint a t + j • ((T * 8) • basePoint) = (a + 8 * (t + j * T)) • basePoint := by
  rw [walkPoint, ← mul_smul, ← add_smul]
  congr 1
  ring

include hfd in
theorem epochSteps_eq (hT : 1 ≤ cfg.threads) (hM : 1 ≤ cfg.kStepsPerThread) {t : Nat}
    (ht : t < cfg.threads) :
    let pts := (CudaEngine.startPoints cfg a0).val
    fd.threadSteps inv cfg.kStepsPerThread pts.1 pts.2 t =
      (List.range cfg.kStepsPerThread).reverse.map fun j =>
        (j, canonBytes ((a0.toNat % 2^255 + 8 * (t + j * cfg.threads)) • basePoint).y) := by
  intro pts
  obtain ⟨-, hstarts, hbig⟩ := (startPoints_ok cfg a0 hT).2
  obtain ⟨p, hp, hrep⟩ := hstarts t ht
  rw [DeviceField.threadSteps_eq hfd inv hM hp hrep hbig]
  simp only [walkPoint_stride]

/-- a hit of the walk from `a0`: a candidate of the launch, whose scalar the host reconstructs, and
the first pattern that the `y` of that scalar matches -/
structure Genuine (cfg : CudaConfig) (a0 : Bytes 32) (hit : HitSlot) : Prop where
  t_lt : hit.t < cfg.threads
  j_lt : hit.j < cfg.kStepsPerThread
  scalar : (scalarAdd8i a0 (CudaEngine.hitIndex cfg.threads hit)).toNat =
    a0.toNat + 8 * (hit.t + hit.j * cfg.threads)
  first : (cfg.patterns.findIdx? fun pat => matchesPubkey pat
      (canonBytes ((a0.toNat + 8 * (hit.t + hit.j * cfg.threads)) • basePoint).y)) =
    some hit.patternIndex

/-- indices up to `2^61` are reconstructed without a wrap -/
theorem hitIndex_scalar (ha : a0.toNat < 2^255) {hit : HitSlot}
    (hlt : hit.t + hit.j * cfg.threads < 2^61) :
    (scalarAdd8i a0 (CudaEngine.hitIndex cfg.threads hit)).toNat =
      a0.toNat + 8 * (hit.t + hit.j * cfg.threads) := by
  have hmod : CudaEngine.hitIndex cfg.threads hit = hit.t + hit.j * cfg.threads :=
    Nat.mod_eq_of_lt (by omega)
  rw [scalarAdd8i_toNat, hmod]
  omega

variable (ok : Nat → Bool) (order : Nat → List (Nat × Nat))
  (perm : ∀ n, (order n).Perm (candidates cfg.threads cfg.kStepsPerThread))

include hfd in
/-- the matches of a launch are genuine -/
theorem matched_genuine (ha : a0.toNat < 2^255) (hT : 1 ≤ cfg.threads)
    (hM : 1 ≤ cfg.kStepsPerThread) (hlt : cfg.threads * cfg.kStepsPerThread ≤ 2^61) (n : Nat)
    {hit : HitSlot} (hm : hit ∈ matched (kernelDevice fd inv _ _ ok order perm) cfg.patterns
      (CudaEngine.startPoints cfg a0).val.1 (CudaEngine.startPoints cfg a0).val.2 n) :
    Genuine cfg a0 hit := by
  obtain ⟨c, hc, hf⟩ := List.mem_filterMap.mp hm
  obtain ⟨ht, hj⟩ := CudaEngine.mem_candidates.mp ((perm n).mem_iff.mp hc)
  obtain ⟨p, hp, rfl⟩ := Option.map_eq_some_iff.mp hf
  have hlt' : c.1 + c.2 * cfg.threads < 2^61 :=
    ((stride_bijOn _ _ hT).mapsTo (show c ∈ {c : Nat × Nat | _} from ⟨ht, hj⟩)).trans_le hlt
  refine ⟨ht, hj, hitIndex_scalar a0 ha hlt', ?_⟩
  have hsteps := epochSteps_eq hfd inv a0 hT hM ht
  have hy : (kernelDevice fd inv _ _ ok order perm).y (CudaEngine.startPoints cfg a0).val.1
      (CudaEngine.startPoints cfg a0).val.2 c.1 c.2 =
        canonBytes ((a0.toNat % 2^255 + 8 * (c.1 + c.2 * cfg.threads)) • basePoint).y := by
    show (List.lookup c.2 (fd.threadSteps _ _ _ _ _)).getD _ = _
    rw [hsteps, List.lookup_graph _ (List.mem_reverse.mpr (List.mem_range.mpr hj))]
    rfl
  rw [hy, Nat.mod_eq_of_lt ha] at hp
  exact hp

variable (cfg) in
include hfd in
/-- **An epoch from any base scalar below `2^255`.**  The threads compare the `y` of the candidates
`t + j*T`, each candidate once; and whenever the slot is drained after its launch, every recorded
hit leads back to the scalar whose `y` matched, with the first pattern that it matched. -/
theorem search_epoch (h : Host) (ha : a0.toNat < 2^255) (hT : 1 ≤ cfg.threads)
    (hM : 1 ≤ cfg.kStepsPerThread) (hlt : cfg.threads * cfg.kStepsPerThread ≤ 2^61) {depth : Nat}
    (slot : Fin depth) (draw : Nat) (s t : CudaState depth) :
    let dev := kernelDevice fd inv cfg.threads cfg.kStepsPerThread ok order perm
    let pts := (CudaEngine.startPoints cfg a0).val
    let setup := (CudaEngine.setupEpoch cfg dev slot draw a0 s).val
    let launch := CudaEngine.launchEpoch cfg dev slot setup.2
    let scalar := fun hit => scalarAdd8i a0 (CudaEngine.hitIndex cfg.threads hit)
    (∀ u < cfg.threads, fd.threadSteps inv cfg.kStepsPerThread pts.1 pts.2 u =
      (List.range cfg.kStepsPerThread).reverse.map fun j =>
        (j, canonBytes ((a0.toNat + 8 * (u + j * cfg.threads)) • basePoint).y)) ∧
    Set.BijOn (fun c : Nat × Nat => c.1 + c.2 * cfg.threads)
      {c | c.1 < cfg.threads ∧ c.2 < cfg.kStepsPerThread}
      {i | i < cfg.threads * cfg.kStepsPerThread} ∧
    (setup.1 = true → launch.1 = true → t.slots[slot] = launch.2.slots[slot] →
      let recorded := CudaEngine.recorded t.slots[slot]
      let drain := CudaEngine.drainEpoch h cfg dev slot t
      (∀ hit ∈ recorded, Genuine cfg a0 hit) ∧
      (drain.val.1 = true → hits drain = recorded.filterMap fun hit =>
        (h.baseNoclamp (scalar hit)).map fun pk =>
          ⟨draw, CudaEngine.hitIndex cfg.threads hit, scalar hit, pk, hit.patternIndex⟩)) := by
  intro dev pts setup launch scalar
  refine ⟨fun u hu => ?_, stride_bijOn _ _ hT, fun hsetup hlaunch hslot => ?_⟩
  · have hsteps := epochSteps_eq hfd inv a0 hT hM hu
    rwa [Nat.mod_eq_of_lt ha] at hsteps
  obtain ⟨hdraw, ha0, hpts, hzero⟩ := CudaEngine.setupEpoch_slot hsetup
  obtain ⟨n, hx⟩ := CudaEngine.launchEpoch_slot hlaunch
  have hx : t.slots[slot] = _ := hslot.trans hx
  have hrecords := searchKernel_records dev cfg.patterns setup.2.slots[slot].starts
    setup.2.slots[slot].bigstep n hzero
  intro recorded drain
  refine ⟨fun hit hhit => ?_, fun hok => ?_⟩
  · have hrec : recorded = (matched dev cfg.patterns setup.2.slots[slot].starts
        setup.2.slots[slot].bigstep n).take kMaxHitSlots := by
      show CudaEngine.recorded t.slots[slot] = _
      rw [hx]
      exact CudaEngine.recorded_eq hrecords rfl
    rw [hrec] at hhit
    have hm := List.mem_of_mem_take hhit
    rw [(Prod.mk.inj hpts).1, (Prod.mk.inj hpts).2] at hm
    exact matched_genuine hfd inv a0 ok order perm ha hT hM hlt n hm
  · have hscalar : CudaEngine.recordedHit h cfg t.slots[slot] = fun hit =>
        (h.baseNoclamp (scalar hit)).map fun pk =>
          ⟨draw, CudaEngine.hitIndex cfg.threads hit, scalar hit, pk, hit.patternIndex⟩ := by
      funext hit
      have hslotA0 : t.slots[slot].slotA0 = a0 := by
        rw [hx]
        exact ha0
      have hslotDraw : t.slots[slot].draw = draw := by
        rw [hx]
        exact hdraw
      rw [CudaEngine.recordedHit, hslotA0, hslotDraw]
    rw [← hscalar]
    exact CudaEngine.drainEpoch_ok hok

end

def exactField : DeviceField Fp where
  add := (· + ·)
  sub := (· - ·)
  mul := (· * ·)
  sq a := a * a
  fromBytes b := ((b.toNat % 2^255 : Nat) : Fp)
  toBytes := canonBytes

theorem exactField_exact : exactField.Exact id :=
  ⟨fun _ _ => rfl, fun _ _ => rfl, fun _ _ => rfl, fun _ => rfl, fun _ => rfl, fun _ => rfl⟩

/-- an epoch of 8 threads and 16 steps from `2^254` -/
theorem search_epoch_exact :
    let cfg : CudaConfig := ⟨letterPatterns, 8, 4, 16, by decide, by decide⟩
    let a0 := Bytes.ofNat 32 (2^254)
    let dev := kernelDevice exactField .fusedCombo 8 16 (fun _ => true) (fun _ => candidates 8 16)
      fun _ => .refl _
    let setup := (CudaEngine.setupEpoch cfg dev 0 0 a0 (startCuda 9)).val
    let launch := CudaEngine.launchEpoch cfg dev 0 setup.2
    (∀ u < 8, exactField.threadSteps .fusedCombo 16 (CudaEngine.startPoints cfg a0).val.1
      (CudaEngine.startPoints cfg a0).val.2 u = (List.range 16).reverse.map fun j =>
        (j, canonBytes ((a0.toNat + 8 * (u + j * 8)) • basePoint).y)) ∧
    ∀ hit ∈ CudaEngine.recorded launch.2.slots[(0 : Fin kPipelineDepth)], Genuine cfg a0 hit := by
  intro cfg a0 dev setup launch
  have ha : a0.toNat < 2^255 := by
    rw [Bytes.toNat_ofNat]
    norm_num
  obtain ⟨hsteps, -, hdrain⟩ := search_epoch exactField_exact .fusedCombo cfg a0
    (fun _ => true) (fun _ => candidates 8 16) (fun _ => .refl _) (constHost 0) ha (by decide)
    (by decide) (by norm_num [cfg]) (0 : Fin kPipelineDepth) 0 (startCuda 9) launch.2
  exact ⟨hsteps, (hdrain rfl rfl rfl).1⟩
end Onion
