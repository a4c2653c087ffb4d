import Onion.Device.FieldBytes
import Onion.Device.Genuine
import Onion.Device.Related

/-!
# The kernel with the 32-bit field

`device_field32.cuh` is wrong in a few corners.  A second backend computes the same representatives
as numbers, and keeps for each whether every operation behind it was in its range; the kernel runs
on both alike, and where the record is clean it has the elements of the exact field.

* `Tracked`, `tracked`   representatives with their record;
* `OpsRelated`           two backends whose operations keep a relation;
* `words_related`        `device_field32.cuh` computes the representatives;
* `clean_related`        clean representatives stand for the elements of the exact field;
* `run32_exact`          a run of the GPU engine on `device_field32.cuh`.
-/

namespace Onion
open Logged

/-! ## representatives -/

/-- a representative below `2^256`, and whether the operations behind it were in range -/
structure Tracked where
  rep : Nat
  clean : Bool

namespace Tracked

/-- two folds, and then the carry as it is -/
def mul (a b : Tracked) : Tracked where
  rep := foldHigh (foldHigh (a.rep * b.rep)) % 2^256 + foldHigh (foldHigh (a.rep * b.rep)) / 2^256
  clean := a.clean && b.clean && decide (foldHigh (foldHigh (a.rep * b.rep)) / 2^256 = 0)

/-- one fold, whose carry is dropped -/
def add (a b : Tracked) : Tracked where
  rep := foldHigh (a.rep + b.rep) % 2^256
  clean := a.clean && b.clean && decide (a.rep + b.rep < 2^257 - 38)

/-- `a + 2p - b`, with the top word folded by `38` whatever its sign is -/
def sub (a b : Tracked) : Tracked where
  rep := a.rep + (if b.rep + 38 ≤ a.rep then 0 else
    if b.rep ≤ a.rep + (2^256 - 38) then 2^256 - 38 else 2^256) - b.rep
  clean := a.clean && b.clean && decide (b.rep ≤ a.rep + (2^256 - 38))

end Tracked

/-- the backend of representatives -/
def tracked : DeviceField Tracked where
  add := Tracked.add
  sub := Tracked.sub
  mul := Tracked.mul
  sq a := Tracked.mul a a
  fromBytes b := ⟨b.toNat % 2^255, true⟩
  toBytes a := Bytes.ofNat 32 (a.rep % P25519)

/-! ## backends whose operations keep a relation -/

namespace DeviceField
variable {F G : Type} {fd : DeviceField F} {gd : DeviceField G} {R : F → G → Prop}

/-- the operations of two backends keep `R` -/
structure OpsRelated (fd : DeviceField F) (gd : DeviceField G) (R : F → G → Prop) : Prop where
  add : ∀ {a b c d}, R a b → R c d → R (fd.add a c) (gd.add b d)
  sub : ∀ {a b c d}, R a b → R c d → R (fd.sub a c) (gd.sub b d)
  mul : ∀ {a b c d}, R a b → R c d → R (fd.mul a c) (gd.mul b d)
  sq : ∀ {a b}, R a b → R (fd.sq a) (gd.sq b)
  fromBytes : ∀ b, R (fd.fromBytes b) (gd.fromBytes b)

structure PointRelated (R : F → G → Prop) (p : DevP3 F) (q : DevP3 G) : Prop where
  X : R p.X q.X
  Y : R p.Y q.Y
  Z : R p.Z q.Z
  T : R p.T q.T

structure AddendRelated (R : F → G → Prop) (p : DevCachedAffine F) (q : DevCachedAffine G) :
    Prop where
  yplusx : R p.YplusX q.YplusX
  yminusx : R p.YminusX q.YminusX
  t2d : R p.T2d q.T2d

/-- what thread `t` has at the end of its steps, before it is written out -/
def elements (fd : DeviceField F) (inv : BatchInversion) (M : Nat) (starts : List GeP3)
    (bigstep : GeCachedAffine) (t : Nat) : List (Nat × F) :=
  match starts[t]? with
  | none => []
  | some p => fd.steps (fd.pointWalk (fd.toDeviceCached bigstep)) inv M (fd.toDeviceP3 p)

theorem threadSteps_elements (inv : BatchInversion) (M : Nat) (starts : List GeP3)
    (bigstep : GeCachedAffine) (t : Nat) :
    fd.threadSteps inv M starts bigstep t =
      (fd.elements inv M starts bigstep t).map (Prod.map id fd.toBytes) := by
  rw [threadSteps, elements]
  cases starts[t]? with
  | none => rfl
  | some p => rfl

section
variable (h : OpsRelated fd gd R)
include h

theorem OpsRelated.muls : MulRelated fd gd R := ⟨h.fromBytes _, h.mul, h.sq⟩

theorem madd_related {p : DevP3 F} {p' : DevP3 G} {q : DevCachedAffine F} {q' : DevCachedAffine G}
    (hp : PointRelated R p p') (hq : AddendRelated R q q') :
    PointRelated R (fd.gedMadd p q) (gd.gedMadd p' q') := by
  have ha := h.mul (h.sub hp.Y hp.X) hq.yminusx
  have hb := h.mul (h.add hp.Y hp.X) hq.yplusx
  have hc := h.mul hq.t2d hp.T
  have hd := h.add hp.Z hp.Z
  have he := h.sub hb ha
  have hf := h.sub hd hc
  have hg := h.add hd hc
  have hh := h.add hb ha
  unfold gedMadd
  exact ⟨h.mul he hf, h.mul hg hh, h.mul hf hg, h.mul he hh⟩

theorem toDeviceP3_ops (p : GeP3) : PointRelated R (fd.toDeviceP3 p) (gd.toDeviceP3 p) :=
  ⟨h.fromBytes _, h.fromBytes _, h.fromBytes _, h.fromBytes _⟩

theorem pointWalk_ops (q : GeCachedAffine) : WalkRelated (fd.pointWalk (fd.toDeviceCached q))
    (gd.pointWalk (gd.toDeviceCached q)) R (PointRelated R) where
  Y hp := hp.Y
  Z hp := hp.Z
  next hp := madd_related h hp ⟨h.fromBytes _, h.fromBytes _, h.fromBytes _⟩

theorem elements_related (inv : BatchInversion) (M : Nat) (starts : List GeP3)
    (bigstep : GeCachedAffine) (t : Nat) : List.Forall₂ (Same R)
      (fd.elements inv M starts bigstep t) (gd.elements inv M starts bigstep t) := by
  rw [elements, elements]
  cases starts[t]? with
  | none => exact List.Forall₂.nil
  | some p => exact steps_related h.muls (pointWalk_ops h bigstep) inv M (toDeviceP3_ops h p)

end

theorem lookup_related {l₁ : List (Nat × F)} {l₂ : List (Nat × G)}
    (h : List.Forall₂ (Same R) l₁ l₂) (j : Nat) : Option.Rel R (l₁.lookup j) (l₂.lookup j) := by
  induction h with
  | nil => exact Option.Rel.none
  | cons hab _ ih =>
    obtain ⟨hkey, hval⟩ := hab
    rw [List.lookup_cons, List.lookup_cons, hkey]
    split
    · exact Option.Rel.some hval
    · exact ih

theorem lookup_map {α β : Type} (f : α → β) (l : List (Nat × α)) (j : Nat) :
    (l.map (Prod.map id f)).lookup j = (l.lookup j).map f := by
  induction l with
  | nil => rfl
  | cons a l ih =>
    rw [List.map_cons, List.lookup_cons, List.lookup_cons, ih]
    dsimp only [Prod.map, id]
    split <;> rfl

end DeviceField

/-! ## the words compute the representatives -/

def Represented (w : Fe32) (t : Tracked) : Prop := w.val = t.rep

theorem words_related : DeviceField.OpsRelated field32 tracked Represented where
  add {a b c d} ha hc := by
    unfold Represented at ha hc ⊢
    unfold field32 tracked Tracked.add
    dsimp only
    rw [fedAdd_val, ha, hc]
  sub {a b c d} ha hc := by
    have hval := fedSub_val a c
    unfold Represented at ha hc ⊢
    unfold field32 tracked Tracked.sub
    dsimp only
    rw [ha, hc] at hval
    exact Nat.eq_sub_of_add_eq hval
  mul {a b c d} ha hc := by
    unfold Represented at ha hc ⊢
    unfold field32 tracked Tracked.mul
    dsimp only
    rw [fedMul, reduceWide_val, wideMul_val, ha, hc]
  sq {a b} ha := by
    unfold Represented at ha ⊢
    unfold field32 tracked Tracked.mul
    dsimp only
    rw [fedSq, fedMul, reduceWide_val, wideMul_val, ha]
  fromBytes b := by
    unfold Represented field32 tracked
    dsimp only
    rw [fedFromBytes_val]

/-! ## clean representatives are exact -/

/-- a clean representative stands for `v` -/
def Stands (t : Tracked) (v : Fp) : Prop := t.clean = true → ((t.rep : Nat) : Fp) = v

theorem fp_twoP : ((2^256 - 38 : ℕ) : Fp) = 0 := by
  rw [show 2^256 - 38 = P25519 * 2 from rfl, Nat.cast_mul, ZMod.natCast_self, zero_mul]

theorem Tracked.mul_stands {a b : Tracked} {u v : Fp} (ha : Stands a u) (hb : Stands b v) :
    Stands (a.mul b) (u * v) := by
  intro hclean
  unfold Tracked.mul at hclean ⊢
  dsimp only at hclean ⊢
  rw [Bool.and_eq_true, Bool.and_eq_true, decide_eq_true_eq] at hclean
  obtain ⟨⟨hca, hcb⟩, hfold⟩ := hclean
  rw [hfold, Nat.add_zero, Nat.mod_eq_of_lt (Nat.lt_of_div_eq_zero (Nat.two_pow_pos 256) hfold),
    fp_foldHigh, fp_foldHigh, Nat.cast_mul, ha hca, hb hcb]

theorem Tracked.add_stands {a b : Tracked} {u v : Fp} (ha : Stands a u) (hb : Stands b v) :
    Stands (a.add b) (u + v) := by
  intro hclean
  unfold Tracked.add at hclean ⊢
  dsimp only at hclean ⊢
  rw [Bool.and_eq_true, Bool.and_eq_true, decide_eq_true_eq] at hclean
  obtain ⟨⟨hca, hcb⟩, hsum⟩ := hclean
  have hlt : foldHigh (a.rep + b.rep) < 2^256 := by
    rw [foldHigh]
    omega
  rw [Nat.mod_eq_of_lt hlt, fp_foldHigh, Nat.cast_add, ha hca, hb hcb]

theorem Tracked.sub_stands {a b : Tracked} {u v : Fp} (ha : Stands a u) (hb : Stands b v) :
    Stands (a.sub b) (u - v) := by
  intro hclean
  unfold Tracked.sub at hclean ⊢
  dsimp only at hclean ⊢
  rw [Bool.and_eq_true, Bool.and_eq_true, decide_eq_true_eq] at hclean
  obtain ⟨⟨hca, hcb⟩, hle⟩ := hclean
  rw [if_pos hle, eq_sub_iff_add_eq, ← ha hca, ← hb hcb, ← Nat.cast_add]
  by_cases h : b.rep + 38 ≤ a.rep
  · rw [if_pos h, Nat.add_zero, Nat.sub_add_cancel (by omega)]
  · rw [if_neg h, Nat.sub_add_cancel hle, Nat.cast_add, fp_twoP, add_zero]

theorem clean_related : DeviceField.OpsRelated tracked exactField Stands where
  add ha hc := Tracked.add_stands ha hc
  sub ha hc := Tracked.sub_stands ha hc
  mul ha hc := Tracked.mul_stands ha hc
  sq ha := Tracked.mul_stands ha ha
  fromBytes _ := fun _ => rfl

theorem toBytes32 {w : Fe32} {t : Tracked} {v : Fp} (hw : Represented w t) (ht : Stands t v)
    (hclean : t.clean = true) : field32.toBytes w = exactField.toBytes v := by
  unfold field32 exactField
  refine Bytes.toNat_inj ?_
  dsimp only
  rw [fedToBytes_toNat, canonBytes_toNat, ← ht hclean, ZMod.val_natCast]
  exact congrArg (· % P25519) hw

/-! ## a launch -/

/-- whether every operation behind candidate `i` of the launch from draw `draw` is in range -/
def cleanCandidate (inv : BatchInversion) (h : Host) (cfg : CudaConfig) (draw i : Nat) : Bool :=
  let pts := (CudaEngine.startPoints cfg (baseScalar h draw)).val
  ((tracked.elements inv cfg.kStepsPerThread pts.1 pts.2 (i % cfg.threads)).lookup
    (i / cfg.threads)).any Tracked.clean

section
variable {cfg : CudaConfig} (inv : BatchInversion) (ok : Nat → Bool)
  (order : Nat → List (Nat × Nat))
  (perm : ∀ n, (order n).Perm (candidates cfg.threads cfg.kStepsPerThread))

/-- a step with a clean record is written as the exact field writes it -/
theorem threadSteps32_lookup {M : Nat} {starts : List GeP3} {bigstep : GeCachedAffine} {t j : Nat}
    (hclean : ((tracked.elements inv M starts bigstep t).lookup j).any Tracked.clean = true) :
    (field32.threadSteps inv M starts bigstep t).lookup j =
      (exactField.threadSteps inv M starts bigstep t).lookup j := by
  have hwords := DeviceField.lookup_related
    (DeviceField.elements_related words_related inv M starts bigstep t) j
  have hstands := DeviceField.lookup_related
    (DeviceField.elements_related clean_related inv M starts bigstep t) j
  rw [DeviceField.threadSteps_elements, DeviceField.threadSteps_elements,
    DeviceField.lookup_map, DeviceField.lookup_map]
  generalize (tracked.elements inv M starts bigstep t).lookup j = tr at *
  generalize (field32.elements inv M starts bigstep t).lookup j = w at *
  generalize (exactField.elements inv M starts bigstep t).lookup j = v at *
  cases hwords with
  | none => cases hclean
  | some hw =>
    cases hstands with
    | some hv => exact congrArg some (toBytes32 hw hv hclean)

/-- a clean candidate is found as it is -/
theorem device32_seen (h : Host) {draw i : Nat} (hi : i < cfg.threads * cfg.kStepsPerThread)
    (hclean : cleanCandidate inv h cfg draw i = true) :
    seenPattern h cfg (kernelDevice field32 inv _ _ ok order perm) draw i =
      firstPattern h cfg.patterns draw i := by
  have hlt : (baseScalar h draw).toNat < 2^255 := (clamp_toNat _).2.2
  have hT : 1 ≤ cfg.threads := Nat.pos_of_mul_pos_right ((Nat.zero_le i).trans_lt hi)
  have hj : i / cfg.threads < cfg.kStepsPerThread := Nat.div_lt_of_lt_mul hi
  have hM : 1 ≤ cfg.kStepsPerThread := (Nat.zero_le _).trans_lt hj
  have hsplit : i % cfg.threads + i / cfg.threads * cfg.threads = i := by
    rw [Nat.mul_comm, Nat.mod_add_div]
  have hsteps := epochSteps_eq exactField_exact inv (baseScalar h draw) hT hM (Nat.mod_lt i hT)
  have hlookup := threadSteps32_lookup inv hclean
  rw [hsteps, List.lookup_graph _ (List.mem_reverse.mpr (List.mem_range.mpr hj)), hsplit,
    Nat.mod_eq_of_lt hlt] at hlookup
  unfold seenPattern kernelDevice
  dsimp only
  rw [hlookup, Option.getD_some]
  rfl

end

/-! ## a run -/

/-- **A run of the GPU engine on the 32-bit field**, whatever its corners do.  Every push has the
scalar and the key of a candidate of a harvested launch, and its true first pattern if the candidate is
clean; and a harvested launch in which the matches and the candidates that are not clean fit in the
slots pushes every clean match that has a public key. -/
theorem CudaEngine.run32_exact (inv : BatchInversion) (h : Host) (cfg : CudaConfig)
    (ok : Nat → Bool) (order : Nat → List (Nat × Nat))
    (perm : ∀ n, (order n).Perm (candidates cfg.threads cfg.kStepsPerThread))
    (s : CudaState kPipelineDepth) :
    let r := run h cfg (kernelDevice field32 inv _ _ ok order perm) s
    let size := cfg.threads * cfg.kStepsPerThread
    let first := firstPattern h cfg.patterns
    let clean := cleanCandidate inv h cfg
    let scalar := fun draw i => scalarAdd8i (baseScalar h draw) i
    (∀ x ∈ hits r, (∃ d ∈ harvests r, x.draw = d.1) ∧ x.index < size ∧
      x.scalar = scalar x.draw x.index ∧ h.baseNoclamp x.scalar = some x.pubkey ∧
      (clean x.draw x.index = true → first x.draw x.index = some x.pattern)) ∧
    ∀ d ∈ harvests r,
      (List.range size).countP (fun i => (first d.1 i).isSome || !clean d.1 i) ≤ kMaxHitSlots →
      ∀ i < size, clean d.1 i = true → ∀ p pk, first d.1 i = some p →
        h.baseNoclamp (scalar d.1 i) = some pk → ⟨d.1, i, scalar d.1 i, pk, p⟩ ∈ hits r :=
  run_clean kPipelineDepth_ne s (cleanCandidate inv h cfg)
    fun _ _ hi hclean => device32_seen inv ok order perm h hi hclean

/-- launches of 128 candidates, against four letters -/
theorem CudaEngine.run32_exact_letters :
    let h := constHost 0
    let cfg : CudaConfig := ⟨letterPatterns.take 4, 8, 4, 16, by decide, by decide⟩
    let r := run h cfg (kernelDevice field32 .fusedCombo 8 16 (fun _ => true)
      (fun _ => candidates 8 16) fun _ => .refl _) (startCuda 9)
    (∀ x ∈ hits r, x.index < 128 ∧ (cleanCandidate .fusedCombo h cfg x.draw x.index = true →
      firstPattern h cfg.patterns x.draw x.index = some x.pattern)) ∧
    ∀ d ∈ harvests r, ∀ i < 128, cleanCandidate .fusedCombo h cfg d.1 i = true →
      ∀ p pk, firstPattern h cfg.patterns d.1 i = some p →
        h.baseNoclamp (scalarAdd8i (baseScalar h d.1) i) = some pk →
        ∃ x ∈ hits r, x.draw = d.1 ∧ x.index = i ∧ x.pattern = p ∧ x.pubkey = pk := by
  intro h cfg r
  obtain ⟨hsound, hcomplete⟩ := run32_exact .fusedCombo h cfg (fun _ => true)
    (fun _ => candidates 8 16) (fun _ => .refl _) (startCuda 9)
  constructor
  · intro x hx
    obtain ⟨-, hi, -, -, hfirst⟩ := hsound x hx
    exact ⟨hi, hfirst⟩
  · intro d hd i hi hc p pk hp hk
    have hfew := List.countP_le_length (l := List.range 128) (p := fun i =>
      (firstPattern h cfg.patterns d.1 i).isSome || !cleanCandidate .fusedCombo h cfg d.1 i)
    rw [List.length_range] at hfew
    exact ⟨_, hcomplete d hd (hfew.trans (by decide)) i hi hc p pk hp hk, rfl, rfl, rfl, rfl⟩

/-- two steps from the base point -/
example : ((tracked.elements .fusedCombo 2 [geBasepoint.val] (geToCachedAffine geBasepoint.val).val
    0).all fun e => e.2.clean) = true := by decide +kernel

end Onion
