import Onion.Crypto.Ge25519
import Onion.Crypto.FeInvert
import Onion.Lib.Extended

/-!
# The point routines compute the group

* `Rep p P`            the coordinates of `p` stand for the point `P`, every limb at most `2^51`;
* `geAdd_ok`, `geMadd_ok`, `geDouble_ok`   the formulas, for all points without exception;
* `GeP3.Valid`, `ge_complete`   the same by the coordinates of the points alone;
* `geScalarmultBase_ok`   double-and-add multiplies the base point by the low 255 bits;
* `geEncode_ok`        the 32-byte encoding.
-/

namespace Onion
open Logged TwistedEdwards

/-! ## the base point -/

def baseX : Nat := 15112221349535400772501151409588531511454012693041857206046113283949847762202
def baseY : Nat := 46316835694926478169428394003475163141307993866256225615783033603165251855960

/-- the base point: `y = 4/5`, `x` even -/
def basePoint : EdPoint where
  x := (baseX : Fp)
  y := (baseY : Fp)
  on := by
    have h : ((baseY^2 : ℕ) : Fp) = ((1 + 37095705934669439343138083508754565189542113879843219016388785533085940283555
        * baseX^2 * baseY^2 + baseX^2 : ℕ) : Fp) := (fp_eq_iff _ _).mpr (by decide +kernel)
    have hd : ed25519.d = ((37095705934669439343138083508754565189542113879843219016388785533085940283555 : ℕ) : Fp) := rfl
    rw [hd]
    push_cast at h ⊢
    linear_combination h

/-! ## representations -/

/-- `p` stands for the point `P`, with reduced limbs -/
structure Rep (p : GeP3) (P : EdPoint) : Prop where
  X : p.X.Bnd (2^51)
  Y : p.Y.Bnd (2^51)
  Z : p.Z.Bnd (2^51)
  T : p.T.Bnd (2^51)
  rep : Represents p.X.toFp p.Y.toFp p.Z.toFp p.T.toFp P

theorem Rep.good {p : GeP3} {P : EdPoint} (h : Rep p P) : (Event.point p).Good :=
  ⟨h.X, h.Y, h.Z, h.T⟩

/-- `q` caches the point `Q` -/
structure CachedRep (q : GeCached) (Q : EdPoint) : Prop where
  yplusx : q.YplusX.Bnd (2^52)
  yminusx : q.YminusX.Bnd (2^51)
  z : q.Z.Bnd (2^51)
  t2d : q.T2d.Bnd (2^51)
  rep : ∃ X Y T, Represents X Y q.Z.toFp T Q ∧ q.YplusX.toFp = Y + X ∧ q.YminusX.toFp = Y - X ∧
    q.T2d.toFp = T * (2 * ed25519.d)

/-- `q` caches the affine coordinates of `Q` -/
structure AffineRep (q : GeCachedAffine) (Q : EdPoint) : Prop where
  yplusx : q.YplusX.Bnd (2^52)
  yminusx : q.YminusX.Bnd (2^51)
  t2d : q.T2d.Bnd (2^51)
  yplusx_eq : q.YplusX.toFp = Q.y + Q.x
  yminusx_eq : q.YminusX.toFp = Q.y - Q.x
  t2d_eq : q.T2d.toFp = Q.x * Q.y * (2 * ed25519.d)

theorem ok_made {p : GeP3} {P : EdPoint} (h : Rep p P) : Ok (made p) fun r => Rep r P := by
  refine ⟨fun e he => ?_, h⟩
  rw [List.mem_singleton.mp he]
  exact h.good

theorem Fe.bnd_iff (f : Fe) (B : Nat) :
    f.Bnd B ↔ f.v0 ≤ B ∧ f.v1 ≤ B ∧ f.v2 ≤ B ∧ f.v3 ≤ B ∧ f.v4 ≤ B :=
  ⟨fun ⟨a, b, c, d, e⟩ => ⟨a, b, c, d, e⟩, fun ⟨a, b, c, d, e⟩ => ⟨a, b, c, d, e⟩⟩

instance (f : Fe) (B : Nat) : Decidable (f.Bnd B) := decidable_of_iff' _ (f.bnd_iff B)

theorem kD2_bnd : kD2.Bnd (2^51) := by decide

theorem kD2_eq : kD2.toFp = 2 * ed25519.d := by
  have h : ((kD2.val : ℕ) : Fp) = ((2 * 37095705934669439343138083508754565189542113879843219016388785533085940283555 : ℕ) : Fp) :=
    (fp_eq_iff _ _).mpr (by decide +kernel)
  rw [Nat.cast_mul] at h
  exact h

theorem geBasepoint_ok : Ok geBasepoint fun r => Rep r basePoint := by
  refine ok_made ⟨by decide, by decide, by decide, by decide, ?_⟩
  have hx : Fe.toFp ⟨0x62d608f25d51a, 0x412a4b4f6592a, 0x75b7171a4b31d, 0x1ff60527118fe,
      0x216936d3cd6e5⟩ = basePoint.x := (fp_eq_iff _ _).mpr (by decide +kernel)
  have hy : Fe.toFp ⟨0x6666666666658, 0x4cccccccccccc, 0x1999999999999, 0x3333333333333,
      0x6666666666666⟩ = basePoint.y := (fp_eq_iff _ _).mpr (by decide +kernel)
  have hz : Fe.toFp ⟨1, 0, 0, 0, 0⟩ = 1 := Nat.cast_one
  have ht : Fe.toFp ⟨0x68ab3a5b7dda3, 0x0eea2a5eadbb, 0x2af8df483c27e, 0x332b375274732,
      0x67875f0fd78b7⟩ = basePoint.x * basePoint.y := by
    show ((_ : ℕ) : Fp) = ((baseX : ℕ) : Fp) * ((baseY : ℕ) : Fp)
    rw [← Nat.cast_mul]
    exact (fp_eq_iff _ _).mpr (by decide +kernel)
  simp only [hx, hy, hz, ht]
  exact Represents.affine basePoint

/-! ## cached addends -/

section
variable {p : GeP3} {P Q : EdPoint}

theorem geToCached_ok (hp : Rep p P) : Ok (geToCached p) fun r => CachedRep r P := by
  unfold geToCached
  refine (feAdd_ok hp.Y hp.X (by norm_num)).bind fun a ⟨ha, ea⟩ => ?_
  refine (feSub_ok hp.Y (by norm_num) (hp.X.mono (by norm_num))).bind fun b ⟨hb, eb⟩ => ?_
  refine (feMul_ok (hp.T.mono (by norm_num)) (kD2_bnd.mono (by norm_num))).bind fun t ⟨ht, et⟩ => ?_
  rw [kD2_eq] at et
  exact Holds.pure ⟨ha, hb, hp.Z, ht, _, _, _, hp.rep, ea, eb, et⟩

theorem geToCachedAffine_ok (hp : Rep p P) : Ok (geToCachedAffine p) fun r => AffineRep r P := by
  obtain ⟨hx, hy⟩ := hp.rep.div_z
  unfold geToCachedAffine
  refine (feInvert_ok (hp.Z.mono (by norm_num))).bind fun zinv ⟨hz, ez⟩ => ?_
  refine (feMul_ok (hp.X.mono (by norm_num)) hz).bind fun x ⟨bx, ex⟩ => ?_
  refine (feMul_ok (hp.Y.mono (by norm_num)) hz).bind fun y ⟨bY, ey⟩ => ?_
  rw [ez] at ex ey
  rw [hx] at ex
  rw [hy] at ey
  refine (feMul_ok (bx.mono (by norm_num)) (bY.mono (by norm_num))).bind fun t ⟨bt, et⟩ => ?_
  refine (feAdd_ok bY bx (by norm_num)).bind fun a ⟨ba, ea⟩ => ?_
  refine (feSub_ok bY (by norm_num) (bx.mono (by norm_num))).bind fun b ⟨bb, eb⟩ => ?_
  refine (feMul_ok (bt.mono (by norm_num)) (kD2_bnd.mono (by norm_num))).bind fun u ⟨bu, eu⟩ => ?_
  rw [ex, ey] at et ea eb
  rw [et, kD2_eq] at eu
  exact Holds.pure ⟨ba, bb, bu, ea, eb, eu⟩

/-! ## addition and doubling -/

/-- the last step of `ge_add` and `ge_madd`: `e`, `f`, `g`, `h` and the four products -/
theorem efgh_ok {a b c d : Fe} (ha : a.Bnd (2^51)) (hb : b.Bnd (2^51)) (hc : c.Bnd (2^51))
    (hd : d.Bnd (2^52))
    (hR : Represents ((b.toFp - a.toFp) * (d.toFp - c.toFp)) ((d.toFp + c.toFp) * (b.toFp + a.toFp))
      ((d.toFp - c.toFp) * (d.toFp + c.toFp)) ((b.toFp - a.toFp) * (b.toFp + a.toFp)) (P + Q)) :
    Ok (do
      let e ← feSub b a
      let f ← feSub d c
      let g ← feAdd d c
      let h ← feAdd b a
      made ⟨← feMul e f, ← feMul g h, ← feMul f g, ← feMul e h⟩) fun r => Rep r (P + Q) := by
  refine (feSub_ok hb (by norm_num) (ha.mono (by norm_num))).bind fun e ⟨be, ee⟩ => ?_
  refine (feSub_ok hd (by norm_num) (hc.mono (by norm_num))).bind fun f ⟨bf, ef⟩ => ?_
  refine (feAdd_ok hd hc (by norm_num)).bind fun g ⟨bg, eg⟩ => ?_
  refine (feAdd_ok hb ha (by norm_num)).bind fun h ⟨bh, eh⟩ => ?_
  have be := be.mono (show 2^51 ≤ 2^54 by norm_num)
  have bf := bf.mono (show 2^51 ≤ 2^54 by norm_num)
  have bg := bg.mono (show 2^52 + 2^51 ≤ 2^54 by norm_num)
  have bh := bh.mono (show 2^51 + 2^51 ≤ 2^54 by norm_num)
  refine (feMul_ok be bf).bind fun x ⟨bx, ex⟩ => (feMul_ok bg bh).bind fun y ⟨bY, ey⟩ => ?_
  refine (feMul_ok bf bg).bind fun z ⟨bz, ez⟩ => (feMul_ok be bh).bind fun t ⟨bt, et⟩ => ?_
  refine ok_made ⟨bx, bY, bz, bt, ?_⟩
  rw [ex, ey, ez, et, ee, ef, eg, eh]
  exact hR

theorem geAdd_ok {q : GeCached} (hp : Rep p P) (hq : CachedRep q Q) :
    Ok (geAdd p q) fun r => Rep r (P + Q) := by
  obtain ⟨X, Y, T, hQ, ep, em, et⟩ := hq.rep
  have hY := hp.Y.mono (show 2^51 ≤ 2^54 by norm_num)
  have hX := hp.X.mono (show 2^51 ≤ 2^54 - 152 by norm_num)
  unfold geAdd
  refine (feSub_ok hY le_rfl hX).bind fun s ⟨bs, es⟩ => ?_
  refine (feMul_ok (bs.mono (by norm_num)) (hq.yminusx.mono (by norm_num))).bind fun a ⟨ba, ea⟩ => ?_
  refine (feAdd_ok hp.Y hp.X (by norm_num)).bind fun u ⟨bu, eu⟩ => ?_
  refine (feMul_ok (bu.mono (by norm_num)) (hq.yplusx.mono (by norm_num))).bind fun b ⟨bb, eb⟩ => ?_
  refine (feMul_ok (hq.t2d.mono (by norm_num)) (hp.T.mono (by norm_num))).bind fun c ⟨bc, ec⟩ => ?_
  refine (feMul_ok (hp.Z.mono (by norm_num)) (hq.z.mono (by norm_num))).bind fun z ⟨bz, ez⟩ => ?_
  refine (feAdd_ok bz bz (by norm_num)).bind fun d ⟨bd, ed⟩ => ?_
  refine efgh_ok ba bb bc bd ?_
  rw [ea, eb, ec, ed, es, eu, ez, ep, em, et]
  exact Represents.add hp.rep hQ

theorem geMadd_ok {q : GeCachedAffine} (hp : Rep p P) (hq : AffineRep q Q) :
    Ok (geMadd p q) fun r => Rep r (P + Q) := by
  have hY := hp.Y.mono (show 2^51 ≤ 2^54 by norm_num)
  have hX := hp.X.mono (show 2^51 ≤ 2^54 - 152 by norm_num)
  unfold geMadd
  refine (feSub_ok hY le_rfl hX).bind fun s ⟨bs, es⟩ => ?_
  refine (feMul_ok (bs.mono (by norm_num)) (hq.yminusx.mono (by norm_num))).bind fun a ⟨ba, ea⟩ => ?_
  refine (feAdd_ok hp.Y hp.X (by norm_num)).bind fun u ⟨bu, eu⟩ => ?_
  refine (feMul_ok (bu.mono (by norm_num)) (hq.yplusx.mono (by norm_num))).bind fun b ⟨bb, eb⟩ => ?_
  refine (feMul_ok (hq.t2d.mono (by norm_num)) (hp.T.mono (by norm_num))).bind fun c ⟨bc, ec⟩ => ?_
  refine (feAdd_ok hp.Z hp.Z (by norm_num)).bind fun d ⟨bd, ed⟩ => ?_
  refine efgh_ok ba bb bc bd ?_
  rw [ea, eb, ec, ed, es, eu, hq.yplusx_eq, hq.yminusx_eq, hq.t2d_eq]
  exact Represents.madd hp.rep Q

theorem geDouble_ok (hp : Rep p P) : Ok (geDouble p) fun r => Rep r (P + P) := by
  have hX := hp.X.mono (show 2^51 ≤ 2^54 by norm_num)
  have hY := hp.Y.mono (show 2^51 ≤ 2^54 by norm_num)
  have hZ := hp.Z.mono (show 2^51 ≤ 2^54 by norm_num)
  unfold geDouble
  refine (feSq_ok hX).bind fun A ⟨bA, eA⟩ => (feSq_ok hY).bind fun B ⟨bB, eB⟩ => ?_
  refine (feSq_ok hZ).bind fun z ⟨bz, ez⟩ => (feSq_ok hZ).bind fun z' ⟨bz', ez'⟩ => ?_
  refine (feAdd_ok bz bz' (by norm_num)).bind fun c ⟨bc, ec⟩ => ?_
  refine (feAdd_ok bA bB (by norm_num)).bind fun H ⟨bH, eH⟩ => ?_
  refine (feAdd_ok hp.X hp.Y (by norm_num)).bind fun s ⟨bs, es⟩ => ?_
  refine (feSq_ok (bs.mono (by norm_num))).bind fun s2 ⟨bs2, es2⟩ => ?_
  refine (feSub_ok bH (by norm_num) (bs2.mono (by norm_num))).bind fun E ⟨bE, eE⟩ => ?_
  refine (feSub_ok bA (by norm_num) (bB.mono (by norm_num))).bind fun G ⟨bG, eG⟩ => ?_
  refine (feAdd_ok bc bG (by norm_num)).bind fun F ⟨bF, eF⟩ => ?_
  have bE := bE.mono (show 2^51 ≤ 2^54 by norm_num)
  have bG := bG.mono (show 2^51 ≤ 2^54 by norm_num)
  have bF := bF.mono (show 2^51 + 2^51 + 2^51 ≤ 2^54 by norm_num)
  have bH := bH.mono (show 2^51 + 2^51 ≤ 2^54 by norm_num)
  refine (feMul_ok bE bF).bind fun x ⟨bx, ex⟩ => (feMul_ok bG bH).bind fun y ⟨bY, ey⟩ => ?_
  refine (feMul_ok bF bG).bind fun w ⟨bw, ew⟩ => (feMul_ok bE bH).bind fun t ⟨bt, et⟩ => ?_
  refine ok_made ⟨bx, bY, bw, bt, ?_⟩
  rw [ex, ey, ew, et, eE, eF, eG, eH, ec, es2, es, eA, eB, ez, ez']
  exact Represents.double hp.rep

end

/-! ## valid points

A `GeP3` is valid by its coordinates alone; it then stands for one point. -/

/-- reduced limbs, `Z ≠ 0`, `XY = ZT`, and `(X/Z, Y/Z)` is on the curve -/
structure GeP3.Valid (p : GeP3) : Prop where
  X : p.X.Bnd (2^51)
  Y : p.Y.Bnd (2^51)
  Z : p.Z.Bnd (2^51)
  T : p.T.Bnd (2^51)
  z_ne : p.Z.toFp ≠ 0
  quadric : p.X.toFp * p.Y.toFp = p.Z.toFp * p.T.toFp
  on : (p.Y.toFp / p.Z.toFp)^2 - (p.X.toFp / p.Z.toFp)^2
    = 1 + ed25519.d * (p.X.toFp / p.Z.toFp)^2 * (p.Y.toFp / p.Z.toFp)^2

def GeP3.affine (p : GeP3) (h : p.Valid) : EdPoint := ⟨p.X.toFp / p.Z.toFp, p.Y.toFp / p.Z.toFp, h.on⟩

theorem GeP3.Valid.rep {p : GeP3} (h : p.Valid) : Rep p (p.affine h) :=
  ⟨h.X, h.Y, h.Z, h.T, Represents.of_quadric h.z_ne h.quadric rfl rfl⟩

theorem Rep.valid {p : GeP3} {P : EdPoint} (h : Rep p P) : ∃ hp : p.Valid, p.affine hp = P := by
  obtain ⟨hx, hy⟩ := h.rep.div_z
  rw [← div_eq_mul_inv] at hx hy
  have hon := P.on
  rw [← hx, ← hy] at hon
  exact ⟨⟨h.X, h.Y, h.Z, h.T, h.rep.z_ne, h.rep.quadric, hon⟩, Point.ext hx hy⟩

/-- **The formulas are complete**: for all valid points, equal, opposite or the identity, the result
is a valid point that stands for the sum. -/
theorem ge_complete {p q : GeP3} (hp : p.Valid) (hq : q.Valid) :
    Ok (do geAdd p (← geToCached q))
      (fun r => ∃ hr : r.Valid, r.affine hr = p.affine hp + q.affine hq) ∧
    Ok (do geMadd p (← geToCachedAffine q))
      (fun r => ∃ hr : r.Valid, r.affine hr = p.affine hp + q.affine hq) ∧
    Ok (geDouble p) (fun r => ∃ hr : r.Valid, r.affine hr = p.affine hp + p.affine hp) := by
  refine ⟨?_, ?_, ?_⟩
  · refine (geToCached_ok hq.rep).bind fun c hc => ?_
    exact (geAdd_ok hp.rep hc).mono fun r hr => hr.valid
  · refine (geToCachedAffine_ok hq.rep).bind fun c hc => ?_
    exact (geMadd_ok hp.rep hc).mono fun r hr => hr.valid
  · exact (geDouble_ok hp.rep).mono fun r hr => hr.valid

/-- `ge_add` of the base point to itself -/
theorem ge_complete_twice : ∃ r : GeP3, ∃ hr : r.Valid,
    r = (geBasepoint >>= fun b => geToCached b >>= geAdd b).val ∧
      r.affine hr = basePoint + basePoint := by
  obtain ⟨hb, e⟩ := geBasepoint_ok.2.valid
  obtain ⟨hr, hsum⟩ := (ge_complete hb hb).1.2
  rw [e] at hsum
  exact ⟨_, hr, rfl, hsum⟩

/-! ## `ge_scalarmult_base` -/

/-- bits of a byte of the masked scalar are bits of the number it encodes -/
theorem masked_byte (s : Bytes 32) {i : Nat} (hi : i < 32) :
    (if i = 31 then (s.get i).toNat &&& 0x7f else (s.get i).toNat)
      = s.toNat % 2^255 / 256^i % 256 := by
  rw [Bytes.get_toNat]
  by_cases h : i = 31
  · have h7 : (0x7f : Nat) = 2^7 - 1 := rfl
    rw [if_pos h, h, h7, Nat.and_two_pow_sub_one_eq_mod]
    omega
  · have hsplit : (2:Nat)^255 = 256^i * (256 * 2^(247 - 8 * i)) := by
      have h8 : (256:Nat) = 2^8 := rfl
      rw [h8, ← pow_mul, ← pow_add, ← pow_add]
      congr 1
      omega
    rw [if_neg h, hsplit, Nat.mod_mul_right_div_self, Nat.mod_mul_right_mod]

theorem byte_bit (x : Nat) {bit : Nat} (h : bit < 8) :
    ((x % 256) >>> bit) &&& 1 = x / 2^bit % 2 := by
  have h8 : 256 = 2^bit * (2 * 2^(7 - bit)) := by
    rw [← pow_succ', ← pow_add, show bit + (7 - bit + 1) = 8 by omega]
    rfl
  rw [Nat.shiftRight_eq_div_pow, Nat.and_one_is_mod, h8, Nat.mod_mul_right_div_self,
    Nat.mod_mul_right_mod]

theorem scalarBit_ok {base : GeCached} {r : GeP3} {Q : EdPoint} {n b bit : Nat}
    (hbase : CachedRep base Q) (hb : (b >>> bit) &&& 1 = n % 2) (hr : Rep r ((n / 2) • Q)) :
    Ok (scalarBit base b bit r) fun r => Rep r (n • Q) := by
  refine (geDouble_ok hr).bind fun d hd => ?_
  rw [← add_smul] at hd
  rw [hb]
  by_cases h : n % 2 = 1
  · have e : n = n / 2 + n / 2 + 1 := by omega
    rw [if_pos h, e, add_smul _ 1, one_smul]
    exact geAdd_ok hd hbase
  · have e : n / 2 + n / 2 = n := by omega
    rw [if_neg h, ← e]
    exact Holds.pure hd

theorem scalarByte_ok {s : Bytes 32} {base : GeCached} {r : GeP3} {Q : EdPoint} {byte : Nat}
    (hbase : CachedRep base Q) (hbyte : byte < 32)
    (hr : Rep r ((s.toNat % 2^255 / 256^(byte + 1)) • Q)) :
    Ok (scalarByte s base byte r) fun r => Rep r ((s.toNat % 2^255 / 256^byte) • Q) := by
  unfold scalarByte
  simp only [masked_byte s hbyte]
  generalize s.toNat % 2^255 = N at *
  have inner := Holds.forDown (G := Event.Good)
    (fun bit r => Rep r ((N / 256^byte / 2^bit) • Q)) 8
    (f := scalarBit base (N / 256^byte % 256)) (s := r) ?_ ?_
  · rwa [pow_zero, Nat.div_one] at inner
  · rwa [Nat.div_div_eq_div_mul, show (256:Nat)^byte * 2^8 = 256^(byte+1) from (pow_succ _ _).symm]
  · intro bit r hbit hr
    rw [pow_succ, ← Nat.div_div_eq_div_mul] at hr
    exact scalarBit_ok hbase (byte_bit _ hbit) hr

/-- **`ge_scalarmult_base`** multiplies the base point by the scalar without bit 255. -/
theorem geScalarmultBase_ok (s : Bytes 32) :
    Ok (geScalarmultBase s) fun r => Rep r ((s.toNat % 2^255) • basePoint) := by
  have h0 : Rep ⟨⟨0, 0, 0, 0, 0⟩, ⟨1, 0, 0, 0, 0⟩, ⟨1, 0, 0, 0, 0⟩, ⟨0, 0, 0, 0, 0⟩⟩ 0 := by
    have e0 : Fe.toFp ⟨0, 0, 0, 0, 0⟩ = 0 := Nat.cast_zero
    have e1 : Fe.toFp ⟨1, 0, 0, 0, 0⟩ = 1 := Nat.cast_one
    refine ⟨by decide, by decide, by decide, by decide, ?_⟩
    simp only [e0, e1]
    exact Represents.zero
  have hlt : s.toNat % 2^255 < 256^32 := by have := s.toNat_lt; omega
  unfold geScalarmultBase
  refine (ok_made h0).bind fun r hr => geBasepoint_ok.bind fun B hB => ?_
  refine (geToCached_ok hB).bind fun base hbase => ?_
  have key := Holds.forDown (G := Event.Good)
    (fun byte r => Rep r ((s.toNat % 2^255 / 256^byte) • basePoint)) 32
    (f := scalarByte s base) (s := r) (by rw [Nat.div_eq_of_lt hlt, zero_smul]; exact hr)
    fun byte r hbyte hr => scalarByte_ok hbase hbyte hr
  rwa [pow_zero, Nat.div_one] at key

/-! ## `ge_encode` -/

/-- the 32-byte encoding of a point: `y`, and the parity of `x` in bit 255 -/
def encodePoint (P : EdPoint) : Bytes 32 := Bytes.ofNat 32 (P.y.val + 2^255 * (P.x.val % 2))

theorem encodePoint_toNat (P : EdPoint) :
    (encodePoint P).toNat = P.y.val + 2^255 * (P.x.val % 2) := by
  have hy := ZMod.val_lt P.y
  have hp := p25519_add
  have h256 : (256:Nat)^32 = 2^256 := rfl
  rw [encodePoint, Bytes.toNat_ofNat, Nat.mod_eq_of_lt]
  omega

theorem setSign_toNat {out : Bytes 32} (h : out.toNat < 2^255) (s : UInt8) :
    (setSign out (s &&& 1)).toNat = out.toNat + 2^255 * (s.toNat % 2) := by
  have hset := out.set_toNat (i := 31) (by norm_num) (out.get 31 ||| (s &&& 1) <<< 7)
  have hlow : (out.get 31).toNat < 2^7 := by rw [Bytes.get_toNat]; omega
  have hor : (out.get 31 ||| (s &&& 1) <<< 7).toNat = (out.get 31).toNat + 2^7 * (s.toNat % 2) := by
    have hs : ((s &&& 1) <<< 7).toNat = (s.toNat % 2) <<< 7 := by
      rw [UInt8.toNat_shiftLeft, UInt8.toNat_and]
      have h1 : (1 : UInt8).toNat = 1 := rfl
      rw [h1, Nat.and_one_is_mod, Nat.shiftLeft_eq]
      have h7 : (7 : UInt8).toNat % 8 = 7 := rfl
      rw [h7, Nat.shiftLeft_eq, Nat.mod_eq_of_lt (by omega)]
    rw [UInt8.toNat_or, hs, Nat.or_comm, ← Nat.shiftLeft_add_eq_or_of_lt hlow, Nat.shiftLeft_eq]
    omega
  rw [hor] at hset
  show (out.set 31 _).toNat = _
  omega

theorem geEncode_ok {p : GeP3} {P : EdPoint} (hp : Rep p P) :
    Ok (geEncode p) fun r => r = encodePoint P := by
  obtain ⟨hx, hy⟩ := hp.rep.div_z
  unfold geEncode
  refine (feInvert_ok (hp.Z.mono (by norm_num))).bind fun zinv ⟨hz, ez⟩ => ?_
  refine (feMul_ok (hp.X.mono (by norm_num)) hz).bind fun x ⟨bx, ex⟩ => ?_
  refine (feMul_ok (hp.Y.mono (by norm_num)) hz).bind fun y ⟨bY, ey⟩ => ?_
  rw [ez, hx] at ex
  rw [ez, hy] at ey
  refine (feToBytes_ok (bY.mono (by norm_num))).bind fun out hout => ?_
  refine (feToBytes_ok (bx.mono (by norm_num))).bind fun xb hxb => Holds.pure ?_
  rw [ey] at hout
  rw [ex] at hxb
  have hlt : out.toNat < 2^255 := by
    have h := ZMod.val_lt P.y
    have hp := p25519_add
    omega
  have hpar : (xb.get 0).toNat % 2 = P.x.val % 2 := by
    rw [Bytes.get_toNat, hxb, pow_zero, Nat.div_one]
    omega
  apply Bytes.toNat_inj
  rw [setSign_toNat hlt, encodePoint_toNat, hout, hpar]

end Onion
