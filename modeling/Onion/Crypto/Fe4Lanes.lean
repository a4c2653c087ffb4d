import Onion.Crypto.Fe4Bytes
import Onion.Crypto.FeBytes

/-!
# Four lanes against four scalars

* `LaneBytes`    a lane, stored, is the encoding of a scalar run;
* `laneBytes`    runs that are exact on the same values have the same bytes;
* `fe4_lanes`    every routine on its own, and between loading and storing.
-/

namespace Onion
open Logged

/-- lane `l` of the run `x`, stored, is what the run `y` is encoded as; nothing wraps in either -/
def LaneBytes (l : Fin 4) (x : Run Fe4) (y : Run Fe) : Prop :=
  Ok x fun r => Ok (y >>= feToBytes) fun b => (fe4StoreY r)[l] = b

theorem laneBytes {l : Fin 4} {x : Run Fe4} {y : Run Fe} {v : Fp}
    (hx : Ok x fun r => r.Bnd (2^26) ∧ r.toFp l = v)
    (hy : Ok y fun r => r.Bnd (2^54) ∧ r.toFp = v) : LaneBytes l x y := by
  unfold LaneBytes
  refine hx.mono fun r ⟨br, er⟩ => hy.bind fun t ⟨bt, et⟩ => (feToBytes_ok bt).mono fun b hb => ?_
  apply Bytes.toNat_inj
  rw [fe4StoreY_ok (br.mono (by norm_num)), hb, er, et]

section
variable (s : Bytes 32)

theorem feFromBytes_toFp : (feFromBytes s).toFp = ((s.toNat % 2^255 : Nat) : Fp) :=
  congrArg Nat.cast (feFromBytes_val s)

theorem feFromBytes_bnd54 : (feFromBytes s).Bnd (2^54) := (feFromBytes_bnd s).mono (by norm_num)

end

section
variable (s : Vector (Bytes 32) 4)

theorem fe4Load_lane (l : Fin 4) : Fe4.toFp (fe4Load s) l = (feFromBytes s[l]).toFp := by
  rw [feFromBytes_toFp, Fe4.toFp, fe4Load_val]

theorem fe4Load_bnd27 : (fe4Load s).Bnd (2^27) := (fe4Load_bnd s).mono (by norm_num)

end

/-- **The four-lane field** is the scalar field in every lane: each routine is exact on limbs below
`2^27` and leaves them below `2^26`, and between loading and storing it has the scalar bytes. -/
theorem fe4_lanes {a b : Fe4} (ha : a.Bnd (2^27)) (hb : b.Bnd (2^27)) (s t : Vector (Bytes 32) 4)
    (l : Fin 4) :
    (Ok (fe4Mul a b) (fun r => r.Bnd (2^26) ∧ r.toFp l = a.toFp l * b.toFp l) ∧
      Ok (fe4Sq a) (fun r => r.Bnd (2^26) ∧ r.toFp l = a.toFp l ^ 2) ∧
      Ok (fe4Add a b) (fun r => r.Bnd (2^26) ∧ r.toFp l = a.toFp l + b.toFp l) ∧
      Ok (fe4Sub a b) (fun r => r.Bnd (2^26) ∧ r.toFp l = a.toFp l - b.toFp l) ∧
      Ok (fe4Invert a) (fun r => r.Bnd (2^26) ∧ r.toFp l = a.toFp l ^ (P25519 - 2)) ∧
      ((fe4StoreY a)[l]).toNat = (a.toFp l).val) ∧
    LaneBytes l (fe4Mul (fe4Load s) (fe4Load t)) (feMul (feFromBytes s[l]) (feFromBytes t[l])) ∧
    LaneBytes l (fe4Sq (fe4Load s)) (feSq (feFromBytes s[l])) ∧
    LaneBytes l (fe4Add (fe4Load s) (fe4Load t)) (feAdd (feFromBytes s[l]) (feFromBytes t[l])) ∧
    LaneBytes l (fe4Sub (fe4Load s) (fe4Load t)) (feSub (feFromBytes s[l]) (feFromBytes t[l])) ∧
    LaneBytes l (fe4Invert (fe4Load s)) (feInvert (feFromBytes s[l])) := by
  have hs := feFromBytes_bnd54 s[l]
  have ht := feFromBytes_bnd54 t[l]
  have hs4 := fe4Load_bnd27 s
  have ht4 := fe4Load_bnd27 t
  refine ⟨⟨?_, ?_, ?_, ?_, ?_, fe4StoreY_ok ha l⟩, ?_, ?_, ?_, ?_, ?_⟩
  · exact (fe4Mul_ok ha hb).mono fun r hr => ⟨hr.1, hr.2 l⟩
  · refine (fe4Sq_ok ha).mono fun r hr => ⟨hr.1, ?_⟩
    rw [hr.2 l, sq]
  · exact (fe4Add_ok ha hb).mono fun r hr => ⟨hr.1, hr.2 l⟩
  · exact (fe4Sub_ok ha hb).mono fun r hr => ⟨hr.1, hr.2 l⟩
  · exact (fe4Invert_pow ha).mono fun r hr => ⟨hr.1, hr.2 l⟩
  · refine laneBytes ((fe4Mul_ok hs4 ht4).mono fun r hr => ⟨hr.1, hr.2 l⟩) ?_
    rw [fe4Load_lane, fe4Load_lane]
    exact (feMul_ok hs ht).mono fun r hr => ⟨hr.1.mono (by norm_num), hr.2⟩
  · refine laneBytes ((fe4Sq_ok hs4).mono fun r hr => ⟨hr.1, hr.2 l⟩) ?_
    rw [fe4Load_lane]
    exact (feSq_ok hs).mono fun r hr => ⟨hr.1.mono (by norm_num), hr.2⟩
  · refine laneBytes ((fe4Add_ok hs4 ht4).mono fun r hr => ⟨hr.1, hr.2 l⟩) ?_
    rw [fe4Load_lane, fe4Load_lane]
    exact (feAdd_ok (feFromBytes_bnd s[l]) (feFromBytes_bnd t[l]) (by norm_num)).mono
      fun r hr => ⟨hr.1.mono (by norm_num), hr.2⟩
  · refine laneBytes ((fe4Sub_ok hs4 ht4).mono fun r hr => ⟨hr.1, hr.2 l⟩) ?_
    rw [fe4Load_lane, fe4Load_lane]
    exact (feSub_ok hs le_rfl ((feFromBytes_bnd t[l]).mono (by norm_num))).mono
      fun r hr => ⟨hr.1.mono (by norm_num), hr.2⟩
  · refine laneBytes ((fe4Invert_pow hs4).mono fun r hr => ⟨hr.1, hr.2 l⟩) ?_
    rw [fe4Load_lane, fp_pow_inv]
    exact feInvert_ok hs

/-- the largest limbs, and strings of ones: bit 255 set and not canonical -/
theorem fe4_lanes_max :
    let a : Fe4 := Vector.replicate 10 (vSet1 (2^27 - 1))
    let s : Vector (Bytes 32) 4 := Vector.replicate 4 (Bytes.ofNat 32 (2^256 - 1))
    (fe4Mul a a).val.Bnd (2^26) ∧ ∀ l : Fin 4,
      LaneBytes l (fe4Sub (fe4Load s) (fe4Load s)) (feSub (feFromBytes s[l]) (feFromBytes s[l])) := by
  intro a s
  have ha : a.Bnd (2^27) := fun i l => by simp [a, vSet1, M256.lane]
  have h := fe4_lanes ha ha s s
  exact ⟨(h 0).1.1.2.1, fun l => (h l).2.2.2.2.1⟩

end Onion
