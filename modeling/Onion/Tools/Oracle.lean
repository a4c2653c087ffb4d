import Onion.Tools.VerifyOnion
import Onion.Crypto.GeArith

/-!
# The oracle's curve is the curve of the search

The tuples of `verify_onion.py` are read in the field, where its one addition formula, its ladder
and its encoding compute what the C++ code computes by others.

* `pow_cast`, `inv_cast`   modular powers and inverses;
* `ptAdd_stands`           the unified addition;
* `scalarmult_stands`      the low-bit-first ladder, by the run of its loop;
* `encodepoint_eq`         the encoding is that of `ge_encode`.
-/

namespace Onion.VerifyOnion
open TwistedEdwards

/-! ## integers in the field -/

@[simp] theorem emod_cast (x : Int) : ((x % P : Int) : Fp) = x := ZMod.intCast_mod x P25519

theorem emod_toNat (x : Int) : (x % P).toNat = (x : Fp).val := by
  have h : (((x : Fp).val : Nat) : Int) = x % P := ZMod.val_intCast x
  rw [← h, Int.toNat_natCast]

theorem pow_cast (x : Int) (e : Nat) : ((pow x e P : Int) : Fp) = (x : Fp)^e := by
  have hbase : (((x % P).toNat : Nat) : Fp) = x := by
    rw [emod_toNat, ZMod.natCast_val, ZMod.cast_id]
  unfold pow
  rw [Int.cast_natCast, powMod_eq _ _ _ _ _ Nat.lt_log2_self, one_mul]
  show ((_ % P25519 : Nat) : Fp) = _
  rw [ZMod.natCast_mod, Nat.cast_pow, hbase]

theorem inv_cast (x : Int) : ((inv x : Int) : Fp) = (x : Fp)⁻¹ := by
  rw [inv, pow_cast, ← fp_pow_inv]
  rfl

theorem D_cast : ((D : Int) : Fp) = ed25519.d := by
  have h0 : ((121666 : Nat) : Fp) ≠ 0 := by
    intro h
    rw [← Nat.cast_zero, fp_eq_iff] at h
    exact absurd h (by decide +kernel)
  have hd : ed25519.d * 121666 = -121665 := edD_eq
  push_cast at h0
  rw [D, emod_cast, Int.cast_mul, inv_cast]
  push_cast
  rw [← hd, mul_inv_cancel_right₀ h0]

/-! ## points -/

def Stands (p : Tuple) (Q : EdPoint) : Prop :=
  Represents (p.1 : Fp) (p.2.1 : Fp) (p.2.2.1 : Fp) (p.2.2.2 : Fp) Q

section
variable {p q : Tuple} {Q R : EdPoint}

theorem identity_stands : Stands identity 0 := by
  unfold Stands identity
  push_cast
  exact Represents.zero

theorem B_stands : Stands B basePoint := by
  have hx : BX = (baseX : Int) := by decide +kernel
  have hy : BY = (baseY : Int) := by decide +kernel
  unfold Stands B
  rw [emod_cast, hx, hy]
  push_cast
  exact Represents.affine basePoint

theorem ptAdd_stands (hp : Stands p Q) (hq : Stands q R) : Stands (ptAdd p q) (Q + R) := by
  obtain ⟨x1, y1, z1, t1⟩ := p
  obtain ⟨x2, y2, z2, t2⟩ := q
  have h := Represents.add hp hq
  have hc : (2 * t1 * t2 * ed25519.d : Fp) = t2 * (2 * ed25519.d) * t1 := by ring
  have hd : (2 * z1 * z2 : Fp) = z1 * z2 + z1 * z2 := by ring
  unfold Stands ptAdd
  push_cast
  simp only [emod_cast]
  push_cast
  simp only [emod_cast]
  push_cast
  rw [D_cast, hc, hd]
  exact h

theorem scalarmultLoop_stands (e : Nat) (hp : Stands p Q) (hq : Stands q R) :
    Stands (scalarmultLoop p q e) (R + e • Q) := by
  induction p, q, e using scalarmultLoop.induct generalizing Q R with
  | case1 p q e he ih =>
    have hsplit : e • Q = (e % 2) • Q + (e >>> 1) • (Q + Q) := by
      rw [← two_nsmul, ← mul_nsmul', ← add_nsmul, Nat.shiftRight_one]
      congr 1
      omega
    have hq' : Stands (if e &&& 1 ≠ 0 then ptAdd q p else q) (R + (e % 2) • Q) := by
      rw [Nat.and_one_is_mod]
      by_cases h : e % 2 = 0
      · rw [if_neg (not_not.mpr h), h, zero_nsmul, add_zero]
        exact hq
      · have h1 : e % 2 = 1 := by omega
        rw [if_pos h, h1, one_nsmul]
        exact ptAdd_stands hq hp
    rw [scalarmultLoop, if_pos he, hsplit, ← add_assoc]
    exact ih (ptAdd_stands hp hp) hq'
  | case2 p q e he =>
    obtain rfl : e = 0 := by omega
    rw [scalarmultLoop, if_neg he, zero_nsmul, add_zero]
    exact hq

theorem scalarmult_stands (e : Nat) (hp : Stands p Q) : Stands (scalarmult p e) (e • Q) := by
  have h := scalarmultLoop_stands e hp identity_stands
  rwa [zero_add] at h

/-- the two encodings of a point agree -/
theorem encodepoint_eq (hp : Stands p Q) : encodepoint p = (encodePoint Q).1 := by
  obtain ⟨x, y, z, t⟩ := p
  obtain ⟨hx, hy⟩ := hp.div_z
  have hlt : Q.y.val < 2^255 := by
    have h := ZMod.val_lt Q.y
    have hp := p25519_add
    omega
  have hX : (x * inv z % P).toNat = Q.x.val := by
    rw [emod_toNat, Int.cast_mul, inv_cast, ← hx]
  have hY : (y * inv z % P).toNat = Q.y.val := by
    rw [emod_toNat, Int.cast_mul, inv_cast, ← hy]
  show leBytes 32 ((y * inv z % P).toNat ||| ((x * inv z % P).toNat &&& 1) <<< 255) = _
  rw [hX, hY, Nat.or_comm, ← Nat.shiftLeft_add_eq_or_of_lt hlt, Nat.shiftLeft_eq,
    Nat.and_one_is_mod, Nat.add_comm, Nat.mul_comm]
  rfl

end

/-! ## both sides -/

theorem geEncode_scalarmultBase (s : Bytes 32) :
    (geScalarmultBase s >>= geEncode).val = encodePoint ((s.toNat % 2^255) • basePoint) :=
  ((geScalarmultBase_ok s).bind fun _ hp => geEncode_ok hp).2

/-- below `2^255` the two multiples agree byte for byte -/
theorem encodepoint_scalarmult {s : Bytes 32} (hs : s.toNat.testBit 255 = false) :
    (geScalarmultBase s >>= geEncode).val.1 = encodepoint (scalarmult B (le s.1)) := by
  rw [geEncode_scalarmultBase, Nat.mod_eq_of_lt (Bytes.toNat_lt_of_testBit hs)]
  exact (encodepoint_eq (scalarmult_stands _ B_stands)).symm

end Onion.VerifyOnion
