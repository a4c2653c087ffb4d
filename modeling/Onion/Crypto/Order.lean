import Onion.Crypto.Keys
import Onion.Crypto.Walk
import Onion.Lib.LucasChain
import Onion.Lib.Residues

/-!
# The order of the base point, and which scalars share a key

* `prime_order`         `kOrder` is prime (a chain of Lucas certificates);
* `addOrderOf_basePoint`   it is the order of the base point;
* `encodePoint_inj`     different points have different encodings;
* `key_none_iff`, `key_eq_iff`   which scalars have no key, and which have the same;
* `walk_key_inj`        in a walk, different candidates have different keys.
-/

namespace Onion
open TwistedEdwards

/-- the order of the base point -/
def kOrder : Nat := 2^252 + 27742317777372353535851937790883648493

/-! ## primality -/

/-- the small factors in the certificates -/
def smallPrimes : List Nat :=
  [2, 3, 5, 7, 11, 23, 41, 43, 73, 269, 307, 1361, 2851, 5879, 30703, 82163, 132667, 137849, 531581,
    1224481, 58964693]

theorem smallPrimes_prime : ∀ q ∈ smallPrimes, q.Prime := by
  unfold smallPrimes
  norm_num

/-- `kOrder`, and the large factors in the certificates before it -/
def orderChain : List LucasEntry := [
  ⟨3044861653679985063343, 72, 5, [2, 3, 11, 30703, 82163, 132667, 137849]⟩,
  ⟨198211423230930754013084525763697, 108, 5, [2, 2, 2, 2, 3, 23, 58964693, 3044861653679985063343]⟩,
  ⟨292386187, 29, 2, [2, 3, 3, 3, 3, 307, 5879]⟩,
  ⟨213441916511, 38, 13, [2, 5, 73, 292386187]⟩,
  ⟨1257559732178653, 51, 2, [2, 2, 3, 7, 23, 531581, 1224481]⟩,
  ⟨4434155615661930479, 62, 17, [2, 41, 43, 1257559732178653]⟩,
  ⟨172054593956031949258510691, 88, 2, [2, 5, 1361, 2851, 4434155615661930479]⟩,
  ⟨19757330305831588566944191468367130476339, 134, 2,
    [2, 269, 213441916511, 172054593956031949258510691]⟩,
  ⟨276602624281642239937218680557139826668747, 138, 2,
    [2, 7, 19757330305831588566944191468367130476339]⟩,
  ⟨kOrder, 253, 2, [2, 2, 3, 11, 198211423230930754013084525763697,
    276602624281642239937218680557139826668747]⟩]

theorem orderChain_checked : LucasEntry.chain smallPrimes orderChain = true := by decide +kernel

theorem prime_order : kOrder.Prime := by
  have hlast : (orderChain.getLast (by decide)) ∈ orderChain := List.getLast_mem _
  exact LucasEntry.chain_prime smallPrimes_prime orderChain_checked hlast

/-! ## the order -/

def edD2 : Nat := 2 * 37095705934669439343138083508754565189542113879843219016388785533085940283555

theorem edD2_eq : ((edD2 : Nat) : Fp) = 2 * ed25519.d := by
  rw [edD2, Nat.cast_mul]
  rfl

def baseResidues : Residues := ⟨baseX, baseY, 1, baseX * baseY % P25519⟩

theorem baseResidues_stands : Residues.Stands baseResidues basePoint := by
  unfold Residues.Stands baseResidues
  dsimp only
  rw [ZMod.natCast_mod, Nat.cast_mul, Nat.cast_one]
  exact Represents.affine basePoint

theorem order_smul : kOrder • basePoint = 0 :=
  Residues.smul_eq_zero (k := 253) edD2_eq (by decide +kernel) baseResidues_stands
    (by decide +kernel) (by decide +kernel)

/-- the `y` of a multiple of the base point, evaluated -/
def multipleY (n : Nat) : Nat :=
  Residues.affineY P25519 (Residues.mul P25519 edD2 (n.log2 + 1) ⟨0, 1, 1, 0⟩ baseResidues n)

theorem smul_basePoint_y (n : Nat) : (n • basePoint).y.val = multipleY n :=
  Residues.smul_y edD2_eq Nat.lt_log2_self baseResidues_stands

theorem basePoint_ne_zero : basePoint ≠ 0 := by
  intro h
  exact eight_smul_basePoint (by rw [h, smul_zero])

theorem addOrderOf_basePoint : addOrderOf basePoint = kOrder :=
  have : Fact kOrder.Prime := ⟨prime_order⟩
  addOrderOf_eq_prime order_smul basePoint_ne_zero

theorem smul_basePoint_eq_iff {a b : Nat} :
    a • basePoint = b • basePoint ↔ a ≡ b [MOD kOrder] := by
  rw [nsmul_eq_nsmul_iff_modEq, addOrderOf_basePoint]

theorem smul_basePoint_eq_zero_iff {a : Nat} : a • basePoint = 0 ↔ kOrder ∣ a := by
  rw [← addOrderOf_basePoint]
  exact addOrderOf_dvd_iff_nsmul_eq_zero.symm

/-! ## encodings -/

/-- `1 + d*y^2` has no zero -/
theorem one_add_mul_sq_ne (y : Fp) : 1 + ed25519.d * y^2 ≠ 0 := by
  intro h
  have hy : y ≠ 0 := by
    rintro rfl
    have h1 : (1 : Fp) = 0 := by linear_combination h
    exact one_ne_zero h1
  refine ed25519.d_nonsq (ed25519.i / y) ?_
  rw [div_pow, ed25519.i_sq, div_eq_iff (pow_ne_zero 2 hy)]
  linear_combination -h

/-- `y` leaves two points -/
theorem x_sq_eq {P Q : EdPoint} (hy : P.y = Q.y) : P.x = Q.x ∨ P.x = -Q.x := by
  have hP := P.on
  have hQ := Q.on
  rw [hy] at hP
  refine sq_eq_sq_iff_eq_or_eq_neg.mp (mul_right_cancel₀ (one_add_mul_sq_ne Q.y) ?_)
  linear_combination hQ - hP

theorem neg_val_parity {x : Fp} (hx : x ≠ 0) : (-x).val % 2 ≠ x.val % 2 := by
  have : NeZero x := ⟨hx⟩
  have hneg : (-x).val = P25519 - x.val := ZMod.val_neg_of_ne_zero x
  have hlt := ZMod.val_lt x
  have hp := p25519_add
  rw [hneg]
  omega

theorem encodePoint_inj {P Q : EdPoint} : encodePoint P = encodePoint Q ↔ P = Q := by
  refine ⟨fun h => ?_, fun h => congrArg encodePoint h⟩
  have h := congrArg Bytes.toNat h
  rw [encodePoint_toNat, encodePoint_toNat] at h
  have hPy := ZMod.val_lt P.y
  have hQy := ZMod.val_lt Q.y
  have hp := p25519_add
  have hy : P.y = Q.y := ZMod.val_injective _ (by omega)
  have hpar : P.x.val % 2 = Q.x.val % 2 := by omega
  refine TwistedEdwards.Point.ext ?_ hy
  rcases x_sq_eq hy with hx | hx
  · exact hx
  · by_cases h0 : Q.x = 0
    · rw [hx, h0, neg_zero]
    · rw [hx] at hpar
      exact absurd hpar (neg_val_parity h0)

/-! ## keys -/

section
variable {base : Bytes 32 → Option (Bytes 32)} (hbase : Rfc8032 base) {s t pk pk' : Bytes 32}
include hbase

theorem key_none_iff : pubkeyFromScalar base s = none ↔ kOrder ∣ s.toNat % 2^255 := by
  rw [pubkeyFromScalar, hbase s, ← smul_basePoint_eq_zero_iff, ite_eq_left_iff]
  exact ⟨fun h => by_contra fun hne => Option.some_ne_none _ (h hne), fun h hne => absurd h hne⟩

theorem key_eq_encode (h : pubkeyFromScalar base s = some pk) :
    pk = encodePoint ((s.toNat % 2^255) • basePoint) := by
  rw [pubkeyFromScalar, hbase s] at h
  split at h
  · cases h
  · exact (Option.some.inj h).symm

theorem key_eq_iff (hs : pubkeyFromScalar base s = some pk)
    (ht : pubkeyFromScalar base t = some pk') :
    pk = pk' ↔ s.toNat % 2^255 ≡ t.toNat % 2^255 [MOD kOrder] := by
  rw [key_eq_encode hbase hs, key_eq_encode hbase ht, encodePoint_inj, smul_basePoint_eq_iff]

end

/-! ## a walk -/

theorem mul_eight_cancel {i j : Nat} (h : 8 * i ≡ 8 * j [MOD kOrder]) : i ≡ j [MOD kOrder] := by
  have hcop : Nat.gcd kOrder 8 = 1 := by norm_num [kOrder]
  exact Nat.ModEq.cancel_left_of_coprime hcop h

/-- `2^255` is `8 * kOrder` but for a multiple of 8 that no walk reaches -/
theorem carry_residue {a i j : Nat} (hi : i < 2^61) (hj : j < 2^61) (hilt : a + 8 * i < 2^255)
    (hjge : 2^255 ≤ a + 8 * j) : ¬ a + 8 * i ≡ a + 8 * j - 2^255 [MOD kOrder] := by
  intro h
  have hrest : 2^255 + 8 * 27742317777372353535851937790883648493 = 8 * kOrder := by
    norm_num [kOrder]
  have hbound : 2^61 + 27742317777372353535851937790883648493 ≤ kOrder := by norm_num [kOrder]
  have hright : a + 8 * j - 2^255 + 8 * kOrder =
      a + 8 * (j + 27742317777372353535851937790883648493) := by omega
  have hadd := h.add_right (8 * kOrder)
  rw [hright, Nat.add_assoc, ← Nat.mul_add] at hadd
  have hmod := mul_eight_cancel (Nat.ModEq.add_left_cancel' a hadd)
  have he : i = j + _ := (Nat.ModEq.symm (Nat.add_modEq_right ..)).trans hmod |>.eq_of_lt_of_lt
    (by omega) (by omega)
  omega

/-- the walk meets each residue once -/
theorem walk_residue_inj {a i j : Nat} (ha : a < 2^255) (hi : i < 2^61) (hj : j < 2^61)
    (h : (a + 8 * i) % 2^255 ≡ (a + 8 * j) % 2^255 [MOD kOrder]) : i = j := by
  have hbound : 2^61 ≤ kOrder := by norm_num [kOrder]
  have hmod : ∀ k < 2^61, (a + 8 * k) % 2^255 =
      if a + 8 * k < 2^255 then a + 8 * k else a + 8 * k - 2^255 := fun k hk => by
    split <;> omega
  rw [hmod i hi, hmod j hj] at h
  split at h
  next hilt =>
    split at h
    · exact (mul_eight_cancel (Nat.ModEq.add_left_cancel' a h)).eq_of_lt_of_lt (by omega) (by omega)
    next hjge => exact absurd h (carry_residue hi hj hilt (Nat.le_of_not_lt hjge))
  next hige =>
    split at h
    next hjlt => exact absurd h.symm (carry_residue hj hi hjlt (Nat.le_of_not_lt hige))
    next hjge =>
      have hadd := h.add_right (2^255)
      rw [Nat.sub_add_cancel (Nat.le_of_not_lt hige), Nat.sub_add_cancel (Nat.le_of_not_lt hjge)] at hadd
      exact (mul_eight_cancel (Nat.ModEq.add_left_cancel' a hadd)).eq_of_lt_of_lt (by omega) (by omega)

theorem scalarAdd8i_mod (a0 : Bytes 32) {i : Nat} (hi : i < 2^61) :
    (scalarAdd8i a0 i).toNat % 2^255 = (a0.toNat + 8 * i) % 2^255 := by
  rw [scalarAdd8i_toNat]
  omega

section
variable {base : Bytes 32 → Option (Bytes 32)} (hbase : Rfc8032 base) {a0 pk : Bytes 32} {i j : Nat}
  (ha : a0.toNat < 2^255) (hi : i < 2^61) (hj : j < 2^61)
include hbase ha hi hj

/-- candidates of a walk have different keys -/
theorem walk_key_inj (hki : pubkeyFromScalar base (scalarAdd8i a0 i) = some pk)
    (hkj : pubkeyFromScalar base (scalarAdd8i a0 j) = some pk) : i = j := by
  have h := (key_eq_iff hbase hki hkj).mp rfl
  rw [scalarAdd8i_mod a0 hi, scalarAdd8i_mod a0 hj] at h
  exact walk_residue_inj ha hi hj h

theorem walk_none_inj (hki : pubkeyFromScalar base (scalarAdd8i a0 i) = none)
    (hkj : pubkeyFromScalar base (scalarAdd8i a0 j) = none) : i = j := by
  rw [key_none_iff hbase, scalarAdd8i_mod a0 hi] at hki
  rw [key_none_iff hbase, scalarAdd8i_mod a0 hj] at hkj
  refine walk_residue_inj ha hi hj ?_
  exact (Nat.modEq_zero_iff_dvd.mpr hki).trans (Nat.modEq_zero_iff_dvd.mpr hkj).symm

end

end Onion
