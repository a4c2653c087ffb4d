import Onion.Crypto.GeArith

/-!
# `keys.cpp`: secret keys, and the part of libsodium behind them

The functions of libsodium are parameters: `baseNoclamp` (`crypto_scalarmult_ed25519_base_noclamp`,
`none` when it fails) and `sha512`.  `Rfc8032` is what is documented of the first.

* `clamp_toNat`      a clamped scalar is a multiple of 8 in `[2^254, 2^255)`;
* `clamped_iff`      the five bits of the clamped form, as a number.
-/

namespace Onion

structure ExpandedSecretKey where
  scalar : Bytes 32
  prfPrefix : Bytes 32
deriving DecidableEq

/-- `b[0] &= 0xf8; b[31] = (b[31] & 0x7f) | 0x40` -/
def clamp {n : Nat} (b : Bytes n) : Bytes n :=
  let b := b.set 0 (b.get 0 &&& 0xf8)
  b.set 31 (b.get 31 &&& 0x7f ||| 0x40)

def pubkeyFromScalar (baseNoclamp : Bytes 32 → Option (Bytes 32)) (scalar : Bytes 32) :
    Option (Bytes 32) := baseNoclamp scalar

def expandSeed (sha512 : Bytes 32 → Bytes 64) (seed : Bytes 32) : ExpandedSecretKey :=
  let h := clamp (sha512 seed)
  ⟨Bytes.ofList (h.1.take 32) (by rw [List.length_take, h.2]; rfl),
    Bytes.ofList (h.1.drop 32) (by rw [List.length_drop, h.2])⟩

instance : DecidableEq EdPoint := fun P Q =>
  decidable_of_iff (P.x = Q.x ∧ P.y = Q.y) TwistedEdwards.Point.ext_iff.symm

/-- `base_noclamp` returns the encoding of the scalar multiple, bit 255 of the scalar ignored, and
fails on the identity -/
def Rfc8032 (baseNoclamp : Bytes 32 → Option (Bytes 32)) : Prop :=
  ∀ s : Bytes 32, baseNoclamp s =
    if (s.toNat % 2^255) • basePoint = 0 then none
    else some (encodePoint ((s.toNat % 2^255) • basePoint))

/-! ## clamped scalars -/

/-- bits 0, 1, 2 and 255 clear, bit 254 set -/
def Clamped (s : Bytes 32) : Prop :=
  s.toNat.testBit 0 = false ∧ s.toNat.testBit 1 = false ∧ s.toNat.testBit 2 = false ∧
    s.toNat.testBit 255 = false ∧ s.toNat.testBit 254 = true

theorem and_0xf8 : ∀ x < 256, x &&& 0xf8 = x - x % 8 := by decide +kernel

theorem and_0x7f_or_0x40 : ∀ x < 256, 64 ≤ x &&& 0x7f ||| 0x40 ∧ x &&& 0x7f ||| 0x40 < 128 := by
  decide +kernel

theorem clamp_toNat (b : Bytes 32) :
    8 ∣ (clamp b).toNat ∧ 2^254 ≤ (clamp b).toNat ∧ (clamp b).toNat < 2^255 := by
  have h0 := Bytes.set_toNat b (show 0 < 32 by decide) (b.get 0 &&& 0xf8)
  rw [clamp]
  generalize b.set 0 (b.get 0 &&& 0xf8) = c at h0 ⊢
  have h31 := Bytes.set_toNat c (show 31 < 32 by decide) (c.get 31 &&& 0x7f ||| 0x40)
  have hlow : (b.get 0 &&& 0xf8).toNat = (b.get 0).toNat - (b.get 0).toNat % 8 :=
    and_0xf8 _ (b.get 0).toNat_lt
  have hhigh := and_0x7f_or_0x40 _ (c.get 31).toNat_lt
  have hv : (c.get 31 &&& 0x7f ||| 0x40).toNat = (c.get 31).toNat &&& 0x7f ||| 0x40 := rfl
  rw [← hv] at hhigh
  rw [hlow, Bytes.get_toNat, pow_zero, Nat.div_one] at h0
  rw [Bytes.get_toNat] at h31
  have hc := c.toNat_lt
  refine ⟨Nat.dvd_of_mod_eq_zero ?_, ?_, ?_⟩ <;> omega

theorem clamped_iff {s : Bytes 32} : Clamped s ↔
    8 ∣ s.toNat ∧ 2^254 ≤ s.toNat ∧ s.toNat < 2^255 := by
  have hs := s.toNat_lt
  simp only [Clamped, Nat.testBit_eq_decide_div_mod_eq, decide_eq_false_iff_not, decide_eq_true_eq]
  constructor
  · intro h
    refine ⟨Nat.dvd_of_mod_eq_zero ?_, ?_, ?_⟩ <;> omega
  · rintro ⟨h8, hlo, hhi⟩
    refine ⟨?_, ?_, ?_, ?_, ?_⟩ <;> omega

theorem clamp_clamped (b : Bytes 32) : Clamped (clamp b) := clamped_iff.mpr (clamp_toNat b)

theorem getD_take {l : List UInt8} {n i : Nat} (hi : i < n) : (l.take n).getD i 0 = l.getD i 0 := by
  rw [List.getD_eq_getElem?_getD, List.getElem?_take_of_lt hi, ← List.getD_eq_getElem?_getD]

theorem expandSeed_clamped (sha512 : Bytes 32 → Bytes 64) (seed : Bytes 32) :
    Clamped (expandSeed sha512 seed).scalar := by
  have hlen : ((sha512 seed).1.take 32).length = 32 := by
    rw [List.length_take, (sha512 seed).2]
    rfl
  have hscalar : (expandSeed sha512 seed).scalar = clamp (Bytes.ofList _ hlen) := by
    refine Bytes.ofList_eq ?_
    unfold clamp Bytes.set Bytes.get Bytes.ofList
    dsimp only
    rw [List.take_set, List.take_set, getD_take (by decide), ← List.take_set,
      getD_take (by decide), List.take_set]
  rw [hscalar]
  exact clamp_clamped _

/-! ## multiples of the base point -/

theorem x_eq_zero_of_double {P : EdPoint} (h : P + P = 0) : P.x = 0 := by
  have hx : P.x = -P.x := congrArg TwistedEdwards.Point.x (eq_neg_of_add_eq_zero_left h)
  have h2 : 2 * P.x = 0 := by linear_combination hx
  exact (mul_eq_zero.mp h2).resolve_left ed25519.two_ne

theorem double_x_eq_zero {P : EdPoint} (h : (P + P).x = 0) : P.x = 0 ∨ P.y = 0 := by
  rw [TwistedEdwards.Point.add_x, div_eq_zero_iff, or_iff_left (ed25519.one_add_ne P P)] at h
  have h2 : 2 * (P.x * P.y) = 0 := by linear_combination h
  exact mul_eq_zero.mp ((mul_eq_zero.mp h2).resolve_left ed25519.two_ne)

theorem double_y_eq_zero {P : EdPoint} (h : (P + P).y = 0) : P.y^2 + P.x^2 = 0 := by
  rw [TwistedEdwards.Point.add_y, div_eq_zero_iff, or_iff_left (ed25519.one_sub_ne P P)] at h
  linear_combination h

theorem eight_smul_basePoint : 8 • basePoint ≠ 0 := by
  have hne : ∀ n : Nat, n % P25519 ≠ 0 → (n : Fp) ≠ 0 := fun n hn h =>
    hn ((fp_eq_iff n 0).mp (h.trans Nat.cast_zero.symm))
  intro h
  have h4 : (4 • basePoint) + (4 • basePoint) = 0 := by rwa [← add_smul]
  have e4 : 4 • basePoint = (2 • basePoint) + (2 • basePoint) := by rw [← add_smul]
  have e2 : 2 • basePoint = basePoint + basePoint := two_smul _ _
  have hx4 := x_eq_zero_of_double h4
  rw [e4] at hx4
  rcases double_x_eq_zero hx4 with hx2 | hy2
  · rw [e2] at hx2
    rcases double_x_eq_zero hx2 with hx | hy
    · exact hne baseX (by decide +kernel) hx
    · exact hne baseY (by decide +kernel) hy
  · rw [e2] at hy2
    have hsum := double_y_eq_zero hy2
    refine hne (baseY^2 + baseX^2) (by decide +kernel) ?_
    rw [Nat.cast_add, Nat.cast_pow, Nat.cast_pow]
    exact hsum

end Onion
