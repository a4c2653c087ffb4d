import Onion.Crypto.FeArith

/-!
# Inversion and encoding are exact

* `invertChain_pow`, `invertChain_ok`   the addition chain is the power `p - 2`, the inverse, for
                   any exact `mul` and `sq`;
* `feInvert_pow`, `feInvert_ok`   `fe_invert` is that power, and inverts;
* `feToBytes_ok`   `fe_to_bytes` writes the value reduced below the modulus.
-/

namespace Onion
open Logged

/-! ## the addition chain

It is stated for any field elements `E` with values in several lanes `L`, on which `mul` and `sq`
are exact; `good` is the condition on their limbs. -/

section
variable {E L : Type} {mul : E → E → Run E} {sq : E → Run E} {good : E → Prop} {val : E → L → Fp}

/-- the product is exact in every lane -/
def ExactMul (mul : E → E → Run E) (good : E → Prop) (val : E → L → Fp) : Prop :=
  ∀ a b, good a → good b → Ok (mul a b) fun r => good r ∧ ∀ l, val r l = val a l * val b l

/-- the square is exact in every lane -/
def ExactSq (sq : E → Run E) (good : E → Prop) (val : E → L → Fp) : Prop :=
  ∀ a, good a → Ok (sq a) fun r => good r ∧ ∀ l, val r l = val a l * val a l

/-- `r` is the power `z^e` -/
def IsPow (good : E → Prop) (val : E → L → Fp) (z : E) (e : Nat) (r : E) : Prop :=
  good r ∧ ∀ l, val r l = val z l^e

variable {z a b : E} {m n e : Nat}

theorem mul_pow_ok (hmul : ExactMul mul good val) (ha : IsPow good val z m a)
    (hb : IsPow good val z n b) (he : m + n = e) : Ok (mul a b) (IsPow good val z e) := by
  refine (hmul a b ha.1 hb.1).mono fun r hr => ⟨hr.1, fun l => ?_⟩
  rw [hr.2, ha.2, hb.2, ← pow_add, he]

variable (hsq : ExactSq sq good val)
include hsq

theorem sq_pow_ok (ha : IsPow good val z m a) (he : m + m = e) :
    Ok (sq a) (IsPow good val z e) := by
  refine (hsq a ha.1).mono fun r hr => ⟨hr.1, fun l => ?_⟩
  rw [hr.2, ha.2, ← pow_add, he]

theorem sqTimes_ok (n : Nat) (ha : IsPow good val z m a) (he : m * 2^n = e) :
    Ok (sqTimes sq n a) (IsPow good val z e) := by
  rw [← he]
  refine Holds.forUp (fun i => IsPow good val z (m * 2^i)) n (by rwa [pow_zero, mul_one]) ?_
  intro i r _ hr
  exact sq_pow_ok hsq hr (by rw [pow_succ, ← mul_assoc]; omega)

/-- the power, with the limbs as the last product leaves them -/
theorem invertChain_pow (hmul : ExactMul mul good val) (tight : E → Prop)
    (htight : ∀ a b, good a → good b → tight (mul a b).val) (hz : good z) :
    Ok (invertChain mul sq z) fun r => tight r ∧ IsPow good val z (2^255 - 21) r := by
  have h1 : IsPow good val z 1 z := ⟨hz, fun _ => (pow_one _).symm⟩
  unfold invertChain
  refine (sq_pow_ok hsq h1 (e := 2) rfl).bind fun z2 k2 => ?_
  refine (sq_pow_ok hsq k2 (e := 4) rfl).bind fun t k4 => ?_
  refine (sq_pow_ok hsq k4 (e := 8) rfl).bind fun t k8 => ?_
  refine (mul_pow_ok hmul k8 h1 (e := 9) rfl).bind fun z9 k9 => ?_
  refine (mul_pow_ok hmul k9 k2 (e := 11) rfl).bind fun z11 k11 => ?_
  refine (sq_pow_ok hsq k11 (e := 22) rfl).bind fun t k22 => ?_
  refine (mul_pow_ok hmul k22 k9 (e := 2^5 - 1) rfl).bind fun z2_5_0 k5 => ?_
  refine (sqTimes_ok hsq 5 k5 (e := 2^10 - 2^5) rfl).bind fun t k => ?_
  refine (mul_pow_ok hmul k k5 (e := 2^10 - 1) rfl).bind fun z2_10_0 k10 => ?_
  refine (sqTimes_ok hsq 10 k10 (e := 2^20 - 2^10) rfl).bind fun t k => ?_
  refine (mul_pow_ok hmul k k10 (e := 2^20 - 1) rfl).bind fun z2_20_0 k20 => ?_
  refine (sqTimes_ok hsq 20 k20 (e := 2^40 - 2^20) rfl).bind fun t k => ?_
  refine (mul_pow_ok hmul k k20 (e := 2^40 - 1) rfl).bind fun t k => ?_
  refine (sqTimes_ok hsq 10 k (e := 2^50 - 2^10) rfl).bind fun t k => ?_
  refine (mul_pow_ok hmul k k10 (e := 2^50 - 1) rfl).bind fun z2_50_0 k50 => ?_
  refine (sqTimes_ok hsq 50 k50 (e := 2^100 - 2^50) rfl).bind fun t k => ?_
  refine (mul_pow_ok hmul k k50 (e := 2^100 - 1) rfl).bind fun z2_100_0 k100 => ?_
  refine (sqTimes_ok hsq 100 k100 (e := 2^200 - 2^100) rfl).bind fun t k => ?_
  refine (mul_pow_ok hmul k k100 (e := 2^200 - 1) rfl).bind fun t k => ?_
  refine (sqTimes_ok hsq 50 k (e := 2^250 - 2^50) rfl).bind fun t k => ?_
  refine (mul_pow_ok hmul k k50 (e := 2^250 - 1) rfl).bind fun t k => ?_
  refine (sqTimes_ok hsq 5 k (e := 2^255 - 2^5) rfl).bind fun t k => ?_
  have hlast := mul_pow_ok hmul k k11 (e := 2^255 - 21) rfl
  exact ⟨hlast.1, htight _ _ k.1 k11.1, hlast.2⟩

theorem invertChain_ok (hmul : ExactMul mul good val) (hz : good z) :
    Ok (invertChain mul sq z) fun r => good r ∧ ∀ l, val r l = (val z l)⁻¹ := by
  refine (invertChain_pow hsq hmul (fun _ => True) (fun _ _ _ _ => trivial) hz).mono fun r hr =>
    ⟨hr.2.1, fun l => ?_⟩
  rw [hr.2.2, fp_pow_inv]

end

/-! ## `fe_invert` -/

theorem feMul_exact : ExactMul feMul (fun f => f.Bnd (2^54)) fun f (_ : Unit) => f.toFp :=
  fun _ _ ha hb => (feMul_ok ha hb).mono fun _ hr => ⟨hr.1.mono (by norm_num), fun _ => hr.2⟩

theorem feSq_exact : ExactSq feSq (fun f => f.Bnd (2^54)) fun f (_ : Unit) => f.toFp :=
  fun _ ha => (feSq_ok ha).mono fun _ hr => ⟨hr.1.mono (by norm_num), fun _ => hr.2⟩

theorem feInvert_pow {z : Fe} (hz : z.Bnd (2^54)) :
    Ok (feInvert z) fun r => r.Bnd (2^51) ∧ r.toFp = z.toFp^(2^255 - 21) := by
  have htight : ∀ a b : Fe, a.Bnd (2^54) → b.Bnd (2^54) → (feMul a b).val.Bnd (2^51) :=
    fun a b ha hb => (feMul_ok ha hb).2.1
  refine (invertChain_pow feSq_exact feMul_exact (fun f => f.Bnd (2^51)) htight hz).bind
    fun r ⟨hr, hpow⟩ => ?_
  have hval : r.toFp = z.toFp^(2^255 - 21) := hpow.2 ()
  exact ok_called (hval.trans (fp_pow_inv z.toFp)) ⟨hr, hval⟩

theorem feInvert_ok {z : Fe} (hz : z.Bnd (2^54)) :
    Ok (feInvert z) fun r => r.Bnd (2^54) ∧ r.toFp = z.toFp⁻¹ :=
  (feInvert_pow hz).mono fun _ hr =>
    ⟨hr.1.mono (by norm_num), hr.2.trans (fp_pow_inv z.toFp)⟩

/-- **`fe_invert` is the power `p - 2`**, without any wrap: the inverse of what is not zero, and
zero of zero. -/
theorem feInvert_inverse {z : Fe} (hz : z.Bnd (2^54)) :
    Ok (feInvert z) fun r => r.val ≡ z.val^(2^255 - 21) [MOD P25519] ∧
      (¬ z.val ≡ 0 [MOD P25519] → z.val * r.val ≡ 1 [MOD P25519]) ∧
      (z.val ≡ 0 [MOD P25519] → r.val ≡ 0 [MOD P25519]) := by
  refine (feInvert_pow hz).mono fun r ⟨_, hr⟩ => ⟨?_, ?_, ?_⟩
  · rw [← Fe.congruent_iff, Nat.cast_pow]
    exact hr
  · intro hne
    have hz0 : z.toFp ≠ 0 := fun h => hne (Fe.congruent_iff.mp (h.trans Nat.cast_zero.symm))
    have hone : z.toFp * r.toFp = 1 := by
      rw [hr, fp_pow_inv, mul_inv_cancel₀ hz0]
    refine (fp_eq_iff _ _).mp ?_
    rw [Nat.cast_mul, Nat.cast_one]
    exact hone
  · intro h0
    have hz0 : z.toFp = 0 := (Fe.congruent_iff.mpr h0).trans Nat.cast_zero
    rw [← Fe.congruent_iff, hr, fp_pow_inv, hz0, inv_zero, Nat.cast_zero]

/-- `2`, and the limbs of the modulus -/
theorem feInvert_inverse_modulus :
    let two : Fe := ⟨2, 0, 0, 0, 0⟩
    let p : Fe := ⟨2^51 - 19, 2^51 - 1, 2^51 - 1, 2^51 - 1, 2^51 - 1⟩
    two.val * (feInvert two).val.val ≡ 1 [MOD P25519] ∧ (feInvert p).val.val ≡ 0 [MOD P25519] := by
  intro two p
  have htwo : two.Bnd (2^54) := ⟨by decide, by decide, by decide, by decide, by decide⟩
  have hp : p.Bnd (2^54) := ⟨by decide, by decide, by decide, by decide, by decide⟩
  exact ⟨(feInvert_inverse htwo).2.2.1 (by decide), (feInvert_inverse hp).2.2.2 (by decide)⟩

/-! ## `fe_to_bytes` -/

theorem carry_ok {t : Fe} {B : Nat} (ht : t.Bnd B) (hB : B ≤ 2^62) :
    Ok (carry t) fun r => r.val = t.val ∧ r.v0 < 2^51 ∧ r.v1 < 2^51 ∧ r.v2 < 2^51 ∧ r.v3 < 2^51 := by
  obtain ⟨h0, h1, h2, h3, h4⟩ := ht
  unfold carry
  simp only [and_M, Nat.shiftRight_eq_div_pow]
  refine ok_word (by omega) fun t1 e1 => ?_
  refine ok_word (by omega) fun t2 e2 => ?_
  refine ok_word (by omega) fun t3 e3 => ?_
  refine ok_word (by omega) fun t4 e4 => Holds.pure ?_
  simp only [Fe.val]
  omega

/-- every limb is below `2^51`, the lowest one up to `B` more -/
def Fe.Tight (f : Fe) (B : Nat) : Prop :=
  f.v0 < 2^51 + B ∧ f.v1 < 2^51 ∧ f.v2 < 2^51 ∧ f.v3 < 2^51 ∧ f.v4 < 2^51

/-- one round folds the bits above `2^255` back in as multiples of `19` -/
theorem carryFull_ok {t : Fe} {B : Nat} (ht : t.Bnd B) (hB : B ≤ 2^62) :
    Ok (carryFull t) fun r => r.val = t.val % 2^255 + 19 * (t.val / 2^255) ∧
      r.Tight (19 * (t.val / 2^255)) := by
  have hv : t.val < 2^268 := by
    obtain ⟨h0, h1, h2, h3, h4⟩ := ht
    unfold Fe.val
    omega
  unfold carryFull
  simp only [and_M, Nat.shiftRight_eq_div_pow]
  refine (carry_ok ht hB).bind fun c ⟨hc, h0, h1, h2, h3⟩ => ?_
  have hq : c.v4 / 2^51 = t.val / 2^255 := by
    rw [← hc]; unfold Fe.val; omega
  have hr : c.v0 + 2^51 * c.v1 + 2^102 * c.v2 + 2^153 * c.v3 + 2^204 * (c.v4 % 2^51)
      = t.val % 2^255 := by
    rw [← hc]; unfold Fe.val; omega
  rw [hq]
  refine ok_word (by omega) fun u0 e0 => Holds.pure ⟨?_, ?_⟩
  · show u0 + 2^51 * c.v1 + 2^102 * c.v2 + 2^153 * c.v3 + 2^204 * (c.v4 % 2^51) = _
    omega
  · simp only [Fe.Tight]
    omega

/-- the eight bytes of `write51`: the top of one limb and the bottom of the next -/
theorem le_write51 (lo hi shift : Nat) (hlo : lo < 2^51) (hs : shift ≤ 51) :
    le (write51 lo hi shift) = lo / 2^shift + 2^(51 - shift) * (hi % 2^(13 + shift)) := by
  have hsplit : (2:Nat)^64 = 2^(51 - shift) * 2^(13 + shift) := by
    rw [← pow_add]; congr 1; omega
  have hlo2 : lo / 2^shift < 2^(51 - shift) := by
    rw [Nat.div_lt_iff_lt_mul (by positivity), ← pow_add]
    rwa [Nat.sub_add_cancel hs]
  have hhi : hi <<< (51 - shift) % 2^64 = (hi % 2^(13 + shift)) <<< (51 - shift) := by
    rw [Nat.shiftLeft_eq, Nat.shiftLeft_eq, hsplit, mul_comm hi, Nat.mul_mod_mul_left, mul_comm]
  have h64 : lo / 2^shift + 2^(51 - shift) * (hi % 2^(13 + shift)) < 256^8 := by
    have h := Nat.mod_lt hi (Nat.two_pow_pos (13 + shift))
    calc _ < 2^(51 - shift) + 2^(51 - shift) * (hi % 2^(13 + shift)) := by omega
      _ = 2^(51 - shift) * (hi % 2^(13 + shift) + 1) := by ring
      _ ≤ 2^(51 - shift) * 2^(13 + shift) := Nat.mul_le_mul_left _ h
      _ = 256^8 := by rw [← hsplit]; norm_num
  rw [write51, le_leBytes, hhi, Nat.shiftRight_eq_div_pow, Nat.or_comm,
    ← Nat.shiftLeft_add_eq_or_of_lt hlo2, Nat.shiftLeft_eq, mul_comm _ (2^_), Nat.add_comm,
    Nat.mod_eq_of_lt h64]

/-- five limbs below `2^51` are packed into 32 bytes without loss -/
theorem le_write51_all {f : Fe} (hf : f.Tight 0) :
    le (write51 f.v0 f.v1 0 ++ write51 f.v1 f.v2 13 ++ write51 f.v2 f.v3 26 ++ write51 f.v3 f.v4 39)
      = f.val := by
  obtain ⟨h0, h1, h2, h3, h4⟩ := hf
  simp only [le_append, List.length_append, write51_length]
  rw [le_write51 _ _ _ h0 (by norm_num), le_write51 _ _ _ h1 (by norm_num),
    le_write51 _ _ _ h2 (by norm_num), le_write51 _ _ _ h3 (by norm_num)]
  simp only [Fe.val]
  omega

theorem Fe.Tight.mono {f : Fe} {B C : Nat} (h : f.Tight B) (hB : B ≤ C) : f.Tight C :=
  ⟨h.1.trans_le (by omega), h.2⟩

theorem Fe.Tight.bnd {f : Fe} {B C : Nat} (h : f.Tight B) (hB : 2^51 + B ≤ C) : f.Bnd C := by
  obtain ⟨h0, h1, h2, h3, h4⟩ := h
  exact ⟨by omega, by omega, by omega, by omega, by omega⟩

theorem Fe.Tight.add_v0 {f : Fe} {B n : Nat} (h : f.Tight B) :
    Fe.Tight { f with v0 := f.v0 + n } (B + n) := by
  obtain ⟨h0, h1, h2, h3, h4⟩ := h
  exact ⟨by simp only; omega, h1, h2, h3, h4⟩

/-- folding twice, adding `19` and folding again leaves the reduced value plus `19` -/
theorem fold_mod {v a b c : Nat} (hv : v < 9 * 2^255) (ha : a = v % 2^255 + 19 * (v / 2^255))
    (hb : b = a % 2^255 + 19 * (a / 2^255))
    (hc : c = (b + 19) % 2^255 + 19 * ((b + 19) / 2^255)) : c = v % P25519 + 19 := by
  have hp : P25519 = 2^255 - 19 := rfl
  rw [hp]
  omega

/-- the first half of `fe_to_bytes` -/
theorem fold_ok {α : Type} {Q : α → Prop} {f : Fe} {k : Fe → Run α} (hf : f.Bnd (2^54))
    (hk : ∀ w : Fe, w.Tight 19 → w.val = f.val % P25519 + 19 → Ok (k w) Q) :
    Ok (carryFull f >>= fun t => carryFull t >>= fun t => u64 (t.v0 + 19) >>= fun t0 =>
      carryFull { t with v0 := t0 } >>= k) Q := by
  have hv : f.val < 9 * 2^255 := by
    obtain ⟨h0, h1, h2, h3, h4⟩ := hf
    unfold Fe.val
    omega
  refine (carryFull_ok hf (by norm_num)).bind fun t ⟨ht, a⟩ => ?_
  refine (carryFull_ok (a.bnd (C := 2^52) (by omega)) (by norm_num)).bind fun u ⟨hu, b⟩ => ?_
  refine ok_word (by have := b.1; omega) fun u0 e0 => ?_
  subst e0
  have hu19 : Fe.val { u with v0 := u.v0 + 19 } = u.val + 19 := by
    dsimp only [Fe.val]; omega
  refine (carryFull_ok ((b.add_v0 (n := 19)).bnd (C := 2^52) (by omega)) (by norm_num)).bind
    fun w ⟨hw, c⟩ => ?_
  rw [hu19] at hw c
  exact hk w (c.mono (by omega)) (fold_mod hv ht hu hw)

/-- the second half: adding `2^255 - 19` and dropping bit 255 takes the `19` away again -/
theorem unbias_ok {α : Type} {Q : α → Prop} {w : Fe} {x : Nat} {k : Fe → Run α}
    (hw : w.Tight 19) (hv : w.val = x + 19) (hx : x + 19 < 2^255)
    (hk : ∀ y : Fe, Fe.Tight { y with v4 := y.v4 &&& M } 0 →
      Fe.val { y with v4 := y.v4 &&& M } = x → Ok (k y) Q) :
    Ok (u64 (w.v0 + (M + 1 - 19)) >>= fun t0 => u64 (w.v1 + M) >>= fun t1 =>
      u64 (w.v2 + M) >>= fun t2 => u64 (w.v3 + M) >>= fun t3 => u64 (w.v4 + M) >>= fun t4 =>
      carry ⟨t0, t1, t2, t3, t4⟩ >>= k) Q := by
  obtain ⟨h0, h1, h2, h3, h4⟩ := hw
  have hM : M = 2251799813685247 := rfl
  refine ok_word (by omega) fun w0 g0 => ok_word (by omega) fun w1 g1 => ?_
  refine ok_word (by omega) fun w2 g2 => ok_word (by omega) fun w3 g3 => ?_
  refine ok_word (by omega) fun w4 g4 => ?_
  have hw255 : Fe.val ⟨w0, w1, w2, w3, w4⟩ = x + 2^255 := by
    have e : Fe.val ⟨w0, w1, w2, w3, w4⟩ = w.val + (2^255 - 19) := by
      dsimp only [Fe.val]; omega
    omega
  refine (carry_ok (t := ⟨w0, w1, w2, w3, w4⟩) (B := 2^53) ⟨by simp only; omega,
    by simp only; omega, by simp only; omega, by simp only; omega, by simp only; omega⟩
    (by norm_num)).bind fun y ⟨hy, d0, d1, d2, d3⟩ => ?_
  rw [hw255] at hy
  refine hk y ⟨d0, d1, d2, d3, ?_⟩ ?_
  · show y.v4 &&& M < 2^51
    rw [and_M]
    omega
  · rw [and_M]
    dsimp only [Fe.val] at hy ⊢
    omega

theorem feToBytes_ok {f : Fe} (hf : f.Bnd (2^54)) :
    Ok (feToBytes f) fun r => r.toNat = f.toFp.val := by
  have hmod : f.val % P25519 = f.toFp.val := (ZMod.val_natCast P25519 f.val).symm
  have hx : f.val % P25519 + 19 < 2^255 := by
    have h := Nat.mod_lt f.val (show P25519 > 0 by decide)
    have hp := p25519_add
    omega
  unfold feToBytes
  refine fold_ok hf fun w hw hv => unbias_ok hw hv hx fun y hy hval => ?_
  have hout := (le_write51_all hy).trans (hval.trans hmod)
  exact ok_emit hout (Holds.pure hout)

end Onion
