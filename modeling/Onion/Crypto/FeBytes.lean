import Onion.Crypto.FeInvert

/-!
# Bytes and field elements

* `load64_eq`        eight bytes are a digit in base `2^64`;
* `feFromBytes_eq`   the limbs of `fe_from_bytes` are digits in base `2^51`;
* `canonBytes`        the bytes of the representative below the modulus;
* `canonical_bytes`  `fe_to_bytes` writes the one representative below the modulus, and undoes
                     `fe_from_bytes` on the strings that encode one.
-/

namespace Onion
open Logged

/-! ## `load64` -/

theorem foldr_load (s : Bytes 32) {n : Nat} (hn : n ≤ 8) (off : Nat) :
    (List.range n).foldr (fun i r => (r <<< 8) % 2^64 ||| (s.get (off + i)).toNat) 0
      = s.toNat / 256^off % 256^n := by
  induction n generalizing off with
  | zero => rw [pow_zero, Nat.mod_one]; rfl
  | succ n ih =>
    have hshift : (fun i r => (r <<< 8) % 2^64 ||| (s.get (off + (i + 1))).toNat)
        = fun i r => (r <<< 8) % 2^64 ||| (s.get (off + 1 + i)).toNat := by
      funext i r
      rw [Nat.add_assoc, Nat.add_comm 1 i]
    have hbyte : (s.get off).toNat < 2^8 := (s.get off).toNat_lt
    have hrest : s.toNat / 256^(off + 1) % 256^n < 2^56 := by
      have h56 : (2:Nat)^56 = 256^7 := rfl
      rw [h56]
      exact (Nat.mod_lt _ (by positivity)).trans_le (Nat.pow_le_pow_right (by norm_num) (by omega))
    have hlt : (s.toNat / 256^(off + 1) % 256^n) <<< 8 < 2^64 := by
      rw [Nat.shiftLeft_eq]
      omega
    rw [List.range_succ_eq_map, List.foldr_cons, List.foldr_map, Nat.add_zero]
    simp only [Nat.succ_eq_add_one]
    rw [hshift, ih (by omega), Nat.mod_eq_of_lt hlt, ← Nat.shiftLeft_add_eq_or_of_lt hbyte,
      Nat.shiftLeft_eq, Bytes.get_toNat, pow_succ' 256 n, Nat.mod_mul, Nat.div_div_eq_div_mul,
      ← pow_succ]
    omega

theorem load64_eq (s : Bytes 32) (off : Nat) : load64 s off = s.toNat / 256^off % 2^64 :=
  foldr_load s le_rfl off

/-! ## `fe_from_bytes` -/

/-- the top bits of one word and the bottom bits of the next -/
theorem or_words {lo : Nat} (hi : Nat) {k : Nat} (hk : k ≤ 64) (hlo : lo < 2^64) :
    lo >>> (64 - k) ||| (hi <<< k) % 2^64 = (lo + 2^64 * hi) / 2^(64 - k) % 2^64 := by
  have hsplit : (2:Nat)^64 = 2^(64 - k) * 2^k := by
    rw [← pow_add, Nat.sub_add_cancel hk]
  have htop : lo / 2^(64 - k) < 2^k := Nat.div_lt_of_lt_mul (by rwa [← hsplit])
  have hdiv : (lo + 2^64 * hi) / 2^(64 - k) = lo / 2^(64 - k) + 2^k * hi := by
    rw [hsplit, Nat.mul_assoc, Nat.add_mul_div_left _ _ (by positivity)]
  have hmul : hi <<< k % 2^64 = (hi % 2^(64 - k)) <<< k := by
    rw [Nat.shiftLeft_eq, Nat.shiftLeft_eq, hsplit, Nat.mul_mod_mul_right]
  have hmod : (lo / 2^(64 - k) + 2^k * hi) % 2^64 = lo / 2^(64 - k) + 2^k * (hi % 2^(64 - k)) := by
    rw [hsplit, mul_comm (2^(64 - k)), Nat.mod_mul, Nat.add_mul_mod_self_left,
      Nat.mod_eq_of_lt htop, Nat.add_mul_div_left _ _ (by positivity), Nat.div_eq_of_lt htop,
      Nat.zero_add]
  rw [hdiv, hmod, hmul, Nat.shiftRight_eq_div_pow, Nat.or_comm, ← Nat.shiftLeft_add_eq_or_of_lt htop,
    Nat.shiftLeft_eq]
  ring

/-- five digits in base `2^51` -/
theorem feFromBytes_eq (s : Bytes 32) : feFromBytes s =
    ⟨s.toNat % 2^51, s.toNat / 2^51 % 2^51, s.toNat / 2^102 % 2^51, s.toNat / 2^153 % 2^51,
      s.toNat / 2^204 % 2^51⟩ := by
  have hlt (off : Nat) : load64 s off < 2^64 := by
    rw [load64_eq]
    exact Nat.mod_lt _ (by norm_num)
  have h1 : load64 s 0 >>> 51 ||| (load64 s 8 <<< 13) % 2^64 = _ :=
    or_words (load64 s 8) (show 13 ≤ 64 by norm_num) (hlt 0)
  have h2 : load64 s 8 >>> 38 ||| (load64 s 16 <<< 26) % 2^64 = _ :=
    or_words (load64 s 16) (show 26 ≤ 64 by norm_num) (hlt 8)
  have h3 : load64 s 16 >>> 25 ||| (load64 s 24 <<< 39) % 2^64 = _ :=
    or_words (load64 s 24) (show 39 ≤ 64 by norm_num) (hlt 16)
  have hs : s.toNat < 2^256 := s.toNat_lt
  simp only [feFromBytes, h1, h2, h3, and_M]
  simp only [load64_eq, Nat.shiftRight_eq_div_pow]
  apply Fe.ext
  all_goals simp only
  all_goals omega

theorem feFromBytes_bnd (s : Bytes 32) : (feFromBytes s).Bnd (2^51) := by
  rw [feFromBytes_eq]
  exact ⟨by simp only; omega, by simp only; omega, by simp only; omega, by simp only; omega,
    by simp only; omega⟩

theorem feFromBytes_val (s : Bytes 32) : (feFromBytes s).val = s.toNat % 2^255 := by
  rw [feFromBytes_eq]
  simp only [Fe.val]
  omega

/-! ## encodings -/

/-- the canonical 32 bytes of a field element -/
def canonBytes (x : Fp) : Bytes 32 := Bytes.ofNat 32 x.val

theorem canonBytes_toNat (x : Fp) : (canonBytes x).toNat = x.val := by
  have h := ZMod.val_lt x
  have hp := p25519_add
  have h2 : (256:Nat)^32 = 2^256 := rfl
  rw [canonBytes, Bytes.toNat_ofNat, Nat.mod_eq_of_lt]
  omega

/-! ## both ways -/

/-- **Canonical bytes**: `fe_to_bytes` writes the representative below the modulus, the same for
congruent elements, and undoes `fe_from_bytes` exactly on the strings that encode one. -/
theorem canonical_bytes {f g : Fe} (hf : f.Bnd (2^54)) (hg : g.Bnd (2^54)) (s : Bytes 32) :
    Ok (feToBytes f) (fun r => r.toNat = f.val % P25519 ∧ r.toNat < 2^255) ∧
      (f.val ≡ g.val [MOD P25519] → (feToBytes f).val = (feToBytes g).val) ∧
      Ok (feToBytes (feFromBytes s)) (fun r => r.toNat = s.toNat % 2^255 % P25519 ∧
        (r = s ↔ s.toNat < P25519)) := by
  have hp := p25519_add
  have hmod (h : Fe) : h.toFp.val = h.val % P25519 := ZMod.val_natCast P25519 h.val
  have hlt (n : Nat) : n % P25519 < P25519 := Nat.mod_lt n (by decide)
  refine ⟨?_, ?_, ?_⟩
  · refine (feToBytes_ok hf).mono fun r hr => ?_
    rw [hmod] at hr
    have h := hlt f.val
    exact ⟨hr, by omega⟩
  · intro hfg
    apply Bytes.toNat_inj
    rw [(feToBytes_ok hf).2, (feToBytes_ok hg).2, hmod, hmod, hfg]
  · refine (feToBytes_ok ((feFromBytes_bnd s).mono (by norm_num))).mono fun r hr => ?_
    rw [hmod, feFromBytes_val] at hr
    refine ⟨hr, ?_⟩
    constructor
    · intro h
      have h1 := hlt (s.toNat % 2^255)
      rwa [← hr, h] at h1
    · intro h
      apply Bytes.toNat_inj
      rw [hr, Nat.mod_eq_of_lt (by omega : s.toNat < 2^255), Nat.mod_eq_of_lt h]

/-- `2^255` and `19`, and the bytes of `2^255 - 1` -/
theorem canonical_bytes_wrap :
    (feToBytes ⟨0, 0, 0, 0, 2^51⟩).val = (feToBytes ⟨19, 0, 0, 0, 0⟩).val ∧
      (feToBytes (feFromBytes (Bytes.ofNat 32 (2^255 - 1)))).val.toNat = 18 := by
  obtain ⟨-, h1, h2⟩ := canonical_bytes (f := ⟨0, 0, 0, 0, 2^51⟩) (g := ⟨19, 0, 0, 0, 0⟩)
    ⟨by decide, by decide, by decide, by decide, by decide⟩
    ⟨by decide, by decide, by decide, by decide, by decide⟩ (Bytes.ofNat 32 (2^255 - 1))
  refine ⟨h1 (by decide +kernel), h2.2.1.trans ?_⟩
  rw [Bytes.toNat_ofNat]
  decide +kernel

end Onion
