import Onion.Crypto.Fe4Arith

/-!
# Loading and storing four lanes

* `fe4Load_val`      the limbs of a lane stand for the low 255 bits of its string;
* `contract_ok`      the contraction writes the value of its limbs, reduced below the modulus;
* `fe4StoreY_ok`     storing writes the canonical bytes of every lane.
-/

namespace Onion

/-! ## loading -/

def val10 (x : Vector Nat 10) : Nat :=
  x[0] + 2^26 * x[1] + 2^51 * x[2] + 2^77 * x[3] + 2^102 * x[4] + 2^128 * x[5] + 2^153 * x[6] +
    2^179 * x[7] + 2^204 * x[8] + 2^230 * x[9]

theorem val10_mk (a b c d e f g h i j : Nat) :
    val10 #v[a, b, c, d, e, f, g, h, i, j] = a + 2^26 * b + 2^51 * c + 2^77 * d + 2^102 * e +
      2^128 * f + 2^153 * g + 2^179 * h + 2^204 * i + 2^230 * j := rfl

theorem and_2_26 (x : Nat) : x &&& 0x3ffffff = x % 2^26 := Nat.and_two_pow_sub_one_eq_mod x 26
theorem and_2_25 (x : Nat) : x &&& 0x1ffffff = x % 2^25 := Nat.and_two_pow_sub_one_eq_mod x 25

theorem low_add (x k w : Nat) : x % 2^(k + w) = x % 2^k + 2^k * (x / 2^k % 2^w) := by
  rw [pow_add, Nat.mod_mul]

/-- a digit that lies in one word -/
theorem rd32_digit (b : Bytes 32) (i : Nat) {s w : Nat} (h : s + w ≤ 32) :
    rd32 b i >>> s % 2^w = b.toNat / 2^(8 * i + s) % 2^w := by
  have h32 : (2:Nat)^32 = 2^s * 2^(32 - s) := by rw [← pow_add, Nat.add_sub_cancel' (by omega)]
  have h256 : (256:Nat)^i = 2^(8 * i) := (pow_mul 2 8 i).symm
  rw [rd32, Nat.shiftRight_eq_div_pow, h32, Nat.mod_mul_right_div_self,
    Nat.mod_mod_of_dvd _ (pow_dvd_pow 2 (by omega)), Nat.div_div_eq_div_mul, h256, ← pow_add]

theorem expand_val (b : Bytes 32) : val10 (expand b) = b.toNat % 2^255 := by
  have h0 : rd32 b 0 >>> 0 % 2^26 = b.toNat % 2^26 := by
    rw [rd32_digit b 0 (by norm_num), Nat.mul_zero, pow_zero, Nat.div_one]
  rw [expand, val10_mk]
  simp only [and_2_26, and_2_25, h0]
  rw [rd32_digit b 3 (by norm_num), rd32_digit b 6 (by norm_num), rd32_digit b 9 (by norm_num),
    rd32_digit b 12 (by norm_num), rd32_digit b 16 (by norm_num), rd32_digit b 19 (by norm_num),
    rd32_digit b 22 (by norm_num), rd32_digit b 25 (by norm_num), rd32_digit b 28 (by norm_num)]
  generalize b.toNat = x
  rw [low_add x 230 25, low_add x 204 26, low_add x 179 25, low_add x 153 26, low_add x 128 25,
    low_add x 102 26, low_add x 77 25, low_add x 51 26, low_add x 26 25]

theorem expand_lt (b : Bytes 32) (i : Fin 10) : (expand b)[i] < 2^26 := by
  have h26 (x : Nat) : x &&& 0x3ffffff < 2^26 := by rw [and_2_26]; omega
  have h25 (x : Nat) : x &&& 0x1ffffff < 2^26 := by rw [and_2_25]; omega
  fin_cases i
  exacts [h26 _, h25 _, h26 _, h25 _, h26 _, h25 _, h26 _, h25 _, h26 _, h25 _]

def Fe4.limbs (f : Fe4) (l : Fin 4) : Vector Nat 10 := f.map fun v => v.lane l

theorem Fe4.val_limbs (f : Fe4) (l : Fin 4) : f.val l = val10 (f.limbs l) := by
  simp only [Fe4.val, val10, Fe4.limbs, Vector.getElem_map_fin]

theorem fe4Load_limbs (b : Vector (Bytes 32) 4) (l : Fin 4) :
    Fe4.limbs (fe4Load b) l = expand b[l] := by
  apply Vector.ext_fin
  intro i
  simp [Fe4.limbs, fe4Load, M256.lane]

theorem fe4Load_bnd (b : Vector (Bytes 32) 4) : (fe4Load b).Bnd (2^26) := fun i l => by
  have e : ((fe4Load b)[i]).lane l = (expand b[l])[i] := by simp [fe4Load, M256.lane]
  rw [e]
  exact expand_lt _ i

theorem fe4Load_val (b : Vector (Bytes 32) 4) (l : Fin 4) :
    Fe4.val (fe4Load b) l = (b[l]).toNat % 2^255 := by
  rw [Fe4.val_limbs, fe4Load_limbs, expand_val]

/-! ## 32-bit operations -/

section
variable {x y : BitVec 32} {n : Nat}

theorem msb_of_lt (h : x.toNat < 2^31) : x.msb = false := by
  rw [BitVec.msb_eq_decide, decide_eq_false_iff_not]
  omega

theorem sar_toNat (h : x.toNat < 2^31) (n : Nat) : (x.sshiftRight n).toNat = x.toNat / 2^n := by
  rw [BitVec.toNat_sshiftRight_of_msb_false (msb_of_lt h), Nat.shiftRight_eq_div_pow]

theorem signedCarry_nonneg (h : x.toNat < 2^31) (n : Nat) : signedCarry x n = (x, 0#32) := by
  have hmask : x.sshiftRight 31 = 0 := by
    apply BitVec.eq_of_toNat_eq
    rw [sar_toNat h, Nat.div_eq_of_lt h]
    rfl
  unfold signedCarry
  simp [hmask]

/-- a carry on a limb that has just received one -/
theorem limbCarry_add {c : BitVec 32} {r : BitVec 32 × BitVec 32} (hx : x.toNat < 2^28)
    (hc : c.toNat ≤ 2^8) (hn : 25 ≤ n) (hn' : n < 32) (hr : r = limbCarry (x + c) n) :
    r.1.toNat = (x.toNat + c.toNat) % 2^n ∧ r.2.toNat = (x.toNat + c.toNat) / 2^n ∧
      r.2.toNat ≤ 2^8 := by
  have hadd : (x + c).toNat = x.toNat + c.toNat := by
    rw [BitVec.toNat_add, Nat.mod_eq_of_lt (by omega)]
  have hlt : 2^n - 1 < 2^32 := by
    have := Nat.pow_lt_pow_right (a := 2) (by norm_num) hn'
    omega
  have hd : ((x + c).sshiftRight n).toNat = (x.toNat + c.toNat) / 2^n := by
    rw [sar_toNat (by omega), hadd]
  subst hr
  refine ⟨?_, hd, ?_⟩
  · show ((x + c) &&& BitVec.ofNat 32 (2^n - 1)).toNat = _
    rw [BitVec.toNat_and, BitVec.toNat_ofNat, Nat.mod_eq_of_lt hlt, Nat.and_two_pow_sub_one_eq_mod,
      hadd]
  · show ((x + c).sshiftRight n).toNat ≤ _
    rw [hd]
    calc (x.toNat + c.toNat) / 2^n ≤ (x.toNat + c.toNat) / 2^25 :=
          Nat.div_le_div_left (Nat.pow_le_pow_right (by norm_num) hn) (by norm_num)
      _ ≤ 2^8 := by omega

theorem add_19 {a c : BitVec 32} (ha : a.toNat < 2^28) (hc : c.toNat ≤ 2^8) :
    (a + 19 * c).toNat = a.toNat + 19 * c.toNat := by
  rw [BitVec.toNat_add, BitVec.toNat_mul]
  have h : (19 : BitVec 32).toNat = 19 := rfl
  rw [h]
  omega

/-- the sign of a word, spread over it -/
theorem sar_31 (x : BitVec 32) : x.sshiftRight 31 = if x.msb then BitVec.allOnes 32 else 0 := by
  apply BitVec.eq_of_getLsbD_eq
  intro i hi
  have hbit : (if 31 + i < 32 then x.getLsbD (31 + i) else x.msb) = x.msb := by
    split
    · obtain rfl : i = 0 := by omega
      rw [BitVec.msb_eq_getLsbD_last]
    · rfl
  rw [BitVec.getLsbD_sshiftRight, hbit, decide_eq_false (by omega : ¬ 32 ≤ i)]
  cases x.msb
  · simp
  · rw [if_pos rfl, BitVec.getLsbD_allOnes, decide_eq_true hi]
    rfl

theorem s32Gte_eq (hx : x.toNat < 2^31) (hy : y.toNat < 2^31) :
    s32Gte x y = if y.toNat ≤ x.toNat then BitVec.allOnes 32 else 0 := by
  have hmsb : (x - y).msb = decide (¬ y.toNat ≤ x.toNat) := by
    rw [BitVec.msb_eq_decide, BitVec.toNat_sub]
    apply decide_eq_decide.mpr
    omega
  rw [s32Gte, sar_31, hmsb]
  by_cases h : y.toNat ≤ x.toNat
  · simp [h]
  · simp [h]

/-- folding a word onto itself leaves in the top bit the conjunction of all bits -/
theorem s32Eq_eq (x y : BitVec 32) : s32Eq x y = if x = y then BitVec.allOnes 32 else 0 := by
  have hz : x = y ↔ ~~~(x ^^^ y) = BitVec.allOnes 32 := by
    rw [BitVec.not_eq_comm, BitVec.not_allOnes, eq_comm, BitVec.xor_eq_zero_iff]
    exact eq_comm
  unfold s32Eq
  simp only [sar_31, hz]
  generalize ~~~(x ^^^ y) = z
  congr 1
  rw [BitVec.msb_eq_getLsbD_last, eq_iff_iff]
  constructor
  · intro h
    simp at h
    apply BitVec.eq_of_getElem_eq
    intro i hi
    interval_cases i <;> simp [h]
  · rintro rfl
    decide

end

/-! ## the passes of `contract` -/

def Limbs32.val (x : Limbs32) : Nat := val10 (x.map BitVec.toNat)

theorem Limbs32.val_mk (a b c d e f g h i j : BitVec 32) :
    Limbs32.val #v[a, b, c, d, e, f, g, h, i, j] = a.toNat + 2^26 * b.toNat + 2^51 * c.toNat +
      2^77 * d.toNat + 2^102 * e.toNat + 2^128 * f.toNat + 2^153 * g.toNat + 2^179 * h.toNat +
      2^204 * i.toNat + 2^230 * j.toNat := by
  simp only [Limbs32.val, val10, Vector.getElem_map_fin]
  rfl

/-- limbs `1 .. 9` are below their width -/
def Limbs32.Tight (x : Limbs32) : Prop :=
  x[1].toNat < 2^25 ∧ x[2].toNat < 2^26 ∧ x[3].toNat < 2^25 ∧ x[4].toNat < 2^26 ∧
    x[5].toNat < 2^25 ∧ x[6].toNat < 2^26 ∧ x[7].toNat < 2^25 ∧ x[8].toNat < 2^26 ∧
    x[9].toNat < 2^25

theorem ten_eta {α : Type} (x : Vector α 10) :
    #v[x[0], x[1], x[2], x[3], x[4], x[5], x[6], x[7], x[8], x[9]] = x := by
  apply Vector.ext_fin
  intro i
  fin_cases i <;> rfl

section
variable {x : Limbs32} (hx : ∀ i : Fin 10, (x[i]).toNat < 2^31)
include hx

theorem signedPass_id : signedPass x = x := by
  have e0 := signedCarry_nonneg (hx 0) 26
  have e1 := signedCarry_nonneg (hx 1) 25
  have e2 := signedCarry_nonneg (hx 2) 26
  have e3 := signedCarry_nonneg (hx 3) 25
  have e4 := signedCarry_nonneg (hx 4) 26
  have e5 := signedCarry_nonneg (hx 5) 25
  have e6 := signedCarry_nonneg (hx 6) 26
  have e7 := signedCarry_nonneg (hx 7) 25
  have e8 := signedCarry_nonneg (hx 8) 26
  have e9 := signedCarry_nonneg (hx 9) 25
  simp only [signedPass, e0, e1, e2, e3, e4, e5, e6, e7, e8, e9, BitVec.sub_zero, BitVec.zero_mul,
    ten_eta]

theorem signedFirst_id : signedFirst x = x := by
  have e0 : signedCarry x[0] 26 = (x[0], 0#32) := signedCarry_nonneg (hx 0) 26
  simp only [signedFirst, e0, BitVec.sub_zero, ten_eta]

end

/-- the chain of carries, on numbers -/
theorem carry_digits {x0 x1 x2 x3 x4 x5 x6 x7 x8 x9 y0 y1 y2 y3 y4 y5 y6 y7 y8 y9
    c0 c1 c2 c3 c4 c5 c6 c7 c8 c9 N : Nat} (r0 : y0 = x0 % 2^26) (d0 : c0 = x0 / 2^26)
    (r1 : y1 = (x1 + c0) % 2^25) (d1 : c1 = (x1 + c0) / 2^25)
    (r2 : y2 = (x2 + c1) % 2^26) (d2 : c2 = (x2 + c1) / 2^26)
    (r3 : y3 = (x3 + c2) % 2^25) (d3 : c3 = (x3 + c2) / 2^25)
    (r4 : y4 = (x4 + c3) % 2^26) (d4 : c4 = (x4 + c3) / 2^26)
    (r5 : y5 = (x5 + c4) % 2^25) (d5 : c5 = (x5 + c4) / 2^25)
    (r6 : y6 = (x6 + c5) % 2^26) (d6 : c6 = (x6 + c5) / 2^26)
    (r7 : y7 = (x7 + c6) % 2^25) (d7 : c7 = (x7 + c6) / 2^25)
    (r8 : y8 = (x8 + c7) % 2^26) (d8 : c8 = (x8 + c7) / 2^26)
    (r9 : y9 = (x9 + c8) % 2^25) (d9 : c9 = (x9 + c8) / 2^25)
    (hN : N = x0 + 2^26 * x1 + 2^51 * x2 + 2^77 * x3 + 2^102 * x4 + 2^128 * x5 + 2^153 * x6 +
      2^179 * x7 + 2^204 * x8 + 2^230 * x9) :
    y0 = N % 2^26 ∧ c9 = N / 2^255 ∧ y0 + 2^26 * y1 + 2^51 * y2 + 2^77 * y3 + 2^102 * y4 +
      2^128 * y5 + 2^153 * y6 + 2^179 * y7 + 2^204 * y8 + 2^230 * y9 = N % 2^255 := by
  have h : y0 + 2^26 * y1 + 2^51 * y2 + 2^77 * y3 + 2^102 * y4 + 2^128 * y5 + 2^153 * y6 +
      2^179 * y7 + 2^204 * y8 + 2^230 * y9 + 2^255 * c9 = N := by omega
  have hlt : y0 + 2^26 * y1 + 2^51 * y2 + 2^77 * y3 + 2^102 * y4 + 2^128 * y5 + 2^153 * y6 +
      2^179 * y7 + 2^204 * y8 + 2^230 * y9 < 2^255 := by omega
  refine ⟨by omega, by omega, by omega⟩

theorem carryPass_eq (x : Limbs32) : ∃ r0 r1 r2 r3 r4 r5 r6 r7 r8 r9 : BitVec 32 × BitVec 32,
      r0 = limbCarry (x[0] + 0#32) 26 ∧
      r1 = limbCarry (x[1] + r0.2) 25 ∧
      r2 = limbCarry (x[2] + r1.2) 26 ∧
      r3 = limbCarry (x[3] + r2.2) 25 ∧
      r4 = limbCarry (x[4] + r3.2) 26 ∧
      r5 = limbCarry (x[5] + r4.2) 25 ∧
      r6 = limbCarry (x[6] + r5.2) 26 ∧
      r7 = limbCarry (x[7] + r6.2) 25 ∧
      r8 = limbCarry (x[8] + r7.2) 26 ∧
      r9 = limbCarry (x[9] + r8.2) 25 ∧
      carryPass x = #v[r0.1 + 19 * r9.2, r1.1, r2.1, r3.1, r4.1, r5.1, r6.1, r7.1, r8.1, r9.1] :=
  ⟨limbCarry x[0] 26, _, _, _, _, _, _, _, _, _, by rw [BitVec.add_zero], rfl, rfl, rfl, rfl, rfl, rfl,
    rfl, rfl, rfl, rfl⟩

/-- **One pass of carries** on limbs below `2^28`: the value, with the bits above 255 folded in. -/
theorem carryPass_ok {x : Limbs32} (hx : ∀ i : Fin 10, (x[i]).toNat < 2^28) :
    (carryPass x).Tight ∧ (carryPass x).val = x.val % 2^255 + 19 * (x.val / 2^255) ∧
      (carryPass x)[0].toNat = x.val % 2^26 + 19 * (x.val / 2^255) := by
  obtain ⟨r0, r1, r2, r3, r4, r5, r6, r7, r8, r9, e0, e1, e2, e3, e4, e5, e6, e7, e8, e9, hr⟩ :=
    carryPass_eq x
  obtain ⟨a0, d0, b0⟩ := limbCarry_add (hx 0) (by decide) (by norm_num) (by norm_num) e0
  obtain ⟨a1, d1, b1⟩ := limbCarry_add (hx 1) b0 (by norm_num) (by norm_num) e1
  obtain ⟨a2, d2, b2⟩ := limbCarry_add (hx 2) b1 (by norm_num) (by norm_num) e2
  obtain ⟨a3, d3, b3⟩ := limbCarry_add (hx 3) b2 (by norm_num) (by norm_num) e3
  obtain ⟨a4, d4, b4⟩ := limbCarry_add (hx 4) b3 (by norm_num) (by norm_num) e4
  obtain ⟨a5, d5, b5⟩ := limbCarry_add (hx 5) b4 (by norm_num) (by norm_num) e5
  obtain ⟨a6, d6, b6⟩ := limbCarry_add (hx 6) b5 (by norm_num) (by norm_num) e6
  obtain ⟨a7, d7, b7⟩ := limbCarry_add (hx 7) b6 (by norm_num) (by norm_num) e7
  obtain ⟨a8, d8, b8⟩ := limbCarry_add (hx 8) b7 (by norm_num) (by norm_num) e8
  obtain ⟨a9, d9, b9⟩ := limbCarry_add (hx 9) b8 (by norm_num) (by norm_num) e9
  have hN : x.val = x[0].toNat + (0#32).toNat + 2^26 * x[1].toNat + 2^51 * x[2].toNat +
      2^77 * x[3].toNat + 2^102 * x[4].toNat + 2^128 * x[5].toNat + 2^153 * x[6].toNat +
      2^179 * x[7].toNat + 2^204 * x[8].toNat + 2^230 * x[9].toNat := by
    simp [Limbs32.val, val10]
  obtain ⟨g0, g9, g⟩ := carry_digits a0 d0 a1 d1 a2 d2 a3 d3 a4 d4 a5 d5 a6 d6 a7 d7 a8 d8 a9 d9 hN
  have h19 := add_19 (a := r0.1) (by rw [a0]; exact (Nat.mod_lt _ (by norm_num)).trans (by norm_num)) b9
  rw [hr]
  refine ⟨⟨?_, ?_, ?_, ?_, ?_, ?_, ?_, ?_, ?_⟩, ?_, ?_⟩
  · exact a1.trans_lt (Nat.mod_lt _ (by norm_num))
  · exact a2.trans_lt (Nat.mod_lt _ (by norm_num))
  · exact a3.trans_lt (Nat.mod_lt _ (by norm_num))
  · exact a4.trans_lt (Nat.mod_lt _ (by norm_num))
  · exact a5.trans_lt (Nat.mod_lt _ (by norm_num))
  · exact a6.trans_lt (Nat.mod_lt _ (by norm_num))
  · exact a7.trans_lt (Nat.mod_lt _ (by norm_num))
  · exact a8.trans_lt (Nat.mod_lt _ (by norm_num))
  · exact a9.trans_lt (Nat.mod_lt _ (by norm_num))
  · rw [Limbs32.val_mk, h19, ← g9, ← g]
    ring
  · show (r0.1 + 19 * r9.2).toNat = _
    rw [h19, ← g9, ← g0]

/-! ## the subtraction of `p` -/

theorem and_ite (p q : Prop) [Decidable p] [Decidable q] :
    (if p then BitVec.allOnes 32 else 0) &&& (if q then BitVec.allOnes 32 else 0)
      = if p ∧ q then BitVec.allOnes 32 else (0 : BitVec 32) := by
  by_cases hp : p <;> by_cases hq : q <;> simp [hp, hq]

/-- the limbs are those of a value that is not reduced -/
def Limbs32.Full (x : Limbs32) : Prop :=
  0x3ffffed ≤ x[0].toNat ∧ x[1] = 0x1ffffff ∧ x[2] = 0x3ffffff ∧ x[3] = 0x1ffffff ∧
    x[4] = 0x3ffffff ∧ x[5] = 0x1ffffff ∧ x[6] = 0x3ffffff ∧ x[7] = 0x1ffffff ∧
    x[8] = 0x3ffffff ∧ x[9] = 0x1ffffff

instance (x : Limbs32) : Decidable x.Full := inferInstanceAs (Decidable (_ ∧ _))

theorem Limbs32.val_eq (x : Limbs32) : x.val = x[0].toNat + 2^26 * x[1].toNat + 2^51 * x[2].toNat +
    2^77 * x[3].toNat + 2^102 * x[4].toNat + 2^128 * x[5].toNat + 2^153 * x[6].toNat +
    2^179 * x[7].toNat + 2^204 * x[8].toNat + 2^230 * x[9].toNat := by
  simp only [Limbs32.val, val10, Vector.getElem_map_fin]

theorem Limbs32.full_iff {x : Limbs32} (h0 : x[0].toNat < 2^26) (h : x.Tight) :
    x.Full ↔ P25519 ≤ x.val := by
  obtain ⟨h1, h2, h3, h4, h5, h6, h7, h8, h9⟩ := h
  have hp : P25519 = 2^255 - 19 := rfl
  have e (y : BitVec 32) (n : Nat) (hn : n < 2^32) : y = BitVec.ofNat 32 n ↔ y.toNat = n := by
    rw [← BitVec.toNat_inj, BitVec.toNat_ofNat, Nat.mod_eq_of_lt hn]
  have e25 (y : BitVec 32) : y = 0x1ffffff ↔ y.toNat = 2^25 - 1 := e y _ (by norm_num)
  have e26 (y : BitVec 32) : y = 0x3ffffff ↔ y.toNat = 2^26 - 1 := e y _ (by norm_num)
  rw [x.val_eq, hp]
  simp only [Full, e25, e26]
  constructor <;> intro _ <;> omega

theorem subP_eq (x : Limbs32) (h0 : x[0].toNat < 2^26) :
    subP x = if x.Full then #v[x[0] - 0x3ffffed, 0, 0, 0, 0, 0, 0, 0, 0, 0] else x := by
  have hp0 : (0x3ffffed : BitVec 32).toNat < 2^31 := by decide
  have hgte : s32Gte x[0] limbsP[0] = _ := s32Gte_eq (h0.trans (by norm_num)) hp0
  have hmask : subP x = Vector.ofFn fun i : Fin 10 =>
      x[i] - ((if x.Full then BitVec.allOnes 32 else 0) &&& limbsP[i]) := by
    simp only [subP, hgte, s32Eq_eq, and_ite, and_assoc]
    rfl
  rw [hmask]
  split
  · rename_i hf
    obtain ⟨g0, g1, g2, g3, g4, g5, g6, g7, g8, g9⟩ := hf
    apply Vector.ext_fin
    intro i
    rw [Vector.getElem_ofFn_fin, BitVec.allOnes_and]
    have z {y p : BitVec 32} (h : y = p) : y - p = 0#32 := by rw [h, BitVec.sub_self]
    fin_cases i
    exacts [rfl, z g1, z g2, z g3, z g4, z g5, z g6, z g7, z g8, z g9]
  · apply Vector.ext_fin
    intro i
    simp

/-- **The conditional subtraction** takes tight limbs below `2^255` to the reduced ones. -/
theorem subP_ok {x : Limbs32} (h0 : x[0].toNat < 2^26) (h : x.Tight) :
    (subP x)[0].toNat < 2^26 ∧ (subP x).Tight ∧ (subP x).val = x.val % P25519 := by
  have hp : P25519 = 2^255 - 19 := rfl
  have hfull := x.full_iff h0 h
  rw [subP_eq x h0]
  split
  · rename_i hf
    have h' := hf
    obtain ⟨g0, g1, g2, g3, g4, g5, g6, g7, g8, g9⟩ := hf
    have hsub : (x[0] - 0x3ffffed).toNat = x[0].toNat - 0x3ffffed := by
      have hc : (0x3ffffed : BitVec 32).toNat = 0x3ffffed := rfl
      rw [BitVec.toNat_sub_of_le (by rw [BitVec.le_def, hc]; exact g0), hc]
    refine ⟨?_, ?_, ?_⟩
    · show (x[0] - 0x3ffffed).toNat < 2^26
      omega
    · simp [Limbs32.Tight]
    · have hz : (0 : BitVec 32).toNat = 0 := rfl
      have h25 : (0x1ffffff : BitVec 32).toNat = 2^25 - 1 := rfl
      have h26 : (0x3ffffff : BitVec 32).toNat = 2^26 - 1 := rfl
      rw [Limbs32.val_mk, hsub, hz, x.val_eq, g1, g2, g3, g4, g5, g6, g7, g8, g9, h25, h26, hp]
      omega
  · rename_i hf
    refine ⟨h0, h, (Nat.mod_eq_of_lt ?_).symm⟩
    rw [hfull] at hf
    omega

/-! ## the serialisation -/

theorem sar_byte (x : BitVec 32) {k : Nat} (hk : k = 0 ∨ k = 8 ∨ k = 16 ∨ k = 24) :
    (UInt8.ofNat (x.sshiftRight k &&& 0xff).toNat).toNat = x.toNat / 2^k % 256 := by
  have h255 : (0xff : BitVec 32).toNat = 2^8 - 1 := rfl
  have hx := x.isLt
  rw [UInt8.toNat_ofNat', BitVec.toNat_and, h255, Nat.and_two_pow_sub_one_eq_mod]
  cases h : x.msb
  · rw [BitVec.toNat_sshiftRight_of_msb_false h, Nat.shiftRight_eq_div_pow]
    omega
  · rw [BitVec.toNat_sshiftRight_of_msb_true h, Nat.shiftRight_eq_div_pow]
    rcases hk with rfl | rfl | rfl | rfl <;> omega

theorem set_past {o : Bytes 32} {i : Nat} (hi : i < 32) (h : o.toNat < 256^i) (b : UInt8) :
    (o.set i b).toNat = o.toNat + 256^i * b.toNat ∧ (o.set i b).toNat < 256^(i + 1) := by
  have hset := o.set_toNat hi b
  rw [Bytes.get_toNat, Nat.div_eq_of_lt h, Nat.zero_mod, Nat.mul_zero, Nat.add_zero] at hset
  refine ⟨hset, ?_⟩
  have hb := b.toNat_lt
  calc (o.set i b).toNat < 256^i + 256^i * b.toNat := by omega
    _ = 256^i * (b.toNat + 1) := by ring
    _ ≤ 256^i * 256 := Nat.mul_le_mul_left _ (by omega)
    _ = 256^(i + 1) := (pow_succ _ _).symm

/-- a byte or-ed onto the `j` bits that are there -/
theorem or_past {o : Bytes 32} {i j : Nat} (hi : i < 32) (hj : j ≤ 8) (h : o.toNat < 256^i * 2^j)
    {b : UInt8} (hb : 2^j ∣ b.toNat) :
    (o.set i (o.get i ||| b)).toNat = o.toNat + 256^i * b.toNat ∧
      (o.set i (o.get i ||| b)).toNat < 256^(i + 1) := by
  have hset := o.set_toNat hi (o.get i ||| b)
  have hg : (o.get i).toNat < 2^j := by
    rw [Bytes.get_toNat]
    exact (Nat.mod_le _ _).trans_lt (Nat.div_lt_of_lt_mul h)
  obtain ⟨v, hv⟩ := hb
  have hor : (o.get i ||| b).toNat = (o.get i).toNat + b.toNat := by
    rw [UInt8.toNat_or, hv, Nat.or_comm, ← Nat.two_pow_add_eq_or_of_lt hg, Nat.add_comm]
  have hlt := (o.get i ||| b).toNat_lt
  rw [hor] at hset hlt
  have hsum : (o.set i (o.get i ||| b)).toNat = o.toNat + 256^i * b.toNat := by
    rw [Nat.mul_add] at hset
    omega
  refine ⟨hsum, ?_⟩
  have hdiv : o.toNat < 256^i * ((o.get i).toNat + 1) := by
    have hlt8 : o.toNat / 256^i < 256 := by
      apply Nat.div_lt_of_lt_mul
      calc o.toNat < 256^i * 2^j := h
        _ ≤ 256^i * 256 := Nat.mul_le_mul_left _ (Nat.pow_le_pow_right (by norm_num) hj)
    rw [Bytes.get_toNat, Nat.mod_eq_of_lt hlt8]
    exact Nat.lt_mul_div_succ _ (by positivity)
  rw [hsum]
  calc o.toNat + 256^i * b.toNat < 256^i * ((o.get i).toNat + 1) + 256^i * b.toNat := by omega
    _ = 256^i * ((o.get i).toNat + b.toNat + 1) := by ring
    _ ≤ 256^i * 256 := Nat.mul_le_mul_left _ (by omega)
    _ = 256^(i + 1) := (pow_succ _ _).symm

/-- **`F`** adds a shifted limb at its byte. -/
theorem putLimb_ok {o : Bytes 32} {x : BitVec 32} {s j : Nat} (hs : s ≤ 28) (hj : j ≤ 8)
    (h : o.toNat < 256^s * 2^j) (hx : 2^j ∣ x.toNat) :
    (putLimb o x s).toNat = o.toNat + 256^s * x.toNat := by
  have b0 := sar_byte x (k := 0) (by omega)
  have b1 := sar_byte x (k := 8) (by omega)
  have b2 := sar_byte x (k := 16) (by omega)
  have b3 := sar_byte x (k := 24) (by omega)
  have hdvd : 2^j ∣ (UInt8.ofNat (x.sshiftRight 0 &&& 0xff).toNat).toNat := by
    rw [b0, pow_zero, Nat.div_one]
    have h8 : 2^j ∣ 256 := (Nat.pow_dvd_pow 2 hj)
    exact (Nat.dvd_mod_iff h8).mpr hx
  obtain ⟨e0, l0⟩ := or_past (by omega) hj h hdvd
  obtain ⟨e1, l1⟩ := set_past (by omega) l0 (UInt8.ofNat (x.sshiftRight 8 &&& 0xff).toNat)
  obtain ⟨e2, l2⟩ := set_past (by omega) l1 (UInt8.ofNat (x.sshiftRight 16 &&& 0xff).toNat)
  obtain ⟨e3, -⟩ := set_past (by omega) l2 (UInt8.ofNat (x.sshiftRight 24 &&& 0xff).toNat)
  have hsplit : x.toNat = x.toNat / 2^0 % 256 + 256 * (x.toNat / 2^8 % 256) +
      65536 * (x.toNat / 2^16 % 256) + 16777216 * (x.toNat / 2^24 % 256) := by
    have := x.isLt
    omega
  unfold putLimb
  rw [e3, e2, e1, e0, b0, b1, b2, b3]
  conv_rhs => rw [hsplit]
  ring

theorem shl_toNat {x : BitVec 32} {b j : Nat} (hx : x.toNat < 2^b) (h : b + j ≤ 32) :
    (x <<< j).toNat = 2^j * x.toNat := by
  have hlt : 2^j * x.toNat < 2^32 := by
    calc 2^j * x.toNat < 2^j * 2^b := Nat.mul_lt_mul_of_pos_left hx (by positivity)
      _ = 2^(b + j) := by rw [← pow_add, Nat.add_comm]
      _ ≤ 2^32 := Nat.pow_le_pow_right (by norm_num) h
  rw [BitVec.toNat_shiftLeft, Nat.shiftLeft_eq, Nat.mul_comm, Nat.mod_eq_of_lt hlt]

/-- **Serialisation** of tight limbs writes their value. -/
theorem putLimbs_ok {x : Limbs32} (h0 : x[0].toNat < 2^26) (h : x.Tight) :
    (putLimbs x).toNat = x.val := by
  obtain ⟨h1, h2, h3, h4, h5, h6, h7, h8, h9⟩ := h
  have s1 := shl_toNat (j := 2) h1 (by norm_num)
  have s2 := shl_toNat (j := 3) h2 (by norm_num)
  have s3 := shl_toNat (j := 5) h3 (by norm_num)
  have s4 := shl_toNat (j := 6) h4 (by norm_num)
  have s6 := shl_toNat (j := 1) h6 (by norm_num)
  have s7 := shl_toNat (j := 3) h7 (by norm_num)
  have s8 := shl_toNat (j := 4) h8 (by norm_num)
  have s9 := shl_toNat (j := 6) h9 (by norm_num)
  have z : (Bytes.ofNat 32 0).toNat = 0 := by decide
  unfold putLimbs
  have e0 := putLimb_ok (o := Bytes.ofNat 32 0) (x := x[0]) (s := 0) (j := 0) (by norm_num)
    (by norm_num) (by rw [z]; norm_num) (one_dvd _)
  rw [z] at e0
  have e1 := putLimb_ok (s := 3) (j := 2) (by norm_num) (by norm_num) (by rw [e0]; omega)
    (s1 ▸ Nat.dvd_mul_right _ _)
  rw [s1, e0] at e1
  have e2 := putLimb_ok (s := 6) (j := 3) (by norm_num) (by norm_num) (by rw [e1]; omega)
    (s2 ▸ Nat.dvd_mul_right _ _)
  rw [s2, e1] at e2
  have e3 := putLimb_ok (s := 9) (j := 5) (by norm_num) (by norm_num) (by rw [e2]; omega)
    (s3 ▸ Nat.dvd_mul_right _ _)
  rw [s3, e2] at e3
  have e4 := putLimb_ok (s := 12) (j := 6) (by norm_num) (by norm_num) (by rw [e3]; omega)
    (s4 ▸ Nat.dvd_mul_right _ _)
  rw [s4, e3] at e4
  have e5 := putLimb_ok (x := x[5]) (s := 16) (j := 0) (by norm_num) (by norm_num)
    (by rw [e4]; omega) (one_dvd _)
  rw [e4] at e5
  have e6 := putLimb_ok (s := 19) (j := 1) (by norm_num) (by norm_num) (by rw [e5]; omega)
    (s6 ▸ Nat.dvd_mul_right _ _)
  rw [s6, e5] at e6
  have e7 := putLimb_ok (s := 22) (j := 3) (by norm_num) (by norm_num) (by rw [e6]; omega)
    (s7 ▸ Nat.dvd_mul_right _ _)
  rw [s7, e6] at e7
  have e8 := putLimb_ok (s := 25) (j := 4) (by norm_num) (by norm_num) (by rw [e7]; omega)
    (s8 ▸ Nat.dvd_mul_right _ _)
  rw [s8, e7] at e8
  have e9 := putLimb_ok (s := 28) (j := 6) (by norm_num) (by norm_num) (by rw [e8]; omega)
    (s9 ▸ Nat.dvd_mul_right _ _)
  rw [s9, e8] at e9
  rw [e9, x.val_eq]
  omega

/-! ## `fe4_store_y` -/

theorem Limbs32.Tight.lt {x : Limbs32} (h0 : x[0].toNat < 2^28) (h : x.Tight) :
    ∀ i : Fin 10, (x[i]).toNat < 2^28 := by
  obtain ⟨h1, h2, h3, h4, h5, h6, h7, h8, h9⟩ := h
  intro i
  fin_cases i
  · exact h0
  · exact h1.trans (by norm_num)
  · exact h2.trans (by norm_num)
  · exact h3.trans (by norm_num)
  · exact h4.trans (by norm_num)
  · exact h5.trans (by norm_num)
  · exact h6.trans (by norm_num)
  · exact h7.trans (by norm_num)
  · exact h8.trans (by norm_num)
  · exact h9.trans (by norm_num)

/-- two folds reduce to below `2^255`, with limb 0 tight as well -/
theorem fold_twice {N M R : Nat} (hN : N < 2^258) (hM : M = N % 2^255 + 19 * (N / 2^255))
    (hR : R = M % 2^255 + 19 * (M / 2^255)) :
    M % 2^26 + 19 * (M / 2^255) < 2^26 ∧ R % P25519 = N % P25519 := by
  have hp : P25519 = 2^255 - 19 := rfl
  rw [hp]
  constructor <;> omega

/-- **`contract`** writes the value of its limbs, reduced below the modulus. -/
theorem contract_ok {src : Vector Nat 10} (h : ∀ i : Fin 10, src[i] < 2^27) :
    (contract src).toNat = val10 src % P25519 := by
  obtain ⟨x, hx⟩ : ∃ x : Limbs32, src.map (BitVec.ofNat 32) = x := ⟨_, rfl⟩
  have hsrc : x.map BitVec.toNat = src := by
    apply Vector.ext_fin
    intro i
    have h32 : src[i] < 2^32 := (h i).trans (by norm_num)
    rw [← hx, Vector.getElem_map_fin, Vector.getElem_map_fin, BitVec.toNat_ofNat,
      Nat.mod_eq_of_lt h32]
  have hval : x.val = val10 src := by rw [Limbs32.val, hsrc]
  have hlt : ∀ i : Fin 10, (x[i]).toNat < 2^27 := fun i => by
    rw [← Vector.getElem_map_fin BitVec.toNat, hsrc]
    exact h i
  have h31 : ∀ i : Fin 10, (x[i]).toNat < 2^31 := fun i => (hlt i).trans (by norm_num)
  have hN : x.val < 2^258 := by
    have g0 : x[0].toNat < 2^27 := hlt 0
    have g1 : x[1].toNat < 2^27 := hlt 1
    have g2 : x[2].toNat < 2^27 := hlt 2
    have g3 : x[3].toNat < 2^27 := hlt 3
    have g4 : x[4].toNat < 2^27 := hlt 4
    have g5 : x[5].toNat < 2^27 := hlt 5
    have g6 : x[6].toNat < 2^27 := hlt 6
    have g7 : x[7].toNat < 2^27 := hlt 7
    have g8 : x[8].toNat < 2^27 := hlt 8
    have g9 : x[9].toNat < 2^27 := hlt 9
    rw [x.val_eq]
    omega
  -- the signed passes do nothing, the others fold twice
  simp only [contract, hx, signedPass_id h31, signedFirst_id h31]
  obtain ⟨t1, v1, z1⟩ := carryPass_ok fun i => (hlt i).trans (by norm_num)
  have hlt1 := t1.lt (by rw [z1]; omega)
  obtain ⟨t2, v2, z2⟩ := carryPass_ok hlt1
  obtain ⟨h26, hmod⟩ := fold_twice hN v1 v2
  obtain ⟨s0, st, sv⟩ := subP_ok (by rw [z2]; exact h26) t2
  rw [putLimbs_ok s0 st, sv, hmod, hval]

theorem fe4StoreY_ok {f : Fe4} (hf : f.Bnd (2^27)) (l : Fin 4) :
    ((fe4StoreY f)[l]).toNat = (f.toFp l).val := by
  have e : (fe4StoreY f)[l] = contract (f.limbs l) := by simp [fe4StoreY, Fe4.limbs]
  have hlt : ∀ i : Fin 10, (f.limbs l)[i] < 2^27 := fun i => by
    have e : (f.limbs l)[i] = (f[i]).lane l := by simp [Fe4.limbs]
    rw [e]
    exact hf i l
  rw [e, contract_ok hlt, ← Fe4.val_limbs]
  exact (ZMod.val_natCast _ _).symm

end Onion
