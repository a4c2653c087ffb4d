import Onion.Lib.Words
import Onion.Crypto.Field25519

/-!
# `device_field32.cuh`: the device field on eight 32-bit words

An element is any number below `2^256`, a representative modulo `2^255 - 19`; carries out of the top
word come back as multiples of `38 = 2^256`.

* `reduceWide_val`     what the two folds and the last ripple leave of a product;
* `fedMul_iff`         products and squares are right until the second fold carries out of the top
                       word: that carry is added as `1`;
* `fedSub_iff`         differences are right unless the subtraction borrows out of the top word;
* `fedAdd_iff`         sums are right until the fold carries: that carry is dropped.
-/

namespace Onion

abbrev Fe32 := Words 8

def Fe32.toFp (a : Fe32) : Fp := (a.val : Fp)

/-! ## the operations -/

/-- `acc[i] = r[i] + 38 * r[8 + i]` -/
def foldColumn (lo hi : UInt32) : UInt64 := lo.toUInt64 + 38 * hi.toUInt64

/-- weak reduction of a product: fold the high half, then the carry of that, then the carry of that
as it is -/
def fed32ReduceWide (r : Words 16) : Fe32 :=
  let acc := List.zipWith foldColumn (r.1.take 8) (r.1.drop 8)
  let first := propagate acc 0
  let second := ripple first.1 (first.2 * 38)
  ⟨(ripple second.1 second.2).1, by
    rw [ripple_length, ripple_length, propagate_length, List.length_zipWith, List.length_take,
      List.length_drop, r.2]
    rfl⟩

/-- schoolbook product of 16 words -/
def wideMul (a b : Fe32) : Words 16 :=
  ⟨mulRows a.1 b.1 (List.replicate 16 0), by
    have h := (mulRows_val a.1 b.1 (v := List.replicate 8 0) (by rw [List.length_replicate, b.2])).1
    rw [a.2, b.2] at h
    exact h⟩

def fedMul (a b : Fe32) : Fe32 := fed32ReduceWide (wideMul a b)

def fedSq (a : Fe32) : Fe32 := fedMul a a

/-- `v = a[i] + b[i]` -/
def addColumn (x y : UInt32) : UInt64 := x.toUInt64 + y.toUInt64

def fedAdd (a b : Fe32) : Fe32 :=
  let sum := propagate (List.zipWith addColumn a.1 b.1) 0
  ⟨(ripple sum.1 (sum.2 * 38)).1, by
    rw [ripple_length, propagate_length, List.length_zipWith, a.2, b.2]
    rfl⟩

/-- `2p = 2^256 - 38` -/
def twoP : Words 8 := ⟨0xffffffda :: List.replicate 7 0xffffffff, rfl⟩

/-- add `2p`, subtract, and fold the net top word; both of its signs fold by adding `38` -/
def fedSub (a b : Fe32) : Fe32 :=
  let sum := propagate (List.zipWith addColumn a.1 twoP.1) 0
  let diff := subtract sum.1 b.1 0
  let top : Int := (sum.2.toNat : Int) - diff.2.toNat
  let fold : UInt64 :=
    if 0 < top then UInt64.ofNat top.toNat * 38 else if top < 0 then 38 else 0
  ⟨(ripple diff.1 fold).1, by
    have hsum : sum.1.length = 8 := by
      rw [propagate_length, List.length_zipWith, a.2]
      rfl
    rw [ripple_length, subtract_length (hsum.trans b.2.symm), hsum]⟩

/-! ## columns -/

theorem foldColumn_val (lo hi : UInt32) : (foldColumn lo hi).toNat = lo.toNat + 38 * hi.toNat := by
  have hlo := lo.toNat_lt
  have hhi := hi.toNat_lt
  have h38 : (38 : UInt64).toNat = 38 := rfl
  rw [foldColumn, UInt64.toNat_add, UInt64.toNat_mul, UInt32.toNat_toUInt64, UInt32.toNat_toUInt64,
    h38]
  omega

theorem addColumn_val (x y : UInt32) : (addColumn x y).toNat = x.toNat + 1 * y.toNat := by
  have hx := x.toNat_lt
  have hy := y.toNat_lt
  rw [addColumn, UInt64.toNat_add, UInt32.toNat_toUInt64, UInt32.toNat_toUInt64]
  omega

theorem columns_lt {f : UInt32 → UInt32 → UInt64} {k : Nat} (hk : k ≤ 38)
    (hf : ∀ x y, (f x y).toNat = x.toNat + k * y.toNat) {a b : List UInt32} :
    ∀ c ∈ List.zipWith f a b, c.toNat < 2^63 := by
  intro c hc
  obtain ⟨i, hi, rfl⟩ := List.mem_iff_getElem.mp hc
  rw [List.getElem_zipWith, hf]
  rw [List.length_zipWith, lt_min_iff] at hi
  have hx := a[i].toNat_lt
  have hy := b[i].toNat_lt
  have hky : k * b[i].toNat ≤ 38 * b[i].toNat := Nat.mul_le_mul_right _ hk
  omega

theorem propagate_columns {f : UInt32 → UInt32 → UInt64} {k : Nat} (hk : k ≤ 38)
    (hf : ∀ x y, (f x y).toNat = x.toNat + k * y.toNat) {a b : List UInt32} (ha : a.length = 8)
    (hb : b.length = 8) :
    let r := propagate (List.zipWith f a b) 0
    r.1.length = 8 ∧ wordsVal r.1 = (wordsVal a + k * wordsVal b) % 2^256 ∧
      r.2.toNat = (wordsVal a + k * wordsVal b) / 2^256 := by
  intro r
  have hlen : (List.zipWith f a b).length = 8 := by
    rw [List.length_zipWith, ha, hb]
    rfl
  have hr : r.1.length = 8 := (propagate_length _ _).trans hlen
  have hval := propagate_val (columns_lt hk hf (a := a) (b := b))
    (show (0 : UInt64).toNat < 2^63 by decide)
  rw [columnsVal_zipWith hf (ha.trans hb.symm), hlen, ← hr] at hval
  obtain ⟨hw, hc⟩ := words_carry hval
  rw [show r.1.length = 8 from hr] at hw hc
  exact ⟨hr, hw, hc⟩

theorem ripple_words {w : List UInt32} (hw : w.length = 8) {fold : UInt64}
    (hf : fold.toNat < 2^63) :
    let r := ripple w fold
    r.1.length = 8 ∧ wordsVal r.1 = (wordsVal w + fold.toNat) % 2^256 ∧
      r.2.toNat = (wordsVal w + fold.toNat) / 2^256 := by
  intro r
  have hr : r.1.length = 8 := (ripple_length _ _).trans hw
  have hval := ripple_val w hf
  rw [hw, ← hr] at hval
  obtain ⟨h1, h2⟩ := words_carry hval
  rw [show r.1.length = 8 from hr] at h1 h2
  exact ⟨hr, h1, h2⟩

/-! ## products -/

/-- the high half of `n` brought back -/
def foldHigh (n : Nat) : Nat := n % 2^256 + 38 * (n / 2^256)

theorem mul38_toNat {c : UInt64} (hc : c.toNat < 2^32) : (c * 38).toNat = 38 * c.toNat := by
  have h38 : (38 : UInt64).toNat = 38 := rfl
  rw [UInt64.toNat_mul, h38]
  omega

/-- two folds, and then the carry as it is -/
theorem reduceWide_val (r : Words 16) :
    (fed32ReduceWide r).val =
      foldHigh (foldHigh r.val) % 2^256 + foldHigh (foldHigh r.val) / 2^256 := by
  have hlo : (r.1.take 8).length = 8 := by rw [List.length_take, r.2]; rfl
  have hhi : (r.1.drop 8).length = 8 := by rw [List.length_drop, r.2]
  have hr : r.val = wordsVal (r.1.take 8) + 2^256 * wordsVal (r.1.drop 8) := by
    have h := wordsVal_append (r.1.take 8) (r.1.drop 8)
    rw [List.take_append_drop, hlo] at h
    exact h
  have hlt := wordsVal_lt (r.1.take 8)
  have hlt' := wordsVal_lt (r.1.drop 8)
  rw [hlo] at hlt
  rw [hhi] at hlt'
  obtain ⟨h1, v1, c1⟩ := propagate_columns le_rfl foldColumn_val hlo hhi
  have hS : wordsVal (r.1.take 8) + 38 * wordsVal (r.1.drop 8) = foldHigh r.val := by
    rw [foldHigh, hr]
    omega
  rw [hS] at v1 c1
  have hS' : foldHigh r.val < 39 * 2^256 := by omega
  rw [fed32ReduceWide]
  show wordsVal (ripple _ _).1 = _
  generalize propagate (List.zipWith foldColumn (r.1.take 8) (r.1.drop 8)) 0 = first at *
  have hfold := mul38_toNat (c := first.2) (by omega)
  obtain ⟨h2, v2, c2⟩ := ripple_words h1 (show (first.2 * 38).toNat < 2^63 by omega)
  have hV : foldHigh (foldHigh r.val) = foldHigh r.val % 2^256 + 38 * (foldHigh r.val / 2^256) := rfl
  rw [v1, hfold, c1, ← hV] at v2 c2
  have hlast : (ripple first.1 (first.2 * 38)).2.toNat < 2^63 := by omega
  obtain ⟨-, v3, -⟩ := ripple_words h2 hlast
  rw [v3, v2, c2]
  omega

/-- the carry of the second fold is zero: it is not when the residue of the product modulo
`2^256 - 38` is at least `38` and falls short of `38` times what the two quotients differ by -/
def FoldsOnce (n : Nat) : Prop :=
  n % (2^256 - 38) < 38 ∨ 38 * (n / (2^256 - 38) - n / 2^256) ≤ n % (2^256 - 38)

/-- a number below `40 * (2^256 - 38)`, by its quotient and its residue -/
theorem foldHigh_carry {m e : Nat} (hm : m ≤ 40) (he : e < 2^256 - 38) :
    foldHigh ((2^256 - 38) * m + e) / 2^256 = 0 ↔ e < 38 ∨ 38 * m ≤ e := by
  rw [foldHigh]
  by_cases h : 38 * m ≤ e
  · have hq : ((2^256 - 38) * m + e) / 2^256 = m := by omega
    omega
  · have hq : ((2^256 - 38) * m + e) / 2^256 = m - 1 := by omega
    omega

theorem foldsOnce_iff {n : Nat} (hn : n < (2^256)^2) :
    FoldsOnce n ↔ foldHigh (foldHigh n) / 2^256 = 0 := by
  have hS : foldHigh n = (2^256 - 38) * (n / (2^256 - 38) - n / 2^256) + n % (2^256 - 38) := by
    rw [foldHigh]
    omega
  have hm : n / (2^256 - 38) - n / 2^256 ≤ 40 := by omega
  rw [hS, foldHigh_carry hm (Nat.mod_lt _ (by norm_num)), FoldsOnce]

theorem fp_two_pow_256 : ((2^256 : ℕ) : Fp) = ((38 : ℕ) : Fp) :=
  (fp_eq_iff _ _).mpr (by decide +kernel)

theorem fp_foldHigh (n : Nat) : (foldHigh n : Fp) = n := by
  have h : (n : Fp) = ((n % 2^256 + 2^256 * (n / 2^256) : ℕ) : Fp) := by rw [Nat.mod_add_div]
  rw [h, foldHigh, Nat.cast_add, Nat.cast_mul, Nat.cast_add, Nat.cast_mul, fp_two_pow_256]

theorem fp_small {n : Nat} (hn : n < P25519) (h : (n : Fp) = 0) : n = 0 :=
  Nat.eq_zero_of_dvd_of_lt ((ZMod.natCast_eq_zero_iff n P25519).mp h) hn

theorem wideMul_val (a b : Fe32) : (wideMul a b).val = a.val * b.val := by
  have h := (mulRows_val a.1 b.1 (v := List.replicate 8 0)
    (by rw [List.length_replicate, b.2])).2
  rw [a.2, wordsVal_zeros, Nat.zero_add] at h
  exact h

/-- the carry of the second fold counts `38` in the field, and is added as `1` -/
theorem fedMul_toFp (a b : Fe32) : (fedMul a b).toFp +
    ((37 * (foldHigh (foldHigh (a.val * b.val)) / 2^256) : ℕ) : Fp) = a.toFp * b.toFp := by
  have hn : ((a.val * b.val : ℕ) : Fp) = a.toFp * b.toFp := Nat.cast_mul _ _
  rw [Fe32.toFp, fedMul, reduceWide_val, wideMul_val, ← hn, ← fp_foldHigh (a.val * b.val),
    ← fp_foldHigh (foldHigh (a.val * b.val)), ← fp_foldHigh (foldHigh (foldHigh _)), ← Nat.cast_add]
  generalize foldHigh (foldHigh (a.val * b.val)) = V
  rw [foldHigh]
  congr 1
  omega

theorem Fe32.mul_lt (a b : Fe32) : a.val * b.val < (2^256)^2 := by
  rw [sq]
  exact Nat.mul_lt_mul'' a.val_lt b.val_lt

theorem fedMul_iff (a b : Fe32) :
    (fedMul a b).toFp = a.toFp * b.toFp ↔ FoldsOnce (a.val * b.val) := by
  have hlt : foldHigh (foldHigh (a.val * b.val)) / 2^256 ≤ 1 := by
    have hn := Fe32.mul_lt a b
    rw [foldHigh, foldHigh]
    omega
  rw [foldsOnce_iff (Fe32.mul_lt a b), ← fedMul_toFp, left_eq_add]
  have hp := p25519_add
  constructor
  · intro h
    have h0 := fp_small (by omega) h
    omega
  · intro h
    rw [h]
    exact Nat.cast_zero

/-- **Products and squares** are right exactly when the second fold does not carry. -/
theorem fedMul_fedSq_iff (a b : Fe32) :
    ((fedMul a b).toFp = a.toFp * b.toFp ↔ FoldsOnce (a.val * b.val)) ∧
      ((fedSq a).toFp = a.toFp^2 ↔ FoldsOnce (a.val^2)) := by
  refine ⟨fedMul_iff a b, ?_⟩
  rw [sq, sq]
  exact fedMul_iff a a

/-- `2^256 - 1` -/
def ones : Fe32 := ⟨List.replicate 8 0xffffffff, rfl⟩

/-- `2^256 - 36` -/
def nearOnes : Fe32 := ⟨0xffffffdc :: List.replicate 7 0xffffffff, rfl⟩

/-- `37` for `74`, and `1332` for `1369` -/
theorem fedMul_carry_as_one : (fedMul ones nearOnes).val = 37 ∧
    (fedMul ones nearOnes).toFp ≠ ones.toFp * nearOnes.toFp ∧
    (fedSq ones).val = 1332 ∧ (fedSq ones).toFp ≠ ones.toFp^2 := by
  refine ⟨by decide +kernel, ?_, by decide +kernel, ?_⟩
  · rw [Fe32.toFp, Fe32.toFp, Fe32.toFp, ← Nat.cast_mul, Ne, fp_eq_iff]
    decide +kernel
  · rw [Fe32.toFp, Fe32.toFp, ← Nat.cast_pow, Ne, fp_eq_iff]
    decide +kernel

/-! ## differences -/

/-- the four ways of the top word: `2p` is in the result or not, and `2^256` when it should not -/
theorem fedSub_val (a b : Fe32) : (fedSub a b).val + b.val = a.val +
    if b.val + 38 ≤ a.val then 0 else if b.val ≤ a.val + (2^256 - 38) then 2^256 - 38 else 2^256 := by
  have ha := a.val_lt
  have hb := b.val_lt
  have h2p : wordsVal twoP.1 = 2^256 - 38 := by decide
  obtain ⟨h1, v1, c1⟩ := propagate_columns (show 1 ≤ 38 by decide) addColumn_val a.2 twoP.2
  have hsum : wordsVal a.1 + 1 * wordsVal twoP.1 = a.val + (2^256 - 38) := by
    rw [one_mul, h2p]
    rfl
  rw [hsum] at v1 c1
  show wordsVal (ripple _ _).1 + _ = _
  generalize propagate (List.zipWith addColumn a.1 twoP.1) 0 = sum at *
  obtain ⟨v2, c2⟩ := subtract_val (h1.trans b.2.symm) (show (0 : UInt64).toNat ≤ 1 by decide)
  have h2 : (subtract sum.1 b.1 0).1.length = 8 := (subtract_length (h1.trans b.2.symm) 0).trans h1
  have hlt := wordsVal_lt (subtract sum.1 b.1 0).1
  rw [h2] at hlt
  rw [h1] at v2
  have v2' : wordsVal (subtract sum.1 b.1 0).1 + b.val =
      wordsVal sum.1 + 2^256 * (subtract sum.1 b.1 0).2.toNat := v2
  generalize subtract sum.1 b.1 0 = diff at *
  have hripple : ∀ fold : UInt64, fold.toNat < 2^63 →
      wordsVal (ripple diff.1 fold).1 = (wordsVal diff.1 + fold.toNat) % 2^256 :=
    fun fold hf => (ripple_words h2 hf).2.1
  have h38 : (38 : UInt64).toNat = 38 := rfl
  have h38' : (UInt64.ofNat 1 * 38).toNat = 38 := rfl
  have h0 : (0 : UInt64).toNat = 0 := rfl
  split
  next htop =>
    have e : ((sum.2.toNat : Int) - diff.2.toNat).toNat = 1 := by omega
    rw [e, hripple _ (by rw [h38']; decide), h38']
    split_ifs <;> omega
  next htop =>
    split
    · rw [hripple _ (by decide), h38]
      split_ifs <;> omega
    · rw [hripple _ (by decide), h0]
      split_ifs <;> omega

theorem fedSub_toFp (a b : Fe32) : (fedSub a b).toFp + b.toFp = a.toFp +
    ((if b.val ≤ a.val + (2^256 - 38) then 0 else 38 : ℕ) : Fp) := by
  have hval := congrArg (Nat.cast : ℕ → Fp) (fedSub_val a b)
  have h2p : ((2^256 - 38 : ℕ) : Fp) = ((0 : ℕ) : Fp) := (fp_eq_iff _ _).mpr (by decide +kernel)
  rw [Nat.cast_add, Nat.cast_add] at hval
  rw [Fe32.toFp, Fe32.toFp, Fe32.toFp, hval]
  congr 1
  by_cases h : b.val ≤ a.val + (2^256 - 38)
  · rw [if_pos h, if_pos h]
    split
    · rfl
    · exact h2p
  · rw [if_neg h, if_neg h, if_neg (by omega)]
    exact fp_two_pow_256

/-- **Differences** are right exactly when `a + 2p` does not fall short of `b`. -/
theorem fedSub_iff (a b : Fe32) :
    (fedSub a b).toFp = a.toFp - b.toFp ↔ b.val ≤ a.val + (2^256 - 38) := by
  rw [eq_sub_iff_add_eq, fedSub_toFp, add_eq_left]
  constructor
  · intro h
    by_contra hlt
    rw [if_neg hlt] at h
    have h38 := fp_small (by decide) h
    cases h38
  · intro h
    rw [if_pos h]
    exact Nat.cast_zero

def zeros : Fe32 := ⟨List.replicate 8 0, rfl⟩

/-- `0 - (2^256 - 1)` is `-37`, and comes out as `1` -/
theorem fedSub_negative_top : (fedSub zeros ones).val = 1 ∧
    (fedSub zeros ones).toFp ≠ zeros.toFp - ones.toFp := by
  refine ⟨by decide +kernel, ?_⟩
  rw [Ne, eq_sub_iff_add_eq, Fe32.toFp, Fe32.toFp, Fe32.toFp, ← Nat.cast_add, fp_eq_iff]
  decide +kernel

/-! ## sums -/

/-- one carry comes back as `38`; a second one is dropped -/
theorem fedAdd_val (a b : Fe32) :
    (fedAdd a b).val = (foldHigh (a.val + b.val)) % 2^256 := by
  have ha := a.val_lt
  have hb := b.val_lt
  obtain ⟨h1, v1, c1⟩ := propagate_columns (show 1 ≤ 38 by decide) addColumn_val a.2 b.2
  have hsum : wordsVal a.1 + 1 * wordsVal b.1 = a.val + b.val := by
    rw [one_mul]
    rfl
  rw [hsum] at v1 c1
  show wordsVal (ripple _ _).1 = _
  generalize propagate (List.zipWith addColumn a.1 b.1) 0 = sum at *
  have hfold := mul38_toNat (c := sum.2) (by omega)
  have hlt : (sum.2 * 38).toNat < 2^63 := by omega
  rw [(ripple_words h1 hlt).2.1, hfold, v1, c1]
  rfl

/-- **Sums** are right exactly when the fold does not carry again. -/
theorem fedAdd_iff (a b : Fe32) :
    (fedAdd a b).toFp = a.toFp + b.toFp ↔ a.val + b.val < 2^257 - 38 := by
  have ha := a.val_lt
  have hb := b.val_lt
  have hsum : a.toFp + b.toFp = ((foldHigh (a.val + b.val) : ℕ) : Fp) := by
    rw [fp_foldHigh, Nat.cast_add]
    rfl
  have hS : foldHigh (a.val + b.val) / 2^256 ≤ 1 ∧
      (foldHigh (a.val + b.val) / 2^256 = 0 ↔ a.val + b.val < 2^257 - 38) := by
    rw [foldHigh]
    omega
  rw [hsum, Fe32.toFp, fedAdd_val, ← hS.2]
  generalize foldHigh (a.val + b.val) = S at hS ⊢
  have hsplit : ((S : ℕ) : Fp) = ((S % 2^256 : ℕ) : Fp) + ((38 * (S / 2^256) : ℕ) : Fp) := by
    rw [← Nat.cast_add, ← fp_foldHigh S]
    rfl
  have hp := p25519_add
  rw [hsplit, left_eq_add]
  constructor
  · intro h
    have h0 := fp_small (by omega) h
    omega
  · intro h
    rw [h]
    exact Nat.cast_zero

/-- `(2^256 - 1) + (2^256 - 1)` is `74`, and comes out as `36` -/
theorem fedAdd_second_carry : (fedAdd ones ones).val = 36 ∧
    (fedAdd ones ones).toFp ≠ ones.toFp + ones.toFp := by
  refine ⟨by decide +kernel, ?_⟩
  rw [Fe32.toFp, Fe32.toFp, ← Nat.cast_add, Ne, fp_eq_iff]
  decide +kernel

end Onion
