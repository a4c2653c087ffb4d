import Onion.Lib.PowMod
import Onion.Lib.Edwards
import Mathlib.NumberTheory.LegendreSymbol.Basic
import Mathlib.Tactic.NormNum.Prime

/-!
# The field of `2^255 - 19` elements and the curve over it

* `prime_p25519`   the modulus is prime (Lucas certificates down to primes `norm_num` settles);
* `edD`            the curve constant `-121665/121666` (`edD_eq`), which is not a square;
* `ed25519`        the curve: `-1` is a square and `edD` is not, so its addition law is complete.
-/

namespace Onion

def P25519 : ℕ := 2^255 - 19

theorem p25519_add : P25519 + 19 = 2^255 := rfl

/-! ## primality -/

theorem prime_q57 : Nat.Prime 31757755568855353 := by
  refine Lucas.isPrime 55 10 [2, 2, 2, 3, 31, 107, 223, 4153, 430751]
    ⟨?_, by norm_num, by norm_num, by decide +kernel, by decide +kernel⟩
  norm_num

theorem prime_q27 : Nat.Prime 2773320623 := by
  refine Lucas.isPrime 32 5 [2, 2437, 569003]
    ⟨?_, by norm_num, by norm_num, by decide +kernel, by decide +kernel⟩
  norm_num

theorem prime_q72 : Nat.Prime 72106336199 := by
  refine Lucas.isPrime 37 7 [2, 13, 2773320623]
    ⟨?_, by norm_num, by norm_num, by decide +kernel, by decide +kernel⟩
  simp only [List.forall_mem_cons, List.not_mem_nil, false_imp_iff, implies_true, and_true]
  exact ⟨by norm_num, by norm_num, prime_q27⟩

theorem prime_q19 : Nat.Prime 1919519569386763 := by
  refine Lucas.isPrime 51 2 [2, 3, 7, 19, 47, 47, 127, 8574133]
    ⟨?_, by norm_num, by norm_num, by decide +kernel, by decide +kernel⟩
  norm_num

theorem prime_q75 : Nat.Prime 75445702479781427272750846543864801 := by
  refine Lucas.isPrime 116 7 [2, 2, 2, 2, 2, 3, 3, 5, 5, 75707, 72106336199, 1919519569386763]
    ⟨?_, by norm_num, by norm_num, by decide +kernel, by decide +kernel⟩
  simp only [List.forall_mem_cons, List.not_mem_nil, false_imp_iff, implies_true, and_true]
  refine ⟨?_, ?_, ?_, ?_, ?_, ?_, ?_, ?_, ?_, ?_, prime_q72, prime_q19⟩ <;> norm_num

theorem prime_q74 :
    Nat.Prime 74058212732561358302231226437062788676166966415465897661863160754340907 := by
  refine Lucas.isPrime 236 2 [2, 3, 353, 57467, 132049, 1923133,
      31757755568855353, 75445702479781427272750846543864801]
    ⟨?_, by norm_num, by norm_num, by decide +kernel, by decide +kernel⟩
  simp only [List.forall_mem_cons, List.not_mem_nil, false_imp_iff, implies_true, and_true]
  refine ⟨?_, ?_, ?_, ?_, ?_, ?_, prime_q57, prime_q75⟩ <;> norm_num

/-- **`2^255 - 19` is prime** -/
theorem prime_p25519 : P25519.Prime := by
  refine Lucas.isPrime 255 2 [2, 2, 3, 65147,
      74058212732561358302231226437062788676166966415465897661863160754340907]
    ⟨?_, by decide +kernel, by decide +kernel, by decide +kernel, by decide +kernel⟩
  simp only [List.forall_mem_cons, List.not_mem_nil, false_imp_iff, implies_true, and_true]
  refine ⟨?_, ?_, ?_, ?_, prime_q74⟩ <;> norm_num

instance : Fact P25519.Prime := ⟨prime_p25519⟩
instance : NeZero P25519 := ⟨prime_p25519.ne_zero⟩

abbrev Fp := ZMod P25519

theorem fp_eq_iff (a b : ℕ) : (a : Fp) = (b : Fp) ↔ a % P25519 = b % P25519 :=
  ZMod.natCast_eq_natCast_iff' a b P25519

theorem fp_two_pow_255 : (2 : Fp)^255 = 19 := by
  have h : ((2^255 : ℕ) : Fp) = ((19 : ℕ) : Fp) := (fp_eq_iff _ _).mpr (by decide +kernel)
  exact_mod_cast h

theorem fp_pow_inv (z : Fp) : z^(2^255 - 21) = z⁻¹ := by
  by_cases hz : z = 0
  · rw [hz, inv_zero, zero_pow (by norm_num)]
  · have h : z^(P25519 - 1) = 1 := ZMod.pow_card_sub_one_eq_one hz
    have e : P25519 - 1 = (2^255 - 21) + 1 := rfl
    rw [e, pow_succ] at h
    exact eq_inv_of_mul_eq_one_left h

/-! ## the curve -/

def edD : Fp := (37095705934669439343138083508754565189542113879843219016388785533085940283555 : ℕ)

theorem edD_eq : edD * 121666 = -121665 := by
  have h : ((37095705934669439343138083508754565189542113879843219016388785533085940283555 * 121666
      + 121665 : ℕ) : Fp) = ((0 : ℕ) : Fp) := (fp_eq_iff _ _).mpr (by decide +kernel)
  push_cast at h
  have h2 : edD = (37095705934669439343138083508754565189542113879843219016388785533085940283555 : Fp) := by
    unfold edD; push_cast; rfl
  rw [h2]
  linear_combination h

def sqrtM1 : Fp := (19681161376707505956807079304988542015446066515923890162744021073123829784752 : ℕ)

theorem sqrtM1_sq : sqrtM1^2 = -1 := by
  have h : ((19681161376707505956807079304988542015446066515923890162744021073123829784752^2 + 1 : ℕ)
      : Fp) = ((0 : ℕ) : Fp) := (fp_eq_iff _ _).mpr (by decide +kernel)
  rw [Nat.cast_add, Nat.cast_pow, Nat.cast_one, Nat.cast_zero] at h
  exact eq_neg_of_add_eq_zero_left h

theorem edD_nonsq (r : Fp) : r^2 ≠ edD := by
  have hne : edD ≠ 0 := by
    intro h0
    have h := (fp_eq_iff _ 0).mp (h0.trans Nat.cast_zero.symm)
    exact absurd h (by decide +kernel)
  intro h
  have hsq : edD^(P25519 / 2) = 1 :=
    (ZMod.euler_criterion P25519 hne).mp ⟨r, by rw [← h, pow_two]⟩
  have h1 := (pow_eq_iff P25519 255 _ (P25519 / 2) 1 (by decide +kernel)).mp
    (hsq.trans Nat.cast_one.symm)
  exact absurd h1 (by decide +kernel)

theorem fp_two_ne_zero : (2 : Fp) ≠ 0 := by
  intro h
  have h2 : ((2 : ℕ) : Fp) = ((0 : ℕ) : Fp) := by exact_mod_cast h
  exact absurd ((fp_eq_iff 2 0).mp h2) (by decide +kernel)

/-- the curve `-x² + y² = 1 + d x² y²` -/
def ed25519 : TwistedEdwards.Curve Fp where
  d := edD
  i := sqrtM1
  i_sq := sqrtM1_sq
  d_nonsq := edD_nonsq
  two_ne := fp_two_ne_zero

/-- the points of the curve, a commutative group -/
abbrev EdPoint := TwistedEdwards.Point ed25519

end Onion
