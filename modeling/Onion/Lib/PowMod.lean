import Mathlib.NumberTheory.LucasPrimality
import Mathlib.Data.List.Prime

/-!
# Modular powers the kernel can evaluate, and Lucas certificates

* `powMod_eq`        square-and-multiply is the power modulo `m`;
* `pow_eq_iff`       powers in `ZMod m` are decided by `powMod`;
* `Lucas`, `Lucas.isPrime`   a certificate (a witness and the factored `p - 1`) carries the checks
                     that make its number prime.
-/

/-- `acc * a^n % m` for `n < 2^k`, low bit first -/
def powMod (m : ℕ) : ℕ → ℕ → ℕ → ℕ → ℕ
  | 0, acc, _, _ => acc
  | k+1, acc, a, n => powMod m k (if n % 2 = 1 then acc * a % m else acc) (a * a % m) (n / 2)

theorem powMod_eq (m k acc a n : ℕ) (hn : n < 2^k) : powMod m k acc a n % m = acc * a^n % m := by
  induction k generalizing acc a n with
  | zero =>
    have h0 : n = 0 := by simpa using hn
    rw [h0, pow_zero, mul_one]
    rfl
  | succ k ih =>
    have hn2 : n / 2 < 2^k := by rw [pow_succ] at hn; omega
    have hsq : (a * a % m)^(n / 2) ≡ a^(2 * (n / 2)) [MOD m] := by
      rw [pow_mul, pow_two]
      exact (Nat.mod_modEq _ _).pow _
    show powMod m k _ _ _ % m = _
    rw [ih _ _ _ hn2]
    by_cases h : n % 2 = 1
    · rw [if_pos h]
      have e : a^n = a * a^(2 * (n / 2)) := by rw [← pow_succ']; congr 1; omega
      rw [e, ← mul_assoc]
      exact (Nat.mod_modEq _ _).mul hsq
    · rw [if_neg h]
      have e : a^n = a^(2 * (n / 2)) := by congr 1; omega
      rw [e]
      exact hsq.mul_left acc

theorem pow_eq_iff (m k a n r : ℕ) (hn : n < 2^k) :
    ((a : ZMod m)^n = (r : ZMod m)) ↔ powMod m k 1 a n % m = r % m := by
  rw [powMod_eq m k 1 a n hn, one_mul, ← Nat.cast_pow, ZMod.natCast_eq_natCast_iff']

/-- a Lucas certificate for `p`: a witness `a` of order `p - 1`, with the prime factors of `p - 1`
(repeated as often as they divide it) -/
structure Lucas (p k a : ℕ) (factors : List ℕ) : Prop where
  prime : ∀ q ∈ factors, q.Prime
  prod : factors.prod + 1 = p
  bound : p < 2^k
  full : powMod p k 1 a (p - 1) % p = 1 % p
  part : ∀ q ∈ factors, powMod p k 1 a ((p - 1) / q) % p ≠ 1 % p

/-- **a certified number is prime** -/
theorem Lucas.isPrime {p : ℕ} (k a : ℕ) (factors : List ℕ) (c : Lucas p k a factors) :
    p.Prime := by
  have hk := c.bound
  have order : ∀ n, n ≤ p - 1 → ((a : ZMod p)^n = 1 ↔ powMod p k 1 a n % p = 1 % p) := by
    intro n hn
    have h := pow_eq_iff p k a n 1 (by omega)
    rwa [Nat.cast_one] at h
  apply lucas_primality p (a : ZMod p) ((order _ le_rfl).mpr c.full)
  intro q hq hdvd h1
  have hpq : q ∣ factors.prod := by rwa [Nat.eq_sub_of_add_eq c.prod]
  obtain ⟨f, hf, hqf⟩ := (Nat.Prime.prime hq).dvd_prod_iff.mp hpq
  have e : q = f := (Nat.prime_dvd_prime_iff_eq hq (c.prime f hf)).mp hqf
  rw [e] at h1
  exact c.part f hf ((order _ (Nat.div_le_self _ _)).mp h1)
