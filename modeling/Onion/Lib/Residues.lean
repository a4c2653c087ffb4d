import Onion.Lib.Extended
import Onion.Lib.PowMod
import Mathlib.Algebra.Field.ZMod
import Mathlib.FieldTheory.Finite.Basic

/-!
# Multiples of a point, by residues that the kernel can evaluate

* `Residues`          extended coordinates as natural numbers modulo `m`;
* `Residues.Stands`   the residues stand for a point of a curve over `ZMod m`;
* `Residues.mul`      double and add, low bit first;
* `Residues.smul_eq_zero`   a multiple that evaluates to the identity;
* `Residues.smul_y`           the `y` of a multiple, by one inversion.
-/

namespace TwistedEdwards

/-- extended coordinates modulo a number -/
structure Residues where
  X : ℕ
  Y : ℕ
  Z : ℕ
  T : ℕ

namespace Residues
section
variable (m d2 : ℕ)

def sub (a b : ℕ) : ℕ := a + (m - b % m)

/-- unified addition; `d2` is twice the constant of the curve -/
def add (p q : Residues) : Residues :=
  let a := sub m p.Y p.X * sub m q.Y q.X % m
  let b := (p.Y + p.X) * (q.Y + q.X) % m
  let c := q.T * d2 % m * p.T % m
  let d := (p.Z * q.Z + p.Z * q.Z) % m
  ⟨sub m b a * sub m d c % m, (d + c) * (b + a) % m, sub m d c * (d + c) % m,
    sub m b a * (b + a) % m⟩

/-- `acc + n*p`, for `n` below `2^k` -/
def mul : ℕ → Residues → Residues → ℕ → Residues
  | 0, acc, _, _ => acc
  | k+1, acc, p, n => mul k (if n % 2 = 1 then add m d2 acc p else acc) (add m d2 p p) (n / 2)

def affineY (p : Residues) : ℕ := p.Y * powMod m (m.log2 + 1) 1 p.Z (m - 2) % m

end

theorem sub_cast {m : ℕ} (hm : 0 < m) (a b : ℕ) : ((sub m a b : ℕ) : ZMod m) = a - b := by
  have hle : b % m ≤ m := (Nat.mod_lt b hm).le
  rw [sub, Nat.cast_add, Nat.cast_sub hle, ZMod.natCast_self, zero_sub, ZMod.natCast_mod,
    sub_eq_add_neg]

section
variable {m d2 : ℕ} [Fact m.Prime] {C : Curve (ZMod m)} {p q acc : Residues} {P Q A : Point C}

def Stands (p : Residues) (P : Point C) : Prop :=
  Represents (p.X : ZMod m) (p.Y : ZMod m) (p.Z : ZMod m) (p.T : ZMod m) P

theorem add_stands (hd : (d2 : ZMod m) = 2 * C.d) (hp : Stands p P) (hq : Stands q Q) :
    Stands (add m d2 p q) (P + Q) := by
  have hm : 0 < m := (Fact.out : m.Prime).pos
  have h := Represents.add hp hq
  rw [← hd] at h
  unfold Stands add
  simp only [ZMod.natCast_mod, Nat.cast_mul, Nat.cast_add, sub_cast hm]
  exact h

theorem mul_stands (hd : (d2 : ZMod m) = 2 * C.d) {k n : ℕ} (hn : n < 2^k) (ha : Stands acc A)
    (hp : Stands p P) : Stands (mul m d2 k acc p n) (A + n • P) := by
  induction k generalizing acc p A P n with
  | zero =>
    obtain rfl : n = 0 := by omega
    rw [zero_smul, add_zero]
    exact ha
  | succ k ih =>
    have hn2 : n / 2 < 2^k := by rw [pow_succ] at hn; omega
    have hsplit : n • P = (n % 2) • P + (n / 2) • (P + P) := by
      rw [← two_nsmul, ← mul_nsmul', ← add_nsmul]
      congr 1
      omega
    have ha' : Stands (if n % 2 = 1 then add m d2 acc p else acc) (A + (n % 2) • P) := by
      rcases Nat.mod_two_eq_zero_or_one n with h | h
      · rw [h, if_neg (by decide), zero_smul, add_zero]
        exact ha
      · rw [h, if_pos rfl, one_smul]
        exact add_stands hd ha hp
    rw [mul, hsplit, ← add_assoc]
    exact ih hn2 ha' (add_stands hd hp hp)

theorem zero_stands : Stands (C := C) (⟨0, 1, 1, 0⟩ : Residues) 0 := by
  unfold Stands
  push_cast
  exact Represents.zero

theorem inv_eq_powMod {z : ℕ} (hz : (z : ZMod m) ≠ 0) :
    (z : ZMod m)⁻¹ = (powMod m (m.log2 + 1) 1 z (m - 2) : ℕ) := by
  have hm : 2 ≤ m := (Fact.out : m.Prime).two_le
  have hlt : m - 2 < 2^(m.log2 + 1) := (Nat.sub_le m 2).trans_lt Nat.lt_log2_self
  have hpow : (z : ZMod m)^(m - 2) = (powMod m (m.log2 + 1) 1 z (m - 2) : ℕ) :=
    (pow_eq_iff m _ z _ _ hlt).mpr rfl
  have hone : (z : ZMod m)^(m - 1) = 1 := ZMod.pow_card_sub_one_eq_one hz
  rw [show m - 1 = m - 2 + 1 by omega, pow_succ] at hone
  rw [← hpow]
  exact (eq_inv_of_mul_eq_one_left hone).symm

theorem Stands.y_val (h : Stands p P) : P.y.val = affineY m p := by
  have hz : (p.Z : ZMod m) ≠ 0 := h.z_ne
  rw [affineY, ← ZMod.val_natCast, Nat.cast_mul, ← inv_eq_powMod hz, h.div_z.2]

theorem smul_y (hd : (d2 : ZMod m) = 2 * C.d) {k n : ℕ} (hn : n < 2^k) (hp : Stands p P) :
    (n • P).y.val = affineY m (mul m d2 k ⟨0, 1, 1, 0⟩ p n) := by
  have h := mul_stands hd hn zero_stands hp
  rw [zero_add] at h
  exact h.y_val

theorem smul_eq_zero (hd : (d2 : ZMod m) = 2 * C.d) {k n : ℕ} (hn : n < 2^k) (hp : Stands p P)
    (h0 : (mul m d2 k ⟨0, 1, 1, 0⟩ p n).X % m = 0)
    (h1 : (mul m d2 k ⟨0, 1, 1, 0⟩ p n).Y % m = (mul m d2 k ⟨0, 1, 1, 0⟩ p n).Z % m) :
    n • P = 0 := by
  have h := mul_stands hd hn zero_stands hp
  rw [zero_add] at h
  generalize mul m d2 k ⟨0, 1, 1, 0⟩ p n = r at h h0 h1
  have hx : (r.X : ZMod m) = 0 := (ZMod.natCast_eq_zero_iff r.X m).mpr (Nat.dvd_of_mod_eq_zero h0)
  have hy : (r.Y : ZMod m) = r.Z := (ZMod.natCast_eq_natCast_iff' _ _ m).mpr h1
  have hX : (n • P).x * r.Z = 0 := h.x_eq.symm.trans hx
  have hY : (n • P).y * r.Z = r.Z := h.y_eq.symm.trans hy
  refine Point.ext ?_ ?_
  · exact (mul_eq_zero.mp hX).resolve_right h.z_ne
  · exact mul_right_cancel₀ h.z_ne (hY.trans (one_mul _).symm)

end

end Residues

end TwistedEdwards
