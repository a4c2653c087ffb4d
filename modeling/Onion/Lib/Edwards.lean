import Mathlib.Tactic.Ring
import Mathlib.Tactic.LinearCombination
import Mathlib.Tactic.FieldSimp
import Mathlib.Algebra.Field.Basic
import Mathlib.Algebra.Group.Basic

/-!
# Twisted Edwards curves with `a = -1`: the complete group law

Over any field the affine points of `y² - x² = 1 + d x² y²` are a commutative group under

    (x₁, y₁) + (x₂, y₂) =
      ((x₁ y₂ + y₁ x₂) / (1 + d x₁ x₂ y₁ y₂), (y₁ y₂ + x₁ x₂) / (1 - d x₁ x₂ y₁ y₂))

as soon as `-1` is a square and `d` is not: then no denominator ever vanishes (`Curve.one_add_ne`,
`Curve.one_sub_ne`), so the formula has no exceptional case.

* `Curve`           the parameters, with the facts that make the law complete;
* `Point`           a point, which carries its curve equation;
* `Point.add_on`    the sum is on the curve;
* `Point.addCommGroup` the group; associativity is two polynomial identities
                    (`assoc_num_x`, `assoc_num_y`) with their cofactors written out.
-/

namespace TwistedEdwards

/-- the parameters of a complete curve: `-1 = i²` and `d` is not a square -/
structure Curve (F : Type*) [Field F] where
  d : F
  i : F
  i_sq : i^2 = -1
  d_nonsq : ∀ r : F, r^2 ≠ d
  two_ne : (2 : F) ≠ 0

variable {F : Type*} [Field F]

@[ext] structure Point (C : Curve F) where
  x : F
  y : F
  on : y^2 - x^2 = 1 + C.d * x^2 * y^2

/-! ## no denominator vanishes -/

section
variable {d i x₁ y₁ x₂ y₂ : F}

/-- the two factors `i x ± y` of `-x² - y²` do not vanish together on the curve -/
theorem factor_ne (hi : i^2 = -1) (two_ne : (2 : F) ≠ 0)
    (h₂ : y₂^2 - x₂^2 = 1 + d * x₂^2 * y₂^2) : i * x₂ + y₂ ≠ 0 ∨ i * x₂ - y₂ ≠ 0 := by
  by_contra hc
  rw [not_or, not_not, not_not] at hc
  obtain ⟨hp, hm⟩ := hc
  have hy : y₂ = 0 := by
    have h : 2 * y₂ = 0 := by linear_combination hp - hm
    exact (mul_eq_zero.mp h).resolve_left two_ne
  have hx : x₂ = 0 := by
    have h : 2 * x₂ = 0 := by linear_combination (-i) * (hp + hm) + 2 * x₂ * hi
    exact (mul_eq_zero.mp h).resolve_left two_ne
  rw [hx, hy] at h₂
  exact one_ne_zero (by linear_combination -h₂ : (1 : F) = 0)

/-- the completeness argument: `d x₁ x₂ y₁ y₂ = ε = ±1` would make `d` a square -/
theorem denom_ne (hi : i^2 = -1) (hd : ∀ r : F, r^2 ≠ d) (two_ne : (2 : F) ≠ 0) {ε : F}
    (hε : ε^2 = 1) (h₁ : y₁^2 - x₁^2 = 1 + d * x₁^2 * y₁^2)
    (h₂ : y₂^2 - x₂^2 = 1 + d * x₂^2 * y₂^2) : d * x₁ * x₂ * y₁ * y₂ ≠ ε := by
  intro h
  have hε0 : ε ≠ 0 := fun h0 => one_ne_zero (by rw [← hε, h0]; ring : (1 : F) = 0)
  have hx : x₁ ≠ 0 := fun h0 => hε0 (by rw [← h, h0]; ring)
  have hy : y₁ ≠ 0 := fun h0 => hε0 (by rw [← h, h0]; ring)
  -- a nonzero factor `i x₂ + s y₂` gives a square root of `d`
  have root : ∀ s : F, s^2 = 1 → i * x₂ + s * y₂ ≠ 0 → False := by
    intro s hs hne
    have key : d * (x₁ * y₁ * (i * x₂ + s * y₂))^2 = (i * x₁ + s * ε * y₁)^2 := by
      linear_combination (d * x₁ * x₂ * y₁ * y₂ + ε + 2 * i * s * x₁ * y₁) * h
        + (1 - y₁^2) * hε - h₁ + d * x₁^2 * y₁^2 * h₂
        + (d * x₁^2 * y₁^2 * x₂^2 - x₁^2) * hi + (d * x₁^2 * y₁^2 * y₂^2 - ε^2 * y₁^2) * hs
    have hne' : x₁ * y₁ * (i * x₂ + s * y₂) ≠ 0 := mul_ne_zero (mul_ne_zero hx hy) hne
    apply hd ((i * x₁ + s * ε * y₁) / (x₁ * y₁ * (i * x₂ + s * y₂)))
    rw [div_pow, ← key, mul_div_assoc, div_self (pow_ne_zero 2 hne'), mul_one]
  rcases factor_ne hi two_ne h₂ with hp | hm
  · exact root 1 (by ring) (by rwa [one_mul])
  · exact root (-1) (by ring) (by rwa [neg_one_mul, ← sub_eq_add_neg])

end

namespace Curve
variable (C : Curve F) (P Q : Point C)

theorem one_add_ne : 1 + C.d * P.x * Q.x * P.y * Q.y ≠ 0 := fun h =>
  denom_ne C.i_sq C.d_nonsq C.two_ne (ε := -1) (by ring) P.on Q.on (by linear_combination h)

theorem one_sub_ne : 1 - C.d * P.x * Q.x * P.y * Q.y ≠ 0 := fun h =>
  denom_ne C.i_sq C.d_nonsq C.two_ne (ε := 1) (by ring) P.on Q.on (by linear_combination -h)

end Curve

/-! ## the polynomial identities -/

section
variable (d x₁ y₁ x₂ y₂ x₃ y₃ : F) (h₁ : y₁^2 - x₁^2 = 1 + d * x₁^2 * y₁^2)
  (h₂ : y₂^2 - x₂^2 = 1 + d * x₂^2 * y₂^2) (h₃ : y₃^2 - x₃^2 = 1 + d * x₃^2 * y₃^2)
include h₁ h₂

/-- the sum is on the curve, with denominators cleared.  With `m = y² - x²` and `a = d x² y²` of
each point this is `m₁ m₂ (1 + a₁ a₂) = (1 - a₁ a₂)² + a₁ m₂² + a₂ m₁²` at `m = 1 + a`. -/
theorem on_num :
    ((y₁*y₂ + x₁*x₂) * (1 + d*x₁*x₂*y₁*y₂))^2 - ((x₁*y₂ + y₁*x₂) * (1 - d*x₁*x₂*y₁*y₂))^2
      = ((1 + d*x₁*x₂*y₁*y₂) * (1 - d*x₁*x₂*y₁*y₂))^2
        + d * ((x₁*y₂ + y₁*x₂) * (y₁*y₂ + x₁*x₂))^2 := by
  linear_combination
    ((y₂^2 - x₂^2) * (1 + d*x₁^2*y₁^2 * (d*x₂^2*y₂^2))
      - d*x₂^2*y₂^2 * (y₁^2 - x₁^2 + 1 + d*x₁^2*y₁^2)) * h₁
    + ((1 + d*x₁^2*y₁^2) * (1 + d*x₁^2*y₁^2 * (d*x₂^2*y₂^2))
      - d*x₁^2*y₁^2 * (y₂^2 - x₂^2 + 1 + d*x₂^2*y₂^2)) * h₂

include h₃

/-- first coordinate of `(P + Q) + R = P + (Q + R)`, cross-multiplied -/
theorem assoc_num_x :
    ((x₁*y₂ + y₁*x₂) * (1 - d*x₁*x₂*y₁*y₂) * y₃ + (y₁*y₂ + x₁*x₂) * (1 + d*x₁*x₂*y₁*y₂) * x₃)
      * ((1 + d*x₂*x₃*y₂*y₃) * (1 - d*x₂*x₃*y₂*y₃)
          + d * x₁ * (x₂*y₃ + y₂*x₃) * y₁ * (y₂*y₃ + x₂*x₃))
    = (x₁ * (y₂*y₃ + x₂*x₃) * (1 + d*x₂*x₃*y₂*y₃) + y₁ * (x₂*y₃ + y₂*x₃) * (1 - d*x₂*x₃*y₂*y₃))
      * ((1 + d*x₁*x₂*y₁*y₂) * (1 - d*x₁*x₂*y₁*y₂)
          + d * (x₁*y₂ + y₁*x₂) * x₃ * (y₁*y₂ + x₁*x₂) * y₃) := by
  linear_combination
    d*x₂*y₂ * (x₁ * (x₃*y₃ * (y₂^3*y₃ * (1 - d*x₂^2) - x₂^3*x₃ * (1 + d*y₂^2))
          + x₂*y₂ * (y₂*y₃ * (y₃^2 - 1) - x₂*x₃ * (x₃^2 + 1)))
        + y₁ * (x₃*y₃ * (x₂^3*y₃ * (1 + d*y₂^2) - y₂^3*x₃ * (1 - d*x₂^2))
          + x₂*y₂ * (x₂*y₃ * (y₃^2 - 1) - y₂*x₃ * (x₃^2 + 1)))) * h₁
    + d*x₂*y₂ * (x₁ * (x₁^2 + 1) * x₃*y₃ * (x₂*x₃ + y₂*y₃)
        + y₁ * (y₁^2 - 1) * x₃*y₃ * (x₂*y₃ + y₂*x₃)
        - x₁^2*y₁ * (x₂*x₃ * (x₃^2 + 1) + y₂*y₃ * (y₃^2 - 1))
        - x₁*y₁^2 * (x₂*y₃ * (y₃^2 - 1) + y₂*x₃ * (x₃^2 + 1))) * h₂
    + d*x₂*y₂ * (x₁ * (x₁^2 + 1) * x₂*y₂ * (x₂*x₃ + y₂*y₃)
        - y₁ * (y₁^2 - 1) * x₂*y₂ * (x₂*y₃ + y₂*x₃)
        + x₁^2*y₁ * (x₂^3*x₃ * (1 + d*y₂^2) + y₂^3*y₃ * (1 - d*x₂^2))
        - x₁*y₁^2 * (x₂^3*y₃ * (1 + d*y₂^2) + y₂^3*x₃ * (1 - d*x₂^2))) * h₃

/-- second coordinate of `(P + Q) + R = P + (Q + R)`, cross-multiplied -/
theorem assoc_num_y :
    ((y₁*y₂ + x₁*x₂) * (1 + d*x₁*x₂*y₁*y₂) * y₃ + (x₁*y₂ + y₁*x₂) * (1 - d*x₁*x₂*y₁*y₂) * x₃)
      * ((1 + d*x₂*x₃*y₂*y₃) * (1 - d*x₂*x₃*y₂*y₃)
          - d * x₁ * (x₂*y₃ + y₂*x₃) * y₁ * (y₂*y₃ + x₂*x₃))
    = (y₁ * (y₂*y₃ + x₂*x₃) * (1 + d*x₂*x₃*y₂*y₃) + x₁ * (x₂*y₃ + y₂*x₃) * (1 - d*x₂*x₃*y₂*y₃))
      * ((1 + d*x₁*x₂*y₁*y₂) * (1 - d*x₁*x₂*y₁*y₂)
          - d * (x₁*y₂ + y₁*x₂) * x₃ * (y₁*y₂ + x₁*x₂) * y₃) := by
  linear_combination
    d*x₂*y₂ * (y₁ * (x₃*y₃ * (y₂^3*y₃ * (1 - d*x₂^2) - x₂^3*x₃ * (1 + d*y₂^2))
          + x₂*y₂ * (y₂*y₃ * (y₃^2 - 1) - x₂*x₃ * (x₃^2 + 1)))
        + x₁ * (x₃*y₃ * (x₂^3*y₃ * (1 + d*y₂^2) - y₂^3*x₃ * (1 - d*x₂^2))
          + x₂*y₂ * (x₂*y₃ * (y₃^2 - 1) - y₂*x₃ * (x₃^2 + 1)))) * h₁
    + d*x₂*y₂ * (- x₁ * (x₁^2 + 1) * x₃*y₃ * (x₂*y₃ + y₂*x₃)
        - y₁ * (y₁^2 - 1) * x₃*y₃ * (x₂*x₃ + y₂*y₃)
        + x₁^2*y₁ * (x₂*y₃ * (y₃^2 - 1) + y₂*x₃ * (x₃^2 + 1))
        + x₁*y₁^2 * (x₂*x₃ * (x₃^2 + 1) + y₂*y₃ * (y₃^2 - 1))) * h₂
    + d*x₂*y₂ * (x₁ * (x₁^2 + 1) * x₂*y₂ * (x₂*y₃ + y₂*x₃)
        - y₁ * (y₁^2 - 1) * x₂*y₂ * (x₂*x₃ + y₂*y₃)
        + x₁^2*y₁ * (x₂^3*y₃ * (1 + d*y₂^2) + y₂^3*x₃ * (1 - d*x₂^2))
        - x₁*y₁^2 * (x₂^3*x₃ * (1 + d*y₂^2) + y₂^3*y₃ * (1 - d*x₂^2))) * h₃

end

/-! ## the group -/

namespace Point
variable {C : Curve F}

def addX (P Q : Point C) : F := (P.x * Q.y + P.y * Q.x) / (1 + C.d * P.x * Q.x * P.y * Q.y)
def addY (P Q : Point C) : F := (P.y * Q.y + P.x * Q.x) / (1 - C.d * P.x * Q.x * P.y * Q.y)

theorem add_on (P Q : Point C) :
    (addY P Q)^2 - (addX P Q)^2 = 1 + C.d * (addX P Q)^2 * (addY P Q)^2 := by
  have hp := C.one_add_ne P Q
  have hm := C.one_sub_ne P Q
  have h := on_num C.d P.x P.y Q.x Q.y P.on Q.on
  unfold addX addY
  generalize 1 + C.d * P.x * Q.x * P.y * Q.y = a at *
  generalize 1 - C.d * P.x * Q.x * P.y * Q.y = b at *
  field_simp
  linear_combination h

instance : Zero (Point C) := ⟨⟨0, 1, by ring⟩⟩
instance : Neg (Point C) := ⟨fun P => ⟨-P.x, P.y, by linear_combination P.on⟩⟩
instance : Add (Point C) := ⟨fun P Q => ⟨addX P Q, addY P Q, add_on P Q⟩⟩

@[simp] theorem zero_x : (0 : Point C).x = 0 := rfl
@[simp] theorem zero_y : (0 : Point C).y = 1 := rfl
@[simp] theorem neg_x (P : Point C) : (-P).x = -P.x := rfl
@[simp] theorem neg_y (P : Point C) : (-P).y = P.y := rfl

theorem add_x (P Q : Point C) :
    (P + Q).x = (P.x * Q.y + P.y * Q.x) / (1 + C.d * P.x * Q.x * P.y * Q.y) := rfl
theorem add_y (P Q : Point C) :
    (P + Q).y = (P.y * Q.y + P.x * Q.x) / (1 - C.d * P.x * Q.x * P.y * Q.y) := rfl

protected theorem add_comm (P Q : Point C) : P + Q = Q + P := by
  ext
  · rw [add_x, add_x]; congr 1 <;> ring
  · rw [add_y, add_y]; congr 1 <;> ring

protected theorem zero_add (P : Point C) : 0 + P = P := by
  ext
  · rw [add_x, zero_x, zero_y]; simp
  · rw [add_y, zero_x, zero_y]; simp

protected theorem neg_add_cancel (P : Point C) : -P + P = 0 := by
  ext
  · rw [add_x, neg_x, neg_y, zero_x, show -P.x * P.y + P.y * P.x = 0 by ring, zero_div]
  · have hm := C.one_sub_ne (-P) P
    rw [add_y, zero_y, div_eq_one_iff_eq hm, neg_x, neg_y]
    linear_combination P.on

private theorem clear_quot {u v a b p q k : F} (ha : a ≠ 0) (hb : b ≠ 0) :
    (u / a * p + v / b * q) / (1 + k * (u / a) * (v / b))
      = (u * b * p + v * a * q) / (a * b + k * u * v) := by
  have hab : a * b ≠ 0 := mul_ne_zero ha hb
  rw [← mul_div_mul_right _ _ hab]
  congr 1 <;> field_simp

theorem add_add_x (P Q R : Point C) :
    (P + Q + R).x
      = ((P.x * Q.y + P.y * Q.x) * (1 - C.d * P.x * Q.x * P.y * Q.y) * R.y
          + (P.y * Q.y + P.x * Q.x) * (1 + C.d * P.x * Q.x * P.y * Q.y) * R.x)
        / ((1 + C.d * P.x * Q.x * P.y * Q.y) * (1 - C.d * P.x * Q.x * P.y * Q.y)
          + C.d * (P.x * Q.y + P.y * Q.x) * R.x * (P.y * Q.y + P.x * Q.x) * R.y) := by
  rw [add_x (P + Q) R, add_x P Q, add_y P Q]
  have h := clear_quot (u := P.x * Q.y + P.y * Q.x) (v := P.y * Q.y + P.x * Q.x) (p := R.y)
    (q := R.x) (k := C.d * R.x * R.y) (C.one_add_ne P Q) (C.one_sub_ne P Q)
  convert h using 2 <;> ring

theorem add_add_y (P Q R : Point C) :
    (P + Q + R).y
      = ((P.y * Q.y + P.x * Q.x) * (1 + C.d * P.x * Q.x * P.y * Q.y) * R.y
          + (P.x * Q.y + P.y * Q.x) * (1 - C.d * P.x * Q.x * P.y * Q.y) * R.x)
        / ((1 + C.d * P.x * Q.x * P.y * Q.y) * (1 - C.d * P.x * Q.x * P.y * Q.y)
          - C.d * (P.x * Q.y + P.y * Q.x) * R.x * (P.y * Q.y + P.x * Q.x) * R.y) := by
  rw [add_y (P + Q) R, add_x P Q, add_y P Q]
  have h := clear_quot (u := P.y * Q.y + P.x * Q.x) (v := P.x * Q.y + P.y * Q.x) (p := R.y)
    (q := R.x) (k := -(C.d * R.x * R.y)) (C.one_sub_ne P Q) (C.one_add_ne P Q)
  convert h using 2 <;> ring

/-- the denominators of `add_add_x`, `add_add_y` are those of two complete additions -/
theorem add_add_denom_ne (P Q R : Point C) :
    (1 + C.d * P.x * Q.x * P.y * Q.y) * (1 - C.d * P.x * Q.x * P.y * Q.y)
        + C.d * (P.x * Q.y + P.y * Q.x) * R.x * (P.y * Q.y + P.x * Q.x) * R.y ≠ 0 ∧
    (1 + C.d * P.x * Q.x * P.y * Q.y) * (1 - C.d * P.x * Q.x * P.y * Q.y)
        - C.d * (P.x * Q.y + P.y * Q.x) * R.x * (P.y * Q.y + P.x * Q.x) * R.y ≠ 0 := by
  have hp := C.one_add_ne P Q
  have hm := C.one_sub_ne P Q
  have h1 := C.one_add_ne (P + Q) R
  have h2 := C.one_sub_ne (P + Q) R
  rw [add_x, add_y] at h1 h2
  generalize 1 + C.d * P.x * Q.x * P.y * Q.y = a at *
  generalize 1 - C.d * P.x * Q.x * P.y * Q.y = b at *
  constructor
  · intro h
    apply h1
    field_simp
    linear_combination h
  · intro h
    apply h2
    field_simp
    linear_combination h

protected theorem add_assoc (P Q R : Point C) : P + Q + R = P + (Q + R) := by
  have hl := add_add_denom_ne P Q R
  have hr := add_add_denom_ne Q R P
  rw [Point.add_comm P (Q + R)]
  ext
  · rw [add_add_x, add_add_x, div_eq_div_iff hl.1 hr.1]
    linear_combination assoc_num_x C.d P.x P.y Q.x Q.y R.x R.y P.on Q.on R.on
  · rw [add_add_y, add_add_y, div_eq_div_iff hl.2 hr.2]
    linear_combination assoc_num_y C.d P.x P.y Q.x Q.y R.x R.y P.on Q.on R.on

/-- **the affine points are a commutative group** -/
instance addCommGroup : AddCommGroup (Point C) where
  add_assoc := Point.add_assoc
  zero_add := Point.zero_add
  add_zero P := by rw [Point.add_comm, Point.zero_add]
  nsmul := nsmulRec
  zsmul := zsmulRec
  neg_add_cancel := Point.neg_add_cancel
  add_comm := Point.add_comm

end Point

end TwistedEdwards
