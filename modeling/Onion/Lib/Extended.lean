import Onion.Lib.Edwards

/-!
# Extended coordinates on a complete twisted Edwards curve

`(X : Y : Z : T)` stands for the affine point `(X/Z, Y/Z)`, with `T = XY/Z`.

* `Represents`        the coordinates stand for a given point of the group;
* `Represents.of_quadric`   by the quadric `XY = ZT` and the affine point;
* `Represents.efgh`   the last step `(EF, GH, FG, EH)` shared by every formula of this family;
* `Represents.add`, `Represents.madd`, `Represents.double`
                      addition, addition of an affine point, doubling: complete, without any
                      exceptional case.
-/

namespace TwistedEdwards

variable {F : Type*} [Field F] {C : Curve F}

/-- the extended coordinates `(X : Y : Z : T)` stand for the point `P` -/
structure Represents (X Y Z T : F) (P : Point C) : Prop where
  z_ne : Z ≠ 0
  x_eq : X = P.x * Z
  y_eq : Y = P.y * Z
  t_eq : T = P.x * P.y * Z

namespace Represents
variable {X Y Z T X₂ Y₂ Z₂ T₂ : F} {P Q : Point C}

theorem zero : Represents 0 1 1 0 (0 : Point C) :=
  ⟨one_ne_zero, by simp, by simp, by simp⟩

theorem affine (P : Point C) : Represents P.x P.y 1 (P.x * P.y) P :=
  ⟨one_ne_zero, by ring, by ring, by ring⟩

theorem div_z (h : Represents X Y Z T P) : X * Z⁻¹ = P.x ∧ Y * Z⁻¹ = P.y := by
  rw [h.x_eq, h.y_eq, mul_assoc, mul_assoc, mul_inv_cancel₀ h.z_ne, mul_one, mul_one]
  exact ⟨rfl, rfl⟩

theorem of_quadric (hz : Z ≠ 0) (ht : X * Y = Z * T) (hx : P.x = X / Z) (hy : P.y = Y / Z) :
    Represents X Y Z T P := by
  refine ⟨hz, ?_, ?_, ?_⟩
  · rw [hx, div_mul_cancel₀ _ hz]
  · rw [hy, div_mul_cancel₀ _ hz]
  · rw [hx, hy]
    field_simp
    linear_combination -ht

theorem quadric (h : Represents X Y Z T P) : X * Y = Z * T := by
  rw [h.x_eq, h.y_eq, h.t_eq]; ring

/-- **The shared last step**: `E : G` is the first coordinate of the sum, `H : F` the second. -/
theorem efgh {E F' G H k l : F} (hk : k ≠ 0) (hl : l ≠ 0)
    (hE : E = k * (P.x * Q.y + P.y * Q.x)) (hG : G = k * (1 + C.d * P.x * Q.x * P.y * Q.y))
    (hH : H = l * (P.y * Q.y + P.x * Q.x)) (hF : F' = l * (1 - C.d * P.x * Q.x * P.y * Q.y)) :
    Represents (E * F') (G * H) (F' * G) (E * H) (P + Q) := by
  have hp := C.one_add_ne P Q
  have hm := C.one_sub_ne P Q
  have hx := Point.add_x P Q
  have hy := Point.add_y P Q
  rw [hE, hF, hG, hH]
  generalize 1 + C.d * P.x * Q.x * P.y * Q.y = a at *
  generalize 1 - C.d * P.x * Q.x * P.y * Q.y = b at *
  refine ⟨mul_ne_zero (mul_ne_zero hl hm) (mul_ne_zero hk hp), ?_, ?_, ?_⟩
  · rw [hx]; field_simp
  · rw [hy]; field_simp
  · rw [hx, hy]; field_simp

theorem add (h₁ : Represents X Y Z T P) (h₂ : Represents X₂ Y₂ Z₂ T₂ Q) :
    let a := (Y - X) * (Y₂ - X₂)
    let b := (Y + X) * (Y₂ + X₂)
    let c := T₂ * (2 * C.d) * T
    let d := Z * Z₂ + Z * Z₂
    Represents ((b - a) * (d - c)) ((d + c) * (b + a)) ((d - c) * (d + c)) ((b - a) * (b + a))
      (P + Q) := by
  intro a b c d
  have hk : 2 * (Z * Z₂) ≠ 0 := mul_ne_zero C.two_ne (mul_ne_zero h₁.z_ne h₂.z_ne)
  apply efgh hk hk
  · show (Y + X) * (Y₂ + X₂) - (Y - X) * (Y₂ - X₂) = _
    rw [h₁.x_eq, h₁.y_eq, h₂.x_eq, h₂.y_eq]; ring
  · show Z * Z₂ + Z * Z₂ + T₂ * (2 * C.d) * T = _
    rw [h₁.t_eq, h₂.t_eq]; ring
  · show (Y + X) * (Y₂ + X₂) + (Y - X) * (Y₂ - X₂) = _
    rw [h₁.x_eq, h₁.y_eq, h₂.x_eq, h₂.y_eq]; ring
  · show Z * Z₂ + Z * Z₂ - T₂ * (2 * C.d) * T = _
    rw [h₁.t_eq, h₂.t_eq]; ring

theorem madd (h₁ : Represents X Y Z T P) (Q : Point C) :
    let a := (Y - X) * (Q.y - Q.x)
    let b := (Y + X) * (Q.y + Q.x)
    let c := Q.x * Q.y * (2 * C.d) * T
    let d := Z + Z
    Represents ((b - a) * (d - c)) ((d + c) * (b + a)) ((d - c) * (d + c)) ((b - a) * (b + a))
      (P + Q) := by
  have h := add h₁ (affine Q)
  simp only [mul_one] at h
  exact h

/-- dedicated doubling; the sign of `E` and `G` is the opposite of that of `F` and `H` -/
theorem double (h : Represents X Y Z T P) :
    let H := X * X + Y * Y
    let E := H - (X + Y) * (X + Y)
    let G := X * X - Y * Y
    let F' := Z * Z + Z * Z + G
    Represents (E * F') (G * H) (F' * G) (E * H) (P + P) := by
  intro H E G F'
  have hk : Z * Z ≠ 0 := mul_ne_zero h.z_ne h.z_ne
  apply efgh (neg_ne_zero.mpr hk) hk
  · show X * X + Y * Y - (X + Y) * (X + Y) = _
    rw [h.x_eq, h.y_eq]; ring
  · show X * X - Y * Y = _
    rw [h.x_eq, h.y_eq]
    linear_combination (-(Z * Z)) * P.on
  · show X * X + Y * Y = _
    rw [h.x_eq, h.y_eq]; ring
  · show Z * Z + Z * Z + (X * X - Y * Y) = _
    rw [h.x_eq, h.y_eq]
    linear_combination (-(Z * Z)) * P.on

end Represents

end TwistedEdwards
