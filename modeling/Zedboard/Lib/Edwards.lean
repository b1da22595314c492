import Mathlib.Algebra.Field.Basic
import Mathlib.Algebra.Group.Even
import Mathlib.Tactic.FieldSimp
import Mathlib.Tactic.LinearCombination
import Mathlib.Tactic.Ring

/-!
# Complete twisted Edwards curves

The curve `a x² + y² = 1 + d x² y²` over a field of odd characteristic, where `a` is a square and `d`
is none.  Then the denominators of the addition law are never zero (`sq_ne_one`), the law is one of
the curve (`onCurve_add`), and it is associative (`add_x_assoc`, `add_y_assoc`): the points are a
commutative group.

The second part is about coordinates without divisions, on a curve with `a = -1`: what has to hold of
four or three numbers for them to be coordinates of a point, and that the usual formulas give
coordinates of the sum and of the double.
-/

set_option autoImplicit false

namespace Zedboard

/-- A complete twisted Edwards curve. -/
structure EdwardsCurve (F : Type*) [Field F] where
  a : F
  d : F
  isSquare_a : IsSquare a
  not_isSquare_d : ¬IsSquare d
  two_ne_zero : (2 : F) ≠ 0

namespace EdwardsCurve

variable {F : Type*} [Field F] (C : EdwardsCurve F)

/-- The equation of the curve. -/
def OnCurve (x y : F) : Prop := C.a * x ^ 2 + y ^ 2 = 1 + C.d * x ^ 2 * y ^ 2

/-- A point of the curve. -/
@[ext] structure Point where
  x : F
  y : F
  onCurve : C.OnCurve x y

variable {C} {x₁ y₁ x₂ y₂ x₃ y₃ : F}

/-! ## Denominators -/

theorem eq_zero_of_mul_sq {d t u : F} (hd : ¬IsSquare d) (h : d * t ^ 2 = u ^ 2) : t = 0 := by
  by_contra ht
  refine hd ⟨u / t, ?_⟩
  rw [← sq, div_pow, eq_div_iff (pow_ne_zero 2 ht), h]

/-- **The addition law is complete.** -/
theorem sq_ne_one (h₁ : C.OnCurve x₁ y₁) (h₂ : C.OnCurve x₂ y₂) :
    (C.d * x₁ * x₂ * y₁ * y₂) ^ 2 ≠ 1 := by
  intro hone
  obtain ⟨r, hr⟩ := C.isSquare_a
  rw [OnCurve, hr] at h₁ h₂
  -- a sum of squares on either side, for both signs of `y₂`
  have hplus : C.d * (x₁ * y₁ * (r * x₂ + y₂)) ^ 2 =
      (r * x₁ + C.d * x₁ * x₂ * y₁ * y₂ * y₁) ^ 2 := by
    linear_combination C.d * x₁ ^ 2 * y₁ ^ 2 * h₂ - h₁ + (1 - y₁ ^ 2) * hone
  have hminus : C.d * (x₁ * y₁ * (r * x₂ - y₂)) ^ 2 =
      (r * x₁ - C.d * x₁ * x₂ * y₁ * y₂ * y₁) ^ 2 := by
    linear_combination C.d * x₁ ^ 2 * y₁ ^ 2 * h₂ - h₁ + (1 - y₁ ^ 2) * hone
  have hw : x₁ * y₁ ≠ 0 := by
    intro hw
    refine zero_ne_one (α := F) ?_
    linear_combination hone - C.d ^ 2 * x₁ * x₂ ^ 2 * y₁ * y₂ ^ 2 * hw
  have hp := (mul_eq_zero.1 (eq_zero_of_mul_sq C.not_isSquare_d hplus)).resolve_left hw
  have hm := (mul_eq_zero.1 (eq_zero_of_mul_sq C.not_isSquare_d hminus)).resolve_left hw
  have hy : y₂ = 0 := by
    refine (mul_eq_zero.1 (?_ : 2 * y₂ = 0)).resolve_left C.two_ne_zero
    linear_combination hp - hm
  refine zero_ne_one (α := F) ?_
  linear_combination hone - C.d ^ 2 * x₁ ^ 2 * x₂ ^ 2 * y₁ ^ 2 * y₂ * hy

theorem one_add_ne_zero (h₁ : C.OnCurve x₁ y₁) (h₂ : C.OnCurve x₂ y₂) :
    1 + C.d * x₁ * x₂ * y₁ * y₂ ≠ 0 := by
  intro h
  refine sq_ne_one h₁ h₂ ?_
  linear_combination (C.d * x₁ * x₂ * y₁ * y₂ - 1) * h

theorem one_sub_ne_zero (h₁ : C.OnCurve x₁ y₁) (h₂ : C.OnCurve x₂ y₂) :
    1 - C.d * x₁ * x₂ * y₁ * y₂ ≠ 0 := by
  intro h
  refine sq_ne_one h₁ h₂ ?_
  linear_combination (-C.d * x₁ * x₂ * y₁ * y₂ - 1) * h

/-! ## The group -/

theorem onCurve_div {n m p q : F} (hp : p ≠ 0) (hq : q ≠ 0) :
    C.OnCurve (n / p) (m / q) ↔
      C.a * n ^ 2 * q ^ 2 + m ^ 2 * p ^ 2 = p ^ 2 * q ^ 2 + C.d * n ^ 2 * m ^ 2 := by
  rw [OnCurve, div_pow, div_pow]
  field_simp

/-- The sum of two points is on the curve. -/
theorem onCurve_add (h₁ : C.OnCurve x₁ y₁) (h₂ : C.OnCurve x₂ y₂) :
    C.OnCurve ((x₁ * y₂ + x₂ * y₁) / (1 + C.d * x₁ * x₂ * y₁ * y₂))
      ((y₁ * y₂ - C.a * x₁ * x₂) / (1 - C.d * x₁ * x₂ * y₁ * y₂)) := by
  rw [onCurve_div (one_add_ne_zero h₁ h₂) (one_sub_ne_zero h₁ h₂)]
  rw [OnCurve] at h₁ h₂
  linear_combination
    ((C.a * x₂ ^ 2 + y₂ ^ 2) * (1 + (C.d * x₁ * x₂ * y₁ * y₂) ^ 2) -
        C.d * x₂ ^ 2 * y₂ ^ 2 * (C.a * x₁ ^ 2 + y₁ ^ 2 + 1 + C.d * x₁ ^ 2 * y₁ ^ 2)) * h₁ +
      ((1 + C.d * x₁ ^ 2 * y₁ ^ 2) * (1 + (C.d * x₁ * x₂ * y₁ * y₂) ^ 2) -
        C.d * x₁ ^ 2 * y₁ ^ 2 * (C.a * x₂ ^ 2 + y₂ ^ 2 + 1 + C.d * x₂ ^ 2 * y₂ ^ 2)) * h₂

/-- The sum of two points. -/
instance : Add C.Point where
  add P Q :=
    ⟨(P.x * Q.y + Q.x * P.y) / (1 + C.d * P.x * Q.x * P.y * Q.y),
      (P.y * Q.y - C.a * P.x * Q.x) / (1 - C.d * P.x * Q.x * P.y * Q.y),
      onCurve_add P.onCurve Q.onCurve⟩

instance : Zero C.Point where
  zero := ⟨0, 1, by rw [OnCurve]; ring⟩

instance : Neg C.Point where
  neg P := ⟨-P.x, P.y, by have h := P.onCurve; rw [OnCurve] at h ⊢; linear_combination h⟩

namespace Point

@[simp] theorem zero_x : (0 : C.Point).x = 0 := rfl

@[simp] theorem zero_y : (0 : C.Point).y = 1 := rfl

@[simp] theorem neg_x (P : C.Point) : (-P).x = -P.x := rfl

@[simp] theorem neg_y (P : C.Point) : (-P).y = P.y := rfl

theorem add_x (P Q : C.Point) :
    (P + Q).x = (P.x * Q.y + Q.x * P.y) / (1 + C.d * P.x * Q.x * P.y * Q.y) := rfl

theorem add_y (P Q : C.Point) :
    (P + Q).y = (P.y * Q.y - C.a * P.x * Q.x) / (1 - C.d * P.x * Q.x * P.y * Q.y) := rfl

end Point

/-- The law is associative in the first coordinate, without denominators. -/
theorem assoc_x {a d : F} (h₁ : a * x₁ ^ 2 + y₁ ^ 2 = 1 + d * x₁ ^ 2 * y₁ ^ 2)
    (h₂ : a * x₂ ^ 2 + y₂ ^ 2 = 1 + d * x₂ ^ 2 * y₂ ^ 2)
    (h₃ : a * x₃ ^ 2 + y₃ ^ 2 = 1 + d * x₃ ^ 2 * y₃ ^ 2) :
    ((x₁ * y₂ + x₂ * y₁) * (1 - d * x₁ * x₂ * y₁ * y₂) * y₃ +
          x₃ * (y₁ * y₂ - a * x₁ * x₂) * (1 + d * x₁ * x₂ * y₁ * y₂)) *
        ((1 + d * x₂ * x₃ * y₂ * y₃) * (1 - d * x₂ * x₃ * y₂ * y₃) +
          d * x₁ * y₁ * (x₂ * y₃ + x₃ * y₂) * (y₂ * y₃ - a * x₂ * x₃)) =
      (x₁ * (y₂ * y₃ - a * x₂ * x₃) * (1 + d * x₂ * x₃ * y₂ * y₃) +
          (x₂ * y₃ + x₃ * y₂) * (1 - d * x₂ * x₃ * y₂ * y₃) * y₁) *
        ((1 + d * x₁ * x₂ * y₁ * y₂) * (1 - d * x₁ * x₂ * y₁ * y₂) +
          d * x₃ * y₃ * (x₁ * y₂ + x₂ * y₁) * (y₁ * y₂ - a * x₁ * x₂)) := by
  linear_combination
    (-d * x₂ * y₂ * x₃ * y₃ * (a * x₁ * x₂ * x₃ - x₁ * y₂ * y₃ + y₁ * x₂ * y₃ + y₁ * y₂ * x₃) -
        d * x₂ ^ 2 * y₂ ^ 2 * (a * x₃ ^ 2 + y₃ ^ 2 - 1) *
          (a * x₁ * x₂ * x₃ - x₁ * y₂ * y₃ - y₁ * x₂ * y₃ - y₁ * y₂ * x₃)) * h₁ +
      d ^ 2 * x₁ * y₁ * x₂ * y₂ * x₃ * y₃ *
        (x₁ * y₁ * (a * x₁ * x₂ * x₃ - x₁ * y₂ * y₃ + y₁ * x₂ * y₃ + y₁ * y₂ * x₃) -
          x₃ * y₃ * (a * x₁ * x₂ * x₃ + x₁ * y₂ * y₃ + y₁ * x₂ * y₃ - y₁ * y₂ * x₃)) * h₂ +
      (d * x₁ * y₁ * x₂ * y₂ *
          (a * x₁ * x₂ * x₃ + x₁ * y₂ * y₃ + y₁ * x₂ * y₃ - y₁ * y₂ * x₃) +
        d * x₂ ^ 2 * y₂ ^ 2 * (a * x₁ ^ 2 + y₁ ^ 2 - 1) *
          (a * x₁ * x₂ * x₃ - x₁ * y₂ * y₃ - y₁ * x₂ * y₃ - y₁ * y₂ * x₃)) * h₃

/-- The law is associative in the second coordinate, without denominators. -/
theorem assoc_y {a d : F} (h₁ : a * x₁ ^ 2 + y₁ ^ 2 = 1 + d * x₁ ^ 2 * y₁ ^ 2)
    (h₂ : a * x₂ ^ 2 + y₂ ^ 2 = 1 + d * x₂ ^ 2 * y₂ ^ 2)
    (h₃ : a * x₃ ^ 2 + y₃ ^ 2 = 1 + d * x₃ ^ 2 * y₃ ^ 2) :
    ((y₁ * y₂ - a * x₁ * x₂) * (1 + d * x₁ * x₂ * y₁ * y₂) * y₃ -
          a * (x₁ * y₂ + x₂ * y₁) * (1 - d * x₁ * x₂ * y₁ * y₂) * x₃) *
        ((1 + d * x₂ * x₃ * y₂ * y₃) * (1 - d * x₂ * x₃ * y₂ * y₃) -
          d * x₁ * y₁ * (x₂ * y₃ + x₃ * y₂) * (y₂ * y₃ - a * x₂ * x₃)) =
      (y₁ * (y₂ * y₃ - a * x₂ * x₃) * (1 + d * x₂ * x₃ * y₂ * y₃) -
          a * x₁ * (x₂ * y₃ + x₃ * y₂) * (1 - d * x₂ * x₃ * y₂ * y₃)) *
        ((1 + d * x₁ * x₂ * y₁ * y₂) * (1 - d * x₁ * x₂ * y₁ * y₂) -
          d * x₃ * y₃ * (x₁ * y₂ + x₂ * y₁) * (y₁ * y₂ - a * x₁ * x₂)) := by
  linear_combination
    (d * x₂ * y₂ * x₃ * y₃ *
          (a * x₁ * x₂ * y₃ + a * x₁ * y₂ * x₃ - a * y₁ * x₂ * x₃ + y₁ * y₂ * y₃) +
        d * x₂ ^ 2 * y₂ ^ 2 * (a * x₃ ^ 2 + y₃ ^ 2 - 1) *
          (y₁ * y₂ * y₃ - a * x₁ * x₂ * y₃ - a * x₁ * y₂ * x₃ - a * y₁ * x₂ * x₃)) * h₁ +
      d ^ 2 * x₁ * y₁ * x₂ * y₂ * x₃ * y₃ *
        (x₃ * y₃ * (a * y₁ * x₂ * x₃ + a * x₁ * y₂ * x₃ - a * x₁ * x₂ * y₃ + y₁ * y₂ * y₃) -
          x₁ * y₁ * (a * x₁ * x₂ * y₃ + a * x₁ * y₂ * x₃ - a * y₁ * x₂ * x₃ + y₁ * y₂ * y₃)) * h₂ -
      (d * x₁ * y₁ * x₂ * y₂ *
          (a * y₁ * x₂ * x₃ + a * x₁ * y₂ * x₃ - a * x₁ * x₂ * y₃ + y₁ * y₂ * y₃) +
        d * x₂ ^ 2 * y₂ ^ 2 * (a * x₁ ^ 2 + y₁ ^ 2 - 1) *
          (y₁ * y₂ * y₃ - a * x₁ * x₂ * y₃ - a * x₁ * y₂ * x₃ - a * y₁ * x₂ * x₃)) * h₃

/-- A sum with a point whose coordinates are quotients. -/
theorem add_div {a d n m p q u v : F} (hp : p ≠ 0) (hq : q ≠ 0) :
    (n / p * v + u * (m / q)) / (1 + d * (n / p) * u * (m / q) * v) =
        (n * q * v + u * m * p) / (p * q + d * u * v * n * m) ∧
      (m / q * v - a * (n / p) * u) / (1 - d * (n / p) * u * (m / q) * v) =
        (m * p * v - a * n * q * u) / (p * q - d * u * v * n * m) := by
  have hpq : p * q ≠ 0 := mul_ne_zero hp hq
  constructor
  · rw [← mul_div_mul_left _ _ hpq]
    congr 1 <;> field_simp
  · rw [← mul_div_mul_left _ _ hpq]
    congr 1 <;> field_simp

theorem add_div_ne_zero {d n m p q u v : F} (hp : p ≠ 0) (hq : q ≠ 0)
    (h : 1 + d * (n / p) * u * (m / q) * v ≠ 0) : p * q + d * u * v * n * m ≠ 0 := by
  have hmul : p * q + d * u * v * n * m = p * q * (1 + d * (n / p) * u * (m / q) * v) := by
    field_simp
  rw [hmul]
  exact mul_ne_zero (mul_ne_zero hp hq) h

theorem sub_div_ne_zero {d n m p q u v : F} (hp : p ≠ 0) (hq : q ≠ 0)
    (h : 1 - d * (n / p) * u * (m / q) * v ≠ 0) : p * q - d * u * v * n * m ≠ 0 := by
  have hmul : p * q - d * u * v * n * m = p * q * (1 - d * (n / p) * u * (m / q) * v) := by
    field_simp
  rw [hmul]
  exact mul_ne_zero (mul_ne_zero hp hq) h

namespace Point

protected theorem add_comm (P Q : C.Point) : P + Q = Q + P := by
  refine Point.ext ?_ ?_
  · rw [add_x, add_x]
    congr 1 <;> ring
  · rw [add_y, add_y]
    congr 1 <;> ring

protected theorem zero_add (P : C.Point) : 0 + P = P := by
  refine Point.ext ?_ ?_
  · rw [add_x, zero_x, zero_y]
    simp
  · rw [add_y, zero_x, zero_y]
    simp

protected theorem neg_add_cancel (P : C.Point) : -P + P = 0 := by
  have hm := one_sub_ne_zero (-P).onCurve P.onCurve
  refine Point.ext ?_ ?_
  · rw [add_x, neg_x, neg_y, zero_x]
    simp [mul_comm]
  · have h := P.onCurve
    rw [OnCurve] at h
    rw [add_y, zero_y, div_eq_one_iff_eq hm, neg_x, neg_y]
    linear_combination h

/-- A sum of three points, as two quotients. -/
theorem add_add (P Q R : C.Point) :
    (P + Q + R).x =
        ((P.x * Q.y + Q.x * P.y) * (1 - C.d * P.x * Q.x * P.y * Q.y) * R.y +
            R.x * (P.y * Q.y - C.a * P.x * Q.x) * (1 + C.d * P.x * Q.x * P.y * Q.y)) /
          ((1 + C.d * P.x * Q.x * P.y * Q.y) * (1 - C.d * P.x * Q.x * P.y * Q.y) +
            C.d * R.x * R.y * (P.x * Q.y + Q.x * P.y) * (P.y * Q.y - C.a * P.x * Q.x)) ∧
      (P + Q + R).y =
        ((P.y * Q.y - C.a * P.x * Q.x) * (1 + C.d * P.x * Q.x * P.y * Q.y) * R.y -
            C.a * (P.x * Q.y + Q.x * P.y) * (1 - C.d * P.x * Q.x * P.y * Q.y) * R.x) /
          ((1 + C.d * P.x * Q.x * P.y * Q.y) * (1 - C.d * P.x * Q.x * P.y * Q.y) -
            C.d * R.x * R.y * (P.x * Q.y + Q.x * P.y) * (P.y * Q.y - C.a * P.x * Q.x)) := by
  have hp := one_add_ne_zero P.onCurve Q.onCurve
  have hm := one_sub_ne_zero P.onCurve Q.onCurve
  rw [add_x (P + Q), add_y (P + Q), add_x P, add_y P]
  exact add_div hp hm

/-- The denominators of a sum of three points. -/
theorem add_add_ne_zero (P Q R : C.Point) :
    (1 + C.d * P.x * Q.x * P.y * Q.y) * (1 - C.d * P.x * Q.x * P.y * Q.y) +
        C.d * R.x * R.y * (P.x * Q.y + Q.x * P.y) * (P.y * Q.y - C.a * P.x * Q.x) ≠ 0 ∧
      (1 + C.d * P.x * Q.x * P.y * Q.y) * (1 - C.d * P.x * Q.x * P.y * Q.y) -
        C.d * R.x * R.y * (P.x * Q.y + Q.x * P.y) * (P.y * Q.y - C.a * P.x * Q.x) ≠ 0 := by
  have hp := one_add_ne_zero P.onCurve Q.onCurve
  have hm := one_sub_ne_zero P.onCurve Q.onCurve
  exact ⟨add_div_ne_zero hp hm (one_add_ne_zero (P + Q).onCurve R.onCurve),
    sub_div_ne_zero hp hm (one_sub_ne_zero (P + Q).onCurve R.onCurve)⟩

/-- **The addition is associative.** -/
protected theorem add_assoc (P Q R : C.Point) : P + Q + R = P + (Q + R) := by
  obtain ⟨hx, hy⟩ := add_add P Q R
  obtain ⟨hx', hy'⟩ := add_add Q R P
  obtain ⟨hp, hm⟩ := add_add_ne_zero P Q R
  obtain ⟨hp', hm'⟩ := add_add_ne_zero Q R P
  rw [Point.add_comm P (Q + R)]
  refine Point.ext ?_ ?_
  · rw [hx, hx', div_eq_div_iff hp hp']
    linear_combination assoc_x P.onCurve Q.onCurve R.onCurve
  · rw [hy, hy', div_eq_div_iff hm hm']
    linear_combination assoc_y P.onCurve Q.onCurve R.onCurve

instance : AddCommGroup C.Point where
  add_assoc := Point.add_assoc
  zero_add := Point.zero_add
  add_zero P := (Point.add_comm P 0).trans (Point.zero_add P)
  nsmul := nsmulRec
  zsmul := zsmulRec
  neg_add_cancel := Point.neg_add_cancel
  add_comm := Point.add_comm

end Point

/-! ## Coordinates without divisions -/

/-- Projective coordinates of a point. -/
structure Projective (P : C.Point) (X Y Z : F) : Prop where
  z_ne_zero : Z ≠ 0
  x_eq : X = P.x * Z
  y_eq : Y = P.y * Z

/-- Extended coordinates: the product of the two coordinates comes with them. -/
structure Extended (P : C.Point) (X Y Z T : F) : Prop extends Projective P X Y Z where
  t_eq : T = P.x * P.y * Z

/-- Completed coordinates: each coordinate has a denominator of its own. -/
structure Completed (P : C.Point) (X Z Y T : F) : Prop where
  z_ne_zero : Z ≠ 0
  t_ne_zero : T ≠ 0
  x_eq : X = P.x * Z
  y_eq : Y = P.y * T

variable {P Q : C.Point} {X Y Z T X₁ Y₁ Z₁ T₁ X₂ Y₂ Z₂ T₂ : F}

theorem Completed.projective (h : Completed P X Z Y T) : Projective P (X * T) (Y * Z) (Z * T) :=
  ⟨mul_ne_zero h.z_ne_zero h.t_ne_zero, by rw [h.x_eq]; ring, by rw [h.y_eq]; ring⟩

theorem Completed.extended (h : Completed P X Z Y T) :
    Extended P (X * T) (Y * Z) (Z * T) (X * Y) :=
  ⟨h.projective, by rw [h.x_eq, h.y_eq]; ring⟩

theorem extended_affine (P : C.Point) : Extended P P.x P.y 1 (P.x * P.y) :=
  ⟨⟨one_ne_zero, (mul_one _).symm, (mul_one _).symm⟩, (mul_one _).symm⟩

theorem extended_zero : Extended (0 : C.Point) 0 1 1 0 :=
  ⟨⟨one_ne_zero, by simp, by simp⟩, by simp⟩

theorem Projective.x_div (h : Projective P X Y Z) : X * Z⁻¹ = P.x := by
  rw [h.x_eq, mul_assoc, mul_inv_cancel₀ h.z_ne_zero, mul_one]

theorem Projective.y_div (h : Projective P X Y Z) : Y * Z⁻¹ = P.y := by
  rw [h.y_eq, mul_assoc, mul_inv_cancel₀ h.z_ne_zero, mul_one]

theorem div_mul_mul_cancel {k n t : F} (hk : k ≠ 0) : n / k * (t * k) = n * t := by
  field_simp

section MinusOne

variable (ha : C.a = -1)
include ha

/-- **The unified addition.** -/
theorem Extended.add (h₁ : Extended P X₁ Y₁ Z₁ T₁) (h₂ : Extended Q X₂ Y₂ Z₂ T₂) :
    Completed (P + Q)
      ((X₁ + Y₁) * (X₂ + Y₂) - (Y₁ - X₁) * (Y₂ - X₂))
      (Z₁ * Z₂ + Z₁ * Z₂ + T₁ * T₂ * (2 * C.d))
      ((X₁ + Y₁) * (X₂ + Y₂) + (Y₁ - X₁) * (Y₂ - X₂))
      (Z₁ * Z₂ + Z₁ * Z₂ - T₁ * T₂ * (2 * C.d)) := by
  have hp := one_add_ne_zero P.onCurve Q.onCurve
  have hm := one_sub_ne_zero P.onCurve Q.onCurve
  have hz : 2 * (Z₁ * Z₂) ≠ 0 :=
    mul_ne_zero C.two_ne_zero (mul_ne_zero h₁.z_ne_zero h₂.z_ne_zero)
  have hZ : Z₁ * Z₂ + Z₁ * Z₂ + T₁ * T₂ * (2 * C.d) =
      2 * (Z₁ * Z₂) * (1 + C.d * P.x * Q.x * P.y * Q.y) := by
    rw [h₁.t_eq, h₂.t_eq]
    ring
  have hT : Z₁ * Z₂ + Z₁ * Z₂ - T₁ * T₂ * (2 * C.d) =
      2 * (Z₁ * Z₂) * (1 - C.d * P.x * Q.x * P.y * Q.y) := by
    rw [h₁.t_eq, h₂.t_eq]
    ring
  refine ⟨?_, ?_, ?_, ?_⟩
  · rw [hZ]
    exact mul_ne_zero hz hp
  · rw [hT]
    exact mul_ne_zero hz hm
  · rw [hZ, Point.add_x, h₁.x_eq, h₁.y_eq, h₂.x_eq, h₂.y_eq,
      div_mul_mul_cancel hp]
    ring
  · rw [hT, Point.add_y, h₁.x_eq, h₁.y_eq, h₂.x_eq, h₂.y_eq, ha,
      div_mul_mul_cancel hm]
    ring

/-- The unified addition of a point in affine coordinates. -/
theorem Extended.add_affine (h₁ : Extended P X₁ Y₁ Z₁ T₁) (Q : C.Point) :
    Completed (P + Q)
      ((Y₁ + X₁) * (Q.y + Q.x) - (Y₁ - X₁) * (Q.y - Q.x))
      (Z₁ + Z₁ + T₁ * (Q.x * Q.y) * (2 * C.d))
      ((Y₁ + X₁) * (Q.y + Q.x) + (Y₁ - X₁) * (Q.y - Q.x))
      (Z₁ + Z₁ - T₁ * (Q.x * Q.y) * (2 * C.d)) := by
  have h := h₁.add ha (extended_affine Q)
  rwa [mul_one, add_comm X₁, add_comm Q.x] at h

/-- **The doubling.** -/
theorem Projective.double (h : Projective P X Y Z) :
    Completed (P + P) ((X + Y) * (X + Y) - X * X - Y * Y) (-(X * X) + Y * Y)
      (-(X * X) - Y * Y) (-(X * X) + Y * Y - (Z * Z + Z * Z)) := by
  have hp := one_add_ne_zero P.onCurve P.onCurve
  have hm := one_sub_ne_zero P.onCurve P.onCurve
  have hz : Z * Z ≠ 0 := mul_ne_zero h.z_ne_zero h.z_ne_zero
  have hcurve := P.onCurve
  rw [OnCurve, ha] at hcurve
  have hZ : -(X * X) + Y * Y = Z * Z * (1 + C.d * P.x * P.x * P.y * P.y) := by
    rw [h.x_eq, h.y_eq]
    linear_combination Z ^ 2 * hcurve
  have hT : -(X * X) + Y * Y - (Z * Z + Z * Z) =
      -(Z * Z) * (1 - C.d * P.x * P.x * P.y * P.y) := by
    rw [hZ]
    ring
  refine ⟨?_, ?_, ?_, ?_⟩
  · rw [hZ]
    exact mul_ne_zero hz hp
  · rw [hT]
    exact mul_ne_zero (neg_ne_zero.2 hz) hm
  · rw [hZ, Point.add_x, h.x_eq, h.y_eq, div_mul_mul_cancel hp]
    ring
  · rw [hT, Point.add_y, h.x_eq, h.y_eq, ha, div_mul_mul_cancel hm]
    ring

end MinusOne

end EdwardsCurve
end Zedboard
