import Mathlib.Algebra.Field.Basic
import Mathlib.Algebra.Group.Basic
import Mathlib.Tactic.FieldSimp
import Mathlib.Tactic.LinearCombination
import Mathlib.Tactic.Ring

/-!
# Twisted Edwards curves

The curve `y² - x² = 1 + d x² y²` over a field in which `-1` is a square and `d` is none.
Then the addition law has no exceptions: the denominators `1 ± d x₁ x₂ y₁ y₂` never vanish
on the curve (`Point.denominator`), so the points form a group (`Point.instAddCommGroup`).

Of the two coordinates of the associative law only the first is computed.  Adding the
point `(i, 0)` of order four swaps the coordinates up to a factor, which gives the other.
-/

namespace Wire.Edwards

/-- The coefficient of a curve on which the addition law is complete. -/
structure Curve (F : Type) [Field F] where
  d : F
  i : F
  i_sq : i * i = -1
  nonsquare : ∀ r : F, r * r ≠ d
  two : (2 : F) ≠ 0

variable {F : Type} [Field F] {c : Curve F}

/-- The equation of the curve. -/
def Curve.On (c : Curve F) (x y : F) : Prop := y ^ 2 - x ^ 2 = 1 + c.d * x ^ 2 * y ^ 2

/-- A point of the curve. -/
@[ext] structure Point (c : Curve F) where
  x : F
  y : F
  on : c.On x y

theorem Curve.d_ne_zero (c : Curve F) : c.d ≠ 0 := by
  intro zero
  refine c.nonsquare 0 ?_
  rw [zero, mul_zero]

/-! ## Points over a second coordinate -/

theorem Curve.on_iff (c : Curve F) (x y : F) :
    c.On x y ↔ (c.d * y ^ 2 + 1) * x ^ 2 = y ^ 2 - 1 := by
  rw [Curve.On]
  constructor
  · intro on
    linear_combination -on
  · intro fraction
    linear_combination -fraction

/-- The square of the first coordinate is a fraction. -/
theorem Curve.fraction_ne_zero (c : Curve F) (y : F) : c.d * y ^ 2 + 1 ≠ 0 := by
  intro zero
  have i_sq := c.i_sq
  have nonzero : y ≠ 0 := by
    intro y_zero
    rw [y_zero] at zero
    exact one_ne_zero (by linear_combination zero : (1 : F) = 0)
  refine c.nonsquare (c.i / y) ?_
  rw [div_mul_div_comm, div_eq_iff (mul_ne_zero nonzero nonzero)]
  linear_combination i_sq - zero

/-- The points without a first coordinate are `(0, 1)` and `(0, -1)`. -/
theorem Curve.On.x_eq_zero_iff {x y : F} (on : c.On x y) : x = 0 ↔ y = 1 ∨ y = -1 := by
  rw [Curve.on_iff] at on
  rw [← sq_eq_one_iff]
  constructor
  · intro zero
    rw [zero] at on
    linear_combination -on
  · intro one
    have product : (c.d * y ^ 2 + 1) * x ^ 2 = 0 := by linear_combination on + one
    exact pow_eq_zero_iff two_ne_zero |>.mp
      ((mul_eq_zero.mp product).resolve_left (c.fraction_ne_zero y))

/-! ## Completeness -/

section Complete

variable {x₁ y₁ x₂ y₂ : F}

/-- The product of the denominators is no zero.  With `e = d x₁ x₂ y₁ y₂` and `e² = 1` the
coefficient is a square, that of `(i x₁ ± e y₁) / (x₁ y₁ (i x₂ ± y₂))`. -/
theorem Curve.complete (h₁ : c.On x₁ y₁) (h₂ : c.On x₂ y₂) :
    (c.d * x₁ * x₂ * y₁ * y₂) ^ 2 ≠ 1 := by
  intro one
  have i_sq := c.i_sq
  rw [Curve.On] at h₁ h₂
  have nonzero : x₁ * y₁ ≠ 0 := by
    intro zero
    have product : (c.d * x₁ * x₂ * y₁ * y₂) ^ 2 =
        x₁ * y₁ * (c.d ^ 2 * x₂ ^ 2 * y₂ ^ 2 * x₁ * y₁) := by
      ring
    rw [product, zero, zero_mul] at one
    exact zero_ne_one one
  have root : ∀ s : F, s * s = 1 → c.i * x₂ + s * y₂ = 0 := by
    intro s unit
    by_contra other
    have below := mul_ne_zero nonzero other
    refine c.nonsquare ((c.i * x₁ + s * (c.d * x₁ * x₂ * y₁ * y₂) * y₁) /
      (x₁ * y₁ * (c.i * x₂ + s * y₂))) ?_
    rw [div_mul_div_comm, div_eq_iff (mul_ne_zero below below)]
    linear_combination (x₁ ^ 2 - c.d * x₁ ^ 2 * y₁ ^ 2 * x₂ ^ 2) * i_sq +
      ((c.d * x₁ * x₂ * y₁ * y₂) ^ 2 * y₁ ^ 2 - c.d * x₁ ^ 2 * y₁ ^ 2 * y₂ ^ 2) * unit -
      c.d * x₁ ^ 2 * y₁ ^ 2 * h₂ + h₁ + (y₁ ^ 2 - 1) * one
  have plus := root 1 (one_mul 1)
  have minus := root (-1) (by ring)
  have zero : y₂ = 0 := by
    have twice : 2 * y₂ = 0 := by linear_combination plus - minus
    exact (mul_eq_zero.mp twice).resolve_left c.two
  rw [zero, mul_zero, zero_pow two_ne_zero] at one
  exact zero_ne_one one

theorem Curve.plus_ne_zero (h₁ : c.On x₁ y₁) (h₂ : c.On x₂ y₂) :
    1 + c.d * x₁ * x₂ * y₁ * y₂ ≠ 0 := by
  intro zero
  refine c.complete h₁ h₂ ?_
  linear_combination (c.d * x₁ * x₂ * y₁ * y₂ - 1) * zero

theorem Curve.minus_ne_zero (h₁ : c.On x₁ y₁) (h₂ : c.On x₂ y₂) :
    1 - c.d * x₁ * x₂ * y₁ * y₂ ≠ 0 := by
  intro zero
  refine c.complete h₁ h₂ ?_
  linear_combination (-c.d * x₁ * x₂ * y₁ * y₂ - 1) * zero

/-! ## Addition -/

/-- The first coordinate of a sum. -/
def Curve.sumX (c : Curve F) (x₁ y₁ x₂ y₂ : F) : F :=
  (x₁ * y₂ + y₁ * x₂) / (1 + c.d * x₁ * x₂ * y₁ * y₂)

/-- The second coordinate of a sum. -/
def Curve.sumY (c : Curve F) (x₁ y₁ x₂ y₂ : F) : F :=
  (y₁ * y₂ + x₁ * x₂) / (1 - c.d * x₁ * x₂ * y₁ * y₂)

/-- A sum is a point of the curve. -/
theorem Curve.on_sum (h₁ : c.On x₁ y₁) (h₂ : c.On x₂ y₂) :
    c.On (c.sumX x₁ y₁ x₂ y₂) (c.sumY x₁ y₁ x₂ y₂) := by
  have plus := c.plus_ne_zero h₁ h₂
  have minus := c.minus_ne_zero h₁ h₂
  rw [Curve.On] at h₁ h₂
  rw [Curve.On, Curve.sumX, Curve.sumY]
  generalize c.d = d at *
  generalize hp : 1 + d * x₁ * x₂ * y₁ * y₂ = p at *
  generalize hm : 1 - d * x₁ * x₂ * y₁ * y₂ = m at *
  field_simp
  subst hp hm
  linear_combination
      (d ^ 3 * x₁ ^ 2 * y₁ ^ 2 * x₂ ^ 4 * y₂ ^ 4 - d ^ 2 * x₁ ^ 2 * x₂ ^ 4 * y₂ ^ 4
        + d ^ 2 * y₁ ^ 2 * x₂ ^ 4 * y₂ ^ 4 - d ^ 2 * x₂ ^ 4 * y₂ ^ 4
        - d * x₁ ^ 2 * x₂ ^ 4 * y₂ ^ 2 + d * x₁ ^ 2 * x₂ ^ 2 * y₂ ^ 4
        + d * y₁ ^ 2 * x₂ ^ 4 * y₂ ^ 2 - d * y₁ ^ 2 * x₂ ^ 2 * y₂ ^ 4 - 2 * d * x₂ ^ 4 * y₂ ^ 4
        - 2 * x₂ ^ 4 * y₂ ^ 2 + 2 * x₂ ^ 2 * y₂ ^ 4 - 2 * d * x₂ ^ 2 * y₂ ^ 2 + x₂ ^ 4
        - 4 * x₂ ^ 2 * y₂ ^ 2 + y₂ ^ 4) * h₁ +
      (d * x₁ ^ 4 * x₂ ^ 2 * y₂ ^ 2 + d * y₁ ^ 4 * x₂ ^ 2 * y₂ ^ 2
        + 2 * d * x₁ ^ 2 * x₂ ^ 2 * y₂ ^ 2 - 2 * d * y₁ ^ 2 * x₂ ^ 2 * y₂ ^ 2
        + 2 * x₁ ^ 2 * x₂ ^ 2 * y₂ ^ 2 - 2 * y₁ ^ 2 * x₂ ^ 2 * y₂ ^ 2 + d * x₂ ^ 2 * y₂ ^ 2
        - x₁ ^ 2 * x₂ ^ 2 + x₁ ^ 2 * y₂ ^ 2 + y₁ ^ 2 * x₂ ^ 2 - y₁ ^ 2 * y₂ ^ 2
        + 2 * x₂ ^ 2 * y₂ ^ 2 - x₂ ^ 2 + y₂ ^ 2 + 1) * h₂

/-- The first coordinate of a sum of three points. -/
theorem Curve.sumX_assoc {x₃ y₃ : F} (h₁ : c.On x₁ y₁) (h₂ : c.On x₂ y₂) (h₃ : c.On x₃ y₃) :
    c.sumX (c.sumX x₁ y₁ x₂ y₂) (c.sumY x₁ y₁ x₂ y₂) x₃ y₃ =
      c.sumX x₁ y₁ (c.sumX x₂ y₂ x₃ y₃) (c.sumY x₂ y₂ x₃ y₃) := by
  have left := c.plus_ne_zero (c.on_sum h₁ h₂) h₃
  have right := c.plus_ne_zero h₁ (c.on_sum h₂ h₃)
  have plus := c.plus_ne_zero h₁ h₂
  have minus := c.minus_ne_zero h₁ h₂
  have plus' := c.plus_ne_zero h₂ h₃
  have minus' := c.minus_ne_zero h₂ h₃
  rw [Curve.On] at h₁ h₂ h₃
  simp only [Curve.sumX, Curve.sumY] at left right ⊢
  rw [div_eq_div_iff left right]
  generalize c.d = d at *
  generalize hp : 1 + d * x₁ * x₂ * y₁ * y₂ = p at *
  generalize hm : 1 - d * x₁ * x₂ * y₁ * y₂ = m at *
  generalize hp' : 1 + d * x₂ * x₃ * y₂ * y₃ = p' at *
  generalize hm' : 1 - d * x₂ * x₃ * y₂ * y₃ = m' at *
  field_simp
  subst hp hm hp' hm'
  linear_combination
      (-d ^ 2 * x₁ * x₂ ^ 4 * y₂ ^ 3 * x₃ ^ 2 * y₃ - d ^ 2 * x₁ * x₂ ^ 3 * y₂ ^ 4 * x₃ * y₃ ^ 2
        + d ^ 2 * y₁ * x₂ ^ 4 * y₂ ^ 3 * x₃ * y₃ ^ 2 + d ^ 2 * y₁ * x₂ ^ 3 * y₂ ^ 4 * x₃ ^ 2 * y₃
        - d * x₁ * x₂ ^ 4 * y₂ * x₃ ^ 2 * y₃ - d * x₁ * x₂ ^ 3 * y₂ ^ 2 * x₃ ^ 3
        + d * x₁ * x₂ ^ 2 * y₂ ^ 3 * y₃ ^ 3 + d * x₁ * x₂ * y₂ ^ 4 * x₃ * y₃ ^ 2
        + d * y₁ * x₂ ^ 4 * y₂ * x₃ * y₃ ^ 2 + d * y₁ * x₂ ^ 3 * y₂ ^ 2 * y₃ ^ 3
        - d * y₁ * x₂ ^ 2 * y₂ ^ 3 * x₃ ^ 3 - d * y₁ * x₂ * y₂ ^ 4 * x₃ ^ 2 * y₃
        - d * x₁ * x₂ ^ 3 * y₂ ^ 2 * x₃ - d * x₁ * x₂ ^ 2 * y₂ ^ 3 * y₃
        - d * y₁ * x₂ ^ 3 * y₂ ^ 2 * y₃ - d * y₁ * x₂ ^ 2 * y₂ ^ 3 * x₃) * h₁ +
      (d ^ 2 * x₁ ^ 2 * y₁ * x₂ ^ 2 * y₂ * x₃ ^ 3 * y₃ ^ 2
        - d ^ 2 * x₁ ^ 2 * y₁ * x₂ * y₂ ^ 2 * x₃ ^ 2 * y₃ ^ 3
        - d ^ 2 * x₁ * y₁ ^ 2 * x₂ ^ 2 * y₂ * x₃ ^ 2 * y₃ ^ 3
        + d ^ 2 * x₁ * y₁ ^ 2 * x₂ * y₂ ^ 2 * x₃ ^ 3 * y₃ ^ 2
        + d * x₁ ^ 3 * x₂ ^ 2 * y₂ * x₃ ^ 2 * y₃ + d * x₁ ^ 3 * x₂ * y₂ ^ 2 * x₃ * y₃ ^ 2
        + d * x₁ ^ 3 * x₂ * x₃ ^ 3 * y₃ ^ 2 + d * x₁ ^ 3 * y₂ * x₃ ^ 2 * y₃ ^ 3
        - d * x₁ ^ 2 * y₁ * x₂ ^ 2 * y₂ * x₃ * y₃ ^ 2
        - d * x₁ ^ 2 * y₁ * x₂ * y₂ ^ 2 * x₃ ^ 2 * y₃ + d * x₁ ^ 2 * y₁ * x₂ * x₃ ^ 2 * y₃ ^ 3
        + d * x₁ ^ 2 * y₁ * y₂ * x₃ ^ 3 * y₃ ^ 2 - d * x₁ * y₁ ^ 2 * x₂ ^ 2 * y₂ * x₃ ^ 2 * y₃
        - d * x₁ * y₁ ^ 2 * x₂ * y₂ ^ 2 * x₃ * y₃ ^ 2 - d * x₁ * y₁ ^ 2 * x₂ * x₃ ^ 3 * y₃ ^ 2
        - d * x₁ * y₁ ^ 2 * y₂ * x₃ ^ 2 * y₃ ^ 3 + d * y₁ ^ 3 * x₂ ^ 2 * y₂ * x₃ * y₃ ^ 2
        + d * y₁ ^ 3 * x₂ * y₂ ^ 2 * x₃ ^ 2 * y₃ - d * y₁ ^ 3 * x₂ * x₃ ^ 2 * y₃ ^ 3
        - d * y₁ ^ 3 * y₂ * x₃ ^ 3 * y₃ ^ 2 + d * x₁ * x₂ ^ 2 * y₂ * x₃ ^ 2 * y₃
        + d * x₁ * x₂ * y₂ ^ 2 * x₃ * y₃ ^ 2 + d * x₁ * x₂ * x₃ ^ 3 * y₃ ^ 2
        + d * x₁ * y₂ * x₃ ^ 2 * y₃ ^ 3 - d * y₁ * x₂ ^ 2 * y₂ * x₃ * y₃ ^ 2
        - d * y₁ * x₂ * y₂ ^ 2 * x₃ ^ 2 * y₃ + d * y₁ * x₂ * x₃ ^ 2 * y₃ ^ 3
        + d * y₁ * y₂ * x₃ ^ 3 * y₃ ^ 2 + x₁ ^ 3 * x₂ * x₃ ^ 3 - x₁ ^ 3 * x₂ * x₃ * y₃ ^ 2
        + x₁ ^ 3 * y₂ * x₃ ^ 2 * y₃ - x₁ ^ 3 * y₂ * y₃ ^ 3 + x₁ ^ 2 * y₁ * x₂ * x₃ ^ 2 * y₃
        - x₁ ^ 2 * y₁ * x₂ * y₃ ^ 3 + x₁ ^ 2 * y₁ * y₂ * x₃ ^ 3 - x₁ ^ 2 * y₁ * y₂ * x₃ * y₃ ^ 2
        - x₁ * y₁ ^ 2 * x₂ * x₃ ^ 3 + x₁ * y₁ ^ 2 * x₂ * x₃ * y₃ ^ 2
        - x₁ * y₁ ^ 2 * y₂ * x₃ ^ 2 * y₃ + x₁ * y₁ ^ 2 * y₂ * y₃ ^ 3 - y₁ ^ 3 * x₂ * x₃ ^ 2 * y₃
        + y₁ ^ 3 * x₂ * y₃ ^ 3 - y₁ ^ 3 * y₂ * x₃ ^ 3 + y₁ ^ 3 * y₂ * x₃ * y₃ ^ 2
        + x₁ ^ 3 * x₂ * x₃ + x₁ ^ 3 * y₂ * y₃ + x₁ ^ 2 * y₁ * x₂ * y₃ + x₁ ^ 2 * y₁ * y₂ * x₃
        - x₁ * y₁ ^ 2 * x₂ * x₃ - x₁ * y₁ ^ 2 * y₂ * y₃ + x₁ * x₂ * x₃ ^ 3 - x₁ * x₂ * x₃ * y₃ ^ 2
        + x₁ * y₂ * x₃ ^ 2 * y₃ - x₁ * y₂ * y₃ ^ 3 - y₁ ^ 3 * x₂ * y₃ - y₁ ^ 3 * y₂ * x₃
        + y₁ * x₂ * x₃ ^ 2 * y₃ - y₁ * x₂ * y₃ ^ 3 + y₁ * y₂ * x₃ ^ 3 - y₁ * y₂ * x₃ * y₃ ^ 2
        + x₁ * x₂ * x₃ + x₁ * y₂ * y₃ + y₁ * x₂ * y₃ + y₁ * y₂ * x₃) * h₂ +
      (-d * x₁ ^ 2 * y₁ * x₂ ^ 2 * y₂ * x₃ + d * x₁ ^ 2 * y₁ * x₂ * y₂ ^ 2 * y₃
        + d * x₁ * y₁ ^ 2 * x₂ ^ 2 * y₂ * y₃ - d * x₁ * y₁ ^ 2 * x₂ * y₂ ^ 2 * x₃
        - x₁ ^ 3 * x₂ ^ 3 * x₃ - x₁ ^ 3 * x₂ ^ 2 * y₂ * y₃ + x₁ ^ 3 * x₂ * y₂ ^ 2 * x₃
        + x₁ ^ 3 * y₂ ^ 3 * y₃ - x₁ ^ 2 * y₁ * x₂ ^ 3 * y₃ - x₁ ^ 2 * y₁ * x₂ ^ 2 * y₂ * x₃
        + x₁ ^ 2 * y₁ * x₂ * y₂ ^ 2 * y₃ + x₁ ^ 2 * y₁ * y₂ ^ 3 * x₃ + x₁ * y₁ ^ 2 * x₂ ^ 3 * x₃
        + x₁ * y₁ ^ 2 * x₂ ^ 2 * y₂ * y₃ - x₁ * y₁ ^ 2 * x₂ * y₂ ^ 2 * x₃
        - x₁ * y₁ ^ 2 * y₂ ^ 3 * y₃ + y₁ ^ 3 * x₂ ^ 3 * y₃ + y₁ ^ 3 * x₂ ^ 2 * y₂ * x₃
        - y₁ ^ 3 * x₂ * y₂ ^ 2 * y₃ - y₁ ^ 3 * y₂ ^ 3 * x₃ - x₁ ^ 3 * x₂ * x₃ - x₁ ^ 3 * y₂ * y₃
        - x₁ ^ 2 * y₁ * x₂ * y₃ - x₁ ^ 2 * y₁ * y₂ * x₃ + x₁ * y₁ ^ 2 * x₂ * x₃
        + x₁ * y₁ ^ 2 * y₂ * y₃ - x₁ * x₂ ^ 3 * x₃ - x₁ * x₂ ^ 2 * y₂ * y₃ + x₁ * x₂ * y₂ ^ 2 * x₃
        + x₁ * y₂ ^ 3 * y₃ + y₁ ^ 3 * x₂ * y₃ + y₁ ^ 3 * y₂ * x₃ - y₁ * x₂ ^ 3 * y₃
        - y₁ * x₂ ^ 2 * y₂ * x₃ + y₁ * x₂ * y₂ ^ 2 * y₃ + y₁ * y₂ ^ 3 * x₃ - x₁ * x₂ * x₃
        - x₁ * y₂ * y₃ - y₁ * x₂ * y₃ - y₁ * y₂ * x₃) * h₃

end Complete

/-! ## The group -/

namespace Point

instance : Zero (Point c) where
  zero :=
    { x := 0
      y := 1
      on := by
        rw [Curve.On]
        ring }

instance : Add (Point c) where
  add P Q :=
    { x := c.sumX P.x P.y Q.x Q.y
      y := c.sumY P.x P.y Q.x Q.y
      on := c.on_sum P.on Q.on }

instance : Neg (Point c) where
  neg P :=
    { x := -P.x
      y := P.y
      on := by
        have on := P.on
        rw [Curve.On] at on ⊢
        linear_combination on }

@[simp] theorem zero_x : (0 : Point c).x = 0 := rfl

@[simp] theorem zero_y : (0 : Point c).y = 1 := rfl

theorem add_x (P Q : Point c) :
    (P + Q).x = (P.x * Q.y + P.y * Q.x) / (1 + c.d * P.x * Q.x * P.y * Q.y) := rfl

theorem add_y (P Q : Point c) :
    (P + Q).y = (P.y * Q.y + P.x * Q.x) / (1 - c.d * P.x * Q.x * P.y * Q.y) := rfl

@[simp] theorem neg_x (P : Point c) : (-P).x = -P.x := rfl

@[simp] theorem neg_y (P : Point c) : (-P).y = P.y := rfl

theorem plus_ne_zero (P Q : Point c) : 1 + c.d * P.x * Q.x * P.y * Q.y ≠ 0 :=
  c.plus_ne_zero P.on Q.on

theorem minus_ne_zero (P Q : Point c) : 1 - c.d * P.x * Q.x * P.y * Q.y ≠ 0 :=
  c.minus_ne_zero P.on Q.on

/-- The point and `(i, 0)` added. -/
def turn (P : Point c) : Point c where
  x := c.i * P.y
  y := c.i * P.x
  on := by
    have on := P.on
    have i_sq := c.i_sq
    rw [Curve.On] at on ⊢
    linear_combination on + (P.x ^ 2 - P.y ^ 2 -
      c.d * P.x ^ 2 * P.y ^ 2 * (c.i * c.i - 1)) * i_sq

theorem add_turn (P Q : Point c) : P + Q.turn = (P + Q).turn := by
  have i_sq := c.i_sq
  have plus : 1 + c.d * P.x * (c.i * Q.y) * P.y * (c.i * Q.x) =
      1 - c.d * P.x * Q.x * P.y * Q.y := by
    linear_combination c.d * P.x * Q.x * P.y * Q.y * i_sq
  have minus : 1 - c.d * P.x * (c.i * Q.y) * P.y * (c.i * Q.x) =
      1 + c.d * P.x * Q.x * P.y * Q.y := by
    linear_combination -c.d * P.x * Q.x * P.y * Q.y * i_sq
  refine Point.ext ?_ ?_
  · calc (P + Q.turn).x
        = (P.x * (c.i * Q.x) + P.y * (c.i * Q.y)) /
            (1 + c.d * P.x * (c.i * Q.y) * P.y * (c.i * Q.x)) := rfl
      _ = c.i * (P + Q).y := by
          rw [plus, add_y, mul_div_assoc']
          ring
  · calc (P + Q.turn).y
        = (P.y * (c.i * Q.x) + P.x * (c.i * Q.y)) /
            (1 - c.d * P.x * (c.i * Q.y) * P.y * (c.i * Q.x)) := rfl
      _ = c.i * (P + Q).x := by
          rw [minus, add_x, mul_div_assoc']
          ring

theorem add_comm (P Q : Point c) : P + Q = Q + P := by
  refine Point.ext ?_ ?_
  · have below : 1 + c.d * P.x * Q.x * P.y * Q.y = 1 + c.d * Q.x * P.x * Q.y * P.y := by ring
    rw [add_x, add_x, below]
    ring
  · have below : 1 - c.d * P.x * Q.x * P.y * Q.y = 1 - c.d * Q.x * P.x * Q.y * P.y := by ring
    rw [add_y, add_y, below]
    ring

theorem zero_add (P : Point c) : 0 + P = P := by
  refine Point.ext ?_ ?_
  · rw [add_x]
    simp
  · rw [add_y]
    simp

theorem neg_add_cancel (P : Point c) : -P + P = 0 := by
  have on := P.on
  have below := minus_ne_zero (-P) P
  rw [Curve.On] at on
  refine Point.ext ?_ ?_
  · rw [add_x, neg_x, neg_y, zero_x, div_eq_zero_iff]
    left
    ring
  · rw [add_y, zero_y, div_eq_one_iff_eq below, neg_x, neg_y]
    linear_combination on

theorem add_assoc (P Q R : Point c) : P + Q + R = P + (Q + R) := by
  have first : ∀ R : Point c, (P + Q + R).x = (P + (Q + R)).x := fun R =>
    c.sumX_assoc P.on Q.on R.on
  refine Point.ext (first R) ?_
  -- the second coordinate is the first one after a turn
  have turned : c.i * (P + Q + R).y = c.i * (P + (Q + R)).y := by
    have same := first R.turn
    rw [add_turn, add_turn, add_turn] at same
    exact same
  have nonzero : c.i ≠ 0 := by
    intro zero
    have i_sq := c.i_sq
    rw [zero, zero_mul] at i_sq
    have one : (1 : F) = 0 := by linear_combination i_sq
    exact one_ne_zero one
  exact mul_left_cancel₀ nonzero turned

instance instAddCommGroup : AddCommGroup (Point c) where
  add_assoc := add_assoc
  zero_add := zero_add
  add_zero P := (add_comm P 0).trans (zero_add P)
  neg_add_cancel := neg_add_cancel
  add_comm := add_comm
  nsmul := nsmulRec
  zsmul := zsmulRec

/-! ## Small order -/

theorem double_x_eq_zero_iff (P : Point c) : (P + P).x = 0 ↔ P.x = 0 ∨ P.y = 0 := by
  have product : P.x * P.y + P.y * P.x = 2 * (P.x * P.y) := by ring
  rw [add_x, div_eq_zero_iff, or_iff_left (plus_ne_zero P P), product, mul_eq_zero,
    or_iff_right c.two, mul_eq_zero]

theorem double_y_eq_zero_iff (P : Point c) : (P + P).y = 0 ↔ P.y ^ 2 + P.x ^ 2 = 0 := by
  have squares : P.y * P.y + P.x * P.x = P.y ^ 2 + P.x ^ 2 := by ring
  rw [add_y, div_eq_zero_iff, or_iff_left (minus_ne_zero P P), squares]

/-- The points of order one and two have no first coordinate. -/
theorem double_eq_zero_iff (P : Point c) : P + P = 0 ↔ P.x = 0 := by
  have on := P.on
  have two := c.two
  rw [Curve.On] at on
  constructor
  · intro zero
    have second : (P + P).y = 1 := congrArg Point.y zero
    rw [add_y, div_eq_one_iff_eq (minus_ne_zero P P)] at second
    rcases (double_x_eq_zero_iff P).mp (congrArg Point.x zero) with x_zero | y_zero
    · exact x_zero
    · refine absurd ?_ two
      rw [y_zero] at on second
      linear_combination -on - second
  · intro x_zero
    refine Point.ext ((double_x_eq_zero_iff P).mpr (.inl x_zero)) ?_
    rw [add_y, zero_y, div_eq_one_iff_eq (minus_ne_zero P P), x_zero]
    rw [x_zero] at on
    linear_combination on

/-- The points whose order divides eight. -/
theorem eight_nsmul_eq_zero_iff (P : Point c) :
    8 • P = 0 ↔ P.x = 0 ∨ P.y = 0 ∨ P.y ^ 2 + P.x ^ 2 = 0 := by
  have eight : 8 • P = (P + P + (P + P)) + (P + P + (P + P)) := by
    rw [← two_nsmul, ← two_nsmul, ← two_nsmul, ← mul_nsmul, ← mul_nsmul]
  rw [eight, double_eq_zero_iff, double_x_eq_zero_iff, double_x_eq_zero_iff, double_y_eq_zero_iff,
    or_assoc]

end Point

/-! ## Extended coordinates -/

/-- Coordinates with a common denominator and the product of both. -/
structure Extended (F : Type) where
  x : F
  y : F
  z : F
  t : F

/-- The point that coordinates stand for. -/
structure Extended.Of (e : Extended F) (P : Point c) : Prop where
  z_ne_zero : e.z ≠ 0
  x : e.x = P.x * e.z
  y : e.y = P.y * e.z
  t : e.t = P.x * P.y * e.z

/-- The unified addition. -/
def Extended.add (c : Curve F) (a b : Extended F) : Extended F :=
  let e := (a.y + a.x) * (b.y + b.x) - (a.y - a.x) * (b.y - b.x)
  let f := 2 * a.z * b.z - 2 * c.d * a.t * b.t
  let g := 2 * a.z * b.z + 2 * c.d * a.t * b.t
  let h := (a.y + a.x) * (b.y + b.x) + (a.y - a.x) * (b.y - b.x)
  ⟨e * f, g * h, f * g, e * h⟩

/-- The doubling. -/
def Extended.double (a : Extended F) : Extended F :=
  let h := a.x * a.x + a.y * a.y
  let e := h - (a.x + a.y) * (a.x + a.y)
  let g := a.x * a.x - a.y * a.y
  let f := 2 * a.z * a.z + g
  ⟨e * f, g * h, f * g, e * h⟩

namespace Extended

/-- Coordinates of a sum from a factor of each of its two fractions. -/
theorem of_factor {P Q : Point c} {k k' e f g h : F} (nonzero : k ≠ 0) (nonzero' : k' ≠ 0)
    (he : e = k * (P.x * Q.y + P.y * Q.x)) (hf : f = k' * (1 - c.d * P.x * Q.x * P.y * Q.y))
    (hg : g = k * (1 + c.d * P.x * Q.x * P.y * Q.y)) (hh : h = k' * (P.y * Q.y + P.x * Q.x)) :
    Of ⟨e * f, g * h, f * g, e * h⟩ (P + Q) := by
  have plus := Point.plus_ne_zero P Q
  have minus := Point.minus_ne_zero P Q
  have x : e = (P + Q).x * g := by
    rw [he, hg, Point.add_x]
    generalize 1 + c.d * P.x * Q.x * P.y * Q.y = m at *
    field_simp
  have y : h = (P + Q).y * f := by
    rw [hh, hf, Point.add_y]
    generalize 1 - c.d * P.x * Q.x * P.y * Q.y = m at *
    field_simp
  have below : f * g ≠ 0 := by
    rw [hf, hg]
    exact mul_ne_zero (mul_ne_zero nonzero' minus) (mul_ne_zero nonzero plus)
  refine ⟨below, ?_, ?_, ?_⟩
  · linear_combination f * x
  · linear_combination g * y
  · linear_combination h * x + (P + Q).x * g * y

theorem add_of {P Q : Point c} {a b : Extended F} (ha : a.Of P) (hb : b.Of Q) :
    (add c a b).Of (P + Q) := by
  have nonzero : 2 * a.z * b.z ≠ 0 := mul_ne_zero (mul_ne_zero c.two ha.z_ne_zero) hb.z_ne_zero
  refine of_factor nonzero nonzero ?_ ?_ ?_ ?_
  · rw [ha.x, ha.y, hb.x, hb.y]
    ring
  · rw [ha.t, hb.t]
    ring
  · rw [ha.t, hb.t]
    ring
  · rw [ha.x, ha.y, hb.x, hb.y]
    ring

theorem double_of {P : Point c} {a : Extended F} (ha : a.Of P) : (double a).Of (P + P) := by
  have on := P.on
  have nonzero : a.z * a.z ≠ 0 := mul_ne_zero ha.z_ne_zero ha.z_ne_zero
  rw [Curve.On] at on
  refine of_factor (neg_ne_zero.mpr nonzero) nonzero ?_ ?_ ?_ ?_
  · rw [ha.x, ha.y]
    ring
  · rw [ha.x, ha.y]
    linear_combination -(a.z * a.z) * on
  · rw [ha.x, ha.y]
    linear_combination -(a.z * a.z) * on
  · rw [ha.x, ha.y]
    ring

theorem zero_of : Of (⟨0, 1, 1, 0⟩ : Extended F) (0 : Point c) where
  z_ne_zero := one_ne_zero
  x := (zero_mul 1).symm
  y := (mul_one 1).symm
  t := by simp

/-- Coordinates stand for the neutral point when the first is zero and the second is the
denominator. -/
theorem eq_zero_iff {P : Point c} {a : Extended F} (ha : a.Of P) : P = 0 ↔ a.x = 0 ∧ a.y = a.z := by
  rw [ha.x, ha.y, mul_eq_zero, or_iff_left ha.z_ne_zero, mul_eq_right₀ ha.z_ne_zero]
  constructor
  · intro zero
    rw [zero]
    exact ⟨rfl, rfl⟩
  · rintro ⟨x, y⟩
    exact Point.ext x y

end Extended

end Wire.Edwards
