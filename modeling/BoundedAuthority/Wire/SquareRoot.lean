import Mathlib.FieldTheory.Finite.Basic
import Mathlib.NumberTheory.LegendreSymbol.Basic
import Mathlib.Tactic.LinearCombination

/-!
# Square roots by one power

Modulo a prime that leaves five by eight, a power of a square is a root of it or of its
opposite, and a power of any other residue is neither.  The first root is a power of the
residue, the second one of a fraction that is never formed.
-/

namespace Wire

variable {p : Nat} [Fact p.Prime]

/-- The quarter power tells the squares. -/
theorem isSquare_iff_quarter (five : p % 8 = 5) (a : ZMod p) :
    IsSquare a ↔ a * a ^ ((p - 1) / 4) = a ∨ a * a ^ ((p - 1) / 4) = -a := by
  by_cases zero : a = 0
  · rw [zero, zero_mul]
    exact iff_of_true IsSquare.zero (.inl rfl)
  · have half : p / 2 = (p - 1) / 4 + (p - 1) / 4 := by omega
    rw [ZMod.euler_criterion p zero, half, pow_add, mul_self_eq_one_iff, mul_eq_left₀ zero,
      ← mul_neg_one a, mul_right_inj' zero]

/-- The root of a residue. -/
theorem isSquare_iff_power (five : p % 8 = 5) {a c : ZMod p} (root : c = a ^ ((p + 3) / 8)) :
    IsSquare a ↔ c ^ 2 = a ∨ c ^ 2 = -a := by
  have square : c ^ 2 = a * a ^ ((p - 1) / 4) := by
    have exponent : (p + 3) / 8 * 2 = (p - 1) / 4 + 1 := by omega
    rw [root, ← pow_mul, exponent, pow_succ']
  rw [isSquare_iff_quarter five, square]

/-- The root of the fraction `u / w`. -/
theorem exists_root_iff_power (five : p % 8 = 5) {u w c : ZMod p} (nonzero : w ≠ 0)
    (root : c = u * w ^ 3 * (u * w ^ 7) ^ ((p - 5) / 8)) :
    (∃ x, w * x ^ 2 = u) ↔ w * c ^ 2 = u ∨ w * c ^ 2 = -u := by
  have below : w ^ 7 ≠ 0 := pow_ne_zero 7 nonzero
  have square : w * c ^ 2 = u * (u * w ^ 7) ^ ((p - 1) / 4) := by
    have exponent : (p - 1) / 4 = (p - 5) / 8 * 2 + 1 := by omega
    rw [root, exponent, pow_succ (u * w ^ 7) ((p - 5) / 8 * 2), pow_mul (u * w ^ 7)]
    ring
  have squares : (∃ x, w * x ^ 2 = u) ↔ IsSquare (u * w ^ 7) := by
    constructor
    · rintro ⟨x, hx⟩
      refine ⟨w ^ 4 * x, ?_⟩
      linear_combination -w ^ 7 * hx
    · rintro ⟨r, hr⟩
      refine ⟨r / w ^ 4, ?_⟩
      rw [div_pow, mul_div_assoc', div_eq_iff (pow_ne_zero 2 (pow_ne_zero 4 nonzero))]
      linear_combination -w * hr
  rw [squares, isSquare_iff_quarter five, square]
  constructor
  · intro power
    cases power with
    | inl same =>
      left
      exact mul_right_cancel₀ below (by linear_combination same)
    | inr opposite =>
      right
      exact mul_right_cancel₀ below (by linear_combination opposite)
  · intro power
    cases power with
    | inl same =>
      left
      linear_combination w ^ 7 * same
    | inr opposite =>
      right
      linear_combination w ^ 7 * opposite

end Wire
