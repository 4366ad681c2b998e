import BoundedAuthority.Wire.Binary64
import Mathlib.Algebra.Order.Field.Rat
import Mathlib.Tactic.FieldSimp

/-!
# Values of doubles

A finite double is a rational number.  Its magnitude is counted in units of the smallest
one, so the order of the values is the order of the signed counts.  Rounding keeps to a
bound that is a double itself.
-/

namespace Wire

/-- Rounding does not pass a double. -/
theorem roundUnits_le_double {num den x : Nat} (double : quantum x ∣ x) (pos : 0 < den)
    (le : num ≤ x * den) : roundUnits num den ≤ x := by
  have floor : num / den ≤ x := Nat.div_le_of_le_mul (Nat.mul_comm x den ▸ le)
  obtain ⟨n, multiple⟩ := Nat.dvd_trans (quantum_mono floor) double
  have step : 0 < den * quantum (num / den) := Nat.mul_pos pos (quantum_pos _)
  have low : num ≤ n * (den * quantum (num / den)) := by
    calc num ≤ x * den := le
      _ = quantum (num / den) * n * den := by rw [← multiple]
      _ = n * (den * quantum (num / den)) := by ring
  have nearest : halfEven num (den * quantum (num / den)) ≤ n := by
    rcases Nat.lt_or_eq_of_le low with below | exact
    · have quotient := (Nat.div_lt_iff_lt_mul step).mpr below
      exact Nat.le_trans (halfEven_bounds _ _).2 quotient
    · exact Nat.le_of_eq ((congrArg (halfEven · _) exact).trans (halfEven_mul n step))
  calc roundUnits num den = halfEven num (den * quantum (num / den)) * quantum (num / den) := rfl
    _ ≤ n * quantum (num / den) := Nat.mul_le_mul_right _ nearest
    _ = x := by rw [Nat.mul_comm, ← multiple]

namespace F64

/-- The value in units of the smallest magnitude. -/
def signed (x : F64) : Int := if x.negative then -(x.units : Int) else x.units

/-- The value. -/
def value (x : F64) : ℚ := x.signed / unit

theorem unit_pos_rat : (0 : ℚ) < unit := Nat.cast_pos.mpr unit_pos

theorem value_le_value {x y : F64} : x.value ≤ y.value ↔ x.signed ≤ y.signed := by
  rw [value, value, div_le_div_iff_of_pos_right unit_pos_rat, Int.cast_le]

/-- A value is an integer when the signed count is that many whole units. -/
theorem value_eq_intCast {x : F64} {n : Int} : x.value = n ↔ x.signed = n * unit := by
  rw [value, div_eq_iff unit_pos_rat.ne']
  exact_mod_cast Iff.rfl

/-- A decimal that does not exceed a natural number below `2^53` does not do so when it
is rounded. -/
theorem magnitudeAtMost_of_decimal {negative : Bool} {m max : Nat} {e : Int} {x : F64}
    (small : max < 2 ^ 53) (h : Decimal.AtMost m e max)
    (rounded : ofDecimal negative m e = some x) :
    x.magnitudeAtMost max = true := by
  simp only [ofDecimal] at rounded
  split at rounded
  next =>
    obtain rfl := Option.some.inj rounded
    refine decide_eq_true (roundUnits_le_double (quantum_dvd_natural small) (by positivity) ?_)
    calc m * 10 ^ e.toNat * unit ≤ max * 10 ^ (-e).toNat * unit := Nat.mul_le_mul_right _ h
      _ = max * unit * 10 ^ (-e).toNat := by ring
  next => cases rounded

end F64

end Wire
