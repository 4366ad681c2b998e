import BoundedAuthority.V1.Ed25519
import BoundedAuthority.Wire.Edwards
import BoundedAuthority.Wire.Primality
import BoundedAuthority.Wire.SquareRoot

/-!
# The field of the curve

The residues modulo `p` are a field in which `sqrtM1` is a root of `-1` and `d` has none, so
the curve is complete.  The integer arithmetic of the code computes in it: `field` picks the
representative below `p`, and the chain of `powP58` is one power.
-/

namespace BoundedAuthority.V1.Ed25519

open Wire

/-! ## The prime -/

/-- The modulus as a natural number. -/
def modulus : Nat := 2 ^ 255 - 19

theorem p_eq : p = (modulus : Int) := by
  decide

/-- The primes that certify `p`. -/
def rungs : List Rung :=
  [⟨59, 2, [2, 29]⟩, ⟨83, 2, [2, 41]⟩, ⟨97, 5, [2, 2, 2, 2, 2, 3]⟩, ⟨103, 5, [2, 3, 17]⟩,
    ⟨53, 2, [2, 2, 13]⟩, ⟨107, 2, [2, 53]⟩, ⟨127, 3, [2, 3, 3, 7]⟩, ⟨131, 2, [2, 5, 13]⟩,
    ⟨173, 2, [2, 2, 43]⟩, ⟨223, 3, [2, 3, 37]⟩, ⟨353, 3, [2, 2, 2, 2, 2, 11]⟩,
    ⟨419, 2, [2, 11, 19]⟩, ⟨239, 7, [2, 7, 17]⟩, ⟨479, 13, [2, 239]⟩, ⟨487, 3, [2, 3, 3, 3, 3, 3]⟩,
    ⟨991, 6, [2, 3, 3, 5, 11]⟩,
    ⟨32573, 2, [2, 2, 17, 479]⟩,
    ⟨65147, 2, [2, 32573]⟩,
    ⟨57467, 2, [2, 59, 487]⟩,
    ⟨132049, 26, [2, 2, 2, 2, 3, 3, 7, 131]⟩,
    ⟨3727, 3, [2, 3, 3, 3, 3, 23]⟩,
    ⟨1923133, 2, [2, 2, 3, 43, 3727]⟩,
    ⟨4153, 5, [2, 2, 2, 3, 173]⟩,
    ⟨1723, 3, [2, 3, 7, 41]⟩,
    ⟨430751, 17, [2, 5, 5, 5, 1723]⟩,
    ⟨31757755568855353, 10, [2, 2, 2, 3, 31, 107, 223, 4153, 430751]⟩,
    ⟨9463, 3, [2, 3, 19, 83]⟩,
    ⟨37853, 2, [2, 2, 9463]⟩,
    ⟨75707, 2, [2, 37853]⟩,
    ⟨2437, 2, [2, 2, 3, 7, 29]⟩,
    ⟨569003, 2, [2, 7, 97, 419]⟩,
    ⟨2773320623, 5, [2, 2437, 569003]⟩,
    ⟨72106336199, 7, [2, 13, 2773320623]⟩,
    ⟨8574133, 2, [2, 2, 3, 7, 103, 991]⟩,
    ⟨1919519569386763, 2, [2, 3, 7, 19, 47, 47, 127, 8574133]⟩,
    ⟨75445702479781427272750846543864801, 7, [2, 2, 2, 2, 2, 3, 3, 5, 5, 75707, 72106336199,
      1919519569386763]⟩,
    ⟨74058212732561358302231226437062788676166966415465897661863160754340907, 2, [2, 3, 353, 57467,
      132049, 1923133, 31757755568855353, 75445702479781427272750846543864801]⟩]

theorem prime_modulus : modulus.Prime :=
  prime_of_top rungs ⟨modulus, 2, [2, 2, 3, 65147,
    74058212732561358302231226437062788676166966415465897661863160754340907]⟩ (by decide)

instance : Fact modulus.Prime := ⟨prime_modulus⟩

/-! ## Residues -/

/-- The field of the curve. -/
abbrev Residue : Type := ZMod modulus

theorem cast_p : ((p : Int) : Residue) = 0 := by
  rw [p_eq, Int.cast_natCast, ZMod.natCast_self]

theorem field_eq (value : Int) : field value = value % p := by
  have positive : 0 < p := by decide
  have low := Int.emod_nonneg value positive.ne'
  have high := Int.emod_lt_of_pos value positive
  simp only [field]
  rw [Int.tmod_eq_emod]
  by_cases whole : 0 ≤ value ∨ p ∣ value
  · rw [if_pos whole, Int.natCast_zero, sub_zero, if_neg (by omega)]
  · rw [if_neg whole, Int.natAbs_of_nonneg positive.le, if_pos (by omega), sub_add_cancel]

/-- The representative below the prime. -/
theorem field_eq_val (value : Int) : field value = ((value : Residue).val : Int) := by
  rw [field_eq, p_eq, ZMod.val_intCast]

@[simp] theorem cast_field (value : Int) : ((field value : Int) : Residue) = value := by
  rw [field_eq_val, Int.cast_natCast, ZMod.natCast_zmod_val]

theorem field_eq_iff {a b : Int} : field a = field b ↔ (a : Residue) = b := by
  rw [field_eq_val, field_eq_val, Int.natCast_inj, ZMod.val_injective modulus |>.eq_iff]

theorem field_eq_zero_iff {a : Int} : field a = 0 ↔ (a : Residue) = 0 := by
  rw [field_eq_val, Int.natCast_eq_zero, ZMod.val_eq_zero]

theorem cast_square (value : Int) (count : Nat) :
    ((square value count : Int) : Residue) = (value : Residue) ^ 2 ^ count := by
  induction count generalizing value with
  | zero => rw [square, pow_zero, pow_one]
  | succ count ih =>
    rw [square, ih, cast_field, Int.cast_mul, ← pow_two, ← pow_mul, ← pow_succ']

/-- A step of the chain: squarings and one product. -/
theorem cast_step {a : Residue} {x y : Int} {m n : Nat} (hx : (x : Residue) = a ^ m)
    (hy : (y : Residue) = a ^ n) (count : Nat) :
    ((field (square x count * y) : Int) : Residue) = a ^ (m * 2 ^ count + n) := by
  rw [cast_field, Int.cast_mul, cast_square, hx, hy, ← pow_mul, ← pow_add]

/-- The addition chain reaches the exponent. -/
theorem cast_powP58 (z : Int) :
    ((powP58 z : Int) : Residue) = (z : Residue) ^ ((modulus - 5) / 8) := by
  have h_1 : (z : Residue) = (z : Residue) ^ 1 := (pow_one _).symm
  have h_2 := cast_step h_1 h_1 0
  have h_9 := cast_step h_2 h_1 2
  have h_11 := cast_step h_9 h_2 0
  have h_22 := cast_step h_11 h_11 0
  have h_5_0 := cast_step h_22 h_9 0
  have h_10_0 := cast_step h_5_0 h_5_0 5
  have h_20_0 := cast_step h_10_0 h_10_0 10
  have h_40_0 := cast_step h_20_0 h_20_0 20
  have h_50_0 := cast_step h_40_0 h_10_0 10
  have h_100_0 := cast_step h_50_0 h_50_0 50
  have h_200_0 := cast_step h_100_0 h_100_0 100
  have h_250_0 := cast_step h_200_0 h_50_0 50
  have last := cast_step h_250_0 h_1 2
  refine last.trans (congrArg (HPow.hPow (z : Residue)) ?_)
  decide

end BoundedAuthority.V1.Ed25519
