import BoundedAuthority.V1.Ed25519Curve
import Mathlib.GroupTheory.OrderOfElement

/-!
# Torsion-free keys

`lib/bounded_authority_protocol/ed25519.ex`, the point arithmetic behind `torsion_free?/1`.
The extended coordinates stand for points of the curve, `add` and `double` for the group law
without exceptions, and the loop of `multiply` for the multiples of a point.
-/

namespace BoundedAuthority.V1.Ed25519

open Wire

/-! ## The arithmetic -/

/-- `add/2` -/
def add (a b : Point) : Point :=
  let y_minus_x := field ((a.y - a.x) * (b.y - b.x))
  let y_plus_x := field ((a.y + a.x) * (b.y + b.x))
  let t_term := field (2 * d * a.t * b.t)
  let z_term := field (2 * a.z * b.z)
  let e := y_plus_x - y_minus_x
  let f := z_term - t_term
  let g := z_term + t_term
  let h := y_plus_x + y_minus_x
  ⟨field (e * f), field (g * h), field (f * g), field (e * h)⟩

/-- `double/1` -/
def double (point : Point) : Point :=
  let a := field (point.x * point.x)
  let b := field (point.y * point.y)
  let c := field (2 * point.z * point.z)
  let h := a + b
  let e := field (h - (point.x + point.y) * (point.x + point.y))
  let g := a - b
  let f := c + g
  ⟨field (e * f), field (g * h), field (f * g), field (e * h)⟩

/-- `multiply/3` -/
def multiplyFrom (scalar : Nat) (point acc : Point) : Point :=
  if scalar = 0 then acc
  else
    let acc := if scalar % 2 = 1 then add acc point else acc
    multiplyFrom (scalar / 2) (double point) acc
termination_by scalar
decreasing_by omega

/-- `multiply/2` -/
def multiply (scalar : Nat) (point : Point) : Point := multiplyFrom scalar point ⟨0, 1, 1, 0⟩

/-- `identity?/1` -/
def isIdentity (point : Point) : Bool := point.x = 0 && point.y = point.z

/-- `prime_order_point?/1` -/
def primeOrderPoint : Option Point → Bool
  | some point => isIdentity (multiply l.toNat point)
  | none => false

/-- `torsion_free?/1` -/
def torsionFree (publicKey : Bytes) : Bool :=
  if publicKey.length = 32 then
    canonical publicKey && !isSmallOrder publicKey && primeOrderPoint (decodePoint publicKey)
  else false

/-! ## The group law -/

/-- The coordinates as residues. -/
def Point.extended (point : Point) : Edwards.Extended Residue where
  x := point.x
  y := point.y
  z := point.z
  t := point.t

/-- The coordinates stand for a point of the curve. -/
abbrev Point.Of (point : Point) (P : CurvePoint) : Prop := point.extended.Of P

theorem extended_add (a b : Point) :
    (add a b).extended = Edwards.Extended.add curve a.extended b.extended := by
  have d_eq : curve.d = (d : Residue) := rfl
  simp only [Point.extended, add, Edwards.Extended.add, cast_field, Int.cast_mul, Int.cast_sub,
    Int.cast_add, Int.cast_ofNat, d_eq]

theorem extended_double (a : Point) :
    (double a).extended = Edwards.Extended.double a.extended := by
  simp only [Point.extended, double, Edwards.Extended.double, cast_field, Int.cast_mul,
    Int.cast_sub, Int.cast_add, Int.cast_ofNat]

/-- The formulas add any two points. -/
theorem add_of {a b : Point} {P Q : CurvePoint} (ha : a.Of P) (hb : b.Of Q) :
    (add a b).Of (P + Q) := by
  rw [Point.Of, extended_add]
  exact Edwards.Extended.add_of ha hb

/-- The formulas double any point. -/
theorem double_of {a : Point} {P : CurvePoint} (ha : a.Of P) : (double a).Of (P + P) := by
  rw [Point.Of, extended_double]
  exact Edwards.Extended.double_of ha

theorem zero_of : (⟨0, 1, 1, 0⟩ : Point).Of 0 := by
  have zero : (⟨0, 1, 1, 0⟩ : Point).extended = ⟨0, 1, 1, 0⟩ := by
    simp [Point.extended]
  rw [Point.Of, zero]
  exact Edwards.Extended.zero_of

theorem affine_of (P : CurvePoint) : (affine P).Of P := by
  have coordinates : (affine P).extended = ⟨P.x, P.y, 1, P.x * P.y⟩ := by
    simp [Point.extended, affine]
  rw [Point.Of, coordinates]
  exact ⟨one_ne_zero, (mul_one P.x).symm, (mul_one P.y).symm, (mul_one (P.x * P.y)).symm⟩

/-- The loop adds the remaining multiple to the sum so far. -/
theorem multiplyFrom_of (scalar : Nat) {point acc : Point} {P Q : CurvePoint} (hp : point.Of P)
    (hq : acc.Of Q) : (multiplyFrom scalar point acc).Of (Q + scalar • P) := by
  induction scalar using Nat.strong_induction_on generalizing point acc P Q with
  | _ scalar ih =>
    rw [multiplyFrom]
    split
    next zero =>
      rw [zero, zero_nsmul, add_zero]
      exact hq
    next positive =>
      have below : scalar / 2 < scalar := by omega
      have doubled := double_of hp
      rw [← two_nsmul] at doubled
      simp only
      split
      next odd =>
        have bits : scalar = 2 * (scalar / 2) + 1 := by omega
        have rest := ih _ below doubled (add_of hq hp)
        rw [← mul_nsmul, add_assoc] at rest
        have multiple : P + (2 * (scalar / 2)) • P = scalar • P := by
          rw [← succ_nsmul', ← bits]
        rw [multiple] at rest
        exact rest
      next even =>
        have bits : scalar = 2 * (scalar / 2) := by omega
        have rest := ih _ below doubled hq
        rw [← mul_nsmul, ← bits] at rest
        exact rest

/-- The loop computes the multiple. -/
theorem multiply_of (scalar : Nat) {point : Point} {P : CurvePoint} (hp : point.Of P) :
    (multiply scalar point).Of (scalar • P) := by
  have product := multiplyFrom_of scalar hp zero_of
  rw [zero_add] at product
  exact product

/-! ## The neutral point -/

/-- The coordinates that are compared are representatives below the prime. -/
structure Point.Reduced (point : Point) : Prop where
  x : field point.x = point.x
  y : field point.y = point.y
  z : field point.z = point.z

theorem field_field (value : Int) : field (field value) = field value := by
  rw [field_eq_iff, cast_field]

theorem add_reduced (a b : Point) : (add a b).Reduced where
  x := field_field _
  y := field_field _
  z := field_field _

theorem multiplyFrom_reduced (scalar : Nat) (point : Point) {acc : Point} (reduced : acc.Reduced) :
    (multiplyFrom scalar point acc).Reduced := by
  induction scalar using Nat.strong_induction_on generalizing point acc with
  | _ scalar ih =>
    rw [multiplyFrom]
    split
    next => exact reduced
    next positive =>
      refine ih _ (by omega) (double point) ?_
      split
      next => exact add_reduced acc point
      next => exact reduced

theorem multiply_reduced (scalar : Nat) (point : Point) : (multiply scalar point).Reduced :=
  multiplyFrom_reduced scalar point ⟨by decide, by decide, by decide⟩

theorem isIdentity_iff {point : Point} {P : CurvePoint} (reduced : point.Reduced)
    (stands : point.Of P) : isIdentity point = true ↔ P = 0 := by
  rw [Edwards.Extended.eq_zero_iff stands, isIdentity, Bool.and_eq_true, decide_eq_true_eq,
    decide_eq_true_eq]
  have x : point.x = 0 ↔ (point.x : Residue) = 0 := by
    rw [← field_eq_zero_iff, reduced.x]
  have y : point.y = point.z ↔ (point.y : Residue) = point.z := by
    rw [← field_eq_iff, reduced.y, reduced.z]
  rw [x, y]
  rfl

/-- The torsion-free keys are the acceptable ones whose point the order of the group of the
base point annihilates. -/
theorem torsionFree_iff (publicKey : Bytes) :
    torsionFree publicKey = true ↔ acceptablePublicKey publicKey = true ∧
      ∃ P : CurvePoint, publicKey = encode P ∧ l.toNat • P = 0 := by
  have order : ∀ P : CurvePoint, primeOrderPoint (decodePoint (encode P)) = true ↔
      l.toNat • P = 0 := by
    intro P
    rw [decodePoint_encode, primeOrderPoint]
    exact isIdentity_iff (multiply_reduced _ _) (multiply_of _ (affine_of P))
  have unfolded : torsionFree publicKey = true ↔
      acceptablePublicKey publicKey = true ∧ primeOrderPoint (decodePoint publicKey) = true := by
    rw [torsionFree, acceptablePublicKey]
    split
    next =>
      cases decodePoint publicKey with
      | none => simp [primeOrderPoint]
      | some decoded => simp
    next => simp
  rw [unfolded]
  constructor
  · rintro ⟨accepted, prime⟩
    obtain ⟨P, same, _⟩ := (acceptablePublicKey_iff publicKey).mp accepted
    rw [same, order] at prime
    exact ⟨accepted, P, same, prime⟩
  · rintro ⟨accepted, P, same, prime⟩
    rw [← order, ← same] at prime
    exact ⟨accepted, prime⟩

/-! ## The order of the base point -/

/-- The primes that certify `l`. -/
def orderRungs : List Rung :=
  [⟨67, 2, [2, 3, 11]⟩, ⟨73, 5, [2, 2, 2, 3, 3]⟩, ⟨79, 3, [2, 3, 13]⟩, ⟨113, 3, [2, 2, 2, 2, 7]⟩,
    ⟨269, 2, [2, 2, 67]⟩, ⟨307, 5, [2, 3, 3, 17]⟩,
    ⟨34123, 2, [2, 3, 11, 11, 47]⟩,
    ⟨409477, 2, [2, 2, 3, 34123]⟩,
    ⟨14741173, 2, [2, 2, 3, 3, 409477]⟩,
    ⟨58964693, 2, [2, 2, 14741173]⟩,
    ⟨30703, 3, [2, 3, 7, 17, 43]⟩,
    ⟨41081, 3, [2, 2, 2, 5, 13, 79]⟩,
    ⟨82163, 2, [2, 41081]⟩,
    ⟨22111, 6, [2, 3, 5, 11, 67]⟩,
    ⟨132667, 5, [2, 3, 22111]⟩,
    ⟨1723, 3, [2, 3, 7, 41]⟩,
    ⟨17231, 13, [2, 5, 1723]⟩,
    ⟨137849, 3, [2, 2, 2, 17231]⟩,
    ⟨3044861653679985063343, 5, [2, 3, 11, 30703, 82163, 132667, 137849]⟩,
    ⟨198211423230930754013084525763697, 5, [2, 2, 2, 2, 3, 23, 58964693, 3044861653679985063343]⟩,
    ⟨2939, 2, [2, 13, 113]⟩,
    ⟨5879, 11, [2, 2939]⟩,
    ⟨292386187, 2, [2, 3, 3, 3, 3, 307, 5879]⟩,
    ⟨213441916511, 13, [2, 5, 73, 292386187]⟩,
    ⟨1361, 3, [2, 2, 2, 2, 5, 17]⟩,
    ⟨2851, 2, [2, 3, 5, 5, 19]⟩,
    ⟨3797, 2, [2, 2, 13, 73]⟩,
    ⟨531581, 2, [2, 2, 5, 7, 3797]⟩,
    ⟨2551, 6, [2, 3, 5, 5, 17]⟩,
    ⟨1224481, 13, [2, 2, 2, 2, 2, 3, 5, 2551]⟩,
    ⟨1257559732178653, 2, [2, 2, 3, 7, 23, 531581, 1224481]⟩,
    ⟨4434155615661930479, 17, [2, 41, 43, 1257559732178653]⟩,
    ⟨172054593956031949258510691, 2, [2, 5, 1361, 2851, 4434155615661930479]⟩,
    ⟨19757330305831588566944191468367130476339, 2, [2, 269, 213441916511,
      172054593956031949258510691]⟩,
    ⟨276602624281642239937218680557139826668747, 2, [2, 7,
      19757330305831588566944191468367130476339]⟩]

theorem prime_l : l.toNat.Prime :=
  prime_of_top orderRungs ⟨l.toNat, 2, [2, 2, 3, 11, 198211423230930754013084525763697,
    276602624281642239937218680557139826668747]⟩ (by decide)

/-- The encoding of the base point. -/
def baseEncoding : Bytes :=
  big256 0x5866666666666666666666666666666666666666666666666666666666666666

/-- The base point generates a group of that order. -/
theorem exists_addOrderOf_eq_l :
    ∃ B : CurvePoint, baseEncoding = encode B ∧ addOrderOf B = l.toNat := by
  have free : torsionFree baseEncoding = true := by decide +kernel
  obtain ⟨accepted, B, same, annihilated⟩ := (torsionFree_iff baseEncoding).mp free
  refine ⟨B, same, ?_⟩
  have nonzero : B ≠ 0 := by
    intro zero
    have small := (isSmallOrder_encode B).mpr (by rw [zero, nsmul_zero])
    rw [← same] at small
    revert small
    decide
  have : Fact l.toNat.Prime := ⟨prime_l⟩
  exact addOrderOf_eq_prime annihilated nonzero

/-- The torsion check is exact, with the formulas and the loop that it rests on, and the order
that it multiplies by is the prime order of a subgroup. -/
theorem torsionFree_exact :
    (∀ publicKey : Bytes, torsionFree publicKey = true ↔
      acceptablePublicKey publicKey = true ∧
        ∃ P : CurvePoint, publicKey = encode P ∧ l.toNat • P = 0) ∧
    (∀ (a b : Point) (P Q : CurvePoint), a.Of P → b.Of Q → (add a b).Of (P + Q)) ∧
    (∀ (a : Point) (P : CurvePoint), a.Of P → (double a).Of (P + P)) ∧
    (∀ (scalar : Nat) (a : Point) (P : CurvePoint), a.Of P →
      (multiply scalar a).Of (scalar • P)) ∧
    l.toNat.Prime ∧ ∃ B : CurvePoint, addOrderOf B = l.toNat := by
  refine ⟨torsionFree_iff, ?_, ?_, ?_, prime_l, ?_⟩
  · intro a b P Q ha hb
    exact add_of ha hb
  · intro a P ha
    exact double_of ha
  · intro scalar a P ha
    exact multiply_of scalar ha
  · obtain ⟨B, _, order⟩ := exists_addOrderOf_eq_l
    exact ⟨B, order⟩

end BoundedAuthority.V1.Ed25519
