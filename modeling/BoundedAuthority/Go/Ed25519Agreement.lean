import BoundedAuthority.Go.Ed25519
import Mathlib.Data.Nat.Size

/-!
# Key checks agree

The Go key checks and the reference's say the same of every key: both decoders accept the
encodings of the points of the curve, and both scalar multiplications reach the multiple by
the group order.  The inverse in the Go decoder always exists, so it never panics.
-/

namespace BoundedAuthority.Go.Ed25519

open Wire
open V1.Ed25519 (Residue CurvePoint curve encode code)

/-! ## Arithmetic -/

theorem curveP_eq : curveP = V1.Ed25519.p := rfl

theorem fieldMod_eq (v : Int) : fieldMod v = V1.Ed25519.field v := (V1.Ed25519.field_eq v).symm

@[simp] theorem cast_fieldMod (v : Int) : ((fieldMod v : Int) : Residue) = v := by
  rw [fieldMod_eq, V1.Ed25519.cast_field]

theorem fieldMod_eq_zero_iff {v : Int} : fieldMod v = 0 ↔ (v : Residue) = 0 := by
  rw [fieldMod_eq, V1.Ed25519.field_eq_zero_iff]

theorem setBytes_reverse (octets : Bytes) : setBytes octets.reverse = V1.Ed25519.little octets := by
  induction octets with
  | nil => rfl
  | cons b rest ih =>
    rw [setBytes] at ih ⊢
    rw [List.reverse_cons, List.foldl_append, ih, V1.Ed25519.little]
    exact Int.add_comm _ _

/-- Every residue but zero has an inverse. -/
theorem modInverse_spec {w : Int} (nonzero : (w : Residue) ≠ 0) :
    ∃ inverse, modInverse w curveP = some inverse ∧ (w : Residue) * inverse = 1 := by
  have prime := Nat.prime_iff_prime_int.mp V1.Ed25519.prime_modulus
  have coprime : Int.gcd w curveP = 1 := by
    rw [Int.gcd_comm, ← Int.isCoprime_iff_gcd_eq_one, curveP_eq, V1.Ed25519.p_eq]
    refine (Prime.coprime_iff_not_dvd prime).mpr ?_
    intro divides
    exact nonzero ((ZMod.intCast_zmod_eq_zero_iff_dvd w V1.Ed25519.modulus).mpr divides)
  refine ⟨Int.gcdA w curveP % curveP, if_pos coprime, ?_⟩
  have bezout := congrArg (Int.cast : Int → Residue) (Int.gcd_eq_gcd_ab w curveP)
  have reduced : ((Int.gcdA w curveP % curveP : Int) : Residue) = (Int.gcdA w curveP : Int) :=
    cast_fieldMod (Int.gcdA w curveP)
  rw [coprime, Int.cast_add, Int.cast_mul, Int.cast_mul, curveP_eq, V1.Ed25519.cast_p, zero_mul,
    add_zero, Nat.cast_one, Int.cast_one] at bezout
  rw [reduced, curveP_eq]
  exact bezout.symm

theorem exp_eq (x : Int) (y : Nat) : exp x y curveP = fieldMod (x ^ y) := by
  have modulus : curveP.toNat = V1.Ed25519.modulus := by decide
  have fits : y < 256 ^ y.size :=
    (Nat.lt_size_self y).trans_le (Nat.pow_le_pow_left (by decide) y.size)
  rw [exp, powMod_eq _ _ _ y fits, modulus, fieldMod_eq, V1.Ed25519.field_eq_val,
    ← ZMod.val_natCast, Nat.cast_pow, Int.cast_pow]
  have base : (((x % curveP).toNat : Nat) : Residue) = x := by
    have nonneg : 0 ≤ x % curveP := Int.emod_nonneg x (by decide)
    rw [← Int.cast_natCast, Int.toNat_of_nonneg nonneg]
    exact cast_fieldMod x
  rw [base]

/-! ## The decoder -/

/-- The sign bit and the coordinate below it. -/
theorem parts {enc : Bytes} (length : enc.length = 32) :
    ∃ (s : Nat) (y : Int), s < 2 ∧ 0 ≤ y ∧ y < 2 ^ 255 ∧
      V1.Ed25519.little enc = y + 2 ^ 255 * s ∧ bit (V1.Ed25519.little enc) 255 = s ∧
      setBit (V1.Ed25519.little enc) 255 0 = y := by
  have positive := V1.Ed25519.little_nonneg enc
  have bound := V1.Ed25519.little_lt enc
  have twice : (256 : Int) ^ 32 = 2 * 2 ^ 255 := by decide
  have top : (0 : Int) < 2 ^ 255 := by decide
  rw [length, twice] at bound
  simp only [setBit, bit]
  generalize V1.Ed25519.little enc = v at *
  generalize (2 : Int) ^ 255 = t at *
  have low := Int.emod_nonneg v top.ne'
  have high := Int.emod_lt_of_pos v top
  have whole := Int.mul_ediv_add_emod v t
  have quotient : 0 ≤ v / t := Int.ediv_nonneg positive top.le
  have small : v / t < 2 := Int.ediv_lt_of_lt_mul top bound
  have same : v / t % 2 = v / t := Int.emod_eq_of_lt quotient small
  refine ⟨(v / t).toNat, v % t, by omega, low, high, ?_, ?_, ?_⟩
  · rw [Int.toNat_of_nonneg quotient]
    linear_combination -whole
  · rw [same, Int.toNat_of_nonneg quotient]
  · rw [same]
    linear_combination -whole

/-- The encodings of points, split at the sign bit. -/
theorem eq_encode_iff_parts {enc : Bytes} {s : Nat} {y : Int} (length : enc.length = 32)
    (bit : s < 2) (low : 0 ≤ y) (high : y < 2 ^ 255)
    (number : V1.Ed25519.little enc = y + 2 ^ 255 * s) (P : CurvePoint) :
    enc = encode P ↔ y = P.y.val ∧ s = P.x.val % 2 := by
  have bound : (P.y.val : Int) < 2 ^ 255 :=
    lt_trans (Int.ofNat_lt.mpr (ZMod.val_lt P.y)) (by decide)
  have parity := Nat.mod_lt P.x.val (by decide : 0 < 2)
  rw [V1.Ed25519.eq_encode_iff length, number, code, Nat.cast_add, Nat.cast_mul]
  have top : (((2 : Nat) ^ 255 : Nat) : Int) = 2 ^ 255 := by decide
  rw [top]
  generalize (2 : Int) ^ 255 = t at *
  generalize P.x.val % 2 = b at *
  generalize P.y.val = n at *
  constructor
  · intro same
    have signs : s = b := by
      by_contra other
      have apart : s = 0 ∧ b = 1 ∨ s = 1 ∧ b = 0 := by omega
      cases apart with
      | inl set =>
        rw [set.1, set.2, Nat.cast_zero, Nat.cast_one] at same
        omega
      | inr clear =>
        rw [clear.1, clear.2, Nat.cast_zero, Nat.cast_one] at same
        omega
    rw [signs] at same
    exact ⟨add_right_cancel same, signs⟩
  · rintro ⟨first, second⟩
    rw [first, second]

/-- The root that is found. -/
theorem root_spec (x2 : Int) {root : Int} {found : Option Int}
    (power : root = exp x2 pPlus3D8.toNat curveP)
    (search : found = if fieldMod (root * root - x2) = 0 then some root
      else if fieldMod (fieldMod (root * sqrtM1) * fieldMod (root * sqrtM1) - x2) = 0 then
        some (fieldMod (root * sqrtM1))
      else none) :
    (∀ r, found = some r → fieldMod r = r ∧ (r : Residue) ^ 2 = x2) ∧
      (found = none → ¬ IsSquare (x2 : Residue)) := by
  have exponent : pPlus3D8.toNat = (V1.Ed25519.modulus + 3) / 8 := by decide
  have reduced : fieldMod root = root := by
    rw [power, exp_eq, fieldMod_eq, fieldMod_eq, V1.Ed25519.field_field]
  have cast : (root : Residue) = (x2 : Residue) ^ ((V1.Ed25519.modulus + 3) / 8) := by
    rw [power, exp_eq, cast_fieldMod, Int.cast_pow, exponent]
  have squares := isSquare_iff_power (by decide) cast
  have i_sq : (sqrtM1 : Residue) * sqrtM1 = -1 := curve.i_sq
  have first : fieldMod (root * root - x2) = 0 ↔ (root : Residue) ^ 2 = x2 := by
    rw [fieldMod_eq_zero_iff, Int.cast_sub, Int.cast_mul, sub_eq_zero, pow_two]
  have second : fieldMod (fieldMod (root * sqrtM1) * fieldMod (root * sqrtM1) - x2) = 0 ↔
      (root : Residue) ^ 2 = -x2 := by
    rw [fieldMod_eq_zero_iff, Int.cast_sub, Int.cast_mul, cast_fieldMod, Int.cast_mul]
    constructor
    · intro zero
      linear_combination (root : Residue) ^ 2 * i_sq - zero
    · intro opposite
      linear_combination (root : Residue) ^ 2 * i_sq - opposite
  rw [search, squares, ← first, ← second]
  split_ifs with plus minus
  · refine ⟨?_, fun none => nomatch none⟩
    intro r same
    cases same
    exact ⟨reduced, first.mp plus⟩
  · refine ⟨?_, fun none => nomatch none⟩
    intro r same
    cases same
    refine ⟨by rw [fieldMod_eq, fieldMod_eq, V1.Ed25519.field_field], ?_⟩
    rw [cast_fieldMod, Int.cast_mul]
    linear_combination (root : Residue) ^ 2 * i_sq - second.mp minus
  · refine ⟨fun r some => (nomatch some), fun _ => ?_⟩
    exact fun square => square.elim plus minus

/-- The root of the encoded parity. -/
theorem sign_spec {r : Int} {s : Nat} (reduced : fieldMod r = r) (sign : s < 2)
    (chosen : ¬ (r = 0 ∧ (s : Int) = 1)) :
    ∃ x : Residue, (x = r ∨ x = -r) ∧ x.val % 2 = s ∧
      (if bit r 0 ≠ s then fieldMod (curveP - r) else r) = (x.val : Int) := by
  rw [fieldMod_eq, V1.Ed25519.field_eq_val] at reduced
  generalize (r : Residue) = x at *
  subst reduced
  have parity : bit x.val 0 = ((x.val % 2 : Nat) : Int) := by
    rw [bit, pow_zero, Int.ediv_one, Int.natCast_mod]
    rfl
  rw [parity]
  split
  next other =>
    have nonzero : x ≠ 0 := by
      intro zero
      rw [zero, ZMod.val_zero] at other chosen
      refine chosen ⟨rfl, ?_⟩
      omega
    refine ⟨-x, .inr rfl, ?_, ?_⟩
    · have flipped := V1.Ed25519.parity_neg nonzero
      omega
    · rw [fieldMod_eq, V1.Ed25519.field_eq_val, Int.cast_sub, curveP_eq, V1.Ed25519.cast_p,
        zero_sub, Int.cast_natCast, ZMod.natCast_zmod_val]
  next same =>
    refine ⟨x, .inl rfl, ?_, rfl⟩
    omega

/-- The coordinates stand for a point of the curve. -/
def EdwardsPoint.Of (p : EdwardsPoint) (P : CurvePoint) : Prop :=
  (⟨p.x, p.y, p.z, p.t⟩ : Edwards.Extended Residue).Of P

theorem cast_divisor (y : Int) :
    ((fieldMod (curveD * (y * y) + 1) : Int) : Residue) = curve.d * (y : Residue) ^ 2 + 1 := by
  rw [cast_fieldMod, Int.cast_add, Int.cast_mul, Int.cast_mul, Int.cast_one, pow_two]
  rfl

theorem divisor_ne_zero (y : Int) :
    ((fieldMod (curveD * (y * y) + 1) : Int) : Residue) ≠ 0 := by
  rw [cast_divisor]
  exact curve.fraction_ne_zero y

/-- What the decoder finds, and that it returns. -/
theorem decodeEdwardsPoint_spec {enc : Bytes} (length : enc.length = 32) :
    ∃ decoded, decodeEdwardsPoint enc = some decoded ∧
      (∀ p, decoded = some p → ∃ P : CurvePoint, enc = encode P ∧ p.Of P) ∧
      (decoded = none → ∀ P : CurvePoint, enc ≠ encode P) := by
  obtain ⟨s, y, sign, low, high, number, top, rest⟩ := parts length
  have encodes := eq_encode_iff_parts length sign low high number
  simp only [decodeEdwardsPoint, setBytes_reverse, top, rest]
  split
  next above =>
    refine ⟨none, rfl, fun p some => (nomatch some), fun _ P same => ?_⟩
    have bound := ZMod.val_lt P.y
    rw [curveP_eq, V1.Ed25519.p_eq, ((encodes P).mp same).1] at above
    omega
  next below =>
    obtain ⟨inverse, found, unit⟩ := modInverse_spec (divisor_ne_zero y)
    simp only [found]
    have quotient : (curve.d * (y : Residue) ^ 2 + 1) *
        ((fieldMod (fieldMod (y * y - 1) * inverse) : Int) : Residue) = (y : Residue) ^ 2 - 1 := by
      rw [cast_fieldMod, Int.cast_mul, cast_fieldMod, Int.cast_sub, Int.cast_mul, Int.cast_one]
      rw [cast_divisor] at unit
      linear_combination ((y : Residue) ^ 2 - 1) * unit
    generalize fieldMod (fieldMod (y * y - 1) * inverse) = x2 at *
    have square : ∀ x : Residue, curve.On x y ↔ x ^ 2 = x2 := by
      intro x
      rw [curve.on_iff, ← quotient, mul_right_inj' (curve.fraction_ne_zero (y : Residue))]
    have point : ∀ P : CurvePoint, enc = encode P → P.x ^ 2 = x2 ∧ s = P.x.val % 2 := by
      intro P same
      obtain ⟨second, parity⟩ := (encodes P).mp same
      refine ⟨(square P.x).mp ?_, parity⟩
      rw [second, Int.cast_natCast, ZMod.natCast_zmod_val]
      exact P.on
    obtain ⟨root, noRoot⟩ := root_spec x2 rfl rfl
    split
    next absent =>
      refine ⟨none, rfl, fun p some => (nomatch some), fun _ P same => ?_⟩
      refine noRoot absent ⟨P.x, ?_⟩
      rw [← (point P same).1, pow_two]
    next r present =>
      obtain ⟨reduced, squared⟩ := root r present
      split
      next negative =>
        refine ⟨none, rfl, fun p some => (nomatch some), fun _ P same => ?_⟩
        obtain ⟨first, parity⟩ := point P same
        rw [← squared, negative.1, Int.cast_zero, zero_pow two_ne_zero,
          pow_eq_zero_iff two_ne_zero] at first
        rw [first, ZMod.val_zero] at parity
        omega
      next chosen =>
        refine ⟨_, rfl, ?_, fun none => nomatch none⟩
        intro p same
        cases same
        obtain ⟨x, same, parity, value⟩ := sign_spec reduced sign chosen
        have on : curve.On x y := by
          rw [square, ← squared]
          cases same with
          | inl same => rw [same]
          | inr opposite => rw [opposite, neg_sq]
        have second : y = ((y : Residue).val : Int) := by
          have bound : y < V1.Ed25519.modulus := not_le.mp below
          rw [ZMod.val_intCast]
          exact (Int.emod_eq_of_lt low bound).symm
        refine ⟨⟨x, y, on⟩, (encodes _).mpr ⟨second, parity.symm⟩, ?_⟩
        rw [value]
        refine ⟨?_, ?_, ?_, ?_⟩
        · rw [Int.cast_one]
          exact one_ne_zero
        · simp
        · simp
        · simp

/-! ## The scalar -/

/-- The formulas add any two points. -/
theorem add_of {p q : EdwardsPoint} {P Q : CurvePoint} (hp : p.Of P) (hq : q.Of Q) :
    (p.add q).Of (P + Q) := by
  have d_eq : curve.d = (curveD : Residue) := rfl
  have sum := Edwards.Extended.add_of hp hq
  rw [EdwardsPoint.Of]
  convert sum using 1
  simp only [EdwardsPoint.add, Edwards.Extended.add, cast_fieldMod, Int.cast_mul, Int.cast_sub,
    Int.cast_add, Int.cast_ofNat, d_eq, Edwards.Extended.mk.injEq]
  refine ⟨?_, ?_, ?_, trivial⟩ <;> ring

theorem identityPoint_of : identityPoint.Of 0 := by
  have zero := Edwards.Extended.zero_of (c := curve)
  rw [EdwardsPoint.Of]
  convert zero using 1
  simp [identityPoint]

/-- The sum so far is the multiple by the bits so far, the addend the next power of two. -/
theorem walk_of (scalar : Nat) {p : EdwardsPoint} {P : CurvePoint} (hp : p.Of P) (n : Nat) :
    ((List.range n).foldl (walk scalar) (identityPoint, p)).1.Of ((scalar % 2 ^ n) • P) ∧
      ((List.range n).foldl (walk scalar) (identityPoint, p)).2.Of (2 ^ n • P) := by
  induction n with
  | zero =>
    rw [pow_zero, Nat.mod_one, zero_nsmul, one_nsmul]
    exact ⟨identityPoint_of, hp⟩
  | succ n ih =>
    rw [List.range_succ, List.foldl_append]
    obtain ⟨sum, addend⟩ := ih
    generalize (List.range n).foldl (walk scalar) (identityPoint, p) = state at *
    have doubled := add_of addend addend
    rw [← two_nsmul, ← mul_nsmul', ← pow_succ'] at doubled
    refine ⟨?_, doubled⟩
    have bits : bit scalar n = ((scalar / 2 ^ n % 2 : Nat) : Int) := by
      rw [bit]
      push_cast
      rfl
    simp only [List.foldl_cons, List.foldl_nil, walk, bits]
    rw [Nat.mod_pow_succ]
    split
    next odd =>
      have set : scalar / 2 ^ n % 2 = 1 := by omega
      rw [set, mul_one, add_nsmul]
      exact add_of sum addend
    next even =>
      have clear : scalar / 2 ^ n % 2 = 0 := by omega
      rw [clear, mul_zero, add_zero]
      exact sum

theorem isIdentity_iff {p : EdwardsPoint} {P : CurvePoint} (hp : p.Of P) :
    p.isIdentity = true ↔ P = 0 := by
  rw [Edwards.Extended.eq_zero_iff hp, EdwardsPoint.isIdentity, Bool.and_eq_true,
    decide_eq_true_eq, decide_eq_true_eq, fieldMod_eq_zero_iff, fieldMod_eq_zero_iff, Int.cast_sub,
    sub_eq_zero]

/-- The loop tells the points that the group order annihilates. -/
theorem timesGroupOrderIsIdentity_iff {p : EdwardsPoint} {P : CurvePoint} (hp : p.Of P) :
    p.timesGroupOrderIsIdentity = true ↔ V1.Ed25519.l.toNat • P = 0 := by
  have natural : curveL = ((V1.Ed25519.l.toNat : Nat) : Int) := by decide
  rw [EdwardsPoint.timesGroupOrderIsIdentity, natural, bitLen, Int.natAbs_natCast]
  generalize V1.Ed25519.l.toNat = order
  have whole := (walk_of order hp order.size).1
  rw [Nat.mod_eq_of_lt (Nat.lt_size_self order)] at whole
  exact isIdentity_iff whole

/-! ## The checks -/

theorem isSmallOrder_eq (enc : Bytes) : isSmallOrder enc = V1.Ed25519.isSmallOrder enc := by
  have same : smallOrderEncodings = V1.Ed25519.smallOrder := rfl
  rw [isSmallOrder, V1.Ed25519.isSmallOrder, same, List.contains_eq_any_beq]

/-- Key acceptance never panics and agrees with the reference. -/
theorem acceptablePublicKey_eq (key : Bytes) :
    acceptablePublicKey key = some (V1.Ed25519.acceptablePublicKey key) := by
  have reference := V1.Ed25519.acceptablePublicKey_iff key
  rw [acceptablePublicKey, isSmallOrder_eq]
  split
  next refused =>
    refine congrArg some (Eq.symm (Bool.eq_false_iff.mpr ?_))
    intro accepted
    have length := V1.Ed25519.length_of_acceptablePublicKey accepted
    obtain ⟨P, same, large⟩ := reference.mp accepted
    cases refused with
    | inl wrong => exact wrong length
    | inr small =>
      rw [same, V1.Ed25519.isSmallOrder_encode] at small
      exact large small
  next rest =>
    rw [not_or, not_not] at rest
    obtain ⟨decoded, found, point, noPoint⟩ := decodeEdwardsPoint_spec rest.1
    rw [found, Option.map_some, Option.some.injEq, Bool.eq_iff_iff, reference]
    cases decoded with
    | some p =>
      obtain ⟨P, same, _⟩ := point p rfl
      refine iff_of_true rfl ⟨P, same, ?_⟩
      rw [Ne, ← V1.Ed25519.isSmallOrder_encode, ← same]
      exact rest.2
    | none =>
      refine iff_of_false Bool.false_ne_true ?_
      rintro ⟨P, same, _⟩
      exact noPoint rfl P same

/-- The torsion check never panics and agrees with the reference. -/
theorem torsionFree_eq (key : Bytes) :
    torsionFree key = some (V1.Ed25519.torsionFree key) := by
  have reference := V1.Ed25519.torsionFree_iff key
  have accepted := acceptablePublicKey_eq key
  rw [torsionFree]
  rw [acceptablePublicKey] at accepted
  split
  next refused =>
    rw [if_pos refused, Option.some.injEq] at accepted
    refine congrArg some (Eq.symm (Bool.eq_false_iff.mpr ?_))
    intro free
    rw [← accepted] at reference
    exact Bool.false_ne_true (reference.mp free).1
  next rest =>
    rw [if_neg rest] at accepted
    rw [not_or, not_not] at rest
    obtain ⟨decoded, found, point, noPoint⟩ := decodeEdwardsPoint_spec rest.1
    rw [found, Option.map_some, Option.some.injEq] at accepted
    rw [found, Option.map_some, Option.some.injEq, Bool.eq_iff_iff, reference, ← accepted]
    cases decoded with
    | some p =>
      obtain ⟨P, same, stands⟩ := point p rfl
      rw [timesGroupOrderIsIdentity_iff stands]
      constructor
      · intro zero
        exact ⟨rfl, P, same, zero⟩
      · rintro ⟨_, Q, other, zero⟩
        rw [V1.Ed25519.encode_injective (same.symm.trans other)]
        exact zero
    | none => exact iff_of_false Bool.false_ne_true fun free => Bool.false_ne_true free.1

/-- The key checks agree, and the inverse in the decoder always exists. -/
theorem keyChecks_agree :
    (∀ key : Bytes, acceptablePublicKey key = some (V1.Ed25519.acceptablePublicKey key) ∧
      torsionFree key = some (V1.Ed25519.torsionFree key)) ∧
    ∀ y : Int, (modInverse (fieldMod (curveD * (y * y) + 1)) curveP).isSome = true := by
  refine ⟨fun key => ⟨acceptablePublicKey_eq key, torsionFree_eq key⟩, ?_⟩
  intro y
  obtain ⟨inverse, found, _⟩ := modInverse_spec (divisor_ne_zero y)
  rw [found]
  rfl

end BoundedAuthority.Go.Ed25519
