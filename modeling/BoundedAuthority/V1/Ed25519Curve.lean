import BoundedAuthority.V1.Ed25519Field

/-!
# Keys as points

A key is acceptable exactly when it is the encoding of a point of edwards25519 whose order
does not divide eight.  The root that `decodePoint` computes exists whenever a point with the
encoded coordinate does, and the table of `smallOrder` holds the points of order one, two,
four and eight.
-/

namespace BoundedAuthority.V1.Ed25519

open Wire

/-- The half power tells a residue that is no square. -/
theorem not_isSquare {n : Nat} (nonzero : n % modulus ≠ 0)
    (power : powMod modulus 256 n (modulus / 2) ≠ 1) : ¬ IsSquare (n : Residue) := by
  have cast_ne_zero : (n : Residue) ≠ 0 := by
    rw [Ne, ZMod.natCast_eq_zero_iff, Nat.dvd_iff_mod_eq_zero]
    exact nonzero
  rw [ZMod.euler_criterion modulus cast_ne_zero, ← Nat.cast_pow, ← Nat.cast_one,
    ZMod.natCast_eq_natCast_iff', ← powMod_eq modulus 256 _ _ (by decide)]
  exact power

theorem sqrtM1_sq : (sqrtM1 : Residue) * (sqrtM1 : Residue) = -1 := by
  have root : field (sqrtM1 * sqrtM1) = field (-1) := by decide
  have same := field_eq_iff.mp root
  rw [Int.cast_mul, Int.cast_neg, Int.cast_one] at same
  exact same

/-- The constant of the curve is `-121665/121666`. -/
theorem d_eq : (121666 : Residue) * (d : Residue) = -121665 := by
  have quotient : field (121666 * d) = field (-121665) := by decide
  have same := field_eq_iff.mp quotient
  rw [Int.cast_mul] at same
  exact_mod_cast same

theorem d_nonsquare (r : Residue) : r * r ≠ (d : Residue) := by
  intro root
  have natural : (d : Residue) = (d.toNat : Residue) := by
    have sign : d = (d.toNat : Int) := by decide
    rw [sign]
    rfl
  rw [natural] at root
  exact not_isSquare (by decide +kernel) (by decide +kernel) ⟨r, root.symm⟩

theorem residue_two : (2 : Residue) ≠ 0 := by
  intro zero
  have two : field 2 = 0 := field_eq_zero_iff.mpr zero
  revert two
  decide

/-- edwards25519. -/
def curve : Edwards.Curve Residue where
  d := (d : Residue)
  i := (sqrtM1 : Residue)
  i_sq := sqrtM1_sq
  nonsquare := d_nonsquare
  two := residue_two

/-- A point of edwards25519. -/
abbrev CurvePoint : Type := Edwards.Point curve

/-! ## Encodings -/

/-- The octets of a number, least significant first. -/
def littleBytes : Nat → Nat → Bytes
  | 0, _ => []
  | count + 1, value => UInt8.ofNat value :: littleBytes count (value / 256)

@[simp] theorem length_littleBytes (count value : Nat) :
    (littleBytes count value).length = count := by
  induction count generalizing value with
  | zero => rfl
  | succ count ih => rw [littleBytes, List.length_cons, ih]

theorem little_littleBytes (count value : Nat) (fits : value < 256 ^ count) :
    little (littleBytes count value) = value := by
  induction count generalizing value with
  | zero =>
    have zero : value = 0 := by omega
    rw [zero]
    rfl
  | succ count ih =>
    rw [pow_succ] at fits
    have digit : (UInt8.ofNat value).toNat = value % 256 := UInt8.toNat_ofNat'
    rw [littleBytes, little, ih _ (by omega), digit]
    omega

theorem little_nonneg (encoding : Bytes) : 0 ≤ little encoding := by
  induction encoding with
  | nil => exact le_refl 0
  | cons b rest ih =>
    rw [little]
    omega

theorem littleBytes_little (encoding : Bytes) :
    littleBytes encoding.length (little encoding).toNat = encoding := by
  induction encoding with
  | nil => rfl
  | cons b rest ih =>
    have bound := b.toNat_lt
    have positive := little_nonneg rest
    have head : UInt8.ofNat (little (b :: rest)).toNat = b := by
      have same : (little (b :: rest)).toNat = b.toNat + 256 * (little rest).toNat := by
        rw [little]
        omega
      refine UInt8.toNat_inj.mp ?_
      rw [same, UInt8.toNat_ofNat']
      omega
    have tail : (little (b :: rest)).toNat / 256 = (little rest).toNat := by
      rw [little]
      omega
    rw [List.length_cons, littleBytes, head, tail, ih]

theorem little_lt (encoding : Bytes) : little encoding < 256 ^ encoding.length := by
  induction encoding with
  | nil => exact Int.one_pos
  | cons b rest ih =>
    have bound := b.toNat_lt
    rw [little, List.length_cons, pow_succ]
    omega

/-- The number that a point is encoded as: the second coordinate and the parity of the first
one above it. -/
def code (P : CurvePoint) : Nat := P.y.val + 2 ^ 255 * (P.x.val % 2)

/-- The encoding of a point. -/
def encode (P : CurvePoint) : Bytes := littleBytes 32 (code P)

theorem code_lt (P : CurvePoint) : code P < 256 ^ 32 := by
  have bound : P.y.val < 2 ^ 255 := lt_trans (ZMod.val_lt P.y) (by decide)
  have powers : (256 : Nat) ^ 32 = 2 ^ 255 + 2 ^ 255 := by decide
  rw [code, powers]
  generalize 2 ^ 255 = top at *
  cases Nat.mod_two_eq_zero_or_one P.x.val with
  | inl even =>
    rw [even]
    omega
  | inr odd =>
    rw [odd]
    omega

theorem little_encode (P : CurvePoint) : little (encode P) = code P :=
  little_littleBytes 32 (code P) (code_lt P)

theorem eq_encode_iff {encoding : Bytes} (length : encoding.length = 32) (P : CurvePoint) :
    encoding = encode P ↔ little encoding = code P := by
  constructor
  · intro same
    rw [same, little_encode]
  · intro same
    have bytes := littleBytes_little encoding
    rw [length, same, Int.toNat_natCast] at bytes
    exact bytes.symm

/-! ## The root -/

/-- The root that `decode_point/1` tries. -/
theorem root_iff {u w w3 w7 c : Int} (nonzero : (w : Residue) ≠ 0) (cube : (w3 : Residue) = w ^ 3)
    (seventh : (w7 : Residue) = w ^ 7)
    (candidate : c = field (u * w3 * powP58 (field (u * w7)))) :
    match (if field (w * c * c - u) = 0 then some c
      else if field (w * c * c + u) = 0 then some (field (c * sqrtM1)) else none) with
    | some r => r = field r ∧ (w : Residue) * (r : Residue) ^ 2 = u
    | none => ∀ x : Residue, (w : Residue) * x ^ 2 ≠ u := by
  have power : (c : Residue) =
      u * (w : Residue) ^ 3 * (u * (w : Residue) ^ 7) ^ ((modulus - 5) / 8) := by
    rw [candidate, cast_field, Int.cast_mul, Int.cast_mul, cast_powP58, cast_field, Int.cast_mul,
      cube, seventh]
  have reduced : c = field c := by
    rw [candidate, field_eq_iff, cast_field]
  have roots := exists_root_iff_power (by decide) nonzero power
  have first : field (w * c * c - u) = 0 ↔ (w : Residue) * (c : Residue) ^ 2 = u := by
    rw [field_eq_zero_iff, Int.cast_sub, Int.cast_mul, Int.cast_mul, sub_eq_zero, mul_assoc,
      pow_two]
  have second : field (w * c * c + u) = 0 ↔ (w : Residue) * (c : Residue) ^ 2 = -u := by
    rw [field_eq_zero_iff, Int.cast_add, Int.cast_mul, Int.cast_mul, add_eq_zero_iff_eq_neg,
      mul_assoc, pow_two]
  split_ifs with plus minus
  · exact ⟨reduced, first.mp plus⟩
  · refine ⟨by rw [field_eq_iff, cast_field], ?_⟩
    have opposite := second.mp minus
    have i_sq : (sqrtM1 : Residue) * sqrtM1 = -1 := curve.i_sq
    rw [cast_field, Int.cast_mul]
    linear_combination (w * (c : Residue) ^ 2) * i_sq - opposite
  · intro x root
    cases roots.mp ⟨x, root⟩ with
    | inl same => exact plus (first.mpr same)
    | inr opposite => exact minus (second.mpr opposite)

/-- A residue and its opposite differ in parity. -/
theorem parity_neg {x : Residue} (nonzero : x ≠ 0) : (-x).val % 2 ≠ x.val % 2 := by
  have odd : modulus % 2 = 1 := by decide
  have bound := ZMod.val_lt x
  rw [ZMod.neg_val, if_neg nonzero]
  omega

/-- The root of the encoded parity. -/
theorem point_spec {r : Int} (reduced : r = field r) (y : Int) (signed : Bool) :
    ∃ x : Residue, (x = r ∨ x = -r) ∧ (x ≠ 0 → (x.val % 2 = 1 ↔ signed = true)) ∧
      point (some r) y signed = some ⟨x.val, y, 1, field (x.val * y)⟩ := by
  rw [field_eq_val] at reduced
  generalize (r : Residue) = root at *
  subst reduced
  have parity : ((root.val : Int).tmod 2 == 1) = decide (root.val % 2 = 1) := by
    rw [Bool.eq_iff_iff, beq_iff_eq, decide_eq_true_eq, Int.tmod_eq_emod_of_nonneg (by omega)]
    omega
  simp only [point, parity]
  split
  next same =>
    refine ⟨root, .inl rfl, ?_, rfl⟩
    intro _
    rw [← same, decide_eq_true_eq]
  next other =>
    refine ⟨-root, .inr rfl, ?_, ?_⟩
    · intro nonzero
      have flipped := parity_neg (neg_ne_zero.mp nonzero)
      cases signed with
      | true =>
        rw [decide_eq_true_eq] at other
        simp only [iff_true]
        omega
      | false =>
        rw [decide_eq_false_iff_not, not_not] at other
        simp only [Bool.false_eq_true, iff_false]
        omega
    · rw [field_eq_val (-(root.val : Int)), Int.cast_neg, Int.cast_natCast, ZMod.natCast_zmod_val]

/-! ## Decoding -/

/-- The coordinates that a point is decoded to. -/
def affine (P : CurvePoint) : Point := ⟨P.x.val, P.y.val, 1, field (P.x.val * P.y.val)⟩

/-- The encoded number, split at the sign bit. -/
theorem code_parts (P : CurvePoint) :
    (code P : Int).tmod signBit = P.y.val ∧ ((code P : Int) ≥ signBit ↔ P.x.val % 2 = 1) := by
  have bound : P.y.val < 2 ^ 255 := lt_trans (ZMod.val_lt P.y) (by decide)
  have sign : signBit = ((2 ^ 255 : Nat) : Int) := by decide
  rw [Int.tmod_eq_emod_of_nonneg (Int.natCast_nonneg _), sign, code]
  generalize (2 : Nat) ^ 255 = top at *
  cases Nat.mod_two_eq_zero_or_one P.x.val with
  | inl even =>
    rw [even, mul_zero, add_zero]
    exact ⟨Int.emod_eq_of_lt (by omega) (by omega), by omega⟩
  | inr odd =>
    rw [odd, mul_one, Nat.cast_add, Int.add_emod_right]
    exact ⟨Int.emod_eq_of_lt (by omega) (by omega), by omega⟩

theorem val_eq_iff {y : Residue} {a : Int} (reduced : field a = a) :
    (y.val : Int) = a ↔ y = a := by
  rw [← reduced, field_eq_val, Int.natCast_inj, ZMod.val_injective modulus |>.eq_iff,
    Int.cast_natCast, ZMod.natCast_zmod_val]

theorem nonzeroX_iff {y : Residue} : nonzeroX y.val = true ↔ y ≠ 1 ∧ y ≠ -1 := by
  have one : ((y.val : Int) = 1) ↔ y = 1 := by
    rw [val_eq_iff (by decide), Int.cast_one]
  have minus : ((y.val : Int) = p - 1) ↔ y = -1 := by
    rw [val_eq_iff (by decide), Int.cast_sub, cast_p, Int.cast_one, zero_sub]
  rw [nonzeroX, Ne, Ne, ← one, ← minus]
  split_ifs with first second
  · exact iff_of_false not_false fun other => other.1 first
  · exact iff_of_false not_false fun other => other.2 second
  · exact iff_of_true rfl ⟨first, second⟩

theorem canonical_encode (P : CurvePoint) : canonical (encode P) = true := by
  obtain ⟨low, high⟩ := code_parts P
  have bound : (P.y.val : Int) < p := by
    rw [p_eq]
    exact Int.ofNat_lt.mpr (ZMod.val_lt P.y)
  simp only [canonical, little_encode, low, Bool.and_eq_true, Bool.or_eq_true, decide_eq_true_eq]
  refine ⟨bound, ?_⟩
  by_cases signed : (code P : Int) ≥ signBit
  · right
    have odd := high.mp signed
    have nonzero : P.x ≠ 0 := by
      intro zero
      rw [zero, ZMod.val_zero] at odd
      cases odd
    rw [nonzeroX_iff, ← not_or, ← P.on.x_eq_zero_iff]
    exact nonzero
  · left
    exact not_le.mp signed

/-- What `decode_point/1` finds. -/
theorem decodePoint_spec (encoding : Bytes) :
    (∀ decoded, decodePoint encoding = some decoded →
      ∃ x : Residue, curve.On x ((little encoding).tmod signBit : Int) ∧
        (x ≠ 0 → (x.val % 2 = 1 ↔ little encoding ≥ signBit)) ∧
        decoded = ⟨x.val, (little encoding).tmod signBit, 1,
          field (x.val * (little encoding).tmod signBit)⟩) ∧
    (decodePoint encoding = none →
      ∀ x : Residue, ¬ curve.On x ((little encoding).tmod signBit : Int)) := by
  simp only [decodePoint]
  generalize (little encoding).tmod signBit = y
  have u : ((field (y * y - 1) : Int) : Residue) = (y : Residue) ^ 2 - 1 := by
    rw [cast_field, Int.cast_sub, Int.cast_mul, Int.cast_one, pow_two]
  have w : ((field (d * y * y + 1) : Int) : Residue) = curve.d * (y : Residue) ^ 2 + 1 := by
    rw [cast_field, Int.cast_add, Int.cast_mul, Int.cast_mul, Int.cast_one, pow_two, mul_assoc]
    rfl
  have nonzero : ((field (d * y * y + 1) : Int) : Residue) ≠ 0 := by
    rw [w]
    exact curve.fraction_ne_zero y
  generalize field (y * y - 1) = a at *
  generalize field (d * y * y + 1) = b at *
  have cube : ((field (field (b * b) * b) : Int) : Residue) = (b : Residue) ^ 3 := by
    rw [cast_field, Int.cast_mul, cast_field, Int.cast_mul]
    ring
  generalize field (field (b * b) * b) = w3 at *
  have seventh : ((field (field (w3 * w3) * b) : Int) : Residue) = (b : Residue) ^ 7 := by
    rw [cast_field, Int.cast_mul, cast_field, Int.cast_mul, cube]
    ring
  generalize field (field (w3 * w3) * b) = w7 at *
  have root := root_iff (u := a) nonzero cube seventh rfl
  split at root
  next r found =>
    obtain ⟨reduced, square⟩ := root
    rw [found]
    obtain ⟨x, sign, parity, result⟩ := point_spec reduced y (decide (little encoding ≥ signBit))
    rw [result]
    refine ⟨?_, fun none => nomatch none⟩
    intro decoded same
    refine ⟨x, ?_, ?_, (Option.some.inj same).symm⟩
    · rw [curve.on_iff, ← w, ← u, ← square]
      cases sign with
      | inl same => rw [same]
      | inr opposite => rw [opposite, neg_sq]
    · rw [decide_eq_true_eq] at parity
      exact parity
  next found =>
    rw [found]
    refine ⟨fun decoded some => (nomatch some), ?_⟩
    intro _ x on
    rw [curve.on_iff, ← w, ← u] at on
    exact root x on

/-- Every point is decoded from its encoding. -/
theorem decodePoint_encode (P : CurvePoint) : decodePoint (encode P) = some (affine P) := by
  obtain ⟨root, noRoot⟩ := decodePoint_spec (encode P)
  obtain ⟨low, high⟩ := code_parts P
  rw [little_encode, low, Int.cast_natCast, ZMod.natCast_zmod_val] at root noRoot
  cases found : decodePoint (encode P) with
  | some decoded =>
    obtain ⟨x, on, parity, result⟩ := root decoded found
    rw [result, affine]
    have same : x = P.x := by
      have square : x ^ 2 = P.x ^ 2 := by
        have mine := (curve.on_iff P.x P.y).mp P.on
        rw [curve.on_iff, ← mine] at on
        exact mul_left_cancel₀ (curve.fraction_ne_zero P.y) on
      cases sq_eq_sq_iff_eq_or_eq_neg.mp square with
      | inl same => exact same
      | inr opposite =>
        by_cases zero : P.x = 0
        · rw [opposite, zero, neg_zero]
        · have flipped := parity_neg zero
          rw [opposite, high] at parity
          have agree := parity (neg_ne_zero.mpr zero)
          omega
    rw [same]
  | none => exact absurd P.on (noRoot found P.x)

/-- A point has one encoding and an encoding one point. -/
theorem encode_injective {P Q : CurvePoint} (same : encode P = encode Q) : P = Q := by
  have decoded := congrArg decodePoint same
  rw [decodePoint_encode, decodePoint_encode, Option.some.injEq, affine, affine] at decoded
  simp only [Point.mk.injEq, Int.natCast_inj] at decoded
  exact Edwards.Point.ext (ZMod.val_injective modulus decoded.1)
    (ZMod.val_injective modulus decoded.2.1)

/-- A canonical encoding that is decoded is the encoding of a point. -/
theorem exists_of_decodePoint {encoding : Bytes} {decoded : Point} (length : encoding.length = 32)
    (checked : canonical encoding = true) (found : decodePoint encoding = some decoded) :
    ∃ P, encoding = encode P ∧ decoded = affine P := by
  obtain ⟨x, on, parity, result⟩ := (decodePoint_spec encoding).1 decoded found
  have positive := little_nonneg encoding
  have bound := little_lt encoding
  simp only [canonical, Bool.and_eq_true, Bool.or_eq_true, decide_eq_true_eq] at checked
  obtain ⟨below, sign⟩ := checked
  have twice : (256 : Int) ^ 32 = signBit + signBit := by decide
  have nonneg : 0 ≤ (little encoding).tmod signBit := Int.tmod_nonneg _ positive
  have second : (((little encoding).tmod signBit : Int) : Residue).val =
      (little encoding).tmod signBit := by
    rw [ZMod.val_intCast, ← p_eq]
    exact Int.emod_eq_of_lt nonneg below
  have odd_iff : x.val % 2 = 1 ↔ little encoding ≥ signBit := by
    by_cases zero : x = 0
    · have unit := (on.x_eq_zero_iff).mp zero
      have clear : little encoding < signBit := by
        refine sign.resolve_right ?_
        rw [← second, nonzeroX_iff]
        rintro ⟨first, last⟩
        exact unit.elim first last
      rw [zero, ZMod.val_zero]
      omega
    · exact parity zero
  refine ⟨⟨x, _, on⟩, ?_, ?_⟩
  · rw [eq_encode_iff length, code, Nat.cast_add, second]
    rw [length, twice] at bound
    have top : ((2 ^ 255 * (x.val % 2) : Nat) : Int) = signBit * ((x.val % 2 : Nat) : Int) := by
      rw [Nat.cast_mul]
      rfl
    rw [top, Int.tmod_eq_emod_of_nonneg positive]
    cases Nat.mod_two_eq_zero_or_one x.val with
    | inl even =>
      have clear : little encoding < signBit := by omega
      rw [even, Nat.cast_zero, mul_zero, add_zero, Int.emod_eq_of_lt positive clear]
    | inr odd =>
      have set := odd_iff.mp odd
      rw [odd, Nat.cast_one, mul_one, ← Int.sub_emod_right,
        Int.emod_eq_of_lt (by omega) (by omega), sub_add_cancel]
  · rw [result, affine, second]

/-! ## Small order -/

/-- The second coordinate of two of the four points of order eight. -/
def eighth : Int := 0x7A03AC9277FDC74EC6CC392CFA53202A0F67100D760B3CBA4FD84D3D706A17C7

/-- The other solution for its square. -/
def conjugate : Nat := 0x825F0004A7EB121E710D213AA2BC52E7D64B49AC61CB6A005F6898CC856BCC3

theorem eighth_sq :
    (d : Residue) * ((eighth : Residue) ^ 2) ^ 2 + 2 * (eighth : Residue) ^ 2 = 1 := by
  have root : field (d * ((eighth * eighth) * (eighth * eighth)) + 2 * (eighth * eighth)) =
      field 1 := by
    decide
  have same := field_eq_iff.mp root
  simp only [Int.cast_add, Int.cast_mul, Int.cast_one, Int.cast_ofNat] at same
  linear_combination same

theorem conjugate_add : (d : Residue) * (conjugate + (eighth : Residue) ^ 2) = -2 := by
  have root : field (d * (conjugate + eighth * eighth)) = field (-2) := by decide
  have same := field_eq_iff.mp root
  simp only [Int.cast_add, Int.cast_mul, Int.cast_neg, Int.cast_ofNat, Int.cast_natCast] at same
  linear_combination same

/-- The coordinates of the points of order eight. -/
theorem eighth_iff (P : CurvePoint) :
    P.y ^ 2 + P.x ^ 2 = 0 ↔ P.y = eighth ∨ P.y = -eighth := by
  have on := P.on
  have e_sq := eighth_sq
  have sum := conjugate_add
  have d_eq : curve.d = (d : Residue) := rfl
  rw [Edwards.Curve.On, d_eq] at on
  rw [← sq_eq_sq_iff_eq_or_eq_neg]
  constructor
  · intro zero
    have product : (P.y ^ 2 - (eighth : Residue) ^ 2) * (d * (P.y ^ 2 - conjugate)) = 0 := by
      linear_combination (1 + d * P.y ^ 2) * zero + on - e_sq -
        (P.y ^ 2 - (eighth : Residue) ^ 2) * sum
    refine sub_eq_zero.mp ((mul_eq_zero.mp product).resolve_right ?_)
    intro other
    have square := (mul_eq_zero.mp other).resolve_left (d_eq ▸ curve.d_ne_zero)
    refine not_isSquare (n := conjugate) (by decide +kernel) (by decide +kernel) ⟨P.y, ?_⟩
    linear_combination -square
  · intro square
    have product : (P.y ^ 2 + P.x ^ 2) * (d * P.y ^ 2 + 1) = 0 := by
      linear_combination e_sq - on + (d * (P.y ^ 2 + (eighth : Residue) ^ 2) + 2) * square
    exact (mul_eq_zero.mp product).resolve_right (curve.fraction_ne_zero P.y)

/-- The second coordinates of the points whose order divides eight. -/
theorem eight_nsmul_iff (P : CurvePoint) :
    8 • P = 0 ↔ P.y = 1 ∨ P.y = -1 ∨ P.y = 0 ∨ P.y = eighth ∨ P.y = -eighth := by
  rw [Edwards.Point.eight_nsmul_eq_zero_iff, P.on.x_eq_zero_iff, or_assoc, eighth_iff]

/-- The numbers of the table. -/
theorem map_little_smallOrder :
    smallOrder.map little =
      [1, p - 1, 0, signBit, p - eighth, p - eighth + signBit, eighth, eighth + signBit] := by
  decide

/-- The table holds the encodings of the points whose order divides eight. -/
theorem isSmallOrder_encode (P : CurvePoint) : isSmallOrder (encode P) = true ↔ 8 • P = 0 := by
  have listed : isSmallOrder (encode P) = true ↔ (code P : Int) ∈ smallOrder.map little := by
    rw [isSmallOrder, List.contains_iff_mem, List.mem_map]
    constructor
    · intro member
      exact ⟨encode P, member, little_encode P⟩
    · rintro ⟨encoding, member, same⟩
      have length : ∀ encoding ∈ smallOrder, encoding.length = 32 := by decide
      rw [← (eq_encode_iff (length encoding member) P).mpr same]
      exact member
  have one : P.y = 1 ↔ (P.y.val : Int) = 1 := by
    rw [val_eq_iff (by decide), Int.cast_one]
  have minus : P.y = -1 ↔ (P.y.val : Int) = p - 1 := by
    rw [val_eq_iff (by decide), Int.cast_sub, cast_p, Int.cast_one, zero_sub]
  have zero : P.y = 0 ↔ (P.y.val : Int) = 0 := by
    rw [val_eq_iff (by decide), Int.cast_zero]
  have eight : P.y = eighth ↔ (P.y.val : Int) = eighth := by
    rw [val_eq_iff (by decide)]
  have opposite : P.y = -eighth ↔ (P.y.val : Int) = p - eighth := by
    rw [val_eq_iff (by decide), Int.cast_sub, cast_p, zero_sub]
  have even : P.y = 1 ∨ P.y = -1 → P.x.val % 2 = 0 := by
    intro unit
    rw [P.on.x_eq_zero_iff.mpr unit, ZMod.val_zero]
  have bound : (P.y.val : Int) < p := by
    rw [p_eq]
    exact Int.ofNat_lt.mpr (ZMod.val_lt P.y)
  have order : 1 < eighth ∧ eighth < p ∧ p < signBit := by decide
  have parts : (code P : Int) = P.y.val + signBit * ((P.x.val % 2 : Nat) : Int) := by
    rw [code, Nat.cast_add, Nat.cast_mul]
    rfl
  rw [listed, map_little_smallOrder, eight_nsmul_iff, parts]
  rw [one, minus] at even
  rw [one, minus, zero, eight, opposite]
  simp only [List.mem_cons, List.not_mem_nil, or_false]
  generalize p = p at *
  generalize eighth = eighth at *
  generalize signBit = signBit at *
  generalize P.y.val = y at *
  cases Nat.mod_two_eq_zero_or_one P.x.val with
  | inl clear =>
    rw [clear, Nat.cast_zero, mul_zero]
    omega
  | inr set =>
    rw [set] at even ⊢
    rw [Nat.cast_one, mul_one]
    omega

/-- The acceptable keys are the encodings of the points whose order does not divide eight. -/
theorem acceptablePublicKey_iff (publicKey : Bytes) :
    acceptablePublicKey publicKey = true ↔
      ∃ P : CurvePoint, publicKey = encode P ∧ 8 • P ≠ 0 := by
  constructor
  · intro accepted
    have length := length_of_acceptablePublicKey accepted
    rw [acceptablePublicKey, if_pos length] at accepted
    simp only [Bool.and_eq_true, Bool.not_eq_true', Option.isSome_iff_exists] at accepted
    obtain ⟨⟨checked, large⟩, decoded, found⟩ := accepted
    obtain ⟨P, same, _⟩ := exists_of_decodePoint length checked found
    refine ⟨P, same, ?_⟩
    rw [Ne, ← isSmallOrder_encode, ← same, large]
    exact Bool.false_ne_true
  · rintro ⟨P, same, large⟩
    rw [Ne, ← isSmallOrder_encode, Bool.not_eq_true] at large
    have length : (encode P).length = 32 := length_littleBytes 32 (code P)
    rw [same, acceptablePublicKey, if_pos length, canonical_encode, large, decodePoint_encode]
    rfl

/-- The root is found exactly when there is one. -/
theorem isSome_decodePoint (encoding : Bytes) :
    (decodePoint encoding).isSome = true ↔
      ∃ x : Residue, curve.On x ((little encoding).tmod signBit : Int) := by
  obtain ⟨root, noRoot⟩ := decodePoint_spec encoding
  cases found : decodePoint encoding with
  | some decoded =>
    obtain ⟨x, on, _, _⟩ := root decoded found
    exact iff_of_true rfl ⟨x, on⟩
  | none =>
    refine iff_of_false Bool.false_ne_true ?_
    rintro ⟨x, on⟩
    exact noRoot found x on

/-- The table is complete and lists nothing else. -/
theorem isSmallOrder_iff (encoding : Bytes) :
    isSmallOrder encoding = true ↔ ∃ P : CurvePoint, encoding = encode P ∧ 8 • P = 0 := by
  constructor
  · intro listed
    have points : ∀ encoding ∈ smallOrder, encoding.length = 32 ∧ canonical encoding = true ∧
        (decodePoint encoding).isSome = true := by
      decide +kernel
    obtain ⟨length, checked, some⟩ := points encoding (List.contains_iff_mem.mp listed)
    obtain ⟨decoded, found⟩ := Option.isSome_iff_exists.mp some
    obtain ⟨P, same, _⟩ := exists_of_decodePoint length checked found
    refine ⟨P, same, ?_⟩
    rw [← isSmallOrder_encode, ← same, listed]
  · rintro ⟨P, same, small⟩
    rw [same, isSmallOrder_encode]
    exact small

/-- Key acceptance is exact, with the root and the table that it rests on. -/
theorem acceptablePublicKey_exact :
    (∀ publicKey : Bytes, acceptablePublicKey publicKey = true ↔
      ∃ P : CurvePoint, publicKey = encode P ∧ 8 • P ≠ 0) ∧
    (∀ encoding : Bytes, (decodePoint encoding).isSome = true ↔
      ∃ x : Residue, curve.On x ((little encoding).tmod signBit : Int)) ∧
    ∀ encoding : Bytes, isSmallOrder encoding = true ↔
      ∃ P : CurvePoint, encoding = encode P ∧ 8 • P = 0 :=
  ⟨acceptablePublicKey_iff, isSome_decodePoint, isSmallOrder_iff⟩

end BoundedAuthority.V1.Ed25519
