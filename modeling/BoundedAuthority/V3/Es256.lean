import BoundedAuthority.V3.EcJwk
import BoundedAuthority.Wire.Der

/-!
# Forms of P-256 signatures

`lib/bounded_authority_protocol/es256.ex`.  A signature is the raw `r || s` of 64 octets
or a DER sequence of two integers.  `derToRaw` reads exactly the distinguished encodings
of the scalars in range (`derToRaw_eq_some`), `derSignature` writes one of them
(`derSignature_eq_some`), and `normalizeLowS` goes to the low of two scalars.
-/

namespace BoundedAuthority.V3.Es256

open Wire

/-! ## The raw form -/

/-- The raw form of two scalars. -/
def raw (r s : Nat) : Bytes := bigEndian 32 r ++ bigEndian 32 s

/-- `normalize_low_s/1` -/
def normalizeLowS (signature : Bytes) : Option Bytes :=
  if signature.length = 64 then
    let r := fromBigEndian (signature.take 32)
    let s := fromBigEndian (signature.drop 32)
    if 0 < r ∧ r < n ∧ 0 < s ∧ s < n then
      let lowS := if s > n / 2 then n - s else s
      some (raw r lowS)
    else none
  else none

/-! ## The distinguished encoding -/

/-- `minimal_non_negative?/1`; the integer it is asked about has an octet at least. -/
def minimalNonNegative : Bytes → Bool
  | [] => false
  | [first] => first < 0x80
  | first :: next :: _ => if first = 0 then 0x80 ≤ next else first < 0x80

/-- `der_integer/1` -/
def derInteger : Bytes → Option (Nat × Bytes)
  | tag :: length :: bytes =>
      if tag = 0x02 ∧ length.toNat ≤ bytes.length ∧ 1 ≤ length.toNat ∧ length.toNat ≤ 33 then
        let value := bytes.take length.toNat
        if minimalNonNegative value then some (fromBigEndian value, bytes.drop length.toNat)
        else none
      else none
  | _ => none

/-- `der_to_raw/1` -/
def derToRaw : Bytes → Option Bytes
  | tag :: length :: content => do
      guard (tag = 0x30 ∧ content.length = length.toNat)
      let (r, rest) ← derInteger content
      let (s, rest) ← derInteger rest
      guard (rest = [])
      guard (0 < r ∧ r < n ∧ 0 < s ∧ s < n)
      some (raw r s)
  | _ => none

/-- `trim_leading_zeros/1` -/
def trimLeadingZeros : Bytes → Bytes
  | [] => []
  | b :: rest => if b = 0 then trimLeadingZeros rest else b :: rest

/-- `der_encode_integer/1`; there is no first octet of no octets. -/
def derEncodeInteger (bytes : Bytes) : Option Bytes :=
  let minimal := trimLeadingZeros bytes
  minimal.head?.map fun first =>
    let content := if 0x80 ≤ first then 0 :: minimal else minimal
    0x02 :: UInt8.ofNat content.length :: content

/-- `der_signature/1` -/
def derSignature (signature : Bytes) : Option Bytes := do
  guard (signature.length = 64)
  let r ← derEncodeInteger (signature.take 32)
  let s ← derEncodeInteger (signature.drop 32)
  let body := r ++ s
  some (0x30 :: UInt8.ofNat body.length :: body)

/-! ## Scalars and their raw form -/

/-- A scalar other than zero. -/
def Scalar (k : Nat) : Prop := 0 < k ∧ k < n

theorem Scalar.fits {k : Nat} (h : Scalar k) : k < 256 ^ 32 :=
  Nat.lt_trans h.2 (by decide)

theorem length_raw (r s : Nat) : (raw r s).length = 64 := by simp [raw]

theorem take_raw (r s : Nat) : (raw r s).take 32 = bigEndian 32 r :=
  List.take_left' (length_bigEndian 32 r)

theorem drop_raw (r s : Nat) : (raw r s).drop 32 = bigEndian 32 s :=
  List.drop_left' (length_bigEndian 32 r)

/-- Sixty-four octets are the raw form of the numbers they hold. -/
theorem raw_fromBigEndian {signature : Bytes} (size : signature.length = 64) :
    raw (fromBigEndian (signature.take 32)) (fromBigEndian (signature.drop 32)) = signature := by
  have first : (signature.take 32).length = 32 := by simp [size]
  have second : (signature.drop 32).length = 32 := by simp [size]
  have r := bigEndian_fromBigEndian (signature.take 32)
  have s := bigEndian_fromBigEndian (signature.drop 32)
  rw [first] at r
  rw [second] at s
  rw [raw, r, s, List.take_append_drop]

/-- What the checker asks of the scalars of a raw form. -/
theorem canonicalSignature_raw {r s : Nat} (hr : Scalar r) (hs : Scalar s) :
    canonicalSignature (raw r s) = true ↔ s ≤ n / 2 := by
  have positive := hs.1
  simp only [canonicalSignature, length_raw, if_true, take_raw, drop_raw,
    fromBigEndian_bigEndian hr.fits, fromBigEndian_bigEndian hs.fits, Bool.and_eq_true,
    decide_eq_true_eq, hr.1, hr.2, positive, true_and]

/-- A canonical signature is the raw form of two scalars. -/
theorem exists_raw_of_canonical {signature : Bytes}
    (canonical : canonicalSignature signature = true) :
    ∃ r s, Scalar r ∧ Scalar s ∧ signature = raw r s := by
  rw [canonicalSignature] at canonical
  split at canonical
  next size =>
    simp only [Bool.and_eq_true, decide_eq_true_eq] at canonical
    obtain ⟨⟨⟨rPositive, rBelow⟩, sPositive⟩, sLow⟩ := canonical
    exact ⟨_, _, ⟨rPositive, rBelow⟩, ⟨sPositive, Nat.lt_of_le_of_lt sLow (by decide)⟩,
      (raw_fromBigEndian size).symm⟩
  next => cases canonical

/-- The normalizer goes to the other scalar exactly when it is the low one. -/
theorem normalizeLowS_raw {r s : Nat} (hr : Scalar r) (hs : Scalar s) :
    normalizeLowS (raw r s) = some (raw r (if s > n / 2 then n - s else s)) := by
  have range : 0 < r ∧ r < n ∧ 0 < s ∧ s < n := ⟨hr.1, hr.2, hs.1, hs.2⟩
  simp only [normalizeLowS, length_raw, if_true, take_raw, drop_raw,
    fromBigEndian_bigEndian hr.fits, fromBigEndian_bigEndian hs.fits, if_pos range]

/-- The lower of a scalar and its negative is a scalar of the lower half. -/
theorem low_scalar {s : Nat} (hs : Scalar s) :
    Scalar (if s > n / 2 then n - s else s) ∧ (if s > n / 2 then n - s else s) ≤ n / 2 := by
  obtain ⟨positive, below⟩ := hs
  have odd : n = 2 * (n / 2) + 1 := by decide
  generalize n / 2 = half at odd ⊢
  split
  next high => exact ⟨⟨by omega, by omega⟩, by omega⟩
  next low => exact ⟨⟨positive, below⟩, by omega⟩

/-! ## Integers -/

theorem minimalNonNegative_iff {content : Bytes} :
    minimalNonNegative content = true ↔ Der.Unsigned content := by
  cases content with
  | nil => simp [minimalNonNegative, Der.Unsigned]
  | cons first rest =>
      cases rest with
      | nil => simp [minimalNonNegative, Der.Unsigned]
      | cons next rest =>
          by_cases zero : first = 0
          · subst zero
            simp [minimalNonNegative, Der.Unsigned]
          · simp [minimalNonNegative, Der.Unsigned, zero]

/-- An integer is read when its element is in front and holds 33 octets at most. -/
theorem derInteger_eq_some {bytes rest : Bytes} {v : Nat} : derInteger bytes = some (v, rest) ↔
    ∃ content, Der.IntegerContent v content ∧ content.length ≤ 33 ∧
      bytes = Der.element 0x02 content ++ rest := by
  constructor
  · intro read
    match bytes with
    | [] => simp [derInteger] at read
    | [_] => simp [derInteger] at read
    | tag :: length :: bytes =>
        simp only [derInteger, Option.ite_none_right_eq_some, Option.some.injEq, Prod.mk.injEq]
          at read
        obtain ⟨⟨rfl, enough, _, small⟩, minimal, rfl, rfl⟩ := read
        have size : (bytes.take length.toNat).length = length.toNat := by simp [enough]
        refine ⟨bytes.take length.toNat,
          Der.integerContent_natCast.mpr ⟨minimalNonNegative_iff.mp minimal, rfl⟩, by omega, ?_⟩
        rw [Der.element_short (by omega), size, UInt8.ofNat_toNat, List.cons_append,
          List.cons_append, List.take_append_drop]
  · rintro ⟨content, integer, short, rfl⟩
    obtain ⟨unsigned, value⟩ := Der.integerContent_natCast.mp integer
    have some_ : 1 ≤ content.length := by
      cases content with
      | nil => exact unsigned.elim
      | cons => exact Nat.succ_le_succ (Nat.zero_le _)
    have size : (UInt8.ofNat content.length).toNat = content.length := by
      rw [UInt8.toNat_ofNat']
      omega
    rw [Der.element_short (by omega), List.cons_append, List.cons_append, derInteger]
    simp only [size, List.length_append, Nat.le_add_right, some_, short, and_self, if_true,
      List.take_left, List.drop_left, minimalNonNegative_iff.mpr unsigned, value]

/-- The integer of a scalar has 33 content octets at most. -/
theorem Scalar.length_le {k : Nat} (h : Scalar k) {content : Bytes}
    (integer : Der.IntegerContent k content) : content.length ≤ 33 := by
  obtain ⟨unsigned, value⟩ := Der.integerContent_natCast.mp integer
  exact unsigned.length_le (by rw [value]; exact h.fits)

/-- What is read is the distinguished encoding of the sequence of two scalars. -/
theorem derToRaw_eq_some {d : Bytes} {signature : Bytes} : derToRaw d = some signature ↔
    ∃ r s rContent sContent, Scalar r ∧ Scalar s ∧
      Der.IntegerContent r rContent ∧ Der.IntegerContent s sContent ∧
      d = Der.element 0x30 (Der.element 0x02 rContent ++ Der.element 0x02 sContent) ∧
      signature = raw r s := by
  have length_short : ∀ {content : Bytes}, content.length ≤ 33 →
      (Der.element 0x02 content).length = content.length + 2 := by
    intro content short
    rw [Der.element_short (by omega), List.length_cons, List.length_cons]
  constructor
  · intro read
    match d with
    | [] => simp [derToRaw] at read
    | [_] => simp [derToRaw] at read
    | tag :: length :: content =>
        simp only [derToRaw, Option.bind_eq_bind, Option.bind_eq_some_iff, guard_eq_some,
          exists_const, Prod.exists, Option.some.injEq] at read
        obtain ⟨⟨rfl, size⟩, r, rest, first, s, rest', second, rfl,
          ⟨rPositive, rBelow, sPositive, sBelow⟩, rfl⟩ := read
        obtain ⟨rContent, rInteger, rShort, rfl⟩ := derInteger_eq_some.mp first
        obtain ⟨sContent, sInteger, sShort, rfl⟩ := derInteger_eq_some.mp second
        rw [List.append_nil] at size ⊢
        have short : (Der.element 0x02 rContent ++ Der.element 0x02 sContent).length < 0x80 := by
          rw [List.length_append, length_short rShort, length_short sShort]
          omega
        refine ⟨r, s, rContent, sContent, ⟨rPositive, rBelow⟩, ⟨sPositive, sBelow⟩, rInteger,
          sInteger, ?_, rfl⟩
        rw [Der.element_short short, size, UInt8.ofNat_toNat]
  · rintro ⟨r, s, rContent, sContent, hr, hs, rInteger, sInteger, rfl, rfl⟩
    have rShort := hr.length_le rInteger
    have sShort := hs.length_le sInteger
    have short : (Der.element 0x02 rContent ++ Der.element 0x02 sContent).length < 0x80 := by
      rw [List.length_append, length_short rShort, length_short sShort]
      omega
    have size :
        (UInt8.ofNat (Der.element 0x02 rContent ++ Der.element 0x02 sContent).length).toNat =
        (Der.element 0x02 rContent ++ Der.element 0x02 sContent).length := by
      rw [UInt8.toNat_ofNat']
      omega
    have first := (@derInteger_eq_some _ (Der.element 0x02 sContent) _).mpr
      ⟨rContent, rInteger, rShort, rfl⟩
    have second := (@derInteger_eq_some _ [] _).mpr
      ⟨sContent, sInteger, sShort, (List.append_nil _).symm⟩
    rw [Der.element_short short, derToRaw]
    simp only [Option.bind_eq_bind, guard_true, Option.pure_def, Option.bind_some, size, true_and,
      first, second, hr.1, hr.2, hs.1, hs.2, and_self]

/-! ## The writer -/

theorem fromBigEndian_trimLeadingZeros (bytes : Bytes) :
    fromBigEndian (trimLeadingZeros bytes) = fromBigEndian bytes := by
  induction bytes with
  | nil => rfl
  | cons b rest ih =>
      rw [trimLeadingZeros]
      split
      next zero => rw [ih, fromBigEndian_cons, zero, UInt8.toNat_zero, Nat.zero_mul, Nat.zero_add]
      next => rfl

theorem length_trimLeadingZeros_le (bytes : Bytes) :
    (trimLeadingZeros bytes).length ≤ bytes.length := by
  induction bytes with
  | nil => exact Nat.le_refl _
  | cons b rest ih =>
      rw [trimLeadingZeros]
      split
      next => exact Nat.le_succ_of_le ih
      next => exact Nat.le_refl _

/-- What is left starts with an octet that is not zero, or nothing is. -/
theorem trimLeadingZeros_cons {bytes rest : Bytes} {b : UInt8}
    (h : trimLeadingZeros bytes = b :: rest) : b ≠ 0 := by
  induction bytes with
  | nil => cases h
  | cons c bytes ih =>
      rw [trimLeadingZeros] at h
      split at h
      next => exact ih h
      next notZero =>
        cases h
        exact notZero

/-- The integer of up to 32 octets that are not all zero is written as its element. -/
theorem derEncodeInteger_eq_some {bytes : Bytes} (short : bytes.length ≤ 32)
    (positive : 0 < fromBigEndian bytes) : ∃ content,
      Der.IntegerContent (fromBigEndian bytes) content ∧
        derEncodeInteger bytes = some (Der.element 0x02 content) := by
  have size := length_trimLeadingZeros_le bytes
  have value := fromBigEndian_trimLeadingZeros bytes
  cases trimmed : trimLeadingZeros bytes with
  | nil =>
      rw [trimmed] at value
      rw [← value] at positive
      exact absurd positive (Nat.lt_irrefl 0)
  | cons b rest =>
      have notZero := trimLeadingZeros_cons trimmed
      rw [trimmed] at size value
      rw [List.length_cons] at size
      refine ⟨if 0x80 ≤ b then 0 :: b :: rest else b :: rest,
        Der.integerContent_natCast.mpr ?_, ?_⟩
      · split
        next set =>
          refine ⟨⟨by decide, fun _ => set⟩, ?_⟩
          rw [fromBigEndian_cons, UInt8.toNat_zero, Nat.zero_mul, Nat.zero_add, value]
        next clear =>
          refine ⟨?_, value⟩
          cases rest with
          | nil => exact UInt8.not_le.mp clear
          | cons c rest => exact ⟨UInt8.not_le.mp clear, fun zero => absurd zero notZero⟩
      · simp only [derEncodeInteger, trimmed, List.head?_cons, Option.map_some]
        split
        next =>
          rw [Der.element_short (by simp only [List.length_cons]; omega)]
        next =>
          rw [Der.element_short (by simp only [List.length_cons]; omega)]

/-- The writer's encoding of two scalars is read back. -/
theorem derSignature_raw {r s : Nat} (hr : Scalar r) (hs : Scalar s) :
    ∃ der, derSignature (raw r s) = some der ∧ derToRaw der = some (raw r s) := by
  have value : ∀ {k : Nat}, Scalar k → fromBigEndian (bigEndian 32 k) = k :=
    fun h => fromBigEndian_bigEndian h.fits
  have size : ∀ k, (bigEndian 32 k).length ≤ 32 := fun k => (length_bigEndian 32 k).le
  obtain ⟨rContent, rInteger, rWritten⟩ :=
    derEncodeInteger_eq_some (size r) (by rw [value hr]; exact hr.1)
  obtain ⟨sContent, sInteger, sWritten⟩ :=
    derEncodeInteger_eq_some (size s) (by rw [value hs]; exact hs.1)
  rw [value hr] at rInteger
  rw [value hs] at sInteger
  refine ⟨_, ?_, derToRaw_eq_some.mpr ⟨r, s, rContent, sContent, hr, hs, rInteger, sInteger, rfl,
    rfl⟩⟩
  have rShort := hr.length_le rInteger
  have sShort := hs.length_le sInteger
  have short : (Der.element 0x02 rContent ++ Der.element 0x02 sContent).length < 0x80 := by
    rw [Der.element_short (by omega), Der.element_short (by omega)]
    simp only [List.length_append, List.length_cons]
    omega
  simp only [derSignature, length_raw, guard_true, Option.pure_def, Option.bind_eq_bind,
    Option.bind_some, take_raw, drop_raw, rWritten, sWritten, Der.element_short short]

/-- The reader of the distinguished encoding accepts exactly the minimal sequence of two
minimal integers in range, and returns their raw form; it reads back what is written of a
canonical signature; and its low form is canonical, is its own low form, and differs only
in the second scalar, which is the negative of one above the half. -/
theorem signature_forms (d signature : Bytes) :
    (derToRaw d = some signature ↔
      ∃ r s rContent sContent, Scalar r ∧ Scalar s ∧
        Der.IntegerContent r rContent ∧ Der.IntegerContent s sContent ∧
        d = Der.element 0x30 (Der.element 0x02 rContent ++ Der.element 0x02 sContent) ∧
        signature = bigEndian 32 r ++ bigEndian 32 s) ∧
    (canonicalSignature signature = true →
      ∃ der, derSignature signature = some der ∧ derToRaw der = some signature) ∧
    (derToRaw d = some signature →
      ∃ r s, signature = bigEndian 32 r ++ bigEndian 32 s ∧ Scalar r ∧ Scalar s ∧
        ∃ low, normalizeLowS signature = some low ∧ canonicalSignature low = true ∧
          normalizeLowS low = some low ∧
          low = bigEndian 32 r ++ bigEndian 32 (if s > n / 2 then n - s else s)) := by
  refine ⟨derToRaw_eq_some, fun canonical => ?_, fun read => ?_⟩
  · obtain ⟨r, s, hr, hs, rfl⟩ := exists_raw_of_canonical canonical
    exact derSignature_raw hr hs
  · obtain ⟨r, s, _, _, hr, hs, _, _, _, rfl⟩ := derToRaw_eq_some.mp read
    obtain ⟨lowScalar, low⟩ := low_scalar hs
    refine ⟨r, s, rfl, hr, hs, _, normalizeLowS_raw hr hs,
      (canonicalSignature_raw hr lowScalar).mpr low, ?_, rfl⟩
    rw [normalizeLowS_raw hr lowScalar, if_neg (Nat.not_lt.mpr low)]

/-- The encoding of two ones, and of its raw form. -/
theorem signature_forms_one :
    (∃ der, derSignature (raw 1 1) = some der ∧ derToRaw der = some (raw 1 1)) ∧
    ∃ low, normalizeLowS (raw 1 1) = some low ∧ canonicalSignature low = true := by
  have forms := signature_forms [0x30, 6, 0x02, 1, 1, 0x02, 1, 1] (raw 1 1)
  refine ⟨forms.2.1 (by decide), ?_⟩
  obtain ⟨_, _, _, _, _, low, normalized, canonical, _⟩ := forms.2.2 (by decide)
  exact ⟨low, normalized, canonical⟩

end BoundedAuthority.V3.Es256
