import BoundedAuthority.Go.Bounds
import BoundedAuthority.V1.JsonScan
import Mathlib.Algebra.Order.Field.Rat

/-!
# Number lexemes in the Go verifier

`parseNumber` of `sdks/go/json.go`.

The scan moves over one lexeme.  An integer is compared digit by digit with the
bound before its digits are added up in 64 bits, and any other lexeme is compared
as a fraction before it is rounded.  So a number is read exactly when its lexeme is
within the bounds and the reader of fractions takes it, whatever it is rounded to
(`parseNumber_eq_some`).
-/

namespace BoundedAuthority.Go

open Wire V1

/-- The functions of the standard library that take a whole lexeme. -/
structure Numerals where
  /-- `new(big.Rat).SetString` -/
  setString : Bytes → Option ℚ
  /-- `strconv.ParseFloat` -/
  parseFloat : Bytes → Option F64

/-! ## Scanning -/

/-- The loop that passes the digits in front. -/
def skipDigits (bs : Bytes) : Bytes := bs.dropWhile isDigit

/-- One digit at least, and those behind it. -/
def someDigits : Bytes → Option Bytes
  | [] => none
  | c :: rest => if isDigit c then some (skipDigits rest) else none

/-- An optional minus sign. -/
def skipMinus : Bytes → Bytes
  | [] => []
  | c :: rest => if c = 0x2D then rest else c :: rest

/-- `int part: 0 | [1-9][0-9]*` -/
def intPart : Bytes → Option Bytes
  | [] => none
  | c :: rest =>
      if c = 0x30 then some rest
      else if within 0x31 0x39 c then some (skipDigits rest)
      else none

/-- An optional fraction, and whether it is there. -/
def fracPart : Bytes → Option (Bool × Bytes)
  | [] => some (false, [])
  | c :: rest => if c = 0x2E then (someDigits rest).map (true, ·) else some (false, c :: rest)

/-- An optional sign of an exponent. -/
def skipSign : Bytes → Bytes
  | [] => []
  | c :: rest => if c = 0x2B ∨ c = 0x2D then rest else c :: rest

/-- An optional exponent, and whether the lexeme is a float by now. -/
def expPart (isFloat : Bool) : Bytes → Option (Bool × Bytes)
  | [] => some (isFloat, [])
  | c :: rest =>
      if c = 0x65 ∨ c = 0x45 then (someDigits (skipSign rest)).map (true, ·)
      else some (isFloat, c :: rest)

/-- The scan of `parseNumber`: whether the lexeme is a float, and what is behind it. -/
def scanNumber (bs : Bytes) : Option (Bool × Bytes) := do
  let rest ← intPart (skipMinus bs)
  let (isFloat, rest) ← fracPart rest
  expPart isFloat rest

/-! ## Reading -/

/-- The loop of `cmpDigits` over strings of one length. -/
def cmpLoop : (a b : Bytes) → Int
  | x :: a, y :: b => if x ≠ y then if x > y then 1 else -1 else cmpLoop a b
  | _, _ => 0

/-- `cmpDigits` -/
def cmpDigits (a b : Bytes) : Int :=
  if a.length ≠ b.length then if a.length > b.length then 1 else -1 else cmpLoop a b

/-- The arithmetic of `int64`. -/
def int64 (n : Int) : Int := n.bmod (2 ^ 64)

/-- The loop of `parseNumber` over an integer lexeme. -/
def accumulate : (v : Int) → (lexeme : Bytes) → Int
  | v, [] => v
  | v, c :: lexeme =>
      if c = 0x2D then accumulate v lexeme
      else accumulate (int64 (int64 (v * 10) + Decimal.digitValue c)) lexeme

/-- `parseNumber` of an integer lexeme. -/
def parseInteger (b : Bounds) (lexeme : Bytes) : Option JsonValue := do
  let digits := if lexeme.head? = some 0x2D then lexeme.drop 1 else lexeme
  guard ¬(cmpDigits digits (Decimal.ofNat (b .integerMagnitude)) > 0)
  let v := accumulate 0 lexeme
  some (.integer (if lexeme.head? = some 0x2D then int64 (-v) else v))

/-- `parseNumber` of a float lexeme. -/
def parseFraction (numerals : Numerals) (b : Bounds) (lexeme : Bytes) : Option JsonValue := do
  let r ← numerals.setString lexeme
  guard (|r| ≤ b .floatMagnitude)
  let f ← numerals.parseFloat lexeme
  some (.float f)

/-- `parseNumber` of a lexeme that is not too long. -/
def parseLexeme (numerals : Numerals) (b : Bounds) (isFloat : Bool) (lexeme : Bytes) :
    Option JsonValue :=
  if isFloat then parseFraction numerals b lexeme else parseInteger b lexeme

/-- `parseNumber` -/
def parseNumber (numerals : Numerals) (b : Bounds) (bs : Bytes) : Option (JsonValue × Bytes) := do
  let (isFloat, rest) ← scanNumber bs
  let lexeme := bs.take (bs.length - rest.length)
  guard (lexeme.length ≤ b .numberLexemeBytes)
  let v ← parseLexeme numerals b isFloat lexeme
  some (v, rest)

/-! ## The scan is maximal munch -/

theorem skipMinus_eq (bs : Bytes) : skipMinus bs = (Lexeme.takeMinus bs).2 := by
  cases bs with
  | nil => rfl
  | cons c rest =>
      rw [skipMinus, Lexeme.takeMinus_cons]
      split <;> rfl

theorem skipSign_eq (bs : Bytes) : skipSign bs = (Lexeme.takeSign bs).2 := by
  cases bs with
  | nil => rfl
  | cons c rest => rw [skipSign, Lexeme.takeSign_cons]

theorem someDigits_eq (bs : Bytes) : someDigits bs = (takeDigits bs).map Prod.snd := by
  cases bs with
  | nil => rfl
  | cons c rest => rw [someDigits, Lexeme.takeDigits_cons, skipDigits]

theorem intPart_eq (bs : Bytes) : intPart bs = (Lexeme.takeInteger bs).map Prod.snd := by
  cases bs with
  | nil => rfl
  | cons c rest => rw [intPart, Lexeme.takeInteger_cons, skipDigits]

theorem fracPart_eq (bs : Bytes) :
    fracPart bs = (Lexeme.takeFraction bs).map fun (f, rest) => (f.isSome, rest) := by
  cases bs with
  | nil => rfl
  | cons c rest =>
      rw [fracPart, Lexeme.takeFraction_cons]
      split
      next => rw [someDigits_eq, Option.map_map, Option.map_map]; rfl
      next => rfl

theorem expPart_eq (isFloat : Bool) (bs : Bytes) : expPart isFloat bs =
    (Lexeme.takeExponent bs).map fun (e, rest) => (isFloat || e.isSome, rest) := by
  cases bs with
  | nil => simp [expPart, Lexeme.takeExponent]
  | cons c rest =>
      rw [expPart, Lexeme.takeExponent]
      split
      next =>
        rw [someDigits_eq, skipSign_eq, Option.map_map, Option.map_map]
        congr 1
        simp [Function.comp_def]
      next => simp

/-- The scan stops where the production ends, and sees what kind of lexeme it is. -/
theorem scanNumber_eq (bs : Bytes) :
    scanNumber bs = (Lexeme.parse bs).map fun (x, rest) => (x.isFloat, rest) := by
  rw [Lexeme.parse_scan, scanNumber, skipMinus_eq, intPart_eq]
  cases Lexeme.takeInteger (Lexeme.takeMinus bs).2 with
  | none => rfl
  | some integer =>
      obtain ⟨ds, rest⟩ := integer
      simp only [Option.map_some, Option.bind_eq_bind, Option.bind_some, fracPart_eq]
      cases Lexeme.takeFraction rest with
      | none => rfl
      | some fraction => exact expPart_eq _ _

/-! ## Integers -/

theorem cmpLoop_pos {a b : Bytes} (ha : ∀ c ∈ a, isDigit c = true) (hb : ∀ c ∈ b, isDigit c = true)
    (length : a.length = b.length) : 0 < cmpLoop a b ↔ leBytes a b = false := by
  induction a generalizing b with
  | nil =>
      obtain rfl : b = [] := List.length_eq_zero_iff.mp length.symm
      simp [cmpLoop, leBytes]
  | cons x a ih =>
      cases b with
      | nil => cases length
      | cons y b =>
          have tail := ih (fun c hc => ha c (List.mem_cons_of_mem _ hc))
            (fun c hc => hb c (List.mem_cons_of_mem _ hc)) (Nat.succ.inj length)
          rw [cmpLoop, leBytes]
          by_cases less : x < y
          · have greater : ¬x > y := UInt8.lt_asymm less
            simp [less, UInt8.ne_of_lt less, greater]
          · by_cases more : x > y
            · simp [less, more, (UInt8.ne_of_lt more).symm]
            · obtain rfl := UInt8.le_antisymm (UInt8.not_lt.mp more) (UInt8.not_lt.mp less)
              simpa using tail

/-- The comparison of digit strings is that of the numbers they spell. -/
theorem cmpDigits_ofNat (m n : Nat) :
    0 < cmpDigits (Decimal.ofNat m) (Decimal.ofNat n) ↔ n < m := by
  have high := Decimal.lt_pow_length_ofNat
  have power : ∀ {i j : Nat}, i ≤ j → 10 ^ i ≤ 10 ^ j := Nat.pow_le_pow_right (by decide)
  unfold cmpDigits
  rcases lt_trichotomy (Decimal.ofNat m).length (Decimal.ofNat n).length with short | same | long
  · have pos : 0 < n := by
      by_contra zero
      obtain rfl : n = 0 := by omega
      have := List.length_pos_of_ne_nil (Decimal.ofNat_ne_nil m)
      have one : (Decimal.ofNat 0).length = 1 := rfl
      omega
    have low := Decimal.pow_le_of_ofNat pos
    have bound := power (show (Decimal.ofNat m).length ≤ (Decimal.ofNat n).length - 1 by omega)
    have := high m
    rw [if_pos short.ne, if_neg short.asymm]
    omega
  · rw [if_neg (not_not_intro same), cmpLoop_pos (Decimal.ofNat_digits m)
      (Decimal.ofNat_digits n) same, ← Decimal.value_lt_iff (Decimal.ofNat_digits n)
      (Decimal.ofNat_digits m) same.symm, Decimal.value_ofNat, Decimal.value_ofNat]
  · have pos : 0 < m := by
      by_contra zero
      obtain rfl : m = 0 := by omega
      have := List.length_pos_of_ne_nil (Decimal.ofNat_ne_nil n)
      have one : (Decimal.ofNat 0).length = 1 := rfl
      omega
    have low := Decimal.pow_le_of_ofNat pos
    have bound := power (show (Decimal.ofNat n).length ≤ (Decimal.ofNat m).length - 1 by omega)
    have := high n
    rw [if_pos long.ne', if_pos long]
    omega

theorem int64_eq {n : Int} (low : -2 ^ 63 ≤ n) (high : n < 2 ^ 63) : int64 n = n :=
  Int.bmod_eq_of_le (by omega) (by omega)

/-- Digits that stay below the range of `int64` are added up exactly. -/
theorem accumulate_digits {digits : Bytes} (h : ∀ c ∈ digits, isDigit c = true) {v : Nat}
    (small : v * 10 ^ digits.length + Decimal.value digits < 2 ^ 63) :
    accumulate v digits = ((v * 10 ^ digits.length + Decimal.value digits : Nat) : Int) := by
  induction digits generalizing v with
  | nil => simp [accumulate]
  | cons c digits ih =>
      obtain ⟨digit, later⟩ := List.forall_mem_cons.mp h
      have total : v * 10 ^ (c :: digits).length + Decimal.value (c :: digits) =
          (v * 10 + Decimal.digitValue c) * 10 ^ digits.length + Decimal.value digits := by
        rw [Decimal.value_cons, List.length_cons, pow_succ]
        ring
      rw [total] at small ⊢
      have least : v * 10 + Decimal.digitValue c ≤
          (v * 10 + Decimal.digitValue c) * 10 ^ digits.length + Decimal.value digits :=
        (Nat.le_mul_of_pos_right _ (by positivity)).trans (Nat.le_add_right _ _)
      have noMinus : c ≠ 0x2D := by
        rintro rfl
        cases digit
      have product : int64 ((v : Int) * 10) = v * 10 := int64_eq (by omega) (by omega)
      have sum : int64 ((v : Int) * 10 + Decimal.digitValue c) =
          ((v * 10 + Decimal.digitValue c : Nat) : Int) := by
        rw [int64_eq (by omega) (by omega)]
        push_cast
        rfl
      rw [accumulate, if_neg noMinus, product, sum, ih later small]

variable {b : Bounds} {x : Lexeme}

/-- An integer lexeme is read exactly when its magnitude is within the bound. -/
theorem parseInteger_eq_some (integer : x.isFloat = false) {v : JsonValue} :
    parseInteger b x.render = some v ↔ x.AtMost (b .integerMagnitude) ∧ x.value? = some v := by
  have tight : b .integerMagnitude ≤ 9007199254740991 := b.tightens .integerMagnitude
  have bytes := Decimal.ofNat_value x.integer.digits x.integer.nonempty x.noLeadingZero
  have minus := Lexeme.head_render x
  have render : x.render = (if x.negative then [0x2D] else []) ++ x.integer.bytes := by
    rw [Lexeme.render, Lexeme.renderUnsigned_integer integer]
  have digits : (if x.render.head? = some 0x2D then x.render.drop 1 else x.render) =
      Decimal.ofNat x.coefficient := by
    rw [Lexeme.coefficient_integer integer, bytes, if_congr minus rfl rfl, render]
    cases x.negative <;> rfl
  have sum : x.coefficient ≤ b .integerMagnitude → accumulate 0 x.render = x.coefficient := by
    intro small
    rw [Lexeme.coefficient_integer integer] at small ⊢
    have exact_ := accumulate_digits x.integer.digits (v := 0) (by omega)
    rw [render]
    cases negative : x.negative <;> simpa [accumulate] using exact_
  rw [parseInteger, digits, Lexeme.atMost_integer integer, Lexeme.value_integer integer]
  simp only [gt_iff_lt, cmpDigits_ofNat, Nat.not_lt, Option.bind_eq_bind, guard_bind_eq_some,
    Option.some.injEq, minus]
  refine and_congr_right fun small => ?_
  rw [sum small]
  cases x.negative with
  | false => rfl
  | true => rw [if_pos rfl, if_pos rfl, int64_eq (by omega) (by omega)]

/-! ## Fractions -/

/-- The number a lexeme spells. -/
def rational (x : Lexeme) : ℚ := (if x.negative then -1 else 1) * x.coefficient * 10 ^ x.scale

/-- What the readers of the standard library do with a lexeme that gets to them.  A
fraction is exact where it is taken, and it is taken unless its exponent is enormous:
`SetString` refuses to multiply out more than a million powers of ten. -/
structure Numerals.Sound (numerals : Numerals) : Prop where
  taken : ∀ (x : Lexeme) (r : ℚ), numerals.setString x.render = some r → r = rational x
  ordinary : ∀ x : Lexeme, x.render.length ≤ Bounds.maximum .numberLexemeBytes →
    x.scale.natAbs ≤ 1000000 → (numerals.setString x.render).isSome = true
  nearest : ∀ x : Lexeme, x.render.length ≤ Bounds.maximum .numberLexemeBytes →
    numerals.parseFloat x.render = F64.ofDecimal x.negative x.coefficient x.scale

/-- Readers that take every lexeme. -/
structure Numerals.Exact (numerals : Numerals) : Prop where
  setString : ∀ x : Lexeme, numerals.setString x.render = some (rational x)
  parseFloat : ∀ x : Lexeme,
    numerals.parseFloat x.render = F64.ofDecimal x.negative x.coefficient x.scale

/-- A lexeme is taken, if it gets to the reader of fractions at all. -/
def Numerals.Takes (numerals : Numerals) (x : Lexeme) : Prop :=
  x.isFloat = true → (numerals.setString x.render).isSome = true

theorem Numerals.Exact.sound {numerals : Numerals} (exact_ : numerals.Exact) : numerals.Sound where
  taken := fun x r found => Option.some.inj (found.symm.trans (exact_.setString x))
  ordinary := fun x _ _ => by rw [exact_.setString, Option.isSome_some]
  nearest := fun x _ => exact_.parseFloat x

theorem Numerals.Exact.takes {numerals : Numerals} (exact_ : numerals.Exact) (x : Lexeme) :
    numerals.Takes x := fun _ => by rw [exact_.setString, Option.isSome_some]

/-- The comparison of fractions is that of decimals. -/
theorem rational_abs_le {max : Nat} : |rational x| ≤ max ↔ x.AtMost max := by
  have sign : |(if x.negative then -1 else 1 : ℚ)| = 1 := by cases x.negative <;> simp
  have power : (0 : ℚ) < 10 ^ (-x.scale).toNat := by positivity
  have split : (10 : ℚ) ^ x.scale * 10 ^ (-x.scale).toNat = 10 ^ x.scale.toNat := by
    rw [← zpow_natCast, ← zpow_natCast, ← zpow_add₀ (by norm_num)]
    congr 1
    omega
  have scaled : |rational x| * 10 ^ (-x.scale).toNat = x.coefficient * 10 ^ x.scale.toNat := by
    rw [rational, abs_mul, abs_mul, sign, Nat.abs_cast, abs_of_pos (by positivity), one_mul,
      mul_assoc, split]
  rw [← mul_le_mul_iff_of_pos_right power, scaled, Lexeme.AtMost, Decimal.AtMost]
  exact_mod_cast Iff.rfl

/-- A float lexeme is read exactly when it is taken and its magnitude is within the bound:
rounding it can neither fail nor decide. -/
theorem parseFraction_eq_some {numerals : Numerals} (sound : numerals.Sound)
    (float : x.isFloat = true) (size : x.render.length ≤ b .numberLexemeBytes) {v : JsonValue} :
    parseFraction numerals b x.render = some v ↔
      x.AtMost (b .floatMagnitude) ∧ numerals.Takes x ∧ x.value? = some v := by
  have nearest := sound.nearest x (size.trans (b.tightens .numberLexemeBytes))
  simp only [parseFraction, nearest, Option.bind_eq_bind, Option.bind_eq_some_iff, guard_eq_some,
    exists_const, Lexeme.value?, float, if_true, Option.map_eq_some_iff, Option.some.injEq,
    Numerals.Takes, forall_const, Option.isSome_iff_exists]
  constructor
  · rintro ⟨r, taken, small, value⟩
    rw [sound.taken x r taken, rational_abs_le] at small
    exact ⟨small, ⟨r, taken⟩, value⟩
  · rintro ⟨small, ⟨r, taken⟩, value⟩
    rw [← rational_abs_le, ← sound.taken x r taken] at small
    exact ⟨r, taken, small, value⟩

theorem parseLexeme_eq_some {numerals : Numerals} (sound : numerals.Sound)
    (size : x.render.length ≤ b .numberLexemeBytes) {v : JsonValue} :
    parseLexeme numerals b x.isFloat x.render = some v ↔
      x.AtMost (if x.isFloat then b .floatMagnitude else b .integerMagnitude) ∧
        numerals.Takes x ∧ x.value? = some v := by
  cases float : x.isFloat with
  | true => exact parseFraction_eq_some sound float size
  | false =>
      have takes : numerals.Takes x := fun isFloat => absurd (float.symm.trans isFloat) (by decide)
      rw [and_iff_right takes]
      exact parseInteger_eq_some float

/-- A lexeme that is within the bounds and taken. -/
structure Numerals.Reads (numerals : Numerals) (b : Bounds) (x : Lexeme) : Prop where
  bounded : Json.LexemeWithin b x
  takes : numerals.Takes x

/-- A number is read exactly when a lexeme is in front that is within the bounds and taken. -/
theorem parseNumber_eq_some {numerals : Numerals} (sound : numerals.Sound) {bs rest : Bytes}
    {v : JsonValue} : parseNumber numerals b bs = some (v, rest) ↔
      ∃ x, Lexeme.parse bs = some (x, rest) ∧ numerals.Reads b x ∧ x.value? = some v := by
  rw [parseNumber, scanNumber_eq]
  cases read : Lexeme.parse bs with
  | none => simp
  | some lexeme =>
      obtain ⟨x, rest'⟩ := lexeme
      have whole : bs.take (bs.length - rest'.length) = x.render := by
        rw [Lexeme.eq_of_parse read, List.length_append, Nat.add_sub_cancel, List.take_left]
      simp only [Option.map_some, Option.bind_eq_bind, Option.bind_some, whole,
        Option.bind_eq_some_iff, guard_eq_some, exists_const, Option.some.injEq, Prod.mk.injEq]
      constructor
      · rintro ⟨size, v', parsed, rfl, rfl⟩
        obtain ⟨magnitude, takes, value⟩ := (parseLexeme_eq_some sound size).mp parsed
        exact ⟨x, ⟨rfl, rfl⟩, ⟨⟨size, magnitude⟩, takes⟩, value⟩
      · rintro ⟨_, ⟨rfl, rfl⟩, ⟨⟨size, magnitude⟩, takes⟩, value⟩
        exact ⟨size, v, (parseLexeme_eq_some sound size).mpr ⟨magnitude, takes, value⟩, rfl, rfl⟩

end BoundedAuthority.Go
