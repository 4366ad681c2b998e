import BoundedAuthority.Python.Outcome
import BoundedAuthority.V1.JsonScan

/-!
# Numbers in the JSON decoder of the Python verifier

`sdks/python/src/bounded_authority_verifier/json_alg.py`.

The lexeme is scanned over the bytes, then its magnitude is compared by digit counts
and by the leading digits.  The comparison is exact (`lexemeMagnitudeWithin_render`),
but `_parse_number` makes it against the module's own `MAX_INT` and `MAX_FLOAT` and
never against the bounds it is given.
-/

namespace BoundedAuthority.Python

open Wire V1

/-- `MAX_INT` -/
def maxInt : Nat := 9007199254740991

/-- `MAX_FLOAT` -/
def maxFloat : Nat := 9007199254740991

/-! ## Scanning -/

/-- The loops over digits. -/
def whileDigits (bs : Bytes) : Bytes := bs.dropWhile isDigit

/-- One digit at least, and the loop over those behind it. -/
def someDigits : Bytes → Option Bytes
  | [] => none
  | c :: rest => if isDigit c then some (whileDigits (c :: rest)) else none

/-- An optional minus sign. -/
def scanMinus : Bytes → Bytes
  | [] => []
  | c :: rest => if c = 0x2D then rest else c :: rest

/-- `Integer part: 0 or [1-9][0-9]*` -/
def scanInteger : Bytes → Option Bytes
  | [] => none
  | c :: rest =>
      if c = 0x30 then some rest
      else if within 0x31 0x39 c then some (whileDigits rest)
      else none

/-- An optional fraction, and whether it is there. -/
def scanFraction : Bytes → Option (Bool × Bytes)
  | [] => some (false, [])
  | c :: rest => if c = 0x2E then (someDigits rest).map (true, ·) else some (false, c :: rest)

/-- An optional sign of an exponent. -/
def scanSign : Bytes → Bytes
  | [] => []
  | c :: rest => if c = 0x2B ∨ c = 0x2D then rest else c :: rest

/-- An optional exponent, and whether the lexeme is a float by now. -/
def scanExponent (isFloat : Bool) : Bytes → Option (Bool × Bytes)
  | [] => some (isFloat, [])
  | c :: rest =>
      if c = 0x65 ∨ c = 0x45 then (someDigits (scanSign rest)).map (true, ·)
      else some (isFloat, c :: rest)

/-- The scan of `_parse_number`: whether the lexeme is a float, and what is behind it. -/
def scanNumber (bs : Bytes) : Option (Bool × Bytes) := do
  let rest ← scanInteger (scanMinus bs)
  let (isFloat, rest) ← scanFraction rest
  scanExponent isFloat rest

/-! ## Magnitudes -/

/-- `sys.int_info.default_max_str_digits` -/
def maxStrDigits : Nat := 4300

/-- `int(text)` of digits: any other text is a `ValueError`, and so are too many digits. -/
def natural (digits : Bytes) : Outcome Nat :=
  if digits ≠ [] ∧ digits.all isDigit ∧ digits.length ≤ maxStrDigits then
    .ok (Decimal.value digits)
  else raise

/-- `int(text)` of an optional sign and digits. -/
def int : Bytes → Outcome Int
  | [] => raise
  | c :: rest =>
      if c = 0x2D then (natural rest).map fun n => -Int.ofNat n
      else if c = 0x2B then (natural rest).map Int.ofNat
      else (natural (c :: rest)).map Int.ofNat

/-- The sign is cut off. -/
def unsignedText : Bytes → Bytes
  | [] => []
  | c :: rest => if c = 0x2D ∨ c = 0x2B then rest else c :: rest

/-- The mantissa and the exponent: `find` of `e`, and of `E` where there is none. -/
def splitExponent (text : Bytes) : Outcome (Bytes × Int) :=
  match cut [0x65] text with
  | some (mantissa, exponent) => (int exponent).map (mantissa, ·)
  | none =>
      match cut [0x45] text with
      | some (mantissa, exponent) => (int exponent).map (mantissa, ·)
      | none => .ok (text, 0)

/-- `mantissa.split(".", 1)` -/
def splitPoint (mantissa : Bytes) : Bytes × Bytes := (cut [0x2E] mantissa).getD (mantissa, [])

/-- The comparison at the boundary: strings are compared by their first difference. -/
def compareDigits (digits maximumDigits : Bytes) : Bool :=
  let maximumLength := maximumDigits.length
  let (integerPart, fractionalPart) :=
    if digits.length ≥ maximumLength then
      (digits.take maximumLength, digits.drop maximumLength)
    else
      (digits ++ List.replicate (maximumLength - digits.length) 0x30, [])
  !leBytes maximumDigits integerPart ||
    (integerPart = maximumDigits && (fractionalPart = [] || fractionalPart.all (· = 0x30)))

/-- `_lexeme_magnitude_within` -/
def lexemeMagnitudeWithin (text : Bytes) (maximum : Nat) : Outcome Bool := do
  let (mantissa, exponent) ← splitExponent (unsignedText text)
  let (integerDigits, fractionDigits) := splitPoint mantissa
  let digits := (integerDigits ++ fractionDigits).dropWhile (· = 0x30)
  if digits = [] then pure true
  else
    let maximumDigits := Decimal.ofNat maximum
    let integerLength : Int := digits.length + exponent - fractionDigits.length
    if integerLength < maximumDigits.length then pure true
    else if integerLength > maximumDigits.length then pure false
    else pure (compareDigits digits maximumDigits)

/-! ## Values -/

/-- The double nearest to a lexeme; `none` is infinity. -/
def nearest (x : Lexeme) : Option F64 := F64.ofDecimal x.negative x.coefficient x.scale

/-- `float(text)` -/
def float (text : Bytes) : Outcome (Option F64) :=
  match Lexeme.parse text with
  | some (x, []) => .ok (nearest x)
  | _ => raise

/-- `_parse_number` of a lexeme that is not too long. -/
def parseLexeme (isFloat : Bool) (text : Bytes) : Outcome JsonValue :=
  if isFloat then do
    let within ← lexemeMagnitudeWithin text maxFloat
    require (within = true)
    let n ← float text
    (expect n).map .float
  else do
    let within ← lexemeMagnitudeWithin text maxInt
    require (within = true)
    (int text).map .integer

/-- `_parse_number` -/
def parseNumber (b : Bounds) (bs : Bytes) : Outcome (JsonValue × Bytes) := do
  let (isFloat, rest) ← expect (scanNumber bs)
  let lexeme := bs.take (bs.length - rest.length)
  require ¬(lexeme.length > b .numberLexemeBytes)
  let v ← parseLexeme isFloat lexeme
  pure (v, rest)

/-! ## The scan is maximal munch -/

theorem scanMinus_eq (bs : Bytes) : scanMinus bs = (Lexeme.takeMinus bs).2 := by
  cases bs with
  | nil => rfl
  | cons c rest =>
      rw [scanMinus, Lexeme.takeMinus_cons]
      split <;> rfl

theorem scanSign_eq (bs : Bytes) : scanSign bs = (Lexeme.takeSign bs).2 := by
  cases bs with
  | nil => rfl
  | cons c rest => rw [scanSign, Lexeme.takeSign_cons]

theorem someDigits_eq (bs : Bytes) : someDigits bs = (takeDigits bs).map Prod.snd := by
  cases bs with
  | nil => rfl
  | cons c rest =>
      rw [someDigits, Lexeme.takeDigits_cons]
      cases digit : isDigit c with
      | false => rfl
      | true => rw [whileDigits, List.dropWhile_cons_of_pos digit]

theorem scanInteger_eq (bs : Bytes) : scanInteger bs = (Lexeme.takeInteger bs).map Prod.snd := by
  cases bs with
  | nil => rfl
  | cons c rest => rw [scanInteger, Lexeme.takeInteger_cons, whileDigits]

theorem scanFraction_eq (bs : Bytes) :
    scanFraction bs = (Lexeme.takeFraction bs).map fun (f, rest) => (f.isSome, rest) := by
  cases bs with
  | nil => rfl
  | cons c rest =>
      rw [scanFraction, Lexeme.takeFraction_cons]
      split
      next => rw [someDigits_eq, Option.map_map, Option.map_map]; rfl
      next => rfl

theorem scanExponent_eq (isFloat : Bool) (bs : Bytes) : scanExponent isFloat bs =
    (Lexeme.takeExponent bs).map fun (e, rest) => (isFloat || e.isSome, rest) := by
  cases bs with
  | nil => simp [scanExponent, Lexeme.takeExponent]
  | cons c rest =>
      rw [scanExponent, Lexeme.takeExponent]
      split
      next =>
        rw [someDigits_eq, scanSign_eq, Option.map_map, Option.map_map]
        congr 1
        simp [Function.comp_def]
      next => simp

/-- The scan stops where the production ends, and sees what kind of lexeme it is. -/
theorem scanNumber_eq (bs : Bytes) :
    scanNumber bs = (Lexeme.parse bs).map fun (x, rest) => (x.isFloat, rest) := by
  rw [Lexeme.parse_scan, scanNumber, scanMinus_eq, scanInteger_eq]
  cases Lexeme.takeInteger (Lexeme.takeMinus bs).2 with
  | none => rfl
  | some integer =>
      obtain ⟨ds, rest⟩ := integer
      simp only [Option.map_some, Option.bind_eq_bind, Option.bind_some, scanFraction_eq]
      cases Lexeme.takeFraction rest with
      | none => rfl
      | some fraction => exact scanExponent_eq _ _

/-! ## The comparison is exact -/

variable {x : Lexeme}

theorem natural_digits {ds : Digits} (short : ds.bytes.length ≤ maxStrDigits) :
    natural ds.bytes = .ok (Decimal.value ds.bytes) := by
  rw [natural, if_pos ⟨ds.nonempty, List.all_eq_true.mpr ds.digits, short⟩]

theorem digits_cons (ds : Digits) : ∃ b rest, ds.bytes = b :: rest ∧ isDigit b = true := by
  obtain ⟨b, rest, shape⟩ := List.exists_cons_of_ne_nil ds.nonempty
  exact ⟨b, rest, shape, ds.digits b (by simp [shape])⟩

set_option maxRecDepth 4096 in
/-- Digits and the bytes of a lexeme that are none. -/
theorem ne_of_digit {b : UInt8} (digit : isDigit b = true) :
    b ≠ 0x2D ∧ b ≠ 0x2B ∧ b ≠ 0x2E ∧ b ≠ 0x65 ∧ b ≠ 0x45 := by
  revert digit
  exact byte_forall (P := fun b => isDigit b = true →
    b ≠ 0x2D ∧ b ≠ 0x2B ∧ b ≠ 0x2E ∧ b ≠ 0x65 ∧ b ≠ 0x45) (by decide) b

/-- Digits without a sign are read as they are. -/
theorem int_digits {ds : Digits} (short : ds.bytes.length ≤ maxStrDigits) :
    int ds.bytes = .ok (Decimal.value ds.bytes : Int) := by
  obtain ⟨b, rest, shape, digit⟩ := digits_cons ds
  have whole := natural_digits short
  obtain ⟨minus, plus, _⟩ := ne_of_digit digit
  rw [shape] at whole ⊢
  rw [int, if_neg minus, if_neg plus, whole]
  rfl

/-- The text of an exponent behind its letter. -/
theorem int_exponent {e : Exponent} (short : e.digits.bytes.length ≤ maxStrDigits) :
    int (Exponent.renderSign e.sign ++ e.digits.bytes) = .ok e.value := by
  rw [Exponent.value]
  cases sign : e.sign with
  | none => simpa [Exponent.renderSign] using int_digits short
  | some minus =>
      cases minus with
      | true => simp [Exponent.renderSign, int, natural_digits short, Except.map]
      | false => simp [Exponent.renderSign, int, natural_digits short, Except.map]

/-- The mantissa of a lexeme. -/
def mantissa (x : Lexeme) : Bytes := x.integer.bytes ++ Lexeme.renderFraction x.fraction

theorem notMem_mantissa {x : Lexeme} {c : UInt8} (h : c = 0x65 ∨ c = 0x45) : c ∉ mantissa x := by
  have point : c ≠ 0x2E := by
    rcases h with rfl | rfl <;> decide
  have digits : ∀ ds : Digits, c ∉ ds.bytes := by
    intro ds member
    obtain ⟨_, _, _, lower, upper⟩ := ne_of_digit (ds.digits c member)
    exact h.elim lower upper
  rw [mantissa, List.mem_append, not_or]
  refine ⟨digits x.integer, ?_⟩
  cases x.fraction with
  | none => simp [Lexeme.renderFraction]
  | some f => simp [Lexeme.renderFraction, point, digits f]

theorem splitExponent_renderUnsigned {x : Lexeme} (short : x.renderUnsigned.length ≤ maxStrDigits) :
    splitExponent x.renderUnsigned = .ok (mantissa x, x.exponentValue) := by
  have shortExponent : ∀ e, x.exponent = some e → e.digits.bytes.length ≤ maxStrDigits := by
    intro e present
    rw [Lexeme.renderUnsigned, present] at short
    simp only [Lexeme.renderExponent, Exponent.render, List.length_append, List.length_cons]
      at short
    omega
  have lower := notMem_mantissa (x := x) (.inl rfl)
  have upper := notMem_mantissa (x := x) (.inr rfl)
  rw [Lexeme.renderUnsigned, Lexeme.exponentValue, ← mantissa, splitExponent]
  cases present : x.exponent with
  | none =>
      simp only [Lexeme.renderExponent, List.append_nil]
      rw [cut_singleton_eq_none.mpr lower, cut_singleton_eq_none.mpr upper]
  | some e =>
      have value := int_exponent (shortExponent e present)
      simp only [Lexeme.renderExponent, Exponent.render]
      cases letter : e.upper with
      | false =>
          simp only [Bool.false_eq_true, if_false, cut_singleton_append _ lower, value,
            Except.map]
      | true =>
          have absent : (0x65 : UInt8) ∉
              mantissa x ++ 0x45 :: (Exponent.renderSign e.sign ++ e.digits.bytes) := by
            have digits : (0x65 : UInt8) ∉ e.digits.bytes := fun member =>
              (ne_of_digit (e.digits.digits _ member)).2.2.2.1 rfl
            have sign : (0x65 : UInt8) ∉ Exponent.renderSign e.sign := by
              cases e.sign with
              | none => exact List.not_mem_nil
              | some minus => cases minus <;> decide
            simp [lower, sign, digits]
          simp only [if_true, cut_singleton_eq_none.mpr absent, cut_singleton_append _ upper, value,
            Except.map]

theorem splitPoint_mantissa (x : Lexeme) :
    splitPoint (mantissa x) = (x.integer.bytes, x.fractionDigits) := by
  have point : (0x2E : UInt8) ∉ x.integer.bytes := fun member =>
    (ne_of_digit (x.integer.digits _ member)).2.2.1 rfl
  rw [splitPoint, mantissa, Lexeme.fractionDigits]
  cases x.fraction with
  | none =>
      simp only [Lexeme.renderFraction, List.append_nil]
      rw [cut_singleton_eq_none.mpr point, Option.getD_none]
  | some f =>
      simp only [Lexeme.renderFraction]
      rw [cut_singleton_append _ point, Option.getD_some]

theorem unsignedText_render (x : Lexeme) : unsignedText x.render = x.renderUnsigned := by
  obtain ⟨b, rest, shape, digit⟩ := digits_cons x.integer
  obtain ⟨minus, plus, _⟩ := ne_of_digit digit
  rw [Lexeme.render]
  cases x.negative with
  | true => rfl
  | false =>
      have head : x.renderUnsigned = b :: (rest ++ Lexeme.renderFraction x.fraction ++
          Lexeme.renderExponent x.exponent) := by
        rw [Lexeme.renderUnsigned, shape]
        rfl
      rw [head]
      exact if_neg (not_or.mpr ⟨minus, plus⟩)

/-- The comparison at the boundary is that of the reference. -/
theorem compareDigits_eq (digits maximumDigits : Bytes) :
    compareDigits digits maximumDigits = Json.compareBoundary digits maximumDigits := by
  unfold compareDigits Json.compareBoundary
  by_cases long : digits.length ≥ maximumDigits.length
  · simp only [if_pos long]
    cases digits.drop maximumDigits.length <;> simp
  · simp only [if_neg long]
    simp

/-- The comparison of a lexeme is that of the decimal it spells. -/
theorem lexemeMagnitudeWithin_render {x : Lexeme} (short : x.render.length ≤ maxStrDigits)
    {maximum : Nat} (positive : 0 < maximum) :
    lexemeMagnitudeWithin x.render maximum = .ok (decide (x.AtMost maximum)) := by
  have unsigned : x.renderUnsigned.length ≤ maxStrDigits := by
    rw [Lexeme.render, List.length_append] at short
    omega
  have digits : ∀ b ∈ x.integer.bytes ++ x.fractionDigits, isDigit b = true := by
    intro b hb
    rcases List.mem_append.mp hb with hb | hb
    · exact x.integer.digits b hb
    · unfold Lexeme.fractionDigits at hb
      split at hb
      next => cases hb
      next f _ => exact f.digits b hb
  have exact_ := @Json.magnitudeWithin_iff _ digits x.fractionDigits.length x.exponentValue _
    positive
  have same : Json.magnitudeWithin (x.integer.bytes ++ x.fractionDigits) x.fractionDigits.length
      x.exponentValue maximum = decide (x.AtMost maximum) :=
    Bool.eq_iff_iff.mpr (exact_.trans (decide_eq_true_iff.symm))
  rw [lexemeMagnitudeWithin, unsignedText_render, splitExponent_renderUnsigned unsigned, ← same]
  simp only [ok_bind, splitPoint_mantissa, Json.magnitudeWithin, Json.trimLeadingZeroes,
    compareDigits_eq]
  cases (x.integer.bytes ++ x.fractionDigits).dropWhile (· = 0x30) with
  | nil => rfl
  | cons d ds =>
      simp only [List.cons_ne_nil, if_false]
      split
      next => rfl
      next =>
        split
        next => rfl
        next => rfl

/-! ## What is read -/

theorem float_render (x : Lexeme) : float x.render = .ok (nearest x) := by
  rw [float, Lexeme.parse_render_self]

theorem int_render {x : Lexeme} (integer : x.isFloat = false)
    (short : x.render.length ≤ maxStrDigits) :
    int x.render = .ok (if x.negative then -(x.coefficient : Int) else x.coefficient) := by
  have shortDigits : x.integer.bytes.length ≤ maxStrDigits := by
    rw [Lexeme.render, Lexeme.renderUnsigned_integer integer, List.length_append] at short
    omega
  rw [Lexeme.coefficient_integer integer, Lexeme.render, Lexeme.renderUnsigned_integer integer]
  cases x.negative with
  | true => simp [int, natural_digits shortDigits, Except.map]
  | false => simpa using int_digits shortDigits

theorem value_float {x : Lexeme} (isFloat : x.isFloat = true) :
    x.value? = (nearest x).map .float := by
  rw [Lexeme.value?, if_pos isFloat, nearest]

/-- A decimal within the maximum does not round to infinity. -/
theorem nearest_isSome {x : Lexeme} (within : x.AtMost maxFloat) : (nearest x).isSome = true := by
  rw [nearest]
  refine F64.ofDecimal_isSome within ?_
  calc maxFloat < 2 ^ 64 := by decide
    _ < 2 ^ 1000 := Nat.pow_lt_pow_right Nat.one_lt_two (by decide)

theorem value_isSome {x : Lexeme} (within : x.AtMost maxFloat) : x.value?.isSome = true := by
  cases isFloat : x.isFloat with
  | true =>
      have some_ := nearest_isSome within
      rw [value_float isFloat]
      generalize nearest x = n at some_ ⊢
      rwa [Option.isSome_map]
  | false => rw [Lexeme.value_integer isFloat, Option.isSome_some]

theorem exists_within {x : Lexeme} (short : x.render.length ≤ maxStrDigits) {maximum : Nat}
    (positive : 0 < maximum) : ∃ within, lexemeMagnitudeWithin x.render maximum = .ok within ∧
      (within = true ↔ x.AtMost maximum) :=
  ⟨_, lexemeMagnitudeWithin_render short positive, decide_eq_true_iff⟩

/-- A lexeme is read as what it denotes, within the module's own maximum. -/
theorem parseLexeme_eq_ok {x : Lexeme} (short : x.render.length ≤ maxStrDigits) {v : JsonValue} :
    parseLexeme x.isFloat x.render = .ok v ↔ x.AtMost maxFloat ∧ x.value? = some v := by
  obtain ⟨within, compared, exact_⟩ := @exists_within x short maxFloat (by decide)
  rw [← exact_]
  cases isFloat : x.isFloat with
  | true =>
      rw [value_float isFloat, parseLexeme, if_pos rfl, compared, ok_bind, bind_eq_ok,
        float_render, ok_bind]
      generalize nearest x = n
      simp only [require_eq_ok, exists_const, map_eq_ok, expect_eq_ok, Option.map_eq_some_iff]
  | false =>
      have same : maxInt = maxFloat := rfl
      rw [Lexeme.value_integer isFloat, parseLexeme, if_neg Bool.false_ne_true, same, compared,
        ok_bind, bind_eq_ok, int_render isFloat short]
      simp only [require_eq_ok, exists_const, map_eq_ok, Except.ok.injEq, exists_eq_left',
        Option.some.injEq]

theorem closed_parseLexeme {x : Lexeme} (short : x.render.length ≤ maxStrDigits) :
    Closed (parseLexeme x.isFloat x.render) := by
  obtain ⟨within, compared, _⟩ := @exists_within x short maxFloat (by decide)
  cases isFloat : x.isFloat with
  | true =>
      rw [parseLexeme, if_pos rfl, compared, ok_bind, float_render, ok_bind]
      generalize nearest x = n
      exact (closed_require _).bind fun _ _ => (closed_expect n).map _
  | false =>
      have same : maxInt = maxFloat := rfl
      rw [parseLexeme, if_neg Bool.false_ne_true, same, compared, ok_bind,
        int_render isFloat short]
      exact (closed_require _).bind fun _ _ => closed_ok _

variable {b : Bounds}

/-- A lexeme the bounds admit is short enough for `int`. -/
theorem short_of_bounds (fits : x.render.length ≤ b .numberLexemeBytes) :
    x.render.length ≤ maxStrDigits :=
  (fits.trans (b.tightens .numberLexemeBytes)).trans (by decide)

/-- The lexeme in front of the bytes is the one the scan stops behind. -/
theorem take_lexeme {bs rest : Bytes} (read : Lexeme.parse bs = some (x, rest)) :
    bs.take (bs.length - rest.length) = x.render := by
  rw [Lexeme.eq_of_parse read, List.length_append, Nat.add_sub_cancel, List.take_left]

/-- A number is read exactly when a lexeme is in front that is not too long and within the
module's own maximum. -/
theorem parseNumber_eq_ok {bs rest : Bytes} {v : JsonValue} :
    parseNumber b bs = .ok (v, rest) ↔ ∃ x, Lexeme.parse bs = some (x, rest) ∧
      x.render.length ≤ b .numberLexemeBytes ∧ x.AtMost maxFloat ∧ x.value? = some v := by
  rw [parseNumber, scanNumber_eq]
  cases read : Lexeme.parse bs with
  | none => simp [expect]
  | some lexeme =>
      obtain ⟨x, rest'⟩ := lexeme
      simp only [Option.map_some, expect_some, ok_bind, take_lexeme read, Nat.not_lt,
        bind_eq_ok, require_eq_ok, exists_const, pure_eq_ok, Except.ok.injEq, Prod.mk.injEq,
        Option.some.injEq, gt_iff_lt]
      constructor
      · rintro ⟨fits, _, parsed, rfl, rfl⟩
        exact ⟨x, ⟨rfl, rfl⟩, fits, (parseLexeme_eq_ok (short_of_bounds fits)).mp parsed⟩
      · rintro ⟨_, ⟨rfl, rfl⟩, fits, admitted⟩
        exact ⟨fits, v, (parseLexeme_eq_ok (short_of_bounds fits)).mpr admitted, rfl, rfl⟩

theorem closed_parseNumber (bs : Bytes) : Closed (parseNumber b bs) := by
  rw [parseNumber, scanNumber_eq]
  cases read : Lexeme.parse bs with
  | none => exact closed_fail
  | some lexeme =>
      obtain ⟨x, rest⟩ := lexeme
      simp only [Option.map_some, expect_some, ok_bind, take_lexeme read]
      refine (closed_require _).bind fun _ fits => ?_
      have short := short_of_bounds (Nat.not_lt.mp (require_eq_ok.mp fits))
      exact (closed_parseLexeme short).bind fun _ _ => closed_ok _

end BoundedAuthority.Python
