import BoundedAuthority.V1.JsonScan
import Mathlib.Data.List.TakeWhile

/-!
# Numbers in Rust

`Decoder::parse_number` of `sdks/rust/src/json.rs` and what it calls.

The lexeme is scanned, its digits and its exponent are taken apart, and its magnitude is
compared with the bound as digit strings, before it is converted.  The exponent is
accumulated in an `i64` digit by digit and only then saturated, and it is saturated by
the count of its digits as well as by its value.

So the arithmetic leaves its range on the exponents from `2^63` on, and an exponent
within three digits that is written with more is taken for a large one.  Everything else
is accepted by exact magnitude (`parseNumber_exact`).
-/

namespace BoundedAuthority.Rust.Json

open Wire
open V1 (Bounds)

/-- How a call ends without a value: with `Err(Invalid)`, or in an operation on `i64`
that leaves its range, which is a panic where overflow is checked. -/
inductive Fault
  | invalid
  | overflow
  deriving DecidableEq

/-- `Err(Invalid)` unless the condition holds. -/
def require (p : Prop) [Decidable p] : Except Fault Unit := if p then .ok () else .error .invalid

/-- `ok_or(Invalid)` -/
def okOr {α : Type} : Option α → Except Fault α
  | some a => .ok a
  | none => .error .invalid

/-- An `i64`, if the number is one. -/
def i64 (n : Int) : Except Fault Int :=
  if -2 ^ 63 ≤ n ∧ n < 2 ^ 63 then .ok n else .error .overflow

/-! ## Scanning -/

/-- The integer part of `scan_number_lexeme`; what is left behind it. -/
def scanInteger : Bytes → Option Bytes
  | [] => none
  | b :: rest =>
      if b = 0x30 then some rest
      else if within 0x31 0x39 b then some (rest.dropWhile isDigit)
      else none

/-- A nonempty run of digits. -/
def scanDigits (bs : Bytes) : Option Bytes := do
  guard (bs.head?.any isDigit)
  some (bs.dropWhile isDigit)

/-- The fraction of `scan_number_lexeme` -/
def scanFraction : Bytes → Option Bytes
  | [] => some []
  | b :: rest => if b = 0x2E then scanDigits rest else some (b :: rest)

/-- An optional sign. -/
def skipSign : Bytes → Bytes
  | [] => []
  | b :: rest => if b = 0x2B ∨ b = 0x2D then rest else b :: rest

/-- The exponent of `scan_number_lexeme` -/
def scanExponent : Bytes → Option Bytes
  | [] => some []
  | b :: rest =>
      if b = 0x65 ∨ b = 0x45 then scanDigits (skipSign rest)
      else some (b :: rest)

/-- An optional minus sign. -/
def skipMinus : Bytes → Bytes
  | [] => []
  | b :: rest => if b = 0x2D then rest else b :: rest

/-- `scan_number_lexeme`; what is left behind the lexeme. -/
def scanNumberLexeme (input : Bytes) : Option Bytes := do
  let rest ← scanInteger (skipMinus input)
  let rest ← scanFraction rest
  scanExponent rest

/-! ## Taking apart -/

/-- The loop of `decompose_number` over the digits of the exponent. -/
def accumulate : (digits : Bytes) → (ev : Int) → Except Fault Int
  | [], ev => .ok ev
  | b :: digits, ev => do
      let product ← i64 (ev * 10)
      let sum ← i64 (product + Decimal.digitValue b)
      accumulate digits sum

/-- The exponent of `decompose_number`, behind its marker. -/
def markedExponent (bs : Bytes) : Except Fault Int := do
  let esign : Int := if bs.head? = some 0x2D then -1 else 1
  let run := (skipSign bs).takeWhile isDigit
  let ev ← accumulate run 0
  let ev := if run.length > 3 ∨ ev > 999 then 1000 else ev
  i64 (esign * ev)

/-- The exponent of `decompose_number`, zero without one. -/
def decomposeExponent (bs : Bytes) : Except Fault Int :=
  if bs.head? = some 0x65 ∨ bs.head? = some 0x45 then markedExponent (bs.drop 1) else .ok 0

/-- The fraction of `decompose_number`: its digits, and what is left behind them. -/
def decomposeFraction (bs : Bytes) : Bytes × Bytes :=
  if bs.head? = some 0x2E then ((bs.drop 1).takeWhile isDigit, (bs.drop 1).dropWhile isDigit)
  else ([], bs)

/-- `decompose_number`: the digits, how many of them are behind the point, and the
exponent. -/
def decomposeNumber (lexeme : Bytes) : Except Fault (Bytes × Nat × Int) := do
  let bs := skipMinus lexeme
  let integer := bs.takeWhile isDigit
  let (fraction, bs) := decomposeFraction (bs.dropWhile isDigit)
  let exp ← decomposeExponent bs
  .ok (integer ++ fraction, fraction.length, exp)

/-- `strip_leading_zeros` -/
def stripLeadingZeros (s : Bytes) : Bytes :=
  let t := s.dropWhile (· = 0x30)
  if t = [] then [0x30] else t

/-- `magnitude_ok` -/
def magnitudeOk (digits : Bytes) (scale : Int) (bound : Nat) : Except Fault Bool :=
  if digits = [0x30] then .ok true
  else
    let boundStr := Decimal.ofNat bound
    let blen : Int := boundStr.length
    let dlen : Int := digits.length
    if scale ≥ 0 then do
      let effLen ← i64 (dlen + scale)
      if effLen > blen then .ok false
      else if effLen < blen then .ok true
      else .ok (leBytes (digits ++ List.replicate scale.toNat 0x30) boundStr)
    else do
      let k ← i64 (-scale)
      let threshLen ← i64 (blen + k)
      if dlen > threshLen then .ok false
      else if dlen < threshLen then .ok true
      else .ok (leBytes digits (boundStr ++ List.replicate k.toNat 0x30))

/-! ## Converting -/

/-- `str::parse::<f64>` of a number lexeme, unless it is infinite. -/
def parseF64 (lexeme : Bytes) : Option F64 :=
  match Lexeme.parse lexeme with
  | some (x, []) => F64.ofDecimal x.negative x.coefficient x.scale
  | _ => none

/-- `str::parse::<i64>` of an integer lexeme. -/
def parseI64 (lexeme : Bytes) : Option Int := do
  let digits := skipMinus lexeme
  let n : Int := if lexeme.head? = some 0x2D then -Decimal.value digits else Decimal.value digits
  guard (digits ≠ [] ∧ digits.all isDigit ∧ -2 ^ 63 ≤ n ∧ n < 2 ^ 63)
  some n

/-- The host conversion of a lexeme that is within its bound. -/
def convert (isFloat : Bool) (lexeme : Bytes) : Except Fault JsonValue :=
  if isFloat then okOr ((parseF64 lexeme).map .float) else okOr ((parseI64 lexeme).map .integer)

/-- `parse_number` on the lexeme it has scanned. -/
def parseLexeme (bounds : Bounds) (lexeme : Bytes) : Except Fault JsonValue := do
  let isFloat := lexeme.any fun b => b = 0x2E || b = 0x65 || b = 0x45
  require (lexeme.length ≤ bounds .numberLexemeBytes)
  let (digits, fracCount, exp) ← decomposeNumber lexeme
  let scale ← i64 (exp - fracCount)
  let bound := if isFloat then bounds .floatMagnitude else bounds .integerMagnitude
  let ok ← magnitudeOk (stripLeadingZeros digits) scale bound
  require (ok = true)
  convert isFloat lexeme

/-- `parse_number`: the value and what is left behind the lexeme. -/
def parseNumber (bounds : Bounds) (input : Bytes) : Except Fault (JsonValue × Bytes) := do
  let rest ← okOr (scanNumberLexeme input)
  let value ← parseLexeme bounds (input.take (input.length - rest.length))
  .ok (value, rest)

/-! ## The calls -/

@[simp] theorem ok_bind {α β : Type} (a : α) (f : α → Except Fault β) :
    (Except.ok a >>= f) = f a := rfl

@[simp] theorem error_bind {α β : Type} (e : Fault) (f : α → Except Fault β) :
    (Except.error e >>= f) = .error e := rfl

theorem i64_ok {n : Int} (low : -2 ^ 63 ≤ n) (high : n < 2 ^ 63) : i64 n = .ok n :=
  if_pos ⟨low, high⟩

theorem i64_overflow {n : Int} (high : 2 ^ 63 ≤ n) : i64 n = .error .overflow :=
  if_neg fun range => absurd range.2 (not_lt.mpr high)

theorem require_ok {p : Prop} [Decidable p] (h : p) : require p = .ok () := if_pos h

theorem require_invalid {p : Prop} [Decidable p] (h : ¬p) : require p = .error .invalid := if_neg h

/-! ## The scan is maximal munch -/

theorem skipMinus_eq (bs : Bytes) : skipMinus bs = (Lexeme.takeMinus bs).2 := by
  cases bs with
  | nil => rfl
  | cons b rest =>
      rw [skipMinus, Lexeme.takeMinus_cons]
      split <;> rfl

theorem skipSign_eq (bs : Bytes) : skipSign bs = (Lexeme.takeSign bs).2 := by
  cases bs with
  | nil => rfl
  | cons b rest => rw [skipSign, Lexeme.takeSign_cons]

theorem scanDigits_eq (bs : Bytes) : scanDigits bs = (takeDigits bs).map Prod.snd := by
  cases bs with
  | nil => rfl
  | cons b rest =>
      rw [Lexeme.takeDigits_cons, scanDigits]
      cases digit : isDigit b <;> simp [digit, guard]

theorem scanInteger_eq (bs : Bytes) : scanInteger bs = (Lexeme.takeInteger bs).map Prod.snd := by
  cases bs with
  | nil => rfl
  | cons b rest => rw [scanInteger, Lexeme.takeInteger_cons]

theorem scanFraction_eq (bs : Bytes) : scanFraction bs = (Lexeme.takeFraction bs).map Prod.snd := by
  cases bs with
  | nil => rfl
  | cons b rest =>
      rw [scanFraction, Lexeme.takeFraction_cons]
      split
      next => rw [scanDigits_eq, Option.map_map, Function.comp_def]
      next => rfl

theorem scanExponent_eq (bs : Bytes) : scanExponent bs = (Lexeme.takeExponent bs).map Prod.snd := by
  cases bs with
  | nil => rfl
  | cons b rest =>
      rw [scanExponent, Lexeme.takeExponent]
      split
      next => rw [scanDigits_eq, skipSign_eq, Option.map_map, Function.comp_def]
      next => rfl

/-- The scan stops where the production ends. -/
theorem scanNumberLexeme_eq (bs : Bytes) :
    scanNumberLexeme bs = (Lexeme.parse bs).map Prod.snd := by
  have scanned := congrArg (Option.map Prod.snd) (Lexeme.parse_scan bs)
  rw [Option.map_map] at scanned
  refine Eq.trans ?_ scanned.symm
  rw [scanNumberLexeme, skipMinus_eq, scanInteger_eq]
  cases Lexeme.takeInteger (Lexeme.takeMinus bs).2 with
  | none => rfl
  | some integer =>
      obtain ⟨ds, rest⟩ := integer
      cases fraction : Lexeme.takeFraction rest with
      | none => simp [scanFraction_eq, fraction]
      | some part =>
          obtain ⟨ds, rest⟩ := part
          cases exponent : Lexeme.takeExponent rest with
          | none => simp [scanFraction_eq, scanExponent_eq, fraction, exponent]
          | some part => simp [scanFraction_eq, scanExponent_eq, fraction, exponent]

/-! ## The exponent -/

/-- The loop leaves its range when the number of its digits does. -/
theorem accumulate_eq {digits : Bytes} (h : ∀ b ∈ digits, isDigit b = true) {ev : Nat}
    (small : ev < 2 ^ 63) : accumulate digits ev =
      if ev * 10 ^ digits.length + Decimal.value digits < 2 ^ 63 then
        .ok ((ev * 10 ^ digits.length + Decimal.value digits : Nat) : Int)
      else .error .overflow := by
  induction digits generalizing ev with
  | nil =>
      have total : ev * 10 ^ ([] : Bytes).length + Decimal.value [] = ev := by simp
      rw [accumulate, total, if_pos small]
  | cons b digits ih =>
      obtain ⟨-, later⟩ := List.forall_mem_cons.mp h
      have total : ev * 10 ^ (b :: digits).length + Decimal.value (b :: digits) =
          (ev * 10 + Decimal.digitValue b) * 10 ^ digits.length + Decimal.value digits := by
        rw [Decimal.value_cons, List.length_cons, pow_succ]
        ring
      have least : ev * 10 + Decimal.digitValue b ≤
          (ev * 10 + Decimal.digitValue b) * 10 ^ digits.length + Decimal.value digits :=
        (Nat.le_mul_of_pos_right _ (by positivity)).trans (Nat.le_add_right _ _)
      have cast : (ev : Int) * 10 = ((ev * 10 : Nat) : Int) := by push_cast; rfl
      have cast' : ((ev * 10 : Nat) : Int) + Decimal.digitValue b =
          ((ev * 10 + Decimal.digitValue b : Nat) : Int) := by push_cast; rfl
      rw [accumulate, total, cast]
      by_cases product : ev * 10 < 2 ^ 63
      · rw [i64_ok (by omega) (by omega), ok_bind, cast']
        by_cases sum : ev * 10 + Decimal.digitValue b < 2 ^ 63
        · rw [i64_ok (by omega) (by omega), ok_bind, ih later sum]
        · rw [i64_overflow (by omega), error_bind, if_neg (by omega)]
      · rw [i64_overflow (by omega), error_bind, if_neg (by omega)]

/-- The number the digits of an exponent spell. -/
def magnitude (e : Exponent) : Nat := Decimal.value e.digits.bytes

/-- The exponent the code works with: one of more than three digits is taken for 1000. -/
def saturated (e : Exponent) : Int :=
  let ev : Int := if e.digits.bytes.length > 3 ∨ magnitude e > 999 then 1000 else magnitude e
  if e.sign = some true then -ev else ev

theorem saturated_long {e : Exponent} (h : 3 < e.digits.bytes.length ∨ 999 < magnitude e) :
    saturated e = if e.sign = some true then -1000 else 1000 := by
  have long : e.digits.bytes.length > 3 ∨ magnitude e > 999 := h
  simp only [saturated, if_pos long]

theorem saturated_short {e : Exponent} (h : ¬(3 < e.digits.bytes.length ∨ 999 < magnitude e)) :
    saturated e = e.value := by
  have short : ¬(e.digits.bytes.length > 3 ∨ magnitude e > 999) := h
  simp only [saturated, if_neg short]
  rfl

theorem saturated_bounds (e : Exponent) : -1000 ≤ saturated e ∧ saturated e ≤ 1000 := by
  unfold saturated
  dsimp only
  split
  next => split <;> omega
  next => split <;> omega

theorem skipSign_render (e : Exponent) :
    skipSign (Exponent.renderSign e.sign ++ e.digits.bytes) = e.digits.bytes := by
  have taken := @Lexeme.takeSign_append e.sign e.digits []
  rw [List.append_nil] at taken
  rw [skipSign_eq, taken]

theorem head_renderSign (e : Exponent) :
    (Exponent.renderSign e.sign ++ e.digits.bytes).head? = some 0x2D ↔ e.sign = some true := by
  cases sign : e.sign with
  | some minus => cases minus <;> simp [Exponent.renderSign]
  | none =>
      obtain ⟨d, tail, digits⟩ := List.exists_cons_of_ne_nil e.digits.nonempty
      have digit := e.digits.digits d (digits ▸ List.mem_cons_self)
      rw [Exponent.renderSign, List.nil_append, digits]
      refine iff_of_false (fun same => ?_) (by simp)
      rw [Option.some.inj same] at digit
      exact absurd digit (by decide)

theorem markedExponent_render (e : Exponent) :
    markedExponent (Exponent.renderSign e.sign ++ e.digits.bytes) =
      if magnitude e < 2 ^ 63 then .ok (saturated e) else .error .overflow := by
  have run : e.digits.bytes.takeWhile isDigit = e.digits.bytes :=
    List.takeWhile_eq_self_iff.mpr e.digits.digits
  have loop : accumulate e.digits.bytes 0 =
      if magnitude e < 2 ^ 63 then .ok (magnitude e : Int) else .error .overflow := by
    have := accumulate_eq e.digits.digits (show 0 < 2 ^ 63 by decide)
    rw [Nat.zero_mul, Nat.zero_add] at this
    exact this
  have range := saturated_bounds e
  rw [markedExponent, skipSign_render, run, loop]
  by_cases small : magnitude e < 2 ^ 63
  · have same : (if (Exponent.renderSign e.sign ++ e.digits.bytes).head? = some 0x2D then (-1 : Int)
        else 1) * (if e.digits.bytes.length > 3 ∨ (magnitude e : Int) > 999 then 1000
          else (magnitude e : Int)) = saturated e := by
      have cast : (magnitude e : Int) > 999 ↔ magnitude e > 999 := by omega
      simp only [head_renderSign, saturated, cast]
      split
      next => exact Int.neg_one_mul _
      next => exact Int.one_mul _
    rw [if_pos small, if_pos small, ok_bind]
    simp only [same]
    exact i64_ok (by omega) (by omega)
  · rw [if_neg small, if_neg small, error_bind]

/-! ## The lexeme -/

/-- The arithmetic leaves its range. -/
def Overflows (x : Lexeme) : Prop := ∃ e ∈ x.exponent, 2 ^ 63 ≤ magnitude e

/-- The exponent of a lexeme as the code takes it. -/
def saturatedExponent (x : Lexeme) : Int :=
  match x.exponent with
  | none => 0
  | some e => saturated e

theorem digits_of_lexeme (x : Lexeme) :
    ∀ b ∈ x.integer.bytes ++ x.fractionDigits, isDigit b = true := by
  intro b member
  rcases List.mem_append.mp member with integer | fraction
  · exact x.integer.digits b integer
  · unfold Lexeme.fractionDigits at fraction
    cases known : x.fraction with
    | none =>
        rw [known] at fraction
        cases fraction
    | some f =>
        rw [known] at fraction
        exact f.digits b fraction

theorem decomposeFraction_render {fraction : Option Digits} {rest : Bytes}
    (stop : ∀ b ∈ rest.head?, isDigit b = false ∧ b ≠ 0x2E) :
    decomposeFraction (Lexeme.renderFraction fraction ++ rest) =
      ((match fraction with | none => [] | some f => f.bytes), rest) := by
  cases fraction with
  | none =>
      have noPoint : ¬rest.head? = some 0x2E := fun point => (stop _ point).2 rfl
      rw [Lexeme.renderFraction, List.nil_append, decomposeFraction, if_neg noPoint]
  | some f =>
      obtain ⟨run, left⟩ := span_append f.digits fun b h => (stop b h).1
      have point : (0x2E :: f.bytes ++ rest).head? = some 0x2E := rfl
      have behind : (0x2E :: f.bytes ++ rest).drop 1 = f.bytes ++ rest := rfl
      rw [Lexeme.renderFraction, decomposeFraction, if_pos point, behind, run, left]

theorem decomposeExponent_render (exponent : Option Exponent) :
    decomposeExponent (Lexeme.renderExponent exponent) =
      match exponent with
      | none => .ok 0
      | some e => markedExponent (Exponent.renderSign e.sign ++ e.digits.bytes) := by
  cases exponent with
  | none => rfl
  | some e =>
      cases upper : e.upper <;>
        simp [decomposeExponent, Lexeme.renderExponent, Exponent.render, upper]

/-- A lexeme taken apart, up to its exponent. -/
theorem decomposeNumber_eq (x : Lexeme) : decomposeNumber x.render =
    decomposeExponent (Lexeme.renderExponent x.exponent) >>= fun exp =>
      .ok (x.integer.bytes ++ x.fractionDigits, x.fractionDigits.length, exp) := by
  have nothing : StopsNumber [] := fun b h => by cases h
  have stopFraction := Lexeme.head_renderExponent (e := x.exponent) nothing
  have stopInteger := Lexeme.head_renderFraction (f := x.fraction) stopFraction
  have minus := Lexeme.takeMinus_append x []
  obtain ⟨integer, behind⟩ := span_append x.integer.digits stopInteger
  simp only [List.append_nil] at stopFraction minus integer behind
  have unsigned : x.renderUnsigned = x.integer.bytes ++
      (Lexeme.renderFraction x.fraction ++ Lexeme.renderExponent x.exponent) := by
    rw [Lexeme.renderUnsigned, List.append_assoc]
  rw [decomposeNumber, skipMinus_eq, minus, unsigned]
  simp only [integer, behind, decomposeFraction_render stopFraction]
  rfl

theorem decomposeNumber_render {x : Lexeme} (h : ¬Overflows x) : decomposeNumber x.render =
    .ok (x.integer.bytes ++ x.fractionDigits, x.fractionDigits.length, saturatedExponent x) := by
  rw [decomposeNumber_eq, decomposeExponent_render, saturatedExponent]
  cases known : x.exponent with
  | none => rfl
  | some e =>
      have small : magnitude e < 2 ^ 63 := not_le.mp fun large => h ⟨e, known, large⟩
      simp only [markedExponent_render, if_pos small, ok_bind]

theorem decomposeNumber_overflow {x : Lexeme} (h : Overflows x) :
    decomposeNumber x.render = .error .overflow := by
  obtain ⟨e, known, large⟩ := h
  rw [decomposeNumber_eq, decomposeExponent_render, Option.mem_def.mp known]
  simp only [markedExponent_render, if_neg (not_lt.mpr large), error_bind]

/-! ## The magnitude -/

/-- Digit strings of one length are compared as the numbers they spell. -/
theorem leBytes_iff {as bs : Bytes} (ha : ∀ b ∈ as, isDigit b = true)
    (hb : ∀ b ∈ bs, isDigit b = true)
    (length : as.length = bs.length) :
    leBytes as bs = decide (Decimal.value as ≤ Decimal.value bs) := by
  have less := Decimal.value_lt_iff hb ha length.symm
  rw [Bool.eq_iff_iff, decide_eq_true_eq, ← not_lt, less, Bool.not_eq_false]

theorem digits_pad {ds : Bytes} (h : ∀ b ∈ ds, isDigit b = true) (n : Nat) :
    ∀ b ∈ ds ++ List.replicate n 0x30, isDigit b = true := by
  intro b member
  rcases List.mem_append.mp member with known | zero
  · exact h b known
  · rw [List.eq_of_mem_replicate zero]
    decide

/-- The comparison by length and then by digits is exact. -/
theorem magnitudeOk_eq {ds : Bytes} (digits : ∀ b ∈ ds, isDigit b = true) (short : ds.length ≤ 64)
    {scale : Int} (low : -2000 ≤ scale) (high : scale ≤ 2000) {bound : Nat} (pos : 0 < bound)
    (small : bound < 10 ^ 20) : magnitudeOk (stripLeadingZeros ds) scale bound =
      .ok (decide (Decimal.AtMost (Decimal.value ds) scale bound)) := by
  have trimmed : ∀ b ∈ V1.Json.trimLeadingZeroes ds, isDigit b = true :=
    fun b hb => digits b (V1.Json.mem_trimLeadingZeroes hb)
  have shorter : (V1.Json.trimLeadingZeroes ds).length ≤ 64 :=
    (List.dropWhile_suffix _).length_le.trans short
  have strip : stripLeadingZeros ds = if V1.Json.trimLeadingZeroes ds = [] then [0x30]
      else V1.Json.trimLeadingZeroes ds := rfl
  have boundDigits := Decimal.ofNat_digits bound
  have boundValue := Decimal.value_ofNat bound
  have boundLow := Decimal.pow_le_of_ofNat pos
  have boundHigh := Decimal.lt_pow_length_ofNat bound
  have boundLength := List.length_pos_of_ne_nil (Decimal.ofNat_ne_nil bound)
  have boundShort := Decimal.length_ofNat_le small (by decide)
  rw [← V1.Json.value_trimLeadingZeroes, strip]
  cases known : V1.Json.trimLeadingZeroes ds with
  | nil =>
      have zero : Decimal.AtMost (Decimal.value []) scale bound := by simp [Decimal.AtMost]
      rw [if_pos rfl, magnitudeOk, if_pos rfl, decide_eq_true zero]
  | cons d rest =>
      rw [known] at trimmed shorter
      have nonzero := V1.Json.head_trimLeadingZeroes known
      have digit := trimmed d List.mem_cons_self
      rw [List.length_cons] at shorter
      have some_ : ¬(d :: rest = [0x30]) := fun same => nonzero (List.cons.inj same).1
      have atMost : (d :: rest).length + scale < (Decimal.ofNat bound).length →
          Decimal.AtMost (Decimal.value (d :: rest)) scale bound := fun less =>
        Decimal.atMost_of_short trimmed boundLow (by omega)
      have notAtMost : (Decimal.ofNat bound).length < (d :: rest).length + scale →
          ¬Decimal.AtMost (Decimal.value (d :: rest)) scale bound := fun more =>
        Decimal.not_atMost_of_long digit nonzero boundHigh
          (by rw [List.length_cons] at more; omega)
      rw [if_neg (List.cons_ne_nil _ _), magnitudeOk, if_neg some_]
      rw [List.length_cons] at atMost notAtMost
      by_cases natural : scale ≥ 0
      · obtain ⟨n, rfl⟩ := Int.eq_ofNat_of_zero_le natural
        simp only [if_pos natural, List.length_cons]
        rw [i64_ok (by omega) (by omega), ok_bind]
        split
        next more => rw [decide_eq_false (notAtMost more)]
        next =>
          split
          next less => rw [decide_eq_true (atMost less)]
          next =>
            have pad := Decimal.atMost_pad (s := d :: rest) (n := n) (m := bound)
            rw [Int.toNat_natCast, leBytes_iff (digits_pad trimmed n) boundDigits, boundValue,
              decide_eq_decide.mpr pad]
            simp only [List.length_append, List.length_cons, List.length_replicate]
            omega
      · obtain ⟨n, same⟩ := Int.eq_ofNat_of_zero_le (show 0 ≤ -scale by omega)
        obtain rfl : scale = -(n : Int) := by omega
        simp only [if_neg natural, Int.neg_neg]
        rw [i64_ok (by omega) (by omega), ok_bind, i64_ok (by omega) (by omega), ok_bind,
          List.length_cons]
        split
        next more => rw [decide_eq_false (notAtMost (by omega))]
        next =>
          split
          next less => rw [decide_eq_true (atMost (by omega))]
          next =>
            have shifted : Decimal.AtMost (Decimal.value (d :: rest)) (-(n : Int)) bound ↔
                Decimal.value (d :: rest) ≤
                  Decimal.value (Decimal.ofNat bound ++ List.replicate n 0x30) := by
              simp [Decimal.AtMost, Decimal.value_append]
            rw [Int.toNat_natCast, leBytes_iff trimmed (digits_pad boundDigits n),
              decide_eq_decide.mpr shifted]
            simp only [List.length_append, List.length_cons, List.length_replicate]
            omega

/-! ## The verdict -/

/-- The bound on the magnitude of a lexeme. -/
def limit (bounds : Bounds) (x : Lexeme) : Nat :=
  if x.isFloat then bounds .floatMagnitude else bounds .integerMagnitude

theorem limit_pos (bounds : Bounds) (x : Lexeme) : 0 < limit bounds x := by
  unfold limit
  split <;> exact bounds.positive _

theorem limit_small (bounds : Bounds) (x : Lexeme) : limit bounds x ≤ 9007199254740991 := by
  unfold limit
  split <;> exact bounds.tightens _

/-- The power of ten the code scales the digits by. -/
def saturatedScale (x : Lexeme) : Int := saturatedExponent x - x.fractionDigits.length

/-- The digits of a short lexeme. -/
theorem length_digits {x : Lexeme} (short : x.render.length ≤ 64) :
    (x.integer.bytes ++ x.fractionDigits).length ≤ 64 := by
  have fraction : x.fractionDigits.length ≤ (Lexeme.renderFraction x.fraction).length := by
    unfold Lexeme.fractionDigits Lexeme.renderFraction
    cases x.fraction with
    | none => exact le_rfl
    | some f => exact Nat.le_succ _
  simp only [Lexeme.render, Lexeme.renderUnsigned, List.length_append] at short ⊢
  omega

theorem coefficient_small {x : Lexeme} (short : x.render.length ≤ 64) :
    x.coefficient < 10 ^ 64 := by
  have digits := length_digits short
  exact (Decimal.value_lt (digits_of_lexeme x)).trans_le (Nat.pow_le_pow_right (by decide) digits)

theorem saturatedExponent_bounds (x : Lexeme) :
    -1000 ≤ saturatedExponent x ∧ saturatedExponent x ≤ 1000 := by
  unfold saturatedExponent
  cases x.exponent with
  | none => exact ⟨by decide, by decide⟩
  | some e => exact saturated_bounds e

/-- Digits far behind the point are within every bound. -/
theorem atMost_tiny {m max : Nat} {e : Int} (small : m < 10 ^ 64) (low : e ≤ -64) (pos : 0 < max) :
    Decimal.AtMost m e max := by
  obtain ⟨n, same⟩ := Int.eq_ofNat_of_zero_le (show 0 ≤ -e by omega)
  have noPower : e.toNat = 0 := by omega
  have power : (10 : Nat) ^ 64 ≤ 10 ^ n := Nat.pow_le_pow_right (by decide) (by omega)
  rw [Decimal.AtMost, noPower, same, Int.toNat_natCast, pow_zero, Nat.mul_one]
  exact (small.le.trans power).trans (Nat.le_mul_of_pos_left _ pos)

/-- Digits far before the point are within a bound only if they are zeros. -/
theorem atMost_huge {m max : Nat} {e : Int} (small : max < 10 ^ 20) (high : 20 ≤ e) :
    Decimal.AtMost m e max ↔ m = 0 := by
  obtain ⟨n, rfl⟩ := Int.eq_ofNat_of_zero_le (show 0 ≤ e by omega)
  have power : (10 : Nat) ^ 20 ≤ 10 ^ n := Nat.pow_le_pow_right (by decide) (by omega)
  simp only [Decimal.AtMost, Int.toNat_natCast, Int.toNat_neg_natCast, pow_zero, Nat.mul_one]
  constructor
  · intro h
    by_contra nonzero
    have := Nat.le_mul_of_pos_left (10 ^ n) (Nat.pos_of_ne_zero nonzero)
    omega
  · rintro rfl
    simp

/-- More than three digits make a small exponent look large. -/
def Padded (e : Exponent) : Prop := 3 < e.digits.bytes.length ∧ magnitude e ≤ 999

/-- An exponent that is not padded is judged exactly. -/
theorem verdict_exact {x : Lexeme} (short : x.render.length ≤ 64) {max : Nat} (pos : 0 < max)
    (small : max < 10 ^ 20) (h : ∀ e ∈ x.exponent, ¬Padded e) :
    Decimal.AtMost x.coefficient (saturatedScale x) max ↔ x.AtMost max := by
  have coefficient := coefficient_small short
  have digits := length_digits short
  rw [List.length_append] at digits
  rw [Lexeme.AtMost, saturatedScale, Lexeme.scale, saturatedExponent, Lexeme.exponentValue]
  cases known : x.exponent with
  | none => rfl
  | some e =>
      have plain : ¬Padded e := h e known
      have value : e.value = if e.sign = some true then -(magnitude e : Int) else magnitude e := rfl
      by_cases large : 999 < magnitude e
      · simp only [saturated_long (.inr large), value]
        split
        next =>
          exact iff_of_true (atMost_tiny coefficient (by omega) pos)
            (atMost_tiny coefficient (by omega) pos)
        next => rw [atMost_huge small (by omega), atMost_huge small (by omega)]
      · have short : ¬(3 < e.digits.bytes.length ∨ 999 < magnitude e) := by
          rw [not_or]
          exact ⟨fun long => plain ⟨long, not_lt.mp large⟩, large⟩
        simp only [saturated_short short]

/-- A padded exponent is judged by its sign. -/
theorem verdict_padded {x : Lexeme} (short : x.render.length ≤ 64) {max : Nat} (pos : 0 < max)
    (small : max < 10 ^ 20) {e : Exponent} (known : x.exponent = some e) (padded : Padded e) :
    Decimal.AtMost x.coefficient (saturatedScale x) max ↔
      e.sign = some true ∨ x.coefficient = 0 := by
  have coefficient := coefficient_small short
  have digits := length_digits short
  rw [List.length_append] at digits
  have exponent : saturatedExponent x = if e.sign = some true then -1000 else 1000 := by
    rw [saturatedExponent, known]
    exact saturated_long (.inl padded.1)
  rw [saturatedScale, exponent]
  by_cases minus : e.sign = some true
  · rw [if_pos minus]
    exact iff_of_true (atMost_tiny coefficient (by omega) pos) (.inl minus)
  · rw [if_neg minus, atMost_huge small (by omega), or_iff_right minus]

/-- What the code finds within the bound is finite. -/
theorem parseF64_isSome {x : Lexeme} (short : x.render.length ≤ 64) {max : Nat} (pos : 0 < max)
    (small : max < 10 ^ 20) (h : Decimal.AtMost x.coefficient (saturatedScale x) max) :
    (parseF64 x.render).isSome = true := by
  have read : Lexeme.parse x.render = some (x, []) := by
    have nothing : StopsNumber [] := fun b h => by cases h
    have := Lexeme.parse_render x nothing
    rwa [List.append_nil] at this
  have coefficient := coefficient_small short
  have finite : ∀ {max : Nat}, Decimal.AtMost x.coefficient x.scale max → max ≤ 10 ^ 64 →
      (parseF64 x.render).isSome = true := by
    intro max within size
    rw [parseF64, read]
    refine F64.ofDecimal_isSome within (size.trans_lt ?_)
    calc (10 : Nat) ^ 64 ≤ (2 ^ 4) ^ 64 := Nat.pow_le_pow_left (by decide) 64
      _ = 2 ^ 256 := (pow_mul 2 4 64).symm
      _ < 2 ^ 1000 := Nat.pow_lt_pow_right Nat.one_lt_two (by decide)
  have room : max ≤ 10 ^ 64 := small.le.trans (Nat.pow_le_pow_right (by decide) (by decide))
  cases known : x.exponent with
  | none => exact finite ((verdict_exact short pos small (by simp [known])).mp h) room
  | some e =>
      by_cases padded : Padded e
      · cases (verdict_padded short pos small known padded).mp h with
        | inl minus =>
            -- a negative exponent only makes the digits smaller
            refine @finite (10 ^ 64) ?_ le_rfl
            have low : x.scale ≤ 0 := by
              rw [Lexeme.scale, Lexeme.exponentValue, known]
              simp only [Exponent.value, if_pos minus]
              omega
            have noPower : x.scale.toNat = 0 := by omega
            rw [Decimal.AtMost, noPower, pow_zero, Nat.mul_one]
            exact coefficient.le.trans (Nat.le_mul_of_pos_right _ (by positivity))
        | inr zero =>
            refine @finite max ?_ room
            rw [Decimal.AtMost, zero, Nat.zero_mul]
            exact Nat.zero_le _
      · refine finite ((verdict_exact short pos small ?_).mp h) room
        intro e' other
        rw [known] at other
        exact Option.some.inj other ▸ padded

/-- An integer within the bound is an `i64`. -/
theorem parseI64_isSome {x : Lexeme} (integer : x.isFloat = false)
    (h : x.coefficient < 2 ^ 63) : (parseI64 x.render).isSome = true := by
  have minus := Lexeme.takeMinus_append x []
  rw [List.append_nil, List.append_nil, Lexeme.renderUnsigned_integer integer] at minus
  rw [Lexeme.coefficient_integer integer] at h
  have digits : skipMinus x.render = x.integer.bytes := by rw [skipMinus_eq, minus]
  have all := List.all_eq_true.mpr x.integer.digits
  have range : -2 ^ 63 ≤ (if x.render.head? = some 0x2D then -(Decimal.value x.integer.bytes : Int)
      else Decimal.value x.integer.bytes) ∧ (if x.render.head? = some 0x2D then
        -(Decimal.value x.integer.bytes : Int) else Decimal.value x.integer.bytes) < 2 ^ 63 := by
    split <;> omega
  simp only [parseI64, digits, Option.bind_eq_bind]
  rw [guard, if_pos ⟨x.integer.nonempty, all, range⟩]
  rfl

/-- The code's verdict on a padded exponent is the wrong one: by the sign alone it takes
a value beyond the bound, or refuses one within it. -/
def Misjudged (bounds : Bounds) (x : Lexeme) : Prop := ∃ e ∈ x.exponent, Padded e ∧
  x.coefficient ≠ 0 ∧ (e.sign = some true ↔ ¬x.AtMost (limit bounds x))

/-- What the code finds within the bound is converted. -/
theorem convert_isOk {bounds : Bounds} {x : Lexeme} (short : x.render.length ≤ 64)
    (h : Decimal.AtMost x.coefficient (saturatedScale x) (limit bounds x)) :
    ∃ value, convert x.isFloat x.render = .ok value := by
  have pos := limit_pos bounds x
  have small : limit bounds x < 10 ^ 20 := (limit_small bounds x).trans_lt (by decide)
  cases float : x.isFloat with
  | true =>
      obtain ⟨f, known⟩ := Option.isSome_iff_exists.mp (parseF64_isSome short pos small h)
      exact ⟨.float f, by rw [convert, if_pos rfl, known]; rfl⟩
  | false =>
      have noExponent : x.exponent = none := by
        rw [Lexeme.isFloat, Bool.or_eq_false_iff, Option.isSome_eq_false_iff,
          Option.isSome_eq_false_iff, Option.isNone_iff_eq_none, Option.isNone_iff_eq_none] at float
        exact float.2
      have noFraction : x.fractionDigits = [] := by
        rw [Lexeme.isFloat, Bool.or_eq_false_iff, Option.isSome_eq_false_iff,
          Option.isNone_iff_eq_none] at float
        rw [Lexeme.fractionDigits, float.1]
      have natural : x.coefficient ≤ limit bounds x := by
        have scale : saturatedScale x = 0 := by
          rw [saturatedScale, saturatedExponent, noExponent, noFraction]
          rfl
        rw [scale] at h
        simpa [Decimal.AtMost] using h
      have bound := limit_small bounds x
      obtain ⟨n, known⟩ := Option.isSome_iff_exists.mp (parseI64_isSome float (by omega))
      exact ⟨.integer n, by rw [convert, if_neg Bool.false_ne_true, known]; rfl⟩

section Run

variable {bounds : Bounds} {x : Lexeme} (short : x.render.length ≤ bounds .numberLexemeBytes)

include short

theorem parseLexeme_overflow (h : Overflows x) :
    parseLexeme bounds x.render = .error .overflow := by
  rw [parseLexeme, require_ok short, ok_bind, decomposeNumber_overflow h, error_bind]

/-- Within range a lexeme is accepted or refused by its digits and the saturated scale. -/
theorem parseLexeme_verdict (h : ¬Overflows x) :
    if Decimal.AtMost x.coefficient (saturatedScale x) (limit bounds x) then
      ∃ value, parseLexeme bounds x.render = .ok value
    else parseLexeme bounds x.render = .error .invalid := by
  have size : x.render.length ≤ 64 := short.trans (bounds.tightens _)
  have digits := length_digits size
  have fraction : x.fractionDigits.length ≤ 64 := by
    rw [List.length_append] at digits
    omega
  have exponent := saturatedExponent_bounds x
  have small : limit bounds x < 10 ^ 20 := (limit_small bounds x).trans_lt (by decide)
  have float : (x.render.any fun b => b = 0x2E || b = 0x65 || b = 0x45) = x.isFloat :=
    V1.Json.floatLexeme_render x
  have scale : i64 (saturatedExponent x - x.fractionDigits.length) = .ok (saturatedScale x) :=
    i64_ok (by omega) (by omega)
  have compared : magnitudeOk (stripLeadingZeros (x.integer.bytes ++ x.fractionDigits))
      (saturatedScale x) (limit bounds x) =
        .ok (decide (Decimal.AtMost x.coefficient (saturatedScale x) (limit bounds x))) := by
    have low : -2000 ≤ saturatedScale x := by
      rw [saturatedScale]
      omega
    have high : saturatedScale x ≤ 2000 := by
      rw [saturatedScale]
      omega
    exact magnitudeOk_eq (digits_of_lexeme x) digits low high (limit_pos bounds x) small
  have bound : (if x.isFloat = true then bounds .floatMagnitude else bounds .integerMagnitude) =
      limit bounds x := rfl
  rw [parseLexeme, require_ok short, ok_bind, decomposeNumber_render h, ok_bind]
  simp only [scale, float, bound, compared, ok_bind]
  by_cases within : Decimal.AtMost x.coefficient (saturatedScale x) (limit bounds x)
  · rw [if_pos within, require_ok (decide_eq_true within), ok_bind]
    exact convert_isOk size within
  · rw [if_neg within, decide_eq_false within, require_invalid Bool.false_ne_true, error_bind]

variable {rest : Bytes} (stop : StopsNumber rest)

include stop

omit short in
theorem parseNumber_eq : parseNumber bounds (x.render ++ rest) =
    parseLexeme bounds x.render >>= fun value => .ok (value, rest) := by
  have scanned : scanNumberLexeme (x.render ++ rest) = some rest := by
    rw [scanNumberLexeme_eq, Lexeme.parse_render x stop]
    rfl
  have lexeme : (x.render ++ rest).take ((x.render ++ rest).length - rest.length) = x.render := by
    rw [List.length_append, Nat.add_sub_cancel, List.take_left]
  rw [parseNumber, scanned, okOr, ok_bind, lexeme]

/-- The arithmetic stays inside its range and a lexeme is accepted by its exact
magnitude, exactly when its exponent is below `2^63` and it is not misjudged. -/
theorem parseNumber_exact :
    (parseNumber bounds (x.render ++ rest) ≠ .error .overflow ∧
      ((∃ out, parseNumber bounds (x.render ++ rest) = .ok out) ↔ x.AtMost (limit bounds x))) ↔
        ¬Overflows x ∧ ¬Misjudged bounds x := by
  have size : x.render.length ≤ 64 := short.trans (bounds.tightens _)
  have pos := limit_pos bounds x
  have small : limit bounds x < 10 ^ 20 := (limit_small bounds x).trans_lt (by decide)
  rw [parseNumber_eq stop]
  by_cases large : Overflows x
  · rw [parseLexeme_overflow short large, error_bind]
    exact iff_of_false (fun h => h.1 rfl) fun h => h.1 large
  · have verdict := parseLexeme_verdict short large
    have inRange : (parseLexeme bounds x.render >>= fun value => .ok (value, rest)) ≠
        .error .overflow := by
      intro fault
      split at verdict
      next =>
        obtain ⟨value, accepted⟩ := verdict
        rw [accepted] at fault
        cases fault
      next =>
        rw [verdict] at fault
        cases fault
    have accepted : (∃ out, (parseLexeme bounds x.render >>= fun value => .ok (value, rest)) =
        Except.ok out) ↔ Decimal.AtMost x.coefficient (saturatedScale x) (limit bounds x) := by
      split at verdict
      next within =>
        obtain ⟨value, accepted⟩ := verdict
        exact iff_of_true ⟨(value, rest), by rw [accepted]; rfl⟩ within
      next beyond =>
        refine iff_of_false ?_ beyond
        rintro ⟨out, same⟩
        rw [verdict] at same
        cases same
    rw [accepted, and_iff_right inRange, and_iff_right large]
    by_cases padded : ∃ e ∈ x.exponent, Padded e
    · obtain ⟨e, known, padded⟩ := padded
      rw [verdict_padded size pos small known padded]
      have misjudged : Misjudged bounds x ↔
          x.coefficient ≠ 0 ∧ (e.sign = some true ↔ ¬x.AtMost (limit bounds x)) := by
        constructor
        · rintro ⟨e', other, -, rest⟩
          rw [Option.mem_def.mp known] at other
          exact Option.some.inj other ▸ rest
        · intro h
          exact ⟨e, known, padded, h⟩
      rw [misjudged]
      by_cases zero : x.coefficient = 0
      · have within : x.AtMost (limit bounds x) := by
          rw [Lexeme.AtMost, Decimal.AtMost, zero, Nat.zero_mul]
          exact Nat.zero_le _
        simp [zero, within]
      · by_cases minus : e.sign = some true <;> simp [zero, minus]
    · have exact_ := verdict_exact size pos small fun e known padded' => padded ⟨e, known, padded'⟩
      refine iff_of_true exact_ ?_
      rintro ⟨e, known, padded', -⟩
      exact padded ⟨e, known, padded'⟩

end Run

/-- `1e` and some digits. -/
def oneTo (digits : Digits) : Lexeme where
  negative := false
  integer := ⟨[0x31], by decide +kernel, by decide +kernel⟩
  fraction := none
  exponent := some ⟨false, none, digits⟩
  noLeadingZero := fun _ zero => absurd (List.cons.inj zero).1 (by decide)

theorem parseNumber_exact_sample :
    parseNumber .maximum (ascii "1e15,") ≠ .error .overflow ∧
      ((∃ out, parseNumber .maximum (ascii "1e15,") = .ok out) ↔
        (oneTo ⟨ascii "15", by decide +kernel, by decide +kernel⟩).AtMost
          (limit .maximum (oneTo ⟨ascii "15", by decide +kernel, by decide +kernel⟩))) := by
  refine (@parseNumber_exact .maximum (oneTo ⟨ascii "15", by decide +kernel, by decide +kernel⟩)
    (by decide) (ascii ",") ?_).mpr ⟨?_, ?_⟩
  · rintro b ⟨⟩
    decide
  · rintro ⟨e, ⟨⟩, large⟩
    exact absurd large (by decide)
  · rintro ⟨e, ⟨⟩, padded, -⟩
    exact absurd padded.1 (by decide)

/-- A padded exponent is refused within the bound, and a long one overflows. -/
theorem padded_exponent_refused : ¬∀ (bounds : Bounds) (x : Lexeme) (rest : Bytes),
    x.render.length ≤ bounds .numberLexemeBytes → StopsNumber rest →
      parseNumber bounds (x.render ++ rest) ≠ .error .overflow ∧
        ((∃ out, parseNumber bounds (x.render ++ rest) = .ok out) ↔ x.AtMost (limit bounds x)) := by
  intro claim
  obtain ⟨-, accepted⟩ :=
    claim .maximum (oneTo ⟨ascii "0001", by decide +kernel, by decide +kernel⟩) []
    (by decide) fun b h => by cases h
  have refused : (parseNumber .maximum
      ((oneTo ⟨ascii "0001", by decide +kernel, by decide +kernel⟩).render ++ [])).toOption.isSome =
      false := by
    decide
  obtain ⟨out, same⟩ := accepted.mpr (by decide)
  rw [same] at refused
  cases refused

end BoundedAuthority.Rust.Json
