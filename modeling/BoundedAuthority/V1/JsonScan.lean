import BoundedAuthority.V1.Json
import BoundedAuthority.Wire.JsonGrammar

/-!
# The scan for number lexemes is exact

On a text of the grammar the scan stops at each number outside strings, takes
exactly its lexeme, and compares its decimal value with the magnitude bound
without rounding (`magnitudeWithin_iff`).  So the scan is a condition on the
lexemes of the text (`numberLexemesValid_iff`), whatever its nesting and its
strings are.
-/

namespace BoundedAuthority.V1.Json

open Wire

/-- The bounds on one number lexeme. -/
structure LexemeWithin (bounds : Bounds) (x : Lexeme) : Prop where
  size : x.render.length ≤ bounds .numberLexemeBytes
  magnitude :
    x.AtMost (if x.isFloat then bounds .floatMagnitude else bounds .integerMagnitude)

variable {bounds : Bounds}

/-! ## One lexeme -/

theorem digitCount_append {ds r : Bytes} (digits : ∀ b ∈ ds, isDigit b = true)
    (stop : ∀ b ∈ r.head?, isDigit b = false) : digitCount (ds ++ r) = ds.length := by
  rw [digitCount, (span_append digits stop).1]

set_option maxRecDepth 4096 in
theorem takeIntegerDigits_append {ds : Digits} {rest : Bytes}
    (zero : ∀ tail, ds.bytes = 0x30 :: tail → tail = [])
    (stop : ∀ b ∈ rest.head?, isDigit b = false) :
    takeIntegerDigits (ds.bytes ++ rest) = some (ds.bytes, rest) := by
  have count := digitCount_append ds.digits stop
  cases h : ds.bytes with
  | nil => exact absurd h ds.nonempty
  | cons d tail =>
      rw [h, List.cons_append] at count
      simp only [List.cons_append, takeIntegerDigits, count]
      by_cases isZero : d = 0x30
      · obtain rfl := zero tail (by rw [h, isZero])
        simp [isZero]
      · have digit := ds.digits d (by rw [h]; exact List.mem_cons_self)
        have nonzero : within 0x31 0x39 d = true := by
          revert digit isZero
          exact byte_forall (P := fun d => d ≠ 0x30 → isDigit d = true → within 0x31 0x39 d = true)
            (by decide) d
        rw [if_neg isZero, if_pos nonzero]
        simp

theorem takeFractionDigits_append {f : Option Digits} {rest : Bytes}
    (stop : ∀ b ∈ rest.head?, isDigit b = false ∧ b ≠ 0x2E) :
    takeFractionDigits (Lexeme.renderFraction f ++ rest) =
      some ((f.map Digits.bytes).getD [], rest) := by
  cases f with
  | none =>
      unfold takeFractionDigits
      split
      next tail h => exact absurd rfl (stop 0x2E (by rw [show rest = _ from h]; rfl)).2
      next => rfl
  | some ds =>
      have count := digitCount_append ds.digits fun b hb => (stop b hb).1
      have pos := List.length_pos_of_ne_nil ds.nonempty
      simp only [Lexeme.renderFraction, List.cons_append, takeFractionDigits, count, if_pos pos]
      simp

theorem exponentSign_append {s : Option Bool} {d : Digits} {r : Bytes} :
    exponentSign (Exponent.renderSign s ++ (d.bytes ++ r)) =
      (if s = some true then -1 else 1, d.bytes ++ r) := by
  match s with
  | some true => rfl
  | some false => rfl
  | none =>
      cases h : d.bytes with
      | nil => exact absurd h d.nonempty
      | cons b tail =>
          have digit := d.digits b (by rw [h]; exact List.mem_cons_self)
          simp only [Exponent.renderSign, List.nil_append, List.cons_append]
          unfold exponentSign
          split
          next same => rw [List.cons.injEq] at same; rw [same.1] at digit; cases digit
          next same => rw [List.cons.injEq] at same; rw [same.1] at digit; cases digit
          next => rfl

theorem takeExponent_render (exponent : Option Exponent) :
    takeExponent (Lexeme.renderExponent exponent) =
      some ((exponent.map Exponent.value).getD 0, []) := by
  cases exponent with
  | none => rfl
  | some e =>
      have count := digitCount_append (r := []) e.digits.digits (by simp)
      have pos := List.length_pos_of_ne_nil e.digits.nonempty
      have sign := exponentSign_append (s := e.sign) (d := e.digits) (r := [])
      rw [List.append_nil] at sign count
      have marker : (if e.upper then 0x45 else 0x65 : UInt8) = 0x65 ∨
          (if e.upper then 0x45 else 0x65 : UInt8) = 0x45 := by cases e.upper <;> simp
      simp only [Lexeme.renderExponent, Exponent.render, takeExponent, marker, if_true, sign, count,
        if_pos pos, Exponent.value, Option.map_some, Option.getD_some]
      split <;> simp

theorem parseNumberLexeme_render (x : Lexeme) :
    parseNumberLexeme x.render = some (x.integer.bytes, x.fractionDigits, x.exponentValue) := by
  have stopFraction := Lexeme.head_renderExponent (e := x.exponent) (r := [])
    (by simp [StopsNumber])
  rw [List.append_nil] at stopFraction
  have stopInteger := Lexeme.head_renderFraction (f := x.fraction) stopFraction
  have integer := takeIntegerDigits_append x.noLeadingZero stopInteger
  have fraction := takeFractionDigits_append (f := x.fraction) stopFraction
  have exponent := takeExponent_render x.exponent
  have unsigned : parseUnsignedNumber x.renderUnsigned =
      some (x.integer.bytes, x.fractionDigits, x.exponentValue) := by
    simp only [parseUnsignedNumber, Lexeme.renderUnsigned, List.append_assoc, integer, fraction,
      exponent, Option.bind_eq_bind, Option.bind_some, guard_bind_eq_some, true_and]
    unfold Lexeme.fractionDigits Lexeme.exponentValue
    cases x.fraction <;> cases x.exponent <;> rfl
  unfold Lexeme.render
  cases x.negative with
  | true => exact unsigned
  | false =>
      simp only [Bool.false_eq_true, if_false, List.nil_append]
      unfold parseNumberLexeme
      split
      next tail h =>
        cases hd : x.integer.bytes with
        | nil => exact absurd hd x.integer.nonempty
        | cons d ds =>
            have digit := x.integer.digits d (by rw [hd]; exact List.mem_cons_self)
            simp only [Lexeme.renderUnsigned, hd, List.cons_append, List.cons.injEq] at h
            rw [h.1] at digit
            cases digit
      next => exact unsigned

theorem any_eq_false_of_digits {p : UInt8 → Bool} {ds : Bytes}
    (digits : ∀ b ∈ ds, isDigit b = true) (h : ∀ b, isDigit b = true → p b = false) :
    ds.any p = false := by
  rw [List.any_eq_false]
  intro b hb
  rw [h b (digits b hb)]
  decide

set_option maxRecDepth 4096 in
theorem floatLexeme_render (x : Lexeme) : floatLexeme x.render = x.isFloat := by
  have notMark : ∀ b, isDigit b = true → (b = 0x2E || b = 0x65 || b = 0x45) = false :=
    byte_forall (by decide)
  have integer := any_eq_false_of_digits x.integer.digits notMark
  have sign : (if x.negative then [0x2D] else [] : Bytes).any
      (fun b => b = 0x2E || b = 0x65 || b = 0x45) = false := by cases x.negative <;> rfl
  unfold floatLexeme Lexeme.render Lexeme.renderUnsigned Lexeme.isFloat
  rw [List.any_append, List.any_append, List.any_append, sign, integer]
  cases x.fraction with
  | some ds => simp [Lexeme.renderFraction]
  | none =>
      cases x.exponent with
      | none => rfl
      | some e => cases hu : e.upper <;> simp [Lexeme.renderFraction, Lexeme.renderExponent,
          Exponent.render, hu]

/-! ## Magnitudes -/

theorem value_trimLeadingZeroes (digits : Bytes) :
    Decimal.value (trimLeadingZeroes digits) = Decimal.value digits := by
  induction digits with
  | nil => rfl
  | cons d ds ih =>
      by_cases zero : d = 0x30
      · rw [Decimal.value_cons, ← ih, zero]
        simp [trimLeadingZeroes, Decimal.digitValue]
      · simp [trimLeadingZeroes, zero]

theorem mem_trimLeadingZeroes {digits : Bytes} {b : UInt8} (h : b ∈ trimLeadingZeroes digits) :
    b ∈ digits := (List.dropWhile_suffix _).mem h

theorem head_trimLeadingZeroes {digits tail : Bytes} {b : UInt8}
    (h : trimLeadingZeroes digits = b :: tail) : b ≠ 0x30 := by
  have := head_dropWhile (fun b => decide (b = 0x30)) digits b (by
    rw [show digits.dropWhile _ = _ from h]; rfl)
  simpa using this

/-- Digits that agree in number with those of the maximum are compared as numbers. -/
theorem compareBoundary_iff {significant : Bytes} (digits : ∀ b ∈ significant, isDigit b = true)
    {e : Int} {maximum : Nat}
    (boundary : significant.length + e = (Decimal.ofNat maximum).length) :
    compareBoundary significant (Decimal.ofNat maximum) = true ↔
      Decimal.AtMost (Decimal.value significant) e maximum := by
  have maximumDigits := Decimal.ofNat_digits maximum
  have maximumValue := Decimal.value_ofNat maximum
  -- the first digits, as many as the maximum has, against the maximum
  have compare : ∀ integer : Bytes, (∀ b ∈ integer, isDigit b = true) →
      integer.length = (Decimal.ofNat maximum).length →
      ((!leBytes (Decimal.ofNat maximum) integer) = true ↔ Decimal.value integer < maximum) ∧
        (integer = Decimal.ofNat maximum ↔ Decimal.value integer = maximum) := by
    intro integer hd length
    have lt := Decimal.value_lt_iff hd maximumDigits length
    have gt := Decimal.value_lt_iff maximumDigits hd length.symm
    rw [maximumValue] at lt gt
    refine ⟨by rw [lt, Bool.not_eq_true'], ?_, ?_⟩
    · rintro same
      rw [same, maximumValue]
    · intro same
      refine leBytes_antisymm ?_ ?_
      · by_contra h
        have := gt.mpr (by simpa using h)
        omega
      · by_contra h
        have := lt.mpr (by simpa using h)
        omega
  unfold compareBoundary
  by_cases long : significant.length ≥ (Decimal.ofNat maximum).length
  · simp only [if_pos long]
    have taken : ∀ b ∈ significant.take (Decimal.ofNat maximum).length, isDigit b = true :=
      fun b hb => digits b (List.mem_of_mem_take hb)
    have dropped : ∀ b ∈ significant.drop (Decimal.ofNat maximum).length, isDigit b = true :=
      fun b hb => digits b (List.mem_of_mem_drop hb)
    obtain ⟨lt, eq⟩ := compare _ taken (by simp [List.length_take]; omega)
    have point := Decimal.atMost_point dropped (m := maximum)
      (i := significant.take (Decimal.ofNat maximum).length)
    rw [List.take_append_drop, show -((significant.drop _).length : Int) = e by
      simp [List.length_drop]; omega] at point
    rw [point, Bool.or_eq_true, lt, Bool.and_eq_true, decide_eq_true_eq, eq,
      Decimal.value_eq_zero dropped, List.all_eq_true]
    simp
  · simp only [if_neg long]
    have padded : ∀ b ∈ significant ++
        List.replicate ((Decimal.ofNat maximum).length - significant.length) 0x30,
        isDigit b = true := by
      intro b hb
      rcases List.mem_append.mp hb with hb | hb
      · exact digits b hb
      · obtain ⟨-, rfl⟩ := List.mem_replicate.mp hb
        rfl
    obtain ⟨lt, eq⟩ := compare _ padded (by simp; omega)
    have pad := Decimal.atMost_pad (s := significant) (m := maximum)
      (n := (Decimal.ofNat maximum).length - significant.length)
    rw [show (((Decimal.ofNat maximum).length - significant.length : Nat) : Int) = e by omega]
      at pad
    rw [pad, Bool.or_eq_true, lt, Bool.and_eq_true, decide_eq_true_eq, eq]
    simp
    omega

/-- The comparison by digit counts is exact. -/
theorem magnitudeWithin_iff {digits : Bytes} (hd : ∀ b ∈ digits, isDigit b = true)
    {fractionLength : Nat} {exponent : Int} {maximum : Nat} (pos : 0 < maximum) :
    magnitudeWithin digits fractionLength exponent maximum = true ↔
      Decimal.AtMost (Decimal.value digits) (exponent - fractionLength) maximum := by
  rw [← value_trimLeadingZeroes]
  have trimmed : ∀ b ∈ trimLeadingZeroes digits, isDigit b = true :=
    fun b hb => hd b (mem_trimLeadingZeroes hb)
  have low := Decimal.pow_le_of_ofNat pos
  have high := Decimal.lt_pow_length_ofNat maximum
  have maximumLength := List.length_pos_of_ne_nil (Decimal.ofNat_ne_nil maximum)
  unfold magnitudeWithin
  cases h : trimLeadingZeroes digits with
  | nil => simp [Decimal.AtMost]
  | cons d ds =>
      rw [h] at trimmed
      have nonzero := head_trimLeadingZeroes h
      have digit := trimmed d List.mem_cons_self
      dsimp only
      split
      next short =>
        simp only [List.length_cons] at short
        simp only [true_iff]
        exact Decimal.atMost_of_short trimmed low (by simp only [List.length_cons]; omega)
      next =>
        split
        next long =>
          simp only [List.length_cons] at long
          simp only [Bool.false_eq_true, false_iff]
          exact Decimal.not_atMost_of_long digit nonzero high (by push_cast at long; omega)
        next => exact compareBoundary_iff trimmed (by omega)

theorem validNumberLexeme_render (x : Lexeme) :
    validNumberLexeme x.render bounds = true ↔ LexemeWithin bounds x := by
  have digits : ∀ b ∈ x.integer.bytes ++ x.fractionDigits, isDigit b = true := by
    intro b hb
    rcases List.mem_append.mp hb with hb | hb
    · exact x.integer.digits b hb
    · unfold Lexeme.fractionDigits at hb
      split at hb
      next => cases hb
      next f _ => exact f.digits b hb
  have pos : 0 < if x.isFloat then bounds .floatMagnitude else bounds .integerMagnitude := by
    split <;> exact bounds.positive _
  simp only [validNumberLexeme, parseNumberLexeme_render, floatLexeme_render, Bool.and_eq_true,
    decide_eq_true_eq, magnitudeWithin_iff digits pos]
  exact ⟨fun h => ⟨h.1, h.2⟩, fun h => ⟨h.size, h.magnitude⟩⟩

/-! ## The candidate -/

set_option maxRecDepth 4096 in
theorem endsCandidate_digits {ds : Digits} : ∀ b ∈ ds.bytes, endsCandidate b = false := by
  intro b hb
  have := ds.digits b hb
  revert this
  exact byte_forall (P := fun b => isDigit b = true → endsCandidate b = false) (by decide) b

/-- Nothing inside a lexeme ends it. -/
theorem endsCandidate_render (x : Lexeme) : ∀ b ∈ x.render, endsCandidate b = false := by
  intro b hb
  simp only [Lexeme.render, Lexeme.renderUnsigned, List.mem_append] at hb
  rcases hb with minus | (integer | fraction) | exponent
  · cases hn : x.negative with
    | true => obtain rfl : b = 0x2D := by simpa [hn] using minus
              decide
    | false => simp [hn] at minus
  · exact endsCandidate_digits b integer
  · unfold Lexeme.renderFraction at fraction
    split at fraction
    next => cases fraction
    next f _ =>
      rcases List.mem_cons.mp fraction with rfl | fraction
      · decide
      · exact endsCandidate_digits b fraction
  · unfold Lexeme.renderExponent at exponent
    split at exponent
    next => cases exponent
    next e _ =>
      simp only [Exponent.render, List.mem_cons, List.mem_append] at exponent
      rcases exponent with rfl | sign | digits
      · cases e.upper <;> decide
      · unfold Exponent.renderSign at sign
        split at sign
        next => cases sign
        next minus _ =>
          obtain rfl := List.mem_singleton.mp sign
          cases minus <;> decide
      · exact endsCandidate_digits b digits

/-- What follows a number in a text ends its candidate. -/
def EndsCandidate (rest : Bytes) : Prop := ∀ b ∈ rest.head?, endsCandidate b = true

theorem numberCandidateLength_append {run rest : Bytes} (h : ∀ b ∈ run, endsCandidate b = false)
    (stop : EndsCandidate rest) (maximum : Nat) : ∀ length,
    numberCandidateLength (run ++ rest) length maximum =
      if length + run.length ≤ maximum then some (length + run.length) else none := by
  induction run with
  | nil =>
      intro length
      unfold numberCandidateLength
      cases rest with
      | nil =>
          simp only [List.nil_append, List.length_nil, Nat.add_zero]
          split <;> split <;> first | rfl | omega
      | cons b rest =>
          have := stop b rfl
          simp only [List.nil_append, List.length_nil, Nat.add_zero, this, if_true]
          split <;> split <;> first | rfl | omega
  | cons b run ih =>
      intro length
      have inside := h b List.mem_cons_self
      have := ih (fun c hc => h c (List.mem_cons_of_mem _ hc)) (length + 1)
      rw [List.cons_append, numberCandidateLength]
      simp only [inside, Bool.false_eq_true, if_false, this, List.length_cons]
      split
      next => rw [if_neg (by omega)]
      next =>
        split
        next => rw [if_pos (by omega)]; congr 1; omega
        next => rw [if_neg (by omega)]

theorem le_numberCandidateLength {maximum length : Nat} : ∀ {bs : Bytes} {start : Nat},
    numberCandidateLength bs start maximum = some length → start ≤ length := by
  intro bs
  induction bs with
  | nil =>
      intro start h
      unfold numberCandidateLength at h
      split at h
      next => cases h
      next => cases h; exact Nat.le_refl _
  | cons b bs ih =>
      intro start h
      unfold numberCandidateLength at h
      split at h
      next => cases h
      next =>
        simp only at h
        split at h
        next => cases h; exact Nat.le_refl _
        next => have := ih h; omega

/-- A byte that starts a number. -/
def startsNumber (b : UInt8) : Prop := b = 0x2D ∨ isDigit b = true

set_option maxRecDepth 4096 in
theorem endsCandidate_of_startsNumber {b : UInt8} (h : startsNumber b) :
    endsCandidate b = false := by
  rcases h with rfl | digit
  · decide
  · revert digit
    exact byte_forall (P := fun b => isDigit b = true → endsCandidate b = false) (by decide) b

/-- A candidate takes at least the byte it starts with. -/
theorem numberCandidateLength_pos {maximum length : Nat} {b : UInt8} {bs : Bytes}
    (start : startsNumber b) (h : numberCandidateLength (b :: bs) 0 maximum = some length) :
    0 < length := by
  unfold numberCandidateLength at h
  simp only [Nat.not_lt_zero, gt_iff_lt, if_false, endsCandidate_of_startsNumber start,
    Bool.false_eq_true] at h
  exact le_numberCandidateLength h

/-! ## The scan without fuel -/

theorem scanString_escape (n : Nat) (c : UInt8) (rest : Bytes) :
    scanString bounds (n + 1) (0x5C :: c :: rest) = scanString bounds n rest := rfl

theorem scanString_quote (n : Nat) (rest : Bytes) :
    scanString bounds (n + 1) (0x22 :: rest) = scanJson bounds n rest := by
  cases rest <;> rfl

theorem scanString_lone (n : Nat) : scanString bounds (n + 1) [0x5C] = false := by
  cases n <;> rfl

theorem scanString_other (n : Nat) {b : UInt8} (rest : Bytes) (escape : b ≠ 0x5C)
    (quote : b ≠ 0x22) :
    scanString bounds (n + 1) (b :: rest) = scanString bounds n rest := by
  rw [scanString]
  · intro c tail same _
    exact escape same
  · exact quote

/-- Any fuel that covers the input gives the same scan. -/
theorem scan_fuel : ∀ (n m : Nat) (bs : Bytes), bs.length ≤ n → bs.length ≤ m →
    scanJson bounds n bs = scanJson bounds m bs ∧ scanString bounds n bs = scanString bounds m bs
  | n, m, [], _, _ => by constructor <;> cases n <;> cases m <;> rfl
  | 0, _, _ :: _, h, _ => by simp at h
  | _ + 1, 0, _ :: _, _, h => by simp at h
  | n + 1, m + 1, b :: bs, hn, hm => by
      simp only [List.length_cons, Nat.add_le_add_iff_right] at hn hm
      obtain ⟨json, string⟩ := scan_fuel n m bs hn hm
      constructor
      · simp only [scanJson, json, string]
        split
        next => rfl
        next =>
          split
          next start =>
            split
            next length found =>
              have positive := numberCandidateLength_pos start found
              have shorter : ((b :: bs).drop length).length ≤ bs.length := by
                simp only [List.length_drop, List.length_cons]
                omega
              rw [(scan_fuel n m ((b :: bs).drop length) (by omega) (by omega)).1]
            next => rfl
          next => rfl
      · by_cases escape : b = 0x5C
        · subst escape
          cases bs with
          | nil => rw [scanString_lone, scanString_lone]
          | cons c bs =>
              simp only [List.length_cons] at hn hm
              rw [scanString_escape, scanString_escape, (scan_fuel n m bs (by omega) (by omega)).2]
        · by_cases quote : b = 0x22
          · rw [quote, scanString_quote, scanString_quote, json]
          · rw [scanString_other _ _ escape quote, scanString_other _ _ escape quote, string]

/-- The scan outside strings. -/
def scan (bounds : Bounds) (bs : Bytes) : Bool := scanJson bounds bs.length bs

/-- The scan inside a string. -/
def scanInside (bounds : Bounds) (bs : Bytes) : Bool := scanString bounds bs.length bs

theorem scan_quote (rest : Bytes) : scan bounds (0x22 :: rest) = scanInside bounds rest := rfl

theorem scan_other {b : UInt8} (rest : Bytes) (quote : b ≠ 0x22) (number : ¬ startsNumber b) :
    scan bounds (b :: rest) = scan bounds rest := by
  have number : ¬ (b = 0x2D ∨ isDigit b = true) := number
  simp only [scan, List.length_cons, scanJson, quote, number, if_false]

/-- Bytes of a run that neither opens a string nor starts a number are skipped. -/
theorem scan_run {run : Bytes} (rest : Bytes) (h : ∀ b ∈ run, b ≠ 0x22 ∧ ¬ startsNumber b) :
    scan bounds (run ++ rest) = scan bounds rest := by
  induction run with
  | nil => rfl
  | cons b run ih =>
      obtain ⟨quote, number⟩ := h b List.mem_cons_self
      rw [List.cons_append, scan_other _ quote number]
      exact ih fun c hc => h c (List.mem_cons_of_mem _ hc)

set_option maxRecDepth 4096 in
theorem scan_blank (blank : Blank) (rest : Bytes) :
    scan bounds (blank.val ++ rest) = scan bounds rest := by
  refine scan_run rest fun b hb => ?_
  have := blank.property b hb
  revert this
  exact byte_forall (P := fun b => isBlank b = true → b ≠ 0x22 ∧ ¬ (b = 0x2D ∨ isDigit b = true))
    (by decide) b

/-- A number is checked and skipped. -/
theorem scan_lexeme (x : Lexeme) {rest : Bytes} (stop : EndsCandidate rest) :
    scan bounds (x.render ++ rest) = (validNumberLexeme x.render bounds && scan bounds rest) := by
  obtain ⟨b, tail, h, start⟩ := head_render_lexeme x
  have quote : b ≠ 0x22 := by
    rintro rfl
    rcases start with start | start <;> cases start
  have candidate := numberCandidateLength_append (endsCandidate_render x) stop
    (bounds .numberLexemeBytes) 0
  rw [h, List.cons_append, Nat.zero_add] at candidate
  rw [h, List.cons_append]
  by_cases size : (b :: tail).length ≤ bounds .numberLexemeBytes
  · rw [if_pos size] at candidate
    simp only [scan, List.length_cons, scanJson, quote, start, if_true, if_false, candidate]
    rw [← List.length_cons (a := b), ← List.cons_append, List.take_left, List.drop_left,
      (scan_fuel (tail ++ rest).length rest.length rest (by simp) (Nat.le_refl _)).1]
  · rw [if_neg size] at candidate
    simp only [scan, List.length_cons, scanJson, quote, start, if_true, if_false, candidate]
    have tooLong : validNumberLexeme (b :: tail) bounds = false := by
      simp only [validNumberLexeme, Bool.and_eq_false_iff, decide_eq_false_iff_not]
      exact .inl size
    rw [tooLong, Bool.false_and]

theorem scanInside_other {b : UInt8} (rest : Bytes) (escape : b ≠ 0x5C) (quote : b ≠ 0x22) :
    scanInside bounds (b :: rest) = scanInside bounds rest := by
  rw [scanInside, List.length_cons, scanString_other _ _ escape quote]
  rfl

theorem scanInside_escape (c : UInt8) (rest : Bytes) :
    scanInside bounds (0x5C :: c :: rest) = scanInside bounds rest := by
  rw [scanInside, List.length_cons, scanString_escape]
  exact (scan_fuel _ _ rest (by simp) (Nat.le_refl _)).2

theorem scanInside_close (rest : Bytes) : scanInside bounds (0x22 :: rest) = scan bounds rest := by
  rw [scanInside, List.length_cons, scanString_quote]
  rfl

theorem scanInside_run {run : Bytes} (rest : Bytes) (h : ∀ b ∈ run, b ≠ 0x5C ∧ b ≠ 0x22) :
    scanInside bounds (run ++ rest) = scanInside bounds rest := by
  induction run with
  | nil => rfl
  | cons b run ih =>
      obtain ⟨escape, quote⟩ := h b List.mem_cons_self
      rw [List.cons_append, scanInside_other _ escape quote]
      exact ih fun c hc => h c (List.mem_cons_of_mem _ hc)

set_option maxRecDepth 4096 in
theorem plain_hex4 (u : Hex4) : ∀ b ∈ u.bytes, b ≠ 0x5C ∧ b ≠ 0x22 := by
  have plain : ∀ b, isHex b = true → b ≠ 0x5C ∧ b ≠ 0x22 := byte_forall (by decide)
  intro b hb
  simp only [Hex4.bytes, List.mem_cons, List.not_mem_nil, or_false] at hb
  obtain ⟨ha, hb', hc, hd⟩ := u.hex
  rcases hb with rfl | rfl | rfl | rfl
  · exact plain _ ha
  · exact plain _ hb'
  · exact plain _ hc
  · exact plain _ hd

theorem plain_unescaped {c : Char} (h : isUnescaped c = true) :
    ∀ b ∈ String.utf8EncodeChar c, b ≠ 0x5C ∧ b ≠ 0x22 := by
  obtain ⟨lead, tail, hc, notContinuation, continuations, length, value⟩ := Utf8.encodeChar_shape c
  simp only [isUnescaped, Bool.and_eq_true, decide_eq_true_eq] at h
  have ascii : ∀ b : UInt8, b < 0x80 → lead = b → c.toNat = b.toNat := by
    intro b small same
    subst same
    obtain rfl : tail = [] := by
      have : tail.length = 0 := by simpa [Utf8.sequenceLength, small] using length.symm
      exact List.length_eq_zero_iff.mp this
    exact value.symm
  rw [hc]
  intro b hb
  rcases List.mem_cons.mp hb with rfl | hb
  · exact ⟨fun same => h.2 (ascii 0x5C (by decide) same),
      fun same => h.1.2 (ascii 0x22 (by decide) same)⟩
  · have := continuations b hb
    constructor <;> rintro rfl <;> exact absurd this.1 (by decide)

/-- A string literal is skipped whole. -/
theorem scanInside_chars (cs : List RawChar) (rest : Bytes) :
    scanInside bounds (RawChar.renderAll cs ++ rest) = scan bounds rest := by
  induction cs with
  | nil => exact scanInside_close rest
  | cons c cs ih =>
      rw [RawChar.renderAll, List.append_assoc]
      cases c with
      | unescaped c h => rw [RawChar.render, scanInside_run _ (plain_unescaped h), ih]
      | escape letter h =>
          simp only [RawChar.render, List.cons_append, List.nil_append]
          rw [scanInside_escape, ih]
      | unit u =>
          simp only [RawChar.render, List.cons_append]
          rw [scanInside_escape, scanInside_run _ (plain_hex4 u), ih]

/-! ## Texts -/

/-- All number lexemes of a list are within the bounds. -/
def LexemesWithin (bounds : Bounds) (xs : List Lexeme) : Prop := ∀ x ∈ xs, LexemeWithin bounds x

theorem lexemesWithin_append {xs ys : List Lexeme} : LexemesWithin bounds (xs ++ ys) ↔
    LexemesWithin bounds xs ∧ LexemesWithin bounds ys := by
  simp only [LexemesWithin, List.forall_mem_append]

theorem endsCandidate_blank (blank : Blank) {b : UInt8} (rest : Bytes)
    (h : endsCandidate b = true) : EndsCandidate (blank.val ++ b :: rest) := by
  obtain ⟨bs, all⟩ := blank
  intro c hc
  cases bs with
  | nil =>
      obtain rfl : b = c := by simpa using hc
      exact h
  | cons d bs =>
      obtain rfl : d = c := by simpa using hc
      simp [endsCandidate, all d List.mem_cons_self]

theorem scan_structural {b : UInt8} (rest : Bytes)
    (h : b = 0x5B ∨ b = 0x5D ∨ b = 0x7B ∨ b = 0x7D ∨ b = 0x2C ∨ b = 0x3A) :
    scan bounds (b :: rest) = scan bounds rest := by
  refine scan_other rest ?_ ?_ <;> rcases h with rfl | rfl | rfl | rfl | rfl | rfl <;>
    simp [startsNumber, isDigit, within]

mutual

/-- The scan of a text checks its lexemes and goes on behind it. -/
theorem scan_text : ∀ (t : Raw) {rest : Bytes}, EndsCandidate rest →
    (scan bounds (t.render ++ rest) = true ↔
      LexemesWithin bounds t.lexemes ∧ scan bounds rest = true)
  | .null, rest, _ => by
      rw [Raw.render, scan_run rest (by simp [ascii, startsNumber, isDigit, within])]
      simp [Raw.lexemes, LexemesWithin]
  | .boolean true, rest, _ => by
      rw [Raw.render, scan_run rest (by simp [ascii, startsNumber, isDigit, within])]
      simp [Raw.lexemes, LexemesWithin]
  | .boolean false, rest, _ => by
      rw [Raw.render, scan_run rest (by simp [ascii, startsNumber, isDigit, within])]
      simp [Raw.lexemes, LexemesWithin]
  | .number lexeme, rest, stop => by
      rw [Raw.render, scan_lexeme lexeme stop, Bool.and_eq_true, validNumberLexeme_render]
      simp [Raw.lexemes, LexemesWithin]
  | .string chars, rest, _ => by
      rw [Raw.render, List.cons_append, scan_quote, scanInside_chars]
      simp [Raw.lexemes, LexemesWithin]
  | .emptyArray blank, rest, _ => by
      simp only [Raw.render, List.cons_append, List.append_assoc, List.nil_append]
      rw [scan_structural _ (by simp), scan_blank, scan_structural _ (by simp)]
      simp [Raw.lexemes, LexemesWithin]
  | .emptyObject blank, rest, _ => by
      simp only [Raw.render, List.cons_append, List.append_assoc, List.nil_append]
      rw [scan_structural _ (by simp), scan_blank, scan_structural _ (by simp)]
      simp [Raw.lexemes, LexemesWithin]
  | .array items, rest, _ => by
      rw [Raw.render, List.cons_append, scan_structural _ (by simp)]
      exact scan_items items
  | .object members, rest, _ => by
      rw [Raw.render, List.cons_append, scan_structural _ (by simp)]
      exact scan_members members

theorem scan_items : ∀ (items : RawItems) {rest : Bytes},
    (scan bounds (items.render ++ rest) = true ↔
      LexemesWithin bounds items.lexemes ∧ scan bounds rest = true)
  | .last before value after, rest => by
      simp only [RawItems.render, List.append_assoc, List.cons_append, List.nil_append]
      rw [scan_blank, scan_text value (endsCandidate_blank after rest (by decide)), scan_blank,
        scan_structural _ (by simp), RawItems.lexemes]
  | .more before value after items, rest => by
      simp only [RawItems.render, List.append_assoc, List.cons_append]
      rw [scan_blank, scan_text value (endsCandidate_blank after _ (by decide)), scan_blank,
        scan_structural _ (by simp), scan_items items, RawItems.lexemes, lexemesWithin_append,
        and_assoc]

theorem scan_members : ∀ (members : RawMembers) {rest : Bytes},
    (scan bounds (members.render ++ rest) = true ↔
      LexemesWithin bounds members.lexemes ∧ scan bounds rest = true)
  | .last before name gap space value after, rest => by
      simp only [RawMembers.render, List.append_assoc, List.cons_append, List.nil_append]
      rw [scan_blank, scan_quote, scanInside_chars, scan_blank, scan_structural _ (by simp),
        scan_blank, scan_text value (endsCandidate_blank after rest (by decide)), scan_blank,
        scan_structural _ (by simp), RawMembers.lexemes]
  | .more before name gap space value after members, rest => by
      simp only [RawMembers.render, List.append_assoc, List.cons_append]
      rw [scan_blank, scan_quote, scanInside_chars, scan_blank, scan_structural _ (by simp),
        scan_blank, scan_text value (endsCandidate_blank after _ (by decide)), scan_blank,
        scan_structural _ (by simp), scan_members members, RawMembers.lexemes,
        lexemesWithin_append, and_assoc]

end

/-- On a text of the grammar the scan holds exactly when the number lexemes are within
the bounds. -/
theorem scan_raw_iff (t : Raw) (before after : Blank) :
    numberLexemesValid (before.val ++ (t.render ++ after.val)) bounds = true ↔
      LexemesWithin bounds t.lexemes := by
  have stop : EndsCandidate after.val := by
    intro b hb
    obtain ⟨bs, all⟩ := after
    cases bs with
    | nil => cases hb
    | cons c bs =>
        obtain rfl : c = b := by simpa using hb
        simp [endsCandidate, all c List.mem_cons_self]
  have empty : scan bounds after.val = true := by
    have : scan bounds (after.val ++ []) = scan bounds [] := scan_blank after []
    rw [List.append_nil] at this
    rw [this]
    rfl
  change scan bounds _ = true ↔ _
  rw [scan_blank, scan_text t stop, empty]
  simp

theorem numberLexemesValid_iff {t : Text} (quoted : t.Quoted) (before after : Blank) :
    numberLexemesValid (before.val ++ (t.render ++ after.val)) bounds = true ↔
      LexemesWithin bounds t.lexemes := by
  rw [← Text.render_raw t quoted, ← Text.lexemes_raw t]
  exact scan_raw_iff t.raw before after

/-- The scan of a text is a condition on the lengths and the exact decimal values of its
number lexemes. -/
theorem prescan_exact (bounds : Bounds) (t : Raw) (before after : Blank) :
    numberLexemesValid (before.val ++ (t.render ++ after.val)) bounds = true ↔
      ∀ x ∈ t.lexemes, x.render.length ≤ bounds .numberLexemeBytes ∧
        x.AtMost (if x.isFloat then bounds .floatMagnitude else bounds .integerMagnitude) := by
  rw [scan_raw_iff]
  exact forall₂_congr fun x _ => ⟨fun h => ⟨h.size, h.magnitude⟩, fun h => ⟨h.1, h.2⟩⟩

end BoundedAuthority.V1.Json
