import BoundedAuthority.Wire.JsonValue

/-!
# JSON number lexemes

`number = [ "-" ] int [ frac ] [ exp ]` as a type: a `Lexeme` is one derivation
of the production, `render` its bytes, and `Lexeme.parse` reads one back with
maximal munch.  The value of a lexeme is the decimal `coefficient · 10^scale`,
exactly; a lexeme with a fraction or an exponent denotes the nearest double.
-/

namespace Wire

/-- A nonempty string of digits. -/
@[ext] structure Digits where
  bytes : Bytes
  digits : ∀ b ∈ bytes, isDigit b = true
  nonempty : bytes ≠ []

/-- `exp = ( "e" / "E" ) [ "-" / "+" ] 1*DIGIT` -/
@[ext] structure Exponent where
  upper : Bool
  /-- A sign, and whether it is the minus sign. -/
  sign : Option Bool
  digits : Digits

namespace Exponent

def renderSign (sign : Option Bool) : Bytes :=
  match sign with
  | none => []
  | some minus => [if minus then 0x2D else 0x2B]

def render (x : Exponent) : Bytes :=
  (if x.upper then 0x45 else 0x65) :: (renderSign x.sign ++ x.digits.bytes)

def value (x : Exponent) : Int :=
  if x.sign = some true then -(Decimal.value x.digits.bytes : Int)
  else Decimal.value x.digits.bytes

end Exponent

/-- A number lexeme. -/
@[ext] structure Lexeme where
  negative : Bool
  integer : Digits
  fraction : Option Digits
  exponent : Option Exponent
  /-- `int = zero / ( digit1-9 *DIGIT )` -/
  noLeadingZero : ∀ rest, integer.bytes = 0x30 :: rest → rest = []

namespace Lexeme

/-- The digits of the fraction, none without a fraction. -/
def fractionDigits (x : Lexeme) : Bytes :=
  match x.fraction with
  | none => []
  | some f => f.bytes

def renderFraction (fraction : Option Digits) : Bytes :=
  match fraction with
  | none => []
  | some f => 0x2E :: f.bytes

def renderExponent (exponent : Option Exponent) : Bytes :=
  match exponent with
  | none => []
  | some e => e.render

/-- The lexeme without its sign. -/
def renderUnsigned (x : Lexeme) : Bytes :=
  x.integer.bytes ++ renderFraction x.fraction ++ renderExponent x.exponent

def render (x : Lexeme) : Bytes := (if x.negative then [0x2D] else []) ++ x.renderUnsigned

/-- A lexeme with a fraction or an exponent. -/
def isFloat (x : Lexeme) : Bool := x.fraction.isSome || x.exponent.isSome

/-- The digits of the lexeme as one number. -/
def coefficient (x : Lexeme) : Nat := Decimal.value (x.integer.bytes ++ x.fractionDigits)

def exponentValue (x : Lexeme) : Int :=
  match x.exponent with
  | none => 0
  | some e => e.value

/-- The power of ten the coefficient is scaled by. -/
def scale (x : Lexeme) : Int := x.exponentValue - x.fractionDigits.length

/-- What the lexeme denotes, unless it is a double that overflows. -/
def value? (x : Lexeme) : Option JsonValue :=
  if x.isFloat then (F64.ofDecimal x.negative x.coefficient x.scale).map .float
  else some (.integer (if x.negative then -(x.coefficient : Int) else x.coefficient))

/-- The exact magnitude of the lexeme is at most `max`. -/
def AtMost (x : Lexeme) (max : Nat) : Prop := Decimal.AtMost x.coefficient x.scale max

instance (x : Lexeme) (max : Nat) : Decidable (x.AtMost max) :=
  inferInstanceAs (Decidable (Decimal.AtMost ..))

end Lexeme

/-! ## Reading -/

/-- A byte that would continue a number. -/
def continuesNumber (b : UInt8) : Bool := isDigit b || b = 0x2E || b = 0x65 || b = 0x45

/-- What follows a number does not continue it. -/
def StopsNumber (rest : Bytes) : Prop := ∀ b ∈ rest.head?, continuesNumber b = false

theorem all_takeWhile (p : UInt8 → Bool) (bs : Bytes) : ∀ b ∈ bs.takeWhile p, p b = true :=
  List.all_eq_true.mp List.all_takeWhile

/-- A run is taken whole when something else follows it. -/
theorem span_append {p : UInt8 → Bool} {run rest : Bytes} (all : ∀ b ∈ run, p b = true)
    (stop : ∀ b ∈ rest.head?, p b = false) :
    (run ++ rest).takeWhile p = run ∧ (run ++ rest).dropWhile p = rest := by
  induction run with
  | nil =>
      cases rest with
      | nil => simp
      | cons b rest => simp [stop b rfl]
  | cons b run ih =>
      have hb := all b List.mem_cons_self
      have := ih fun c hc => all c (List.mem_cons_of_mem _ hc)
      simp [hb, this]

/-- What follows a run does not start with one more of it. -/
theorem head_dropWhile (p : UInt8 → Bool) (bs : Bytes) :
    ∀ b ∈ (bs.dropWhile p).head?, p b = false := by
  induction bs with
  | nil => simp
  | cons c rest ih =>
      by_cases h : p c = true
      · simpa [h] using ih
      · simp [h]

/-- The longest run of digits at the front, if there is one. -/
def takeDigits (bs : Bytes) : Option (Digits × Bytes) :=
  if h : bs.takeWhile isDigit = [] then none
  else some (⟨bs.takeWhile isDigit, all_takeWhile _ _, h⟩, bs.dropWhile isDigit)

theorem takeDigits_append {d : Digits} {r : Bytes}
    (stop : ∀ b ∈ r.head?, isDigit b = false) : takeDigits (d.bytes ++ r) = some (d, r) := by
  obtain ⟨taken, dropped⟩ := span_append d.digits stop
  simp only [takeDigits, taken, dropped, d.nonempty, dif_neg, not_false_eq_true]

theorem eq_of_takeDigits {bs rest : Bytes} {ds : Digits} (h : takeDigits bs = some (ds, rest)) :
    bs = ds.bytes ++ rest ∧ ∀ b ∈ rest.head?, isDigit b = false := by
  unfold takeDigits at h
  split at h
  next => cases h
  next =>
    cases h
    exact ⟨List.takeWhile_append_dropWhile.symm, head_dropWhile _ _⟩

namespace Lexeme

/-- `int`; a zero is a whole integer part. -/
def takeInteger (bs : Bytes) : Option (Digits × Bytes) :=
  match bs with
  | 0x30 :: rest => some (⟨[0x30], by simp [isDigit, within], by simp⟩, rest)
  | _ => takeDigits bs

/-- `[ frac ]` -/
def takeFraction (bs : Bytes) : Option (Option Digits × Bytes) :=
  match bs with
  | 0x2E :: rest => (takeDigits rest).map fun (ds, rest) => (some ds, rest)
  | _ => some (none, bs)

/-- `[ "-" / "+" ]` -/
def takeSign (bs : Bytes) : Option Bool × Bytes :=
  match bs with
  | 0x2D :: rest => (some true, rest)
  | 0x2B :: rest => (some false, rest)
  | _ => (none, bs)

/-- `[ exp ]` -/
def takeExponent (bs : Bytes) : Option (Option Exponent × Bytes) :=
  match bs with
  | b :: rest =>
      if b = 0x65 ∨ b = 0x45 then
        let (sign, rest) := takeSign rest
        (takeDigits rest).map fun (ds, rest) => (some ⟨b = 0x45, sign, ds⟩, rest)
      else some (none, b :: rest)
  | [] => some (none, [])

/-- `[ "-" ]` -/
def takeMinus (bs : Bytes) : Bool × Bytes :=
  match bs with
  | 0x2D :: rest => (true, rest)
  | _ => (false, bs)

theorem noLeadingZero_of_takeInteger {bs rest : Bytes} {ds : Digits}
    (h : takeInteger bs = some (ds, rest)) : ∀ tail, ds.bytes = 0x30 :: tail → tail = [] := by
  intro tail zero
  unfold takeInteger at h
  split at h
  next => cases h; simpa using zero.symm
  next notZero =>
    obtain ⟨rfl, -⟩ := eq_of_takeDigits h
    exact absurd (by rw [zero]; rfl) (notZero (tail ++ rest))

/-- One number and what follows it. -/
def parse (bs : Bytes) : Option (Lexeme × Bytes) :=
  let (negative, bs) := takeMinus bs
  match hInteger : takeInteger bs with
  | none => none
  | some (integer, bs) =>
      match takeFraction bs with
      | none => none
      | some (fraction, bs) =>
          match takeExponent bs with
          | none => none
          | some (exponent, bs) =>
              some (⟨negative, integer, fraction, exponent, noLeadingZero_of_takeInteger hInteger⟩,
                bs)

/-! ## By the first byte -/

theorem takeMinus_cons (b : UInt8) (rest : Bytes) :
    takeMinus (b :: rest) = if b = 0x2D then (true, rest) else (false, b :: rest) := by
  unfold takeMinus
  split
  next same =>
    obtain ⟨rfl, rfl⟩ := List.cons.inj same
    rfl
  next other =>
    rw [if_neg]
    rintro rfl
    exact other rest rfl

theorem takeSign_cons (b : UInt8) (rest : Bytes) :
    (takeSign (b :: rest)).2 = if b = 0x2B ∨ b = 0x2D then rest else b :: rest := by
  unfold takeSign
  split
  next same =>
    obtain ⟨rfl, rfl⟩ := List.cons.inj same
    rfl
  next same =>
    obtain ⟨rfl, rfl⟩ := List.cons.inj same
    rfl
  next noMinus noPlus =>
    rw [if_neg]
    rintro (rfl | rfl)
    · exact noPlus rest rfl
    · exact noMinus rest rfl

theorem takeFraction_cons (b : UInt8) (rest : Bytes) : takeFraction (b :: rest) =
    if b = 0x2E then (takeDigits rest).map fun (ds, rest) => (some ds, rest)
    else some (none, b :: rest) := by
  unfold takeFraction
  split
  next same =>
    obtain ⟨rfl, rfl⟩ := List.cons.inj same
    rfl
  next other =>
    rw [if_neg]
    rintro rfl
    exact other rest rfl

/-- What is left behind a run of digits. -/
theorem takeDigits_cons (b : UInt8) (rest : Bytes) : (takeDigits (b :: rest)).map Prod.snd =
    if isDigit b then some (rest.dropWhile isDigit) else none := by
  unfold takeDigits
  cases digit : isDigit b <;> simp [digit]

set_option maxRecDepth 4096 in
/-- What is left behind an integer part: the first digit decides. -/
theorem takeInteger_cons (b : UInt8) (rest : Bytes) : (takeInteger (b :: rest)).map Prod.snd =
    if b = 0x30 then some rest
    else if within 0x31 0x39 b then some (rest.dropWhile isDigit)
    else none := by
  by_cases zero : b = 0x30
  · rw [if_pos zero, zero]
    rfl
  · have digits : takeInteger (b :: rest) = takeDigits (b :: rest) := by
      unfold takeInteger
      split
      next same => exact (zero (List.cons.inj same).1).elim
      next => rfl
    have nonzero : within 0x31 0x39 b = isDigit b := by
      revert zero
      exact byte_forall (P := fun b => ¬b = 0x30 → within 0x31 0x39 b = isDigit b)
        (by decide) b
    rw [if_neg zero, digits, nonzero, takeDigits_cons]

/-- A scan of the parts one after the other, which tells a float from an integer. -/
theorem parse_scan (bs : Bytes) : (parse bs).map (fun (x, rest) => (x.isFloat, rest)) =
    (takeInteger (takeMinus bs).2).bind fun (_, bs) => (takeFraction bs).bind fun (fraction, bs) =>
      (takeExponent bs).map fun (exponent, bs) => (fraction.isSome || exponent.isSome, bs) := by
  unfold parse
  simp only
  split
  next absent => rw [absent]; rfl
  next integer rest found =>
    refine Eq.trans ?_ (congrArg (Option.bind · _) found.symm)
    rw [Option.bind_some]
    cases takeFraction rest with
    | none => rfl
    | some part =>
        obtain ⟨ds, rest⟩ := part
        cases exponent : takeExponent rest with
        | none => simp only [exponent, Option.bind_some, Option.map_none]
        | some part =>
            simp only [exponent, Option.bind_some, Option.map_some]
            rfl

set_option maxRecDepth 4096 in
/-- A number starts with a minus sign or a digit. -/
theorem parse_of_head {b : UInt8} (minus : b ≠ 0x2D) (digit : isDigit b = false) (rest : Bytes) :
    parse (b :: rest) = none := by
  have scan := parse_scan (b :: rest)
  have nonzero : b ≠ 0x30 := by
    rintro rfl
    cases digit
  have leading : within 0x31 0x39 b = false := by
    revert digit
    exact byte_forall (P := fun b => isDigit b = false → within 0x31 0x39 b = false)
      (by decide) b
  have integer : (takeInteger (b :: rest)).map Prod.snd = none := by
    rw [takeInteger_cons, if_neg nonzero, leading, if_neg Bool.false_ne_true]
  rw [takeMinus_cons, if_neg minus, Option.map_eq_none_iff.mp integer, Option.bind_none] at scan
  exact Option.map_eq_none_iff.mp scan

/-! ## Round trip -/

theorem takeInteger_append {ds : Digits} {rest : Bytes}
    (zero : ∀ tail, ds.bytes = 0x30 :: tail → tail = [])
    (stop : ∀ b ∈ rest.head?, isDigit b = false) :
    takeInteger (ds.bytes ++ rest) = some (ds, rest) := by
  unfold takeInteger
  split
  next tail h =>
    cases hds : ds.bytes with
    | nil => exact absurd hds ds.nonempty
    | cons d tail' =>
        rw [hds, List.cons_append, List.cons.injEq] at h
        obtain rfl := zero tail' (by rw [hds, h.1])
        obtain rfl : tail = rest := h.2.symm
        simp only [Option.some.injEq, Prod.mk.injEq, and_true]
        exact Digits.ext (by rw [hds, h.1])
  next => exact takeDigits_append stop

theorem takeFraction_append {f : Option Digits} {rest : Bytes}
    (stop : ∀ b ∈ rest.head?, isDigit b = false ∧ b ≠ 0x2E) :
    takeFraction (renderFraction f ++ rest) = some (f, rest) := by
  cases f with
  | none =>
      unfold takeFraction
      split
      next tail h => exact absurd rfl (stop 0x2E (by rw [show rest = _ from h]; rfl)).2
      next => rfl
  | some ds =>
      simp only [renderFraction, List.cons_append, takeFraction,
        takeDigits_append fun b hb => (stop b hb).1, Option.map_some]

theorem takeSign_append {sign : Option Bool} {ds : Digits} {rest : Bytes} :
    takeSign (Exponent.renderSign sign ++ (ds.bytes ++ rest)) = (sign, ds.bytes ++ rest) := by
  match sign with
  | some true => rfl
  | some false => rfl
  | none =>
      cases h : ds.bytes with
      | nil => exact absurd h ds.nonempty
      | cons d tail =>
          have digit := ds.digits d (by rw [h]; exact List.mem_cons_self)
          simp only [Exponent.renderSign, List.nil_append, List.cons_append]
          unfold takeSign
          split
          next same => rw [List.cons.injEq] at same; rw [same.1] at digit; cases digit
          next same => rw [List.cons.injEq] at same; rw [same.1] at digit; cases digit
          next => rfl

theorem takeExponent_append {e : Option Exponent} {rest : Bytes} (stop : StopsNumber rest) :
    takeExponent (renderExponent e ++ rest) = some (e, rest) := by
  cases e with
  | none =>
      cases rest with
      | nil => rfl
      | cons b rest =>
          have := stop b rfl
          simp only [continuesNumber, Bool.or_eq_false_iff, decide_eq_false_iff_not] at this
          simp [renderExponent, takeExponent, this]
  | some e =>
      have digits := takeDigits_append (d := e.digits) (r := rest) fun b hb => by
        have := stop b hb
        simp only [continuesNumber, Bool.or_eq_false_iff] at this
        exact this.1.1.1
      obtain ⟨upper, sign, ds⟩ := e
      cases upper <;>
        simp [renderExponent, Exponent.render, takeExponent, takeSign_append, digits]

theorem head_renderExponent {e : Option Exponent} {r : Bytes} (stop : StopsNumber r) :
    ∀ b ∈ (renderExponent e ++ r).head?, isDigit b = false ∧ b ≠ 0x2E := by
  intro b hb
  cases e with
  | none =>
      have := stop b hb
      simp only [continuesNumber, Bool.or_eq_false_iff, decide_eq_false_iff_not] at this
      exact ⟨this.1.1.1, this.1.1.2⟩
  | some e =>
      obtain ⟨upper, sign, ds⟩ := e
      cases upper <;>
      · obtain rfl : _ = b := by simpa [renderExponent, Exponent.render] using hb
        decide

theorem head_renderFraction {f : Option Digits} {rest : Bytes}
    (stop : ∀ b ∈ rest.head?, isDigit b = false ∧ b ≠ 0x2E) :
    ∀ b ∈ (renderFraction f ++ rest).head?, isDigit b = false := by
  intro b hb
  cases f with
  | none => exact (stop b hb).1
  | some ds =>
      obtain rfl : 0x2E = b := by simpa [renderFraction] using hb
      rfl

theorem takeMinus_append (x : Lexeme) (rest : Bytes) :
    takeMinus (x.render ++ rest) = (x.negative, x.renderUnsigned ++ rest) := by
  unfold render
  cases x.negative with
  | true => rfl
  | false =>
      cases h : x.integer.bytes with
      | nil => exact absurd h x.integer.nonempty
      | cons d tail =>
          have digit := x.integer.digits d (by rw [h]; exact List.mem_cons_self)
          unfold takeMinus
          split
          next same =>
            simp only [renderUnsigned, h, List.cons_append, Bool.false_eq_true, if_false,
              List.nil_append, List.cons.injEq] at same
            rw [same.1] at digit
            cases digit
          next => rfl

/-- A lexeme is read back when nothing continues it. -/
theorem parse_render (x : Lexeme) {rest : Bytes} (stop : StopsNumber rest) :
    parse (x.render ++ rest) = some (x, rest) := by
  have stopFraction := head_renderExponent (e := x.exponent) stop
  have stopInteger := head_renderFraction (f := x.fraction) stopFraction
  have integer := takeInteger_append x.noLeadingZero stopInteger
  have fraction := takeFraction_append (f := x.fraction) stopFraction
  have exponent := takeExponent_append (e := x.exponent) stop
  have minus := takeMinus_append x rest
  simp only [renderUnsigned, List.append_assoc] at minus
  unfold parse
  simp only [minus]
  split
  next h => rw [minus, integer] at h; cases h
  next ds bs h =>
    rw [minus, integer] at h
    cases h
    simp only [fraction, exponent]

theorem parse_render_self (x : Lexeme) : parse x.render = some (x, []) := by
  have whole : parse (x.render ++ []) = some (x, []) := parse_render x (by simp [StopsNumber])
  rwa [List.append_nil] at whole

theorem eq_of_takeMinus {bs rest : Bytes} {negative : Bool} (h : takeMinus bs = (negative, rest)) :
    bs = (if negative then [0x2D] else []) ++ rest := by
  unfold takeMinus at h
  split at h <;> · cases h; rfl

theorem eq_of_takeInteger {bs rest : Bytes} {ds : Digits} (h : takeInteger bs = some (ds, rest)) :
    bs = ds.bytes ++ rest := by
  unfold takeInteger at h
  split at h
  next => cases h; rfl
  next => exact (eq_of_takeDigits h).1

theorem eq_of_takeFraction {bs rest : Bytes} {fraction : Option Digits}
    (h : takeFraction bs = some (fraction, rest)) : bs = renderFraction fraction ++ rest := by
  unfold takeFraction at h
  split at h
  next =>
    obtain ⟨⟨ds, rest'⟩, taken, same⟩ := Option.map_eq_some_iff.mp h
    cases same
    rw [(eq_of_takeDigits taken).1]
    rfl
  next => cases h; rfl

theorem eq_of_takeSign {bs rest : Bytes} {sign : Option Bool} (h : takeSign bs = (sign, rest)) :
    bs = Exponent.renderSign sign ++ rest := by
  unfold takeSign at h
  split at h <;> · cases h; rfl

theorem eq_of_takeExponent {bs rest : Bytes} {exponent : Option Exponent}
    (h : takeExponent bs = some (exponent, rest)) : bs = renderExponent exponent ++ rest := by
  unfold takeExponent at h
  split at h
  next b bs =>
    split at h
    next marker =>
      generalize hSign : takeSign bs = split at h
      obtain ⟨sign, rest⟩ := split
      obtain ⟨⟨ds, rest'⟩, taken, same⟩ := Option.map_eq_some_iff.mp h
      cases same
      rw [eq_of_takeSign hSign, (eq_of_takeDigits taken).1]
      rcases marker with rfl | rfl <;> simp [renderExponent, Exponent.render]
    next => cases h; rfl
  next => cases h; rfl

/-- What is read is the input. -/
theorem eq_of_parse {bs rest : Bytes} {x : Lexeme} (h : parse bs = some (x, rest)) :
    bs = x.render ++ rest := by
  unfold parse at h
  simp only at h
  split at h
  next => cases h
  next integer bs₁ hInteger =>
    split at h
    next => cases h
    next fraction bs₂ hFraction =>
      split at h
      next => cases h
      next exponent bs₃ hExponent =>
        cases h
        calc bs = (if (takeMinus bs).1 then [0x2D] else []) ++ (takeMinus bs).2 :=
              eq_of_takeMinus rfl
          _ = _ ++
            (integer.bytes ++ (renderFraction fraction ++ (renderExponent exponent ++ rest))) := by
              rw [eq_of_takeInteger hInteger, eq_of_takeFraction hFraction,
                eq_of_takeExponent hExponent]
          _ = _ := by simp [render, renderUnsigned]

/-! ## Integer lexemes -/

/-- The parts an integer lexeme does not have. -/
theorem parts_of_integer {x : Lexeme} (integer : x.isFloat = false) :
    x.fraction = none ∧ x.exponent = none := by
  rwa [isFloat, Bool.or_eq_false_iff, Option.isSome_eq_false_iff, Option.isNone_iff_eq_none,
    Option.isSome_eq_false_iff, Option.isNone_iff_eq_none] at integer

theorem renderUnsigned_integer {x : Lexeme} (integer : x.isFloat = false) :
    x.renderUnsigned = x.integer.bytes := by
  obtain ⟨fraction, exponent⟩ := parts_of_integer integer
  simp [renderUnsigned, fraction, exponent, renderFraction, renderExponent]

theorem coefficient_integer {x : Lexeme} (integer : x.isFloat = false) :
    x.coefficient = Decimal.value x.integer.bytes := by
  obtain ⟨fraction, -⟩ := parts_of_integer integer
  simp [coefficient, fractionDigits, fraction]

theorem scale_integer {x : Lexeme} (integer : x.isFloat = false) : x.scale = 0 := by
  obtain ⟨fraction, exponent⟩ := parts_of_integer integer
  simp [scale, exponentValue, fractionDigits, fraction, exponent]

theorem atMost_integer {x : Lexeme} (integer : x.isFloat = false) {max : Nat} :
    x.AtMost max ↔ x.coefficient ≤ max := by
  simp [AtMost, Decimal.AtMost, scale_integer integer]

theorem value_integer {x : Lexeme} (integer : x.isFloat = false) :
    x.value? = some (.integer (if x.negative then -(x.coefficient : Int) else x.coefficient)) := by
  rw [value?, integer, if_neg Bool.false_ne_true]

/-- A minus sign is the only one a lexeme starts with. -/
theorem head_render (x : Lexeme) : x.render.head? = some 0x2D ↔ x.negative = true := by
  have minus := takeMinus_append x []
  rw [List.append_nil, List.append_nil] at minus
  cases bytes : x.render with
  | nil =>
      rw [bytes] at minus
      simp [← (Prod.mk.inj minus).1]
  | cons b tail =>
      rw [bytes, takeMinus_cons] at minus
      split at minus
      next sign => simp [sign, ← (Prod.mk.inj minus).1]
      next other => simp [other, ← (Prod.mk.inj minus).1]

end Lexeme

end Wire
