import BoundedAuthority.V1.Bounds
import BoundedAuthority.Wire.JsonText

/-!
# The bounded JSON decoder

`lib/bounded_authority_protocol/v1/json.ex`.

The decoder first scans the raw bytes for number lexemes outside strings, and
then hands the bytes to `:json.decode/3` with callbacks that build the tagged
value and count as they go.  The platform decoder reads RFC 8259; here it is
`parseJson` followed by the recursion that calls the callbacks in text order.
A callback that raises makes the whole decoding fail, so a callback is a function
to `Option`.
-/

namespace BoundedAuthority.V1.Json

open Wire

/-! ## The callbacks -/

/-- `%JsonValue{}` -/
structure Node where
  value : JsonValue
  nodes : Nat
  depth : Nat

/-- `%Container{}` of an array or of an object, the newest element first. -/
structure Container (α : Type) where
  level : Nat
  values : List α
  seen : List Bytes
  count : Nat
  nodes : Nat
  depth : Nat

/-- `start_container/3` -/
def startContainer {α : Type} (parentLevel : Nat) (bounds : Bounds) : Option (Container α) := do
  let level := parentLevel + 1
  guard (level ≤ bounds .depth)
  some { level, values := [], seen := [], count := 0, nodes := 0, depth := 0 }

/-- `push_array/3` -/
def pushArray (node : Node) (container : Container JsonValue) (bounds : Bounds) :
    Option (Container JsonValue) := do
  let count := container.count + 1
  let nodes := container.nodes + node.nodes
  guard (count ≤ bounds .arrayItems ∧ nodes + 1 ≤ bounds .totalNodes)
  some { container with
    values := node.value :: container.values, count, nodes
    depth := max container.depth node.depth }

/-- `push_object/4` -/
def pushObject (key : Bytes) (node : Node) (container : Container (Bytes × JsonValue))
    (bounds : Bounds) : Option (Container (Bytes × JsonValue)) := do
  let count := container.count + 1
  let nodes := container.nodes + node.nodes
  guard (key.length ≤ bounds .keyBytes ∧ key ∉ container.seen ∧ count ≤ bounds .objectMembers ∧
    nodes + 1 ≤ bounds .totalNodes)
  some { container with
    values := (key, node.value) :: container.values, seen := key :: container.seen, count, nodes
    depth := max container.depth node.depth }

/-- `finish_container/3` -/
def finishContainer {α : Type} (kind : List α → JsonValue) (container : Container α)
    (bounds : Bounds) : Option Node := do
  let node : Node :=
    { value := kind container.values.reverse, nodes := container.nodes + 1
      depth := container.depth + 1 }
  guard (node.nodes ≤ bounds .totalNodes ∧ node.depth ≤ bounds .depth)
  some node

/-- `integer_node/2` and `float_node/2`: the token is converted and bounded. -/
def numberNode (lexeme : Lexeme) (bounds : Bounds) : Option Node := do
  match ← lexeme.value? with
  | .integer value =>
      guard (-(bounds .integerMagnitude : Int) ≤ value ∧ value ≤ bounds .integerMagnitude)
      some ⟨.integer value, 1, 0⟩
  | .float value =>
      guard (value.magnitudeAtMost (bounds .floatMagnitude))
      some ⟨.float value, 1, 0⟩
  | _ => none

/-- `string_node/2` -/
def stringNode (string : Bytes) (bounds : Bounds) : Option Node := do
  guard (string.length ≤ bounds .stringBytes)
  some ⟨.string string, 1, 0⟩

mutual

/-- `:json.decode/3` calling the callbacks on one value inside a container of the
given level. -/
def decodeText (bounds : Bounds) (parentLevel : Nat) : Text → Option Node
  | .null => some ⟨.null, 1, 0⟩
  | .boolean value => some ⟨.boolean value, 1, 0⟩
  | .number lexeme => numberNode lexeme bounds
  | .string pieces => stringNode (Pieces.value pieces) bounds
  | .emptyArray _ => do
      let container ← startContainer parentLevel bounds
      finishContainer .array container bounds
  | .array items => do
      let container ← startContainer parentLevel bounds
      let container ← decodeItems bounds container items
      finishContainer .array container bounds
  | .emptyObject _ => do
      let container ← startContainer parentLevel bounds
      finishContainer .object container bounds
  | .object members => do
      let container ← startContainer parentLevel bounds
      let container ← decodeMembers bounds container members
      finishContainer .object container bounds

def decodeItems (bounds : Bounds) (container : Container JsonValue) :
    Items → Option (Container JsonValue)
  | .last _ value _ => do
      let node ← decodeText bounds container.level value
      pushArray node container bounds
  | .more _ value _ rest => do
      let node ← decodeText bounds container.level value
      let container ← pushArray node container bounds
      decodeItems bounds container rest

def decodeMembers (bounds : Bounds) (container : Container (Bytes × JsonValue)) :
    Members → Option (Container (Bytes × JsonValue))
  | .last _ _ name _ _ value _ => do
      let _ ← stringNode (Pieces.value name) bounds
      let node ← decodeText bounds container.level value
      pushObject (Pieces.value name) node container bounds
  | .more _ _ name _ _ value _ rest => do
      let _ ← stringNode (Pieces.value name) bounds
      let node ← decodeText bounds container.level value
      let container ← pushObject (Pieces.value name) node container bounds
      decodeMembers bounds container rest

end

/-! ## The scan for number lexemes -/

/-- `digit_count/2` from zero -/
def digitCount (bytes : Bytes) : Nat := (bytes.takeWhile isDigit).length

/-- `take_integer_digits/1` -/
def takeIntegerDigits (bytes : Bytes) : Option (Bytes × Bytes) :=
  match bytes with
  | [] => none
  | byte :: rest =>
      if byte = 0x30 then some ([0x30], rest)
      else if within 0x31 0x39 byte then
        let length := digitCount bytes
        some (bytes.take length, bytes.drop length)
      else none

/-- `take_fraction_digits/1` -/
def takeFractionDigits (bytes : Bytes) : Option (Bytes × Bytes) :=
  match bytes with
  | 0x2E :: rest =>
      let length := digitCount rest
      if length > 0 then some (rest.take length, rest.drop length) else none
  | _ => some ([], bytes)

/-- `exponent_sign/1` -/
def exponentSign (bytes : Bytes) : Int × Bytes :=
  match bytes with
  | 0x2B :: rest => (1, rest)
  | 0x2D :: rest => (-1, rest)
  | _ => (1, bytes)

/-- `take_exponent/1` -/
def takeExponent (bytes : Bytes) : Option (Int × Bytes) :=
  match bytes with
  | [] => some (0, [])
  | marker :: rest =>
      if marker = 0x65 ∨ marker = 0x45 then
        let (sign, digitsAndRest) := exponentSign rest
        let length := digitCount digitsAndRest
        if length > 0 then
          some (sign * Decimal.value (digitsAndRest.take length), digitsAndRest.drop length)
        else none
      else some (0, bytes)

/-- `parse_unsigned_number/1` -/
def parseUnsignedNumber (bytes : Bytes) : Option (Bytes × Bytes × Int) := do
  let (integerDigits, rest) ← takeIntegerDigits bytes
  let (fractionDigits, rest) ← takeFractionDigits rest
  let (exponent, rest) ← takeExponent rest
  guard (rest = [])
  some (integerDigits, fractionDigits, exponent)

/-- `parse_number_lexeme/1` -/
def parseNumberLexeme (bytes : Bytes) : Option (Bytes × Bytes × Int) :=
  match bytes with
  | 0x2D :: rest => parseUnsignedNumber rest
  | _ => parseUnsignedNumber bytes

/-- `float_lexeme?/1` -/
def floatLexeme (bytes : Bytes) : Bool := bytes.any fun b => b = 0x2E || b = 0x65 || b = 0x45

/-- `trim_leading_zeroes/1` -/
def trimLeadingZeroes (digits : Bytes) : Bytes := digits.dropWhile (· = 0x30)

/-- `compare_boundary/2`; binaries are compared by their first difference. -/
def compareBoundary (significant maximumDigits : Bytes) : Bool :=
  let maximumLength := maximumDigits.length
  let (integerPart, fractionalPart) :=
    if significant.length ≥ maximumLength then
      (significant.take maximumLength, significant.drop maximumLength)
    else
      (significant ++ List.replicate (maximumLength - significant.length) 0x30, [])
  !leBytes maximumDigits integerPart ||
    (integerPart = maximumDigits && fractionalPart.all (· = 0x30))

/-- `magnitude_within?/4` -/
def magnitudeWithin (digits : Bytes) (fractionLength : Nat) (exponent : Int) (maximum : Nat) :
    Bool :=
  match trimLeadingZeroes digits with
  | [] => true
  | significant =>
      let maximumDigits := Decimal.ofNat maximum
      let integerLength : Int := significant.length + exponent - fractionLength
      if integerLength < maximumDigits.length then true
      else if integerLength > maximumDigits.length then false
      else compareBoundary significant maximumDigits

/-- `valid_number_lexeme?/2` -/
def validNumberLexeme (token : Bytes) (bounds : Bounds) : Bool :=
  token.length ≤ bounds .numberLexemeBytes &&
    match parseNumberLexeme token with
    | some (integerDigits, fractionDigits, exponent) =>
        let maximum :=
          if floatLexeme token then bounds .floatMagnitude else bounds .integerMagnitude
        magnitudeWithin (integerDigits ++ fractionDigits) fractionDigits.length exponent maximum
    | none => false

/-- The bytes that end a number candidate. -/
def endsCandidate (b : UInt8) : Bool := isBlank b || b = 0x2C || b = 0x5D || b = 0x7D

/-- `number_candidate_length/3`; `none` is `:too_long`. -/
def numberCandidateLength (bytes : Bytes) (length maximum : Nat) : Option Nat :=
  if length > maximum then none
  else
    match bytes with
    | [] => some length
    | byte :: rest =>
        if endsCandidate byte then some length
        else numberCandidateLength rest (length + 1) maximum

mutual

/-- `scan_json/2`; every call takes a byte, so the length of the input is fuel enough. -/
def scanJson (bounds : Bounds) : Nat → Bytes → Bool
  | _, [] => true
  | 0, _ :: _ => false
  | n + 1, byte :: rest =>
      if byte = 0x22 then scanString bounds n rest
      else if byte = 0x2D ∨ isDigit byte then
        match numberCandidateLength (byte :: rest) 0 (bounds .numberLexemeBytes) with
        | some length =>
            validNumberLexeme ((byte :: rest).take length) bounds &&
              scanJson bounds n ((byte :: rest).drop length)
        | none => false
      else scanJson bounds n rest

/-- `scan_string/2` -/
def scanString (bounds : Bounds) : Nat → Bytes → Bool
  | _, [] => false
  | 0, _ :: _ => false
  | n + 1, 0x5C :: _ :: rest => scanString bounds n rest
  | n + 1, 0x22 :: rest => scanJson bounds n rest
  | n + 1, _ :: rest => scanString bounds n rest

end

/-- `number_lexemes_valid?/2` -/
def numberLexemesValid (bytes : Bytes) (bounds : Bounds) : Bool :=
  scanJson bounds bytes.length bytes

/-! ## Decoding -/

/-- `whitespace_only?/1` -/
def whitespaceOnly (bytes : Bytes) : Bool := bytes.all isBlank

/-- `decode_bounded/2` -/
def decodeBounded (bytes : Bytes) (bounds : Bounds) : Option JsonValue :=
  if numberLexemesValid bytes bounds then do
    let (text, rest) ← parseJson bytes
    let node ← decodeText bounds 0 text
    guard (whitespaceOnly rest ∧ node.nodes ≤ bounds .totalNodes)
    some node.value
  else none

/-- `decode/2` -/
def decode (bytes : Bytes) (limits : Limits) : Option JsonValue := do
  let bounds ← Bounds.coerce limits
  guard (bytes.length ≤ bounds .jsonBytes)
  decodeBounded bytes bounds

example : (decode (ascii "\x7b\"a\": [true, 1e3]\x7d") []).isSome = true ∧
    (decode (ascii "[9007199254740992]") []).isSome = false := by
  decide +kernel

end BoundedAuthority.V1.Json
