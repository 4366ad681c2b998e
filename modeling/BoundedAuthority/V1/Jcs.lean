import BoundedAuthority.V1.Bounds
import BoundedAuthority.Wire.JsonValue

/-!
# The canonical JSON encoder

`lib/bounded_authority_protocol/v1/jcs.ex`.

The encoder walks a tagged value and checks every ceiling on the way, with the
number of nodes threaded through.  The level of a value is the depth bound minus
the `room` below it, so that the recursion is on `room`: a container needs a level
under the bound, that is some room left.  Iodata is its bytes.
-/

namespace BoundedAuthority.V1.Jcs

open Wire

/-! ## Strings -/

/-- A digit of `Integer.to_string(byte, 16) |> String.downcase()`. -/
def hexDigit (d : Nat) : UInt8 := if d < 10 then UInt8.ofNat (0x30 + d) else UInt8.ofNat (0x57 + d)

/-- The `\u` escape of a control character, padded to four digits. -/
def controlEscape (byte : UInt8) : Bytes :=
  [0x5C, 0x75, 0x30, 0x30, hexDigit (byte.toNat / 16), hexDigit (byte.toNat % 16)]

/-- `escape_codepoints/1`; every call takes a byte, so the length is fuel enough. -/
def escapeCodepoints : Nat → Bytes → Option Bytes
  | _, [] => some []
  | 0, _ :: _ => none
  | n + 1, byte :: rest =>
      if byte = 0x22 then (escapeCodepoints n rest).map ([0x5C, 0x22] ++ ·)
      else if byte = 0x5C then (escapeCodepoints n rest).map ([0x5C, 0x5C] ++ ·)
      else if byte = 0x08 then (escapeCodepoints n rest).map ([0x5C, 0x62] ++ ·)
      else if byte = 0x09 then (escapeCodepoints n rest).map ([0x5C, 0x74] ++ ·)
      else if byte = 0x0A then (escapeCodepoints n rest).map ([0x5C, 0x6E] ++ ·)
      else if byte = 0x0C then (escapeCodepoints n rest).map ([0x5C, 0x66] ++ ·)
      else if byte = 0x0D then (escapeCodepoints n rest).map ([0x5C, 0x72] ++ ·)
      else if byte < 0x20 then (escapeCodepoints n rest).map (controlEscape byte ++ ·)
      else
        match Utf8.decodeFirst (byte :: rest) with
        | some (codepoint, rest) =>
            (escapeCodepoints n rest).map (String.utf8EncodeChar codepoint ++ ·)
        | none => none

/-- `escape_string/1` -/
def escapeString (value : Bytes) : Option Bytes :=
  (escapeCodepoints value.length value).map fun escaped => 0x22 :: (escaped ++ [0x22])

/-! ## Numbers -/

/-- Decimal notation of `digits · 10^exponent`, with a digit on both sides of the point. -/
def decimalNotation (digits : Bytes) (exponent : Int) : Bytes :=
  let point := digits.length + exponent
  if point ≤ 0 then ascii "0." ++ List.replicate (-point).toNat 0x30 ++ digits
  else if exponent ≥ 0 then digits ++ List.replicate exponent.toNat 0x30 ++ ascii ".0"
  else digits.take point.toNat ++ 0x2E :: digits.drop point.toNat

/-- Scientific notation of `digits · 10^exponent`. -/
def scientificNotation (digits : Bytes) (exponent : Int) : Bytes :=
  let fraction := digits.drop 1
  digits.take 1 ++ 0x2E :: ((if fraction = [] then [0x30] else fraction) ++
    0x65 :: Decimal.ofInt (digits.length + exponent - 1))

/-- `:erlang.float_to_binary(x, [:short])` of a positive float: the shortest digits
that read back, inside `2^53` in the notation with the fewest characters and
outside in scientific notation. -/
def floatToBinaryShort (x : F64) : Bytes :=
  let digits := Decimal.ofNat x.shortest.1
  let decimal := decimalNotation digits x.shortest.2
  let scientific := scientificNotation digits x.shortest.2
  if x.units < 2 ^ 53 * unit ∧ decimal.length ≤ scientific.length then decimal else scientific

/-- `:erlang.binary_to_integer/1` of a decimal integer. -/
def binaryToInteger (bytes : Bytes) : Int :=
  match bytes with
  | 0x2D :: digits => -(Decimal.value digits : Int)
  | digits => Decimal.value digits

/-- `split_exponent/1` -/
def splitExponent (raw : Bytes) : Bytes × Int :=
  match cut (ascii "e") raw with
  | some (mantissa, exponent) => (mantissa, binaryToInteger exponent)
  | none => (raw, 0)

/-- `decimal_digits/2` -/
def decimalDigits (mantissa : Bytes) (exponent : Int) : Option (Bytes × Int) :=
  (cut (ascii ".") mantissa).map fun (integer, fraction) =>
    (integer ++ fraction, integer.length + exponent)

/-- `trim_trailing_zeroes/1` on the reversed digits. -/
def trimReversed : Bytes → Bytes
  | [] => []
  | [digit] => [digit]
  | digit :: rest => if digit = 0x30 then trimReversed rest else digit :: rest

/-- `trim_trailing_zeroes/1` -/
def trimTrailingZeroes (digits : Bytes) : Bytes := (trimReversed digits.reverse).reverse

/-- `scientific/2` -/
def scientific (digits : Bytes) (exponent : Int) : Bytes :=
  let rest := digits.drop 1
  let mantissa := if rest = [] then digits.take 1 else digits.take 1 ++ 0x2E :: rest
  mantissa ++ ascii "e" ++ (if exponent ≥ 0 then ascii "+" else []) ++ Decimal.ofInt exponent

/-- `fixed/2` -/
def fixed (digits : Bytes) (decimalIndex : Int) : Bytes :=
  if decimalIndex ≤ 0 then ascii "0." ++ List.replicate (-decimalIndex).toNat 0x30 ++ digits
  else if decimalIndex ≥ digits.length then
    digits ++ List.replicate (decimalIndex - digits.length).toNat 0x30
  else digits.take decimalIndex.toNat ++ 0x2E :: digits.drop decimalIndex.toNat

/-- `ecmascript_number/1` -/
def ecmascriptNumber (value : F64) : Option Bytes :=
  if value.units = 0 then some (ascii "0")
  else do
    let sign := if value.negative then ascii "-" else []
    let raw := floatToBinaryShort value
    let (mantissa, exponent) := splitExponent raw
    let (digits, decimalIndex) ← decimalDigits mantissa exponent
    let digits := trimTrailingZeroes digits
    let scientificExponent := decimalIndex - 1
    let body :=
      if scientificExponent < -6 ∨ scientificExponent ≥ 21 then
        scientific digits scientificExponent
      else fixed digits decimalIndex
    some (sign ++ body)

/-! ## Values -/

/-- `bounded/2` -/
def bounded (iodata : Bytes) (bounds : Bounds) : Option Bytes := do
  guard (iodata.length ≤ bounds .jcsBytes)
  some iodata

/-- `next_node!/2` -/
def nextNode (nodes : Nat) (bounds : Bounds) : Option Nat := do
  let next := nodes + 1
  guard (next ≤ bounds .totalNodes)
  some next

/-- `length_bounded?/3` -/
def lengthBounded {α : Type} : (values : List α) → (maximum count : Nat) → Bool
  | [], _, _ => true
  | _ :: rest, maximum, count =>
      if count ≥ maximum then false else lengthBounded rest maximum (count + 1)

/-- `join/2` -/
def join : List Bytes → (separator : UInt8) → Bytes
  | [], _ => []
  | [part], _ => part
  | part :: rest, separator => part ++ separator :: join rest separator

/-- `Enum.map_reduce/3` with a function that may raise. -/
def mapReduce {α β σ : Type} (f : α → σ → Option (β × σ)) : List α → σ → Option (List β × σ)
  | [], state => some ([], state)
  | value :: rest, state => do
      let (part, state) ← f value state
      let (parts, state) ← mapReduce f rest state
      some (part :: parts, state)

/-- `{utf16_key(key), key, value}` of an admissible member. -/
def keyed (bounds : Bounds) (member : Bytes × JsonValue) : Option (Bytes × Bytes × JsonValue) := do
  let (key, value) := member
  guard (key.length ≤ bounds .keyBytes ∧ Utf8.valid key)
  some (Utf16.key key, key, value)

/-- `Enum.sort_by(&elem(&1, 0))` -/
def sortByKey {α : Type} (members : List (Bytes × α)) : List (Bytes × α) :=
  members.insertionSort fun a b => leBytes a.1 b.1 = true

/-- `encode_value/4` -/
def encodeValue (bounds : Bounds) : (room : Nat) → JsonValue → (nodes : Nat) → Option (Bytes × Nat)
  | _, .null, nodes => do
      let encoded ← bounded (ascii "null") bounds
      some (encoded, ← nextNode nodes bounds)
  | _, .boolean value, nodes => do
      let encoded ← bounded (if value then ascii "true" else ascii "false") bounds
      some (encoded, ← nextNode nodes bounds)
  | _, .integer value, nodes => do
      guard (-(bounds .integerMagnitude : Int) ≤ value ∧ value ≤ bounds .integerMagnitude)
      let encoded ← bounded (Decimal.ofInt value) bounds
      some (encoded, ← nextNode nodes bounds)
  | _, .float value, nodes => do
      guard (value.magnitudeAtMost (bounds .floatMagnitude))
      let encoded ← bounded (← ecmascriptNumber value) bounds
      some (encoded, ← nextNode nodes bounds)
  | _, .string value, nodes => do
      guard (value.length ≤ bounds .stringBytes ∧ Utf8.valid value)
      let encoded ← bounded (← escapeString value) bounds
      some (encoded, ← nextNode nodes bounds)
  | 0, .array _, _ => none
  | room + 1, .array values, nodes => do
      guard (lengthBounded values (bounds .arrayItems) 0)
      let nodes ← nextNode nodes bounds
      let (parts, nodes) ← mapReduce (encodeValue bounds room) values nodes
      let encoded ← bounded (0x5B :: (join parts 0x2C ++ [0x5D])) bounds
      some (encoded, nodes)
  | 0, .object _, _ => none
  | room + 1, .object members, nodes => do
      guard (lengthBounded members (bounds .objectMembers) 0)
      let nodes ← nextNode nodes bounds
      let sorted := sortByKey (← members.mapM (keyed bounds))
      let keys := sorted.map fun member => member.2.1
      guard keys.Nodup
      let (parts, nodes) ← mapReduce (fun (_, key, value) count => do
        let (encoded, nextCount) ← encodeValue bounds room value count
        let escaped ← escapeString key
        some (escaped ++ 0x3A :: encoded, nextCount)) sorted nodes
      let encoded ← bounded (0x7B :: (join parts 0x2C ++ [0x7D])) bounds
      some (encoded, nodes)

/-- `encode/2` -/
def encode (value : JsonValue) (limits : Limits) : Option Bytes := do
  let bounds ← Bounds.coerce limits
  let (encoded, _) ← encodeValue bounds (bounds .depth) value 0
  some encoded

example : encode (.object [(ascii "b", .integer 10), (ascii "a", .array [.null])]) [] =
    some (ascii "\x7b\"a\":[null],\"b\":10\x7d") := by
  decide

end BoundedAuthority.V1.Jcs
