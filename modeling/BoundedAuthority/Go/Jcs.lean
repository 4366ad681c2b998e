import BoundedAuthority.Go.Bounds
import BoundedAuthority.Wire.Appending
import BoundedAuthority.Wire.Ecmascript
import BoundedAuthority.Wire.JsonValue

/-!
# The canonical encoder of the Go verifier

`sdks/go/jcs.go`.

The encoder returns the bytes of a value and counts nodes in a field, here a count
that is passed on; the depth of a value is one more than that of the container
around it, and the root has depth one.  The members of an object are sorted before
they are encoded, so the recursion makes an `Encoder` of every value first and sorts
names with the encoders of their values.
-/

namespace BoundedAuthority.Go

open Wire V1 JsonValue

/-! ## Runes -/

/-- `utf8.RuneError` -/
def runeError : Char := Char.ofNat 0xFFFD

/-- `utf8.DecodeRuneInString` of a string that is not empty: malformed input is the
error rune, one byte wide. -/
def decodeRune (s : Bytes) : Char × Nat :=
  match Utf8.decodeFirst s with
  | some (r, rest) => (r, s.length - rest.length)
  | none => (runeError, 1)

/-- `[]rune(s)`; every pass takes a byte, so the length is fuel enough. -/
def runesFrom : Nat → Bytes → List Char
  | _, [] => []
  | 0, _ :: _ => []
  | n + 1, b :: rest =>
      let (r, size) := decodeRune (b :: rest)
      r :: runesFrom n ((b :: rest).drop size)

/-- `[]rune(s)` -/
def runes (s : Bytes) : List Char := runesFrom s.length s

/-! ## Strings -/

/-- `hexDigit` -/
def hexDigit (v : Nat) : UInt8 :=
  if v < 10 then UInt8.ofNat (0x30 + v) else UInt8.ofNat (0x61 + v - 10)

/-- The switch over the rune; `raw` is what it was decoded from. -/
def escapeRune (r : Char) (raw : Bytes) : Bytes :=
  if r = '"' then [0x5C, 0x22]
  else if r = '\\' then [0x5C, 0x5C]
  else if r.toNat = 0x08 then [0x5C, 0x62]
  else if r.toNat = 0x09 then [0x5C, 0x74]
  else if r.toNat = 0x0A then [0x5C, 0x6E]
  else if r.toNat = 0x0C then [0x5C, 0x66]
  else if r.toNat = 0x0D then [0x5C, 0x72]
  else if r.toNat < 0x20 then
    [0x5C, 0x75, 0x30, 0x30, hexDigit (r.toNat / 16), hexDigit (r.toNat % 16)]
  else raw

/-- The loop of `encodeJcsString`. -/
def escapeFrom : Nat → Bytes → (out : Bytes) → Option Bytes
  | _, [], out => some out
  | 0, _ :: _, _ => none
  | n + 1, b :: rest, out =>
      let (r, size) := decodeRune (b :: rest)
      if r = runeError ∧ size = 1 then none
      else escapeFrom n ((b :: rest).drop size) (out ++ escapeRune r ((b :: rest).take size))

/-- `encodeJcsString` -/
def encodeJcsString (s : Bytes) (byteCeiling : Nat) : Option Bytes := do
  guard (s.length ≤ byteCeiling)
  guard (Utf8.valid s = true)
  let out ← escapeFrom s.length s [0x22]
  some (out ++ [0x22])

/-- The comparison of `utf16Less`, once both strings are code units. -/
def unitsLess : List Nat → List Nat → Bool
  | u :: us, v :: vs => if u ≠ v then decide (u < v) else unitsLess us vs
  | us, vs => decide (us.length < vs.length)

/-- `utf16Less` -/
def utf16Less (a b : Bytes) : Bool :=
  unitsLess ((runes a).flatMap Utf16.ofChar) ((runes b).flatMap Utf16.ofChar)

/-! ## Numbers -/

/-- The digits with a point behind the first, if there are more. -/
def formatMantissa (digits : Bytes) : Bytes :=
  digits.take 1 ++ if digits.length > 1 then 0x2E :: digits.drop 1 else []

/-- An exponent with its sign, of two digits at least. -/
def formatExponent (exp : Int) : Bytes :=
  let digits := Decimal.ofNat exp.natAbs
  (if exp < 0 then 0x2D else 0x2B) :: if digits.length < 2 then 0x30 :: digits else digits

/-- `strconv.FormatFloat(x, 'e', -1, 64)` of the magnitude, with the shortest digits. -/
def formatFloat (x : F64) : Bytes :=
  formatMantissa (Ecmascript.significant x.shortest.1) ++
    0x65 :: formatExponent (Ecmascript.point x - 1)

/-- `strconv.Atoi` -/
def atoi (s : Bytes) : Option Int := do
  let negative := s.head? = some 0x2D
  let digits := if s.head? = some 0x2D ∨ s.head? = some 0x2B then s.drop 1 else s
  guard (digits ≠ [] ∧ digits.all isDigit = true)
  let value : Int := if negative then -(Decimal.value digits : Int) else Decimal.value digits
  guard (-2 ^ 63 ≤ value ∧ value < 2 ^ 63)
  some value

/-- `exponentString` -/
def exponentString (e : Int) : Bytes :=
  if e < 0 then ascii "-" ++ Decimal.ofInt (-e) else ascii "+" ++ Decimal.ofInt e

/-- `stringsRepeat` of a single byte -/
def stringsRepeat (b : UInt8) (n : Int) : Bytes := if n ≤ 0 then [] else List.replicate n.toNat b

/-- The digits without the point behind the first. -/
def stripPoint (digits : Bytes) : Bytes :=
  if digits.length > 1 then digits.take 1 ++ digits.drop 2 else digits

/-- The switch of `floatToECMAScript`. -/
def floatBody (digits : Bytes) (n : Int) : Bytes :=
  let k : Int := digits.length
  if k ≤ n ∧ n ≤ 21 then digits ++ stringsRepeat 0x30 (n - k)
  else if 0 < n ∧ n ≤ 21 then digits.take n.toNat ++ ascii "." ++ digits.drop n.toNat
  else if -6 < n ∧ n ≤ 0 then ascii "0." ++ stringsRepeat 0x30 (-n) ++ digits
  else if k = 1 then digits ++ ascii "e" ++ exponentString (n - 1)
  else digits.take 1 ++ ascii "." ++ digits.drop 1 ++ ascii "e" ++ exponentString (n - 1)

/-- The part of `floatToECMAScript` that reads the digits and the exponent back out of the
text of `strconv` and lays them out. -/
def layoutFloat (mant : Bytes) : Option Bytes := do
  let epos ← mant.findIdx? fun b => decide (b = 0x65)
  let exp10 ← atoi (mant.drop (epos + 1))
  some (floatBody (stripPoint (mant.take epos)) (exp10 + 1))

/-- `floatToECMAScript` -/
def floatToECMAScript (f : Float64) (magnitudeBound : Nat) : Option Bytes :=
  match f with
  | .nan => none
  | .infinite _ => none
  | .finite f =>
      if f.units = 0 then some (ascii "0")
      else do
        guard (f.magnitudeAtMost magnitudeBound = true)
        let body ← layoutFloat (formatFloat f)
        some (if f.negative then ascii "-" ++ body else body)

/-! ## Values -/

/-- `encode` of one value, waiting for its depth and the nodes so far. -/
abbrev Encoder := (depth nodes : Nat) → Option (Bytes × Nat)

/-- The node count at the top of `encode`. -/
def countNode (b : Bounds) (nodes : Nat) : Option Nat := do
  guard (nodes + 1 ≤ b .totalNodes)
  some (nodes + 1)

/-- A value that is written without further recursion. -/
def encodeLeaf (b : Bounds) (written : Option Bytes) : Encoder := fun _ nodes => do
  let nodes ← countNode b nodes
  some (← written, nodes)

/-- The body of the loop over the items of an array. -/
def appendItem (depth : Nat) : Writer Encoder := fun encode out nodes => do
  let (enc, nodes) ← encode depth nodes
  some (out ++ enc, nodes)

/-- The body of the loop over the members of an object. -/
def appendMember (b : Bounds) (depth : Nat) : Writer (Bytes × Encoder) :=
  fun (name, encode) out nodes => do
    let key ← encodeJcsString name (b .keyBytes)
    let (enc, nodes) ← encode depth nodes
    some (out ++ key ++ 0x3A :: enc, nodes)

/-- The loop over the names with the set of those seen. -/
def distinctKeys : (seen names : List Bytes) → Bool
  | _, [] => true
  | seen, name :: rest => if name ∈ seen then false else distinctKeys (name :: seen) rest

/-- `sort.SliceStable` by `utf16Less` -/
def sortByName {α : Type} (members : List (Bytes × α)) : List (Bytes × α) :=
  members.insertionSort fun x y => ¬ utf16Less y.1 x.1 = true

/-- The `Arr` case, once there is an encoder for every item. -/
def encodeArr (b : Bounds) (items : List Encoder) : Encoder := fun depth nodes => do
  let nodes ← countNode b nodes
  guard (depth ≤ b .depth)
  guard (items.length ≤ b .arrayItems)
  let (out, nodes) ← Writer.separated 0x2C (appendItem (depth + 1)) true items (ascii "[") nodes
  some (out ++ ascii "]", nodes)

/-- The `Obj` case, once there is an encoder for every value. -/
def encodeObj (b : Bounds) (members : List (Bytes × Encoder)) : Encoder := fun depth nodes => do
  let nodes ← countNode b nodes
  guard (depth ≤ b .depth)
  guard (members.length ≤ b .objectMembers)
  guard (distinctKeys [] (members.map Prod.fst) = true)
  let (out, nodes) ← Writer.separated 0x2C (appendMember b (depth + 1)) true (sortByName members)
    (ascii "\x7b") nodes
  some (out ++ ascii "\x7d", nodes)

mutual

/-- `encode` -/
def encode (b : Bounds) : JsonValue → Encoder
  | .null => encodeLeaf b (some (ascii "null"))
  | .boolean val => encodeLeaf b (some (if val then ascii "true" else ascii "false"))
  | .integer val =>
      encodeLeaf b do
        guard (¬ (val > b .integerMagnitude ∨ val < -(b .integerMagnitude : Int)))
        some (Decimal.ofInt val)
  | .float val => encodeLeaf b (floatToECMAScript (.finite val) (b .floatMagnitude))
  | .string val => encodeLeaf b (encodeJcsString val (b .stringBytes))
  | .array val => encodeArr b (itemEncoders b val)
  | .object val => encodeObj b (memberEncoders b val)

def itemEncoders (b : Bounds) : List JsonValue → List Encoder
  | [] => []
  | item :: rest => encode b item :: itemEncoders b rest

def memberEncoders (b : Bounds) : List (Bytes × JsonValue) → List (Bytes × Encoder)
  | [] => []
  | (name, val) :: rest => (name, encode b val) :: memberEncoders b rest

end

/-- `JcsEncode` -/
def jcsEncode (v : JsonValue) (bounds : BoundsPointer) : Option Bytes := do
  let b ← resolveBounds bounds
  let (out, _) ← encode b v 1 0
  guard (out.length ≤ b .jcsBytes)
  some out

example : jcsEncode (.object [(ascii "b", .integer 10), (ascii "a", .array [.null])]) none =
    some (ascii "\x7b\"a\":[null],\"b\":10\x7d") := by
  decide

end BoundedAuthority.Go
