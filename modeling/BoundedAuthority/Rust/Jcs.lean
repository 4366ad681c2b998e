import BoundedAuthority.V1.Bounds
import BoundedAuthority.Wire.Appending
import BoundedAuthority.Wire.JsonValue

/-!
# The canonical encoder of the Rust verifier

`sdks/rust/src/jcs.rs`.

The encoder pushes into one buffer and counts nodes through a reference; both are
passed on here.  The size of the buffer is checked at the end of every node.  The
members of an object are sorted before they are encoded, so the recursion makes an
`Encoder` of every value first and sorts names with the encoders of their values.

A `String` is well-formed UTF-8 and an `Int` has 64 bits: the values the code can be
handed are `Value`.  The digits of a float come out of `ryu_js`, which is
`formatFinite` here.
-/

namespace BoundedAuthority.Rust

open Wire V1 JsonValue

/-! ## Values -/

mutual

/-- What the types of the code keep. -/
def Representable : JsonValue → Prop
  | .null => True
  | .boolean _ => True
  | .integer n => -2 ^ 63 ≤ n ∧ n < 2 ^ 63
  | .float _ => True
  | .string s => Utf8.valid s = true
  | .array items => RepresentableItems items
  | .object members => RepresentableMembers members

def RepresentableItems : List JsonValue → Prop
  | [] => True
  | item :: rest => Representable item ∧ RepresentableItems rest

def RepresentableMembers : List (Bytes × JsonValue) → Prop
  | [] => True
  | (key, value) :: rest =>
      Utf8.valid key = true ∧ Representable value ∧ RepresentableMembers rest

end

/-- `JsonValue` -/
abbrev Value := { v : JsonValue // Representable v }

namespace Jcs

/-! ## Strings -/

/-- `hex_nibble` -/
def hexNibble (n : Nat) : UInt8 :=
  if n ≤ 9 then UInt8.ofNat (0x30 + n) else UInt8.ofNat (0x61 + (n - 10))

/-- The bytes `encode_string` pushes for one character. -/
def escapeChar (c : Char) : Bytes :=
  let cp := c.toNat
  if cp ≤ 0x1F then
    if cp = 0x08 then [0x5C, 0x62]
    else if cp = 0x09 then [0x5C, 0x74]
    else if cp = 0x0A then [0x5C, 0x6E]
    else if cp = 0x0C then [0x5C, 0x66]
    else if cp = 0x0D then [0x5C, 0x72]
    else [0x5C, 0x75, 0x30, 0x30, hexNibble (cp / 16), hexNibble (cp % 16)]
  else if cp = 0x5C then [0x5C, 0x5C]
  else if cp = 0x22 then [0x5C, 0x22]
  else String.utf8EncodeChar c

/-- `s.chars()` -/
def chars (s : Bytes) : List Char := (Utf8.decode s).getD []

/-- `encode_string` -/
def encodeString (s out : Bytes) : Bytes :=
  (chars s).foldl (fun out c => out ++ escapeChar c) (out ++ [0x22]) ++ [0x22]

/-- The loop of `utf16_compare` over the code units of both names. -/
def compareUnits : List Nat → List Nat → Ordering
  | [], [] => .eq
  | [], _ :: _ => .lt
  | _ :: _, [] => .gt
  | x :: xs, y :: ys =>
      match compare x y with
      | .eq => compareUnits xs ys
      | other => other

/-- `utf16_compare` -/
def utf16Compare (a b : Bytes) : Ordering := compareUnits (Utf16.units a) (Utf16.units b)

/-! ## Encoders -/

variable (formatFinite : F64 → Bytes) (bounds : Bounds)

/-- `encode_float` -/
def encodeFloat (f : Float64) (out : Bytes) : Option Bytes :=
  match f with
  | .finite f => some (out ++ formatFinite f)
  | .infinite _ => none
  | .nan => none

/-- `encode_value` of one value, waiting for its depth, the buffer and the node count. -/
abbrev Encoder := (depth : Nat) → (out : Bytes) → (nodes : Nat) → Option (Bytes × Nat)

/-- What `encode_value` does around the match: the node is counted and the buffer is
checked. -/
def encodeNode (body : Encoder) : Encoder := fun depth out nodes => do
  let nodes := nodes + 1
  guard (nodes ≤ bounds .totalNodes)
  let (out, nodes) ← body depth out nodes
  guard (out.length ≤ bounds .jcsBytes)
  some (out, nodes)

/-- An arm of the match that pushes bytes. -/
def push (pushed : (out : Bytes) → Option Bytes) : Encoder := fun _ out nodes =>
  (pushed out).map fun out => (out, nodes)

/-- The `Int` arm. -/
def pushInt (n : Int) (out : Bytes) : Option Bytes := do
  let mag : Int := bounds .integerMagnitude
  guard (¬ (n < -mag ∨ n > mag))
  some (out ++ Decimal.ofInt n)

/-- The `Float` arm. -/
def pushFloat (f : Float64) (out : Bytes) : Option Bytes :=
  match f with
  | .finite x => do
      guard (x.magnitudeAtMost (bounds .floatMagnitude) = true)
      encodeFloat formatFinite f out
  | .infinite _ => none
  | .nan => none

/-- The `String` arm. -/
def pushString (s out : Bytes) : Option Bytes := do
  guard (s.length ≤ bounds .stringBytes)
  some (encodeString s out)

/-- The loop over the names with the set of those seen. -/
def checkKeys : (seen keys : List Bytes) → Bool
  | _, [] => true
  | seen, k :: rest =>
      if k.length > bounds .keyBytes ∨ k ∈ seen then false else checkKeys (k :: seen) rest

/-- `sort_unstable_by` of the members; their names are distinct, so there are no ties. -/
def sortByName {α : Type} (members : List (Bytes × α)) : List (Bytes × α) :=
  members.insertionSort fun x y => utf16Compare x.1 y.1 ≠ .gt

/-- The body of the loop over the items of an array. -/
def encodeItem (depth : Nat) : Writer Encoder := fun encode out nodes => encode depth out nodes

/-- The body of the loop over the members of an object. -/
def encodeMember (depth : Nat) : Writer (Bytes × Encoder) := fun (key, encode) out nodes =>
  encode depth (encodeString key out ++ [0x3A]) nodes

/-- The `Array` arm, once there is an encoder for every item. -/
def encodeArray (items : List Encoder) : Encoder := fun depth out nodes => do
  guard (depth ≤ bounds .depth)
  guard (items.length ≤ bounds .arrayItems)
  let (out, nodes) ← Writer.separated 0x2C (encodeItem (depth + 1)) true items (out ++ [0x5B]) nodes
  some (out ++ [0x5D], nodes)

/-- The `Object` arm, once there is an encoder for every value. -/
def encodeObject (members : List (Bytes × Encoder)) : Encoder := fun depth out nodes => do
  guard (depth ≤ bounds .depth)
  guard (members.length ≤ bounds .objectMembers)
  guard (checkKeys bounds [] (members.map Prod.fst) = true)
  let (out, nodes) ← Writer.separated 0x2C (encodeMember (depth + 1)) true (sortByName members)
    (out ++ [0x7B]) nodes
  some (out ++ [0x7D], nodes)

mutual

/-- `encode_value` -/
def encodeValue : JsonValue → Encoder
  | .null => encodeNode bounds (push fun out => some (out ++ ascii "null"))
  | .boolean true => encodeNode bounds (push fun out => some (out ++ ascii "true"))
  | .boolean false => encodeNode bounds (push fun out => some (out ++ ascii "false"))
  | .integer n => encodeNode bounds (push (pushInt bounds n))
  | .float f => encodeNode bounds (push (pushFloat formatFinite bounds (.finite f)))
  | .string s => encodeNode bounds (push (pushString bounds s))
  | .array items => encodeNode bounds (encodeArray bounds (itemEncoders items))
  | .object members => encodeNode bounds (encodeObject bounds (memberEncoders members))

def itemEncoders : List JsonValue → List Encoder
  | [] => []
  | item :: rest => encodeValue item :: itemEncoders rest

def memberEncoders : List (Bytes × JsonValue) → List (Bytes × Encoder)
  | [] => []
  | (key, value) :: rest => (key, encodeValue value) :: memberEncoders rest

end

/-- `jcs_encode` -/
def jcsEncode (value : Value) : Option Bytes := do
  let (out, _) ← encodeValue formatFinite bounds value.1 1 [] 0
  guard (out.length ≤ bounds .jcsBytes)
  some out

end Jcs

end BoundedAuthority.Rust
