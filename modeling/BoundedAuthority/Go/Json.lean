import BoundedAuthority.Go.Jcs
import BoundedAuthority.Go.JsonNumber
import BoundedAuthority.Wire.JsonBuffer

/-!
# The JSON decoder of the Go verifier

`sdks/go/json.go`.

The decoder moves a cursor over the bytes; here a function takes the bytes behind the
cursor and returns what it leaves.  `nodes` counts through the whole run.  `depth` is
restored when a container ends, so a call only passes it down.  Every pass of a loop
and every nested value takes a byte, so twice the length is fuel enough.
-/

namespace BoundedAuthority.Go

open Wire V1

/-- `skipWS` -/
def skipWS : Bytes → Bytes
  | [] => []
  | c :: rest => if c = 0x20 ∨ c = 0x09 ∨ c = 0x0A ∨ c = 0x0D then skipWS rest else c :: rest

/-- `literal` -/
def literal (want bs : Bytes) : Option Bytes :=
  if want.length > bs.length ∨ bs.take want.length ≠ want then none
  else some (bs.drop want.length)

/-! ## Strings -/

/-- The switch of `hex4`. -/
def hexDigitValue (c : UInt8) : Option Nat :=
  if within 0x30 0x39 c then some (c.toNat - 0x30)
  else if within 0x61 0x66 c then some (c.toNat - 0x61 + 10)
  else if within 0x41 0x46 c then some (c.toNat - 0x41 + 10)
  else none

/-- `hex4` -/
def hex4 (bs : Bytes) : Option (Nat × Bytes) :=
  match bs with
  | c₀ :: c₁ :: c₂ :: c₃ :: rest => do
      let d₀ ← hexDigitValue c₀
      let d₁ ← hexDigitValue c₁
      let d₂ ← hexDigitValue c₂
      let d₃ ← hexDigitValue c₃
      some (((d₀ <<< 4 ||| d₁) <<< 4 ||| d₂) <<< 4 ||| d₃, rest)
  | _ => none

/-- `utf16.IsSurrogate` -/
def isSurrogate (r : Nat) : Bool := 0xD800 ≤ r && r < 0xE000

/-- `utf16.DecodeRune` of a pair of surrogates. -/
def decodeSurrogates (hi lo : Nat) : Nat := ((hi - 0xD800) <<< 10 ||| lo - 0xDC00) + 0x10000

/-- `utf8.AppendRune` -/
def appendRune (r : Nat) : Bytes :=
  String.utf8EncodeChar (if r.isValidChar then Char.ofNat r else runeError)

/-- `parseUnicodeEscape`, behind a high surrogate. -/
def lowHalf (hi : Nat) : Bytes → Option (Nat × Bytes)
  | 0x5C :: 0x75 :: rest => do
      let (lo, rest) ← hex4 rest
      guard (0xDC00 ≤ lo ∧ lo ≤ 0xDFFF)
      some (decodeSurrogates hi lo, rest)
  | _ => none

/-- `parseUnicodeEscape` -/
def parseUnicodeEscape (bs : Bytes) : Option (Nat × Bytes) := do
  let (hi, rest) ← hex4 bs
  if isSurrogate hi then if hi < 0xDC00 then lowHalf hi rest else none
  else some (hi, rest)

/-- The cases of the switch over an escape that append one byte. -/
def escapedByte (e : UInt8) : Option UInt8 :=
  if e = 0x22 ∨ e = 0x5C ∨ e = 0x2F then some e
  else if e = 0x62 then some 0x08
  else if e = 0x66 then some 0x0C
  else if e = 0x6E then some 0x0A
  else if e = 0x72 then some 0x0D
  else if e = 0x74 then some 0x09
  else none

/-- The switch over an escape: what it appends. -/
def stringEscape : Bytes → Option (Bytes × Bytes)
  | [] => none
  | e :: rest =>
      if e = 0x75 then (parseUnicodeEscape rest).map fun (r, rest) => (appendRune r, rest)
      else (escapedByte e).map fun c => ([c], rest)

/-- The loop of `parseString` -/
def stringLoop : Nat → (out : Bytes) → Bytes → Option (Bytes × Bytes)
  | 0, _, _ => none
  | _ + 1, _, [] => none
  | n + 1, out, c :: rest =>
      if c = 0x22 then some (out, rest)
      else if c = 0x5C then do
        let (r, rest) ← stringEscape rest
        stringLoop n (out ++ r) rest
      else if c < 0x20 then none
      else stringLoop n (out ++ [c]) rest

/-- `parseString`, behind the opening quotation mark. -/
def parseString (b : Bounds) (isName : Bool) (bs : Bytes) : Option (Bytes × Bytes) := do
  let (out, rest) ← stringLoop bs.length [] bs
  guard (Utf8.valid out)
  guard ¬((runes out).length = 0 ∧ out.length ≠ 0)
  guard (isName ∨ out.length ≤ b .stringBytes)
  some (out, rest)

/-! ## Values -/

section Values

variable (numerals : Numerals) (b : Bounds)

/-- `parseArray`, behind its bracket. -/
def parseArray (loop : Bytes → Option (JsonValue × Nat × Bytes)) (nodes : Nat) (bs : Bytes) :
    Option (JsonValue × Nat × Bytes) :=
  if (skipWS bs).head? = some 0x5D then some (.array [], nodes, (skipWS bs).drop 1)
  else loop (skipWS bs)

/-- `parseObject`, behind its brace. -/
def parseObject (loop : Bytes → Option (JsonValue × Nat × Bytes)) (nodes : Nat) (bs : Bytes) :
    Option (JsonValue × Nat × Bytes) :=
  if (skipWS bs).head? = some 0x7D then some (.object [], nodes, (skipWS bs).drop 1)
  else loop (skipWS bs)

mutual

/-- `parseValue` -/
def parseValue : Nat → (depth nodes : Nat) → Bytes → Option (JsonValue × Nat × Bytes)
  | 0, _, _, _ => none
  | n + 1, depth, nodes, bs => do
      guard (nodes + 1 ≤ b .totalNodes)
      let c ← bs.head?
      guard ((c = 0x5B ∨ c = 0x7B) → depth + 1 ≤ b .depth)
      if c = 0x6E then (literal (ascii "null") bs).map (.null, nodes + 1, ·)
      else if c = 0x74 then (literal (ascii "true") bs).map (.boolean true, nodes + 1, ·)
      else if c = 0x66 then (literal (ascii "false") bs).map (.boolean false, nodes + 1, ·)
      else if c = 0x22 then
        (parseString b false (bs.drop 1)).map fun (s, rest) => (.string s, nodes + 1, rest)
      else if c = 0x5B then
        parseArray (fun rest => arrayLoop n (depth + 1) (nodes + 1) [] rest) (nodes + 1) (bs.drop 1)
      else if c = 0x7B then
        parseObject (fun rest => objectLoop n (depth + 1) (nodes + 1) [] [] rest) (nodes + 1)
          (bs.drop 1)
      else if c = 0x2D ∨ isDigit c then
        (parseNumber numerals b bs).map fun (v, rest) => (v, nodes + 1, rest)
      else none
termination_by structural n => n

/-- The loop of `parseArray` -/
def arrayLoop : Nat → (depth nodes : Nat) → (arr : List JsonValue) → Bytes →
    Option (JsonValue × Nat × Bytes)
  | 0, _, _, _, _ => none
  | n + 1, depth, nodes, arr, bs => do
      let (v, nodes, rest) ← parseValue n depth nodes (skipWS bs)
      guard ¬(arr.length ≥ b .arrayItems)
      match skipWS rest with
      | 0x2C :: rest => arrayLoop n depth nodes (arr ++ [v]) rest
      | 0x5D :: rest => some (.array (arr ++ [v]), nodes, rest)
      | _ => none
termination_by structural n => n

/-- The loop of `parseObject` -/
def objectLoop : Nat → (depth nodes : Nat) → (obj : List (Bytes × JsonValue)) →
    (seen : List Bytes) → Bytes → Option (JsonValue × Nat × Bytes)
  | 0, _, _, _, _, _ => none
  | n + 1, depth, nodes, obj, seen, bs =>
      match skipWS bs with
      | 0x22 :: rest => do
          let (key, rest) ← parseString b true rest
          guard ¬(key.length > b .keyBytes)
          guard (key ∉ seen)
          match skipWS rest with
          | 0x3A :: rest => do
              let (v, nodes, rest) ← parseValue n depth nodes (skipWS rest)
              guard ¬(obj.length ≥ b .objectMembers)
              match skipWS rest with
              | 0x2C :: rest => objectLoop n depth nodes (obj ++ [(key, v)]) (key :: seen) rest
              | 0x7D :: rest => some (.object (obj ++ [(key, v)]), nodes, rest)
              | _ => none
          | _ => none
      | _ => none
termination_by structural n => n

end

end Values

/-- `JsonDecode` -/
def jsonDecode (numerals : Numerals) (data : Bytes) (bounds : BoundsPointer) :
    Option JsonValue := do
  let b ← resolveBounds bounds
  guard ¬(data.length > b .jsonBytes)
  let (v, _, rest) ← parseValue numerals b (2 * data.length) 0 0 (skipWS data)
  guard (skipWS rest = [])
  some v

end BoundedAuthority.Go
