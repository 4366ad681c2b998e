import BoundedAuthority.V1.Bounds
import BoundedAuthority.Wire.Decimal
import BoundedAuthority.Wire.Percent

/-!
# Target URIs in Rust

`sdks/rust/src/uri.rs`.

`Err(Invalid)` is `none`.  The loops over an index are recursions over what is left of
the slice, and `u8::to_ascii_lowercase` and the character classes are those of
`Wire.Percent`.
-/

namespace BoundedAuthority.Rust.Uri

open Wire Percent
open V1 (Bounds)

/-! ## Slices -/

/-- `slice.iter().position(|&b| b == c)` -/
def position (c : UInt8) (slice : Bytes) : Option Nat := slice.findIdx? fun b => b == c

/-- `slice.iter().rposition(|&b| b == c)` -/
def rposition (c : UInt8) (slice : Bytes) : Option Nat :=
  (position c slice.reverse).map fun i => slice.length - 1 - i

/-- `slice.split(|&b| b == c)` -/
def split (c : UInt8) : Bytes → List Bytes
  | [] => [[]]
  | b :: rest =>
      if b = c then [] :: split c rest
      else
        match split c rest with
        | [] => [[b]]
        | part :: parts => (b :: part) :: parts

/-- A `u64` that has not overflowed. -/
def checked (n : Nat) : Option Nat := if n < 2 ^ 64 then some n else none

/-- The loop of `normalize_path` and of `normalize_reg_name`: the bytes that stand alone,
and how a byte that does is pushed. -/
def normalizeEscapes (allowed : UInt8 → Bool) (push : UInt8 → UInt8) : Bytes → Option Bytes
  | [] => some []
  | c :: rest =>
      if allowed c then (normalizeEscapes allowed push rest).map (push c :: ·)
      else if c = 0x25 then
        match rest with
        | h1 :: h2 :: rest =>
            if !isHex h1 || !isHex h2 then none
            else if isUnreserved (octet h1 h2) then
              (normalizeEscapes allowed push rest).map (push (octet h1 h2) :: ·)
            else (normalizeEscapes allowed push rest).map ([0x25, upperHex h1, upperHex h2] ++ ·)
        | _ => none
      else none

/-! ## Paths -/

/-- The loop of `normalize_path`. -/
def normalizePathBytes (path : Bytes) : Option Bytes :=
  normalizeEscapes
    (fun c => isUnreserved c || isSubDelim c || c == 0x3A || c == 0x40 || c == 0x2F) id path

/-- `pop_last_segment` -/
def popLastSegment (output : Bytes) : Bytes :=
  match rposition 0x2F output with
  | some idx => output.take idx
  | none => []

/-- `remove_dot_segments`.  Every step shortens the input. -/
def removeDotSegments : (fuel : Nat) → (input output : Bytes) → Bytes
  | 0, _, output => output
  | fuel + 1, input, output =>
      if input = [] then output
      else if (ascii "../").isPrefixOf input then removeDotSegments fuel (input.drop 3) output
      else if (ascii "./").isPrefixOf input then removeDotSegments fuel (input.drop 2) output
      else if (ascii "/./").isPrefixOf input then
        removeDotSegments fuel (input.take 1 ++ input.drop 3) output
      else if input = ascii "/." then removeDotSegments fuel (ascii "/") output
      else if (ascii "/../").isPrefixOf input then
        removeDotSegments fuel (input.take 1 ++ input.drop 4) (popLastSegment output)
      else if input = ascii "/.." then
        removeDotSegments fuel (ascii "/") (popLastSegment output)
      else if input = ascii "." ∨ input = ascii ".." then output
      else
        let start := if input.head? = some 0x2F then 1 else 0
        let j := start + ((input.drop start).takeWhile fun b => b != 0x2F).length
        removeDotSegments fuel (input.drop j) (output ++ input.take j)

/-- `normalize_path` -/
def normalizePath (path : Bytes) : Option Bytes := do
  let normalized ← normalizePathBytes path
  let cleaned := removeDotSegments normalized.length normalized []
  if cleaned = [] then some (ascii "/") else some cleaned

/-! ## Hosts -/

/-- `is_ipvfuture_shape` -/
def isIpvfutureShape (s : Bytes) : Bool :=
  if s.length < 3 || s.head? != some 0x76 then false
  else
    let hex := (s.drop 1).takeWhile isHex
    let after := (s.drop 1).dropWhile isHex
    1 ≤ hex.length && after.head? == some 0x2E

/-- `validate_ipvfuture`, for a body of that shape. -/
def validateIpvfuture (s : Bytes) : Bool :=
  let tail := ((s.drop 1).dropWhile isHex).drop 1
  tail.all (fun c => isUnreserved c || isSubDelim c || c == 0x3A) && 1 ≤ tail.length

/-- The scan of `validate_ipv6` for its elision. -/
def elide : (i : Nat) → (elision : Option Nat) → Bytes → Option (Option Nat)
  | i, elision, a :: b :: rest =>
      if a = 0x3A ∧ b = 0x3A then
        if elision.isSome then none
        else if rest.head? = some 0x3A then none
        else elide (i + 2) (some i) rest
      else elide (i + 1) elision (b :: rest)
  | _, elision, _ => some elision

/-- `is_h16` -/
def isH16 (s : Bytes) : Bool := (1 ≤ s.length && s.length ≤ 4) && s.all isHex

/-- The hextets on one side of an elision. -/
def hextets (side : Bytes) : List Bytes := if side = [] then [] else split 0x3A side

/-- `validate_ipv6` -/
def validateIpv6 (s : Bytes) : Option Unit := do
  guard (s ≠ [])
  let elision ← elide 0 none s
  let (left, right) := match elision with
    | none => (s, [])
    | some p => (s.take p, s.drop (p + 2))
  let parts := hextets left ++ hextets right
  guard (parts.all fun h => !(h.isEmpty || !isH16 h))
  match elision with
  | none => guard (parts.length = 8)
  | some _ => guard (parts.length ≤ 7)

/-- `validate_ip_literal` -/
def validateIpLiteral (content : Bytes) : Option Bytes := do
  guard (content ≠ [])
  let lowered := content.map lower
  if isIpvfutureShape lowered then
    if validateIpvfuture lowered then some lowered else none
  else do
    validateIpv6 lowered
    some lowered

/-- `is_ipv4_candidate` -/
def isIpv4Candidate (s : Bytes) : Bool :=
  if s = [] then false
  else
    let parts := split 0x2E s
    parts.length == 4 && parts.all fun p => !p.isEmpty && p.all isDigit

/-- `is_dec_octet` -/
def isDecOctet : Bytes → Bool
  | [a] => isDigit a
  | [a, b] => within 0x31 0x39 a && isDigit b
  | [a, b, c] =>
      a != 0x30 &&
        (let n := Decimal.digitValue a * 100 + Decimal.digitValue b * 10 + Decimal.digitValue c
         100 ≤ n && n ≤ 255)
  | _ => false

/-- `normalize_reg_name` -/
def normalizeRegName (s : Bytes) : Option Bytes :=
  normalizeEscapes (fun c => isUnreserved c || isSubDelim c) lower s

/-! ## Authorities -/

/-- The accumulation of `parse_port`. -/
def portValue : (digits : Bytes) → (val : Nat) → Option Nat
  | [], val => some val
  | c :: digits, val => do
      let product ← checked (val * 10)
      let sum ← checked (product + Decimal.digitValue c)
      portValue digits sum

/-- `parse_port` -/
def parsePort (digits : Bytes) : Option (Option Bytes) := do
  guard (digits ≠ [])
  guard (digits.all isDigit)
  let val ← portValue digits 0
  guard ¬(val = 0 ∨ 65535 < val)
  let stripped := digits.dropWhile fun c => c == 0x30
  let stripped := if stripped = [] then ascii "0" else stripped
  some (if stripped = ascii "443" then none else some stripped)

/-- `parse_port_after_literal` -/
def parsePortAfterLiteral : Bytes → Option (Option Bytes)
  | [] => some none
  | b :: after => if b = 0x3A then parsePort after else none

/-- The host of `parse_authority` outside brackets. -/
def parseName (host : Bytes) : Option Bytes := do
  guard (host ≠ [])
  if isIpv4Candidate host then do
    guard ((split 0x2E host).all isDecOctet)
    some host
  else normalizeRegName host

/-- `parse_authority` -/
def parseAuthority (auth : Bytes) : Option (Bytes × Option Bytes) := do
  guard (auth ≠ [])
  guard (0x40 ∉ auth)
  if auth.head? = some 0x5B then do
    let close ← position 0x5D auth
    let content ← validateIpLiteral ((auth.take close).drop 1)
    let port ← parsePortAfterLiteral (auth.drop (close + 1))
    some (0x5B :: content ++ [0x5D], port)
  else do
    let (hostText, port) ← match position 0x3A auth with
      | none => some (auth, none)
      | some idx => do
          let port ← parsePort (auth.drop (idx + 1))
          some (auth.take idx, port)
    let host ← parseName hostText
    some (host, port)

/-- The bytes that have no place in a target URI. -/
def refused (b : UInt8) : Bool :=
  b == 0x3F || b == 0x23 || decide (b < 0x20) || b == 0x7F || decide (0x80 ≤ b)

/-- `uri_normalize` -/
def uriNormalize (text : Bytes) (bounds : Bounds) : Option Bytes := do
  guard (text.length ≤ bounds .uriBytes)
  guard (text.any refused = false)
  guard (8 ≤ text.length ∧ (text.drop 5).take 3 = ascii "://" ∧
    (text.take 5).map lower = ascii "https")
  let rest := text.drop 8
  let (authority, path) := match position 0x2F rest with
    | none => (rest, [])
    | some idx => (rest.take idx, rest.drop idx)
  let (host, port) ← parseAuthority authority
  let path ← normalizePath path
  let port := match port with
    | none => []
    | some p => 0x3A :: p
  let out := ascii "https://" ++ host ++ port ++ path
  guard (out.length ≤ bounds .uriBytes)
  some out

example :
    uriNormalize (ascii "HTTPS://A:443/b/./%7e/..") .maximum = some (ascii "https://a/b/") := by
  decide +kernel

end BoundedAuthority.Rust.Uri
