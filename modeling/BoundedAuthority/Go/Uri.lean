import BoundedAuthority.Go.Bounds
import BoundedAuthority.Wire.Decimal
import BoundedAuthority.Wire.Percent

/-!
# Target URIs in Go

`sdks/go/uri.go`, without the loopback profile.

`ErrInvalid` is `none`.  `strings.Split` and `strings.Cut` are `splitGlobal` and `cut`,
and `strings.Index` is the `cut` it is used for.  The loops over an index are recursions
over what is left of the string, and `unreservedBytes` and `subDelimBytes` are the classes
of `Wire.Percent`.
-/

namespace BoundedAuthority.Go.Uri

open Wire Percent

/-! ## Strings -/

/-- `strings.LastIndex` of one byte: the parts before and after its last occurrence. -/
def cutLast (c : UInt8) (s : Bytes) : Option (Bytes × Bytes) :=
  (cut [c] s.reverse).map fun (after, before) => (before.reverse, after.reverse)

/-- `strings.HasSuffix` -/
def hasSuffix (s part : Bytes) : Bool := part.isSuffixOf s

/-- `strings.Contains` -/
def contains (s part : Bytes) : Bool := (cut part s).isSome

/-! ## Escapes -/

/-- `hexVal` -/
def hexVal (c : UInt8) : Int :=
  if within 0x30 0x39 c then c.toNat - 0x30
  else if within 0x61 0x66 c then c.toNat - 0x61 + 10
  else if within 0x41 0x46 c then c.toNat - 0x41 + 10
  else -1

/-- `upperHex`, of a number below sixteen. -/
def upperHexDigit (v : UInt8) : UInt8 := if v < 10 then 0x30 + v else 0x41 + v - 10

/-- `lowerByte` -/
def lowerByte (c : UInt8) : UInt8 := if 0x41 ≤ c ∧ c ≤ 0x5A then c + 32 else c

/-- `decodeEscape`, of the two bytes behind the percent sign. -/
def decodeEscape (high low : UInt8) : Option UInt8 :=
  let hi := hexVal high
  let lo := hexVal low
  if hi < 0 ∨ lo < 0 then none else some (UInt8.ofNat (hi.toNat <<< 4 ||| lo.toNat))

/-- The loop of `normalizePath` and of `normalizeHost`: the bytes that stand alone, and
how a byte that does is written. -/
def normalizeEscapes (allowed : UInt8 → Bool) (write : UInt8 → UInt8) : Bytes → Option Bytes
  | [] => some []
  | c :: rest =>
      if c = 0x25 then
        match rest with
        | high :: low :: rest => do
            let dec ← decodeEscape high low
            let later ← normalizeEscapes allowed write rest
            if isUnreserved dec then some (write dec :: later)
            else some (0x25 :: upperHexDigit (dec >>> 4) :: upperHexDigit (dec &&& 0xF) :: later)
        | _ => none
      else if allowed c then (normalizeEscapes allowed write rest).map (write c :: ·)
      else none

/-! ## Paths -/

/-- `pathChar` -/
def pathChar (c : UInt8) : Bool :=
  c == 0x2F || isUnreserved c || (isSubDelim c || (ascii ":@").contains c)

/-- One turn of the loop of `removeDotSegments`. -/
def pushSegment (out : List Bytes) (seg : Bytes) : List Bytes :=
  if seg = ascii "." then out
  else if seg = ascii ".." then if out.length > 0 then out.dropLast else out
  else out ++ [seg]

/-- `removeDotSegments` -/
def removeDotSegments (path : Bytes) : Bytes :=
  let out := (splitGlobal (ascii "/") path).foldl pushSegment []
  let res := (ascii "/").intercalate out
  if hasSuffix path (ascii "/.") ∨ hasSuffix path (ascii "/..") ∨ path = ascii "." ∨
    path = ascii ".." then
    if hasSuffix res (ascii "/") then res else res ++ ascii "/"
  else res

/-- `normalizePath` -/
def normalizePath (path : Bytes) : Option Bytes :=
  if path = [] then some (ascii "/")
  else do
    let norm ← normalizeEscapes pathChar id path
    let out := removeDotSegments norm
    let out := if out = [] then ascii "/" else out
    some (if out.head? = some 0x2F then out else 0x2F :: out)

/-! ## Hosts -/

/-- `isNumericDotted` -/
def isNumericDotted (host : Bytes) : Bool :=
  contains host (ascii ".") && host.all fun c => !(c != 0x2E && (c < 0x30 || c > 0x39))

/-- The value of the digits of a label, each as the byte arithmetic has it. -/
def labelValue (p : Bytes) : Nat := p.foldl (fun v c => v * 10 + (c - 0x30).toNat) 0

/-- The body of the loop of `validIPv4`. -/
def validLabel (p : Bytes) : Bool :=
  !(p.length == 0 || p.length > 3) && !(p.length > 1 && p.head? == some 0x30) &&
    !(labelValue p > 255)

/-- `validIPv4` -/
def validIPv4 (host : Bytes) : Bool :=
  let parts := splitGlobal (ascii ".") host
  parts.length == 4 && parts.all validLabel

/-- `lowerHexStr` -/
def lowerHexStr (g : Bytes) : Bytes := g.map fun c => if 0x41 ≤ c ∧ c ≤ 0x46 then c + 32 else c

/-- The format `%x` of a number below sixteen. -/
def hexDigit (d : Nat) : UInt8 := if d < 10 then UInt8.ofNat (0x30 + d) else UInt8.ofNat (0x57 + d)

/-- The format `%x` -/
def sprintfHex (n : Nat) : Bytes :=
  if n < 16 then [hexDigit n] else sprintfHex (n / 16) ++ [hexDigit (n % 16)]

/-- The check of a group of hexadecimal digits in `parseSide`. -/
def hexGroup (part : Bytes) : Bool :=
  part ≠ [] && !(part.length > 4) && part.all fun c => !(hexVal c < 0)

/-- `parseSide` of `normalizeIPv6` -/
def parseSide (side : Bytes) (allowIPv4 : Bool) : Option (List Bytes) :=
  if side = [] then some []
  else
    let parts := splitGlobal (ascii ":") side
    let groups := parts.dropLast
    let last := parts.getLast?.getD []
    if groups.all hexGroup = false then none
    else if last = [] then none
    else if contains last (ascii ".") then
      if !allowIPv4 || !validIPv4 last then none
      else
        match (splitGlobal (ascii ".") last).map labelValue with
        | [a, b, c, d] => some (groups ++ [sprintfHex (a <<< 8 ||| b), sprintfHex (c <<< 8 ||| d)])
        | _ => none
    else if hexGroup last then some (groups ++ [last])
    else none

/-- `replaceLastTwoGroups` -/
def replaceLastTwoGroups (s dotted : Bytes) : Option Bytes := do
  let (before, _) ← cutLast 0x3A s
  let (before, _) ← cutLast 0x3A before
  some (before ++ 0x3A :: dotted)

/-- What stands behind the last colon of a side with a dot. -/
def dottedTail (side : Bytes) : Bytes :=
  if contains side (ascii ".") then
    match cutLast 0x3A side with
    | some (_, tail) => tail
    | none => side
  else []

/-- The text with its last two groups put back as they were written. -/
def restoreIPv4 (out dotted : Bytes) : Bytes :=
  if dotted = [] then out else (replaceLastTwoGroups out dotted).getD out

/-- `normalizeIPv6` -/
def normalizeIPv6 (lit : Bytes) : Option Bytes :=
  if contains lit (ascii ":") = false then none
  else do
    let (head, tail, hasElision) := match cut (ascii "::") lit with
      | some (head, tail) => (head, tail, true)
      | none => (lit, [], false)
    guard ¬(hasElision ∧ contains tail (ascii "::"))
    let headGroups ← parseSide head (!hasElision || tail ≠ [])
    let tailGroups ← parseSide tail true
    let total := headGroups.length + tailGroups.length
    if hasElision then guard ¬total > 7
    else
      let colons := lit.count 0x3A
      guard ¬(total ≠ 8 ∨ colons ≠ 7 ∧ ¬(contains lit (ascii ".") ∧ colons = 6))
    let out := (ascii ":").intercalate (headGroups.map lowerHexStr) ++
      (if hasElision then ascii "::" else []) ++
        (ascii ":").intercalate (tailGroups.map lowerHexStr)
    let out := if hasElision then out else restoreIPv4 out (dottedTail head)
    some (restoreIPv4 out (dottedTail tail))

/-- `normalizeIPvFuture` -/
def normalizeIPvFuture (lit : Bytes) : Option Bytes := do
  guard ¬(lit.length < 2 ∨ (lit.head? ≠ some 0x76 ∧ lit.head? ≠ some 0x56) ∨ lit[1]? = some 0x2E)
  let (before, rest) ← cut (ascii ".") lit
  let ver := before.drop 1
  guard ¬(ver = [] ∨ rest = [])
  guard (ver.all fun c => !(hexVal c < 0))
  guard (rest.all fun c => isUnreserved c || (isSubDelim c || c == 0x3A))
  some (0x76 :: lowerHexStr ver ++ 0x2E :: rest)

/-- The literal between the brackets, in `normalizeHost`. -/
def normalizeLiteral (literal : Bytes) : Option Bytes :=
  if literal.head? = some 0x76 ∨ literal.head? = some 0x56 then normalizeIPvFuture literal
  else normalizeIPv6 literal

/-- `normalizeHost` -/
def normalizeHost (host : Bytes) : Option Bytes :=
  if host.head? = some 0x5B then do
    let (before, after) ← cutLast 0x5D host
    guard (after = [])
    let literal := before.drop 1
    guard (literal ≠ [])
    let norm ← normalizeLiteral literal
    some (0x5B :: norm ++ [0x5D])
  else do
    guard (host ≠ [])
    let normalized ← normalizeEscapes (fun c => isUnreserved c || isSubDelim c) lowerByte host
    if isNumericDotted normalized then do
      guard (validIPv4 normalized)
      some normalized
    else some normalized

/-! ## Authorities -/

/-- The port that no port is. -/
def invalidPort : Bytes := 0x00 :: ascii "invalid"

/-- `splitHostPort` -/
def splitHostPort (auth : Bytes) : Bytes × Bytes :=
  if auth.head? = some 0x5B then
    match cut (ascii "]") auth with
    | none => (auth, [])
    | some (before, rest) =>
        let host := before ++ ascii "]"
        match rest with
        | [] => (host, [])
        | c :: rest => if c = 0x3A then (host, rest) else (host, invalidPort)
  else
    match cutLast 0x3A auth with
    | some (before, after) => if after = [] then (auth, invalidPort) else (before, after)
    | none => (auth, [])

/-- The loop of `normalizePort` that drops the zeros in front. -/
def portDigits : (started : Bool) → Bytes → Option Bytes
  | _, [] => some []
  | started, c :: rest =>
      if c < 0x30 || c > 0x39 then none
      else
        let started := started || c != 0x30
        (portDigits started rest).map fun dec => if started then c :: dec else dec

/-- `normalizePort` -/
def normalizePort (port : Bytes) : Option Bytes :=
  if port = [] then some []
  else do
    let dec ← portDigits false port
    guard ¬(dec.length = 0)
    guard ¬(dec.length > 5)
    let v := labelValue dec
    guard ¬(v < 1 ∨ v > 65535)
    if v = 443 then some [] else some dec

/-- The authority as `UriNormalize` reads it: the host and the port of the result. -/
def normalizeAuthority (auth : Bytes) : Option (Bytes × Bytes) := do
  guard (auth ≠ [])
  guard (contains auth (ascii "@") = false)
  let (hostRaw, portRaw) := splitHostPort auth
  let host ← normalizeHost hostRaw
  let port ← normalizePort portRaw
  some (host, port)

/-- The authority and the path behind the scheme, in `UriNormalize`. -/
def splitPath (schemeRest : Bytes) : Bytes × Bytes :=
  match cut (ascii "/") schemeRest with
  | some (auth, path) => (auth, 0x2F :: path)
  | none => (schemeRest, [])

/-- `UriNormalize` -/
def uriNormalize (uri : Bytes) (bounds : BoundsPointer) : Option Bytes := do
  let b ← resolveBounds bounds
  guard ¬(uri.length = 0 ∨ uri.length > b .uriBytes)
  guard (uri.all fun c => !(c < 0x21 || c > 0x7E))
  guard ¬(uri.length < 8 ∨ (uri.take 8).map lower ≠ ascii "https://")
  let schemeRest := uri.drop 8
  guard ¬(contains uri (ascii "?") ∨ contains uri (ascii "#"))
  let (auth, path) := splitPath schemeRest
  let (host, port) ← normalizeAuthority auth
  let normPath ← normalizePath path
  let out := ascii "https://" ++ host ++ (if port ≠ [] then ascii ":" ++ port else []) ++ normPath
  guard ¬(out.length > b .uriBytes)
  some out

example : uriNormalize (ascii "HTTPS://A:0443/b/./%7e/..") none = some (ascii "https://a/b/") := by
  decide +kernel

end BoundedAuthority.Go.Uri
