import BoundedAuthority.V1.Bounds
import BoundedAuthority.Wire.Decimal
import BoundedAuthority.Wire.Percent
import BoundedAuthority.Wire.Segments

/-!
# Target URIs

`lib/bounded_authority_protocol/uri_path.ex` and
`lib/bounded_authority_protocol/v1/uri.ex`.

`@unreserved` and `@sub_delims` are the classes of `Wire.Percent`, and `:binary.match/2`
and `:binary.split/2,3` are `cut` and `splitGlobal`.
-/

namespace BoundedAuthority.V1

open Wire Percent

namespace UriPath

/-- The bytes of a path that stand for themselves. -/
def pathByte (b : UInt8) : Bool := isUnreserved b || isSubDelim b || (ascii "/:@").contains b

/-- `normalize_bytes/2` -/
def normalizeBytes (path : Bytes) : Option Bytes := Percent.normalize pathByte id path

/-- `until_slash/2` -/
def untilSlash : Bytes → (count : Nat) → Nat
  | [], count => count
  | b :: rest, count => if b = 0x2F then count else untilSlash rest (count + 1)

/-- `first_segment_length/1` -/
def firstSegmentLength : Bytes → Nat
  | [] => 0
  | _ :: rest => 1 + untilSlash rest 0

/-- `remove_last_segment/1`: the bytes before the last slash. -/
def removeLastSegment (output : Bytes) : Bytes :=
  ((output.reverse.dropWhile fun b => b != 0x2F).drop 1).reverse

/-- `remove_dot_segments/2`.  Every step shortens the path. -/
def removeDotSegments : (fuel : Nat) → (path output : Bytes) → Bytes
  | 0, _, output => output
  | fuel + 1, path, output =>
      if (ascii "/./").isPrefixOf path then
        removeDotSegments fuel (0x2F :: path.drop 3) output
      else if path = ascii "/." then output ++ [0x2F]
      else if (ascii "/../").isPrefixOf path then
        removeDotSegments fuel (0x2F :: path.drop 4) (removeLastSegment output)
      else if path = ascii "/.." then removeLastSegment output ++ [0x2F]
      else if path = [] then output
      else
        removeDotSegments fuel (path.drop (firstSegmentLength path))
          (output ++ path.take (firstSegmentLength path))

/-- `normalize/1` -/
def normalize : Bytes → Option Bytes
  | [] => some [0x2F]
  | b :: rest => do
      guard (b = 0x2F)
      let percentNormalized ← normalizeBytes (b :: rest)
      let normalized := removeDotSegments percentNormalized.length percentNormalized []
      guard (normalized ≠ [])
      some normalized

end UriPath

namespace Uri

/-- `ascii_uri?/1` -/
def asciiUri (uri : Bytes) : Bool := uri ≠ [] && uri.all fun byte => within 0x21 0x7E byte

/-- `ascii_downcase/1` -/
def asciiDowncase (bytes : Bytes) : Bytes := bytes.map lower

/-- `contains_any?/2` -/
def containsAny (bytes any : Bytes) : Bool := any.any fun b => (cut [b] bytes).isSome

/-- `split_authority_path/1` -/
def splitAuthorityPath (rest : Bytes) : Bytes × Bytes :=
  match cut (ascii "/") rest with
  | some (authority, path) => (authority, 0x2F :: path)
  | none => (rest, [])

/-- `split_https/1` -/
def splitHttps (uri : Bytes) : Option (Bytes × Bytes) := do
  let (scheme, rest) ← cut (ascii "://") uri
  guard (asciiDowncase scheme = ascii "https")
  guard (containsAny rest (ascii "?#") = false)
  let (authority, path) := splitAuthorityPath rest
  guard (authority ≠ [])
  some (authority, path)

/-! ## Hosts -/

/-- The bytes of a registered name that stand for themselves. -/
def regNameByte (b : UInt8) : Bool := isUnreserved b || isSubDelim b

/-- `normalize_reg_name_bytes/2` -/
def normalizeRegNameBytes : Bytes → Bytes
  | [] => []
  | byte :: rest =>
      if byte = 0x25 then
        match rest with
        | high :: low :: rest => escaped lower high low ++ normalizeRegNameBytes rest
        | rest => lower byte :: normalizeRegNameBytes rest
      else lower byte :: normalizeRegNameBytes rest

/-- `valid_reg_name_bytes?/1` -/
def validRegNameBytes : Bytes → Bool
  | [] => true
  | byte :: rest =>
      if byte = 0x25 then
        match rest with
        | high :: low :: rest => isHex high && isHex low && validRegNameBytes rest
        | _ => false
      else regNameByte byte && validRegNameBytes rest

/-- `valid_ipv4_octet?/1` -/
def validIpv4Octet (octet : Bytes) : Bool :=
  octet ≠ [] && octet.length ≤ 3 && octet.all isDigit &&
    (octet.length = 1 || octet.head? ≠ some 0x30) && Decimal.value octet ≤ 255

/-- `valid_ipv4_tail?/1` -/
def validIpv4Tail (tail : Bytes) : Bool :=
  match splitGlobal (ascii ".") tail with
  | [a, b, c, d] => [a, b, c, d].all validIpv4Octet
  | _ => false

/-- Digits and dots, with a dot. -/
def dottedDigits (host : Bytes) : Bool :=
  host.all (fun b => isDigit b || b == 0x2E) && host.contains 0x2E

/-- `valid_registered_host?/1` -/
def validRegisteredHost (host : Bytes) : Bool :=
  if dottedDigits host then validIpv4Tail host else validRegNameBytes host

/-- `normalize_registered_host/2` -/
def normalizeRegisteredHost (host : Bytes) (port : Option Nat) : Option (Bytes × Option Nat) := do
  guard (host ≠ [] ∧ validRegisteredHost host)
  some (normalizeRegNameBytes host, port)

/-- `valid_hex_group?/1` -/
def validHexGroup (group : Bytes) : Bool :=
  1 ≤ group.length && group.length ≤ 4 && group.all isHex

/-- `ipv6_groups_length/2` -/
def ipv6GroupsLength : List Bytes → (count : Nat) → Option Nat
  | [], _ => none
  | [group], count =>
      if cut (ascii ".") group = none then
        if validHexGroup group then some (count + 1) else none
      else if validIpv4Tail group then some (count + 2) else none
  | group :: rest, count => if validHexGroup group then ipv6GroupsLength rest (count + 1) else none

/-- `ipv6_side_length/1` -/
def ipv6SideLength (side : Bytes) : Option Nat :=
  if side = [] then some 0 else ipv6GroupsLength (splitGlobal (ascii ":") side) 0

/-- `valid_ipv6_literal?/1` -/
def validIpv6Literal (host : Bytes) : Bool :=
  match splitGlobal (ascii "::") host with
  | [side] => ipv6SideLength side = some 8
  | [left, right] =>
      match ipv6SideLength left, ipv6SideLength right with
      | some leftLength, some rightLength => leftLength + rightLength < 8
      | _, _ => false
  | _ => false

/-- `valid_ipv_future?/1` -/
def validIpvFuture (value : Bytes) : Bool :=
  match cut (ascii ".") value with
  | some (version, address) =>
      version ≠ [] && address ≠ [] && version.all isHex &&
        address.all fun b => isUnreserved b || isSubDelim b || b == 0x3A
  | none => false

/-- `valid_ip_literal?/1` -/
def validIpLiteral : Bytes → Bool
  | [] => validIpv6Literal []
  | b :: rest =>
      if b = 0x76 then validIpvFuture rest
      else if b = 0x56 then validIpvFuture rest
      else validIpv6Literal (b :: rest)

/-! ## Authorities -/

/-- `parse_port/1` -/
def parsePort (port : Bytes) : Option Nat := do
  guard (port ≠ [] ∧ port.all isDigit)
  let value := Decimal.value port
  guard (1 ≤ value ∧ value ≤ 65535)
  some value

/-- `parse_port_suffix/1` -/
def parsePortSuffix : Bytes → Option (Option Nat)
  | [] => some none
  | b :: port => do
      guard (b = 0x3A)
      let value ← parsePort port
      some (some value)

/-- `parse_host_port/1` -/
def parseHostPort (authority : Bytes) : Option (Bytes × Option Nat) :=
  if authority.head? = some 0x5B then do
    let (host, suffix) ← cut (ascii "]") (authority.drop 1)
    guard (validIpLiteral host)
    let port ← parsePortSuffix suffix
    some (0x5B :: asciiDowncase host ++ [0x5D], port)
  else
    match cut (ascii ":") authority with
    | none => normalizeRegisteredHost authority none
    | some (host, port) => do
        guard (cut (ascii ":") port = none)
        let parsedPort ← parsePort port
        normalizeRegisteredHost host (some parsedPort)

/-- `normalize_authority/1` -/
def normalizeAuthority (authority : Bytes) : Option (Bytes × Option Nat) := do
  guard (cut (ascii "@") authority = none)
  parseHostPort authority

/-- `build_uri/3` -/
def buildUri (host : Bytes) (port : Option Nat) (path : Bytes) : Bytes :=
  match port with
  | none => ascii "https://" ++ host ++ path
  | some port =>
      if port = 443 then ascii "https://" ++ host ++ path
      else ascii "https://" ++ host ++ ascii ":" ++ Decimal.ofNat port ++ path

/-- `normalize/2` -/
def normalize (uri : Bytes) (limits : Limits) : Option Bytes := do
  let bounds ← Bounds.coerce limits
  guard (uri.length ≤ bounds .uriBytes)
  guard (asciiUri uri)
  let (authority, rawPath) ← splitHttps uri
  let (host, port) ← normalizeAuthority authority
  let path ← UriPath.normalize rawPath
  let normalized := buildUri host port path
  guard (normalized.length ≤ bounds .uriBytes)
  some normalized

example : normalize (ascii "HTTPS://A:443/b/./%7e/..") [] = some (ascii "https://a/b/") := by
  decide +kernel

end Uri

end BoundedAuthority.V1
