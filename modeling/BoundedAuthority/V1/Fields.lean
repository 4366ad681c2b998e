import BoundedAuthority.V1.ClosedMap
import BoundedAuthority.V1.ContextValidation

/-!
# The claims of a grant and of a proof

The field checks of `lib/bounded_authority_protocol/v1/runtime.ex`; the runtimes
of the later majors hold copies of them.
-/

namespace BoundedAuthority.V1

open Wire JsonValue

/-- `nonempty_bounded?/2` -/
def nonemptyBounded {α : Type} (values : List α) (maximum : Nat) : Bool :=
  !values.isEmpty && values.length ≤ maximum

/-- `valid_operation?/2` -/
def validOperation (value : Bytes) (bounds : Bounds) : Bool :=
  1 ≤ value.length && value.length ≤ bounds .operationBytes && value.all (within 0x20 0x7E)

/-- `@token_punctuation` -/
def tokenPunctuation : Bytes := ascii "!#$%&'*+-.^_\x60|~"

/-- `valid_method?/2` -/
def validMethod (value : Bytes) (bounds : Bounds) : Bool :=
  1 ≤ value.length && value.length ≤ bounds .methodBytes &&
    value.all fun byte => isAlnum byte || tokenPunctuation.contains byte

/-- `lower_hex?/1` -/
def lowerHex (value : Bytes) : Bool := value.all fun byte => isDigit byte || within 0x61 0x66 byte

/-- `binary_part/3` -/
def part (value : Bytes) (start size : Nat) : Bytes := (value.drop start).take size

/-- `valid_uuid?/1`; the binary pattern fixes the size and the four hyphens. -/
def validUuid (value : Bytes) : Bool :=
  value.length = 36 && part value 8 1 == ascii "-" && part value 13 1 == ascii "-" &&
    part value 18 1 == ascii "-" && part value 23 1 == ascii "-" &&
    (part value 14 1).all (within 0x31 0x35) &&
    (part value 19 1).all (ascii "89ab").contains &&
    [part value 0 8, part value 9 4, part value 15 3, part value 20 3, part value 24 12].all
      lowerHex

/-- `valid_nonce?/2` -/
def validNonce (nonce : Bytes) (bounds : Bounds) : Bool :=
  1 ≤ nonce.length && nonce.length ≤ bounds .nonceBytes && Utf8.valid nonce

/-- `valid_optional_nonce?/2` -/
def validOptionalNonce (nonce : Option Bytes) (bounds : Bounds) : Bool :=
  nonce.all fun nonce => validNonce nonce bounds

/-- The nonce a caller expects. -/
inductive NonceExpectation
  | notRequired
  | required (nonce : Bytes)
deriving DecidableEq

/-- `valid_nonce_expectation?/2` -/
def validNonceExpectation (expectation : NonceExpectation) (bounds : Bounds) : Bool :=
  match expectation with
  | .notRequired => true
  | .required nonce => validNonce nonce bounds

/-- `secure_equal?/2`; `nil` is equal to nothing. -/
def secureEqual (left right : Option Bytes) : Bool :=
  match left, right with
  | some left, some right => FixedBytes.equal left right
  | _, _ => false

/-- `nonce_matches?/2` -/
def nonceMatches (nonce : Option Bytes) (expectation : NonceExpectation) : Bool :=
  match nonce, expectation with
  | none, .notRequired => true
  | nonce, .required expected => secureEqual nonce (some expected)
  | _, _ => false

/-- `valid_path?/2` -/
def validPath (path : List Bytes) (bounds : Bounds) : Bool :=
  nonemptyBounded path (bounds .pathSegments) &&
    path.all fun member =>
      1 ≤ member.length && member.length ≤ bounds .keyBytes && Utf8.valid member

/-- `unique?/1` -/
def unique (values : List Bytes) : Bool := values.Nodup

/-- `coherent_times?/3` -/
def coherentTimes (issuedAt notBefore expiresAt : Int) : Bool :=
  issuedAt < expiresAt && notBefore < expiresAt

/-- `strings/3` -/
def strings (values : List JsonValue) (maximumCount maximumBytes : Nat) : Option (List Bytes) := do
  guard (nonemptyBounded values maximumCount)
  values.mapM fun
    | .string value => do
        guard (0 < value.length ∧ value.length ≤ maximumBytes)
        guard (Utf8.valid value)
        some value
    | _ => none

/-- `valid_string_list?/3` -/
def validStringList (otp : Otp) (values : List Bytes) (maximumCount maximumBytes : Nat) : Bool :=
  nonemptyBounded values maximumCount &&
    values.all fun value =>
      1 ≤ value.length && value.length ≤ maximumBytes && Utf8.valid value &&
        StringOrUri.valid otp value

/-- `decode_audiences/2` -/
def decodeAudiences (otp : Otp) (value : Option JsonValue) (bounds : Bounds) :
    Option (List Bytes) :=
  match value with
  | some (.string audience) => do
      guard (validIdentifier otp audience bounds)
      some [audience]
  | some (.array values) => do
      let audiences ← strings values (bounds .audiences) (bounds .identifierBytes)
      guard (audiences.all fun audience => validIdentifier otp audience bounds)
      some audiences
  | _ => none

end BoundedAuthority.V1
