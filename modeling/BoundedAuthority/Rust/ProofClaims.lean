import BoundedAuthority.Runtime.Decoder

/-!
# Proof claims in Rust

The claim checks of `sdks/rust/src/v1.rs`: `validate_proof_header_for`,
`validate_proof_payload_for` and what they call.

`Err(Invalid)` is `none`.  A loop over the members keeps the last value of every name
and refuses a name it does not know.  The checks of keys, of URIs and of identifiers are
parameters (`SubValidators`).
-/

namespace BoundedAuthority.Rust

open Wire JsonValue
open V1 (Bounds ClosedMap)
open BoundedAuthority.Runtime (Profile)

/-! ## Alphabets -/

/-- `is_htm_byte` -/
def isHtmByte (b : UInt8) : Bool := isAlnum b || (ascii "!#$%&'*+-.^_\x60|~").contains b

/-- `is_printable_ascii` -/
def isPrintableAscii (b : UInt8) : Bool := within 0x20 0x7E b

/-- `validate_method_token` -/
def validateMethodToken (s : Bytes) (bounds : Bounds) : Bool :=
  !s.isEmpty && s.length ≤ bounds .methodBytes && s.all isHtmByte

/-- `validate_operation_name` -/
def validateOperationName (s : Bytes) (bounds : Bounds) : Bool :=
  !s.isEmpty && s.length ≤ bounds .operationBytes && s.all isPrintableAscii

/-- The bytes `validate_uuid` wants a hyphen at. -/
def uuidHyphens : List Nat := [8, 13, 18, 23]

/-- `validate_uuid` -/
def validateUuid (s : Bytes) : Bool :=
  s.length = 36 && s.zipIdx.all fun (b, i) =>
    if i ∈ uuidHyphens then b == 0x2D else isDigit b || within 0x61 0x66 b

/-- `base64url_decode` -/
def base64urlDecode (input : Bytes) : Option Bytes := do
  guard (input.length % 4 ≠ 1)
  let out ← Base64.decode input
  guard (Base64.encode out = input)
  some out

/-! ## Claims -/

/-- The value of a claim that is a string. -/
def string : Option JsonValue → Option Bytes
  | some (.string s) => some s
  | _ => none

/-- `take_integral_date` -/
def takeIntegralDate : Option JsonValue → Option Int
  | some (.integer n) => some n
  | _ => none

/-- `take_method_token` -/
def takeMethodToken (value : Option JsonValue) (bounds : Bounds) : Option Bytes := do
  let s ← string value
  guard (validateMethodToken s bounds)
  some s

/-- `take_operation_name` -/
def takeOperationName (value : Option JsonValue) (bounds : Bounds) : Option Bytes := do
  let s ← string value
  guard (validateOperationName s bounds)
  some s

/-- `take_digest_b64u` -/
def takeDigestB64u (value : Option JsonValue) (bounds : Bounds) : Option Bytes := do
  let s ← string value
  guard (s.length ≤ bounds .encodedSegmentBytes)
  let raw ← base64urlDecode s
  guard (raw.length = 32)
  some raw

/-- `take_uuid` -/
def takeUuid (value : Option JsonValue) : Option Bytes := do
  let s ← string value
  guard (validateUuid s)
  some s

/-- The nonce of `validate_proof_payload_for`. -/
def takeNonce (value : Option JsonValue) (bounds : Bounds) (profile : Profile) :
    Option (Option Bytes) :=
  match value with
  | none => do
      guard (profile ≠ .localLoopbackHttp)
      some none
  | some (.string s) => do
      guard (s ≠ [])
      guard (s.length ≤ bounds .nonceBytes)
      some (some s)
  | some _ => none

/-- What the claim checks call for keys, URIs and identifiers. -/
structure SubValidators where
  validateIdentifier : (s : Bytes) → (bounds : Bounds) → Bool
  uriNormalize : (input : Bytes) → (bounds : Bounds) → Option Bytes
  localLoopbackHttpUriNormalize : (input : Bytes) → (bounds : Bounds) → Option Bytes
  jcsEncode : (value : JsonValue) → (bounds : Bounds) → Option Bytes
  jwkDecodePublic : (jwk : Bytes) → Option Bytes
  thumbprintRaw : (publicKey : Bytes) → Option Bytes

variable (v : SubValidators)

/-- `take_string_or_uri` -/
def takeStringOrUri (value : Option JsonValue) (bounds : Bounds) : Option Bytes := do
  let s ← string value
  guard (v.validateIdentifier s bounds)
  some s

/-- A loop over the members of an object. -/
def members (names : List Bytes) : JsonValue → Option ClosedMap
  | .object members => do
      guard (members.all fun member => names.contains member.1)
      some members.reverse
  | _ => none

/-- The names `validate_proof_header_for` knows. -/
def headerNames : List Bytes := [ascii "alg", ascii "typ", ascii "jwk"]

/-- `validate_proof_header_for` -/
def validateProofHeaderFor (header : JsonValue) (bounds : Bounds) (profile : Profile) :
    Option Bytes := do
  let map ← members headerNames header
  guard (string (map.lookup (ascii "alg")) = some (ascii "EdDSA"))
  guard (string (map.lookup (ascii "typ")) = some profile.proofType)
  let jwk ← map.lookup (ascii "jwk")
  let jwkBytes ← v.jcsEncode jwk bounds
  v.jwkDecodePublic jwkBytes

/-- The names `validate_proof_payload_for` knows. -/
def payloadNames : List Bytes :=
  [ascii "v", ascii "jti", ascii "htm", ascii "htu", ascii "iat", ascii "nonce", ascii "ba_inv",
    ascii "ba_op", ascii "ath", ascii "ba_req"]

/-- `ProofPayload` -/
structure ProofPayload where
  proofId : Bytes
  method : Bytes
  targetUri : Bytes
  invocationId : Bytes
  operation : Bytes
  grantHash : Bytes
  requestHash : Bytes
  issuedAt : Int
  nonce : Option Bytes
deriving DecidableEq

/-- The normalization of a profile. -/
def SubValidators.normalize : Profile → (input : Bytes) → (bounds : Bounds) → Option Bytes
  | .standard => v.uriNormalize
  | .localLoopbackHttp => v.localLoopbackHttpUriNormalize

/-- `validate_proof_payload_for` -/
def validateProofPayloadFor (payload : JsonValue) (bounds : Bounds) (profile : Profile) :
    Option ProofPayload := do
  let map ← members payloadNames payload
  guard (takeIntegralDate (map.lookup (ascii "v")) = some 1)
  let proofId ← takeStringOrUri v (map.lookup (ascii "jti")) bounds
  let method ← takeMethodToken (map.lookup (ascii "htm")) bounds
  let invocationId ← takeUuid (map.lookup (ascii "ba_inv"))
  let operation ← takeOperationName (map.lookup (ascii "ba_op")) bounds
  let grantHash ← takeDigestB64u (map.lookup (ascii "ath")) bounds
  let requestHash ← takeDigestB64u (map.lookup (ascii "ba_req")) bounds
  let issuedAt ← takeIntegralDate (map.lookup (ascii "iat"))
  let targetUriInput ← string (map.lookup (ascii "htu"))
  let nonce ← takeNonce (map.lookup (ascii "nonce")) bounds profile
  let targetUri ← v.normalize profile targetUriInput bounds
  guard (targetUri = targetUriInput)
  some
    { proofId := proofId
      method := method
      targetUri := targetUri
      invocationId := invocationId
      operation := operation
      grantHash := grantHash
      requestHash := requestHash
      issuedAt := issuedAt
      nonce := nonce }

/-- `ProofDecoded` -/
structure ProofDecoded extends ProofPayload where
  keyId : Bytes
  holderThumbprint : Bytes
  verification : V1.Trust
deriving DecidableEq

/-- `decode_proof_for` after both segments are decoded. -/
def decodeProofFor (header payload : JsonValue) (bounds : Bounds) (profile : Profile) :
    Option ProofDecoded := do
  let holderPublicKey ← validateProofHeaderFor v header bounds profile
  let payload ← validateProofPayloadFor v payload bounds profile
  let holderThumbprint ← v.thumbprintRaw holderPublicKey
  some
    { payload with
      keyId := []
      holderThumbprint := holderThumbprint
      verification := .notEvaluated }

end BoundedAuthority.Rust
