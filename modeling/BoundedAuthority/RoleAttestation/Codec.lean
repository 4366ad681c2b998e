import BoundedAuthority.V1.SignedObject

/-!
# Role attestations

The writing and the reading half of
`lib/bounded_authority_protocol/role_attestation/v1/codec.ex`; an attestation is framed as
an anchor is.
-/

namespace BoundedAuthority.RoleAttestation

open Wire JsonValue V1

/-- `%RoleAttestation{}` -/
structure Attestation where
  attestorKeyId : Bytes
  jti : Bytes
  keyId : Bytes
  publicKey : Bytes
  role : Bytes
  nbf : Int
  exp : Int
deriving DecidableEq

/-- The map `parse/2` returns. -/
structure ParsedAttestation where
  attestorKeyId : Bytes
  jti : Bytes
  keyId : Bytes
  publicKey : Bytes
  role : Bytes
  nbf : Int
  exp : Int
  message : Bytes
  signature : Bytes
deriving DecidableEq

/-- `%DecodedAttestation{}` -/
structure DecodedAttestation where
  version : Nat
  attestorKeyId : Bytes
  jti : Bytes
  keyId : Bytes
  publicKey : Bytes
  role : Bytes
  nbf : Int
  exp : Int
  verification : Trust
deriving DecidableEq

namespace Codec

/-- `@payload_keys` -/
def payloadKeys : List Bytes :=
  [ascii "exp", ascii "jti", ascii "key_id", ascii "nbf", ascii "public_key", ascii "role",
    ascii "v"]

/-- `valid_public_key?/2` -/
def validPublicKey (publicKey : Bytes) (bounds : Bounds) : Bool :=
  publicKey.length = 32 && publicKey.length ≤ bounds .publicKeyBytes &&
    Ed25519.acceptablePublicKey publicKey

/-- `valid_role?/1` -/
def validRole (role : Bytes) : Bool := role == ascii "issuer" || role == ascii "holder"

variable (otp : Otp)

/-- `parse/2` -/
def parse (compact : Bytes) (bounds : Bounds) : Option ParsedAttestation := do
  let opened ← openSigned (ascii "ba+role-attestation") payloadKeys compact bounds
  let jti ← ClosedMap.string opened.payload (ascii "jti")
  guard (validIdentifier otp jti bounds)
  let keyId ← ClosedMap.string opened.payload (ascii "key_id")
  guard (validKeyId keyId bounds)
  let publicKey ← ClosedMap.digest opened.payload (ascii "public_key") bounds
  guard (validPublicKey publicKey bounds)
  let role ← ClosedMap.string opened.payload (ascii "role")
  guard (validRole role)
  let nbf ← ClosedMap.integer opened.payload (ascii "nbf")
  guard (validTime nbf bounds)
  let exp ← ClosedMap.integer opened.payload (ascii "exp")
  guard (validTime exp bounds)
  guard (nbf < exp)
  some ⟨opened.keyId, jti, keyId, publicKey, role, nbf, exp, opened.message, opened.signature⟩

/-- `decode/2` -/
def decode (compact : Bytes) (limits : Limits) : Option DecodedAttestation := do
  let bounds ← Bounds.coerce limits
  let parsed ← parse otp compact bounds
  some
    { version := 1
      attestorKeyId := parsed.attestorKeyId
      jti := parsed.jti
      keyId := parsed.keyId
      publicKey := parsed.publicKey
      role := parsed.role
      nbf := parsed.nbf
      exp := parsed.exp
      verification := .notEvaluated }

/-! ## Writing -/

/-- `validate_attestation/2` -/
def validateAttestation (attestation : Attestation) (bounds : Bounds) : Bool :=
  validKeyId attestation.attestorKeyId bounds && validIdentifier otp attestation.jti bounds &&
    validKeyId attestation.keyId bounds && validPublicKey attestation.publicKey bounds &&
    validRole attestation.role && validTime attestation.nbf bounds &&
    validTime attestation.exp bounds && attestation.nbf < attestation.exp

/-- `payload_json/1` -/
def payloadJson (attestation : Attestation) : List (Bytes × JsonValue) :=
  [(ascii "exp", .integer attestation.exp), (ascii "jti", .string attestation.jti),
    (ascii "key_id", .string attestation.keyId), (ascii "nbf", .integer attestation.nbf),
    (ascii "public_key", .string (Base64.encode attestation.publicKey)),
    (ascii "role", .string attestation.role), (ascii "v", .integer 1)]

/-- `signing_input/2` -/
def signingInput (attestation : Attestation) (limits : Limits) : Option SigningInput := do
  let bounds ← Bounds.coerce limits
  guard (validateAttestation otp attestation bounds)
  let header := signedHeader (ascii "ba+role-attestation") attestation.attestorKeyId
  writeSigned .roleAttestation header (payloadJson attestation) bounds

/-- `assemble/3` -/
def assemble : SigningInput → Bytes → Limits → Option Bytes :=
  assembleSigned .roleAttestation (parse otp)

/-- What is decoded of an attestation. -/
def decoded (attestation : Attestation) : DecodedAttestation where
  version := 1
  attestorKeyId := attestation.attestorKeyId
  jti := attestation.jti
  keyId := attestation.keyId
  publicKey := attestation.publicKey
  role := attestation.role
  nbf := attestation.nbf
  exp := attestation.exp
  verification := .notEvaluated

end Codec

end BoundedAuthority.RoleAttestation
