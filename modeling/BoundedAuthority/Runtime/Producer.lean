import BoundedAuthority.Runtime.Decoder

/-!
# Signing inputs of grants and proofs

The producing half of the runtimes.
-/

namespace BoundedAuthority.Runtime

open Wire JsonValue V1

/-- `%Grant{}` -/
structure Grant (σ : Type) where
  keyId : Bytes
  issuer : Bytes
  grantId : Bytes
  audiences : List Bytes
  issuedAt : Int
  notBefore : Int
  expiresAt : Int
  holderThumbprint : Bytes
  operations : List (Operation σ)

/-- `%Proof{}` -/
structure Proof where
  holderPublicKey : Bytes
  proofId : Bytes
  method : Bytes
  targetUri : Bytes
  issuedAt : Int
  nonce : Option Bytes
  invocationId : Bytes
  operation : Bytes
  grantCompact : Bytes
  castArguments : JsonValue

variable {σ : Type} (M : Major σ) (otp : Otp)

/-! ## Grants -/

/-- `encode_operation/2` -/
def encodeOperation (operation : Operation σ) (bounds : Bounds) : Option JsonValue := do
  guard (validOperation operation.name bounds)
  guard (nonemptyBounded operation.selectors (bounds .selectors))
  let encodedSelectors ← operation.selectors.mapM fun selector => M.encodeSelector selector bounds
  some (.object
    [(ascii "name", .string operation.name), (ascii "selectors", .array encodedSelectors)])

/-- `encode_operations/2` -/
def encodeOperations (operations : List (Operation σ)) (bounds : Bounds) :
    Option (List JsonValue) := do
  guard (nonemptyBounded operations (bounds .operations))
  guard (unique (operations.map Operation.name))
  operations.mapM fun operation => encodeOperation M operation bounds

/-- The header of a grant. -/
def grantHeader (keyId : Bytes) : List (Bytes × JsonValue) :=
  [(ascii "alg", .string M.alg), (ascii "kid", .string keyId),
    (ascii "typ", .string (ascii "ba+cap"))]

/-- The payload of a grant with its operations written. -/
def grantPayload (grant : Grant σ) (operationValues : List JsonValue) :
    List (Bytes × JsonValue) :=
  [(ascii "aud", .array (grant.audiences.map .string)),
    (ascii "cnf", .object [(ascii "jkt", .string (Base64.encode grant.holderThumbprint))]),
    (ascii "exp", .integer grant.expiresAt), (ascii "iat", .integer grant.issuedAt),
    (ascii "iss", .string grant.issuer), (ascii "jti", .string grant.grantId),
    (ascii "nbf", .integer grant.notBefore), (ascii "operations", .array operationValues),
    (ascii "v", .integer M.version)]

/-- `grant_json/2` -/
def grantJson (grant : Grant σ) (bounds : Bounds) : Option (JsonValue × JsonValue) := do
  guard (validKeyId grant.keyId bounds)
  guard (validIdentifier otp grant.issuer bounds)
  guard (validIdentifier otp grant.grantId bounds)
  guard (validStringList otp grant.audiences (bounds .audiences) (bounds .identifierBytes))
  guard (unique grant.audiences)
  guard (coherentTimes grant.issuedAt grant.notBefore grant.expiresAt)
  guard (grant.holderThumbprint.length = bounds .digestBytes)
  let operationValues ← encodeOperations M grant.operations bounds
  some (.object (grantHeader M grant.keyId), .object (grantPayload M grant operationValues))

/-! ## Proofs -/

/-- The header of a proof. -/
def proofHeader (profile : Profile) (jwk : JsonValue) : List (Bytes × JsonValue) :=
  [(ascii "alg", .string M.alg), (ascii "jwk", jwk), (ascii "typ", .string profile.proofType)]

/-- The payload of a proof; a nonce stands in front. -/
def proofPayload (proof : Proof) (targetUri grantHash requestHash : Bytes) :
    List (Bytes × JsonValue) :=
  let payloadMembers :=
    [(ascii "ath", .string grantHash), (ascii "ba_inv", .string proof.invocationId),
      (ascii "ba_op", .string proof.operation), (ascii "ba_req", .string requestHash),
      (ascii "htm", .string proof.method), (ascii "htu", .string targetUri),
      (ascii "iat", .integer proof.issuedAt), (ascii "jti", .string proof.proofId),
      (ascii "v", .integer M.version)]
  match proof.nonce with
  | some nonce => (ascii "nonce", .string nonce) :: payloadMembers
  | none => payloadMembers

/-- `proof_json/3` -/
def proofJson (profile : Profile) (proof : Proof) (bounds : Bounds) :
    Option (JsonValue × JsonValue) := do
  guard (proof.holderPublicKey.length = M.publicKeyBytes bounds)
  let jwkBytes ← M.encodePublic proof.holderPublicKey bounds
  let jwk ← Json.decode jwkBytes bounds
  guard (validIdentifier otp proof.proofId bounds)
  guard (validMethod proof.method bounds)
  let targetUri ← profile.normalizeProofUri proof.targetUri bounds
  guard (targetUri = proof.targetUri)
  guard (profile.validProfileNonce proof.nonce bounds)
  guard (validUuid proof.invocationId)
  guard (validOperation proof.operation bounds)
  let grantHash ← CompactJws.ath otp proof.grantCompact bounds
  let requestHash ← M.digest proof.operation proof.castArguments bounds
  some (.object (proofHeader M profile jwk),
    .object (proofPayload M proof targetUri grantHash requestHash))

/-! ## Signing inputs -/

/-- `signing_input/4` -/
def signingInput (kind : SigningKind) (protectedBytes payloadBytes : Bytes) (bounds : Bounds) :
    Option SigningInput := do
  let protectedSegment := Base64.encode protectedBytes
  let payloadSegment := Base64.encode payloadBytes
  let message := protectedSegment ++ ascii "." ++ payloadSegment
  guard (protectedSegment.length ≤ bounds .encodedSegmentBytes ∧
    payloadSegment.length ≤ bounds .encodedSegmentBytes ∧
    message.length + 1 + 86 ≤ bounds .compactBytes)
  some ⟨kind, protectedSegment, payloadSegment, message⟩

/-- `grant_signing_input/2` -/
def grantSigningInput (grant : Grant σ) (limits : Limits) : Option SigningInput := do
  let bounds ← Bounds.coerce limits
  let (header, payload) ← grantJson M otp grant bounds
  let protectedBytes ← Jcs.encode header bounds
  let payloadBytes ← Jcs.encode payload bounds
  signingInput .grant protectedBytes payloadBytes bounds

/-- `proof_signing_input_for/3` -/
def proofSigningInputFor (proof : Proof) (limits : Limits) (profile : Profile) :
    Option SigningInput := do
  let bounds ← Bounds.coerce limits
  let (header, payload) ← proofJson M otp profile proof bounds
  let protectedBytes ← Jcs.encode header bounds
  let payloadBytes ← Jcs.encode payload bounds
  signingInput profile.proofKind protectedBytes payloadBytes bounds

end BoundedAuthority.Runtime
