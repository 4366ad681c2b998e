import BoundedAuthority.ApplicationProfile.LocalLoopbackHttp
import BoundedAuthority.V1.Assembly

/-!
# Grants and proofs

The reading half of `lib/bounded_authority_protocol/v1/runtime.ex` and of its copies
`v2/runtime.ex` and `v3/runtime.ex`.

The runtimes of the three majors are one text, up to the signature suite and the
selectors.  Here they are one definition over a `Major`, which says what a major
has of its own.  Only the first major has a second proof profile.
-/

namespace BoundedAuthority.Runtime

open Wire JsonValue V1

/-- What a major has of its own; `σ` is the type of its selectors. -/
structure Major (σ : Type) where
  /-- `v` of the payloads -/
  version : Nat
  /-- `alg` of the headers -/
  alg : Bytes
  /-- the size of a public key -/
  publicKeyBytes : Bounds → Nat
  /-- what `validate_trusted_issuer/2` asks of a key besides its size -/
  trustedKey : Bytes → Bool
  encodePublic : (publicKey : Bytes) → (limits : Limits) → Option Bytes
  decodePublic : (jwk : Bytes) → (limits : Limits) → Option Bytes
  thumbprintRaw : (jwk : Bytes) → (limits : Limits) → Option Bytes
  publicKeyThumbprintRaw : (publicKey : Bytes) → (limits : Limits) → Option Bytes
  digest : (operation : Bytes) → (castArguments : JsonValue) → (limits : Limits) → Option Bytes
  digestRaw : (operation : Bytes) → (castArguments : JsonValue) → (limits : Limits) → Option Bytes
  verifySignature : (message signature publicKey : Bytes) → Bool
  selector : (value : JsonValue) → (bounds : Bounds) → Option σ
  encodeSelector : (selector : σ) → (bounds : Bounds) → Option JsonValue
  selects : (selector : σ) → (arguments : JsonValue) → (bounds : Bounds) → Bool

/-- The profile of a proof. -/
inductive Profile
  | standard | localLoopbackHttp
deriving DecidableEq

/-! ## Records -/

/-- `%Operation{}` -/
structure Operation (σ : Type) where
  name : Bytes
  selectors : List σ

/-- `%DecodedGrant{}` -/
@[ext] structure DecodedGrant (σ : Type) where
  version : Nat
  keyId : Bytes
  issuer : Bytes
  grantId : Bytes
  audiences : List Bytes
  issuedAt : Int
  notBefore : Int
  expiresAt : Int
  holderThumbprint : Bytes
  operations : List (Operation σ)
  verification : Trust

/-- `%DecodedProof{}` -/
@[ext] structure DecodedProof where
  version : Nat
  proofId : Bytes
  method : Bytes
  targetUri : Bytes
  issuedAt : Int
  nonce : Option Bytes
  invocationId : Bytes
  operation : Bytes
  grantHash : Bytes
  requestHash : Bytes
  holderPublicKey : Bytes
  holderThumbprint : Bytes
  verification : Trust
deriving DecidableEq

/-- The map `parse_grant/2` and `parse_proof/3` return. -/
@[ext] structure Parsed (α : Type) where
  decoded : α
  signature : Bytes
  message : Bytes

/-! ## Compact serializations -/

/-- The members of a compact serialization, and what its signature is about. -/
structure Opened where
  header : List (Bytes × JsonValue)
  payload : List (Bytes × JsonValue)
  signature : Bytes
  message : Bytes

/-- The steps `parse_grant_validated/2` and `parse_proof_validated/3` begin with. -/
def openCompact (compact : Bytes) (bounds : Bounds) : Option Opened := do
  let segments ← CompactJws.scan compact bounds
  let protectedBytes ← Base64Url.decode segments.protectedHeader bounds
  let payloadBytes ← Base64Url.decode segments.payload bounds
  let signature ← Base64Url.decode segments.signature bounds
  guard (signature.length = bounds .signatureBytes)
  let .object header ← Json.decode protectedBytes bounds | none
  let .object payload ← Json.decode payloadBytes bounds | none
  some ⟨header, payload, signature, segments.message⟩

/-- What is opened. -/
theorem openCompact_eq_some {compact : Bytes} {bounds : Bounds} {opened : Opened} :
    openCompact compact bounds = some opened ↔ ∃ segments protectedBytes payloadBytes,
      CompactJws.scan compact bounds = some segments ∧
      Base64Url.decode segments.protectedHeader bounds = some protectedBytes ∧
      Base64Url.decode segments.payload bounds = some payloadBytes ∧
      Base64Url.decode segments.signature bounds = some opened.signature ∧
      opened.signature.length = bounds .signatureBytes ∧
      Json.decode protectedBytes bounds = some (.object opened.header) ∧
      Json.decode payloadBytes bounds = some (.object opened.payload) ∧
      opened.message = segments.message := by
  simp only [openCompact, Option.bind_eq_bind, Option.bind_eq_some_iff, guard_eq_some, exists_const]
  constructor
  · rintro ⟨segments, scanned, protectedBytes, first, payloadBytes, second, signature, third, size,
      header, decodedHeader, h⟩
    cases header with
    | object header =>
        obtain ⟨payload, decodedPayload, h⟩ := Option.bind_eq_some_iff.mp h
        cases payload with
        | object payload =>
            obtain rfl := Option.some.inj h
            exact ⟨segments, protectedBytes, payloadBytes, scanned, first, second, third, size,
              decodedHeader, decodedPayload, rfl⟩
        | _ => cases h
    | _ => cases h
  · rintro ⟨segments, protectedBytes, payloadBytes, scanned, first, second, third, size,
      decodedHeader, decodedPayload, message⟩
    refine ⟨segments, scanned, protectedBytes, first, payloadBytes, second, opened.signature, third,
      size, _, decodedHeader, Option.bind_eq_some_iff.mpr ⟨_, decodedPayload, ?_⟩⟩
    simp only [← message]

variable {σ : Type} (M : Major σ) (otp : Otp)

/-! ## Operations -/

/-- `operation/2` -/
def operation (value : JsonValue) (bounds : Bounds) : Option (Operation σ) :=
  match value with
  | .object members => do
      let map ← ClosedMap.closedMap members [ascii "name", ascii "selectors"]
      let name ← ClosedMap.string map (ascii "name")
      guard (validOperation name bounds)
      let selectorValues ← ClosedMap.array map (ascii "selectors")
      guard (nonemptyBounded selectorValues (bounds .selectors))
      let selectors ← selectorValues.mapM fun value => M.selector value bounds
      some ⟨name, selectors⟩
  | _ => none

/-- `operations/2` -/
def operations (values : List JsonValue) (bounds : Bounds) : Option (List (Operation σ)) := do
  guard (nonemptyBounded values (bounds .operations))
  values.mapM fun value => operation M value bounds

/-! ## Grants -/

/-- `@grant_header_keys` -/
def grantHeaderKeys : List Bytes := [ascii "alg", ascii "kid", ascii "typ"]

/-- `@grant_payload_keys` -/
def grantPayloadKeys : List Bytes :=
  [ascii "aud", ascii "cnf", ascii "exp", ascii "iat", ascii "iss", ascii "jti", ascii "nbf",
    ascii "operations", ascii "v"]

/-- A member that holds a digest. -/
def digestMember (map : ClosedMap) (key : Bytes) (bounds : Bounds) : Option Bytes := do
  let encoded ← ClosedMap.string map key
  let digest ← Base64Url.decode encoded bounds
  guard (digest.length = bounds .digestBytes)
  some digest

/-- `decode_grant_fields/3` -/
def decodeGrantFields (header payload : ClosedMap) (bounds : Bounds) : Option (DecodedGrant σ) := do
  guard (ClosedMap.string header (ascii "alg") = some M.alg)
  guard (ClosedMap.string header (ascii "typ") = some (ascii "ba+cap"))
  let keyId ← ClosedMap.string header (ascii "kid")
  guard (validKeyId keyId bounds)
  guard (ClosedMap.integer payload (ascii "v") = some (M.version : Int))
  let issuer ← ClosedMap.string payload (ascii "iss")
  guard (validIdentifier otp issuer bounds)
  let grantId ← ClosedMap.string payload (ascii "jti")
  guard (validIdentifier otp grantId bounds)
  let audiences ← decodeAudiences otp (payload.lookup (ascii "aud")) bounds
  guard (unique audiences)
  let issuedAt ← ClosedMap.integer payload (ascii "iat")
  let notBefore ← ClosedMap.integer payload (ascii "nbf")
  let expiresAt ← ClosedMap.integer payload (ascii "exp")
  guard (coherentTimes issuedAt notBefore expiresAt)
  let confirmationMembers ← ClosedMap.object payload (ascii "cnf")
  let confirmation ← ClosedMap.closedMap confirmationMembers [ascii "jkt"]
  let holderThumbprint ← digestMember confirmation (ascii "jkt") bounds
  let operationValues ← ClosedMap.array payload (ascii "operations")
  let operations ← operations M operationValues bounds
  guard (unique (operations.map Operation.name))
  some
    { version := M.version
      keyId := keyId
      issuer := issuer
      grantId := grantId
      audiences := audiences
      issuedAt := issuedAt
      notBefore := notBefore
      expiresAt := expiresAt
      holderThumbprint := holderThumbprint
      operations := operations
      verification := .notEvaluated }

/-- The claims of a decoded grant. -/
structure GrantFields (header payload : ClosedMap) (bounds : Bounds) (grant : DecodedGrant σ) :
    Prop where
  alg : ClosedMap.string header (ascii "alg") = some M.alg
  typ : ClosedMap.string header (ascii "typ") = some (ascii "ba+cap")
  kid : ClosedMap.string header (ascii "kid") = some grant.keyId
  validKid : validKeyId grant.keyId bounds = true
  v : ClosedMap.integer payload (ascii "v") = some (M.version : Int)
  iss : ClosedMap.string payload (ascii "iss") = some grant.issuer
  validIss : validIdentifier otp grant.issuer bounds = true
  jti : ClosedMap.string payload (ascii "jti") = some grant.grantId
  validJti : validIdentifier otp grant.grantId bounds = true
  aud : decodeAudiences otp (payload.lookup (ascii "aud")) bounds = some grant.audiences
  uniqueAud : unique grant.audiences = true
  iat : ClosedMap.integer payload (ascii "iat") = some grant.issuedAt
  nbf : ClosedMap.integer payload (ascii "nbf") = some grant.notBefore
  exp : ClosedMap.integer payload (ascii "exp") = some grant.expiresAt
  coherent : coherentTimes grant.issuedAt grant.notBefore grant.expiresAt = true
  cnf : ∃ members map, ClosedMap.object payload (ascii "cnf") = some members ∧
    ClosedMap.closedMap members [ascii "jkt"] = some map ∧
    digestMember map (ascii "jkt") bounds = some grant.holderThumbprint
  operations : ∃ values, ClosedMap.array payload (ascii "operations") = some values ∧
    operations M values bounds = some grant.operations
  uniqueNames : unique (grant.operations.map Operation.name) = true
  version : grant.version = M.version
  verification : grant.verification = .notEvaluated

theorem decodeGrantFields_eq_some {header payload : ClosedMap} {bounds : Bounds}
    {grant : DecodedGrant σ} : decodeGrantFields M otp header payload bounds = some grant ↔
      GrantFields M otp header payload bounds grant := by
  constructor
  · intro h
    obtain ⟨alg, h⟩ := guard_bind_eq_some.mp h
    obtain ⟨typ, h⟩ := guard_bind_eq_some.mp h
    obtain ⟨keyId, kid, h⟩ := Option.bind_eq_some_iff.mp h
    obtain ⟨validKid, h⟩ := guard_bind_eq_some.mp h
    obtain ⟨v, h⟩ := guard_bind_eq_some.mp h
    obtain ⟨issuer, iss, h⟩ := Option.bind_eq_some_iff.mp h
    obtain ⟨validIss, h⟩ := guard_bind_eq_some.mp h
    obtain ⟨grantId, jti, h⟩ := Option.bind_eq_some_iff.mp h
    obtain ⟨validJti, h⟩ := guard_bind_eq_some.mp h
    obtain ⟨audiences, aud, h⟩ := Option.bind_eq_some_iff.mp h
    obtain ⟨uniqueAud, h⟩ := guard_bind_eq_some.mp h
    obtain ⟨issuedAt, iat, h⟩ := Option.bind_eq_some_iff.mp h
    obtain ⟨notBefore, nbf, h⟩ := Option.bind_eq_some_iff.mp h
    obtain ⟨expiresAt, exp, h⟩ := Option.bind_eq_some_iff.mp h
    obtain ⟨coherent, h⟩ := guard_bind_eq_some.mp h
    obtain ⟨members, cnf, h⟩ := Option.bind_eq_some_iff.mp h
    obtain ⟨map, closed, h⟩ := Option.bind_eq_some_iff.mp h
    obtain ⟨thumbprint, jkt, h⟩ := Option.bind_eq_some_iff.mp h
    obtain ⟨values, array, h⟩ := Option.bind_eq_some_iff.mp h
    obtain ⟨operations, read, h⟩ := Option.bind_eq_some_iff.mp h
    obtain ⟨uniqueNames, h⟩ := guard_bind_eq_some.mp h
    obtain rfl := Option.some.inj h
    exact ⟨alg, typ, kid, validKid, v, iss, validIss, jti, validJti, aud, uniqueAud, iat, nbf, exp,
      coherent, ⟨members, map, cnf, closed, jkt⟩, ⟨values, array, read⟩, uniqueNames, rfl, rfl⟩
  · intro h
    obtain ⟨version, keyId, issuer, grantId, audiences, issuedAt, notBefore, expiresAt, thumbprint,
      operations, verification⟩ := grant
    obtain ⟨members, map, cnf, closed, jkt⟩ := h.cnf
    obtain ⟨values, array, read⟩ := h.operations
    obtain rfl : version = M.version := h.version
    obtain rfl : verification = .notEvaluated := h.verification
    refine guard_bind_eq_some.mpr ⟨h.alg, guard_bind_eq_some.mpr ⟨h.typ, ?_⟩⟩
    refine Option.bind_eq_some_iff.mpr ⟨_, h.kid, guard_bind_eq_some.mpr ⟨h.validKid, ?_⟩⟩
    refine guard_bind_eq_some.mpr ⟨h.v, Option.bind_eq_some_iff.mpr ⟨_, h.iss, ?_⟩⟩
    refine guard_bind_eq_some.mpr ⟨h.validIss, Option.bind_eq_some_iff.mpr ⟨_, h.jti, ?_⟩⟩
    refine guard_bind_eq_some.mpr ⟨h.validJti, Option.bind_eq_some_iff.mpr ⟨_, h.aud, ?_⟩⟩
    refine guard_bind_eq_some.mpr ⟨h.uniqueAud, Option.bind_eq_some_iff.mpr ⟨_, h.iat, ?_⟩⟩
    refine Option.bind_eq_some_iff.mpr ⟨_, h.nbf, Option.bind_eq_some_iff.mpr ⟨_, h.exp, ?_⟩⟩
    refine guard_bind_eq_some.mpr ⟨h.coherent, Option.bind_eq_some_iff.mpr ⟨_, cnf, ?_⟩⟩
    refine Option.bind_eq_some_iff.mpr ⟨_, closed, Option.bind_eq_some_iff.mpr ⟨_, jkt, ?_⟩⟩
    refine Option.bind_eq_some_iff.mpr ⟨_, array, Option.bind_eq_some_iff.mpr ⟨_, read, ?_⟩⟩
    exact guard_bind_eq_some.mpr ⟨h.uniqueNames, rfl⟩

/-- `parse_grant/2` -/
def parseGrant (compact : Bytes) (limits : Limits) : Option (Parsed (DecodedGrant σ)) := do
  let bounds ← Bounds.coerce limits
  let opened ← openCompact compact bounds
  let header ← ClosedMap.closedMap opened.header grantHeaderKeys
  let payload ← ClosedMap.closedMap opened.payload grantPayloadKeys
  let decoded ← decodeGrantFields M otp header payload bounds
  some ⟨decoded, opened.signature, opened.message⟩

/-- A parsed grant. -/
theorem parseGrant_eq_some {compact : Bytes} {bounds : Bounds} {parsed : Parsed (DecodedGrant σ)} :
    parseGrant M otp compact bounds = some parsed ↔ ∃ opened header payload,
      openCompact compact bounds = some opened ∧
      ClosedMap.closedMap opened.header grantHeaderKeys = some header ∧
      ClosedMap.closedMap opened.payload grantPayloadKeys = some payload ∧
      GrantFields M otp header payload bounds parsed.decoded ∧
      parsed.signature = opened.signature ∧ parsed.message = opened.message := by
  simp only [parseGrant, Bounds.coerce_toLimits, Option.bind_eq_bind, Option.bind_some,
    Option.bind_eq_some_iff, decodeGrantFields_eq_some, Option.some.injEq]
  constructor
  · rintro ⟨opened, found, header, closedHeader, payload, closedPayload, decoded, fields, rfl⟩
    exact ⟨opened, header, payload, found, closedHeader, closedPayload, fields, rfl, rfl⟩
  · rintro ⟨opened, header, payload, found, closedHeader, closedPayload, fields, signature, message⟩
    refine ⟨opened, found, header, closedHeader, payload, closedPayload, _, fields, ?_⟩
    rw [← signature, ← message]

/-- `decode_grant/2` -/
def decodeGrant (compact : Bytes) (limits : Limits) : Option (DecodedGrant σ) :=
  (parseGrant M otp compact limits).map Parsed.decoded

/-! ## Proofs -/

/-- `@proof_header_keys` -/
def proofHeaderKeys : List Bytes := [ascii "alg", ascii "jwk", ascii "typ"]

/-- `@proof_payload_keys` -/
def proofPayloadKeys : List Bytes :=
  [ascii "ath", ascii "ba_inv", ascii "ba_op", ascii "ba_req", ascii "htm", ascii "htu",
    ascii "iat", ascii "jti", ascii "nonce", ascii "v"]

/-- `@proof_payload_keys_without_nonce` -/
def proofPayloadKeysWithoutNonce : List Bytes :=
  [ascii "ath", ascii "ba_inv", ascii "ba_op", ascii "ba_req", ascii "htm", ascii "htu",
    ascii "iat", ascii "jti", ascii "v"]

namespace Profile

/-- `proof_kind/1` -/
def proofKind : Profile → SigningKind
  | standard => .proof
  | localLoopbackHttp => .localLoopbackHttpProof

/-- `proof_type/1` -/
def proofType : Profile → Bytes
  | standard => ascii "dpop+jwt"
  | localLoopbackHttp => ascii "ba+loopback-proof"

/-- `normalize_proof_uri/3` -/
def normalizeProofUri : Profile → (uri : Bytes) → (limits : Limits) → Option Bytes
  | standard => Uri.normalize
  | localLoopbackHttp => ApplicationProfile.LocalLoopbackHttp.normalize

/-- `closed_proof_payload/2` -/
def closedProofPayload : Profile → (members : List (Bytes × JsonValue)) → Option ClosedMap
  | standard, members =>
      ClosedMap.closedMapOneOf members [proofPayloadKeys, proofPayloadKeysWithoutNonce]
  | localLoopbackHttp, members => ClosedMap.closedMap members proofPayloadKeys

theorem closedProofPayload_eq {profile : Profile} {members : List (Bytes × JsonValue)}
    {map : ClosedMap} (h : profile.closedProofPayload members = some map) :
    map = members.reverse := by
  cases profile with
  | standard => exact ClosedMap.closedMapOneOf_eq h
  | localLoopbackHttp => exact ClosedMap.closedMap_eq h

/-- `optional_nonce/2` -/
def optionalNonce (payload : ClosedMap) (bounds : Bounds) : Option (Option Bytes) :=
  match payload.lookup (ascii "nonce") with
  | none => some none
  | some (.string nonce) => do
      guard (validNonce nonce bounds)
      some (some nonce)
  | some _ => none

/-- `profile_nonce/3` -/
def profileNonce : Profile → (payload : ClosedMap) → (bounds : Bounds) → Option (Option Bytes)
  | standard, payload, bounds => optionalNonce payload bounds
  | localLoopbackHttp, payload, bounds => do
      let nonce ← ClosedMap.string payload (ascii "nonce")
      guard (validNonce nonce bounds)
      some (some nonce)

/-- `valid_profile_nonce?/3` -/
def validProfileNonce (profile : Profile) (nonce : Option Bytes) (bounds : Bounds) : Bool :=
  match profile with
  | standard => validOptionalNonce nonce bounds
  | localLoopbackHttp => nonce.any fun nonce => validNonce nonce bounds

/-- `valid_profile_nonce_expectation?/3` -/
def validProfileNonceExpectation (profile : Profile) (expectation : NonceExpectation)
    (bounds : Bounds) : Bool :=
  match profile, expectation with
  | standard, expectation => validNonceExpectation expectation bounds
  | localLoopbackHttp, .required nonce => validNonce nonce bounds
  | localLoopbackHttp, .notRequired => false

end Profile

variable (profile : Profile)

/-- `decode_proof_fields/4` -/
def decodeProofFields (header payload : ClosedMap) (bounds : Bounds) : Option DecodedProof := do
  guard (ClosedMap.string header (ascii "alg") = some M.alg)
  guard (ClosedMap.string header (ascii "typ") = some profile.proofType)
  let jwkMembers ← ClosedMap.object header (ascii "jwk")
  let jwkBytes ← Jcs.encode (.object jwkMembers) bounds
  let holderPublicKey ← M.decodePublic jwkBytes bounds
  let holderThumbprint ← M.thumbprintRaw jwkBytes bounds
  guard (ClosedMap.integer payload (ascii "v") = some (M.version : Int))
  let proofId ← ClosedMap.string payload (ascii "jti")
  guard (validIdentifier otp proofId bounds)
  let method ← ClosedMap.string payload (ascii "htm")
  guard (validMethod method bounds)
  let targetUri ← ClosedMap.string payload (ascii "htu")
  let normalized ← profile.normalizeProofUri targetUri bounds
  guard (normalized = targetUri)
  let issuedAt ← ClosedMap.integer payload (ascii "iat")
  let nonce ← profile.profileNonce payload bounds
  let invocationId ← ClosedMap.string payload (ascii "ba_inv")
  guard (validUuid invocationId)
  let operation ← ClosedMap.string payload (ascii "ba_op")
  guard (validOperation operation bounds)
  let grantHash ← digestMember payload (ascii "ath") bounds
  let requestHash ← digestMember payload (ascii "ba_req") bounds
  some
    { version := M.version
      proofId := proofId
      method := method
      targetUri := targetUri
      issuedAt := issuedAt
      nonce := nonce
      invocationId := invocationId
      operation := operation
      grantHash := grantHash
      requestHash := requestHash
      holderPublicKey := holderPublicKey
      holderThumbprint := holderThumbprint
      verification := .notEvaluated }

/-- The claims of a decoded proof. -/
structure ProofFields (header payload : ClosedMap) (bounds : Bounds) (proof : DecodedProof) :
    Prop where
  alg : ClosedMap.string header (ascii "alg") = some M.alg
  typ : ClosedMap.string header (ascii "typ") = some profile.proofType
  jwk : ∃ members bytes, ClosedMap.object header (ascii "jwk") = some members ∧
    Jcs.encode (.object members) bounds = some bytes ∧
    M.decodePublic bytes bounds = some proof.holderPublicKey ∧
    M.thumbprintRaw bytes bounds = some proof.holderThumbprint
  v : ClosedMap.integer payload (ascii "v") = some (M.version : Int)
  jti : ClosedMap.string payload (ascii "jti") = some proof.proofId
  validJti : validIdentifier otp proof.proofId bounds = true
  htm : ClosedMap.string payload (ascii "htm") = some proof.method
  validHtm : validMethod proof.method bounds = true
  htu : ClosedMap.string payload (ascii "htu") = some proof.targetUri
  normalHtu : profile.normalizeProofUri proof.targetUri bounds = some proof.targetUri
  iat : ClosedMap.integer payload (ascii "iat") = some proof.issuedAt
  nonce : profile.profileNonce payload bounds = some proof.nonce
  invocation : ClosedMap.string payload (ascii "ba_inv") = some proof.invocationId
  validInvocation : validUuid proof.invocationId = true
  operation : ClosedMap.string payload (ascii "ba_op") = some proof.operation
  validOperation : validOperation proof.operation bounds = true
  ath : digestMember payload (ascii "ath") bounds = some proof.grantHash
  request : digestMember payload (ascii "ba_req") bounds = some proof.requestHash
  version : proof.version = M.version
  verification : proof.verification = .notEvaluated

theorem decodeProofFields_eq_some {header payload : ClosedMap} {bounds : Bounds}
    {proof : DecodedProof} : decodeProofFields M otp profile header payload bounds = some proof ↔
      ProofFields M otp profile header payload bounds proof := by
  constructor
  · intro h
    obtain ⟨alg, h⟩ := guard_bind_eq_some.mp h
    obtain ⟨typ, h⟩ := guard_bind_eq_some.mp h
    obtain ⟨members, jwk, h⟩ := Option.bind_eq_some_iff.mp h
    obtain ⟨bytes, encoded, h⟩ := Option.bind_eq_some_iff.mp h
    obtain ⟨publicKey, decoded, h⟩ := Option.bind_eq_some_iff.mp h
    obtain ⟨thumbprint, digest, h⟩ := Option.bind_eq_some_iff.mp h
    obtain ⟨v, h⟩ := guard_bind_eq_some.mp h
    obtain ⟨proofId, jti, h⟩ := Option.bind_eq_some_iff.mp h
    obtain ⟨validJti, h⟩ := guard_bind_eq_some.mp h
    obtain ⟨method, htm, h⟩ := Option.bind_eq_some_iff.mp h
    obtain ⟨validHtm, h⟩ := guard_bind_eq_some.mp h
    obtain ⟨targetUri, htu, h⟩ := Option.bind_eq_some_iff.mp h
    obtain ⟨normalized, normalHtu, h⟩ := Option.bind_eq_some_iff.mp h
    obtain ⟨rfl, h⟩ := guard_bind_eq_some.mp h
    obtain ⟨issuedAt, iat, h⟩ := Option.bind_eq_some_iff.mp h
    obtain ⟨nonce, foundNonce, h⟩ := Option.bind_eq_some_iff.mp h
    obtain ⟨invocationId, invocation, h⟩ := Option.bind_eq_some_iff.mp h
    obtain ⟨validInvocation, h⟩ := guard_bind_eq_some.mp h
    obtain ⟨operation, foundOperation, h⟩ := Option.bind_eq_some_iff.mp h
    obtain ⟨validOperation, h⟩ := guard_bind_eq_some.mp h
    obtain ⟨grantHash, ath, h⟩ := Option.bind_eq_some_iff.mp h
    obtain ⟨requestHash, request, h⟩ := Option.bind_eq_some_iff.mp h
    obtain rfl := Option.some.inj h
    exact ⟨alg, typ, ⟨members, bytes, jwk, encoded, decoded, digest⟩, v, jti, validJti, htm,
      validHtm, htu, normalHtu, iat, foundNonce, invocation, validInvocation, foundOperation,
      validOperation, ath, request, rfl, rfl⟩
  · intro h
    obtain ⟨version, proofId, method, targetUri, issuedAt, nonce, invocationId, operation,
      grantHash, requestHash, publicKey, thumbprint, verification⟩ := proof
    obtain ⟨members, bytes, jwk, encoded, decoded, digest⟩ := h.jwk
    obtain rfl : version = M.version := h.version
    obtain rfl : verification = .notEvaluated := h.verification
    refine guard_bind_eq_some.mpr ⟨h.alg, guard_bind_eq_some.mpr ⟨h.typ, ?_⟩⟩
    refine Option.bind_eq_some_iff.mpr ⟨_, jwk, Option.bind_eq_some_iff.mpr ⟨_, encoded, ?_⟩⟩
    refine Option.bind_eq_some_iff.mpr ⟨_, decoded, Option.bind_eq_some_iff.mpr ⟨_, digest, ?_⟩⟩
    refine guard_bind_eq_some.mpr ⟨h.v, Option.bind_eq_some_iff.mpr ⟨_, h.jti, ?_⟩⟩
    refine guard_bind_eq_some.mpr ⟨h.validJti, Option.bind_eq_some_iff.mpr ⟨_, h.htm, ?_⟩⟩
    refine guard_bind_eq_some.mpr ⟨h.validHtm, Option.bind_eq_some_iff.mpr ⟨_, h.htu, ?_⟩⟩
    refine Option.bind_eq_some_iff.mpr ⟨_, h.normalHtu, guard_bind_eq_some.mpr ⟨rfl, ?_⟩⟩
    refine Option.bind_eq_some_iff.mpr ⟨_, h.iat, Option.bind_eq_some_iff.mpr ⟨_, h.nonce, ?_⟩⟩
    refine Option.bind_eq_some_iff.mpr ⟨_, h.invocation, ?_⟩
    refine guard_bind_eq_some.mpr ⟨h.validInvocation, ?_⟩
    refine Option.bind_eq_some_iff.mpr
      ⟨_, h.operation, guard_bind_eq_some.mpr ⟨h.validOperation, ?_⟩⟩
    exact Option.bind_eq_some_iff.mpr ⟨_, h.ath, Option.bind_eq_some_iff.mpr ⟨_, h.request, rfl⟩⟩

/-- `parse_proof/3` -/
def parseProof (compact : Bytes) (limits : Limits) : Option (Parsed DecodedProof) := do
  let bounds ← Bounds.coerce limits
  let opened ← openCompact compact bounds
  let header ← ClosedMap.closedMap opened.header proofHeaderKeys
  let payload ← profile.closedProofPayload opened.payload
  let decoded ← decodeProofFields M otp profile header payload bounds
  some ⟨decoded, opened.signature, opened.message⟩

/-- A parsed proof. -/
theorem parseProof_eq_some {compact : Bytes} {bounds : Bounds} {parsed : Parsed DecodedProof} :
    parseProof M otp profile compact bounds = some parsed ↔ ∃ opened header payload,
      openCompact compact bounds = some opened ∧
      ClosedMap.closedMap opened.header proofHeaderKeys = some header ∧
      profile.closedProofPayload opened.payload = some payload ∧
      ProofFields M otp profile header payload bounds parsed.decoded ∧
      parsed.signature = opened.signature ∧ parsed.message = opened.message := by
  simp only [parseProof, Bounds.coerce_toLimits, Option.bind_eq_bind, Option.bind_some,
    Option.bind_eq_some_iff, decodeProofFields_eq_some, Option.some.injEq]
  constructor
  · rintro ⟨opened, found, header, closedHeader, payload, closedPayload, decoded, fields, rfl⟩
    exact ⟨opened, header, payload, found, closedHeader, closedPayload, fields, rfl, rfl⟩
  · rintro ⟨opened, header, payload, found, closedHeader, closedPayload, fields, signature, message⟩
    refine ⟨opened, found, header, closedHeader, payload, closedPayload, _, fields, ?_⟩
    rw [← signature, ← message]

/-- `decode_proof/2` and `decode_local_loopback_proof/2` -/
def decodeProof (compact : Bytes) (limits : Limits) : Option DecodedProof :=
  (parseProof M otp profile compact limits).map Parsed.decoded

end BoundedAuthority.Runtime
