import BoundedAuthority.Runtime.Decoder

/-!
# Verification of grants and envelopes

The verifying half of the runtimes.
-/

namespace BoundedAuthority.Runtime

open Wire JsonValue V1

/-! ## Context -/

/-- `%TrustedIssuer{}` -/
structure TrustedIssuer where
  keyId : Bytes
  publicKey : Bytes

/-- `%ExpectedGrant{}` -/
structure ExpectedGrant where
  issuer : Bytes
  audience : Bytes
  evaluationTime : Int
  clockSkew : Int
  bounds : Limits

/-- `%ExpectedRequest{}` -/
structure ExpectedRequest where
  trustedIssuer : TrustedIssuer
  issuer : Bytes
  audience : Bytes
  method : Bytes
  targetUri : Bytes
  invocationId : Bytes
  operation : Bytes
  castArguments : JsonValue
  evaluationTime : Int
  clockSkew : Int
  proofMaxAge : Int
  nonce : NonceExpectation
  bounds : Limits

/-- `%Credentials{}` -/
structure Credentials where
  grant : Bytes
  proof : Bytes

/-- `%GrantFacts{}` -/
structure GrantFacts where
  version : Nat
  issuer : Bytes
  grantId : Bytes
  issuerKeyFingerprint : Bytes
  holderThumbprint : Bytes
  matchedAudience : Bytes
  issuedAt : Int
  notBefore : Int
  expiresAt : Int
  authorization : Trust
deriving DecidableEq

/-- `%EnvelopeFacts{}` -/
structure EnvelopeFacts extends GrantFacts where
  proofId : Bytes
  invocationId : Bytes
  operation : Bytes
  targetUri : Bytes
  grantHash : Bytes
  requestHash : Bytes
  proofIssuedAt : Int
deriving DecidableEq

variable {σ : Type} (M : Major σ) (otp : Otp)

/-- `validate_trusted_issuer/2` -/
def validateTrustedIssuer (trusted : TrustedIssuer) (bounds : Bounds) : Bool :=
  validKeyId trusted.keyId bounds && trusted.publicKey.length = M.publicKeyBytes bounds &&
    M.trustedKey trusted.publicKey

/-- `validate_expected_grant/2` -/
def validateExpectedGrant (expected : ExpectedGrant) (bounds : Bounds) : Bool :=
  validIdentifier otp expected.issuer bounds && validIdentifier otp expected.audience bounds &&
    0 ≤ expected.clockSkew && expected.clockSkew ≤ bounds .clockSkew

/-- The grant an expected request is about. -/
def ExpectedRequest.grantExpected (expected : ExpectedRequest) (bounds : Bounds) :
    ExpectedGrant where
  issuer := expected.issuer
  audience := expected.audience
  evaluationTime := expected.evaluationTime
  clockSkew := expected.clockSkew
  bounds := bounds

/-- `validate_expected_request/3` -/
def validateExpectedRequest (expected : ExpectedRequest) (bounds : Bounds) (profile : Profile) :
    Bool :=
  validateTrustedIssuer M expected.trustedIssuer bounds &&
    validateExpectedGrant otp (expected.grantExpected bounds) bounds &&
    validMethod expected.method bounds &&
    profile.normalizeProofUri expected.targetUri bounds == some expected.targetUri &&
    validUuid expected.invocationId && validOperation expected.operation bounds &&
    (M.digestRaw expected.operation expected.castArguments bounds).isSome &&
    0 < expected.proofMaxAge && expected.proofMaxAge ≤ bounds .proofMaxAge &&
    profile.validProfileNonceExpectation expected.nonce bounds

/-! ## Grants -/

/-- `verify_grant_parsed/4` -/
def verifyGrantParsed (parsed : Parsed (DecodedGrant σ)) (trusted : TrustedIssuer)
    (expected : ExpectedGrant) (bounds : Bounds) : Bool :=
  let grant := parsed.decoded
  FixedBytes.equal grant.keyId trusted.keyId && FixedBytes.equal grant.issuer expected.issuer &&
    (grant.audiences.any fun audience => FixedBytes.equal audience expected.audience) &&
    grant.issuedAt ≤ expected.evaluationTime + expected.clockSkew &&
    grant.notBefore ≤ expected.evaluationTime + expected.clockSkew &&
    grant.expiresAt > expected.evaluationTime - expected.clockSkew &&
    M.verifySignature parsed.message parsed.signature trusted.publicKey &&
    (M.publicKeyThumbprintRaw trusted.publicKey bounds).isSome

/-- `grant_facts/4` -/
def grantFacts (grant : DecodedGrant σ) (publicKey audience : Bytes) (bounds : Bounds) :
    Option GrantFacts := do
  let fingerprint ← M.publicKeyThumbprintRaw publicKey bounds
  some
    { version := M.version
      issuer := grant.issuer
      grantId := grant.grantId
      issuerKeyFingerprint := fingerprint
      holderThumbprint := grant.holderThumbprint
      matchedAudience := audience
      issuedAt := grant.issuedAt
      notBefore := grant.notBefore
      expiresAt := grant.expiresAt
      authorization := .notEvaluated }

/-- `verify_grant/3` -/
def verifyGrant (compact : Bytes) (trusted : TrustedIssuer) (expected : ExpectedGrant) :
    Option GrantFacts := do
  let bounds ← Bounds.coerce expected.bounds
  guard (validateTrustedIssuer M trusted bounds)
  guard (validateExpectedGrant otp expected bounds)
  let parsed ← parseGrant M otp compact bounds
  guard (verifyGrantParsed M parsed trusted expected bounds)
  grantFacts M parsed.decoded trusted.publicKey expected.audience bounds

/-! ## Envelopes -/

/-- `unique_operation/2` -/
def uniqueOperation (operations : List (Operation σ)) (name : Bytes) : Option (Operation σ) :=
  operations.find? fun operation => FixedBytes.equal operation.name name

/-- `Selector.match_all/3` -/
def matchAll (selectors : List σ) (arguments : JsonValue) (bounds : Bounds) : Bool :=
  nonemptyBounded selectors (bounds .selectors) && (Jcs.encode arguments bounds).isSome &&
    selectors.all fun selector => M.selects selector arguments bounds

/-- `verify_proof_parsed/5` -/
def verifyProofParsed (proofParsed : Parsed DecodedProof) (grantCompact : Bytes)
    (grantParsed : Parsed (DecodedGrant σ)) (expected : ExpectedRequest) (bounds : Bounds) : Bool :=
  let proof := proofParsed.decoded
  let grant := grantParsed.decoded
  FixedBytes.equal proof.holderThumbprint grant.holderThumbprint &&
    secureEqual (some proof.grantHash) (CompactJws.hash otp grantCompact bounds) &&
    FixedBytes.equal proof.method expected.method &&
    FixedBytes.equal proof.targetUri expected.targetUri &&
    FixedBytes.equal proof.invocationId expected.invocationId &&
    FixedBytes.equal proof.operation expected.operation &&
    secureEqual (some proof.requestHash)
      (M.digestRaw expected.operation expected.castArguments bounds) &&
    proof.issuedAt ≥ expected.evaluationTime - expected.proofMaxAge - expected.clockSkew &&
    proof.issuedAt ≤ expected.evaluationTime + expected.clockSkew &&
    nonceMatches proof.nonce expected.nonce &&
    ((uniqueOperation grant.operations expected.operation).any fun operation =>
      matchAll M operation.selectors expected.castArguments bounds) &&
    M.verifySignature proofParsed.message proofParsed.signature proof.holderPublicKey

/-- `envelope_facts/4` -/
def envelopeFacts (grantParsed : Parsed (DecodedGrant σ)) (proofParsed : Parsed DecodedProof)
    (expected : ExpectedRequest) (bounds : Bounds) : Option EnvelopeFacts := do
  let proof := proofParsed.decoded
  let facts ← grantFacts M grantParsed.decoded expected.trustedIssuer.publicKey expected.audience
    bounds
  some
    { facts with
      proofId := proof.proofId
      invocationId := proof.invocationId
      operation := proof.operation
      targetUri := proof.targetUri
      grantHash := proof.grantHash
      requestHash := proof.requestHash
      proofIssuedAt := proof.issuedAt }

/-- `check_envelope_for/4` -/
def checkEnvelopeFor (credentials : Credentials) (expected : ExpectedRequest) (profile : Profile) :
    Option EnvelopeFacts := do
  let bounds ← Bounds.coerce expected.bounds
  guard (validateExpectedRequest M otp expected bounds profile)
  let grantParsed ← parseGrant M otp credentials.grant bounds
  guard (verifyGrantParsed M grantParsed expected.trustedIssuer (expected.grantExpected bounds)
    bounds)
  let proofParsed ← parseProof M otp profile credentials.proof bounds
  guard (verifyProofParsed M otp proofParsed credentials.grant grantParsed expected bounds)
  envelopeFacts M grantParsed proofParsed expected bounds

/-! ## What the verifiers check -/

variable {M otp} {bounds : Bounds} {expected : ExpectedRequest}

theorem secureEqual_iff {left : Bytes} {right : Option Bytes} :
    secureEqual (some left) right = true ↔ right = some left := by
  cases right with
  | none => simp [secureEqual]
  | some right =>
      rw [secureEqual, FixedBytes.equal_iff, Option.some.injEq]
      exact eq_comm

/-- A grant that is the expected one, inside its window and signed by the issuer. -/
structure GrantMatches (M : Major σ) (grant : Parsed (DecodedGrant σ)) (expected : ExpectedRequest)
    (bounds : Bounds) : Prop where
  keyId : grant.decoded.keyId = expected.trustedIssuer.keyId
  issuer : grant.decoded.issuer = expected.issuer
  audience : expected.audience ∈ grant.decoded.audiences
  issued : grant.decoded.issuedAt ≤ expected.evaluationTime + expected.clockSkew
  begun : grant.decoded.notBefore ≤ expected.evaluationTime + expected.clockSkew
  unexpired : grant.decoded.expiresAt > expected.evaluationTime - expected.clockSkew
  signature : M.verifySignature grant.message grant.signature expected.trustedIssuer.publicKey =
    true
  fingerprint : (M.publicKeyThumbprintRaw expected.trustedIssuer.publicKey bounds).isSome = true

theorem verifyGrantParsed_iff {grant : Parsed (DecodedGrant σ)} {bounds' : Bounds} :
    verifyGrantParsed M grant expected.trustedIssuer (expected.grantExpected bounds') bounds =
      true ↔
      GrantMatches M grant expected bounds := by
  simp only [verifyGrantParsed, Bool.and_eq_true, decide_eq_true_eq, FixedBytes.equal_iff,
    List.any_eq_true, exists_eq_right]
  constructor
  · rintro ⟨⟨⟨⟨⟨⟨⟨keyId, issuer⟩, audience⟩, issued⟩, begun⟩, unexpired⟩, signature⟩, fingerprint⟩
    exact ⟨keyId, issuer, audience, issued, begun, unexpired, signature, fingerprint⟩
  · intro h
    exact ⟨⟨⟨⟨⟨⟨⟨h.keyId, h.issuer⟩, h.audience⟩, h.issued⟩, h.begun⟩, h.unexpired⟩, h.signature⟩,
      h.fingerprint⟩

/-- A proof for the grant and for the expected request, signed by the holder. -/
structure ProofMatches (M : Major σ) (otp : Otp) (proof : Parsed DecodedProof) (compact : Bytes)
    (grant : Parsed (DecodedGrant σ)) (expected : ExpectedRequest) (bounds : Bounds) : Prop where
  holder : proof.decoded.holderThumbprint = grant.decoded.holderThumbprint
  ath : CompactJws.hash otp compact bounds = some proof.decoded.grantHash
  method : proof.decoded.method = expected.method
  targetUri : proof.decoded.targetUri = expected.targetUri
  invocationId : proof.decoded.invocationId = expected.invocationId
  operation : proof.decoded.operation = expected.operation
  request : M.digestRaw expected.operation expected.castArguments bounds =
    some proof.decoded.requestHash
  notEarly : proof.decoded.issuedAt ≥
    expected.evaluationTime - expected.proofMaxAge - expected.clockSkew
  notLate : proof.decoded.issuedAt ≤ expected.evaluationTime + expected.clockSkew
  nonce : nonceMatches proof.decoded.nonce expected.nonce = true
  selected : ∃ operation, uniqueOperation grant.decoded.operations expected.operation =
    some operation ∧ matchAll M operation.selectors expected.castArguments bounds = true
  signature : M.verifySignature proof.message proof.signature proof.decoded.holderPublicKey = true

theorem verifyProofParsed_iff {proof : Parsed DecodedProof} {compact : Bytes}
    {grant : Parsed (DecodedGrant σ)} :
    verifyProofParsed M otp proof compact grant expected bounds = true ↔
      ProofMatches M otp proof compact grant expected bounds := by
  simp only [verifyProofParsed, Bool.and_eq_true, decide_eq_true_eq, FixedBytes.equal_iff,
    secureEqual_iff, Option.any_eq_true]
  constructor
  · rintro ⟨⟨⟨⟨⟨⟨⟨⟨⟨⟨⟨holder, ath⟩, method⟩, uri⟩, invocation⟩, operation⟩, request⟩, early⟩, late⟩,
      nonce⟩, selected⟩, signature⟩
    exact ⟨holder, ath, method, uri, invocation, operation, request, early, late, nonce, selected,
      signature⟩
  · intro h
    exact ⟨⟨⟨⟨⟨⟨⟨⟨⟨⟨⟨h.holder, h.ath⟩, h.method⟩, h.targetUri⟩, h.invocationId⟩, h.operation⟩,
      h.request⟩, h.notEarly⟩, h.notLate⟩, h.nonce⟩, h.selected⟩, h.signature⟩

/-- An envelope is accepted exactly when its grant and its proof are read and match
a valid request. -/
theorem checkEnvelopeFor_eq_some {credentials : Credentials} {profile : Profile}
    {facts : EnvelopeFacts} (coerced : Bounds.coerce expected.bounds = some bounds) :
    checkEnvelopeFor M otp credentials expected profile = some facts ↔
      validateExpectedRequest M otp expected bounds profile = true ∧
      ∃ grant proof, parseGrant M otp credentials.grant bounds = some grant ∧
        GrantMatches M grant expected bounds ∧
        parseProof M otp profile credentials.proof bounds = some proof ∧
        ProofMatches M otp proof credentials.grant grant expected bounds ∧
        envelopeFacts M grant proof expected bounds = some facts := by
  simp only [checkEnvelopeFor, coerced, Option.bind_eq_bind, Option.bind_some,
    Option.bind_eq_some_iff, guard_eq_some, exists_const, verifyGrantParsed_iff,
    verifyProofParsed_iff]
  constructor
  · rintro ⟨valid, grant, readGrant, grantMatches, proof, readProof, proofMatches, found⟩
    exact ⟨valid, grant, proof, readGrant, grantMatches, readProof, proofMatches, found⟩
  · rintro ⟨valid, grant, proof, readGrant, grantMatches, readProof, proofMatches, found⟩
    exact ⟨valid, grant, readGrant, grantMatches, proof, readProof, proofMatches, found⟩

end BoundedAuthority.Runtime
