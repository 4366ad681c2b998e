import BoundedAuthority.V1.SignedObject

/-!
# Content assertions

`lib/bounded_authority_protocol/content_assertion/v1/codec.ex`; an assertion is framed as an
anchor is.  The maps of the source all hold the claims, here a structure they extend.
-/

namespace BoundedAuthority.ContentAssertion

open Wire JsonValue V1

/-- The claims of an assertion. -/
structure Claims where
  jti : Bytes
  iss : Bytes
  aud : Bytes
  sub : Bytes
  profile : Bytes
  profileDigest : Bytes
  contentDigest : Bytes
  prev : Bytes
  gen : Int
  iat : Int
  nbf : Int
  exp : Int
deriving DecidableEq

/-- `%ContentAssertion{}` -/
structure Assertion extends Claims where
  attestorKeyId : Bytes
deriving DecidableEq

/-- The map `parse/2` returns. -/
structure ParsedAssertion extends Claims where
  attestorKeyId : Bytes
  message : Bytes
  signature : Bytes
deriving DecidableEq

/-- `%DecodedContentAssertion{}` -/
structure DecodedContentAssertion extends Claims where
  attestorKeyId : Bytes
  version : Nat
  verification : Trust
deriving DecidableEq

/-- `%ExpectedContentAssertion{}` -/
structure ExpectedContentAssertion where
  attestor : HistoricalPublicKey
  issuer : Bytes
  audience : Bytes
  subject : Bytes
  profile : Bytes
  profileDigest : Bytes
  contentDigest : Bytes
  now : Int
  bounds : Limits
deriving DecidableEq

/-- `%ContentAssertionFacts{}` -/
structure ContentAssertionFacts extends Claims where
  version : Nat
  attestorKeyId : Bytes
  attestorKeyFingerprint : Bytes
  digest : Bytes
  verification : Verification
  trust : Trust
deriving DecidableEq

namespace Codec

/-- `@payload_keys` -/
def payloadKeys : List Bytes :=
  [ascii "aud", ascii "content_digest", ascii "exp", ascii "gen", ascii "iat", ascii "iss",
    ascii "jti", ascii "nbf", ascii "prev", ascii "profile", ascii "profile_digest", ascii "sub",
    ascii "v"]

/-- `decode_claims/2` -/
def decodeClaims (claims : ClosedMap) (bounds : Bounds) : Option Claims := do
  let jti ← ClosedMap.string claims (ascii "jti")
  let iss ← ClosedMap.string claims (ascii "iss")
  let aud ← ClosedMap.string claims (ascii "aud")
  let sub ← ClosedMap.string claims (ascii "sub")
  let profile ← ClosedMap.string claims (ascii "profile")
  let profileDigest ← ClosedMap.digest claims (ascii "profile_digest") bounds
  let contentDigest ← ClosedMap.digest claims (ascii "content_digest") bounds
  let prev ← ClosedMap.digest claims (ascii "prev") bounds
  let gen ← ClosedMap.integer claims (ascii "gen")
  let iat ← ClosedMap.integer claims (ascii "iat")
  let nbf ← ClosedMap.integer claims (ascii "nbf")
  let exp ← ClosedMap.integer claims (ascii "exp")
  some ⟨jti, iss, aud, sub, profile, profileDigest, contentDigest, prev, gen, iat, nbf, exp⟩

variable (otp : Otp)

/-- `valid_claims?/2` -/
def validClaims (attestorKeyId : Bytes) (value : Claims) (bounds : Bounds) : Bool :=
  validKeyId attestorKeyId bounds &&
    ([value.jti, value.iss, value.aud, value.sub, value.profile].all fun text =>
      validIdentifier otp text bounds) &&
    ([value.profileDigest, value.contentDigest, value.prev].all fun digest =>
      digest.length = 32) &&
    ([value.gen, value.iat, value.nbf, value.exp].all fun number => validTime number bounds) &&
    1 ≤ value.gen && (value.gen == 1) == (value.prev == zeroHash) &&
    value.iat ≤ value.nbf && value.nbf < value.exp

/-- `parse/2` -/
def parse (compact : Bytes) (bounds : Bounds) : Option ParsedAssertion := do
  let opened ← openSigned (ascii "ba+content-assertion") payloadKeys compact bounds
  let claims ← decodeClaims opened.payload bounds
  guard (validClaims otp opened.keyId claims bounds)
  some
    { claims with
      attestorKeyId := opened.keyId
      message := opened.message
      signature := opened.signature }

/-- `decode/2` -/
def decode (compact : Bytes) (limits : Limits) : Option DecodedContentAssertion := do
  let bounds ← Bounds.coerce limits
  let parsed ← parse otp compact bounds
  some
    { parsed.toClaims with
      attestorKeyId := parsed.attestorKeyId
      version := 1
      verification := .notEvaluated }

/-! ## Verifying -/

/-- `digest?/1` -/
def validDigest (value : Bytes) : Bool := value.length = 32

/-- `valid_expected?/2` -/
def validExpected (expected : ExpectedContentAssertion) (bounds : Bounds) : Bool :=
  ([expected.issuer, expected.audience, expected.subject, expected.profile].all fun text =>
      validIdentifier otp text bounds) &&
    validDigest expected.profileDigest && validDigest expected.contentDigest &&
    validTime expected.now bounds

/-- `expected_matches?/2` -/
def expectedMatches (parsed : ParsedAssertion) (expected : ExpectedContentAssertion) : Bool :=
  parsed.attestorKeyId == expected.attestor.keyId && parsed.iss == expected.issuer &&
    parsed.aud == expected.audience && parsed.sub == expected.subject &&
    parsed.profile == expected.profile &&
    FixedBytes.equal parsed.profileDigest expected.profileDigest &&
    FixedBytes.equal parsed.contentDigest expected.contentDigest

/-- `contained?/2` -/
def contained (parsed : ParsedAssertion) (key : HistoricalPublicKey) : Bool :=
  key.validFrom ≤ parsed.iat && key.validFrom ≤ parsed.nbf &&
    match key.validBefore with
    | none => true
    | some validBefore => parsed.exp ≤ validBefore

/-- `verify/2` -/
def verify (compact : Bytes) (expected : ExpectedContentAssertion) :
    Option ContentAssertionFacts := do
  let bounds ← Bounds.coerce expected.bounds
  guard (validExpected otp expected bounds)
  guard (ContextValidation.historicalKey expected.attestor bounds)
  let parsed ← parse otp compact bounds
  guard (expectedMatches parsed expected)
  guard (contained parsed expected.attestor)
  guard (parsed.nbf ≤ expected.now ∧ expected.now < parsed.exp)
  guard (Ed25519.verifyStrict otp parsed.message parsed.signature expected.attestor.publicKey)
  let fingerprint ← Jwk.publicKeyThumbprintRaw otp expected.attestor.publicKey bounds
  some
    { parsed.toClaims with
      version := 1
      attestorKeyId := parsed.attestorKeyId
      attestorKeyFingerprint := fingerprint
      digest := otp.sha256 compact
      verification := .signatureAndWindow
      trust := .notEvaluated }

/-- `valid_facts?/2` -/
def validFacts (facts : ContentAssertionFacts) (bounds : Bounds) : Bool :=
  facts.version == 1 && facts.verification == .signatureAndWindow && facts.trust == .notEvaluated &&
    validDigest facts.digest && validDigest facts.attestorKeyFingerprint &&
    validClaims otp facts.attestorKeyId facts.toClaims bounds

/-- `verify_successor/3` -/
def verifySuccessor (previous next : ContentAssertionFacts) (limits : Limits) : Option Unit := do
  let bounds ← Bounds.coerce limits
  guard (validFacts otp previous bounds ∧ validFacts otp next bounds)
  guard (previous.iss = next.iss ∧ previous.aud = next.aud ∧ previous.sub = next.sub ∧
    previous.profile = next.profile)
  guard (FixedBytes.equal previous.profileDigest next.profileDigest)
  guard (next.gen = previous.gen + 1)
  guard (FixedBytes.equal next.prev previous.digest)
  guard (previous.iat ≤ next.iat)
  guard (next.jti ≠ previous.jti)

/-! ## Writing -/

/-- `payload/1` -/
def payload (value : Claims) : List (Bytes × JsonValue) :=
  [(ascii "v", .integer 1), (ascii "jti", .string value.jti), (ascii "iss", .string value.iss),
    (ascii "aud", .string value.aud), (ascii "sub", .string value.sub),
    (ascii "profile", .string value.profile),
    (ascii "profile_digest", .string (Base64.encode value.profileDigest)),
    (ascii "content_digest", .string (Base64.encode value.contentDigest)),
    (ascii "prev", .string (Base64.encode value.prev)), (ascii "gen", .integer value.gen),
    (ascii "iat", .integer value.iat), (ascii "nbf", .integer value.nbf),
    (ascii "exp", .integer value.exp)]

/-- `signing_input/2` -/
def signingInput (value : Assertion) (limits : Limits) : Option SigningInput := do
  let bounds ← Bounds.coerce limits
  guard (validClaims otp value.attestorKeyId value.toClaims bounds)
  let header := signedHeader (ascii "ba+content-assertion") value.attestorKeyId
  writeSigned .contentAssertion header (payload value.toClaims) bounds

/-- `assemble/3` -/
def assemble : SigningInput → Bytes → Limits → Option Bytes :=
  assembleSigned .contentAssertion (parse otp)

/-- What is decoded of an assertion. -/
def decoded (value : Assertion) : DecodedContentAssertion where
  toClaims := value.toClaims
  attestorKeyId := value.attestorKeyId
  version := 1
  verification := .notEvaluated

end Codec

end BoundedAuthority.ContentAssertion
