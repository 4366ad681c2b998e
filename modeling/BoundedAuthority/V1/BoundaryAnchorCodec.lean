import BoundedAuthority.V1.CompactJws
import BoundedAuthority.V1.ContextValidation
import BoundedAuthority.V1.Jwk

/-!
# Boundary anchors

`lib/bounded_authority_protocol/v1/boundary_anchor_codec.ex`.

An anchor and a key transition are signed the same way, and the two codecs hold the
same code for it.  Here it is `openSigned`, with the type in the header and the
names of the payload as parameters.  A check that only fails is placed where the
value it needs is at hand; every failure is the same.
-/

namespace BoundedAuthority.V1

open Wire JsonValue

/-! ## Signed objects of the archive -/

/-- What is left of a signed object when its frame is checked. -/
structure Opened where
  keyId : Bytes
  payload : ClosedMap
  message : Bytes
  signature : Bytes

/-- `@header_keys` -/
def signedHeaderKeys : List Bytes := [ascii "alg", ascii "kid", ascii "typ"]

/-- `Json.decode/2` of a canonical object with exactly the given names, and
`Jcs.encode/2` of what was decoded. -/
def openObject (bytes : Bytes) (keys : List Bytes) (bounds : Bounds) : Option ClosedMap := do
  let .object members ← Json.decode bytes bounds | none
  let map ← ClosedMap.closedMap members keys
  let canonical ← Jcs.encode (.object members) bounds
  guard (bytes = canonical)
  some map

/-- What is opened is the decoded object. -/
theorem openObject_members {bytes : Bytes} {keys : List Bytes} {bounds : Bounds} {map : ClosedMap}
    (h : openObject bytes keys bounds = some map) :
    ∃ members, Json.decode bytes bounds = some (.object members) ∧ map = members.reverse := by
  simp only [openObject, Option.bind_eq_bind, Option.bind_eq_some_iff] at h
  obtain ⟨value, decoded, h⟩ := h
  cases value with
  | object members =>
      simp only [ClosedMap.closedMap, Option.bind_eq_bind, Option.bind_eq_some_iff, guard_eq_some,
        exists_const, Option.some.injEq] at h
      obtain ⟨_, ⟨-, rfl⟩, _, -, -, rfl⟩ := h
      exact ⟨members, decoded, rfl⟩
  | _ => cases h

/-- The part of `parse/2` the codecs of anchors and transitions share. -/
def openSigned (typ : Bytes) (payloadKeys : List Bytes) (compact : Bytes) (bounds : Bounds) :
    Option Opened := do
  guard (0 < compact.length ∧ compact.length ≤ bounds .anchorBytes)
  let segments ← CompactJws.scan compact bounds
  let protectedBytes ← Base64Url.decode segments.protectedHeader bounds
  let payloadBytes ← Base64Url.decode segments.payload bounds
  let signature ← Base64Url.decode segments.signature bounds
  guard (signature.length = bounds .signatureBytes)
  let header ← openObject protectedBytes signedHeaderKeys bounds
  guard (ClosedMap.string header (ascii "alg") = some (ascii "EdDSA"))
  guard (ClosedMap.string header (ascii "typ") = some typ)
  let keyId ← ClosedMap.string header (ascii "kid")
  guard (validKeyId keyId bounds)
  let payload ← openObject payloadBytes payloadKeys bounds
  guard (ClosedMap.integer payload (ascii "v") = some 1)
  some ⟨keyId, payload, segments.message, signature⟩

/-- `{:string, text} <- map[key]`, and the bytes it encodes. -/
def ClosedMap.digest (map : ClosedMap) (key : Bytes) (bounds : Bounds) : Option Bytes := do
  let encoded ← ClosedMap.string map key
  Base64Url.decode encoded bounds

/-- A signed object is not empty and within the bound of an anchor. -/
theorem length_of_openSigned {typ : Bytes} {keys : List Bytes} {compact : Bytes} {bounds : Bounds}
    {opened : Opened} (h : openSigned typ keys compact bounds = some opened) :
    0 < compact.length ∧ compact.length ≤ bounds .anchorBytes := by
  simp only [openSigned, Option.bind_eq_bind, guard_bind_eq_some] at h
  exact h.1

/-! ## Anchors -/

/-- The map `parse/2` returns. -/
structure ParsedAnchor where
  anchorId : Bytes
  anchoredAt : Int
  chainId : Bytes
  sequence : Int
  chainHash : Bytes
  keyId : Bytes
  keyFingerprint : Bytes
  message : Bytes
  signature : Bytes
deriving DecidableEq

/-- `%AnchorFacts{}` -/
structure AnchorFacts where
  version : Nat
  anchorId : Bytes
  anchoredAt : Int
  chainId : Bytes
  sequence : Int
  chainHash : Bytes
  keyFingerprint : Bytes
  verification : Verification
  trust : Trust
deriving DecidableEq

namespace BoundaryAnchorCodec

/-- `@payload_keys` -/
def payloadKeys : List Bytes :=
  [ascii "anchor_id", ascii "anchored_at", ascii "chain_hash", ascii "chain_id",
    ascii "key_fingerprint", ascii "sequence", ascii "v"]

variable (otp : Otp)

/-- `validate_anchor_fields/3` -/
def validateAnchorFields (parsed : ParsedAnchor) (bounds : Bounds) : Bool :=
  validIdentifier otp parsed.anchorId bounds && validTime parsed.anchoredAt bounds &&
    validIdentifier otp parsed.chainId bounds && validKeyId parsed.keyId bounds &&
    validAnchorSequence parsed.sequence bounds && fixedDigest parsed.chainHash bounds &&
    fixedDigest parsed.keyFingerprint bounds &&
    (parsed.sequence ≠ 0 || FixedBytes.equal parsed.chainHash zeroHash)

/-- `parse/2` -/
def parse (compact : Bytes) (bounds : Bounds) : Option ParsedAnchor := do
  let opened ← openSigned (ascii "ba+chain-anchor") payloadKeys compact bounds
  let anchorId ← ClosedMap.string opened.payload (ascii "anchor_id")
  let anchoredAt ← ClosedMap.integer opened.payload (ascii "anchored_at")
  let chainId ← ClosedMap.string opened.payload (ascii "chain_id")
  let sequence ← ClosedMap.integer opened.payload (ascii "sequence")
  let chainHash ← ClosedMap.digest opened.payload (ascii "chain_hash") bounds
  let keyFingerprint ← ClosedMap.digest opened.payload (ascii "key_fingerprint") bounds
  let parsed : ParsedAnchor :=
    ⟨anchorId, anchoredAt, chainId, sequence, chainHash, opened.keyId, keyFingerprint,
      opened.message, opened.signature⟩
  guard (validateAnchorFields otp parsed bounds)
  some parsed

/-- `verify/3` -/
def verify (compact : Bytes) (key : HistoricalPublicKey) (expected : ExpectedAnchor) :
    Option AnchorFacts := do
  let bounds ← Bounds.coerce expected.bounds
  guard (ContextValidation.historicalKey key bounds)
  guard (ContextValidation.expectedAnchor otp expected bounds)
  let parsed ← parse otp compact bounds
  let fingerprint ← Jwk.publicKeyThumbprintRaw otp key.publicKey bounds
  guard (parsed.keyId = key.keyId)
  guard (parsed.keyId = expected.keyId)
  guard (parsed.anchorId = expected.anchorId)
  guard (parsed.anchoredAt = expected.anchoredAt)
  guard (parsed.chainId = expected.chainId)
  guard (parsed.sequence = expected.sequence)
  guard (FixedBytes.equal parsed.chainHash expected.chainHash)
  guard (FixedBytes.equal parsed.keyFingerprint fingerprint)
  guard (FixedBytes.equal parsed.keyFingerprint expected.keyFingerprint)
  guard (insideWindow parsed.anchoredAt key)
  guard (Ed25519.verifyStrict otp parsed.message parsed.signature key.publicKey)
  some
    { version := 1
      anchorId := parsed.anchorId
      anchoredAt := parsed.anchoredAt
      chainId := parsed.chainId
      sequence := parsed.sequence
      chainHash := parsed.chainHash
      keyFingerprint := fingerprint
      verification := .signatureAndWindow
      trust := .notEvaluated }

variable {otp} {bounds : Bounds} {compact : Bytes} {key : HistoricalPublicKey}
  {expected : ExpectedAnchor} {parsed : ParsedAnchor} {facts : AnchorFacts}

theorem length_of_parse (h : parse otp compact bounds = some parsed) :
    0 < compact.length ∧ compact.length ≤ bounds .anchorBytes := by
  simp only [parse, Option.bind_eq_bind, Option.bind_eq_some_iff] at h
  obtain ⟨_, opened, -⟩ := h
  exact length_of_openSigned opened

/-- An anchor that is the expected one. -/
structure Matches (parsed : ParsedAnchor) (expected : ExpectedAnchor) : Prop where
  anchorId : parsed.anchorId = expected.anchorId
  anchoredAt : parsed.anchoredAt = expected.anchoredAt
  chainId : parsed.chainId = expected.chainId
  sequence : parsed.sequence = expected.sequence
  keyId : parsed.keyId = expected.keyId
  chainHash : parsed.chainHash = expected.chainHash
  keyFingerprint : parsed.keyFingerprint = expected.keyFingerprint

/-- An anchor that verifies under a key inside its window. -/
structure VerifiesUnder (otp : Otp) (parsed : ParsedAnchor) (key : HistoricalPublicKey) : Prop where
  keyId : parsed.keyId = key.keyId
  fingerprint : parsed.keyFingerprint = Jwk.thumbprintOf otp key.publicKey
  window : insideWindow parsed.anchoredAt key = true
  signature : Ed25519.verifyStrict otp parsed.message parsed.signature key.publicKey = true

/-- The facts of an anchor. -/
def factsOf (parsed : ParsedAnchor) : AnchorFacts where
  version := 1
  anchorId := parsed.anchorId
  anchoredAt := parsed.anchoredAt
  chainId := parsed.chainId
  sequence := parsed.sequence
  chainHash := parsed.chainHash
  keyFingerprint := parsed.keyFingerprint
  verification := .signatureAndWindow
  trust := .notEvaluated

/-- What the verifier checks. -/
theorem verify_spec (coerced : Bounds.coerce expected.bounds = some bounds) :
    verify otp compact key expected = some facts ↔
      ContextValidation.historicalKey key bounds = true ∧
      ContextValidation.expectedAnchor otp expected bounds = true ∧
      ∃ parsed, parse otp compact bounds = some parsed ∧
        Jwk.publicKeyThumbprintRaw otp key.publicKey bounds =
          some (Jwk.thumbprintOf otp key.publicKey) ∧
        Matches parsed expected ∧ VerifiesUnder otp parsed key ∧ facts = factsOf parsed := by
  simp only [verify, coerced, Option.bind_eq_bind, Option.bind_some, Option.bind_eq_some_iff,
    guard_eq_some, exists_const, Option.some.injEq, FixedBytes.equal_iff]
  constructor
  · rintro ⟨validKey, context, parsed, found, digest, thumbprint, keyId, keyId', anchorId,
      anchoredAt, chainId, sequence, chainHash, fingerprint, fingerprint', window, signature, rfl⟩
    obtain ⟨-, rfl⟩ := Jwk.publicKeyThumbprintRaw_spec thumbprint
    refine ⟨validKey, context, parsed, found, thumbprint,
      ⟨anchorId, anchoredAt, chainId, sequence, keyId', chainHash, fingerprint'⟩,
      ⟨keyId, fingerprint, window, signature⟩, ?_⟩
    rw [← fingerprint]
    rfl
  · rintro ⟨validKey, context, parsed, found, thumbprint, matched, under, rfl⟩
    refine ⟨validKey, context, parsed, found, _, thumbprint, under.keyId, matched.keyId,
      matched.anchorId, matched.anchoredAt, matched.chainId, matched.sequence, matched.chainHash,
      under.fingerprint, matched.keyFingerprint, under.window, under.signature, ?_⟩
    rw [← under.fingerprint]
    rfl

end BoundaryAnchorCodec

end BoundedAuthority.V1
