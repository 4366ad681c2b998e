import BoundedAuthority.V1.BoundaryAnchorCodec

/-!
# Key transitions

`lib/bounded_authority_protocol/v1/key_transition_codec.ex`.
-/

namespace BoundedAuthority.V1

open Wire JsonValue

/-- The map `parse/2` returns. -/
structure ParsedTransition where
  transitionId : Bytes
  chainId : Bytes
  effectiveAt : Int
  currentKeyId : Bytes
  currentKeyFingerprint : Bytes
  nextKeyId : Bytes
  nextKeyFingerprint : Bytes
  message : Bytes
  signature : Bytes
deriving DecidableEq

/-- `%KeyTransitionFacts{}` -/
structure KeyTransitionFacts where
  version : Nat
  transitionId : Bytes
  effectiveAt : Int
  chainId : Bytes
  currentKeyFingerprint : Bytes
  nextKeyFingerprint : Bytes
  verification : Verification
  trust : Trust
deriving DecidableEq

namespace KeyTransitionCodec

/-- `@payload_keys` -/
def payloadKeys : List Bytes :=
  [ascii "chain_id", ascii "effective_at", ascii "from_key_fingerprint", ascii "to_key_fingerprint",
    ascii "to_key_id", ascii "transition_id", ascii "v"]

variable (otp : Otp)

/-- `validate_transition_fields/8` -/
def validateTransitionFields (parsed : ParsedTransition) (bounds : Bounds) : Bool :=
  validIdentifier otp parsed.transitionId bounds && validIdentifier otp parsed.chainId bounds &&
    validTime parsed.effectiveAt bounds && validKeyId parsed.currentKeyId bounds &&
    validKeyId parsed.nextKeyId bounds &&
    ContextValidation.distinctFingerprints parsed.currentKeyFingerprint parsed.nextKeyFingerprint
      bounds

/-- `parse/2` -/
def parse (compact : Bytes) (bounds : Bounds) : Option ParsedTransition := do
  let opened ← openSigned (ascii "ba+key-transition") payloadKeys compact bounds
  let transitionId ← ClosedMap.string opened.payload (ascii "transition_id")
  let chainId ← ClosedMap.string opened.payload (ascii "chain_id")
  let effectiveAt ← ClosedMap.integer opened.payload (ascii "effective_at")
  let currentKeyFingerprint ←
    ClosedMap.digest opened.payload (ascii "from_key_fingerprint") bounds
  let nextKeyFingerprint ← ClosedMap.digest opened.payload (ascii "to_key_fingerprint") bounds
  let nextKeyId ← ClosedMap.string opened.payload (ascii "to_key_id")
  let parsed : ParsedTransition :=
    ⟨transitionId, chainId, effectiveAt, opened.keyId, currentKeyFingerprint, nextKeyId,
      nextKeyFingerprint, opened.message, opened.signature⟩
  guard (validateTransitionFields otp parsed bounds)
  some parsed

/-- `verify/4` -/
def verify (compact : Bytes) (currentKey nextKey : HistoricalPublicKey)
    (expected : ExpectedKeyTransition) : Option KeyTransitionFacts := do
  let bounds ← Bounds.coerce expected.bounds
  guard (ContextValidation.historicalKey currentKey bounds)
  guard (ContextValidation.historicalKey nextKey bounds)
  guard (ContextValidation.expectedTransition otp expected bounds)
  let parsed ← parse otp compact bounds
  let currentFingerprint ← Jwk.publicKeyThumbprintRaw otp currentKey.publicKey bounds
  let nextFingerprint ← Jwk.publicKeyThumbprintRaw otp nextKey.publicKey bounds
  guard (parsed.currentKeyId = currentKey.keyId)
  guard (parsed.currentKeyId = expected.currentKeyId)
  guard (parsed.nextKeyId = nextKey.keyId)
  guard (parsed.nextKeyId = expected.nextKeyId)
  guard (parsed.transitionId = expected.transitionId)
  guard (parsed.chainId = expected.chainId)
  guard (parsed.effectiveAt = expected.effectiveAt)
  guard (FixedBytes.equal parsed.currentKeyFingerprint currentFingerprint)
  guard (FixedBytes.equal parsed.currentKeyFingerprint expected.currentKeyFingerprint)
  guard (FixedBytes.equal parsed.nextKeyFingerprint nextFingerprint)
  guard (FixedBytes.equal parsed.nextKeyFingerprint expected.nextKeyFingerprint)
  guard (insideWindow parsed.effectiveAt currentKey)
  guard (insideWindow parsed.effectiveAt nextKey)
  guard (Ed25519.verifyStrict otp parsed.message parsed.signature currentKey.publicKey)
  some
    { version := 1
      transitionId := parsed.transitionId
      effectiveAt := parsed.effectiveAt
      chainId := parsed.chainId
      currentKeyFingerprint := currentFingerprint
      nextKeyFingerprint := nextFingerprint
      verification := .authenticatedTransition
      trust := .notEvaluated }

variable {otp} {bounds : Bounds} {compact : Bytes} {current next : HistoricalPublicKey}
  {expected : ExpectedKeyTransition} {parsed : ParsedTransition} {facts : KeyTransitionFacts}

theorem length_of_parse (h : parse otp compact bounds = some parsed) :
    0 < compact.length ∧ compact.length ≤ bounds .anchorBytes := by
  simp only [parse, Option.bind_eq_bind, Option.bind_eq_some_iff] at h
  obtain ⟨_, opened, -⟩ := h
  exact length_of_openSigned opened

/-- A transition that is the expected one. -/
structure Matches (parsed : ParsedTransition) (expected : ExpectedKeyTransition) : Prop where
  transitionId : parsed.transitionId = expected.transitionId
  chainId : parsed.chainId = expected.chainId
  effectiveAt : parsed.effectiveAt = expected.effectiveAt
  currentKeyId : parsed.currentKeyId = expected.currentKeyId
  currentKeyFingerprint : parsed.currentKeyFingerprint = expected.currentKeyFingerprint
  nextKeyId : parsed.nextKeyId = expected.nextKeyId
  nextKeyFingerprint : parsed.nextKeyFingerprint = expected.nextKeyFingerprint

/-- A transition from a key to the next, signed by the first and inside both windows. -/
structure Between (otp : Otp) (parsed : ParsedTransition) (current next : HistoricalPublicKey) :
    Prop where
  currentKeyId : parsed.currentKeyId = current.keyId
  nextKeyId : parsed.nextKeyId = next.keyId
  currentFingerprint : parsed.currentKeyFingerprint = Jwk.thumbprintOf otp current.publicKey
  nextFingerprint : parsed.nextKeyFingerprint = Jwk.thumbprintOf otp next.publicKey
  currentWindow : insideWindow parsed.effectiveAt current = true
  nextWindow : insideWindow parsed.effectiveAt next = true
  signature : Ed25519.verifyStrict otp parsed.message parsed.signature current.publicKey = true

/-- The facts of a transition. -/
def factsOf (parsed : ParsedTransition) : KeyTransitionFacts where
  version := 1
  transitionId := parsed.transitionId
  effectiveAt := parsed.effectiveAt
  chainId := parsed.chainId
  currentKeyFingerprint := parsed.currentKeyFingerprint
  nextKeyFingerprint := parsed.nextKeyFingerprint
  verification := .authenticatedTransition
  trust := .notEvaluated

/-- What the verifier checks. -/
theorem verify_spec (coerced : Bounds.coerce expected.bounds = some bounds) :
    verify otp compact current next expected = some facts ↔
      ContextValidation.historicalKey current bounds = true ∧
      ContextValidation.historicalKey next bounds = true ∧
      ContextValidation.expectedTransition otp expected bounds = true ∧
      ∃ parsed, parse otp compact bounds = some parsed ∧
        Jwk.publicKeyThumbprintRaw otp current.publicKey bounds =
          some (Jwk.thumbprintOf otp current.publicKey) ∧
        Jwk.publicKeyThumbprintRaw otp next.publicKey bounds =
          some (Jwk.thumbprintOf otp next.publicKey) ∧
        Matches parsed expected ∧ Between otp parsed current next ∧ facts = factsOf parsed := by
  simp only [verify, coerced, Option.bind_eq_bind, Option.bind_some, Option.bind_eq_some_iff,
    guard_eq_some, exists_const, Option.some.injEq, FixedBytes.equal_iff]
  constructor
  · rintro ⟨validCurrent, validNext, context, parsed, found, digest, thumbprint, digest',
      thumbprint', currentKeyId, currentKeyId', nextKeyId, nextKeyId', transitionId, chainId,
      effectiveAt, fromKey, fromKey', toKey, toKey', currentWindow, nextWindow, signature, rfl⟩
    obtain ⟨-, rfl⟩ := Jwk.publicKeyThumbprintRaw_spec thumbprint
    obtain ⟨-, rfl⟩ := Jwk.publicKeyThumbprintRaw_spec thumbprint'
    refine ⟨validCurrent, validNext, context, parsed, found, thumbprint, thumbprint',
      ⟨transitionId, chainId, effectiveAt, currentKeyId', fromKey', nextKeyId', toKey'⟩,
      ⟨currentKeyId, nextKeyId, fromKey, toKey, currentWindow, nextWindow, signature⟩, ?_⟩
    rw [← fromKey, ← toKey]
    rfl
  · rintro ⟨validCurrent, validNext, context, parsed, found, thumbprint, thumbprint', matched,
      between, rfl⟩
    refine ⟨validCurrent, validNext, context, parsed, found, _, thumbprint, _, thumbprint',
      between.currentKeyId, matched.currentKeyId, between.nextKeyId, matched.nextKeyId,
      matched.transitionId, matched.chainId, matched.effectiveAt, between.currentFingerprint,
      matched.currentKeyFingerprint, between.nextFingerprint, matched.nextKeyFingerprint,
      between.currentWindow, between.nextWindow, between.signature, ?_⟩
    rw [← between.currentFingerprint, ← between.nextFingerprint]
    rfl

end KeyTransitionCodec

end BoundedAuthority.V1
