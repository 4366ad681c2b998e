import BoundedAuthority.Runtime.Decoder
import BoundedAuthority.V1.BoundaryAnchorCodec
import BoundedAuthority.V1.KeyTransitionCodec

/-!
# Assembled serializations of the later majors

`boundary_anchor_codec.ex`, `key_transition_codec.ex` and the assembling part of
`runtime.ex` under `v2` and `v3`.  The codecs of the archive are the ones of the first
major with the algorithm and the version of another, and what an assembler accepts in
the end is what the parsers of its major read.
-/

namespace BoundedAuthority.Runtime

open Wire JsonValue V1

variable {σ : Type} (M : Major σ) (otp : Otp)

/-- The part of `parse/2` the codecs of anchors and transitions share. -/
def openSigned (typ : Bytes) (payloadKeys : List Bytes) (compact : Bytes) (bounds : Bounds) :
    Option V1.Opened := do
  guard (0 < compact.length ∧ compact.length ≤ bounds .anchorBytes)
  let segments ← CompactJws.scan compact bounds
  let protectedBytes ← Base64Url.decode segments.protectedHeader bounds
  let payloadBytes ← Base64Url.decode segments.payload bounds
  let signature ← Base64Url.decode segments.signature bounds
  guard (signature.length = bounds .signatureBytes)
  let header ← openObject protectedBytes signedHeaderKeys bounds
  guard (ClosedMap.string header (ascii "alg") = some M.alg)
  guard (ClosedMap.string header (ascii "typ") = some typ)
  let keyId ← ClosedMap.string header (ascii "kid")
  guard (validKeyId keyId bounds)
  let payload ← openObject payloadBytes payloadKeys bounds
  guard (ClosedMap.integer payload (ascii "v") = some (M.version : Int))
  some ⟨keyId, payload, segments.message, signature⟩

/-- `parse/2` of the anchor codec -/
def parseAnchor (compact : Bytes) (bounds : Bounds) : Option ParsedAnchor := do
  let opened ← openSigned M (ascii "ba+chain-anchor") BoundaryAnchorCodec.payloadKeys compact bounds
  let anchorId ← ClosedMap.string opened.payload (ascii "anchor_id")
  let anchoredAt ← ClosedMap.integer opened.payload (ascii "anchored_at")
  let chainId ← ClosedMap.string opened.payload (ascii "chain_id")
  let sequence ← ClosedMap.integer opened.payload (ascii "sequence")
  let chainHash ← ClosedMap.digest opened.payload (ascii "chain_hash") bounds
  let keyFingerprint ← ClosedMap.digest opened.payload (ascii "key_fingerprint") bounds
  let parsed : ParsedAnchor :=
    ⟨anchorId, anchoredAt, chainId, sequence, chainHash, opened.keyId, keyFingerprint,
      opened.message, opened.signature⟩
  guard (BoundaryAnchorCodec.validateAnchorFields otp parsed bounds)
  some parsed

/-- `parse/2` of the transition codec -/
def parseTransition (compact : Bytes) (bounds : Bounds) : Option ParsedTransition := do
  let opened ← openSigned M (ascii "ba+key-transition") KeyTransitionCodec.payloadKeys compact
    bounds
  let transitionId ← ClosedMap.string opened.payload (ascii "transition_id")
  let chainId ← ClosedMap.string opened.payload (ascii "chain_id")
  let effectiveAt ← ClosedMap.integer opened.payload (ascii "effective_at")
  let currentKeyFingerprint ←
    ClosedMap.digest opened.payload (ascii "from_key_fingerprint") bounds
  let nextKeyFingerprint ← ClosedMap.digest opened.payload (ascii "to_key_fingerprint") bounds
  let nextKeyId ← ClosedMap.string opened.payload (ascii "to_key_id")
  let parsed : ParsedTransition :=
    ⟨transitionId, chainId, effectiveAt, opened.keyId, currentKeyFingerprint, nextKeyId,
      nextKeyFingerprint, opened.message, opened.signature⟩
  guard (KeyTransitionCodec.validateTransitionFields otp parsed bounds)
  some parsed

/-- `validate_assembled_compact/3`; the other kinds are refused before. -/
def validateAssembledCompact (kind : SigningKind) (compact : Bytes) (bounds : Bounds) : Bool :=
  match kind with
  | .grant => (parseGrant M otp compact bounds).isSome
  | .proof => (parseProof M otp .standard compact bounds).isSome
  | .boundaryAnchor => (parseAnchor M otp compact bounds).isSome
  | .keyTransition => (parseTransition M otp compact bounds).isSome
  | _ => false

/-- The kinds `validate_standard_signing_kind/1` lets through. -/
def standardKinds : List SigningKind := [.grant, .proof, .boundaryAnchor, .keyTransition]

end BoundedAuthority.Runtime
