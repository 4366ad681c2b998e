import BoundedAuthority.Runtime.Producer
import BoundedAuthority.Runtime.Verifier
import BoundedAuthority.V1.KeyTransitionCodec
import BoundedAuthority.V1.RequestDigest
import BoundedAuthority.V1.Selector

/-!
# The first major

`lib/bounded_authority_protocol/v1/runtime.ex`.
-/

namespace BoundedAuthority.V1.Runtime

open Wire BoundedAuthority.Runtime

variable (otp : Otp)

/-- What the first major has of its own. -/
def major : Major Selector where
  version := 1
  alg := ascii "EdDSA"
  publicKeyBytes bounds := bounds .publicKeyBytes
  trustedKey := Ed25519.acceptablePublicKey
  encodePublic := Jwk.encodePublic
  decodePublic := Jwk.decodePublic
  thumbprintRaw := Jwk.thumbprintRaw otp
  publicKeyThumbprintRaw := Jwk.publicKeyThumbprintRaw otp
  digest := RequestDigest.digest otp
  digestRaw := RequestDigest.digestRaw otp
  verifySignature := Ed25519.verifyStrict otp
  selector := Selector.selector
  encodeSelector := Selector.encodeSelector
  selects := Selector.selects

/-- `decode_grant/2` -/
def decodeGrant : Bytes → Limits → Option (DecodedGrant Selector) :=
  BoundedAuthority.Runtime.decodeGrant (major otp) otp

/-- `decode_proof/2` -/
def decodeProof : Bytes → Limits → Option DecodedProof :=
  BoundedAuthority.Runtime.decodeProof (major otp) otp .standard

/-- `decode_local_loopback_proof/2` -/
def decodeLocalLoopbackProof : Bytes → Limits → Option DecodedProof :=
  BoundedAuthority.Runtime.decodeProof (major otp) otp .localLoopbackHttp

/-- `grant_signing_input/2` -/
def grantSigningInput : Grant Selector → Limits → Option SigningInput :=
  BoundedAuthority.Runtime.grantSigningInput (major otp) otp

/-- `proof_signing_input/2` -/
def proofSigningInput (proof : Proof) (limits : Limits) : Option SigningInput :=
  proofSigningInputFor (major otp) otp proof limits .standard

/-- `local_loopback_proof_signing_input/2` -/
def localLoopbackProofSigningInput (proof : Proof) (limits : Limits) : Option SigningInput :=
  proofSigningInputFor (major otp) otp proof limits .localLoopbackHttp

/-- `verify_grant/3` -/
def verifyGrant : Bytes → TrustedIssuer → ExpectedGrant → Option GrantFacts :=
  BoundedAuthority.Runtime.verifyGrant (major otp) otp

/-- `check_envelope/2` -/
def checkEnvelope (credentials : Credentials) (expected : ExpectedRequest) : Option EnvelopeFacts :=
  checkEnvelopeFor (major otp) otp credentials expected .standard

/-- `check_local_loopback_envelope/2` -/
def checkLocalLoopbackEnvelope (credentials : Credentials) (expected : ExpectedRequest) :
    Option EnvelopeFacts :=
  checkEnvelopeFor (major otp) otp credentials expected .localLoopbackHttp

/-- `validate_assembled_compact/3`; the two kinds without a clause raise. -/
def validateAssembledCompact (kind : SigningKind) (compact : Bytes) (bounds : Bounds) : Bool :=
  match kind with
  | .grant => (parseGrant (major otp) otp compact bounds).isSome
  | .proof => (parseProof (major otp) otp .standard compact bounds).isSome
  | .localLoopbackHttpProof => (parseProof (major otp) otp .localLoopbackHttp compact bounds).isSome
  | .boundaryAnchor => (BoundaryAnchorCodec.parse otp compact bounds).isSome
  | .keyTransition => (KeyTransitionCodec.parse otp compact bounds).isSome
  | .roleAttestation => false
  | .contentAssertion => false

/-- The kinds `validate_standard_signing_kind/1` lets through. -/
def standardKinds : List SigningKind := [.grant, .proof, .boundaryAnchor, .keyTransition]

/-- `assemble_compact/3` and `assemble_local_loopback_compact/3` -/
def assembleKinds (kinds : List SigningKind) (input : SigningInput) (signature : Bytes)
    (limits : Limits) : Option Bytes := do
  let bounds ← Bounds.coerce limits
  guard (input.kind ∈ kinds)
  let compact ← CompactJws.assemble input signature bounds
  guard (validateAssembledCompact otp input.kind compact bounds)
  some compact

/-- `assemble_compact/3` -/
def assembleCompact : SigningInput → (signature : Bytes) → Limits → Option Bytes :=
  assembleKinds otp standardKinds

/-- `assemble_local_loopback_compact/3` -/
def assembleLocalLoopbackCompact : SigningInput → (signature : Bytes) → Limits → Option Bytes :=
  assembleKinds otp [.localLoopbackHttpProof]

end BoundedAuthority.V1.Runtime
