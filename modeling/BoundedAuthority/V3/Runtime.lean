import BoundedAuthority.V2.Runtime
import BoundedAuthority.V3.CompactJws

/-!
# The third major

`lib/bounded_authority_protocol/v3/runtime.ex`: the selectors of the second major,
and the suite of P-256.
-/

namespace BoundedAuthority.V3.Runtime

open Wire V1 BoundedAuthority.Runtime

/-- `Es256.verify/3`; the backend checks the equation. -/
structure Ecdsa where
  verify : (message signature publicKey : Bytes) → Bool

variable (otp : Otp) (ecdsa : Ecdsa)

/-- `verify_signature/3` -/
def verifySignature (message signature publicKey : Bytes) : Bool :=
  publicKey.length = 65 && Es256.canonicalSignature signature &&
    Es256.acceptablePublicKey publicKey && ecdsa.verify message signature publicKey

/-- `@prefix` -/
def digestPrefix : Bytes := ascii "BAP3-REQUEST" ++ [0]

/-- What the third major has of its own. -/
def major : Major V2.Selector where
  version := 3
  alg := ascii "ES256"
  publicKeyBytes _ := 65
  trustedKey _ := true
  encodePublic := EcJwk.encodePublic
  decodePublic := EcJwk.decodePublic
  thumbprintRaw := EcJwk.thumbprintRaw otp
  publicKeyThumbprintRaw := EcJwk.publicKeyThumbprintRaw otp
  digest := RequestDigest.digestWith otp digestPrefix
  digestRaw := RequestDigest.digestRawWith otp digestPrefix
  verifySignature := verifySignature ecdsa
  selector := V2.Selector.selector
  encodeSelector := V2.Selector.encodeSelector
  selects := V2.Selector.selects

/-- `decode_grant/2` -/
def decodeGrant : Bytes → Limits → Option (DecodedGrant V2.Selector) :=
  BoundedAuthority.Runtime.decodeGrant (major otp ecdsa) otp

/-- `decode_proof/2` -/
def decodeProof : Bytes → Limits → Option DecodedProof :=
  BoundedAuthority.Runtime.decodeProof (major otp ecdsa) otp .standard

/-- `grant_signing_input/2` -/
def grantSigningInput : Grant V2.Selector → Limits → Option SigningInput :=
  BoundedAuthority.Runtime.grantSigningInput (major otp ecdsa) otp

/-- `proof_signing_input/2` -/
def proofSigningInput (proof : Proof) (limits : Limits) : Option SigningInput :=
  proofSigningInputFor (major otp ecdsa) otp proof limits .standard

/-- `assemble_compact/3` -/
def assembleCompact (input : SigningInput) (signature : Bytes) (limits : Limits) :
    Option Bytes := do
  let bounds ← Bounds.coerce limits
  guard (input.kind ∈ standardKinds)
  let compact ← V3.CompactJws.assemble input signature bounds
  guard (Es256.canonicalSignature signature)
  guard (validateAssembledCompact (major otp ecdsa) otp input.kind compact bounds)
  some compact

/-- `verify_grant/3` -/
def verifyGrant : Bytes → TrustedIssuer → ExpectedGrant → Option GrantFacts :=
  BoundedAuthority.Runtime.verifyGrant (major otp ecdsa) otp

/-- `check_envelope/2` -/
def checkEnvelope (credentials : Credentials) (expected : ExpectedRequest) : Option EnvelopeFacts :=
  checkEnvelopeFor (major otp ecdsa) otp credentials expected .standard

end BoundedAuthority.V3.Runtime
