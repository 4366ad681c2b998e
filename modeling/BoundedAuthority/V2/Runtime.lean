import BoundedAuthority.Runtime.Producer
import BoundedAuthority.Runtime.SignedObject
import BoundedAuthority.Runtime.Verifier
import BoundedAuthority.V1.RequestDigest
import BoundedAuthority.V1.Selector

/-!
# The second major

`lib/bounded_authority_protocol/v2/runtime.ex` and `v2/selector.ex`: the selectors of
the first major and two ranges.
-/

namespace BoundedAuthority.V2

open Wire JsonValue V1 BoundedAuthority.Runtime

/-- `Selector.t()` -/
inductive Selector
  | shared (selector : V1.Selector)
  | lte (path : List Bytes) (bound : JsonValue)
  | gte (path : List Bytes) (bound : JsonValue)

namespace Selector

/-- `numeric_bound?/1` -/
def numericBound : JsonValue → Bool
  | .integer _ => true
  | .float _ => true
  | _ => false

/-- `left <= right` of floats -/
def leFloat (left right : F64) : Bool :=
  if left.units = 0 ∧ right.units = 0 then true
  else
    match left.negative, right.negative with
    | true, false => true
    | false, true => false
    | false, false => left.units ≤ right.units
    | true, true => right.units ≤ left.units

/-- `lte?/2` -/
def lteValue : JsonValue → JsonValue → Bool
  | .integer left, .integer right => left ≤ right
  | .float left, .float right => leFloat left right
  | _, _ => false

/-- `gte?/2` -/
def gteValue (left right : JsonValue) : Bool := lteValue right left

/-- `matches?/3` -/
def selects (selector : Selector) (arguments : JsonValue) (bounds : Bounds) : Bool :=
  match selector with
  | .shared selector => V1.Selector.selects selector arguments bounds
  | .lte path bound =>
      validPath path bounds && numericBound bound &&
        match V1.Selector.traverse arguments path with
        | some actual => lteValue actual bound
        | none => false
  | .gte path bound =>
      validPath path bounds && numericBound bound &&
        match V1.Selector.traverse arguments path with
        | some actual => gteValue actual bound
        | none => false

/-- The two range clauses of `encode_selector/2`. -/
def encodeRange (kind : String) (path : List Bytes) (bound : JsonValue) (bounds : Bounds) :
    Option JsonValue := do
  guard (validPath path bounds)
  guard (numericBound bound)
  let _ ← Jcs.encode bound bounds
  some (.object
    [(ascii "kind", .string (ascii kind)), (ascii "path", V1.Selector.pathJson path),
      (ascii "value", bound)])

/-- `encode_selector/2` -/
def encodeSelector (selector : Selector) (bounds : Bounds) : Option JsonValue :=
  match selector with
  | .shared selector => V1.Selector.encodeSelector selector bounds
  | .lte path bound => encodeRange "lte" path bound bounds
  | .gte path bound => encodeRange "gte" path bound bounds

/-- The two range clauses of `selector/2`. -/
def readRange (range : List Bytes → JsonValue → Selector) (map : ClosedMap) (bounds : Bounds) :
    Option Selector := do
  let bound ← map.lookup (ascii "value")
  let path ← V1.Selector.readPath map bounds
  guard (numericBound bound)
  let _ ← Jcs.encode bound bounds
  some (range path bound)

/-- `selector/2` -/
def selector (value : JsonValue) (bounds : Bounds) : Option Selector :=
  match value with
  | .object members => do
      let map ← ClosedMap.closedMapOneOf members V1.Selector.selectorKeys
      let kind ← ClosedMap.string map (ascii "kind")
      if kind = ascii "lte" then readRange .lte map bounds
      else if kind = ascii "gte" then readRange .gte map bounds
      else (V1.Selector.readSelector map bounds).map .shared
  | _ => none

end Selector

namespace Runtime

variable (otp : Otp)

/-- `@prefix` -/
def digestPrefix : Bytes := ascii "BAP2-REQUEST" ++ [0]

/-- What the second major has of its own. -/
def major : Major Selector where
  version := 2
  alg := ascii "EdDSA"
  publicKeyBytes bounds := bounds .publicKeyBytes
  trustedKey := Ed25519.acceptablePublicKey
  encodePublic := Jwk.encodePublic
  decodePublic := Jwk.decodePublic
  thumbprintRaw := Jwk.thumbprintRaw otp
  publicKeyThumbprintRaw := Jwk.publicKeyThumbprintRaw otp
  digest := RequestDigest.digestWith otp digestPrefix
  digestRaw := RequestDigest.digestRawWith otp digestPrefix
  verifySignature := Ed25519.verifyStrict otp
  selector := Selector.selector
  encodeSelector := Selector.encodeSelector
  selects := Selector.selects

/-- `decode_grant/2` -/
def decodeGrant : Bytes → Limits → Option (DecodedGrant Selector) :=
  BoundedAuthority.Runtime.decodeGrant (major otp) otp

/-- `decode_proof/2` -/
def decodeProof : Bytes → Limits → Option DecodedProof :=
  BoundedAuthority.Runtime.decodeProof (major otp) otp .standard

/-- `grant_signing_input/2` -/
def grantSigningInput : Grant Selector → Limits → Option SigningInput :=
  BoundedAuthority.Runtime.grantSigningInput (major otp) otp

/-- `proof_signing_input/2` -/
def proofSigningInput (proof : Proof) (limits : Limits) : Option SigningInput :=
  proofSigningInputFor (major otp) otp proof limits .standard

/-- `assemble_compact/3` -/
def assembleCompact (input : SigningInput) (signature : Bytes) (limits : Limits) :
    Option Bytes := do
  let bounds ← Bounds.coerce limits
  guard (input.kind ∈ standardKinds)
  let compact ← CompactJws.assemble input signature bounds
  guard (validateAssembledCompact (major otp) otp input.kind compact bounds)
  some compact

/-- `verify_grant/3` -/
def verifyGrant : Bytes → TrustedIssuer → ExpectedGrant → Option GrantFacts :=
  BoundedAuthority.Runtime.verifyGrant (major otp) otp

/-- `check_envelope/2` -/
def checkEnvelope (credentials : Credentials) (expected : ExpectedRequest) : Option EnvelopeFacts :=
  checkEnvelopeFor (major otp) otp credentials expected .standard

end Runtime

end BoundedAuthority.V2
