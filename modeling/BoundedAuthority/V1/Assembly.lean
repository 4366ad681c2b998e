import BoundedAuthority.V1.CompactJws
import BoundedAuthority.V1.Fields
import BoundedAuthority.V1.Jwk

/-!
# Signing inputs

The producing half of `lib/bounded_authority_protocol/v1/compact_jws.ex`.
-/

namespace BoundedAuthority.V1

open Wire JsonValue

/-- The `kind` of a `%SigningInput{}`. -/
inductive SigningKind
  | grant | proof | localLoopbackHttpProof | boundaryAnchor | keyTransition | roleAttestation
  | contentAssertion
deriving DecidableEq

/-- `%SigningInput{}` -/
structure SigningInput where
  kind : SigningKind
  protectedSegment : Bytes
  payloadSegment : Bytes
  message : Bytes
deriving DecidableEq

namespace CompactJws

/-- The clauses of `exact_signing_header?/3` for a header with a key id. -/
def keyIdHeader (typ : Bytes) (header : ClosedMap) (bounds : Bounds) : Bool :=
  ClosedMap.string header (ascii "alg") = some (ascii "EdDSA") &&
    ClosedMap.string header (ascii "typ") = some typ &&
    match ClosedMap.string header (ascii "kid") with
    | some kid => 0 < kid.length && kid.length ≤ bounds .kidBytes
    | none => false

/-- The clauses of `exact_signing_header?/3` for a header with a public key. -/
def jwkHeader (typ : Bytes) (header : ClosedMap) (bounds : Bounds) : Bool :=
  ClosedMap.string header (ascii "alg") = some (ascii "EdDSA") &&
    ClosedMap.string header (ascii "typ") = some typ &&
    match header.lookup (ascii "jwk") with
    | some jwk =>
        ((Jcs.encode jwk bounds).bind fun encoded => Jwk.decodePublic encoded bounds).isSome
    | none => false

/-- `exact_signing_header?/3` -/
def exactSigningHeader (kind : SigningKind) (members : List (Bytes × JsonValue)) (bounds : Bounds) :
    Bool :=
  members.length = 3 &&
    match kind with
    | .grant => keyIdHeader (ascii "ba+cap") members.reverse bounds
    | .proof => jwkHeader (ascii "dpop+jwt") members.reverse bounds
    | .localLoopbackHttpProof => jwkHeader (ascii "ba+loopback-proof") members.reverse bounds
    | .boundaryAnchor => keyIdHeader (ascii "ba+chain-anchor") members.reverse bounds
    | .keyTransition => keyIdHeader (ascii "ba+key-transition") members.reverse bounds
    | .roleAttestation => keyIdHeader (ascii "ba+role-attestation") members.reverse bounds
    | .contentAssertion => keyIdHeader (ascii "ba+content-assertion") members.reverse bounds

/-- `signing_kind_matches?/3` -/
def signingKindMatches (kind : SigningKind) (protectedSegment : Bytes) (bounds : Bounds) : Bool :=
  match (Base64Url.decode protectedSegment bounds).bind fun bytes => Json.decode bytes bounds with
  | some (.object members) => exactSigningHeader kind members bounds
  | _ => false

/-- `valid_signing_input_fields?/2` -/
def validSigningInputFields (input : SigningInput) (bounds : Bounds) : Bool :=
  0 < input.protectedSegment.length && 0 < input.payloadSegment.length &&
    input.protectedSegment.length ≤ bounds .encodedSegmentBytes &&
    input.payloadSegment.length ≤ bounds .encodedSegmentBytes &&
    input.message == input.protectedSegment ++ ascii "." ++ input.payloadSegment

/-- `valid_signing_input?/2` -/
def validSigningInput (input : SigningInput) (bounds : Bounds) : Bool :=
  validSigningInputFields input bounds &&
    signingKindMatches input.kind input.protectedSegment bounds &&
    (Base64Url.decode input.payloadSegment bounds).isSome

/-- `assemble/3` -/
def assemble (input : SigningInput) (signature : Bytes) (limits : Limits) : Option Bytes := do
  let bounds ← Bounds.coerce limits
  guard (validSigningInput input bounds)
  guard (signature.length = 64 ∧ signature.length ≤ bounds .signatureBytes)
  guard (Ed25519.signatureGate signature)
  let signatureSegment := Base64.encode signature
  let compact :=
    input.protectedSegment ++ ascii "." ++ input.payloadSegment ++ ascii "." ++ signatureSegment
  guard (compact.length ≤ bounds .compactBytes)
  some compact

end CompactJws

end BoundedAuthority.V1
