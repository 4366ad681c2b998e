import BoundedAuthority.V1.Assembly
import BoundedAuthority.V3.EcJwk

/-!
# Assembly for P-256

`lib/bounded_authority_protocol/v3/compact_jws.ex`.  The scan is the one of the first
major.
-/

namespace BoundedAuthority.V3.CompactJws

open Wire JsonValue V1

/-- The clauses of `exact_signing_header?/3` for a header with a key id. -/
def keyIdHeader (typ : Bytes) (header : ClosedMap) (bounds : Bounds) : Bool :=
  ClosedMap.string header (ascii "alg") = some (ascii "ES256") &&
    ClosedMap.string header (ascii "typ") = some typ &&
    match ClosedMap.string header (ascii "kid") with
    | some kid => 0 < kid.length && kid.length ≤ bounds .kidBytes
    | none => false

/-- The clause of `exact_signing_header?/3` for a header with a public key. -/
def jwkHeader (header : ClosedMap) (bounds : Bounds) : Bool :=
  ClosedMap.string header (ascii "alg") = some (ascii "ES256") &&
    ClosedMap.string header (ascii "typ") = some (ascii "dpop+jwt") &&
    match header.lookup (ascii "jwk") with
    | some jwk =>
        ((Jcs.encode jwk bounds).bind fun encoded => EcJwk.decodePublic encoded bounds).isSome
    | none => false

/-- `exact_signing_header?/3` -/
def exactSigningHeader (kind : SigningKind) (members : List (Bytes × JsonValue)) (bounds : Bounds) :
    Bool :=
  members.length = 3 &&
    match kind with
    | .grant => keyIdHeader (ascii "ba+cap") members.reverse bounds
    | .proof => jwkHeader members.reverse bounds
    | .boundaryAnchor => keyIdHeader (ascii "ba+chain-anchor") members.reverse bounds
    | .keyTransition => keyIdHeader (ascii "ba+key-transition") members.reverse bounds
    | _ => false

/-- `signing_kind_matches?/3` -/
def signingKindMatches (kind : SigningKind) (protectedSegment : Bytes) (bounds : Bounds) : Bool :=
  match (Base64Url.decode protectedSegment bounds).bind fun bytes => Json.decode bytes bounds with
  | some (.object members) => exactSigningHeader kind members bounds
  | _ => false

/-- `valid_signing_input?/2`; the kinds `valid_kind_and_segments?/1` refuses have no header. -/
def validSigningInput (input : SigningInput) (bounds : Bounds) : Bool :=
  V1.CompactJws.validSigningInputFields input bounds &&
    signingKindMatches input.kind input.protectedSegment bounds &&
    (Base64Url.decode input.payloadSegment bounds).isSome

/-- `assemble/3` -/
def assemble (input : SigningInput) (signature : Bytes) (limits : Limits) : Option Bytes := do
  let bounds ← Bounds.coerce limits
  guard (validSigningInput input bounds)
  guard (signature.length = 64 ∧ signature.length ≤ bounds .signatureBytes)
  let signatureSegment := Base64.encode signature
  let compact :=
    input.protectedSegment ++ ascii "." ++ input.payloadSegment ++ ascii "." ++ signatureSegment
  guard (compact.length ≤ bounds .compactBytes)
  some compact

end BoundedAuthority.V3.CompactJws
