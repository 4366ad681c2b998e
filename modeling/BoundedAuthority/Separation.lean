import BoundedAuthority.ContentAssertion.Codec
import BoundedAuthority.RoleAttestation.Codec
import BoundedAuthority.V1.Platform
import BoundedAuthority.V1.Runtime
import BoundedAuthority.V3.Runtime

/-!
# Artifacts of different kinds

Every decoder of a compact serialization asks for its own type in the header and
its own version in the payload, and no two ask for the same (`Decoder.tag_injective`).
Both are read from the bytes that are signed, so a signing message belongs to one
kind of artifact.
-/

namespace BoundedAuthority

open Wire JsonValue V1

/-- The decoders of compact serializations. -/
inductive Decoder
  | grant | proof | localLoopbackProof | grantV2 | proofV2 | grantV3 | proofV3 | boundaryAnchor
  | keyTransition | roleAttestation | contentAssertion
deriving DecidableEq

namespace Decoder

variable (otp : Otp) (ecdsa : V3.Runtime.Ecdsa)

/-- Whether a decoder accepts some bytes. -/
def accepts (decoder : Decoder) (compact : Bytes) (bounds : Bounds) : Bool :=
  match decoder with
  | grant => (V1.Runtime.decodeGrant otp compact bounds).isSome
  | proof => (V1.Runtime.decodeProof otp compact bounds).isSome
  | localLoopbackProof => (V1.Runtime.decodeLocalLoopbackProof otp compact bounds).isSome
  | grantV2 => (V2.Runtime.decodeGrant otp compact bounds).isSome
  | proofV2 => (V2.Runtime.decodeProof otp compact bounds).isSome
  | grantV3 => (V3.Runtime.decodeGrant otp ecdsa compact bounds).isSome
  | proofV3 => (V3.Runtime.decodeProof otp ecdsa compact bounds).isSome
  | boundaryAnchor => (BoundaryAnchorCodec.parse otp compact bounds).isSome
  | keyTransition => (KeyTransitionCodec.parse otp compact bounds).isSome
  | roleAttestation => (RoleAttestation.Codec.decode otp compact bounds).isSome
  | contentAssertion => (ContentAssertion.Codec.decode otp compact bounds).isSome

/-- The type a decoder asks for. -/
def typ : Decoder → Bytes
  | grant | grantV2 | grantV3 => ascii "ba+cap"
  | proof | proofV2 | proofV3 => ascii "dpop+jwt"
  | localLoopbackProof => ascii "ba+loopback-proof"
  | boundaryAnchor => ascii "ba+chain-anchor"
  | keyTransition => ascii "ba+key-transition"
  | roleAttestation => ascii "ba+role-attestation"
  | contentAssertion => ascii "ba+content-assertion"

/-- The version a decoder asks for. -/
def version : Decoder → Int
  | grantV2 | proofV2 => 2
  | grantV3 | proofV3 => 3
  | _ => 1

/-- The type and the version tell the decoders apart. -/
theorem tag_injective {d d' : Decoder} (typ : d.typ = d'.typ) (version : d.version = d'.version) :
    d = d' := by
  cases d <;> cases d' <;> first | rfl | exact absurd version (by decide) |
    exact absurd typ (by decide)

/-! ## Tagged serializations -/

/-- A serialization with a type in its header and a version in its payload. -/
structure Tagged (compact : Bytes) (bounds : Bounds) (typ : Bytes) (version : Int) : Prop where
  read : ∃ segments protectedBytes payloadBytes header payload,
    CompactJws.scan compact bounds = some segments ∧
    Base64Url.decode segments.protectedHeader bounds = some protectedBytes ∧
    Base64Url.decode segments.payload bounds = some payloadBytes ∧
    Json.decode protectedBytes bounds = some (.object header) ∧
    Json.decode payloadBytes bounds = some (.object payload) ∧
    ClosedMap.string header.reverse (ascii "typ") = some typ ∧
    ClosedMap.integer payload.reverse (ascii "v") = some version

variable {compact : Bytes} {bounds : Bounds}

theorem tagged_of_openCompact {opened : Runtime.Opened} {typ : Bytes} {version : Int}
    (h : Runtime.openCompact compact bounds = some opened)
    (typed : ClosedMap.string opened.header.reverse (ascii "typ") = some typ)
    (versioned : ClosedMap.integer opened.payload.reverse (ascii "v") = some version) :
    Tagged compact bounds typ version := by
  obtain ⟨segments, protectedBytes, payloadBytes, scanned, first, second, -, -, header, payload,
    -⟩ :=
    Runtime.openCompact_eq_some.mp h
  exact ⟨segments, protectedBytes, payloadBytes, _, _, scanned, first, second, header, payload,
    typed, versioned⟩

section Majors

variable {σ : Type} {M : Runtime.Major σ} {otp}

/-- A grant is tagged with the version of its major. -/
theorem tagged_of_decodeGrant (h : (Runtime.decodeGrant M otp compact bounds).isSome = true) :
    Tagged compact bounds (ascii "ba+cap") M.version := by
  rw [Runtime.decodeGrant, Option.isSome_map] at h
  obtain ⟨parsed, h⟩ := Option.isSome_iff_exists.mp h
  obtain ⟨opened, header, payload, found, closedHeader, closedPayload, fields, -, -⟩ :=
    (Runtime.parseGrant_eq_some M otp).mp h
  obtain rfl := ClosedMap.closedMap_eq closedHeader
  obtain rfl := ClosedMap.closedMap_eq closedPayload
  exact tagged_of_openCompact found fields.typ fields.v

/-- A proof is tagged with the type of its profile and the version of its major. -/
theorem tagged_of_decodeProof {profile : Runtime.Profile}
    (h : (Runtime.decodeProof M otp profile compact bounds).isSome = true) :
    Tagged compact bounds profile.proofType M.version := by
  rw [Runtime.decodeProof, Option.isSome_map] at h
  obtain ⟨parsed, h⟩ := Option.isSome_iff_exists.mp h
  obtain ⟨opened, header, payload, found, closedHeader, closedPayload, fields, -, -⟩ :=
    (Runtime.parseProof_eq_some M otp profile).mp h
  obtain rfl := ClosedMap.closedMap_eq closedHeader
  obtain rfl := Runtime.Profile.closedProofPayload_eq closedPayload
  exact tagged_of_openCompact found fields.typ fields.v

end Majors

/-- A signed object of the archive is tagged with its type and the first version. -/
theorem tagged_of_openSigned {typ : Bytes} {keys : List Bytes} {opened : V1.Opened}
    (h : openSigned typ keys compact bounds = some opened) : Tagged compact bounds typ 1 := by
  simp only [openSigned, Option.bind_eq_bind, Option.bind_eq_some_iff, guard_eq_some,
    exists_const] at h
  obtain ⟨-, segments, scanned, protectedBytes, first, payloadBytes, second, _, -, -, header,
    openedHeader, -, typed, _, -, -, payload, openedPayload, version, -⟩ := h
  obtain ⟨headerMembers, decodedHeader, rfl⟩ := openObject_members openedHeader
  obtain ⟨payloadMembers, decodedPayload, rfl⟩ := openObject_members openedPayload
  exact ⟨segments, protectedBytes, payloadBytes, headerMembers, payloadMembers, scanned, first,
    second, decodedHeader, decodedPayload, typed, version⟩

/-- What a decoder accepts is tagged with its type and its version. -/
theorem tagged_of_accepts {d : Decoder} (h : d.accepts otp ecdsa compact bounds = true) :
    Tagged compact bounds d.typ d.version := by
  have signed : ∀ {α : Type} {typ : Bytes} {keys : List Bytes} {f : V1.Opened → Option α},
      ((openSigned typ keys compact bounds).bind f).isSome = true →
        Tagged compact bounds typ 1 := by
    intro α typ keys f found
    obtain ⟨_, found⟩ := Option.isSome_iff_exists.mp found
    obtain ⟨opened, found, -⟩ := Option.bind_eq_some_iff.mp found
    exact tagged_of_openSigned found
  cases d with
  | grant => exact tagged_of_decodeGrant h
  | proof => exact tagged_of_decodeProof h
  | localLoopbackProof => exact tagged_of_decodeProof h
  | grantV2 => exact tagged_of_decodeGrant h
  | proofV2 => exact tagged_of_decodeProof h
  | grantV3 => exact tagged_of_decodeGrant h
  | proofV3 => exact tagged_of_decodeProof h
  | boundaryAnchor => exact signed h
  | keyTransition => exact signed h
  | roleAttestation =>
      have parsed : (RoleAttestation.Codec.parse otp compact bounds).isSome = true := by
        simpa [accepts, RoleAttestation.Codec.decode, Option.isSome_iff_exists,
          Option.bind_eq_some_iff] using h
      exact signed parsed
  | contentAssertion =>
      have parsed : (ContentAssertion.Codec.parse otp compact bounds).isSome = true := by
        simpa [accepts, ContentAssertion.Codec.decode, Option.isSome_iff_exists,
          Option.bind_eq_some_iff] using h
      exact signed parsed

/-- Two serializations with one signing message have one tag. -/
theorem Tagged.agree {compact' : Bytes} {bounds' : Bounds} {typ typ' : Bytes}
    {version version' : Int}
    (h : Tagged compact bounds typ version) (h' : Tagged compact' bounds' typ' version')
    (same : (CompactJws.scan compact bounds).map CompactJws.Segments.message =
      (CompactJws.scan compact' bounds').map CompactJws.Segments.message) :
    typ = typ' ∧ version = version' := by
  obtain ⟨s, p, q, header, payload, scanned, first, second, decodedHeader, decodedPayload, typed,
    versioned⟩ := h
  obtain ⟨s', p', q', header', payload', scanned', first', second', decodedHeader', decodedPayload',
    typed', versioned'⟩ := h'
  rw [scanned, scanned', Option.map_some, Option.map_some, Option.some.injEq] at same
  obtain ⟨sameHeader, samePayload⟩ := CompactJws.segments_of_message
    (CompactJws.scan_eq_some.mp scanned).2 (CompactJws.scan_eq_some.mp scanned').2 same
  obtain rfl : p = p' := Base64.encode_injective <| by
    rw [← (Base64Url.decode_eq_some.mp first).1, sameHeader, (Base64Url.decode_eq_some.mp first').1]
  obtain rfl : q = q' := Base64.encode_injective <| by
    rw [← (Base64Url.decode_eq_some.mp second).1, samePayload,
      (Base64Url.decode_eq_some.mp second').1]
  obtain rfl := JsonValue.object.inj (Json.decode_unique decodedHeader decodedHeader')
  obtain rfl := JsonValue.object.inj (Json.decode_unique decodedPayload decodedPayload')
  rw [typed, Option.some.injEq] at typed'
  rw [versioned, Option.some.injEq] at versioned'
  exact ⟨typed', versioned'⟩

/-- Some bytes are accepted by one decoder at most, and so are all bytes with one
signing message, whatever the bounds of the two readers. -/
theorem accepts_one :
    (∀ compact bounds (d d' : Decoder), d.accepts otp ecdsa compact bounds = true →
      d'.accepts otp ecdsa compact bounds = true → d = d') ∧
    ∀ compact compact' bounds bounds' (d d' : Decoder),
      d.accepts otp ecdsa compact bounds = true → d'.accepts otp ecdsa compact' bounds' = true →
      (CompactJws.scan compact bounds).map CompactJws.Segments.message =
        (CompactJws.scan compact' bounds').map CompactJws.Segments.message → d = d' := by
  have one : ∀ compact compact' bounds bounds' (d d' : Decoder),
      d.accepts otp ecdsa compact bounds = true → d'.accepts otp ecdsa compact' bounds' = true →
      (CompactJws.scan compact bounds).map CompactJws.Segments.message =
        (CompactJws.scan compact' bounds').map CompactJws.Segments.message → d = d' := by
    intro compact compact' bounds bounds' d d' h h' same
    obtain ⟨typ, version⟩ := (tagged_of_accepts otp ecdsa h).agree (tagged_of_accepts otp ecdsa h')
      same
    exact tag_injective typ version
  exact ⟨fun compact bounds d d' h h' => one _ _ _ _ d d' h h' rfl, one⟩

/-- A grant with a signature of one repeated byte. -/
def sampleGrant (byte : UInt8) : Bytes :=
  Base64.encode (ascii "\x7b\"alg\":\"EdDSA\",\"kid\":\"k\",\"typ\":\"ba+cap\"\x7d") ++ ascii "." ++
    Base64.encode (ascii "\x7b\"aud\":\"a\",\"cnf\":\x7b\"jkt\":\"" ++
      Base64.encode (List.replicate 32 0) ++
      ascii "\"\x7d,\"exp\":9,\"iat\":1,\"iss\":\"i\",\"jti\":\"g\",\"nbf\":1,\"operations\":" ++
      ascii "[\x7b\"name\":\"o\",\"selectors\":[\x7b\"kind\":\"all\"\x7d]\x7d],\"v\":1\x7d") ++
    ascii "." ++ Base64.encode (List.replicate 64 byte)

/-- The grant is accepted as a grant, and nothing else accepts its message. -/
theorem accepts_one_sample :
    grant.accepts (Otp.listed []) ⟨fun _ _ _ => false⟩ (sampleGrant 0) Bounds.maximum = true ∧
    ∀ d : Decoder,
      d.accepts (Otp.listed []) ⟨fun _ _ _ => false⟩ (sampleGrant 1) Bounds.maximum = true →
      d = grant := by
  have accepted :
      grant.accepts (Otp.listed []) ⟨fun _ _ _ => false⟩ (sampleGrant 0) Bounds.maximum = true := by
    decide +kernel
  have same : (CompactJws.scan (sampleGrant 1) Bounds.maximum).map CompactJws.Segments.message =
      (CompactJws.scan (sampleGrant 0) Bounds.maximum).map CompactJws.Segments.message := by
    decide +kernel
  exact ⟨accepted, fun d h => (accepts_one _ _).2 _ _ _ _ d grant h accepted same⟩

end Decoder

end BoundedAuthority
