import BoundedAuthority.V1.Assembly
import BoundedAuthority.V1.BoundaryAnchorCodec
import BoundedAuthority.V1.Tightening

/-!
# Writing signed objects

The writing half of the codecs of role attestations and content assertions
(`signing_input/2` and `build_signing_input/3` there), which hold the same code for it.
A kind, its type and the members of its payload are the parameters.

Under whatever bounds, an object that is written and assembled is opened again
(`opened_of_writeSigned`).  No ceiling on the signature is left to check: a payload
with a digest in it is longer than a signature, so its ceilings are high enough.
-/

namespace BoundedAuthority.V1

open Wire JsonValue

/-- `header_json/1`, also called `header/1` -/
def signedHeader (typ keyId : Bytes) : List (Bytes × JsonValue) :=
  [(ascii "alg", .string (ascii "EdDSA")), (ascii "kid", .string keyId), (ascii "typ", .string typ)]

/-- `build_signing_input/3`, also called `build_input/3` -/
def buildSigningInput (kind : SigningKind) (protectedBytes payload : Bytes) (bounds : Bounds) :
    Option SigningInput := do
  let protectedSegment := Base64.encode protectedBytes
  let payloadSegment := Base64.encode payload
  let message := protectedSegment ++ ascii "." ++ payloadSegment
  guard (protectedSegment.length ≤ bounds .encodedSegmentBytes ∧
    payloadSegment.length ≤ bounds .encodedSegmentBytes ∧
    message.length + 1 + 86 ≤ bounds .anchorBytes ∧ message.length + 1 + 86 ≤ bounds .compactBytes)
  some ⟨kind, protectedSegment, payloadSegment, message⟩

/-- The part of `signing_input/2` after the fields are checked. -/
def writeSigned (kind : SigningKind) (header payload : List (Bytes × JsonValue)) (bounds : Bounds) :
    Option SigningInput := do
  let protectedBytes ← Jcs.encode (.object header) bounds
  let payloadBytes ← Jcs.encode (.object payload) bounds
  guard (protectedBytes.length ≤ bounds .decodedSegmentBytes)
  guard (payloadBytes.length ≤ bounds .decodedSegmentBytes)
  let _ ← Json.decode protectedBytes bounds
  let _ ← Json.decode payloadBytes bounds
  buildSigningInput kind protectedBytes payloadBytes bounds

/-- `assemble/3` of a codec with the given kind and `parse/2`. -/
def assembleSigned {Parsed : Type} (kind : SigningKind) (parse : Bytes → Bounds → Option Parsed)
    (input : SigningInput) (signature : Bytes) (limits : Limits) : Option Bytes := do
  guard (input.kind = kind)
  let compact ← CompactJws.assemble input signature limits
  let bounds ← Bounds.coerce limits
  let _ ← parse compact bounds
  some compact

variable {bounds : Bounds}

/-! ## Canonical texts under any bounds -/

/-- What is decoded from a canonical text is encoded to it again. -/
theorem Jcs.encode_decoded {value decoded : JsonValue} {bytes : Bytes}
    (written : Jcs.encode value bounds = some bytes)
    (read : Json.decode bytes bounds = some decoded) :
    decoded = Jcs.normal value ∧ Jcs.encode decoded bounds = some bytes := by
  have le := bounds.le_maximum
  obtain ⟨encodable, nodes, rfl⟩ := Jcs.encode_eq_some.mp (Jcs.encode_below le value _ written)
  have canonical := Jcs.decode_canon encodable nodes
  rw [Json.decode_below le _ _ read, Option.some.injEq] at canonical
  subst canonical
  obtain ⟨-, _, -, accepts⟩ := Json.decode_eq_some.mp read
  obtain ⟨own, -, -⟩ := Jcs.encode_eq_some.mp written
  have same : Jcs.canon (Jcs.normal value) = Jcs.canon value :=
    congrArg Text.render (Jcs.text_normal encodable.within)
  refine ⟨rfl, Jcs.encode_eq_some.mpr ⟨⟨accepts.admits.within.mono ?_, ?_, ?_⟩, ?_, same.symm⟩⟩
  · exact ⟨Nat.le_refl _, Nat.le_refl _, Nat.le_refl _, Nat.min_le_left _ _, Nat.le_refl _,
      Nat.le_refl _⟩
  · rw [Jcs.depth_normal]
    exact own.depth
  · rw [same]
    exact own.size
  · exact accepts.admits.nodes

/-- A canonical object that decodes is opened. -/
theorem openObject_of_encode {members : List (Bytes × JsonValue)} {keys : List Bytes}
    {bytes : Bytes}
    {decoded : JsonValue} (written : Jcs.encode (.object members) bounds = some bytes)
    (read : Json.decode bytes bounds = some decoded) (names : (members.map Prod.fst).Perm keys) :
    ∃ map, openObject bytes keys bounds = some map ∧ ClosedMap.ReadFrom members map := by
  obtain ⟨rfl, again⟩ := Jcs.encode_decoded written read
  obtain ⟨encodable, -, -⟩ := Jcs.encode_eq_some.mp written
  rw [Jcs.normal_object] at read again
  have sorted :
      (((Jcs.sortMembers members).map (Prod.map id Jcs.normal)).map Prod.fst).Perm keys := by
    rw [List.map_map]
    exact ((Jcs.sortMembers_perm members).map Prod.fst).trans names
  have closed := ClosedMap.closedMap_eq_some.mpr ⟨sorted, rfl⟩
  refine ⟨_, ?_, encodable.within.2.1, rfl⟩
  simp only [openObject, read, closed, again, Option.bind_eq_bind, Option.bind_some, guard_true,
    Option.pure_def]

/-! ## Lower ceilings -/

section

variable {lower : Bounds} (le : lower.Le bounds)

include le

theorem openObject_below (bytes : Bytes) (keys : List Bytes) :
    Below (openObject bytes keys lower) (openObject bytes keys bounds) := by
  refine Below.bind (Json.decode_below le bytes) fun value _ => ?_
  cases value with
  | object members =>
      refine Below.bind (Below.refl _) fun map _ => ?_
      exact Below.bind (Jcs.encode_below le _) fun _ _ => Below.refl _
  | _ => exact Below.refl _

theorem openSigned_below (typ : Bytes) (keys : List Bytes) (compact : Bytes) :
    Below (openSigned typ keys compact lower) (openSigned typ keys compact bounds) := by
  refine Below.guard (fun h => ⟨h.1, h.2.trans (le .anchorBytes)⟩) fun _ => ?_
  refine Below.bind (CompactJws.scan_below le compact) fun segments _ => ?_
  refine Below.bind (Base64Url.decode_below le _) fun protectedBytes _ => ?_
  refine Below.bind (Base64Url.decode_below le _) fun payloadBytes _ => ?_
  refine Below.bind (Base64Url.decode_below le _) fun signature _ => ?_
  refine Below.guard (fun h => by simpa using h) fun _ => ?_
  refine Below.bind (openObject_below le _ _) fun header _ => ?_
  refine Below.guard id fun _ => Below.guard id fun _ => Below.bind (Below.refl _) fun keyId _ => ?_
  refine Below.guard (validKeyId_mono le) fun _ => ?_
  exact Below.bind (openObject_below le _ _) fun _ _ => Below.refl _

theorem ClosedMap.digest_below (map : ClosedMap) (key : Bytes) :
    Below (ClosedMap.digest map key lower) (ClosedMap.digest map key bounds) :=
  Below.bind (Below.refl _) fun encoded _ => Base64Url.decode_below le encoded

end

/-! ## Lengths -/

theorem sum_length_le_intercalate (parts : List Bytes) :
    (parts.map List.length).sum ≤ (List.intercalate [0x2C] parts).length := by
  induction parts with
  | nil => simp
  | cons first rest ih =>
      cases rest with
      | nil => simp
      | cons second rest =>
          rw [List.intercalate_cons_cons, List.length_append, List.length_append, List.map_cons,
            List.sum_cons]
          omega

/-- An object is not shorter than its members together. -/
theorem sum_length_le_canon (members : List (Bytes × JsonValue)) :
    (members.map fun m => (Jcs.canonMember m).length).sum ≤
      (Jcs.canon (.object members)).length := by
  have parts := sum_length_le_intercalate ((Jcs.sortMembers members).map Jcs.canonMember)
  have perm := ((Jcs.sortMembers_perm members).map fun m => (Jcs.canonMember m).length).sum_eq
  rw [List.map_map] at parts
  rw [Jcs.canon_object, List.length_cons, List.length_append, ← perm]
  exact parts.trans (by omega)

theorem length_encode_digest {digest : Bytes} (size : digest.length = 32) :
    (Base64.encode digest).length = 43 := by
  rw [Base64.length_encode, size]
  rfl

/-- The member of a digest, whatever its name. -/
theorem length_canonMember_digest {name digest : Bytes} (size : digest.length = 32) :
    (Jcs.canonMember (name, .string (Base64.encode digest))).length =
      (Pieces.render (Pieces.ofString name)).length + 47 := by
  have text : Pieces.render (Pieces.ofString (Base64.encode digest)) =
      Base64.encode digest ++ [0x22] :=
    Pieces.render_plain fun b hb => isPlain_of_inAlphabet (Base64.inAlphabet_of_mem_encode hb)
  have value : (Jcs.canon (.string (Base64.encode digest))).length = 45 := by
    rw [Jcs.canon, Jcs.text, Text.render, text]
    simp [length_encode_digest size]
  simp only [Jcs.canonMember, List.length_cons, List.length_append, value]

/-- A digest is read back from the member it was written as. -/
theorem ClosedMap.ReadFrom.digest {members : List (Bytes × JsonValue)} {map : ClosedMap}
    (h : ClosedMap.ReadFrom members map) {key value : Bytes}
    (member : (key, .string (Base64.encode value)) ∈ members) (size : value.length = 32)
    (roomy : 64 ≤ bounds .decodedSegmentBytes) (wide : 86 ≤ bounds .encodedSegmentBytes) :
    ClosedMap.digest map key bounds = some value := by
  rw [ClosedMap.digest, h.string key _ member]
  refine Base64Url.decode_eq_some.mpr ⟨rfl, ?_, by omega⟩
  rw [length_encode_digest size]
  omega

/-! ## Assembled objects -/

/-- The base64url text of the sixty-four bytes of a signature. -/
theorem length_signature {signature : Bytes} (size : signature.length = 64) :
    (Base64.encode signature).length = 86 := by
  have := Base64.length_encode signature
  rw [size] at this
  simpa using this

/-- A text is not longer than its base64url. -/
theorem length_le_encode {bytes : Bytes} : bytes.length ≤ (Base64.encode bytes).length := by
  have length := Base64.length_encode bytes
  split at length <;> omega

theorem signedHeader_names (typ keyId : Bytes) :
    (signedHeader typ keyId).map Prod.fst = signedHeaderKeys := rfl

variable {kind : SigningKind} {typ keyId : Bytes} {payload : List (Bytes × JsonValue)}
  {keys : List Bytes} {input : SigningInput} {signature : Bytes}

/-- An object that is written can be assembled, and is opened from what is assembled. -/
theorem opened_of_writeSigned
    (matched : ∀ members, CompactJws.exactSigningHeader kind members bounds =
      (decide (members.length = 3) && CompactJws.keyIdHeader typ members.reverse bounds))
    (validKey : validKeyId keyId bounds = true) (names : (payload.map Prod.fst).Perm keys)
    (version : (ascii "v", .integer 1) ∈ payload)
    (long : 64 ≤ (Jcs.canon (.object payload)).length)
    (written : writeSigned kind (signedHeader typ keyId) payload bounds = some input)
    (size : signature.length = 64) (gate : Ed25519.signatureGate signature = true) :
    input.kind = kind ∧ ∃ compact opened,
      CompactJws.assemble input signature bounds = some compact ∧
      openSigned typ keys compact bounds = some opened ∧ opened.keyId = keyId ∧
      ClosedMap.ReadFrom payload opened.payload ∧ 64 ≤ bounds .decodedSegmentBytes ∧
      86 ≤ bounds .encodedSegmentBytes := by
  simp only [writeSigned, buildSigningInput, Option.bind_eq_bind, Option.bind_eq_some_iff,
    guard_eq_some, exists_const, Option.some.injEq] at written
  obtain ⟨headerBytes, writtenHeader, payloadBytes, writtenPayload, headerFits, payloadFits, header,
    readHeader, value, readPayload, ⟨headerSegment, payloadSegment, anchor, compactFits⟩, rfl⟩ :=
    written
  obtain ⟨headerMap, openedHeader, fromHeader⟩ :=
    openObject_of_encode writtenHeader readHeader (List.Perm.of_eq (signedHeader_names typ keyId))
  obtain ⟨payloadMap, openedPayload, fromPayload⟩ :=
    openObject_of_encode writtenPayload readPayload names
  have payloadLong : 64 ≤ payloadBytes.length := by
    obtain ⟨-, -, rfl⟩ := Jcs.encode_eq_some.mp writtenPayload
    exact long
  have encodedLong : 86 ≤ (Base64.encode payloadBytes).length := by
    have := Base64.length_encode payloadBytes
    split at this <;> omega
  have roomy : 64 ≤ bounds .decodedSegmentBytes := payloadLong.trans payloadFits
  have wide : 86 ≤ bounds .encodedSegmentBytes := encodedLong.trans payloadSegment
  have alg := fromHeader.string (ascii "alg") (ascii "EdDSA") (by simp [signedHeader])
  have typed := fromHeader.string (ascii "typ") typ (by simp [signedHeader])
  have kid := fromHeader.string (ascii "kid") keyId (by simp [signedHeader])
  have headerPositive : 0 < headerBytes.length := by
    obtain ⟨-, -, rfl⟩ := Jcs.encode_eq_some.mp writtenHeader
    rw [Jcs.canon_object, List.length_cons]
    exact Nat.succ_pos _
  have first : Base64Url.decode (Base64.encode headerBytes) bounds = some headerBytes :=
    Base64Url.decode_eq_some.mpr ⟨rfl, headerSegment, headerFits⟩
  have second : Base64Url.decode (Base64.encode payloadBytes) bounds = some payloadBytes :=
    Base64Url.decode_eq_some.mpr ⟨rfl, payloadSegment, payloadFits⟩
  have third : Base64Url.decode (Base64.encode signature) bounds = some signature :=
    Base64Url.decode_eq_some.mpr
      ⟨rfl, by rw [length_signature size]; exact wide, by rw [size]; exact roomy⟩
  let segments : CompactJws.Segments :=
    ⟨Base64.encode headerBytes, Base64.encode payloadBytes, Base64.encode signature⟩
  have length : segments.compact.length = segments.message.length + 1 + 86 := by
    rw [CompactJws.Segments.compact, List.length_append, List.length_cons, length_signature size]
  have scanned : CompactJws.scan segments.compact bounds = some segments := by
    refine CompactJws.scan_eq_some.mpr ⟨rfl, ⟨Base64.dot_notMem_encode _, ?_, headerSegment⟩,
      ⟨Base64.dot_notMem_encode _, Nat.lt_of_lt_of_le (by decide) encodedLong, payloadSegment⟩,
      ⟨Base64.dot_notMem_encode _, ?_, ?_⟩, by rw [length]; exact compactFits⟩
    · exact headerPositive.trans_le length_le_encode
    · rw [length_signature size]
      decide
    · rw [length_signature size]
      exact wide
  refine ⟨rfl, segments.compact, ⟨keyId, payloadMap, segments.message, signature⟩, ?_, ?_, rfl,
    fromPayload, roomy, wide⟩
  · have kindMatches : CompactJws.signingKindMatches kind (Base64.encode headerBytes) bounds =
        true := by
      obtain ⟨members, decoded, rfl⟩ := openObject_members openedHeader
      have count : members.length = 3 := by
        have := fromHeader.names.length_eq
        simpa [signedHeader] using this
      have bounded : 0 < keyId.length ∧ keyId.length ≤ bounds .kidBytes := by
        simp only [validKeyId, Bool.and_eq_true, decide_eq_true_eq] at validKey
        exact validKey.1
      simp [CompactJws.signingKindMatches, first, decoded, matched, count, CompactJws.keyIdHeader,
        alg, typed, kid, bounded]
    have fields : CompactJws.validSigningInput ⟨kind, Base64.encode headerBytes,
        Base64.encode payloadBytes, segments.message⟩ bounds = true := by
      simp only [CompactJws.validSigningInput, CompactJws.validSigningInputFields, kindMatches,
        second, Option.isSome_some, Bool.and_true, Bool.and_eq_true, decide_eq_true_eq, beq_iff_eq]
      exact ⟨⟨⟨⟨headerPositive.trans_le length_le_encode, by omega⟩, headerSegment⟩,
        payloadSegment⟩, rfl⟩
    have point : ascii "." = [0x2E] := rfl
    have whole : Base64.encode headerBytes ++ ascii "." ++ Base64.encode payloadBytes ++
        ascii "." ++
        Base64.encode signature = segments.compact := by
      simp [CompactJws.Segments.compact, CompactJws.Segments.message, segments, point]
    simp only [CompactJws.assemble, Bounds.coerce_toLimits, Option.bind_eq_bind, Option.bind_some,
      guard_bind_eq_some, whole, and_true]
    exact ⟨fields, ⟨size, by rw [size, Bounds.signatureBytes_eq]⟩, gate,
      by rw [length]; exact compactFits⟩
  · have bounded : 0 < segments.compact.length ∧ segments.compact.length ≤ bounds .anchorBytes := by
      rw [length]
      exact ⟨by omega, anchor⟩
    have one := fromPayload.integer (ascii "v") 1 version
    simp only [openSigned, bounded, scanned, segments, first, second, third, size,
      Bounds.signatureBytes_eq, openedHeader, openedPayload, alg, typed, kid, validKey, one,
      Option.bind_eq_bind, Option.bind_some, guard_true, Option.pure_def, and_self]

/-! ## Closed producers -/

variable {limits : Limits} {compact : Bytes}

/-- What is assembled under some limits is assembled under the bounds they stand for. -/
theorem assemble_of_coerce (coerced : Bounds.coerce limits = some bounds) :
    CompactJws.assemble input signature limits = CompactJws.assemble input signature bounds := by
  rw [CompactJws.assemble, CompactJws.assemble, coerced, Bounds.coerce_toLimits]

/-- An assembled signature has sixty-four bytes and passes the gate. -/
theorem signature_of_assemble (h : CompactJws.assemble input signature limits = some compact) :
    signature.length = 64 ∧ Ed25519.signatureGate signature = true := by
  simp only [CompactJws.assemble, Option.bind_eq_bind, Option.bind_eq_some_iff, guard_eq_some,
    exists_const] at h
  obtain ⟨_, -, -, ⟨size, -⟩, gate, -⟩ := h
  exact ⟨size, gate⟩

/-- A writer is closed at a signing input: the signatures that can be assembled are
those of sixty-four bytes that pass the gate, and what is assembled is decoded to the
fields. -/
def Closed {Decoded : Type} (assemble : SigningInput → Bytes → Limits → Option Bytes)
    (decode : Bytes → Limits → Option Decoded) (fields : Decoded) (limits : Limits)
    (input : SigningInput) : Prop :=
  ∀ signature, ((CompactJws.assemble input signature limits).isSome = true ↔
      signature.length = 64 ∧ Ed25519.signatureGate signature = true) ∧
    ∀ compact, CompactJws.assemble input signature limits = some compact →
      assemble input signature limits = some compact ∧ decode compact limits = some fields

/-- A codec that reads its fields from the opened payload is closed. -/
theorem closed_of_writeSigned {Parsed Decoded : Type} {parse : Bytes → Bounds → Option Parsed}
    {decode : Bytes → Limits → Option Decoded} {fields : Decoded}
    (coerced : Bounds.coerce limits = some bounds)
    (matched : ∀ members, CompactJws.exactSigningHeader kind members bounds =
      (decide (members.length = 3) && CompactJws.keyIdHeader typ members.reverse bounds))
    (validKey : validKeyId keyId bounds = true) (names : (payload.map Prod.fst).Perm keys)
    (version : (ascii "v", .integer 1) ∈ payload)
    (long : 64 ≤ (Jcs.canon (.object payload)).length)
    (written : writeSigned kind (signedHeader typ keyId) payload bounds = some input)
    (reads : ∀ compact opened, openSigned typ keys compact bounds = some opened →
      opened.keyId = keyId → ClosedMap.ReadFrom payload opened.payload →
      64 ≤ bounds .decodedSegmentBytes → 86 ≤ bounds .encodedSegmentBytes →
      (∃ parsed, parse compact bounds = some parsed) ∧ decode compact limits = some fields) :
    Closed (assembleSigned kind parse) decode fields limits input := by
  intro signature
  have opens := @opened_of_writeSigned _ _ _ _ _ keys _ signature matched validKey names version
    long
    written
  constructor
  · constructor
    · intro assembled
      obtain ⟨compact, found⟩ := Option.isSome_iff_exists.mp assembled
      exact signature_of_assemble found
    · rintro ⟨size, gate⟩
      obtain ⟨-, compact, _, assembled, -⟩ := opens size gate
      rw [assemble_of_coerce coerced, assembled]
      rfl
  · intro compact assembled
    obtain ⟨size, gate⟩ := signature_of_assemble assembled
    obtain ⟨same, found, opened, assembled', h, keyId, read, roomy, wide⟩ := opens size gate
    rw [assemble_of_coerce coerced, assembled', Option.some.injEq] at assembled
    subst assembled
    obtain ⟨⟨parsed, parses⟩, decodes⟩ := reads found opened h keyId read roomy wide
    refine ⟨?_, decodes⟩
    simp only [assembleSigned, same, assemble_of_coerce coerced, assembled', coerced, parses,
      guard_true, Option.bind_eq_bind, Option.bind_some, Option.pure_def]

end BoundedAuthority.V1
