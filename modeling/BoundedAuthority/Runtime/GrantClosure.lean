import BoundedAuthority.Runtime.RoundTrip
import BoundedAuthority.V1.SignedObject

/-!
# Grants are closed under their producer

What a producer writes as a grant is accepted by the decoder of the same major under any
signature of the right width: every check of the decoder follows from one of the producer
(`parseGrant_joined`).  The major has to bring one thing for this, that each of its
selectors is read from the normal form of what it is written as.
-/

namespace BoundedAuthority.Runtime

open Wire JsonValue V1

/-! ## Written objects -/

/-- A written object is closed under its own names. -/
theorem closedMap_normal (members : List (Bytes × JsonValue)) (keys : List Bytes)
    (names : members.map Prod.fst = keys) (unique : keys.Nodup) :
    ∃ map, ClosedMap.closedMap ((Jcs.sortMembers members).map (Prod.map id Jcs.normal)) keys =
      some map ∧ ClosedMap.ReadFrom members map := by
  have perm :
      (((Jcs.sortMembers members).map (Prod.map id Jcs.normal)).map Prod.fst).Perm keys := by
    rw [List.map_map, ← names]
    exact (Jcs.sortMembers_perm members).map Prod.fst
  refine ⟨_, ClosedMap.closedMap_eq_some.mpr ⟨perm, rfl⟩, ?_, rfl⟩
  rw [names]
  exact unique

/-- A written object is decoded with its members in their normal form. -/
theorem decode_written {members : List (Bytes × JsonValue)} {bytes : Bytes}
    (written : Jcs.encode (.object members) Bounds.maximum = some bytes) :
    Json.decode bytes Bounds.maximum =
      some (.object ((Jcs.sortMembers members).map (Prod.map id Jcs.normal))) := by
  obtain ⟨encodable, nodes, rfl⟩ := Jcs.encode_eq_some.mp written
  rw [Jcs.decode_canon encodable nodes, Jcs.normal_object]

theorem written_ne_nil {members : List (Bytes × JsonValue)} {bytes : Bytes}
    (written : Jcs.encode (.object members) Bounds.maximum = some bytes) : bytes ≠ [] := by
  obtain ⟨-, -, rfl⟩ := Jcs.encode_eq_some.mp written
  rw [Jcs.canon_object]
  exact List.cons_ne_nil _ _

/-! ## Segments -/

theorem segment_encode {bytes : Bytes} (nonempty : bytes ≠ [])
    (fits : (Base64.encode bytes).length ≤ Bounds.maximum .encodedSegmentBytes) :
    CompactJws.Segment Bounds.maximum (Base64.encode bytes) where
  plain := Base64.dot_notMem_encode bytes
  nonempty := List.length_pos_iff.mpr fun empty => nonempty (Base64.encode_eq_nil.mp empty)
  size := fits

/-- A segment that fits holds no more than may be decoded. -/
theorem decode_segment {bytes : Bytes}
    (fits : (Base64.encode bytes).length ≤ Bounds.maximum .encodedSegmentBytes) :
    Base64Url.decode (Base64.encode bytes) Bounds.maximum = some bytes := by
  refine Base64Url.decode_eq_some.mpr ⟨rfl, fits, ?_⟩
  have length := Base64.length_encode bytes
  have encoded : Bounds.maximum .encodedSegmentBytes = 32768 := rfl
  have decoded : Bounds.maximum .decodedSegmentBytes = 24576 := rfl
  split at length <;> omega

/-- An assembled serialization is opened. -/
theorem openCompact_joined {kind : SigningKind} {header payload : List (Bytes × JsonValue)}
    {protectedBytes payloadBytes signature : Bytes} {input : SigningInput}
    (writtenHeader : Jcs.encode (.object header) Bounds.maximum = some protectedBytes)
    (writtenPayload : Jcs.encode (.object payload) Bounds.maximum = some payloadBytes)
    (signed : signingInput kind protectedBytes payloadBytes .maximum = some input)
    (size : signature.length = 64) :
    openCompact (joined input signature) Bounds.maximum =
      some ⟨(Jcs.sortMembers header).map (Prod.map id Jcs.normal),
        (Jcs.sortMembers payload).map (Prod.map id Jcs.normal), signature, input.message⟩ := by
  simp only [signingInput, Option.bind_eq_bind, guard_bind_eq_some, Option.some.injEq] at signed
  obtain ⟨⟨headerFits, payloadFits, compactFits⟩, rfl⟩ := signed
  have signatureFits : (Base64.encode signature).length ≤ Bounds.maximum .encodedSegmentBytes := by
    rw [length_signature size]
    decide
  have nonempty : signature ≠ [] := List.ne_nil_of_length_pos (by omega)
  have whole : joined ⟨kind, Base64.encode protectedBytes, Base64.encode payloadBytes,
      Base64.encode protectedBytes ++ ascii "." ++ Base64.encode payloadBytes⟩ signature =
        CompactJws.Segments.compact ⟨Base64.encode protectedBytes, Base64.encode payloadBytes,
          Base64.encode signature⟩ := by
    simp [joined, CompactJws.Segments.compact, CompactJws.Segments.message, ascii]
  have room : (CompactJws.Segments.compact ⟨Base64.encode protectedBytes,
      Base64.encode payloadBytes, Base64.encode signature⟩).length ≤
        Bounds.maximum .compactBytes := by
    rw [CompactJws.Segments.compact, List.length_append, List.length_cons,
      length_signature size]
    exact compactFits
  rw [whole]
  refine openCompact_eq_some.mpr ⟨_, protectedBytes, payloadBytes,
    CompactJws.scan_eq_some.mpr ⟨rfl, ?_⟩, decode_segment headerFits, decode_segment payloadFits,
    decode_segment signatureFits, size, decode_written writtenHeader, decode_written writtenPayload,
    rfl⟩
  exact ⟨segment_encode (written_ne_nil writtenHeader) headerFits,
    segment_encode (written_ne_nil writtenPayload) payloadFits,
    segment_encode nonempty signatureFits, room⟩

/-! ## Lists -/

/-- What is written element by element is read element by element. -/
theorem mapM_normal {α β γ : Type} {f : α → Option β} {g : β → Option γ} {n : β → β} {r : α → γ}
    (each : ∀ a b, f a = some b → g (n b) = some (r a)) {as : List α} {bs : List β}
    (written : as.mapM f = some bs) : (bs.map n).mapM g = some (as.map r) := by
  refine mapM_eq_some.mpr (List.forall₂_map_left_iff.mpr (List.forall₂_map_right_iff.mpr ?_))
  exact ((mapM_eq_some.mp written).imp fun a b => each a b).flip

theorem nonemptyBounded_normal {α β : Type} {f : α → Option β} {n : β → β} {as : List α}
    {bs : List β} {count : Nat} (bounded : nonemptyBounded as count = true)
    (written : as.mapM f = some bs) : nonemptyBounded (bs.map n) count = true := by
  have length := (mapM_eq_some.mp written).length_eq
  simp only [nonemptyBounded, Bool.and_eq_true, Bool.not_eq_true', List.isEmpty_eq_false_iff,
    decide_eq_true_eq, ne_eq, ← List.length_eq_zero_iff, List.length_map] at bounded ⊢
  omega

variable {σ : Type} {M : Major σ} {otp : Otp} {readBack : σ → σ}

/-- The audiences of a grant are read as they are. -/
theorem decodeAudiences_normal {audiences : List Bytes} {bounds : Bounds}
    (valid : validStringList otp audiences (bounds .audiences) (bounds .identifierBytes) = true) :
    decodeAudiences otp (some (Jcs.normal (.array (audiences.map .string)))) bounds =
      some audiences := by
  simp only [validStringList, Bool.and_eq_true, List.all_eq_true, decide_eq_true_eq] at valid
  obtain ⟨count, each⟩ := valid
  have read : strings ((audiences.map JsonValue.string).map Jcs.normal) (bounds .audiences)
      (bounds .identifierBytes) = some audiences := by
    rw [List.map_map, strings, Option.bind_eq_bind, guard_bind_eq_some]
    refine ⟨by rwa [nonemptyBounded, List.isEmpty_map, List.length_map], ?_⟩
    refine mapM_eq_some.mpr (List.forall₂_map_left_iff.mpr
      (List.forall₂_same.mpr fun audience member => ?_))
    obtain ⟨⟨⟨positive, size⟩, utf8⟩, -⟩ := each audience member
    simp only [Function.comp_apply, Jcs.normal, Option.bind_eq_bind, guard_bind_eq_some]
    exact ⟨⟨positive, size⟩, utf8, trivial⟩
  have identifiers :
      (audiences.all fun audience => validIdentifier otp audience bounds) = true := by
    refine List.all_eq_true.mpr fun audience member => ?_
    simp only [validIdentifier, Bool.and_eq_true, decide_eq_true_eq]
    exact each audience member
  rw [Jcs.normal_array]
  simp only [decodeAudiences, read, Option.bind_eq_bind, Option.bind_some, guard_bind_eq_some]
  exact ⟨identifiers, trivial⟩

/-- A digest is read from its text. -/
theorem digestMember_normal {members : List (Bytes × JsonValue)} {map : ClosedMap}
    {key digest : Bytes}
    (readFrom : ClosedMap.ReadFrom members map)
    (member : (key, .string (Base64.encode digest)) ∈ members) (size : digest.length = 32) :
    digestMember map key .maximum = some digest := by
  have decoded : Base64Url.decode (Base64.encode digest) Bounds.maximum = some digest := by
    refine decode_segment ?_
    rw [length_encode_digest size]
    decide
  simp only [digestMember, readFrom.string _ _ member, decoded, Option.bind_eq_bind,
    Option.bind_some, guard_bind_eq_some]
  exact ⟨size, trivial⟩

/-! ## Grants -/

section

variable (reads : ∀ selector encoded, M.encodeSelector selector .maximum = some encoded →
  M.selector (Jcs.normal encoded) .maximum = some (readBack selector))

include reads

theorem operation_normal {original : Operation σ} {encoded : JsonValue}
    (written : encodeOperation M original .maximum = some encoded) :
    operation M (Jcs.normal encoded) .maximum = some (original.readBack readBack) := by
  simp only [encodeOperation, Option.bind_eq_bind, Option.bind_eq_some_iff, guard_eq_some,
    exists_const, Option.some.injEq] at written
  obtain ⟨name, count, encodedSelectors, selectors, rfl⟩ := written
  obtain ⟨map, closed, readFrom⟩ := closedMap_normal [(ascii "name", .string original.name),
    (ascii "selectors", .array encodedSelectors)] [ascii "name", ascii "selectors"] rfl
    (by decide)
  have read : (encodedSelectors.map Jcs.normal).mapM (fun value => M.selector value .maximum) =
      some (original.selectors.map readBack) := mapM_normal reads selectors
  rw [Jcs.normal_object]
  simp only [operation, closed, readFrom.string (ascii "name") original.name (by simp),
    readFrom.array (ascii "selectors") encodedSelectors (by simp), read, Option.bind_eq_bind,
    Option.bind_some, guard_bind_eq_some]
  exact ⟨name, nonemptyBounded_normal count selectors, rfl⟩

theorem operations_normal {originals : List (Operation σ)} {encoded : List JsonValue}
    (written : encodeOperations M originals .maximum = some encoded) :
    operations M (encoded.map Jcs.normal) .maximum =
      some (originals.map (Operation.readBack readBack)) := by
  simp only [encodeOperations, Option.bind_eq_bind, guard_bind_eq_some] at written
  obtain ⟨count, -, each⟩ := written
  simp only [operations, Option.bind_eq_bind, guard_bind_eq_some]
  exact ⟨nonemptyBounded_normal count each,
    mapM_normal (fun _ _ => operation_normal reads) each⟩

/-- A grant that is written is parsed under any signature of the right width. -/
theorem parseGrant_joined {grant : Grant σ} {input : SigningInput} {signature : Bytes}
    (signed : grantSigningInput M otp grant [] = some input) (size : signature.length = 64) :
    parseGrant M otp (joined input signature) Bounds.maximum =
      some ⟨grant.decoded M readBack, signature, input.message⟩ := by
  simp only [grantSigningInput, Bounds.coerce_nil, Option.bind_eq_bind, Option.bind_some,
    Option.bind_eq_some_iff, Prod.exists] at signed
  obtain ⟨header, payload, json, protectedBytes, writtenHeader, payloadBytes, writtenPayload,
    signed⟩ := signed
  simp only [grantJson, Option.bind_eq_bind, guard_eq_some, Option.bind_eq_some_iff, exists_const,
    Option.some.injEq, Prod.mk.injEq] at json
  obtain ⟨keyId, issuer, grantId, audiences, distinct, coherent, digest, operationValues, written,
    rfl, rfl⟩ := json
  obtain ⟨headerMap, closedHeader, header⟩ := closedMap_normal (grantHeader M grant.keyId)
    grantHeaderKeys rfl (by decide)
  obtain ⟨payloadMap, closedPayload, payload⟩ :=
    closedMap_normal (grantPayload M grant operationValues)
    grantPayloadKeys rfl (by decide)
  obtain ⟨nested, foundNested, readNested⟩ := payload.object (ascii "cnf")
    [(ascii "jkt", .string (Base64.encode grant.holderThumbprint))] (by simp [grantPayload])
      (by simp)
  have closedNested : ClosedMap.closedMap nested [ascii "jkt"] = some nested.reverse := by
    refine ClosedMap.closedMap_eq_some.mpr ⟨?_, rfl⟩
    exact ((List.reverse_perm nested).symm.map Prod.fst).trans readNested.names
  have names : unique ((grant.operations.map (Operation.readBack readBack)).map Operation.name) =
      true := by
    simp only [encodeOperations, Option.bind_eq_bind, guard_bind_eq_some] at written
    rw [List.map_map]
    exact written.2.1
  refine (parseGrant_eq_some M otp).mpr ⟨_, headerMap, payloadMap,
    openCompact_joined writtenHeader writtenPayload signed size, closedHeader, closedPayload, ?_,
    rfl, rfl⟩
  exact
    { alg := header.string (ascii "alg") M.alg (by simp [grantHeader])
      typ := header.string (ascii "typ") (ascii "ba+cap") (by simp [grantHeader])
      kid := header.string (ascii "kid") grant.keyId (by simp [grantHeader])
      validKid := keyId
      v := payload.integer (ascii "v") M.version (by simp [grantPayload])
      iss := payload.string (ascii "iss") grant.issuer (by simp [grantPayload])
      validIss := issuer
      jti := payload.string (ascii "jti") grant.grantId (by simp [grantPayload])
      validJti := grantId
      aud := by
        rw [payload.lookup (ascii "aud") (.array (grant.audiences.map .string))
          (by simp [grantPayload])]
        exact decodeAudiences_normal audiences
      uniqueAud := distinct
      iat := payload.integer (ascii "iat") grant.issuedAt (by simp [grantPayload])
      nbf := payload.integer (ascii "nbf") grant.notBefore (by simp [grantPayload])
      exp := payload.integer (ascii "exp") grant.expiresAt (by simp [grantPayload])
      coherent := coherent
      cnf := ⟨nested, _, foundNested, closedNested, digestMember_normal readNested
        (List.mem_singleton_self _) digest⟩
      operations := ⟨_, payload.array (ascii "operations") operationValues (by simp [grantPayload]),
        operations_normal reads written⟩
      uniqueNames := names
      version := rfl
      verification := rfl }

end

end BoundedAuthority.Runtime
