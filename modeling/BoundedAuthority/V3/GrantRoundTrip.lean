import BoundedAuthority.Runtime.GrantClosure
import BoundedAuthority.V3.HonestCredentials

/-!
# Grants of the third major come back

Every selector that is written is read from its normal form, the ranges among them, so a
grant of `lib/bounded_authority_protocol/v3/runtime.ex` is assembled with any canonical
signature and decoded to itself with its selectors in normal form (`grant_roundTrip`).
-/

namespace BoundedAuthority

open Wire JsonValue V1 BoundedAuthority.Runtime

/-! ## Selectors of the first major -/

namespace V1.Selector

theorem readPath_normal {members : List (Bytes × JsonValue)} {map : ClosedMap} {path : List Bytes}
    {bounds : Bounds} (readFrom : ClosedMap.ReadFrom members map)
    (member : (ascii "path", pathJson path) ∈ members) (valid : validPath path bounds = true) :
    readPath map bounds = some path := by
  have nonempty : path ≠ [] := by
    rintro rfl
    simp [validPath, nonemptyBounded] at valid
  simp only [readPath, readFrom.array (ascii "path") (path.map .string) member, Option.bind_eq_bind,
    Option.bind_some, V2.Selector.strings_path valid, guard_bind_eq_some]
  exact ⟨nonempty, trivial⟩

/-- A written selector has one of the closed sets of names. -/
theorem closedMapOneOf_normal (members : List (Bytes × JsonValue)) (keys : List Bytes)
    (listed : keys ∈ selectorKeys) (names : members.map Prod.fst = keys) (unique : keys.Nodup) :
    ∃ map, ClosedMap.closedMapOneOf ((Jcs.sortMembers members).map (Prod.map id Jcs.normal))
      selectorKeys = some map ∧ ClosedMap.ReadFrom members map := by
  obtain ⟨map, closed, readFrom⟩ := closedMap_normal members keys names unique
  obtain ⟨perm, same⟩ := ClosedMap.closedMap_eq_some.mp closed
  exact ⟨map, ClosedMap.closedMapOneOf_eq_some.mpr ⟨⟨keys, listed, perm⟩, same⟩, readFrom⟩

theorem readEquals_normal {members : List (Bytes × JsonValue)} {map : ClosedMap} {path : List Bytes}
    {value : JsonValue} {bytes : Bytes} (readFrom : ClosedMap.ReadFrom members map)
    (pathMember : (ascii "path", pathJson path) ∈ members)
    (valueMember : (ascii "value", value) ∈ members) (valid : validPath path .maximum = true)
    (encodes : Jcs.encode value Bounds.maximum = some bytes) :
    readEquals map .maximum = some (.equals path (Jcs.normal value)) := by
  obtain ⟨text, again⟩ := V2.Selector.encode_normal_isSome encodes
  simp only [readEquals, readFrom.lookup (ascii "value") value valueMember,
    readPath_normal readFrom pathMember valid, again, Option.bind_eq_bind, Option.bind_some]

theorem readOneOf_normal {members : List (Bytes × JsonValue)} {map : ClosedMap} {path : List Bytes}
    {values : List JsonValue} (readFrom : ClosedMap.ReadFrom members map)
    (pathMember : (ascii "path", pathJson path) ∈ members)
    (valuesMember : (ascii "values", .array values) ∈ members)
    (valid : validPath path .maximum = true)
    (count : nonemptyBounded values (Bounds.maximum .oneOfValues) = true)
    (json : (values.all fun value => (Jcs.encode value Bounds.maximum).isSome) = true) :
    readOneOf map .maximum = some (.oneOf path (values.map Jcs.normal)) := by
  have bounded : nonemptyBounded (values.map Jcs.normal) (Bounds.maximum .oneOfValues) = true := by
    rwa [nonemptyBounded, List.isEmpty_map, List.length_map]
  have each : ((values.map Jcs.normal).all fun value =>
      (Jcs.encode value Bounds.maximum).isSome) = true := by
    rw [List.all_map, List.all_eq_true]
    exact fun value member => validJson_normal (List.all_eq_true.mp json value member)
  simp only [readOneOf, readFrom.array (ascii "values") values valuesMember,
    readPath_normal readFrom pathMember valid, Option.bind_eq_bind, Option.bind_some,
    guard_bind_eq_some]
  exact ⟨bounded, each, trivial⟩

/-- A selector that is written is read from its normal form. -/
theorem selector_normal {original : Selector} {encoded : JsonValue}
    (written : encodeSelector original .maximum = some encoded) :
    selector (Jcs.normal encoded) .maximum = some original.readBack := by
  have equalsAll : ascii "equals" ≠ ascii "all" := by decide
  have oneOfAll : ascii "one_of" ≠ ascii "all" := by decide
  have oneOfEquals : ascii "one_of" ≠ ascii "equals" := by decide
  cases original with
  | all =>
    obtain rfl := Option.some.inj written
    obtain ⟨map, closed, readFrom⟩ := closedMapOneOf_normal [(ascii "kind", .string (ascii "all"))]
      [ascii "kind"] (by simp [selectorKeys]) rfl (by decide)
    rw [Jcs.normal_object]
    simp only [selector, closed, readSelector, readFrom.string (ascii "kind") (ascii "all")
      (by simp), Option.bind_eq_bind, Option.bind_some, if_true]
    rfl
  | equals path value =>
    simp only [encodeSelector, Option.bind_eq_bind, Option.bind_eq_some_iff, guard_eq_some,
      exists_const, Option.some.injEq] at written
    obtain ⟨valid, bytes, encodes, rfl⟩ := written
    obtain ⟨map, closed, readFrom⟩ :=
      closedMapOneOf_normal [(ascii "kind", .string (ascii "equals")),
      (ascii "path", pathJson path), (ascii "value", value)]
      [ascii "kind", ascii "path", ascii "value"] (by simp [selectorKeys]) rfl (by decide)
    rw [Jcs.normal_object]
    simp only [selector, closed, readSelector, readFrom.string (ascii "kind") (ascii "equals")
      (by simp), Option.bind_eq_bind, Option.bind_some, if_neg equalsAll, if_true]
    exact readEquals_normal readFrom (by simp) (by simp) valid encodes
  | oneOf path values =>
    simp only [encodeSelector, Option.bind_eq_bind, guard_bind_eq_some, Option.some.injEq]
      at written
    obtain ⟨valid, count, json, rfl⟩ := written
    obtain ⟨map, closed, readFrom⟩ :=
      closedMapOneOf_normal [(ascii "kind", .string (ascii "one_of")),
      (ascii "path", pathJson path), (ascii "values", .array values)]
      [ascii "kind", ascii "path", ascii "values"] (by simp [selectorKeys]) rfl (by decide)
    rw [Jcs.normal_object]
    simp only [selector, closed, readSelector, readFrom.string (ascii "kind") (ascii "one_of")
      (by simp), Option.bind_eq_bind, Option.bind_some, if_neg oneOfAll, if_neg oneOfEquals,
      if_true]
    exact readOneOf_normal readFrom (by simp) (by simp) valid count json

end V1.Selector

/-! ## Selectors with ranges -/

/-- A selector that is written is read from its normal form. -/
theorem V2.Selector.selector_normal {original : V2.Selector} {encoded : JsonValue}
    (written : V2.Selector.encodeSelector original .maximum = some encoded) :
    V2.Selector.selector (Jcs.normal encoded) .maximum = some original.readBack := by
  cases original with
  | shared original =>
    have found := V1.Selector.selector_normal written
    obtain ⟨members, kind, rfl, unique, member, notLte, notGte⟩ := kind_of_shared written
    rw [Jcs.normal_object] at found ⊢
    simp only [V1.Selector.selector, Option.bind_eq_bind, Option.bind_eq_some_iff] at found
    obtain ⟨map, closed, found⟩ := found
    have readFrom : ClosedMap.ReadFrom members map := ⟨unique, ClosedMap.closedMapOneOf_eq closed⟩
    simp only [selector, closed, readFrom.string (ascii "kind") kind member, found, if_neg notLte,
      if_neg notGte, Option.bind_eq_bind, Option.bind_some, Option.map_some]
    rfl
  | lte path bound => exact selector_range (.inl ⟨rfl, rfl⟩) written
  | gte path bound => exact selector_range (.inr ⟨rfl, rfl⟩) written

/-! ## The third major -/

namespace V3.Runtime

variable {otp : Otp} {ecdsa : Ecdsa}

/-- The header the producer of grants writes is the one the assembler expects. -/
theorem signingKindMatches_written {keyId bytes : Bytes} (valid : validKeyId keyId .maximum = true)
    (written : Jcs.encode (.object (grantHeader (major otp ecdsa) keyId)) Bounds.maximum =
      some bytes)
    (fits : (Base64.encode bytes).length ≤ Bounds.maximum .encodedSegmentBytes) :
    CompactJws.signingKindMatches .grant (Base64.encode bytes) .maximum = true := by
  obtain ⟨map, closed, readFrom⟩ := closedMap_normal (grantHeader (major otp ecdsa) keyId)
    grantHeaderKeys rfl (by decide)
  obtain rfl := ClosedMap.closedMap_eq closed
  have count : ((Jcs.sortMembers (grantHeader (major otp ecdsa) keyId)).map
      (Prod.map id Jcs.normal)).length = 3 := by
    rw [List.length_map, (Jcs.sortMembers_perm _).length_eq]
    rfl
  have kid : 0 < keyId.length ∧ keyId.length ≤ Bounds.maximum .kidBytes := by
    simp only [validKeyId, Bool.and_eq_true, decide_eq_true_eq] at valid
    exact valid.1
  simp only [CompactJws.signingKindMatches, decode_segment fits, Option.bind_some,
    decode_written written, CompactJws.exactSigningHeader, CompactJws.keyIdHeader, count,
    readFrom.string (ascii "alg") (ascii "ES256") (by simp [grantHeader, major]),
    readFrom.string (ascii "typ") (ascii "ba+cap") (by simp [grantHeader]),
    readFrom.string (ascii "kid") keyId (by simp [grantHeader]), Bool.and_eq_true,
    decide_eq_true_eq]
  exact ⟨trivial, ⟨trivial, trivial⟩, kid⟩

/-- The assembler of P-256 takes what the producer of grants returns. -/
theorem assemble_of_grantSigningInput {grant : Grant V2.Selector} {input : SigningInput}
    {signature : Bytes} (signed : grantSigningInput otp ecdsa grant [] = some input)
    (size : signature.length = 64) :
    CompactJws.assemble input signature Bounds.maximum = some (joined input signature) := by
  simp only [grantSigningInput, BoundedAuthority.Runtime.grantSigningInput, Bounds.coerce_nil,
    Option.bind_eq_bind, Option.bind_some, Option.bind_eq_some_iff, Prod.exists] at signed
  obtain ⟨header, payload, json, protectedBytes, writtenHeader, payloadBytes, writtenPayload,
    signed⟩ := signed
  simp only [grantJson, Option.bind_eq_bind, guard_eq_some, Option.bind_eq_some_iff, exists_const,
    Option.some.injEq, Prod.mk.injEq] at json
  obtain ⟨keyId, -, -, -, -, -, -, _, -, rfl, rfl⟩ := json
  simp only [signingInput, Option.bind_eq_bind, guard_bind_eq_some, Option.some.injEq] at signed
  obtain ⟨⟨headerFits, payloadFits, compactFits⟩, rfl⟩ := signed
  have first := segment_encode (written_ne_nil writtenHeader) headerFits
  have second := segment_encode (written_ne_nil writtenPayload) payloadFits
  have valid : CompactJws.validSigningInput ⟨.grant, Base64.encode protectedBytes,
      Base64.encode payloadBytes,
      Base64.encode protectedBytes ++ ascii "." ++ Base64.encode payloadBytes⟩ .maximum = true := by
    simp only [CompactJws.validSigningInput, V1.CompactJws.validSigningInputFields,
      signingKindMatches_written keyId writtenHeader headerFits, decode_segment payloadFits,
      Option.isSome_some, Bool.and_eq_true, decide_eq_true_eq, beq_self_eq_true]
    exact ⟨⟨⟨⟨⟨⟨first.nonempty, second.nonempty⟩, headerFits⟩, payloadFits⟩, trivial⟩, trivial⟩,
      trivial⟩
  have room : (joined ⟨.grant, Base64.encode protectedBytes, Base64.encode payloadBytes,
      Base64.encode protectedBytes ++ ascii "." ++ Base64.encode payloadBytes⟩ signature).length ≤
        Bounds.maximum .compactBytes := by
    rw [joined, List.length_append, List.length_append, length_signature size]
    exact compactFits
  simp only [CompactJws.assemble, Bounds.coerce_toLimits, valid, Option.bind_eq_bind,
    Option.bind_some, guard_bind_eq_some]
  exact ⟨trivial, ⟨size, size.le⟩, room, rfl⟩

/-- **Grants come back.**  A grant the producer of the third major writes is assembled with
any canonical signature and decoded to the grant itself, each selector in its place with
its values in normal form: the members of an object in the order of their UTF-16 names and
every whole float an integer. -/
theorem grant_roundTrip {grant : Grant V2.Selector} {input : SigningInput} {signature : Bytes}
    (signed : grantSigningInput otp ecdsa grant [] = some input)
    (canonical : Es256.canonicalSignature signature = true) :
    ∃ compact, assembleCompact otp ecdsa input signature [] = some compact ∧
      decodeGrant otp ecdsa compact [] =
        some
          { version := 3
            keyId := grant.keyId
            issuer := grant.issuer
            grantId := grant.grantId
            audiences := grant.audiences
            issuedAt := grant.issuedAt
            notBefore := grant.notBefore
            expiresAt := grant.expiresAt
            holderThumbprint := grant.holderThumbprint
            operations := grant.operations.map fun operation =>
              ⟨operation.name, operation.selectors.map V2.Selector.readBack⟩
            verification := .notEvaluated } := by
  have size : signature.length = 64 := by
    rw [Es256.canonicalSignature] at canonical
    split at canonical
    next size => exact size
    next => cases canonical
  have parsed := parseGrant_joined (M := major otp ecdsa)
    (fun _ _ => V2.Selector.selector_normal) signed size
  have kind : input.kind = .grant := kind_of_grantSigningInput signed
  have standard : (.grant : SigningKind) ∈ standardKinds := by decide
  have limits : parseGrant (major otp ecdsa) otp (joined input signature) [] =
      parseGrant (major otp ecdsa) otp (joined input signature) Bounds.maximum := by
    rw [parseGrant, parseGrant, Bounds.coerce_nil, Bounds.coerce_toLimits]
  refine ⟨joined input signature, ?_, ?_⟩
  · simp only [assembleCompact, Bounds.coerce_nil, kind, assemble_of_grantSigningInput signed size,
      validateAssembledCompact, parsed, Option.isSome_some, Option.bind_eq_bind, Option.bind_some,
      guard_bind_eq_some]
    exact ⟨standard, canonical, trivial, trivial⟩
  · rw [decodeGrant, BoundedAuthority.Runtime.decodeGrant, limits, parsed]
    rfl

/-- The sample grant, with its ranges. -/
theorem grant_roundTrip_sample :
    ∃ compact, assembleCompact Sample.platform Sample.backend Sample.grantInput
        Sample.grantSignature [] = some compact ∧
      decodeGrant Sample.platform Sample.backend compact [] =
        some
          { version := 3
            keyId := Sample.grant.keyId
            issuer := Sample.grant.issuer
            grantId := Sample.grant.grantId
            audiences := Sample.grant.audiences
            issuedAt := Sample.grant.issuedAt
            notBefore := Sample.grant.notBefore
            expiresAt := Sample.grant.expiresAt
            holderThumbprint := Sample.grant.holderThumbprint
            operations := Sample.grant.operations.map fun operation =>
              ⟨operation.name, operation.selectors.map V2.Selector.readBack⟩
            verification := .notEvaluated } :=
  grant_roundTrip (by decide +kernel) (by decide +kernel)

end V3.Runtime

end BoundedAuthority
