import BoundedAuthority.V1.CompactJws
import BoundedAuthority.V1.RequestDigest
import BoundedAuthority.V1.Selector
import BoundedAuthority.V1.Uri
import BoundedAuthority.V1.Jwk
import BoundedAuthority.Wire.Information

/-!
# Tightening

Every ceiling is compared from above, so a reader or a writer with lower ceilings is
below the one with higher ceilings.
-/

namespace BoundedAuthority.V1

open Wire JsonValue

/-- Bounds that are nowhere higher. -/
def Bounds.Le (a b : Bounds) : Prop := ∀ key, a key ≤ b key

theorem Bounds.le_maximum (a : Bounds) : a.Le .maximum := a.tightens

variable {a b : Bounds} (le : a.Le b)

include le

/-! ## JSON -/

theorem Json.ceilings_le : (Json.ceilings a).Le (Json.ceilings b) where
  arrayItems := le .arrayItems
  objectMembers := le .objectMembers
  stringBytes := le .stringBytes
  keyBytes := min_le_min (le .keyBytes) (le .stringBytes)
  integerMagnitude := le .integerMagnitude
  floatMagnitude := le .floatMagnitude

theorem Json.LexemeWithin.mono {x : Lexeme} (h : LexemeWithin a x) : LexemeWithin b x where
  size := h.size.trans (le .numberLexemeBytes)
  magnitude := by
    have magnitude := h.magnitude
    unfold Lexeme.AtMost Decimal.AtMost at magnitude ⊢
    refine magnitude.trans (Nat.mul_le_mul_right _ ?_)
    split
    · exact le .floatMagnitude
    · exact le .integerMagnitude

theorem Json.decode_below (bytes : Bytes) : Below (Json.decode bytes a) (Json.decode bytes b) := by
  intro v h
  obtain ⟨size, t, document, accepts⟩ := Json.decode_eq_some.mp h
  refine Json.decode_eq_some.mpr ⟨size.trans (le .jsonBytes), t, document, ?_⟩
  exact
    { lexemes := fun x hx => (accepts.lexemes x hx).mono le
      denotes := accepts.denotes
      admits :=
        { within := accepts.admits.within.mono (Json.ceilings_le le)
          nodes := accepts.admits.nodes.trans (le .totalNodes)
          depth := accepts.admits.depth.trans (le .depth) } }

theorem Jcs.ceilings_le : (Jcs.ceilings a).Le (Jcs.ceilings b) where
  arrayItems := le .arrayItems
  objectMembers := le .objectMembers
  stringBytes := le .stringBytes
  keyBytes := le .keyBytes
  integerMagnitude := le .integerMagnitude
  floatMagnitude := le .floatMagnitude

theorem Jcs.encode_below (value : JsonValue) : Below (Jcs.encode value a) (Jcs.encode value b) := by
  intro out h
  obtain ⟨encodable, nodes, written⟩ := Jcs.encode_eq_some.mp h
  refine Jcs.encode_eq_some.mpr ⟨?_, nodes.trans (le .totalNodes), written⟩
  exact
    { within := encodable.within.mono (Jcs.ceilings_le le)
      depth := encodable.depth.trans (le .depth)
      size := encodable.size.trans (le .jcsBytes) }

theorem Base64Url.decode_below (segment : Bytes) :
    Below (Base64Url.decode segment a) (Base64Url.decode segment b) := by
  intro bytes h
  obtain ⟨canonical, encoded, decoded⟩ := Base64Url.decode_eq_some.mp h
  exact Base64Url.decode_eq_some.mpr ⟨canonical, encoded.trans (le .encodedSegmentBytes),
    decoded.trans (le .decodedSegmentBytes)⟩

/-! ## Fields -/

theorem validKeyId_mono {value : Bytes} (h : validKeyId value a = true) :
    validKeyId value b = true := by
  have := le .kidBytes
  simp only [validKeyId, Bool.and_eq_true, decide_eq_true_eq] at h ⊢
  exact ⟨⟨h.1.1, h.1.2.trans this⟩, h.2⟩

theorem validIdentifier_mono {otp : Otp} {value : Bytes} (h : validIdentifier otp value a = true) :
    validIdentifier otp value b = true := by
  have := le .identifierBytes
  simp only [validIdentifier, Bool.and_eq_true, decide_eq_true_eq] at h ⊢
  exact ⟨⟨⟨h.1.1.1, h.1.1.2.trans this⟩, h.1.2⟩, h.2⟩

theorem validTime_mono {value : Int} (h : validTime value a = true) :
    validTime value b = true := by
  have := le .integerMagnitude
  simp only [validTime, Bool.and_eq_true, decide_eq_true_eq] at h ⊢
  omega

theorem validOperation_mono {value : Bytes} (h : validOperation value a = true) :
    validOperation value b = true := by
  have := le .operationBytes
  simp only [validOperation, Bool.and_eq_true, decide_eq_true_eq] at h ⊢
  exact ⟨⟨h.1.1, h.1.2.trans this⟩, h.2⟩

theorem validMethod_mono {value : Bytes} (h : validMethod value a = true) :
    validMethod value b = true := by
  have := le .methodBytes
  simp only [validMethod, Bool.and_eq_true, decide_eq_true_eq] at h ⊢
  exact ⟨⟨h.1.1, h.1.2.trans this⟩, h.2⟩

theorem validNonce_mono {nonce : Bytes} (h : validNonce nonce a = true) :
    validNonce nonce b = true := by
  have := le .nonceBytes
  simp only [validNonce, Bool.and_eq_true, decide_eq_true_eq] at h ⊢
  exact ⟨⟨h.1.1, h.1.2.trans this⟩, h.2⟩

omit le in
theorem nonemptyBounded_mono {α : Type} {values : List α} {m n : Nat} (le : m ≤ n)
    (h : nonemptyBounded values m = true) : nonemptyBounded values n = true := by
  simp only [nonemptyBounded, Bool.and_eq_true, decide_eq_true_eq] at h ⊢
  exact ⟨h.1, h.2.trans le⟩

theorem validPath_mono {path : List Bytes} (h : validPath path a = true) :
    validPath path b = true := by
  have := le .keyBytes
  simp only [validPath, Bool.and_eq_true, decide_eq_true_eq, List.all_eq_true] at h ⊢
  exact ⟨nonemptyBounded_mono (le .pathSegments) h.1, fun member hm =>
    ⟨⟨(h.2 member hm).1.1, (h.2 member hm).1.2.trans this⟩, (h.2 member hm).2⟩⟩

omit le in
theorem strings_below (values : List JsonValue) {count count' size size' : Nat}
    (counts : count ≤ count')
    (sizes : size ≤ size') : Below (strings values count size) (strings values count' size') := by
  refine Below.guard (nonemptyBounded_mono counts) fun _ => Below.mapM fun value _ => ?_
  cases value with
  | string value =>
      exact Below.guard (fun h => ⟨h.1, h.2.trans sizes⟩) fun _ => Below.refl _
  | _ => exact Below.refl _

theorem decodeAudiences_below (otp : Otp) (value : Option JsonValue) :
    Below (decodeAudiences otp value a) (decodeAudiences otp value b) := by
  unfold decodeAudiences
  split
  · exact Below.guard (validIdentifier_mono le) fun _ => Below.refl _
  · refine Below.bind (strings_below _ (le .audiences) (le .identifierBytes)) fun audiences _ => ?_
    refine Below.guard (fun h => ?_) fun _ => Below.refl _
    exact List.all_eq_true.mpr fun x hx => validIdentifier_mono le (List.all_eq_true.mp h x hx)
  · exact Below.refl _

/-! ## Compact serializations, keys and URIs -/

theorem CompactJws.scan_below (compact : Bytes) :
    Below (CompactJws.scan compact a) (CompactJws.scan compact b) := by
  intro s h
  obtain ⟨same, header, payload, signature, size⟩ := CompactJws.scan_eq_some.mp h
  have segment : ∀ {x : Bytes}, CompactJws.Segment a x → CompactJws.Segment b x := fun h =>
    ⟨h.plain, h.nonempty, h.size.trans (le .encodedSegmentBytes)⟩
  exact CompactJws.scan_eq_some.mpr
    ⟨same, segment header, segment payload, segment signature, size.trans (le .compactBytes)⟩

theorem CompactJws.hash_below (otp : Otp) (compact : Bytes) :
    Below (CompactJws.hash otp compact a) (CompactJws.hash otp compact b) :=
  Below.bind (CompactJws.scan_below le compact) fun _ _ => Below.refl _

omit le in
theorem Jwk.encodePublic_below (publicKey : Bytes) :
    Below (Jwk.encodePublic publicKey a) (Jwk.encodePublic publicKey b) := by
  intro jwk h
  exact Jwk.encodePublic_eq_some.mpr (Jwk.encodePublic_eq_some.mp h)

theorem Jwk.decodePublic_below (jwk : Bytes) :
    Below (Jwk.decodePublic jwk a) (Jwk.decodePublic jwk b) := by
  simp only [Jwk.decodePublic, Bounds.coerce_toLimits, Bounds.publicKeyBytes_eq,
    Option.bind_eq_bind, Option.bind_some]
  refine Below.guard (fun h => h.trans (le .decodedSegmentBytes)) fun _ => ?_
  refine Below.bind (Json.decode_below le jwk) fun value _ => ?_
  cases value with
  | object members =>
      refine Below.bind (Below.refl _) fun x _ => ?_
      exact Below.bind (Base64Url.decode_below le x) fun _ _ => Below.refl _
  | _ => exact Below.refl _

theorem Jwk.thumbprintRaw_below (otp : Otp) (jwk : Bytes) :
    Below (Jwk.thumbprintRaw otp jwk a) (Jwk.thumbprintRaw otp jwk b) := by
  refine Below.bind (Below.bind (Jwk.decodePublic_below le jwk) fun publicKey _ => ?_) fun _ _ =>
    Below.refl _
  exact Jwk.encodePublic_below publicKey

theorem Jwk.publicKeyThumbprintRaw_below (otp : Otp) (publicKey : Bytes) :
    Below (Jwk.publicKeyThumbprintRaw otp publicKey a)
      (Jwk.publicKeyThumbprintRaw otp publicKey b) :=
  Below.bind (Jwk.encodePublic_below publicKey) fun jwk _ => Jwk.thumbprintRaw_below le otp jwk

theorem Uri.normalize_below (uri : Bytes) :
    Below (Uri.normalize uri a) (Uri.normalize uri b) := by
  simp only [Uri.normalize, Bounds.coerce_toLimits, Option.bind_eq_bind, Option.bind_some]
  refine Below.guard (fun h => h.trans (le .uriBytes)) fun _ => Below.guard id fun _ => ?_
  refine Below.bind (Below.refl _) fun parts _ => Below.bind (Below.refl _) fun authority _ => ?_
  refine Below.bind (Below.refl _) fun path _ => ?_
  exact Below.guard (fun h => h.trans (le .uriBytes)) fun _ => Below.refl _

/-! ## Requests and selectors -/

theorem RequestDigest.digestWith_below (otp : Otp) (head operation : Bytes)
    (arguments : JsonValue) :
    Below (RequestDigest.digestWith otp head operation arguments a)
      (RequestDigest.digestWith otp head operation arguments b) := by
  simp only [RequestDigest.digestWith, Bounds.coerce_toLimits, Option.bind_eq_bind,
    Option.bind_some]
  refine Below.guard (validOperation_mono le) fun _ => ?_
  exact Below.bind (Jcs.encode_below le _) fun _ _ => Below.refl _

theorem RequestDigest.digestRawWith_below (otp : Otp) (head operation : Bytes)
    (arguments : JsonValue) :
    Below (RequestDigest.digestRawWith otp head operation arguments a)
      (RequestDigest.digestRawWith otp head operation arguments b) :=
  Below.bind (RequestDigest.digestWith_below le otp head operation arguments) fun _ _ =>
    Below.refl _

namespace Selector

theorem encodes_mono {values : List JsonValue}
    (h : (values.all fun value => (Jcs.encode value a).isSome) = true) :
    (values.all fun value => (Jcs.encode value b).isSome) = true :=
  List.all_eq_true.mpr fun value hv =>
    (Jcs.encode_below le value).isSome (List.all_eq_true.mp h value hv)

theorem readPath_below (map : ClosedMap) : Below (readPath map a) (readPath map b) :=
  Below.bind (Below.refl _) fun values _ =>
    Below.bind (strings_below values (le .pathSegments) (le .keyBytes)) fun _ _ => Below.refl _

theorem readSelector_below (map : ClosedMap) : Below (readSelector map a) (readSelector map b) := by
  refine Below.bind (Below.refl _) fun kind _ => ?_
  split
  · exact Below.refl _
  split
  · refine Below.bind (Below.refl _) fun value _ => Below.bind (readPath_below le map) fun path _ =>
      ?_
    exact Below.bind (Jcs.encode_below le value) fun _ _ => Below.refl _
  split
  · refine Below.bind (Below.refl _) fun value _ => Below.bind (readPath_below le map) fun path _ =>
      ?_
    refine Below.guard (nonemptyBounded_mono (le .oneOfValues)) fun _ => ?_
    exact Below.guard (encodes_mono le) fun _ => Below.refl _
  · exact Below.refl _

theorem selector_below (value : JsonValue) : Below (selector value a) (selector value b) := by
  cases value with
  | object members =>
      exact Below.bind (Below.refl _) fun map _ => readSelector_below le map
  | _ => exact Below.refl _

theorem selects_mono {selector : Selector} {arguments : JsonValue}
    (h : selects selector arguments a = true) : selects selector arguments b = true := by
  cases selector with
  | all => rfl
  | equals path expected =>
      simp only [selects, validJson, Bool.and_eq_true] at h ⊢
      exact ⟨⟨validPath_mono le h.1.1, (Jcs.encode_below le expected).isSome h.1.2⟩, h.2⟩
  | oneOf path values =>
      simp only [selects, validJson, Bool.and_eq_true] at h ⊢
      exact ⟨⟨⟨validPath_mono le h.1.1.1, nonemptyBounded_mono (le .oneOfValues) h.1.1.2⟩,
        encodes_mono le h.1.2⟩, h.2⟩

end Selector

end BoundedAuthority.V1
