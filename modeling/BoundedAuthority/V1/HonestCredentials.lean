import BoundedAuthority.Runtime.Honest
import BoundedAuthority.V1.HolderBinding

/-!
# Honest credentials

What the first major's producers write is read back with the selectors in their normal
form, so an envelope of a well made grant and a well made proof stands or falls with the
operation it names (`honest_accepted`).
-/

namespace BoundedAuthority.V1

open Wire JsonValue BoundedAuthority.Runtime

/-! ## Selectors -/

namespace Selector

/-- A selector as it comes back from canonical JSON. -/
def readBack : Selector → Selector
  | .all => .all
  | .equals path value => .equals path (Jcs.normal value)
  | .oneOf path values => .oneOf path (values.map Jcs.normal)

/-- The arguments have what the selector asks for. -/
def Selects (arguments : JsonValue) : Selector → Prop
  | .all => True
  | .equals path expected =>
      ∃ actual, traverse arguments path = some actual ∧ semanticEqual actual expected = true
  | .oneOf path values =>
      ∃ actual, traverse arguments path = some actual ∧
        ∃ value ∈ values, semanticEqual actual value = true

/-- The object of a selector is read from its own members. -/
theorem readFrom_of_selector {members : List (Bytes × JsonValue)} {read : Selector}
    {bounds : Bounds}
    (h : selector (Jcs.normal (.object members)) bounds = some read)
    (unique : (members.map Prod.fst).Nodup) :
    ∃ map, ClosedMap.ReadFrom members map ∧ readSelector map bounds = some read := by
  rw [Jcs.normal_object] at h
  obtain ⟨map, closed, found⟩ := Option.bind_eq_some_iff.mp h
  exact ⟨map, ⟨unique, ClosedMap.closedMapOneOf_eq closed⟩, found⟩

theorem eq_of_readPath {members : List (Bytes × JsonValue)} {map : ClosedMap} {read : List Bytes}
    {bounds : Bounds} (readFrom : ClosedMap.ReadFrom members map) (path : List Bytes)
    (member : (ascii "path", pathJson path) ∈ members) (h : readPath map bounds = some read) :
    read = path := by
  simp only [readPath, readFrom.array (ascii "path") _ member, Option.bind_eq_bind,
    Option.bind_some, Option.bind_eq_some_iff, guard_eq_some, exists_const, Option.some.injEq] at h
  obtain ⟨_, found, -, rfl⟩ := h
  exact eq_of_strings found

/-- A selector that is written and read is the selector in its normal form. -/
theorem eq_readBack {original read : Selector} {encoded : JsonValue} {bounds : Bounds}
    (written : encodeSelector original bounds = some encoded)
    (h : selector (Jcs.normal encoded) bounds = some read) : read = original.readBack := by
  cases original with
  | all =>
      obtain rfl := Option.some.inj written
      obtain ⟨map, readFrom, found⟩ :=
        readFrom_of_selector h (show [ascii "kind"].Nodup by decide)
      simp only [readSelector, readFrom.string (ascii "kind") (ascii "all") (by simp),
        Option.bind_eq_bind, Option.bind_some, if_true, Option.some.injEq] at found
      exact found.symm
  | equals path value =>
      simp only [encodeSelector, Option.bind_eq_bind, Option.bind_eq_some_iff, guard_eq_some,
        exists_const, Option.some.injEq] at written
      obtain ⟨-, -, -, rfl⟩ := written
      obtain ⟨map, readFrom, found⟩ := readFrom_of_selector h
        (show [ascii "kind", ascii "path", ascii "value"].Nodup by decide)
      have different : ascii "equals" ≠ ascii "all" := by decide
      simp only [readSelector, readFrom.string (ascii "kind") (ascii "equals") (by simp),
        Option.bind_eq_bind, Option.bind_some, if_neg different, if_true, readEquals,
        readFrom.lookup (ascii "value") value (by simp), Option.bind_eq_some_iff,
        Option.some.injEq] at found
      obtain ⟨path', readPath, -, -, rfl⟩ := found
      rw [eq_of_readPath readFrom path (by simp) readPath, readBack]
  | oneOf path values =>
      simp only [encodeSelector, Option.bind_eq_bind, guard_bind_eq_some, Option.some.injEq]
        at written
      obtain ⟨-, -, -, rfl⟩ := written
      obtain ⟨map, readFrom, found⟩ := readFrom_of_selector h
        (show [ascii "kind", ascii "path", ascii "values"].Nodup by decide)
      have notAll : ascii "one_of" ≠ ascii "all" := by decide
      have notEquals : ascii "one_of" ≠ ascii "equals" := by decide
      simp only [readSelector, readFrom.string (ascii "kind") (ascii "one_of") (by simp),
        Option.bind_eq_bind, Option.bind_some, if_neg notAll, if_neg notEquals, if_true, readOneOf,
        readFrom.array (ascii "values") values (by simp), Option.bind_eq_some_iff, guard_eq_some,
        exists_const, Option.some.injEq] at found
      obtain ⟨path', readPath, -, -, rfl⟩ := found
      rw [eq_of_readPath readFrom path (by simp) readPath, readBack]

theorem validJson_normal {value : JsonValue} (h : validJson value .maximum = true) :
    validJson (Jcs.normal value) .maximum = true := by
  obtain ⟨bytes, written⟩ := Option.isSome_iff_exists.mp h
  obtain ⟨encodable, nodes, -⟩ := Jcs.encode_eq_some.mp written
  rw [validJson, Jcs.encode_normal encodable nodes]
  rfl

/-- A selector that is written selects what it asks for once it is read back. -/
theorem selects_readBack {original : Selector} {encoded arguments : JsonValue}
    (written : encodeSelector original .maximum = some encoded) :
    selects original.readBack arguments .maximum = true ↔ original.readBack.Selects arguments := by
  cases original with
  | all => simp [readBack, selects, Selects]
  | equals path value =>
      simp only [encodeSelector, Option.bind_eq_bind, Option.bind_eq_some_iff, guard_eq_some,
        exists_const] at written
      obtain ⟨valid, bytes, writtenValue, -⟩ := written
      have json : validJson (Jcs.normal value) .maximum = true :=
        validJson_normal (Option.isSome_iff_exists.mpr ⟨bytes, writtenValue⟩)
      simp only [readBack, selects, Selects, valid, json, Bool.true_and]
      cases traverse arguments path with
      | none => simp
      | some actual => simp
  | oneOf path values =>
      simp only [encodeSelector, Option.bind_eq_bind, guard_bind_eq_some, List.all_eq_true]
        at written
      obtain ⟨valid, count, json, -⟩ := written
      have bounded : nonemptyBounded (values.map Jcs.normal) (Bounds.maximum .oneOfValues) =
          true := by
        rwa [nonemptyBounded, List.isEmpty_map, List.length_map]
      have all : ((values.map Jcs.normal).all fun value => validJson value .maximum) = true := by
        rw [List.all_map, List.all_eq_true]
        exact fun value member => validJson_normal (json value member)
      simp only [readBack, selects, Selects, valid, bounded, all, Bool.true_and]
      cases traverse arguments path with
      | none => simp
      | some actual => simp

end Selector

namespace Runtime

variable {otp : Otp}

/-! ## The first major -/

/-- A public key that is written is read back, with its thumbprint. -/
theorem readBack_publicKey {publicKey bytes encoded read thumbprint : Bytes} {jwk : JsonValue}
    {members : List (Bytes × JsonValue)}
    (written : Jwk.encodePublic publicKey Bounds.maximum = some bytes)
    (decoded : Json.decode bytes Bounds.maximum = some jwk)
    (normal : Jcs.normal jwk = .object members)
    (again : Jcs.encode (.object members) Bounds.maximum = some encoded)
    (found : Jwk.decodePublic encoded Bounds.maximum = some read)
    (hashed : Jwk.thumbprintRaw otp encoded Bounds.maximum = some thumbprint) :
    read = publicKey ∧ Jwk.publicKeyThumbprintRaw otp publicKey Bounds.maximum =
      some thumbprint := by
  obtain ⟨acceptable, rfl⟩ := Jwk.encodePublic_eq_some.mp written
  have size := Ed25519.length_of_acceptablePublicKey acceptable
  obtain rfl := ClosedMap.encode_again (Jwk.ordered_jwkMembers publicKey)
    (Jwk.encode_jwk acceptable) decoded normal again
  refine ⟨Jwk.decodePublic_preimage size found, ?_⟩
  rw [Jwk.publicKeyThumbprintRaw, written]
  exact hashed

/-- The text of a digest is the one of the raw digest. -/
theorem digest_eq_some {head operation text : Bytes} {arguments : JsonValue} {bounds : Bounds}
    (h : RequestDigest.digestWith otp head operation arguments bounds = some text) :
    ∃ digest, RequestDigest.digestRawWith otp head operation arguments bounds = some digest ∧
      text = Base64.encode digest := by
  have written := h
  simp only [RequestDigest.digestWith, Bounds.coerce_toLimits, Option.bind_eq_bind,
    Option.bind_some, Option.bind_eq_some_iff, guard_eq_some, exists_const,
    Option.some.injEq] at written
  obtain ⟨-, canonical, -, rfl⟩ := written
  refine ⟨_, ?_, rfl⟩
  rw [RequestDigest.digestRawWith, h]
  exact Base64.decode_encode _

/-- What the first major reads back. -/
theorem major_readsBack (otp : Otp) : (major otp).ReadsBack Selector.readBack where
  selector _ _ _ := Selector.eq_readBack
  publicKey _ _ _ _ _ _ _ := readBack_publicKey
  digest _ _ _ := digest_eq_some

theorem encode_of_digestRaw {head operation : Bytes} {arguments : JsonValue}
    (h : (RequestDigest.digestRawWith otp head operation arguments Bounds.maximum).isSome = true) :
    (Jcs.encode arguments Bounds.maximum).isSome = true := by
  obtain ⟨digest, found⟩ := Option.isSome_iff_exists.mp h
  obtain ⟨-, written, -⟩ := RequestDigest.digestRawWith_eq_some.mp found
  rw [RequestDigest.encode_arguments written]
  rfl

/-- What the first major does for those who use its producers. -/
theorem major_honours (otp : Otp) : (major otp).Honours otp Selector.readBack
    (fun selector arguments => selector.Selects arguments) (assembleCompact otp) where
  toReadsBack := major_readsBack otp
  joined _ _ _ h := joined_of_assemble (assembled_eq_some (validateAssembledCompact otp) h).1
  grant _ _ _ kind h := by
    have valid := (assembled_eq_some (validateAssembledCompact otp) h).2
    rwa [kind] at valid
  proof _ _ _ kind h := by
    have valid := (assembled_eq_some (validateAssembledCompact otp) h).2
    rwa [kind] at valid
  selects _ _ _ := Selector.selects_readBack
  fingerprint _ _ _ acceptable _ :=
    Option.isSome_iff_exists.mpr ⟨_, Jwk.publicKeyThumbprintRaw_maximum acceptable⟩
  arguments _ _ := encode_of_digestRaw

/-! ## Honest credentials -/

/-- The envelope of honest credentials is accepted exactly when the grant has the
operation of the proof, and each of its selectors, as it is read back, selects the
arguments of the proof. -/
theorem honest_accepted {grant : Grant Selector} {proof : Proof} {credentials : Credentials}
    {expected : ExpectedRequest}
    (h : Honest (major otp) otp (assembleCompact otp) grant proof credentials expected) :
    (checkEnvelope otp credentials expected).isSome = true ↔
      ∃ operation ∈ grant.operations, operation.name = proof.operation ∧
        ∀ selector ∈ operation.selectors, selector.readBack.Selects proof.castArguments := by
  rw [checkEnvelope, h.accepted_iff (major_honours otp)]

namespace Sample

/-- The sample credentials are honest. -/
theorem honest : Honest (major platform) platform (assembleCompact platform) grant proof credentials
    expected where
  granted := ⟨grantInput, grantSignature, by decide +kernel, by decide +kernel, by decide +kernel⟩
  proved := ⟨proofInput, proofSignature, by decide +kernel, by decide +kernel, by decide +kernel⟩
  presented := rfl
  holder := by decide +kernel
  limits := rfl
  valid := by decide +kernel
  keyId := rfl
  issuer := rfl
  audience := List.mem_singleton_self _
  method := rfl
  targetUri := rfl
  invocationId := rfl
  operation := rfl
  castArguments := rfl
  nonce := rfl
  issued := by decide
  begun := by decide
  unexpired := by decide
  notEarly := by decide
  notLate := by decide

end Sample

theorem honest_accepted_sample :
    (checkEnvelope Sample.platform Sample.credentials Sample.expected).isSome = true ↔
      ∃ operation ∈ Sample.grant.operations, operation.name = Sample.proof.operation ∧
        ∀ selector ∈ operation.selectors, selector.readBack.Selects Sample.proof.castArguments :=
  honest_accepted Sample.honest

example :
    (checkEnvelope Sample.platform ⟨Sample.grantCompact, []⟩ Sample.expected).isSome = false := by
  decide +kernel

end Runtime

end BoundedAuthority.V1
