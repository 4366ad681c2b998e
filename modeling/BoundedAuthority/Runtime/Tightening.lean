import BoundedAuthority.Runtime.Verifier
import BoundedAuthority.V1.Tightening

/-!
# Tightening the runtimes

A runtime with lower ceilings is below the one with higher ceilings, if the suite and
the selectors of its major are.
-/

namespace BoundedAuthority.Runtime

open Wire JsonValue V1

/-- What a major has of its own does not fail under higher ceilings. -/
structure Major.Tightens {σ : Type} (M : Major σ) (a b : Bounds) : Prop where
  publicKeyBytes : M.publicKeyBytes a = M.publicKeyBytes b
  decodePublic : ∀ jwk, Below (M.decodePublic jwk a) (M.decodePublic jwk b)
  thumbprintRaw : ∀ jwk, Below (M.thumbprintRaw jwk a) (M.thumbprintRaw jwk b)
  publicKeyThumbprintRaw : ∀ publicKey,
    Below (M.publicKeyThumbprintRaw publicKey a) (M.publicKeyThumbprintRaw publicKey b)
  digestRaw : ∀ operation arguments,
    Below (M.digestRaw operation arguments a) (M.digestRaw operation arguments b)
  selector : ∀ value, Below (M.selector value a) (M.selector value b)
  selects : ∀ selector arguments, M.selects selector arguments a = true →
    M.selects selector arguments b = true

variable {σ : Type} {M : Major σ} {otp : Otp} {profile : Profile} {a b : Bounds} (le : a.Le b)

include le

theorem openCompact_below (compact : Bytes) :
    Below (openCompact compact a) (openCompact compact b) := by
  intro opened h
  obtain ⟨segments, protectedBytes, payloadBytes, scanned, first, second, third, size, header,
    payload, message⟩ := openCompact_eq_some.mp h
  refine openCompact_eq_some.mpr ⟨segments, protectedBytes, payloadBytes, ?_⟩
  exact ⟨CompactJws.scan_below le compact _ scanned, Base64Url.decode_below le _ _ first,
    Base64Url.decode_below le _ _ second, Base64Url.decode_below le _ _ third, by simpa using size,
    Json.decode_below le _ _ header, Json.decode_below le _ _ payload, message⟩

/-! ## Decoding -/

theorem digestMember_below (map : ClosedMap) (key : Bytes) :
    Below (digestMember map key a) (digestMember map key b) := by
  refine Below.bind (Below.refl _) fun encoded _ => ?_
  refine Below.bind (Base64Url.decode_below le encoded) fun digest _ => ?_
  exact Below.guard (fun h => by simpa using h) fun _ => Below.refl _

theorem normalizeProofUri_below (profile : Profile) (uri : Bytes) :
    Below (profile.normalizeProofUri uri a) (profile.normalizeProofUri uri b) := by
  cases profile with
  | standard => exact Uri.normalize_below le uri
  | localLoopbackHttp =>
      simp only [Profile.normalizeProofUri, ApplicationProfile.LocalLoopbackHttp.normalize,
        Bounds.coerce_toLimits, Option.bind_eq_bind, Option.bind_some]
      refine Below.guard (fun h => h.trans (le .uriBytes)) fun _ => Below.guard id fun _ => ?_
      refine Below.bind (Below.refl _) fun parts _ => Below.bind (Below.refl _) fun authority _ =>
        ?_
      refine Below.bind (Below.refl _) fun path _ => ?_
      exact Below.guard (fun h => h.trans (le .uriBytes)) fun _ => Below.refl _

theorem profileNonce_below (profile : Profile) (payload : ClosedMap) :
    Below (profile.profileNonce payload a) (profile.profileNonce payload b) := by
  cases profile with
  | standard =>
      simp only [Profile.profileNonce, Profile.optionalNonce]
      split
      · exact Below.refl _
      · exact Below.guard (validNonce_mono le) fun _ => Below.refl _
      · exact Below.refl _
  | localLoopbackHttp =>
      exact Below.bind (Below.refl _) fun _ _ =>
        Below.guard (validNonce_mono le) fun _ => Below.refl _

theorem validProfileNonceExpectation_mono {expectation : NonceExpectation}
    (h : profile.validProfileNonceExpectation expectation a = true) :
    profile.validProfileNonceExpectation expectation b = true := by
  cases profile <;> cases expectation <;>
    first | exact h | exact validNonce_mono le h

variable (tightens : M.Tightens a b)

include tightens

theorem operations_below (values : List JsonValue) :
    Below (operations M values a) (operations M values b) := by
  refine Below.guard (nonemptyBounded_mono (le .operations)) fun _ => Below.mapM fun value _ => ?_
  cases value with
  | object members =>
      refine Below.bind (Below.refl _) fun map _ => Below.bind (Below.refl _) fun name _ => ?_
      refine Below.guard (validOperation_mono le) fun _ => Below.bind (Below.refl _) fun values _ =>
        ?_
      refine Below.guard (nonemptyBounded_mono (le .selectors)) fun _ => ?_
      exact Below.bind (Below.mapM fun value _ => tightens.selector value) fun _ _ => Below.refl _
  | _ => exact Below.refl _

theorem GrantFields.mono {header payload : ClosedMap} {grant : DecodedGrant σ}
    (h : GrantFields M otp header payload a grant) : GrantFields M otp header payload b grant where
  alg := h.alg
  typ := h.typ
  kid := h.kid
  validKid := validKeyId_mono le h.validKid
  v := h.v
  iss := h.iss
  validIss := validIdentifier_mono le h.validIss
  jti := h.jti
  validJti := validIdentifier_mono le h.validJti
  aud := decodeAudiences_below le otp _ _ h.aud
  uniqueAud := h.uniqueAud
  iat := h.iat
  nbf := h.nbf
  exp := h.exp
  coherent := h.coherent
  cnf := by
    obtain ⟨members, map, cnf, closed, jkt⟩ := h.cnf
    exact ⟨members, map, cnf, closed, digestMember_below le _ _ _ jkt⟩
  operations := by
    obtain ⟨values, array, read⟩ := h.operations
    exact ⟨values, array, operations_below le tightens _ _ read⟩
  uniqueNames := h.uniqueNames
  version := h.version
  verification := h.verification

theorem ProofFields.mono {header payload : ClosedMap} {proof : DecodedProof}
    (h : ProofFields M otp profile header payload a proof) :
    ProofFields M otp profile header payload b proof where
  alg := h.alg
  typ := h.typ
  jwk := by
    obtain ⟨members, bytes, jwk, encoded, decoded, digest⟩ := h.jwk
    exact ⟨members, bytes, jwk, Jcs.encode_below le _ _ encoded, tightens.decodePublic _ _ decoded,
      tightens.thumbprintRaw _ _ digest⟩
  v := h.v
  jti := h.jti
  validJti := validIdentifier_mono le h.validJti
  htm := h.htm
  validHtm := validMethod_mono le h.validHtm
  htu := h.htu
  normalHtu := normalizeProofUri_below le profile _ _ h.normalHtu
  iat := h.iat
  nonce := profileNonce_below le profile _ _ h.nonce
  invocation := h.invocation
  validInvocation := h.validInvocation
  operation := h.operation
  validOperation := validOperation_mono le h.validOperation
  ath := digestMember_below le _ _ _ h.ath
  request := digestMember_below le _ _ _ h.request
  version := h.version
  verification := h.verification

theorem parseGrant_below (compact : Bytes) :
    Below (parseGrant M otp compact a) (parseGrant M otp compact b) := by
  intro parsed h
  obtain ⟨opened, header, payload, found, closedHeader, closedPayload, fields, same⟩ :=
    (parseGrant_eq_some M otp).mp h
  exact (parseGrant_eq_some M otp).mpr ⟨opened, header, payload, openCompact_below le _ _ found,
    closedHeader, closedPayload, fields.mono le tightens, same⟩

theorem parseProof_below (compact : Bytes) :
    Below (parseProof M otp profile compact a) (parseProof M otp profile compact b) := by
  intro parsed h
  obtain ⟨opened, header, payload, found, closedHeader, closedPayload, fields, same⟩ :=
    (parseProof_eq_some M otp profile).mp h
  exact (parseProof_eq_some M otp profile).mpr
    ⟨opened, header, payload, openCompact_below le _ _ found,
    closedHeader, closedPayload, fields.mono le tightens, same⟩

/-! ## Verifying -/

theorem validateTrustedIssuer_mono {trusted : TrustedIssuer}
    (h : validateTrustedIssuer M trusted a = true) : validateTrustedIssuer M trusted b = true := by
  simp only [validateTrustedIssuer, Bool.and_eq_true, decide_eq_true_eq] at h ⊢
  exact ⟨⟨validKeyId_mono le h.1.1, tightens.publicKeyBytes ▸ h.1.2⟩, h.2⟩

omit tightens in
theorem validateExpectedGrant_mono {expected : ExpectedRequest}
    (h : validateExpectedGrant otp (expected.grantExpected a) a = true) :
    validateExpectedGrant otp (expected.grantExpected b) b = true := by
  have skew : (a .clockSkew : Int) ≤ b .clockSkew := Int.ofNat_le.mpr (le .clockSkew)
  simp only [validateExpectedGrant, Bool.and_eq_true, decide_eq_true_eq] at h ⊢
  exact ⟨⟨⟨validIdentifier_mono le h.1.1.1, validIdentifier_mono le h.1.1.2⟩, h.1.2⟩,
    h.2.trans skew⟩

theorem validateExpectedRequest_mono {expected : ExpectedRequest}
    (h : validateExpectedRequest M otp expected a profile = true) :
    validateExpectedRequest M otp expected b profile = true := by
  have age : (a .proofMaxAge : Int) ≤ b .proofMaxAge := Int.ofNat_le.mpr (le .proofMaxAge)
  simp only [validateExpectedRequest, Bool.and_eq_true, decide_eq_true_eq, beq_iff_eq] at h ⊢
  obtain ⟨⟨⟨⟨⟨⟨⟨⟨⟨trusted, grant⟩, method⟩, uri⟩, uuid⟩, operation⟩, digest⟩, positive⟩, age'⟩,
    nonce⟩ := h
  exact ⟨⟨⟨⟨⟨⟨⟨⟨⟨validateTrustedIssuer_mono le tightens trusted,
    validateExpectedGrant_mono le grant⟩,
    validMethod_mono le method⟩, normalizeProofUri_below le profile _ _ uri⟩, uuid⟩,
    validOperation_mono le operation⟩, (tightens.digestRaw _ _).isSome digest⟩, positive⟩,
    age'.trans age⟩, validProfileNonceExpectation_mono le nonce⟩

omit le in
theorem verifyGrantParsed_mono {parsed : Parsed (DecodedGrant σ)} {trusted : TrustedIssuer}
    {expected : ExpectedRequest}
    (h : verifyGrantParsed M parsed trusted (expected.grantExpected a) a = true) :
    verifyGrantParsed M parsed trusted (expected.grantExpected b) b = true := by
  simp only [verifyGrantParsed, Bool.and_eq_true] at h ⊢
  exact ⟨h.1, (tightens.publicKeyThumbprintRaw _).isSome h.2⟩

theorem matchAll_mono {selectors : List σ} {arguments : JsonValue}
    (h : matchAll M selectors arguments a = true) : matchAll M selectors arguments b = true := by
  simp only [matchAll, Bool.and_eq_true, List.all_eq_true] at h ⊢
  exact ⟨⟨nonemptyBounded_mono (le .selectors) h.1.1, (Jcs.encode_below le _).isSome h.1.2⟩,
    fun selector hs => tightens.selects _ _ (h.2 selector hs)⟩

theorem verifyProofParsed_mono {proof : Parsed DecodedProof} {compact : Bytes}
    {grant : Parsed (DecodedGrant σ)} {expected : ExpectedRequest}
    (h : verifyProofParsed M otp proof compact grant expected a = true) :
    verifyProofParsed M otp proof compact grant expected b = true := by
  have h := verifyProofParsed_iff.mp h
  obtain ⟨found, member, selected⟩ := h.selected
  exact verifyProofParsed_iff.mpr
    { h with
      ath := CompactJws.hash_below le otp _ _ h.ath
      request := tightens.digestRaw _ _ _ h.request
      selected := ⟨found, member, matchAll_mono le tightens selected⟩ }

/-- An envelope that is accepted under lower ceilings is accepted under higher ones,
with the same facts. -/
theorem checkEnvelopeFor_below {low high : Limits} (coercedLow : Bounds.coerce low = some a)
    (coercedHigh : Bounds.coerce high = some b) (credentials : Credentials)
    (expected : ExpectedRequest) :
    Below (checkEnvelopeFor M otp credentials { expected with bounds := low } profile)
      (checkEnvelopeFor M otp credentials { expected with bounds := high } profile) := by
  simp only [checkEnvelopeFor, coercedLow, coercedHigh, Option.bind_eq_bind, Option.bind_some]
  refine Below.guard (validateExpectedRequest_mono le tightens) fun _ => ?_
  refine Below.bind (parseGrant_below le tightens _) fun grant _ => ?_
  refine Below.guard (verifyGrantParsed_mono tightens) fun _ => ?_
  refine Below.bind (parseProof_below le tightens _) fun proof _ => ?_
  refine Below.guard (verifyProofParsed_mono le tightens) fun _ => ?_
  refine Below.bind ?_ fun _ _ => Below.refl _
  exact Below.bind (tightens.publicKeyThumbprintRaw _) fun _ _ => Below.refl _

end BoundedAuthority.Runtime
