import BoundedAuthority.Runtime.RoundTrip
import BoundedAuthority.Runtime.Verifier

/-!
# Honest credentials

An issuer and a holder use the producers of one major.  What the major has to bring for
them to be understood is `Major.Honours`.  The envelope of their grant and their proof
then stands or falls with the operation the proof names (`Honest.accepted_iff`).
-/

namespace BoundedAuthority.Runtime

open Wire JsonValue V1

variable {σ : Type} {M : Major σ} {otp : Otp}

/-- What a major does for those who use its producers: its parsers read what its
assembler returns, and its selectors ask of the arguments what `wants` says. -/
structure Major.Honours (M : Major σ) (otp : Otp) (readBack : σ → σ) (wants : σ → JsonValue → Prop)
    (assembleCompact : SigningInput → Bytes → Limits → Option Bytes) : Prop
    extends M.ReadsBack readBack where
  joined : ∀ input signature compact, assembleCompact input signature [] = some compact →
    compact = joined input signature
  grant : ∀ input signature compact, input.kind = .grant →
    assembleCompact input signature [] = some compact →
    (parseGrant M otp compact Bounds.maximum).isSome = true
  proof : ∀ input signature compact, input.kind = .proof →
    assembleCompact input signature [] = some compact →
    (parseProof M otp .standard compact Bounds.maximum).isSome = true
  selects : ∀ selector encoded arguments, M.encodeSelector selector .maximum = some encoded →
    (M.selects (readBack selector) arguments .maximum = true ↔ wants (readBack selector) arguments)
  fingerprint : ∀ message signature publicKey, M.trustedKey publicKey = true →
    M.verifySignature message signature publicKey = true →
    (M.publicKeyThumbprintRaw publicKey Bounds.maximum).isSome = true
  arguments : ∀ operation arguments, (M.digestRaw operation arguments Bounds.maximum).isSome =
    true →
    (Jcs.encode arguments Bounds.maximum).isSome = true

/-! ## Assembled credentials -/

/-- What an assembler returns that parses its own result. -/
theorem assembled_eq_some (validate : SigningKind → Bytes → Bounds → Bool)
    {kinds : List SigningKind}
    {input : SigningInput} {signature compact : Bytes}
    (h : (do
      let bounds ← Bounds.coerce []
      guard (input.kind ∈ kinds)
      let compact ← CompactJws.assemble input signature bounds
      guard (validate input.kind compact bounds)
      some compact) = some compact) :
    CompactJws.assemble input signature Bounds.maximum = some compact ∧
      validate input.kind compact .maximum = true := by
  simp only [Bounds.coerce_nil, Option.bind_eq_bind, Option.bind_some, Option.bind_eq_some_iff,
    guard_eq_some, exists_const, Option.some.injEq] at h
  obtain ⟨-, _, assembled, valid, rfl⟩ := h
  exact ⟨assembled, valid⟩

theorem kind_of_signingInput {kind : SigningKind} {header payload : Bytes} {input : SigningInput}
    {bounds : Bounds} (signed : signingInput kind header payload bounds = some input) :
    input.kind = kind := by
  simp only [signingInput, Option.bind_eq_bind, guard_bind_eq_some, Option.some.injEq] at signed
  obtain ⟨-, rfl⟩ := signed
  rfl

theorem kind_of_grantSigningInput {grant : Grant σ} {limits : Limits} {input : SigningInput}
    (signed : grantSigningInput M otp grant limits = some input) : input.kind = .grant := by
  simp only [grantSigningInput, Option.bind_eq_bind, Option.bind_eq_some_iff] at signed
  obtain ⟨_, -, _, -, _, -, _, -, signed⟩ := signed
  exact kind_of_signingInput signed

theorem kind_of_proofSigningInputFor {proof : Proof} {profile : Profile} {limits : Limits}
    {input : SigningInput} (signed : proofSigningInputFor M otp proof limits profile = some input) :
    input.kind = profile.proofKind := by
  simp only [proofSigningInputFor, Option.bind_eq_bind, Option.bind_eq_some_iff] at signed
  obtain ⟨_, -, _, -, _, -, _, -, signed⟩ := signed
  exact kind_of_signingInput signed

section

variable {readBack : σ → σ} {wants : σ → JsonValue → Prop}
  {assembleCompact : SigningInput → Bytes → Limits → Option Bytes}
  (honours : M.Honours otp readBack wants assembleCompact)

include honours

/-- An assembled grant is parsed as the grant it is made of. -/
theorem Major.Honours.parseGrant {grant : Grant σ} {input : SigningInput}
    {signature compact : Bytes} (signed : grantSigningInput M otp grant [] = some input)
    (assembled : assembleCompact input signature [] = some compact) :
    parseGrant M otp compact Bounds.maximum =
      some ⟨grant.decoded M readBack, signature, input.message⟩ := by
  obtain ⟨parsed, found⟩ := Option.isSome_iff_exists.mp
    (honours.grant _ _ _ (kind_of_grantSigningInput signed) assembled)
  obtain rfl := honours.joined _ _ _ assembled
  rw [found, parsed_of_grantSigningInput honours.toReadsBack signed found]

/-- An assembled proof is parsed as the proof it is made of. -/
theorem Major.Honours.parseProof {proof : Proof} {input : SigningInput}
    {signature compact : Bytes} (signed : proofSigningInputFor M otp proof [] .standard =
      some input)
    (assembled : assembleCompact input signature [] = some compact) :
    ∃ digest thumbprint,
      M.digestRaw proof.operation proof.castArguments Bounds.maximum = some digest ∧
      M.publicKeyThumbprintRaw proof.holderPublicKey Bounds.maximum = some thumbprint ∧
      parseProof M otp .standard compact Bounds.maximum =
        some ⟨proof.decoded M (otp.sha256 proof.grantCompact) digest thumbprint, signature,
          input.message⟩ := by
  obtain ⟨parsed, found⟩ := Option.isSome_iff_exists.mp
    (honours.proof _ _ _ (kind_of_proofSigningInputFor signed) assembled)
  obtain rfl := honours.joined _ _ _ assembled
  obtain ⟨digest, thumbprint, hashed, key, same⟩ :=
    parsed_of_proofSigningInput honours.toReadsBack signed found
  exact ⟨digest, thumbprint, hashed, key, by rw [found, same]⟩

end

/-! ## The named operation -/

/-- The operations of a grant that is written. -/
theorem operations_of_grantSigningInput {grant : Grant σ} {input : SigningInput}
    (signed : grantSigningInput M otp grant [] = some input) :
    (grant.operations.map Operation.name).Nodup ∧ ∀ operation ∈ grant.operations,
      nonemptyBounded operation.selectors (Bounds.maximum .selectors) = true ∧
      ∀ selector ∈ operation.selectors, ∃ encoded,
        M.encodeSelector selector .maximum = some encoded := by
  simp only [grantSigningInput, Bounds.coerce_nil, Option.bind_eq_bind, Option.bind_some,
    Option.bind_eq_some_iff, Prod.exists] at signed
  obtain ⟨header, payload, json, -⟩ := signed
  simp only [grantJson, Option.bind_eq_bind, guard_eq_some, Option.bind_eq_some_iff, exists_const]
    at json
  obtain ⟨-, -, -, -, -, -, -, values, written, -⟩ := json
  simp only [encodeOperations, Option.bind_eq_bind, guard_bind_eq_some] at written
  obtain ⟨-, distinct, written⟩ := written
  refine ⟨of_decide_eq_true distinct, fun operation member => ?_⟩
  obtain ⟨encoded, found⟩ := exists_of_mapM written member
  simp only [encodeOperation, Option.bind_eq_bind, Option.bind_eq_some_iff, guard_eq_some,
    exists_const] at found
  obtain ⟨-, count, selectors, each, -⟩ := found
  exact ⟨count, fun selector => exists_of_mapM each⟩

/-- The operations of a grant ask alike before and after they are written. -/
theorem operations_ask_iff (readBack : σ → σ) (wants : σ → JsonValue → Prop)
    (asks : JsonValue → σ → Prop) {grant : Grant σ} {input : SigningInput} {name : Bytes}
    {arguments : JsonValue}
    (signed : grantSigningInput M otp grant [] = some input)
    (same : ∀ selector encoded, M.encodeSelector selector .maximum = some encoded →
      (wants (readBack selector) arguments ↔ asks arguments selector)) :
    (∃ operation ∈ grant.operations, operation.name = name ∧
        ∀ selector ∈ operation.selectors, wants (readBack selector) arguments) ↔
      ∃ operation ∈ grant.operations, operation.name = name ∧
        ∀ selector ∈ operation.selectors, asks arguments selector := by
  obtain ⟨-, each⟩ := operations_of_grantSigningInput signed
  refine exists_congr fun operation => and_congr_right fun member => and_congr_right fun _ => ?_
  refine forall₂_congr fun selector chosen => ?_
  obtain ⟨encoded, found⟩ := (each operation member).2 selector chosen
  exact same selector encoded found

/-- Names are unique, so the operation that is found is the one with the name. -/
theorem uniqueOperation_eq_some {operations : List (Operation σ)} {name : Bytes}
    {operation : Operation σ} (distinct : (operations.map Operation.name).Nodup) :
    uniqueOperation operations name = some operation ↔
      operation ∈ operations ∧ operation.name = name := by
  have named : ∀ {found}, uniqueOperation operations name = some found →
      found ∈ operations ∧ found.name = name := by
    intro found is
    have equal := List.find?_some is
    exact ⟨List.mem_of_find?_eq_some is, FixedBytes.equal_iff.mp equal⟩
  constructor
  · exact named
  · rintro ⟨member, same⟩
    have some : (uniqueOperation operations name).isSome = true :=
      List.find?_isSome.mpr ⟨operation, member, FixedBytes.equal_iff.mpr same⟩
    obtain ⟨found, is⟩ := Option.isSome_iff_exists.mp some
    obtain ⟨member', same'⟩ := named is
    rw [is, List.inj_on_of_nodup_map distinct member' member (same'.trans same.symm)]

section

variable {readBack : σ → σ} {wants : σ → JsonValue → Prop}
  {assembleCompact : SigningInput → Bytes → Limits → Option Bytes}
  (honours : M.Honours otp readBack wants assembleCompact)

include honours

/-- What the operation a grant is read with says about the arguments. -/
theorem Major.Honours.selected_iff {grant : Grant σ} {input : SigningInput} {name : Bytes}
    {arguments : JsonValue} (signed : grantSigningInput M otp grant [] = some input)
    (written : (Jcs.encode arguments Bounds.maximum).isSome = true) :
    (∃ operation, uniqueOperation (grant.operations.map (Operation.readBack readBack)) name =
        some operation ∧ matchAll M operation.selectors arguments .maximum = true) ↔
      ∃ operation ∈ grant.operations, operation.name = name ∧
        ∀ selector ∈ operation.selectors, wants (readBack selector) arguments := by
  obtain ⟨distinct, each⟩ := operations_of_grantSigningInput signed
  have names : ((grant.operations.map (Operation.readBack readBack)).map Operation.name) =
      grant.operations.map Operation.name := by
    rw [List.map_map]
    rfl
  have all : ∀ operation ∈ grant.operations,
      matchAll M (operation.readBack readBack).selectors arguments .maximum = true ↔
        ∀ selector ∈ operation.selectors, wants (readBack selector) arguments := by
    intro operation member
    obtain ⟨count, encodes⟩ := each operation member
    have bounded : nonemptyBounded (operation.selectors.map readBack) (Bounds.maximum .selectors) =
        true := by
      rwa [nonemptyBounded, List.isEmpty_map, List.length_map]
    simp only [matchAll, Operation.readBack, bounded, written, Bool.true_and, List.all_map,
      List.all_eq_true, Function.comp_apply]
    refine forall₂_congr fun selector chosen => ?_
    obtain ⟨encoded, found⟩ := encodes selector chosen
    exact honours.selects _ _ _ found
  simp only [uniqueOperation_eq_some (names ▸ distinct), List.mem_map]
  constructor
  · rintro ⟨_, ⟨⟨operation, member, rfl⟩, named⟩, found⟩
    exact ⟨operation, member, named, (all operation member).mp found⟩
  · rintro ⟨operation, member, named, found⟩
    exact ⟨_, ⟨⟨operation, member, rfl⟩, named⟩, (all operation member).mpr found⟩

end

/-! ## Honest credentials -/

/-- Where the issuer's key has a fingerprint, there are facts. -/
theorem exists_envelopeFacts {bounds : Bounds} {grant : Parsed (DecodedGrant σ)}
    {proof : Parsed DecodedProof} {expected : ExpectedRequest}
    (h : (M.publicKeyThumbprintRaw expected.trustedIssuer.publicKey bounds).isSome = true) :
    ∃ facts, envelopeFacts M grant proof expected bounds = some facts := by
  obtain ⟨print, found⟩ := Option.isSome_iff_exists.mp h
  simp [envelopeFacts, grantFacts, found]

/-- A grant and a proof for it, both assembled and signed, and a request that asks for
what they say inside their windows. -/
structure Honest (M : Major σ) (otp : Otp)
    (assembleCompact : SigningInput → Bytes → Limits → Option Bytes) (grant : Grant σ)
    (proof : Proof) (credentials : Credentials) (expected : ExpectedRequest) : Prop where
  granted : ∃ input signature, grantSigningInput M otp grant [] = some input ∧
    assembleCompact input signature [] = some credentials.grant ∧
    M.verifySignature input.message signature expected.trustedIssuer.publicKey = true
  proved : ∃ input signature, proofSigningInputFor M otp proof [] .standard = some input ∧
    assembleCompact input signature [] = some credentials.proof ∧
    M.verifySignature input.message signature proof.holderPublicKey = true
  presented : proof.grantCompact = credentials.grant
  holder : M.publicKeyThumbprintRaw proof.holderPublicKey Bounds.maximum =
    some grant.holderThumbprint
  limits : expected.bounds = []
  valid : validateExpectedRequest M otp expected .maximum .standard = true
  keyId : expected.trustedIssuer.keyId = grant.keyId
  issuer : expected.issuer = grant.issuer
  audience : expected.audience ∈ grant.audiences
  method : expected.method = proof.method
  targetUri : expected.targetUri = proof.targetUri
  invocationId : expected.invocationId = proof.invocationId
  operation : expected.operation = proof.operation
  castArguments : expected.castArguments = proof.castArguments
  nonce : nonceMatches proof.nonce expected.nonce = true
  issued : grant.issuedAt ≤ expected.evaluationTime + expected.clockSkew
  begun : grant.notBefore ≤ expected.evaluationTime + expected.clockSkew
  unexpired : grant.expiresAt > expected.evaluationTime - expected.clockSkew
  notEarly : proof.issuedAt ≥ expected.evaluationTime - expected.proofMaxAge - expected.clockSkew
  notLate : proof.issuedAt ≤ expected.evaluationTime + expected.clockSkew

/-- The issuer of a valid expectation has a key the suite trusts. -/
theorem trustedKey_of_valid {expected : ExpectedRequest} {bounds : Bounds} {profile : Profile}
    (valid : validateExpectedRequest M otp expected bounds profile = true) :
    M.trustedKey expected.trustedIssuer.publicKey = true := by
  simp only [validateExpectedRequest, validateTrustedIssuer, Bool.and_eq_true] at valid
  obtain ⟨⟨⟨⟨⟨⟨⟨⟨⟨⟨-, trusted⟩, -⟩, -⟩, -⟩, -⟩, -⟩, -⟩, -⟩, -⟩, -⟩ := valid
  exact trusted

/-- The request of a valid expectation has a digest. -/
theorem digested_of_valid {expected : ExpectedRequest} {bounds : Bounds} {profile : Profile}
    (valid : validateExpectedRequest M otp expected bounds profile = true) :
    (M.digestRaw expected.operation expected.castArguments bounds).isSome = true := by
  simp only [validateExpectedRequest, Bool.and_eq_true] at valid
  obtain ⟨⟨⟨⟨-, digested⟩, -⟩, -⟩, -⟩ := valid
  exact digested

/-- The envelope of honest credentials is accepted exactly when the grant has the
operation of the proof, and each of its selectors, as it is read back, selects the
arguments of the proof. -/
theorem Honest.accepted_iff {readBack : σ → σ} {wants : σ → JsonValue → Prop}
    {assembleCompact : SigningInput → Bytes → Limits → Option Bytes}
    (honours : M.Honours otp readBack wants assembleCompact) {grant : Grant σ} {proof : Proof}
    {credentials : Credentials} {expected : ExpectedRequest}
    (h : Honest M otp assembleCompact grant proof credentials expected) :
    (checkEnvelopeFor M otp credentials expected .standard).isSome = true ↔
      ∃ operation ∈ grant.operations, operation.name = proof.operation ∧
        ∀ selector ∈ operation.selectors, wants (readBack selector) proof.castArguments := by
  obtain ⟨grantInput, grantSignature, grantSigned, grantAssembled, issuerVerifies⟩ := h.granted
  obtain ⟨proofInput, proofSignature, proofSigned, proofAssembled, holderVerifies⟩ := h.proved
  have readGrant := honours.parseGrant grantSigned grantAssembled
  obtain ⟨digest, thumbprint, hashed, key, readProof⟩ :=
    honours.parseProof proofSigned proofAssembled
  obtain rfl := Option.some.inj (h.holder.symm.trans key)
  have coerced : Bounds.coerce expected.bounds = some .maximum := by
    rw [h.limits, Bounds.coerce_nil]
  have fingerprint := honours.fingerprint _ _ _ (trustedKey_of_valid h.valid) issuerVerifies
  have written : (Jcs.encode proof.castArguments Bounds.maximum).isSome = true :=
    h.castArguments ▸ honours.arguments _ _ (digested_of_valid h.valid)
  rw [← honours.selected_iff grantSigned written]
  constructor
  · intro accepted
    obtain ⟨facts, found⟩ := Option.isSome_iff_exists.mp accepted
    obtain ⟨-, _, _, foundGrant, -, -, proofMatches, -⟩ :=
      (checkEnvelopeFor_eq_some coerced).mp found
    rw [readGrant, Option.some.injEq] at foundGrant
    subst foundGrant
    have selected := proofMatches.selected
    rwa [h.operation, h.castArguments] at selected
  · intro selected
    have grantMatches : GrantMatches M ⟨grant.decoded M readBack, grantSignature,
        grantInput.message⟩ expected .maximum :=
      ⟨h.keyId.symm, h.issuer.symm, h.audience, h.issued, h.begun, h.unexpired, issuerVerifies,
        fingerprint⟩
    have scanned : CompactJws.hash otp credentials.grant Bounds.maximum =
        some (otp.sha256 proof.grantCompact) := by
      obtain ⟨_, _, _, opened, -⟩ := (parseGrant_eq_some _ _).mp readGrant
      obtain ⟨_, _, _, scan, -⟩ := openCompact_eq_some.mp opened
      rw [CompactJws.hash, scan, h.presented]
      rfl
    have proofMatches : ProofMatches M otp ⟨proof.decoded M (otp.sha256 proof.grantCompact) digest
        grant.holderThumbprint, proofSignature, proofInput.message⟩ credentials.grant
        ⟨grant.decoded M readBack, grantSignature, grantInput.message⟩ expected .maximum :=
      { holder := rfl
        ath := scanned
        method := h.method.symm
        targetUri := h.targetUri.symm
        invocationId := h.invocationId.symm
        operation := h.operation.symm
        request := by rw [h.operation, h.castArguments]; exact hashed
        notEarly := h.notEarly
        notLate := h.notLate
        nonce := h.nonce
        selected := by rw [h.operation, h.castArguments]; exact selected
        signature := holderVerifies }
    obtain ⟨facts, found⟩ := exists_envelopeFacts fingerprint
    exact Option.isSome_iff_exists.mpr ⟨facts, (checkEnvelopeFor_eq_some coerced).mpr
      ⟨h.valid, _, _, readGrant, grantMatches, readProof, proofMatches, found⟩⟩

end BoundedAuthority.Runtime
