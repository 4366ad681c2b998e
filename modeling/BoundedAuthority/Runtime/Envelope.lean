import BoundedAuthority.Runtime.Tightening
import BoundedAuthority.V1.HolderBinding

/-!
# Accepted envelopes

What holds of an envelope of any major once it is accepted.  The clock decides about
nothing but a window that can be read from the facts (`accepted_window`), the grant is
verified by itself with the same facts (`grant_verified`), and the proof is for one grant
and one request (`bound_to_request`).
-/

namespace BoundedAuthority.Runtime

open Wire JsonValue V1

variable {σ : Type} {M : Major σ} {otp : Otp} {profile : Profile} {credentials : Credentials}
  {expected : ExpectedRequest} {facts : EnvelopeFacts}

/-! ## The window -/

/-- The request at another time, with another tolerance and another age. -/
def ExpectedRequest.at (expected : ExpectedRequest) (time skew age : Int) : ExpectedRequest :=
  { expected with evaluationTime := time, clockSkew := skew, proofMaxAge := age }

/-- The times at which facts hold, for a tolerance and an age the bounds allow. -/
structure EnvelopeFacts.Window (facts : EnvelopeFacts) (bounds : Bounds) (time skew age : Int) :
    Prop where
  tolerated : 0 ≤ skew ∧ skew ≤ bounds .clockSkew
  aged : 0 < age ∧ age ≤ bounds .proofMaxAge
  issued : facts.issuedAt - skew ≤ time
  begun : facts.notBefore - skew ≤ time
  unexpired : time < facts.expiresAt + skew
  presented : facts.proofIssuedAt - skew ≤ time
  fresh : time ≤ facts.proofIssuedAt + age + skew

/-- The facts are read from the grant and the proof. -/
theorem envelopeFacts_times {grant : Parsed (DecodedGrant σ)} {proof : Parsed DecodedProof}
    {bounds : Bounds} (h : envelopeFacts M grant proof expected bounds = some facts) :
    facts.issuedAt = grant.decoded.issuedAt ∧ facts.notBefore = grant.decoded.notBefore ∧
      facts.expiresAt = grant.decoded.expiresAt ∧ facts.proofIssuedAt = proof.decoded.issuedAt := by
  simp only [envelopeFacts, grantFacts, Option.bind_eq_bind, Option.bind_eq_some_iff,
    Option.some.injEq] at h
  obtain ⟨_, ⟨_, -, rfl⟩, rfl⟩ := h
  exact ⟨rfl, rfl, rfl, rfl⟩

/-- Of a valid request the tolerance and the age can be changed within their bounds, and
the time to any other. -/
theorem validateExpectedRequest_at {bounds : Bounds} {time skew age : Int}
    (valid : validateExpectedRequest M otp expected bounds profile = true) :
    validateExpectedRequest M otp (expected.at time skew age) bounds profile = true ↔
      (0 ≤ skew ∧ skew ≤ bounds .clockSkew) ∧ 0 < age ∧ age ≤ bounds .proofMaxAge := by
  simp only [validateExpectedRequest, validateExpectedGrant, Bool.and_eq_true,
    decide_eq_true_eq] at valid ⊢
  simp only [ExpectedRequest.grantExpected, ExpectedRequest.at] at valid ⊢
  obtain ⟨⟨⟨⟨⟨⟨⟨⟨⟨trusted, ⟨⟨issuer, audience⟩, -⟩, -⟩, method⟩, uri⟩, uuid⟩, operation⟩, digest⟩,
    -⟩,
    -⟩, nonce⟩ := valid
  simp only [trusted, issuer, audience, method, uri, uuid, operation, digest, nonce, and_true,
    true_and]
  constructor
  · rintro ⟨⟨low, positive⟩, high⟩
    exact ⟨low, positive, high⟩
  · rintro ⟨low, positive, high⟩
    exact ⟨⟨low, positive⟩, high⟩

theorem GrantMatches.at_iff {grant : Parsed (DecodedGrant σ)} {bounds : Bounds}
    {time skew age : Int}
    (h : GrantMatches M grant expected bounds) :
    GrantMatches M grant (expected.at time skew age) bounds ↔
      grant.decoded.issuedAt ≤ time + skew ∧ grant.decoded.notBefore ≤ time + skew ∧
        grant.decoded.expiresAt > time - skew := by
  constructor
  · intro again
    exact ⟨again.issued, again.begun, again.unexpired⟩
  · rintro ⟨issued, begun, unexpired⟩
    exact ⟨h.keyId, h.issuer, h.audience, issued, begun, unexpired, h.signature, h.fingerprint⟩

theorem ProofMatches.at_iff {grant : Parsed (DecodedGrant σ)} {proof : Parsed DecodedProof}
    {compact : Bytes} {bounds : Bounds} {time skew age : Int}
    (h : ProofMatches M otp proof compact grant expected bounds) :
    ProofMatches M otp proof compact grant (expected.at time skew age) bounds ↔
      proof.decoded.issuedAt ≥ time - age - skew ∧ proof.decoded.issuedAt ≤ time + skew := by
  constructor
  · intro again
    exact ⟨again.notEarly, again.notLate⟩
  · rintro ⟨notEarly, notLate⟩
    exact ⟨h.holder, h.ath, h.method, h.targetUri, h.invocationId, h.operation, h.request, notEarly,
      notLate, h.nonce, h.selected, h.signature⟩

/-- An envelope that is accepted once is accepted with the same facts at the times of its
window, and at no other. -/
theorem accepted_window {bounds : Bounds} (coerced : Bounds.coerce expected.bounds = some bounds)
    (accepted : checkEnvelopeFor M otp credentials expected profile = some facts)
    (time skew age : Int) :
    (checkEnvelopeFor M otp credentials (expected.at time skew age) profile = some facts ↔
        facts.Window bounds time skew age) ∧
      (checkEnvelopeFor M otp credentials (expected.at time skew age) profile = none ↔
        ¬facts.Window bounds time skew age) := by
  have coercedAt : Bounds.coerce (expected.at time skew age).bounds = some bounds := coerced
  obtain ⟨valid, grant, proof, readGrant, grantMatches, readProof, proofMatches, found⟩ :=
    (checkEnvelopeFor_eq_some coerced).mp accepted
  obtain ⟨issuedAt, notBefore, expiresAt, proofIssuedAt⟩ := envelopeFacts_times found
  have determined : ∀ again,
      checkEnvelopeFor M otp credentials (expected.at time skew age) profile = some again ↔
        again = facts ∧ facts.Window bounds time skew age := by
    intro again
    rw [checkEnvelopeFor_eq_some coercedAt, validateExpectedRequest_at valid]
    constructor
    · rintro ⟨⟨tolerance, old⟩, _, _, readGrant', grantMatches', readProof', proofMatches', found'⟩
      obtain rfl := Option.some.inj (readGrant.symm.trans readGrant')
      obtain rfl := Option.some.inj (readProof.symm.trans readProof')
      obtain ⟨issued, begun, unexpired⟩ := grantMatches.at_iff.mp grantMatches'
      obtain ⟨notEarly, notLate⟩ := proofMatches.at_iff.mp proofMatches'
      exact ⟨Option.some.inj (found'.symm.trans found), tolerance,
        old, by omega, by omega, by omega, by omega, by omega⟩
    · rintro ⟨rfl, window⟩
      obtain ⟨tolerance, old, issued, begun, unexpired, presented, fresh⟩ := window
      refine ⟨⟨tolerance, old⟩, grant, proof, readGrant, grantMatches.at_iff.mpr ?_, readProof,
        proofMatches.at_iff.mpr ?_, found⟩
      · exact ⟨by omega, by omega, by omega⟩
      · exact ⟨by omega, by omega⟩
  refine ⟨(determined facts).trans (and_iff_right rfl), ?_⟩
  constructor
  · intro none window
    have some := (determined facts).mpr ⟨rfl, window⟩
    rw [none] at some
    cases some
  · intro outside
    refine Option.eq_none_iff_forall_ne_some.mpr fun again accepted' => ?_
    exact outside ((determined again).mp accepted').2

/-- The sample envelope in its window. -/
theorem accepted_window_sample : ∃ facts,
    checkEnvelopeFor (V1.Runtime.major V1.Runtime.Sample.platform) V1.Runtime.Sample.platform
        V1.Runtime.Sample.credentials V1.Runtime.Sample.expected .standard = some facts ∧
      ((checkEnvelopeFor (V1.Runtime.major V1.Runtime.Sample.platform) V1.Runtime.Sample.platform
          V1.Runtime.Sample.credentials (V1.Runtime.Sample.expected.at 9 1 10) .standard =
          some facts ↔ facts.Window .maximum 9 1 10) ∧
        (checkEnvelopeFor (V1.Runtime.major V1.Runtime.Sample.platform) V1.Runtime.Sample.platform
          V1.Runtime.Sample.credentials (V1.Runtime.Sample.expected.at 9 1 10) .standard = none ↔
          ¬facts.Window .maximum 9 1 10)) := by
  obtain ⟨facts, found⟩ := Option.isSome_iff_exists.mp V1.Runtime.Sample.accepted
  exact ⟨facts, found, accepted_window Bounds.coerce_nil found 9 1 10⟩

/-- The grant of an accepted envelope is verified by itself, with the same facts. -/
theorem grant_verified {bounds : Bounds} (coerced : Bounds.coerce expected.bounds = some bounds)
    (accepted : checkEnvelopeFor M otp credentials expected profile = some facts) :
    verifyGrant M otp credentials.grant expected.trustedIssuer (expected.grantExpected bounds) =
      some facts.toGrantFacts := by
  obtain ⟨valid, grant, proof, readGrant, grantMatches, -, -, found⟩ :=
    (checkEnvelopeFor_eq_some coerced).mp accepted
  have verified : verifyGrantParsed M grant expected.trustedIssuer (expected.grantExpected bounds)
      bounds = true := verifyGrantParsed_iff.mpr grantMatches
  simp only [validateExpectedRequest, Bool.and_eq_true] at valid
  obtain ⟨⟨⟨⟨⟨⟨⟨⟨⟨trusted, context⟩, -⟩, -⟩, -⟩, -⟩, -⟩, -⟩, -⟩, -⟩ := valid
  simp only [envelopeFacts, Option.bind_eq_bind, Option.bind_eq_some_iff, Option.some.injEq]
    at found
  obtain ⟨grantFacts, found, rfl⟩ := found
  have limits : Bounds.coerce (expected.grantExpected bounds).bounds = some bounds :=
    Bounds.coerce_toLimits bounds
  simp only [verifyGrant, limits, trusted, context, readGrant, verified, guard_true,
    Option.pure_def, Option.bind_eq_bind, Option.bind_some]
  exact found

/-! ## The request -/

/-- The request of an expectation, as a major with the prefix hashes it. -/
def ExpectedRequest.preimage (head : Bytes) (expected : ExpectedRequest) : Bytes :=
  RequestDigest.preimage head expected.operation expected.castArguments

/-- What an accepted envelope says about its proof, whatever the bounds. -/
theorem proof_of_accepted (tightens : ∀ bounds : Bounds, M.Tightens bounds .maximum)
    (h : checkEnvelopeFor M otp credentials expected profile = some facts) :
    ∃ bounds : Bounds, ∃ proof grant,
      parseProof M otp profile credentials.proof Bounds.maximum = some proof ∧
      ProofMatches M otp proof credentials.grant grant expected bounds := by
  obtain ⟨bounds, coerced, -⟩ := Option.bind_eq_some_iff.mp h
  obtain ⟨-, grant, proof, -, -, readProof, proofMatches, -⟩ :=
    (checkEnvelopeFor_eq_some coerced).mp h
  exact ⟨bounds, proof, grant, parseProof_below bounds.le_maximum (tightens bounds) _ _ readProof,
    proofMatches⟩

/-- Two requests a proof can be for: they are one request but for the JSON form of the
arguments. -/
structure OneRequest (expected₁ expected₂ : ExpectedRequest) : Prop where
  method : expected₁.method = expected₂.method
  targetUri : expected₁.targetUri = expected₂.targetUri
  invocationId : expected₁.invocationId = expected₂.invocationId
  operation : expected₁.operation = expected₂.operation
  castArguments : RequestDigest.Alike expected₁.castArguments expected₂.castArguments

/-- A proof that is accepted with two grants and for two requests comes with one grant
and one request, or two distinct byte strings with one digest are at hand. -/
theorem bound_to_request {head proof grant₁ grant₂ : Bytes} {expected₁ expected₂ : ExpectedRequest}
    {facts₁ facts₂ : EnvelopeFacts} (tightens : ∀ bounds : Bounds, M.Tightens bounds .maximum)
    (digests : M.digestRaw = RequestDigest.digestRawWith otp head)
    (h₁ : checkEnvelopeFor M otp ⟨grant₁, proof⟩ expected₁ profile = some facts₁)
    (h₂ : checkEnvelopeFor M otp ⟨grant₂, proof⟩ expected₂ profile = some facts₂) :
    otp.Collide grant₁ grant₂ ∨ otp.Collide (expected₁.preimage head) (expected₂.preimage head) ∨
      grant₁ = grant₂ ∧ OneRequest expected₁ expected₂ := by
  obtain ⟨bounds₁, parsed, found₁, read₁, matches₁⟩ := proof_of_accepted tightens h₁
  obtain ⟨bounds₂, parsed', found₂, read₂, matches₂⟩ := proof_of_accepted tightens h₂
  obtain rfl : parsed = parsed' := Option.some.inj (read₁.symm.trans read₂)
  have hashed : ∀ {grant : Bytes} {bounds : Bounds},
      CompactJws.hash otp grant bounds = some parsed.decoded.grantHash →
      otp.sha256 grant = parsed.decoded.grantHash := by
    intro grant bounds h
    obtain ⟨_, -, same⟩ := Option.bind_eq_some_iff.mp h
    exact Option.some.inj same
  have request₁ := matches₁.request
  have request₂ := matches₂.request
  rw [digests] at request₁ request₂
  cases otp.eq_or_collide ((hashed matches₁.ath).trans (hashed matches₂.ath).symm) with
  | inl same =>
    cases RequestDigest.digestRawWith_bound request₁ request₂ with
    | inl collide => exact .inr (.inl collide)
    | inr bound =>
      exact .inr (.inr ⟨same, matches₁.method.symm.trans matches₂.method,
        matches₁.targetUri.symm.trans matches₂.targetUri,
        matches₁.invocationId.symm.trans matches₂.invocationId, bound.1, bound.2⟩)
  | inr collide => exact .inl collide

end BoundedAuthority.Runtime
