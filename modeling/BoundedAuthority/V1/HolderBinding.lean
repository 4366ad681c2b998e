import BoundedAuthority.V1.RequestBinding
import BoundedAuthority.V1.RuntimeTightening

/-!
# A proof is for one request

A proof holds the digest of its grant and the digest of its request.  Whoever gets it
accepted with another grant, or for another request, has found two byte strings with
one digest (`proof_bound`).
-/

namespace BoundedAuthority.V1.Runtime

open Wire JsonValue BoundedAuthority.Runtime

variable {otp : Otp}

/-- What an accepted envelope says about its proof, whatever the bounds. -/
theorem proof_of_checkEnvelope {credentials : Credentials} {expected : ExpectedRequest}
    {facts : EnvelopeFacts} (h : checkEnvelope otp credentials expected = some facts) :
    ∃ bounds : Bounds, ∃ proof grant,
      parseProof (major otp) otp .standard credentials.proof Bounds.maximum = some proof ∧
      ProofMatches (major otp) otp proof credentials.grant grant expected bounds := by
  obtain ⟨bounds, coerced, -⟩ := Option.bind_eq_some_iff.mp h
  obtain ⟨-, grant, proof, -, -, readProof, proofMatches, -⟩ :=
    (checkEnvelopeFor_eq_some coerced).mp h
  have le := bounds.le_maximum
  exact ⟨bounds, proof, grant, parseProof_below le (major_tightens otp le) _ _ readProof,
    proofMatches⟩

/-- The request of an expectation, as it is hashed. -/
def requestPreimage (expected : ExpectedRequest) : Bytes :=
  RequestDigest.preimage RequestDigest.digestPrefix expected.operation expected.castArguments

/-- A proof that is accepted with two grants and for two requests comes with one grant
and one request, or two distinct byte strings with one digest are at hand. -/
theorem proof_bound {proof grant₁ grant₂ : Bytes} {expected₁ expected₂ : ExpectedRequest}
    {facts₁ facts₂ : EnvelopeFacts}
    (h₁ : checkEnvelope otp ⟨grant₁, proof⟩ expected₁ = some facts₁)
    (h₂ : checkEnvelope otp ⟨grant₂, proof⟩ expected₂ = some facts₂) :
    otp.Collide grant₁ grant₂ ∨
    otp.Collide (requestPreimage expected₁) (requestPreimage expected₂) ∨
    grant₁ = grant₂ ∧ expected₁.method = expected₂.method ∧
      expected₁.targetUri = expected₂.targetUri ∧
      expected₁.invocationId = expected₂.invocationId ∧
      expected₁.operation = expected₂.operation ∧
      RequestDigest.Alike expected₁.castArguments expected₂.castArguments := by
  obtain ⟨bounds₁, parsed, found₁, read₁, matches₁⟩ := proof_of_checkEnvelope h₁
  obtain ⟨bounds₂, parsed', found₂, read₂, matches₂⟩ := proof_of_checkEnvelope h₂
  obtain rfl : parsed = parsed' := Option.some.inj (read₁.symm.trans read₂)
  have hashed : ∀ {grant : Bytes} {bounds : Bounds},
      CompactJws.hash otp grant bounds = some parsed.decoded.grantHash →
      otp.sha256 grant = parsed.decoded.grantHash := by
    intro grant bounds h
    obtain ⟨_, -, same⟩ := Option.bind_eq_some_iff.mp h
    exact Option.some.inj same
  rcases otp.eq_or_collide ((hashed matches₁.ath).trans (hashed matches₂.ath).symm)
    with same | collide
  · rcases RequestDigest.digestRawWith_bound matches₁.request matches₂.request with collide | bound
    · exact .inr (.inl collide)
    · exact .inr (.inr ⟨same, matches₁.method.symm.trans matches₂.method,
        matches₁.targetUri.symm.trans matches₂.targetUri,
        matches₁.invocationId.symm.trans matches₂.invocationId, bound⟩)
  · exact .inl collide

/-- The sample proof against the sample request, twice. -/
theorem proof_bound_sample :
    Sample.platform.Collide Sample.grantCompact Sample.grantCompact ∨
    Sample.platform.Collide (requestPreimage Sample.expected) (requestPreimage Sample.expected) ∨
    Sample.grantCompact = Sample.grantCompact ∧ Sample.expected.method = Sample.expected.method ∧
      Sample.expected.targetUri = Sample.expected.targetUri ∧
      Sample.expected.invocationId = Sample.expected.invocationId ∧
      Sample.expected.operation = Sample.expected.operation ∧
      RequestDigest.Alike Sample.expected.castArguments Sample.expected.castArguments := by
  obtain ⟨facts, found⟩ := Option.isSome_iff_exists.mp Sample.accepted
  exact @proof_bound _ Sample.proofCompact _ _ _ _ _ _ found found

example :
    (checkEnvelope Sample.platform ⟨[], Sample.proofCompact⟩ Sample.expected).isSome = false := by
  decide +kernel

end BoundedAuthority.V1.Runtime
