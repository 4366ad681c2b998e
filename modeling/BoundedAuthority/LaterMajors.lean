import BoundedAuthority.V3.HonestCredentials

/-!
# The later majors

What is proved of a major in general, of the second and the third: lower limits never
let in what higher limits refuse, and never change how it is read (`later_below`), and a
proof is for one grant and one request (`later_bound`).
-/

namespace BoundedAuthority

open Wire V1 BoundedAuthority.Runtime

variable {otp : Otp}

/-! ## Lower limits -/

/-- Readers of a major under lower limits are below themselves under higher limits. -/
theorem readers_below {σ : Type} {M : Major σ} {low high : Limits} {a b : Bounds}
    (coercedLow : Bounds.coerce low = some a) (coercedHigh : Bounds.coerce high = some b)
    (le : a.Le b) (tightens : M.Tightens a b) :
    (∀ compact, Below (Runtime.decodeGrant M otp compact low)
      (Runtime.decodeGrant M otp compact high)) ∧
    (∀ compact, Below (Runtime.decodeProof M otp .standard compact low)
      (Runtime.decodeProof M otp .standard compact high)) ∧
    ∀ credentials (expected : ExpectedRequest),
      Below (checkEnvelopeFor M otp credentials { expected with bounds := low } .standard)
        (checkEnvelopeFor M otp credentials { expected with bounds := high } .standard) := by
  -- the parsers read their limits through `coerce`
  have grants : ∀ {limits : Limits} {bounds : Bounds}, Bounds.coerce limits = some bounds →
      ∀ compact, parseGrant M otp compact limits = parseGrant M otp compact bounds := by
    intro limits bounds coerced compact
    rw [parseGrant, parseGrant, coerced, Bounds.coerce_toLimits]
  have proofs : ∀ {limits : Limits} {bounds : Bounds}, Bounds.coerce limits = some bounds →
      ∀ compact, parseProof M otp .standard compact limits =
        parseProof M otp .standard compact bounds := by
    intro limits bounds coerced compact
    rw [parseProof, parseProof, coerced, Bounds.coerce_toLimits]
  refine ⟨fun compact => Below.map _ ?_, fun compact => Below.map _ ?_,
    checkEnvelopeFor_below le tightens coercedLow coercedHigh⟩
  · rw [grants coercedLow, grants coercedHigh]
    exact parseGrant_below le tightens compact
  · rw [proofs coercedLow, proofs coercedHigh]
    exact parseProof_below le tightens compact

/-- The readers of the second and the third major under lower limits are below themselves
under higher limits. -/
theorem later_below (otp : Otp) (ecdsa : V3.Runtime.Ecdsa) {low high : Limits} {a b : Bounds}
    (coercedLow : Bounds.coerce low = some a) (coercedHigh : Bounds.coerce high = some b)
    (le : ∀ key, a key ≤ b key) :
    ((∀ compact, Below (V2.Runtime.decodeGrant otp compact low)
        (V2.Runtime.decodeGrant otp compact high)) ∧
      (∀ compact, Below (V2.Runtime.decodeProof otp compact low)
        (V2.Runtime.decodeProof otp compact high)) ∧
      ∀ credentials (expected : ExpectedRequest),
        Below (V2.Runtime.checkEnvelope otp credentials { expected with bounds := low })
          (V2.Runtime.checkEnvelope otp credentials { expected with bounds := high })) ∧
    (∀ compact, Below (V3.Runtime.decodeGrant otp ecdsa compact low)
      (V3.Runtime.decodeGrant otp ecdsa compact high)) ∧
    (∀ compact, Below (V3.Runtime.decodeProof otp ecdsa compact low)
      (V3.Runtime.decodeProof otp ecdsa compact high)) ∧
    ∀ credentials (expected : ExpectedRequest),
      Below (V3.Runtime.checkEnvelope otp ecdsa credentials { expected with bounds := low })
        (V3.Runtime.checkEnvelope otp ecdsa credentials { expected with bounds := high }) :=
  ⟨readers_below coercedLow coercedHigh le (V2.Runtime.major_tightens otp le),
    readers_below coercedLow coercedHigh le (V3.Runtime.major_tightens otp ecdsa le)⟩

/-- One ceiling lowered, for a grant that keeps to it. -/
theorem later_below_sample : ∃ grant,
    V2.Runtime.decodeGrant V2.Runtime.Sample.platform V2.Runtime.Sample.credentials.grant
        [(some .depth, 7)] = some grant ∧
      V2.Runtime.decodeGrant V2.Runtime.Sample.platform V2.Runtime.Sample.credentials.grant [] =
        some grant := by
  have low : ∃ a, Bounds.coerce [(some .depth, 7)] = some a ∧ ∀ key, a key ≤ Bounds.maximum key :=
    ⟨_, rfl, fun key => Bounds.tightens _ key⟩
  obtain ⟨a, coerced, le⟩ := low
  have below := (later_below V2.Runtime.Sample.platform V3.Runtime.Sample.backend coerced
    Bounds.coerce_nil le).1.1 V2.Runtime.Sample.credentials.grant
  have accepted : (V2.Runtime.decodeGrant V2.Runtime.Sample.platform
      V2.Runtime.Sample.credentials.grant [(some .depth, 7)]).isSome = true := by decide +kernel
  obtain ⟨grant, found⟩ := Option.isSome_iff_exists.mp accepted
  exact ⟨grant, found, below grant found⟩

/-! ## One grant and one request -/

/-- A proof of the second or the third major that is accepted with two grants and for two
requests comes with one grant and one request, or two distinct byte strings with one
digest are at hand. -/
theorem later_bound (otp : Otp) (ecdsa : V3.Runtime.Ecdsa) (proof grant₁ grant₂ : Bytes)
    (expected₁ expected₂ : ExpectedRequest) (facts₁ facts₂ : EnvelopeFacts) :
    (V2.Runtime.checkEnvelope otp ⟨grant₁, proof⟩ expected₁ = some facts₁ →
      V2.Runtime.checkEnvelope otp ⟨grant₂, proof⟩ expected₂ = some facts₂ →
      otp.Collide grant₁ grant₂ ∨
        otp.Collide (expected₁.preimage V2.Runtime.digestPrefix)
          (expected₂.preimage V2.Runtime.digestPrefix) ∨
        grant₁ = grant₂ ∧ OneRequest expected₁ expected₂) ∧
    (V3.Runtime.checkEnvelope otp ecdsa ⟨grant₁, proof⟩ expected₁ = some facts₁ →
      V3.Runtime.checkEnvelope otp ecdsa ⟨grant₂, proof⟩ expected₂ = some facts₂ →
      otp.Collide grant₁ grant₂ ∨
        otp.Collide (expected₁.preimage V3.Runtime.digestPrefix)
          (expected₂.preimage V3.Runtime.digestPrefix) ∨
        grant₁ = grant₂ ∧ OneRequest expected₁ expected₂) :=
  ⟨bound_to_request (fun bounds => V2.Runtime.major_tightens otp bounds.le_maximum) rfl,
    bound_to_request (fun bounds => V3.Runtime.major_tightens otp ecdsa bounds.le_maximum) rfl⟩

/-- The sample proofs against the sample requests, twice. -/
theorem later_bound_sample :
    (V2.Runtime.Sample.platform.Collide V2.Runtime.Sample.credentials.grant
        V2.Runtime.Sample.credentials.grant ∨
      V2.Runtime.Sample.platform.Collide
        (V2.Runtime.Sample.expected.preimage V2.Runtime.digestPrefix)
        (V2.Runtime.Sample.expected.preimage V2.Runtime.digestPrefix) ∨
      V2.Runtime.Sample.credentials.grant = V2.Runtime.Sample.credentials.grant ∧
        OneRequest V2.Runtime.Sample.expected V2.Runtime.Sample.expected) ∧
    (V3.Runtime.Sample.platform.Collide V3.Runtime.Sample.credentials.grant
        V3.Runtime.Sample.credentials.grant ∨
      V3.Runtime.Sample.platform.Collide
        (V3.Runtime.Sample.expected.preimage V3.Runtime.digestPrefix)
        (V3.Runtime.Sample.expected.preimage V3.Runtime.digestPrefix) ∨
      V3.Runtime.Sample.credentials.grant = V3.Runtime.Sample.credentials.grant ∧
        OneRequest V3.Runtime.Sample.expected V3.Runtime.Sample.expected) := by
  obtain ⟨facts₂, found₂⟩ := Option.isSome_iff_exists.mp V2.Runtime.Sample.accepted
  obtain ⟨facts₃, found₃⟩ := Option.isSome_iff_exists.mp V3.Runtime.Sample.accepted
  exact ⟨(later_bound _ V3.Runtime.Sample.backend _ _ _ _ _ _ _).1 found₂ found₂,
    (later_bound _ _ _ _ _ _ _ _ _).2 found₃ found₃⟩

end BoundedAuthority
