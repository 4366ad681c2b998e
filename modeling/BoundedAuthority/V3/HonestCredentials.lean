import BoundedAuthority.V2.HonestCredentials
import BoundedAuthority.V3.EcJwkSpec
import BoundedAuthority.V3.Runtime

/-!
# Honest credentials of the third major

The selectors are those of the second major and the keys are points of P-256, so that
again an envelope of a well made grant and a well made proof stands or falls with the
numbers its ranges admit (`p256_accepted`).
-/

namespace BoundedAuthority.V3.Runtime

open Wire JsonValue V1 BoundedAuthority.Runtime

variable {otp : Otp} {ecdsa : Ecdsa}

/-! ## The third major -/

theorem major_tightens (otp : Otp) (ecdsa : Ecdsa) {a b : Bounds} (le : a.Le b) :
    (major otp ecdsa).Tightens a b where
  publicKeyBytes := by simp [major]
  decodePublic := EcJwk.decodePublic_below le
  thumbprintRaw := EcJwk.thumbprintRaw_below le otp
  publicKeyThumbprintRaw := EcJwk.publicKeyThumbprintRaw_below le otp
  digestRaw := RequestDigest.digestRawWith_below le otp _
  selector := V2.Selector.selector_below le
  selects _ _ := V2.Selector.selects_mono le

/-- A public key that is written is read back, with its thumbprint. -/
theorem readBack_publicKey {publicKey bytes encoded read thumbprint : Bytes} {jwk : JsonValue}
    {members : List (Bytes × JsonValue)}
    (written : EcJwk.encodePublic publicKey Bounds.maximum = some bytes)
    (decoded : Json.decode bytes Bounds.maximum = some jwk)
    (normal : Jcs.normal jwk = .object members)
    (again : Jcs.encode (.object members) Bounds.maximum = some encoded)
    (found : EcJwk.decodePublic encoded Bounds.maximum = some read)
    (hashed : EcJwk.thumbprintRaw otp encoded Bounds.maximum = some thumbprint) :
    read = publicKey ∧ EcJwk.publicKeyThumbprintRaw otp publicKey Bounds.maximum =
      some thumbprint := by
  obtain ⟨acceptable, rfl⟩ := EcJwk.encodePublic_eq_some.mp written
  obtain rfl := ClosedMap.encode_again (EcJwk.ordered_jwkMembers publicKey)
    (EcJwk.encode_jwk acceptable) decoded normal again
  refine ⟨EcJwk.decodePublic_preimage acceptable found, ?_⟩
  rw [EcJwk.publicKeyThumbprintRaw, written]
  exact hashed

/-- What the third major reads back. -/
theorem major_readsBack (otp : Otp) (ecdsa : Ecdsa) :
    (major otp ecdsa).ReadsBack V2.Selector.readBack where
  selector _ _ _ := V2.Selector.eq_readBack
  publicKey _ _ _ _ _ _ _ := readBack_publicKey
  digest _ _ _ := V1.Runtime.digest_eq_some

theorem assembleCompact_eq_some {input : SigningInput} {signature compact : Bytes}
    (h : assembleCompact otp ecdsa input signature [] = some compact) :
    compact = joined input signature ∧ Es256.canonicalSignature signature = true ∧
      validateAssembledCompact (major otp ecdsa) otp input.kind compact .maximum = true := by
  simp only [assembleCompact, Bounds.coerce_nil, Option.bind_eq_bind, Option.bind_some,
    Option.bind_eq_some_iff, guard_eq_some, exists_const, Option.some.injEq, CompactJws.assemble,
    Bounds.coerce_toLimits] at h
  obtain ⟨-, _, ⟨-, -, -, rfl⟩, canonical, valid, rfl⟩ := h
  exact ⟨rfl, canonical, valid⟩

/-- A signature that verifies has an acceptable key. -/
theorem acceptable_of_verifySignature {message signature publicKey : Bytes}
    (h : verifySignature ecdsa message signature publicKey = true) :
    Es256.acceptablePublicKey publicKey = true := by
  simp only [verifySignature, Bool.and_eq_true] at h
  exact h.1.2

/-- What the third major does for those who use its producers. -/
theorem major_honours (otp : Otp) (ecdsa : Ecdsa) : (major otp ecdsa).Honours otp
    V2.Selector.readBack (fun selector arguments => selector.Selects arguments)
    (assembleCompact otp ecdsa) where
  toReadsBack := major_readsBack otp ecdsa
  joined _ _ _ h := (assembleCompact_eq_some h).1
  grant _ _ _ kind h := by
    have valid := (assembleCompact_eq_some h).2.2
    rwa [kind] at valid
  proof _ _ _ kind h := by
    have valid := (assembleCompact_eq_some h).2.2
    rwa [kind] at valid
  selects _ _ _ := V2.Selector.selects_readBack
  fingerprint _ _ _ _ verifies := Option.isSome_iff_exists.mpr
    ⟨_, EcJwk.publicKeyThumbprintRaw_maximum (acceptable_of_verifySignature verifies)⟩
  arguments _ _ := V1.Runtime.encode_of_digestRaw

/-! ## Honest credentials -/

/-- The envelope of honest credentials is accepted exactly when the grant has the
operation of the proof, and the arguments of the proof have what each of its selectors
asks for. -/
theorem p256_accepted {grant : Grant V2.Selector} {proof : Proof} {credentials : Credentials}
    {expected : ExpectedRequest}
    (h : Honest (major otp ecdsa) otp (assembleCompact otp ecdsa) grant proof credentials
      expected) :
    (checkEnvelope otp ecdsa credentials expected).isSome = true ↔
      ∃ operation ∈ grant.operations, operation.name = proof.operation ∧
        ∀ selector ∈ operation.selectors, V2.Runtime.Asks proof.castArguments selector := by
  obtain ⟨input, signature, signed, -, -⟩ := h.granted
  rw [checkEnvelope, h.accepted_iff (major_honours otp ecdsa)]
  exact operations_ask_iff V2.Selector.readBack
    (fun selector arguments => selector.Selects arguments)
    V2.Runtime.Asks signed fun _ _ => V2.Runtime.selects_iff_asks

namespace Sample

open V2.Runtime.Sample (inputOf grantHeaderText grantText proofHeaderText proofText arguments)

def issuerKey : Bytes := 0x04 ::
  (bigEndian 32 0x6FF03B949241CE1DADD43519E6960E0A85B41A69A05C328103AA2BCE1594CA16 ++
    bigEndian 32 0x3C4F753A55BF01DC53F6C0B0C7EEE78B40C6FF7D25A96E2282B989CEF71C144A)

def holderKey : Bytes := 0x04 ::
  (bigEndian 32 0x550F471003F3DF97C3DF506AC797F6721FB1A1FB7B8F6F83D224498A65C88E24 ++
    bigEndian 32 0x136093D7012E509A73715CBD0B00A3CC0FF4B5C01B3FFA196AB1FB327036B8E6)

def holderThumbprint : Bytes := bigEndian 32
  0xFDD5BC03E18B5D5A9B3CFFAF22F309C186AD11E5AE18ABBE98FC48D59988913B

def grant : Grant V2.Selector :=
  { V2.Runtime.Sample.grant with holderThumbprint := holderThumbprint }

def grantInput : SigningInput :=
  inputOf .grant (grantHeaderText "ES256") (grantText (ascii "3") holderThumbprint)

def grantSignature : Bytes :=
  bigEndian 32 0xBBCAF767C1FC67EFEE67C3B268F18397A21AEE057F1D58E2F9D363F52839309A ++
    bigEndian 32 0x5460660CC418250C3568649E6AEE1A6725CA9E0968DF1ABA2CDC1811A1CD5747

def proof : Proof :=
  { V2.Runtime.Sample.proof with
    holderPublicKey := holderKey
    grantCompact := joined grantInput grantSignature }

def proofInput : SigningInput :=
  inputOf .proof
    (proofHeaderText "ES256" (EcJwk.preimage holderKey))
    (proofText (ascii "3")
      (bigEndian 32 0x2B5EE789FF1B39925AC1990B71AD4E19F466E0F0ED6DF37281712080D7766A5B)
      (bigEndian 32 0xE156638991D67D3719759AEF8C76407478C11915CEEE0D4ACF60028D642F4312))

def proofSignature : Bytes :=
  bigEndian 32 0x3B1ACDB75ABC484197ADAEC20284C7814785B0849C16766D478ED12A2E31716F ++
    bigEndian 32 0x60F6FA6FDD27D1BEA8F9FE5BC4519488EE47490E229E9BB0E21134A11FA641E2

def platform : Otp := Otp.listed []

/-- The signatures that verify. -/
def backend : Ecdsa where
  verify message signature publicKey :=
    [(grantInput.message, grantSignature, issuerKey), (proofInput.message, proofSignature,
      holderKey)].contains (message, signature, publicKey)

def credentials : Credentials :=
  ⟨joined grantInput grantSignature, joined proofInput proofSignature⟩

def expected : ExpectedRequest :=
  { V2.Runtime.Sample.expected with trustedIssuer := ⟨ascii "k0", issuerKey⟩ }

/-- The sample credentials are honest. -/
theorem honest : Honest (major platform backend) platform (assembleCompact platform backend) grant
    proof credentials expected where
  granted := ⟨grantInput, grantSignature, by decide +kernel, by decide +kernel, by decide +kernel⟩
  proved := ⟨proofInput, proofSignature, by decide +kernel, by decide +kernel, by decide +kernel⟩
  presented := rfl
  holder := by decide +kernel
  limits := rfl
  valid := by decide +kernel
  keyId := rfl
  issuer := rfl
  audience := List.mem_singleton_self _
  method := rfl
  targetUri := rfl
  invocationId := rfl
  operation := rfl
  castArguments := rfl
  nonce := rfl
  issued := by decide
  begun := by decide
  unexpired := by decide
  notEarly := by decide
  notLate := by decide

theorem accepted : (checkEnvelope platform backend credentials expected).isSome = true :=
  (honest.accepted_iff (major_honours platform backend)).mpr V2.Runtime.Sample.selected

end Sample

/-- The sample envelope stands or falls with two between one and three. -/
theorem p256_accepted_sample :
    (checkEnvelope Sample.platform Sample.backend Sample.credentials Sample.expected).isSome =
      true ↔
      ∃ operation ∈ Sample.grant.operations, operation.name = Sample.proof.operation ∧
        ∀ selector ∈ operation.selectors, V2.Runtime.Asks Sample.proof.castArguments selector :=
  p256_accepted Sample.honest

end BoundedAuthority.V3.Runtime
