import BoundedAuthority.Runtime.Envelope
import BoundedAuthority.V2.Range

/-!
# Honest credentials of the second major

What the second major's producers write is read back with the selectors in their normal
form, ranges among them, so an envelope of a well made grant and a well made proof stands
or falls with the numbers its ranges admit (`ranged_accepted`).
-/

namespace BoundedAuthority.V2.Runtime

open Wire JsonValue V1 BoundedAuthority.Runtime

variable {otp : Otp}

/-! ## The second major -/

theorem major_tightens (otp : Otp) {a b : Bounds} (le : a.Le b) : (major otp).Tightens a b where
  publicKeyBytes := by simp [major]
  decodePublic := Jwk.decodePublic_below le
  thumbprintRaw := Jwk.thumbprintRaw_below le otp
  publicKeyThumbprintRaw := Jwk.publicKeyThumbprintRaw_below le otp
  digestRaw := RequestDigest.digestRawWith_below le otp _
  selector := Selector.selector_below le
  selects _ _ := Selector.selects_mono le

/-- What the second major reads back. -/
theorem major_readsBack (otp : Otp) : (major otp).ReadsBack Selector.readBack where
  selector _ _ _ := Selector.eq_readBack
  publicKey _ _ _ _ _ _ _ := V1.Runtime.readBack_publicKey
  digest _ _ _ := V1.Runtime.digest_eq_some

/-- What the second major does for those who use its producers. -/
theorem major_honours (otp : Otp) : (major otp).Honours otp Selector.readBack
    (fun selector arguments => selector.Selects arguments) (assembleCompact otp) where
  toReadsBack := major_readsBack otp
  joined _ _ _ h :=
    joined_of_assemble (assembled_eq_some (validateAssembledCompact (major otp) otp) h).1
  grant _ _ _ kind h := by
    have valid := (assembled_eq_some (validateAssembledCompact (major otp) otp) h).2
    rwa [kind] at valid
  proof _ _ _ kind h := by
    have valid := (assembled_eq_some (validateAssembledCompact (major otp) otp) h).2
    rwa [kind] at valid
  selects _ _ _ := Selector.selects_readBack
  fingerprint _ _ _ acceptable _ :=
    Option.isSome_iff_exists.mpr ⟨_, Jwk.publicKeyThumbprintRaw_maximum acceptable⟩
  arguments _ _ := V1.Runtime.encode_of_digestRaw

/-! ## Honest credentials -/

/-- The arguments have what the issuer asked for: of a range, a number on the right side
of the bound. -/
def Asks (arguments : JsonValue) : Selector → Prop
  | .shared selector => selector.readBack.Selects arguments
  | .lte path bound => Selector.Admits (fun a b => a ≤ b) path bound arguments
  | .gte path bound => Selector.Admits (fun a b => b ≤ a) path bound arguments

/-- A selector that is written asks, once it is read back, for what the issuer asked. -/
theorem selects_iff_asks {original : Selector} {encoded arguments : JsonValue}
    (written : Selector.encodeSelector original .maximum = some encoded) :
    original.readBack.Selects arguments ↔ Asks arguments original := by
  cases original with
  | shared original => exact Iff.rfl
  | lte path bound =>
    obtain ⟨-, numeric, -, -⟩ := Selector.encodeRange_eq_some.mp written
    exact (Selector.selects_normal numeric).1
  | gte path bound =>
    obtain ⟨-, numeric, -, -⟩ := Selector.encodeRange_eq_some.mp written
    exact (Selector.selects_normal numeric).2

/-- The envelope of honest credentials is accepted exactly when the grant has the
operation of the proof, and the arguments of the proof have what each of its selectors
asks for. -/
theorem ranged_accepted {grant : Grant Selector} {proof : Proof} {credentials : Credentials}
    {expected : ExpectedRequest}
    (h : Honest (major otp) otp (assembleCompact otp) grant proof credentials expected) :
    (checkEnvelope otp credentials expected).isSome = true ↔
      ∃ operation ∈ grant.operations, operation.name = proof.operation ∧
        ∀ selector ∈ operation.selectors, Asks proof.castArguments selector := by
  obtain ⟨input, signature, signed, -, -⟩ := h.granted
  rw [checkEnvelope, h.accepted_iff (major_honours otp)]
  exact operations_ask_iff Selector.readBack (fun selector arguments => selector.Selects arguments)
    Asks
    signed fun _ _ => selects_iff_asks

namespace Sample

open V1.Runtime.Sample (issuerKey holderKey holderThumbprint)

/-- The text of an object in braces. -/
def braced (members : List Bytes) : Bytes :=
  ascii "\x7b" ++ (members.intersperse (ascii ",")).flatten ++ ascii "\x7d"

/-- A member with text. -/
def textMember (key : String) (value : Bytes) : Bytes :=
  ascii "\"" ++ ascii key ++ ascii "\":\"" ++ value ++ ascii "\""

def grantHeaderText (alg : String) : Bytes :=
  braced [textMember "alg" (ascii alg), textMember "kid" (ascii "k0"),
    textMember "typ" (ascii "ba+cap")]

def rangeText (kind : String) (bound : Bytes) : Bytes :=
  braced [textMember "kind" (ascii kind), ascii "\"path\":[\"n\"]", ascii "\"value\":" ++ bound]

def grantText (version : Bytes) (thumbprint : Bytes) : Bytes :=
  braced [ascii "\"aud\":[\"a\"]",
    ascii "\"cnf\":" ++ braced [textMember "jkt" (Base64.encode thumbprint)],
    ascii "\"exp\":9,\"iat\":1", textMember "iss" (ascii "i"), textMember "jti" (ascii "g"),
    ascii "\"nbf\":1", ascii "\"operations\":[" ++ braced [textMember "name" (ascii "o"),
      ascii "\"selectors\":[" ++ rangeText "lte" (ascii "3") ++ ascii "," ++
        rangeText "gte" (ascii "1") ++ ascii "]"] ++ ascii "]",
    ascii "\"v\":" ++ version]

def proofHeaderText (alg : String) (jwk : Bytes) : Bytes :=
  braced [textMember "alg" (ascii alg), ascii "\"jwk\":" ++ jwk,
    textMember "typ" (ascii "dpop+jwt")]

def proofText (version : Bytes) (grantHash requestHash : Bytes) : Bytes :=
  braced [textMember "ath" (Base64.encode grantHash),
    textMember "ba_inv" V1.Runtime.Sample.proof.invocationId, textMember "ba_op" (ascii "o"),
    textMember "ba_req" (Base64.encode requestHash), textMember "htm" (ascii "GET"),
    textMember "htu" (ascii "https://h/"), ascii "\"iat\":5", textMember "jti" (ascii "p"),
    ascii "\"v\":" ++ version]

/-- The signing input of a header and a payload. -/
def inputOf (kind : SigningKind) (header payload : Bytes) : SigningInput :=
  ⟨kind, Base64.encode header, Base64.encode payload,
    Base64.encode header ++ ascii "." ++ Base64.encode payload⟩

def grant : Grant Selector :=
  { V1.Runtime.Sample.grant with
    operations := [⟨ascii "o", [.lte [ascii "n"] (.integer 3), .gte [ascii "n"] (.integer 1)]⟩] }

def grantInput : SigningInput :=
  inputOf .grant (grantHeaderText "EdDSA") (grantText (ascii "2") holderThumbprint)

def grantSignature : Bytes :=
  bigEndian 32 0x3AA7712F8DFF7D002C7A7C67BA85F0E0029F4C2D6A306E876EF1F033C48F1288 ++
    bigEndian 32 0x86E17A66DF839414B18D4D3088B1B9F3ABA7408969CD6BADE5D42158AE64200B

def arguments : JsonValue := .object [(ascii "n", .integer 2)]

def proof : Proof :=
  { V1.Runtime.Sample.proof with
    grantCompact := joined grantInput grantSignature
    castArguments := arguments }

def proofInput : SigningInput :=
  inputOf .proof
    (proofHeaderText "EdDSA" (Jwk.preimage holderKey))
    (proofText (ascii "2")
      (bigEndian 32 0x12BD14A899752CA9533D40B74505083826E8EB5348266BC26E1221B7748D01BB)
      (bigEndian 32 0x634107277BD2F52859A7FF6D86E84542306F7ECA956F460EA3D60CF746371C84))

def proofSignature : Bytes :=
  bigEndian 32 0x1595D94FD4A49B2297E6E94C7A82318A199AAD44D5CF63FB7BA02BB4700C56AA ++
    bigEndian 32 0x63434A572DAE0060CA6ADE18C9D68B55D108D11D2605A12F7E79DE409B4E770A

def platform : Otp := Otp.listed
  [(grantInput.message, grantSignature, issuerKey), (proofInput.message, proofSignature, holderKey)]

def credentials : Credentials :=
  ⟨joined grantInput grantSignature, joined proofInput proofSignature⟩

def expected : ExpectedRequest := { V1.Runtime.Sample.expected with castArguments := arguments }

/-- The sample credentials are honest. -/
theorem honest : Honest (major platform) platform (assembleCompact platform) grant proof credentials
    expected where
  granted := ⟨grantInput, grantSignature, by decide +kernel, by decide +kernel, by decide +kernel⟩
  proved := ⟨proofInput, proofSignature, by decide +kernel, by decide +kernel, by decide +kernel⟩
  presented := rfl
  holder := by decide +kernel
  limits := rfl
  valid := by decide +kernel
  keyId := rfl
  issuer := rfl
  audience := List.mem_singleton_self _
  method := rfl
  targetUri := rfl
  invocationId := rfl
  operation := rfl
  castArguments := rfl
  nonce := rfl
  issued := by decide
  begun := by decide
  unexpired := by decide
  notEarly := by decide
  notLate := by decide

/-- Two lies between one and three. -/
theorem selected : ∃ operation ∈ grant.operations, operation.name = proof.operation ∧
    ∀ selector ∈ operation.selectors, selector.readBack.Selects proof.castArguments := by
  refine ⟨_, List.mem_singleton_self _, rfl, fun selector chosen => ?_⟩
  have found : V1.Selector.traverse proof.castArguments [ascii "n"] = some (.integer 2) := rfl
  obtain rfl | rfl := List.mem_pair.mp chosen
  · exact ⟨_, found, rfl, 2, 3, rfl, rfl, by norm_num⟩
  · exact ⟨_, found, rfl, 1, 2, rfl, rfl, by norm_num⟩

theorem accepted : (checkEnvelope platform credentials expected).isSome = true :=
  (honest.accepted_iff (major_honours platform)).mpr selected

end Sample

/-- The sample envelope stands or falls with two between one and three. -/
theorem ranged_accepted_sample :
    (checkEnvelope Sample.platform Sample.credentials Sample.expected).isSome = true ↔
      ∃ operation ∈ Sample.grant.operations, operation.name = Sample.proof.operation ∧
        ∀ selector ∈ operation.selectors, Asks Sample.proof.castArguments selector :=
  ranged_accepted Sample.honest

end BoundedAuthority.V2.Runtime
