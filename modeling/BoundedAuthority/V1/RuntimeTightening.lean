import BoundedAuthority.Runtime.Tightening
import BoundedAuthority.V1.Platform
import BoundedAuthority.V1.Runtime

/-!
# Tightening the first major

Lower ceilings never let in what higher ceilings refuse, and never change how it is
read (`tightening_below`).
-/

namespace BoundedAuthority.V1.Runtime

open Wire JsonValue BoundedAuthority.Runtime

variable (otp : Otp)

theorem major_tightens {a b : Bounds} (le : a.Le b) : (major otp).Tightens a b where
  publicKeyBytes := by simp [major]
  decodePublic := Jwk.decodePublic_below le
  thumbprintRaw := Jwk.thumbprintRaw_below le otp
  publicKeyThumbprintRaw := Jwk.publicKeyThumbprintRaw_below le otp
  digestRaw := RequestDigest.digestRawWith_below le otp _
  selector := Selector.selector_below le
  selects _ _ := Selector.selects_mono le

/-- Every reader and writer under lower limits is below itself under higher limits. -/
theorem tightening_below {low high : Limits} {a b : Bounds}
    (coercedLow : Bounds.coerce low = some a)
    (coercedHigh : Bounds.coerce high = some b) (le : ∀ key, a key ≤ b key) :
    (∀ bytes, Below (Json.decode bytes low) (Json.decode bytes high)) ∧
    (∀ value, Below (Jcs.encode value low) (Jcs.encode value high)) ∧
    (∀ segment, Below (Base64Url.decode segment low) (Base64Url.decode segment high)) ∧
    (∀ uri, Below (Uri.normalize uri low) (Uri.normalize uri high)) ∧
    (∀ operation arguments, Below (RequestDigest.digest otp operation arguments low)
      (RequestDigest.digest otp operation arguments high)) ∧
    (∀ compact, Below (decodeGrant otp compact low) (decodeGrant otp compact high)) ∧
    (∀ compact, Below (decodeProof otp compact low) (decodeProof otp compact high)) ∧
    ∀ credentials (expected : ExpectedRequest),
      Below (checkEnvelope otp credentials { expected with bounds := low })
        (checkEnvelope otp credentials { expected with bounds := high }) := by
  -- every function reads its limits through `coerce`
  have same : ∀ {α : Type} (f : Bounds → Option α) {limits : Limits} {bounds : Bounds},
      Bounds.coerce limits = some bounds →
      (Bounds.coerce limits).bind f = (Bounds.coerce bounds).bind f := by
    intro α f limits bounds coerced
    rw [coerced, Bounds.coerce_toLimits]
  have passes : ∀ {α : Type} (f : Limits → Option α) (body : Bounds → Option α),
      (∀ limits, f limits = (Bounds.coerce limits).bind body) → Below (f a) (f b) →
      Below (f low) (f high) := by
    intro α f body reads below
    rw [reads, reads, same body coercedLow, same body coercedHigh, ← reads, ← reads]
    exact below
  have tightens := major_tightens otp le
  refine ⟨fun bytes => passes _ _ (fun _ => rfl) (Json.decode_below le bytes),
    fun value => passes _ _ (fun _ => rfl) (Jcs.encode_below le value),
    fun segment => passes _ _ (fun _ => rfl) (Base64Url.decode_below le segment),
    fun uri => passes _ _ (fun _ => rfl) (Uri.normalize_below le uri),
    fun operation arguments => passes _ _ (fun _ => rfl)
      (RequestDigest.digestWith_below le otp _ operation arguments),
    fun compact => Below.map _ ?_, fun compact => Below.map _ ?_,
    checkEnvelopeFor_below le tightens coercedLow coercedHigh⟩
  · exact passes _ _ (fun _ => rfl) (parseGrant_below le tightens compact)
  · exact passes _ _ (fun _ => rfl) (parseProof_below le tightens compact)

/-! ## A grant and a proof -/

namespace Sample

def issuerKey : Bytes := bigEndian 32
  0x8A88E3DD7409F195FD52DB2D3CBA5D72CA6709BF1D94121BF3748801B40F6F5C

def holderKey : Bytes := bigEndian 32
  0x8139770EA87D175F56A35466C34C7ECCCB8D8A91B4EE37A25DF60F5B8FC9B394

def holderThumbprint : Bytes := bigEndian 32
  0x69506D6A92DDD7549454A20C1897CFCCE103B8DD2C5DC9B32503554FEFEC2845

def grant : Grant Selector where
  keyId := ascii "k0"
  issuer := ascii "i"
  grantId := ascii "g"
  audiences := [ascii "a"]
  issuedAt := 1
  notBefore := 1
  expiresAt := 9
  holderThumbprint := holderThumbprint
  operations := [⟨ascii "o", [.all, .equals [ascii "n"] (.integer 1)]⟩]

def grantSignature : Bytes :=
  bigEndian 32 0x9D57A3382ED1F630649CB2CEEB008CABC67EFF2F14B67527F4F12FBF4F67AB92 ++
    bigEndian 32 0x82B2382DC2FA28AD8E332E4F3C1C8610153DE85BA45E93BC2C1FB3BF19CAFC05

/-- Nothing a producer does depends on the signatures that verify. -/
def producer : Otp := Otp.listed []

def grantInput : SigningInput :=
  (grantSigningInput producer grant []).getD ⟨.grant, [], [], []⟩

def grantCompact : Bytes := (assembleCompact producer grantInput grantSignature []).getD []

def arguments : JsonValue := .object [(ascii "n", .integer 1)]

def proof : Proof where
  holderPublicKey := holderKey
  proofId := ascii "p"
  method := ascii "GET"
  targetUri := ascii "https://h/"
  issuedAt := 5
  nonce := none
  invocationId := ascii "00000000-0000-1000-8000-000000000000"
  operation := ascii "o"
  grantCompact := grantCompact
  castArguments := arguments

def proofSignature : Bytes :=
  bigEndian 32 0x40E1E2E91BD9296A38869FA39A67102CAC7ADC9F649185D4BB04A326262E8A95 ++
    bigEndian 32 0x266E44C32FCCA972234E4E69DFC70A81CF7EFEC35246888AC568250198597D08

def proofInput : SigningInput :=
  (proofSigningInput producer proof []).getD ⟨.proof, [], [], []⟩

def proofCompact : Bytes := (assembleCompact producer proofInput proofSignature []).getD []

def platform : Otp := Otp.listed
  [(grantInput.message, grantSignature, issuerKey), (proofInput.message, proofSignature, holderKey)]

def credentials : Credentials := ⟨grantCompact, proofCompact⟩

def expected : ExpectedRequest where
  trustedIssuer := ⟨ascii "k0", issuerKey⟩
  issuer := ascii "i"
  audience := ascii "a"
  method := ascii "GET"
  targetUri := ascii "https://h/"
  invocationId := ascii "00000000-0000-1000-8000-000000000000"
  operation := ascii "o"
  castArguments := arguments
  evaluationTime := 6
  clockSkew := 1
  proofMaxAge := 10
  nonce := .notRequired
  bounds := []

/-- The limits the envelope needs no more than. -/
def shallow : Limits := [(some .depth, 6)]

theorem coerce_shallow :
    ∃ bounds, Bounds.coerce shallow = some bounds ∧ ∀ key, bounds key ≤ Bounds.maximum key :=
  ⟨_, rfl, fun key => Bounds.tightens _ key⟩

/-- The envelope is accepted where only so much nesting is allowed as it has. -/
theorem accepted_shallow :
    (checkEnvelope platform credentials { expected with bounds := shallow }).isSome = true := by
  decide +kernel

/-- So it is accepted. -/
theorem accepted : (checkEnvelope platform credentials expected).isSome = true := by
  obtain ⟨bounds, coerced, le⟩ := coerce_shallow
  obtain ⟨facts, found⟩ := Option.isSome_iff_exists.mp accepted_shallow
  have kept : checkEnvelope platform credentials expected = some facts :=
    checkEnvelopeFor_below le (major_tightens platform le) coerced Bounds.coerce_nil credentials
      expected facts found
  rw [kept, Option.isSome_some]

end Sample

/-- One ceiling lowered, for a text and an envelope that keep to it. -/
theorem tightening_below_sample :
    Json.decode (ascii "[1]") [] = Json.decode (ascii "[1]") Sample.shallow ∧
      Uri.normalize (ascii "https://H/") [] = Uri.normalize (ascii "https://H/") Sample.shallow ∧
      ∃ facts, checkEnvelope Sample.platform Sample.credentials
          { Sample.expected with bounds := Sample.shallow } = some facts ∧
        checkEnvelope Sample.platform Sample.credentials Sample.expected = some facts := by
  obtain ⟨a, coerced, le⟩ := Sample.coerce_shallow
  obtain ⟨json, -, -, uri, -, -, -, envelope⟩ :=
    tightening_below Sample.platform coerced Bounds.coerce_nil le
  have parsed : Json.decode (ascii "[1]") Sample.shallow = some (.array [.integer 1]) := rfl
  have normal : Uri.normalize (ascii "https://H/") Sample.shallow =
      some (ascii "https://h/") := by decide +kernel
  obtain ⟨facts, found⟩ := Option.isSome_iff_exists.mp Sample.accepted_shallow
  exact ⟨(json _ _ parsed).trans parsed.symm, (uri _ _ normal).trans normal.symm, facts, found,
    envelope Sample.credentials Sample.expected facts found⟩

end BoundedAuthority.V1.Runtime
