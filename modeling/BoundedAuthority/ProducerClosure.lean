import BoundedAuthority.ContentAssertion.Codec
import BoundedAuthority.RoleAttestation.Codec
import BoundedAuthority.V1.Platform

/-!
# Producers of the sibling profiles

Role attestations and content assertions are written, assembled and decoded under
one set of ceilings.  Whatever the ceilings are, what is written and signed is
decoded to the fields it was written from.

The frame is `opened_of_writeSigned`.  What is left for each profile is that its
payload is long enough and that its fields are read back from the opened payload.
-/

namespace BoundedAuthority

open Wire JsonValue V1

variable {otp : Otp} {bounds : Bounds} {compact : Bytes} {input : SigningInput} {limits : Limits}
  {opened : Opened}

/-! ## Role attestations -/

namespace RoleAttestation.Codec

variable {attestation : Attestation}

theorem payloadJson_names (attestation : Attestation) :
    (payloadJson attestation).map Prod.fst = payloadKeys := rfl

/-- The payload is longer than a signature: it holds a public key and a key id. -/
theorem length_payloadJson (size : attestation.publicKey.length = 32) :
    64 ≤ (Jcs.canon (.object (payloadJson attestation))).length := by
  have members := sum_length_le_canon (payloadJson attestation)
  have publicKey := @length_canonMember_digest (ascii "public_key") _ size
  have name : (Pieces.render (Pieces.ofString (ascii "public_key"))).length = 11 := by
    decide
  have keyId : 7 ≤ (Jcs.canonMember (ascii "key_id", .string attestation.keyId)).length := by
    have name : (Pieces.render (Pieces.ofString (ascii "key_id"))).length = 7 := by decide
    simp only [Jcs.canonMember, List.length_cons, List.length_append, name]
    omega
  simp only [payloadJson, List.map_cons, List.sum_cons] at members
  simp only [payloadJson]
  omega

/-- The fields are read from what is opened. -/
theorem decode_of_opened (coerced : Bounds.coerce limits = some bounds)
    (valid : validateAttestation otp attestation bounds = true)
    (h : openSigned (ascii "ba+role-attestation") payloadKeys compact bounds = some opened)
    (keyId : opened.keyId = attestation.attestorKeyId)
    (read : ClosedMap.ReadFrom (payloadJson attestation) opened.payload)
    (roomy : 64 ≤ bounds .decodedSegmentBytes) (wide : 86 ≤ bounds .encodedSegmentBytes) :
    (∃ parsed, parse otp compact bounds = some parsed) ∧
      decode otp compact limits = some (decoded attestation) := by
  simp only [validateAttestation, Bool.and_eq_true, decide_eq_true_eq] at valid
  obtain ⟨⟨⟨⟨⟨⟨⟨-, jti⟩, subject⟩, publicKey⟩, role⟩, nbf⟩, exp⟩, before⟩ := valid
  have size : attestation.publicKey.length = 32 := by
    simp only [validPublicKey, Bool.and_eq_true, decide_eq_true_eq] at publicKey
    exact publicKey.1.1
  have readJti := read.string (ascii "jti") attestation.jti (by simp [payloadJson])
  have readSubject := read.string (ascii "key_id") attestation.keyId (by simp [payloadJson])
  have readRole := read.string (ascii "role") attestation.role (by simp [payloadJson])
  have readNbf := read.integer (ascii "nbf") attestation.nbf (by simp [payloadJson])
  have readExp := read.integer (ascii "exp") attestation.exp (by simp [payloadJson])
  have readKey : ClosedMap.digest opened.payload (ascii "public_key") bounds =
      some attestation.publicKey := read.digest (by simp [payloadJson]) size roomy wide
  have parses : parse otp compact bounds =
      some ⟨attestation.attestorKeyId, attestation.jti, attestation.keyId, attestation.publicKey,
        attestation.role, attestation.nbf, attestation.exp, opened.message, opened.signature⟩ := by
    simp only [parse, h, keyId, readJti, readSubject, readKey, readRole, readNbf, readExp, jti,
      subject, publicKey, role, nbf, exp, before, guard_true, Option.bind_eq_bind, Option.bind_some,
      Option.pure_def]
  refine ⟨⟨_, parses⟩, ?_⟩
  simp only [decode, coerced, parses, Option.bind_eq_bind, Option.bind_some, decoded]

/-- The writer of attestations is closed. -/
theorem closed_of_signingInput (h : signingInput otp attestation limits = some input) :
    Closed (assemble otp) (decode otp) (decoded attestation) limits input := by
  simp only [signingInput, Option.bind_eq_bind, Option.bind_eq_some_iff, guard_eq_some,
    exists_const] at h
  obtain ⟨bounds, coerced, valid, written⟩ := h
  have fields := valid
  simp only [validateAttestation, validPublicKey, Bool.and_eq_true, decide_eq_true_eq] at fields
  obtain ⟨⟨⟨⟨⟨⟨⟨attestor, -⟩, -⟩, ⟨size, -⟩, -⟩, -⟩, -⟩, -⟩, -⟩ := fields
  exact closed_of_writeSigned coerced (fun _ => rfl) attestor
    (List.Perm.of_eq (payloadJson_names attestation)) (by simp [payloadJson])
    (length_payloadJson size) written fun compact opened => decode_of_opened coerced valid

end RoleAttestation.Codec

/-! ## Content assertions -/

namespace ContentAssertion.Codec

variable {value : Assertion}

theorem payload_names (value : Claims) : ((payload value).map Prod.fst).Perm payloadKeys := by
  have names : (payload value).map Prod.fst = [ascii "v", ascii "jti", ascii "iss", ascii "aud",
      ascii "sub", ascii "profile", ascii "profile_digest", ascii "content_digest", ascii "prev",
      ascii "gen", ascii "iat", ascii "nbf", ascii "exp"] := rfl
  rw [names]
  decide

/-- The payload is longer than a signature: it holds three digests. -/
theorem length_payload {value : Claims} (profile : value.profileDigest.length = 32)
    (content : value.contentDigest.length = 32) :
    64 ≤ (Jcs.canon (.object (payload value))).length := by
  have members := sum_length_le_canon (payload value)
  have first := @length_canonMember_digest (ascii "profile_digest") _ profile
  have second := @length_canonMember_digest (ascii "content_digest") _ content
  simp only [payload, List.map_cons, List.sum_cons] at members
  simp only [payload]
  omega

/-- The fields are read from what is opened. -/
theorem decode_of_opened (coerced : Bounds.coerce limits = some bounds)
    (valid : validClaims otp value.attestorKeyId value.toClaims bounds = true)
    (h : openSigned (ascii "ba+content-assertion") payloadKeys compact bounds = some opened)
    (keyId : opened.keyId = value.attestorKeyId)
    (read : ClosedMap.ReadFrom (payload value.toClaims) opened.payload)
    (roomy : 64 ≤ bounds .decodedSegmentBytes) (wide : 86 ≤ bounds .encodedSegmentBytes) :
    (∃ parsed, parse otp compact bounds = some parsed) ∧
      decode otp compact limits = some (decoded value) := by
  have fields := valid
  simp only [validClaims, List.all_cons, List.all_nil, Bool.and_true, Bool.and_eq_true,
    decide_eq_true_eq] at fields
  obtain ⟨⟨⟨⟨⟨⟨-, profile, content, prev⟩, -⟩, -⟩, -⟩, -⟩, -⟩ := fields
  have readJti := read.string (ascii "jti") value.jti (by simp [payload])
  have readIss := read.string (ascii "iss") value.iss (by simp [payload])
  have readAud := read.string (ascii "aud") value.aud (by simp [payload])
  have readSub := read.string (ascii "sub") value.sub (by simp [payload])
  have readName := read.string (ascii "profile") value.profile (by simp [payload])
  have readProfile : ClosedMap.digest opened.payload (ascii "profile_digest") bounds =
      some value.profileDigest := read.digest (by simp [payload]) profile roomy wide
  have readContent : ClosedMap.digest opened.payload (ascii "content_digest") bounds =
      some value.contentDigest := read.digest (by simp [payload]) content roomy wide
  have readPrev : ClosedMap.digest opened.payload (ascii "prev") bounds =
      some value.prev := read.digest (by simp [payload]) prev roomy wide
  have readGen := read.integer (ascii "gen") value.gen (by simp [payload])
  have readIat := read.integer (ascii "iat") value.iat (by simp [payload])
  have readNbf := read.integer (ascii "nbf") value.nbf (by simp [payload])
  have readExp := read.integer (ascii "exp") value.exp (by simp [payload])
  have claims : decodeClaims opened.payload bounds = some value.toClaims := by
    simp only [decodeClaims, readJti, readIss, readAud, readSub, readName, readProfile, readContent,
      readPrev, readGen, readIat, readNbf, readExp, Option.bind_eq_bind, Option.bind_some]
  have parses : parse otp compact bounds =
      some ⟨value.toClaims, value.attestorKeyId, opened.message, opened.signature⟩ := by
    simp only [parse, h, claims, keyId, valid, guard_true, Option.bind_eq_bind, Option.bind_some,
      Option.pure_def]
  refine ⟨⟨_, parses⟩, ?_⟩
  simp only [decode, coerced, parses, Option.bind_eq_bind, Option.bind_some, decoded]

/-- The writer of assertions is closed. -/
theorem closed_of_signingInput (h : signingInput otp value limits = some input) :
    Closed (assemble otp) (decode otp) (decoded value) limits input := by
  simp only [signingInput, Option.bind_eq_bind, Option.bind_eq_some_iff, guard_eq_some,
    exists_const] at h
  obtain ⟨bounds, coerced, valid, written⟩ := h
  have fields := valid
  simp only [validClaims, List.all_cons, List.all_nil, Bool.and_true, Bool.and_eq_true,
    decide_eq_true_eq] at fields
  obtain ⟨⟨⟨⟨⟨⟨⟨attestor, -⟩, profile, content, -⟩, -⟩, -⟩, -⟩, -⟩, -⟩ := fields
  exact closed_of_writeSigned coerced (fun _ => rfl) attestor (payload_names value.toClaims)
    (by simp [payload]) (length_payload profile content) written
    fun compact opened => decode_of_opened coerced valid

end ContentAssertion.Codec

/-- The writers of both profiles are closed under whatever limits. -/
theorem producers_closed (otp : Otp) (limits : Limits) (input : SigningInput) :
    (∀ attestation, RoleAttestation.Codec.signingInput otp attestation limits = some input →
      Closed (RoleAttestation.Codec.assemble otp) (RoleAttestation.Codec.decode otp)
        (RoleAttestation.Codec.decoded attestation) limits input) ∧
    ∀ value, ContentAssertion.Codec.signingInput otp value limits = some input →
      Closed (ContentAssertion.Codec.assemble otp) (ContentAssertion.Codec.decode otp)
        (ContentAssertion.Codec.decoded value) limits input :=
  ⟨fun _ => RoleAttestation.Codec.closed_of_signingInput,
    fun _ => ContentAssertion.Codec.closed_of_signingInput⟩

namespace Sample

/-- Every ceiling of a segment lowered. -/
def lowered : Limits :=
  [(some .encodedSegmentBytes, 400), (some .decodedSegmentBytes, 300), (some .stringBytes, 43),
    (some .depth, 1), (some .anchorBytes, 600)]

def attestation : RoleAttestation.Attestation where
  attestorKeyId := ascii "k0"
  jti := ascii "a"
  keyId := ascii "k1"
  publicKey := bigEndian 32 0x5866666666666666666666666666666666666666666666666666666666666666
  role := ascii "holder"
  nbf := -1
  exp := 9

def assertion : ContentAssertion.Assertion where
  jti := ascii "a"
  iss := ascii "i"
  aud := ascii "b"
  sub := ascii "s"
  profile := ascii "p"
  profileDigest := List.replicate 32 1
  contentDigest := List.replicate 32 2
  prev := zeroHash
  gen := 1
  iat := 1
  nbf := 1
  exp := 9
  attestorKeyId := ascii "k0"

end Sample

open Sample in
theorem producers_closed_sample :
    (∃ input, RoleAttestation.Codec.signingInput (Otp.listed []) attestation lowered = some input ∧
      Closed (RoleAttestation.Codec.assemble (Otp.listed []))
        (RoleAttestation.Codec.decode (Otp.listed []))
        (RoleAttestation.Codec.decoded attestation) lowered input) ∧
    ∃ input, ContentAssertion.Codec.signingInput (Otp.listed []) assertion lowered = some input ∧
      Closed (ContentAssertion.Codec.assemble (Otp.listed []))
        (ContentAssertion.Codec.decode (Otp.listed []))
        (ContentAssertion.Codec.decoded assertion) lowered input := by
  have role :
      (RoleAttestation.Codec.signingInput (Otp.listed []) attestation lowered).isSome = true := by
    decide +kernel
  have content :
      (ContentAssertion.Codec.signingInput (Otp.listed []) assertion lowered).isSome = true := by
    decide +kernel
  obtain ⟨input, written⟩ := Option.isSome_iff_exists.mp role
  obtain ⟨input', written'⟩ := Option.isSome_iff_exists.mp content
  exact ⟨⟨input, written, (producers_closed _ _ _).1 _ written⟩,
    ⟨input', written', (producers_closed _ _ _).2 _ written'⟩⟩

end BoundedAuthority
