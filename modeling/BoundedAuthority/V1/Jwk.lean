import BoundedAuthority.V1.Base64Url
import BoundedAuthority.V1.ClosedMap
import BoundedAuthority.V1.Ed25519

/-!
# Public keys as JSON Web Keys

`lib/bounded_authority_protocol/v1/jwk.ex`.
-/

namespace BoundedAuthority.V1.Jwk

open Wire JsonValue

/-- `preimage/1` -/
def preimage (publicKey : Bytes) : Bytes :=
  ascii "\x7b\"crv\":\"Ed25519\",\"kty\":\"OKP\",\"x\":\"" ++ Base64.encode publicKey ++
    ascii "\"\x7d"

/-- `encode_public/2` -/
def encodePublic (publicKey : Bytes) (limits : Limits) : Option Bytes := do
  let bounds ← Bounds.coerce limits
  guard (publicKey.length = 32 ∧ publicKey.length ≤ bounds .publicKeyBytes)
  guard (Ed25519.acceptablePublicKey publicKey)
  some (preimage publicKey)

/-- `exact_members/1` -/
def exactMembers (members : List (Bytes × JsonValue)) : Option Bytes := do
  guard (members.length = 3)
  guard (ClosedMap.string members.reverse (ascii "crv") = some (ascii "Ed25519"))
  guard (ClosedMap.string members.reverse (ascii "kty") = some (ascii "OKP"))
  ClosedMap.string members.reverse (ascii "x")

/-- `decode_public/2` -/
def decodePublic (jwk : Bytes) (limits : Limits) : Option Bytes := do
  let bounds ← Bounds.coerce limits
  guard (jwk.length ≤ bounds .decodedSegmentBytes)
  let .object members ← Json.decode jwk bounds | none
  let x ← exactMembers members
  let publicKey ← Base64Url.decode x bounds
  guard (publicKey.length = 32 ∧ publicKey.length ≤ bounds .publicKeyBytes)
  guard (Ed25519.acceptablePublicKey publicKey)
  some publicKey

/-- `thumbprint_preimage/2` -/
def thumbprintPreimage (jwk : Bytes) (limits : Limits) : Option Bytes := do
  let publicKey ← decodePublic jwk limits
  encodePublic publicKey limits

variable (otp : Otp)

/-- `thumbprint_raw/2` -/
def thumbprintRaw (jwk : Bytes) (limits : Limits) : Option Bytes := do
  let preimage ← thumbprintPreimage jwk limits
  some (otp.sha256 preimage)

/-- `thumbprint/2` -/
def thumbprint (jwk : Bytes) (limits : Limits) : Option Bytes := do
  let digest ← thumbprintRaw otp jwk limits
  some (Base64.encode digest)

/-- `public_key_thumbprint_raw/2` -/
def publicKeyThumbprintRaw (publicKey : Bytes) (limits : Limits) : Option Bytes := do
  let jwk ← encodePublic publicKey limits
  thumbprintRaw otp jwk limits

/-- The RFC 7638 thumbprint of a key. -/
def thumbprintOf (publicKey : Bytes) : Bytes := otp.sha256 (preimage publicKey)

variable {otp} {bounds : Bounds}

theorem encodePublic_eq_some {publicKey jwk : Bytes} :
    encodePublic publicKey bounds = some jwk ↔
      Ed25519.acceptablePublicKey publicKey = true ∧ jwk = preimage publicKey := by
  simp only [encodePublic, Bounds.coerce_toLimits, Bounds.publicKeyBytes_eq, Option.bind_eq_bind,
    Option.bind_some, guard_bind_eq_some, Option.some.injEq]
  constructor
  · rintro ⟨-, acceptable, rfl⟩
    exact ⟨acceptable, rfl⟩
  · rintro ⟨acceptable, rfl⟩
    have := Ed25519.length_of_acceptablePublicKey acceptable
    exact ⟨⟨this, by omega⟩, acceptable, rfl⟩

/-- The members of the public JWK of a key. -/
def jwkMembers (publicKey : Bytes) : List (Bytes × JsonValue) :=
  [(ascii "crv", string (ascii "Ed25519")), (ascii "kty", string (ascii "OKP")),
    (ascii "x", string (Base64.encode publicKey))]

theorem ordered_jwkMembers (publicKey : Bytes) : ClosedMap.Ordered (jwkMembers publicKey) where
  plain := by simp [jwkMembers, ClosedMap.Plain]
  sorted := by
    have keys : [ascii "crv", ascii "kty", ascii "x"].Pairwise
        fun a b => Utf16.le (Utf16.units a) (Utf16.units b) = true := by decide
    exact keys

/-- The preimage of the thumbprint is canonical JSON. -/
theorem preimage_eq (publicKey : Bytes) :
    preimage publicKey = Jcs.canon (object (jwkMembers publicKey)) := by
  have sorted : Jcs.sortMembers (jwkMembers publicKey) = jwkMembers publicKey :=
    List.Pairwise.insertionSort_eq (List.pairwise_map.mp (ordered_jwkMembers publicKey).sorted)
  have text : Pieces.render (Pieces.ofString (Base64.encode publicKey)) =
      Base64.encode publicKey ++ [0x22] :=
    Pieces.render_plain fun b hb => isPlain_of_inAlphabet (Base64.inAlphabet_of_mem_encode hb)
  have crv : Jcs.canonMember (ascii "crv", string (ascii "Ed25519")) =
      ascii "\"crv\":\"Ed25519\"" := by decide
  have kty : Jcs.canonMember (ascii "kty", string (ascii "OKP")) = ascii "\"kty\":\"OKP\"" := by
    decide
  have x : Jcs.canonMember (ascii "x", string (Base64.encode publicKey)) =
      ascii "\"x\":\"" ++ (Base64.encode publicKey ++ [0x22]) := by
    rw [← text]
    rfl
  rw [Jcs.canon_object, sorted, jwkMembers, List.map_cons, List.map_cons, List.map_cons, crv, kty,
    x]
  simp [List.intercalate_cons_cons, preimage, ascii]

theorem writable_jwk {publicKey : Bytes} (size : publicKey.length = 32) :
    Jcs.Writable (object (jwkMembers publicKey)) := by
  have valid : Utf8.valid (Base64.encode publicKey) = true := Utf8.valid_ascii fun b hb =>
    lt_of_isPlain (isPlain_of_inAlphabet (Base64.inAlphabet_of_mem_encode hb))
  have length : (Base64.encode publicKey).length ≤ 8192 := by
    rw [Base64.length_encode, size]
    decide
  refine ⟨show 3 ≤ 64 by decide, show [ascii "crv", ascii "kty", ascii "x"].Nodup by decide, ?_⟩
  exact ⟨⟨by decide, by decide⟩, ⟨by decide, by decide⟩,
    ⟨by decide, by decide⟩, ⟨by decide, by decide⟩,
    ⟨by decide, by decide⟩, ⟨length, valid⟩, trivial⟩

/-- Whatever the bounds, the preimage of a key is decoded to that key. -/
theorem decodePublic_preimage {publicKey publicKey' : Bytes} (size : publicKey.length = 32)
    (h : decodePublic (preimage publicKey) bounds = some publicKey') : publicKey' = publicKey := by
  simp only [decodePublic, Bounds.coerce_toLimits, Option.bind_eq_bind, Option.bind_some,
    Option.bind_eq_some_iff, guard_eq_some, exists_const] at h
  obtain ⟨-, value, decoded, h⟩ := h
  obtain ⟨-, t, document, accepts⟩ := Json.decode_eq_some.mp decoded
  have own := Text.document_render (Jcs.quoted_text (object (jwkMembers publicKey)))
  rw [preimage_eq] at document
  obtain rfl := document.unique own
  have denotes := accepts.denotes
  rw [Jcs.value_text (writable_jwk size), ClosedMap.normal_of_ordered
    (ordered_jwkMembers publicKey), Option.some.injEq] at denotes
  subst denotes
  have exact : exactMembers (jwkMembers publicKey) = some (Base64.encode publicKey) := by
    have crv : ClosedMap.string (jwkMembers publicKey).reverse (ascii "crv") =
        some (ascii "Ed25519") := rfl
    have kty : ClosedMap.string (jwkMembers publicKey).reverse (ascii "kty") =
        some (ascii "OKP") := rfl
    have x : ClosedMap.string (jwkMembers publicKey).reverse (ascii "x") =
        some (Base64.encode publicKey) := rfl
    have length : (jwkMembers publicKey).length = 3 := rfl
    simp [exactMembers, crv, kty, x, length]
  simp only [exact, Option.bind_some, Option.bind_eq_some_iff, guard_eq_some, exists_const,
    Option.some.injEq] at h
  obtain ⟨_, base64, -, -, rfl⟩ := h
  exact (Base64.encode_injective (Base64Url.decode_eq_some.mp base64).1).symm

theorem length_preimage {publicKey : Bytes} (size : publicKey.length = 32) :
    (preimage publicKey).length = 79 := by
  have text : (Base64.encode publicKey).length = 43 := by rw [Base64.length_encode, size]; rfl
  simp only [preimage, List.length_append, text]
  decide

/-- The preimage of an acceptable key is what the canonical encoder writes. -/
theorem encode_jwk {publicKey : Bytes} (acceptable : Ed25519.acceptablePublicKey publicKey = true) :
    Jcs.encode (object (jwkMembers publicKey)) Bounds.maximum = some (preimage publicKey) := by
  have size := Ed25519.length_of_acceptablePublicKey acceptable
  refine Jcs.encode_eq_some.mpr ⟨⟨writable_jwk size, ?_, ?_⟩, ?_, preimage_eq publicKey⟩
  · exact show 1 ≤ 32 by decide
  · rw [← preimage_eq, length_preimage size]
    decide
  · exact show 4 ≤ 4096 by decide

/-- Under the maximal bounds the preimage of an acceptable key is decoded. -/
theorem decodePublic_preimage_maximum {publicKey : Bytes}
    (acceptable : Ed25519.acceptablePublicKey publicKey = true) :
    decodePublic (preimage publicKey) Bounds.maximum = some publicKey := by
  have size := Ed25519.length_of_acceptablePublicKey acceptable
  have text : (Base64.encode publicKey).length = 43 := by rw [Base64.length_encode, size]; rfl
  have length := length_preimage size
  have written := encode_jwk acceptable
  have read := ClosedMap.decode_encode (ordered_jwkMembers publicKey) written
  have exact : exactMembers (jwkMembers publicKey) = some (Base64.encode publicKey) := rfl
  have key : Base64Url.decode (Base64.encode publicKey) Bounds.maximum = some publicKey := by
    refine Base64Url.decode_eq_some.mpr ⟨rfl, ?_, ?_⟩
    · rw [text]; decide
    · rw [size]; decide
  simp only [decodePublic, Bounds.coerce_toLimits, read, exact, key, length, size, acceptable,
    Option.bind_eq_bind, Option.bind_some, Bounds.publicKeyBytes_eq]
  rfl

/-- The thumbprint of an acceptable key under the maximal bounds. -/
theorem publicKeyThumbprintRaw_maximum {publicKey : Bytes}
    (acceptable : Ed25519.acceptablePublicKey publicKey = true) :
    publicKeyThumbprintRaw otp publicKey Bounds.maximum = some (thumbprintOf otp publicKey) := by
  have encoded : encodePublic publicKey Bounds.maximum = some (preimage publicKey) :=
    encodePublic_eq_some.mpr ⟨acceptable, rfl⟩
  simp only [publicKeyThumbprintRaw, thumbprintRaw, thumbprintPreimage, encoded,
    decodePublic_preimage_maximum acceptable, Option.bind_eq_bind, Option.bind_some]
  rfl

/-- The thumbprint of an acceptable key is the digest of its canonical JWK. -/
theorem publicKeyThumbprintRaw_spec {publicKey digest : Bytes}
    (h : publicKeyThumbprintRaw otp publicKey bounds = some digest) :
    Ed25519.acceptablePublicKey publicKey = true ∧ digest = thumbprintOf otp publicKey := by
  simp only [publicKeyThumbprintRaw, thumbprintRaw, thumbprintPreimage, Option.bind_eq_bind,
    Option.bind_eq_some_iff, Option.some.injEq, encodePublic_eq_some] at h
  obtain ⟨_, ⟨acceptable, rfl⟩, _, ⟨key, decoded, -, rfl⟩, rfl⟩ := h
  obtain rfl := decodePublic_preimage (Ed25519.length_of_acceptablePublicKey acceptable) decoded
  exact ⟨acceptable, rfl⟩

end BoundedAuthority.V1.Jwk
