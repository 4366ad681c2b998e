import BoundedAuthority.V1.Tightening
import BoundedAuthority.V3.EcJwk

/-!
# What the codec of P-256 keys writes and reads

The preimage of the thumbprint is the canonical JSON of the key, so a key is read back
from it (`decodePublic_preimage_maximum`), and the thumbprint is its digest.
-/

namespace BoundedAuthority.V3.EcJwk

open Wire JsonValue V1

variable {otp : Otp} {bounds : Bounds}

/-- The first coordinate of a key. -/
def xOf (publicKey : Bytes) : Bytes := (publicKey.drop 1).take 32

/-- The second coordinate of a key. -/
def yOf (publicKey : Bytes) : Bytes := publicKey.drop 33

/-- The preimage of the thumbprint of a key. -/
def preimage (publicKey : Bytes) : Bytes := jwkPreimage (xOf publicKey) (yOf publicKey)

/-- The RFC 7638 thumbprint of a key. -/
def thumbprintOf (otp : Otp) (publicKey : Bytes) : Bytes := otp.sha256 (preimage publicKey)

/-- An acceptable key is an octet and two coordinates. -/
structure Shape (publicKey : Bytes) : Prop where
  length : publicKey.length = 65
  first : publicKey.head? = some 4
  x : (xOf publicKey).length = 32
  y : (yOf publicKey).length = 32
  whole : publicKey = 4 :: (xOf publicKey ++ yOf publicKey)

theorem shape_of_acceptable {publicKey : Bytes} (h : Es256.acceptablePublicKey publicKey = true) :
    Shape publicKey := by
  unfold Es256.acceptablePublicKey at h
  split at h
  next rest =>
    split at h
    next size =>
      refine ⟨by simp [size], rfl, by simp [xOf, size], by simp [yOf, size], ?_⟩
      exact congrArg (4 :: ·) (List.take_append_drop 32 rest).symm
    next => cases h
  next => cases h

theorem encodePublic_eq_some {publicKey jwk : Bytes} :
    encodePublic publicKey bounds = some jwk ↔
      Es256.acceptablePublicKey publicKey = true ∧ jwk = preimage publicKey := by
  simp only [encodePublic, Bounds.coerce_toLimits, Option.bind_eq_bind, Option.bind_some,
    guard_bind_eq_some, Option.some.injEq]
  constructor
  · rintro ⟨-, -, acceptable, rfl⟩
    exact ⟨acceptable, rfl⟩
  · rintro ⟨acceptable, rfl⟩
    have shape := shape_of_acceptable acceptable
    exact ⟨shape.length, shape.first, acceptable, rfl⟩

/-! ## The canonical object -/

/-- The members of the public JWK of a key. -/
def jwkMembers (publicKey : Bytes) : List (Bytes × JsonValue) :=
  [(ascii "crv", string (ascii "P-256")), (ascii "kty", string (ascii "EC")),
    (ascii "x", string (Base64.encode (xOf publicKey))),
    (ascii "y", string (Base64.encode (yOf publicKey)))]

theorem ordered_jwkMembers (publicKey : Bytes) : ClosedMap.Ordered (jwkMembers publicKey) where
  plain := by simp [jwkMembers, ClosedMap.Plain]
  sorted := by
    have keys : [ascii "crv", ascii "kty", ascii "x", ascii "y"].Pairwise
        fun a b => Utf16.le (Utf16.units a) (Utf16.units b) = true := by decide
    exact keys

/-- A coordinate as a member. -/
theorem canonMember_coordinate (name : Bytes) (coordinate : Bytes) :
    Jcs.canonMember (name, string (Base64.encode coordinate)) =
      Jcs.canon (string name) ++ 0x3A :: 0x22 :: (Base64.encode coordinate ++ [0x22]) := by
  have text : Pieces.render (Pieces.ofString (Base64.encode coordinate)) =
      Base64.encode coordinate ++ [0x22] :=
    Pieces.render_plain fun b hb => isPlain_of_inAlphabet (Base64.inAlphabet_of_mem_encode hb)
  rw [← text]
  rfl

/-- The preimage of the thumbprint is canonical JSON. -/
theorem preimage_eq (publicKey : Bytes) :
    preimage publicKey = Jcs.canon (object (jwkMembers publicKey)) := by
  have sorted : Jcs.sortMembers (jwkMembers publicKey) = jwkMembers publicKey :=
    List.Pairwise.insertionSort_eq (List.pairwise_map.mp (ordered_jwkMembers publicKey).sorted)
  have crv : Jcs.canonMember (ascii "crv", string (ascii "P-256")) = ascii "\"crv\":\"P-256\"" := by
    decide
  have kty : Jcs.canonMember (ascii "kty", string (ascii "EC")) = ascii "\"kty\":\"EC\"" := by
    decide
  have x : Jcs.canon (string (ascii "x")) = ascii "\"x\"" := by decide
  have y : Jcs.canon (string (ascii "y")) = ascii "\"y\"" := by decide
  rw [Jcs.canon_object, sorted, jwkMembers, List.map_cons, List.map_cons, List.map_cons,
    List.map_cons, crv, kty, canonMember_coordinate, canonMember_coordinate, x, y]
  simp [List.intercalate_cons_cons, preimage, jwkPreimage, ascii]

theorem length_encode_coordinate {coordinate : Bytes} (size : coordinate.length = 32) :
    (Base64.encode coordinate).length = 43 := by
  rw [Base64.length_encode, size]
  rfl

theorem length_preimage {publicKey : Bytes} (shape : Shape publicKey) :
    (preimage publicKey).length = 126 := by
  simp only [preimage, jwkPreimage, List.length_append, length_encode_coordinate shape.x,
    length_encode_coordinate shape.y]
  decide

theorem writable_jwk {publicKey : Bytes} (shape : Shape publicKey) :
    Jcs.Writable (object (jwkMembers publicKey)) := by
  have valid : ∀ coordinate, Utf8.valid (Base64.encode coordinate) = true := fun coordinate =>
    Utf8.valid_ascii fun b hb =>
      lt_of_isPlain (isPlain_of_inAlphabet (Base64.inAlphabet_of_mem_encode hb))
  have x : (Base64.encode (xOf publicKey)).length ≤ 8192 := by
    rw [length_encode_coordinate shape.x]
    decide
  have y : (Base64.encode (yOf publicKey)).length ≤ 8192 := by
    rw [length_encode_coordinate shape.y]
    decide
  refine ⟨show 4 ≤ 64 by decide,
    show [ascii "crv", ascii "kty", ascii "x", ascii "y"].Nodup by decide, ?_⟩
  exact ⟨⟨by decide, by decide⟩, ⟨by decide, by decide⟩, ⟨by decide, by decide⟩,
    ⟨by decide, by decide⟩, ⟨by decide, by decide⟩, ⟨x, valid _⟩, ⟨by decide, by decide⟩,
    ⟨y, valid _⟩, trivial⟩

/-- The preimage of an acceptable key is what the canonical encoder writes. -/
theorem encode_jwk {publicKey : Bytes} (acceptable : Es256.acceptablePublicKey publicKey = true) :
    Jcs.encode (object (jwkMembers publicKey)) Bounds.maximum = some (preimage publicKey) := by
  have shape := shape_of_acceptable acceptable
  refine Jcs.encode_eq_some.mpr ⟨⟨writable_jwk shape, ?_, ?_⟩, ?_, preimage_eq publicKey⟩
  · exact show 1 ≤ 32 by decide
  · rw [← preimage_eq, length_preimage shape]
    decide
  · exact show 5 ≤ 4096 by decide

/-! ## Reading -/

/-- A member is read from the object of a key. -/
theorem string_jwkMembers (publicKey : Bytes) :
    ClosedMap.string (jwkMembers publicKey).reverse (ascii "crv") = some (ascii "P-256") ∧
      ClosedMap.string (jwkMembers publicKey).reverse (ascii "kty") = some (ascii "EC") ∧
      ClosedMap.string (jwkMembers publicKey).reverse (ascii "x") =
        some (Base64.encode (xOf publicKey)) ∧
      ClosedMap.string (jwkMembers publicKey).reverse (ascii "y") =
        some (Base64.encode (yOf publicKey)) := ⟨rfl, rfl, rfl, rfl⟩

/-- Whatever the bounds, the preimage of a key is decoded to that key. -/
theorem decodePublic_preimage {publicKey publicKey' : Bytes}
    (acceptable : Es256.acceptablePublicKey publicKey = true)
    (h : decodePublic (preimage publicKey) bounds = some publicKey') : publicKey' = publicKey := by
  have shape := shape_of_acceptable acceptable
  simp only [decodePublic, exactMembers, Bounds.coerce_toLimits, Option.bind_eq_bind,
    Option.bind_some, Option.bind_eq_some_iff, guard_eq_some, exists_const] at h
  obtain ⟨-, parts, ⟨value, decoded, h⟩, same⟩ := h
  obtain rfl := Json.decode_unique decoded (ClosedMap.decode_encode (ordered_jwkMembers publicKey)
    (encode_jwk acceptable))
  obtain ⟨crv, kty, x, y⟩ := string_jwkMembers publicKey
  simp only [crv, kty, x, y, Option.bind_eq_some_iff, guard_eq_some, exists_const,
    Option.some.injEq, exists_eq_left'] at h
  obtain ⟨-, -, -, first, foundX, second, foundY, -, -, rfl⟩ := h
  obtain rfl := Base64.encode_injective (Base64Url.decode_eq_some.mp foundX).1
  obtain rfl := Base64.encode_injective (Base64Url.decode_eq_some.mp foundY).1
  rw [← Option.some.inj same]
  exact shape.whole.symm

/-- Under the maximal bounds the preimage of an acceptable key is decoded. -/
theorem decodePublic_preimage_maximum {publicKey : Bytes}
    (acceptable : Es256.acceptablePublicKey publicKey = true) :
    decodePublic (preimage publicKey) Bounds.maximum = some publicKey := by
  have shape := shape_of_acceptable acceptable
  have read := ClosedMap.decode_encode (ordered_jwkMembers publicKey) (encode_jwk acceptable)
  obtain ⟨crv, kty, x, y⟩ := string_jwkMembers publicKey
  have coordinate : ∀ {bytes : Bytes}, bytes.length = 32 →
      Base64Url.decode (Base64.encode bytes) Bounds.maximum = some bytes := by
    intro bytes size
    refine Base64Url.decode_eq_some.mpr ⟨rfl, ?_, ?_⟩
    · rw [length_encode_coordinate size]; decide
    · rw [size]; decide
  have point : Es256.acceptablePublicKey (4 :: (xOf publicKey ++ yOf publicKey)) = true :=
    shape.whole ▸ acceptable
  have members : exactMembers (preimage publicKey) Bounds.maximum =
      some (xOf publicKey, yOf publicKey) := by
    have four : (jwkMembers publicKey).length = 4 := rfl
    simp only [exactMembers, read, four, crv, kty, x, y, coordinate shape.x, coordinate shape.y,
      shape.x, shape.y, point, Option.bind_eq_bind, Option.bind_some, and_self, guard_true,
      Option.pure_def]
  have size : (preimage publicKey).length ≤ Bounds.maximum .decodedSegmentBytes := by
    rw [length_preimage shape]
    decide
  simp only [decodePublic, Bounds.coerce_toLimits, members, size, guard_true, Option.pure_def,
    Option.bind_eq_bind, Option.bind_some]
  exact congrArg some shape.whole.symm

/-- The thumbprint of an acceptable key under the maximal bounds. -/
theorem publicKeyThumbprintRaw_maximum {publicKey : Bytes}
    (acceptable : Es256.acceptablePublicKey publicKey = true) :
    publicKeyThumbprintRaw otp publicKey Bounds.maximum = some (thumbprintOf otp publicKey) := by
  have encoded : encodePublic publicKey Bounds.maximum = some (preimage publicKey) :=
    encodePublic_eq_some.mpr ⟨acceptable, rfl⟩
  simp only [publicKeyThumbprintRaw, thumbprintRaw, thumbprintPreimage, encoded,
    decodePublic_preimage_maximum acceptable, Option.bind_eq_bind, Option.bind_some]
  rfl

/-! ## Lower ceilings -/

section

variable {lower : Bounds} (le : lower.Le bounds)

include le

theorem exactMembers_below (jwk : Bytes) :
    Below (exactMembers jwk lower) (exactMembers jwk bounds) := by
  refine Below.bind (Json.decode_below le jwk) fun value _ => ?_
  cases value with
  | object members =>
    refine Below.guard id fun _ => Below.guard id fun _ => Below.guard id fun _ => ?_
    refine Below.bind (Below.refl _) fun x _ => Below.bind (Below.refl _) fun y _ => ?_
    refine Below.bind (Base64Url.decode_below le x) fun _ _ => ?_
    exact Below.bind (Base64Url.decode_below le y) fun _ _ => Below.refl _
  | _ => exact Below.refl _

theorem decodePublic_below (jwk : Bytes) :
    Below (decodePublic jwk lower) (decodePublic jwk bounds) := by
  simp only [decodePublic, Bounds.coerce_toLimits, Option.bind_eq_bind, Option.bind_some]
  refine Below.guard (fun h => h.trans (le .decodedSegmentBytes)) fun _ => ?_
  exact Below.bind (exactMembers_below le jwk) fun _ _ => Below.refl _

omit le in
/-- A key is written without a look at the bounds. -/
theorem encodePublic_bounds (lower bounds : Bounds) (publicKey : Bytes) :
    encodePublic publicKey lower = encodePublic publicKey bounds := by
  simp only [encodePublic, Bounds.coerce_toLimits, Option.bind_eq_bind, Option.bind_some]

theorem thumbprintRaw_below (otp : Otp) (jwk : Bytes) :
    Below (thumbprintRaw otp jwk lower) (thumbprintRaw otp jwk bounds) := by
  refine Below.bind (Below.bind (decodePublic_below le jwk) fun publicKey _ => ?_) fun _ _ =>
    Below.refl _
  rw [encodePublic_bounds lower bounds]
  exact Below.refl _

theorem publicKeyThumbprintRaw_below (otp : Otp) (publicKey : Bytes) :
    Below (publicKeyThumbprintRaw otp publicKey lower)
      (publicKeyThumbprintRaw otp publicKey bounds) := by
  rw [publicKeyThumbprintRaw, encodePublic_bounds lower bounds]
  exact Below.bind (Below.refl _) fun jwk _ => thumbprintRaw_below le otp jwk

end

end BoundedAuthority.V3.EcJwk
