import BoundedAuthority.V1.Base64Url
import BoundedAuthority.V1.ClosedMap
import BoundedAuthority.V1.Otp

/-!
# P-256 keys as JSON Web Keys

`lib/bounded_authority_protocol/es256.ex` and `v3/ec_jwk.ex`.
-/

namespace BoundedAuthority.V3

open Wire JsonValue V1

namespace Es256

/-- `@n` -/
def n : Nat := 0xFFFFFFFF00000000FFFFFFFFFFFFFFFFBCE6FAADA7179E84F3B9CAC2FC632551

/-- `@p` -/
def p : Nat := 0xFFFFFFFF00000001000000000000000000000000FFFFFFFFFFFFFFFFFFFFFFFF

/-- `@b` -/
def b : Nat := 0x5AC635D8AA3A93E7B3EBBD55769886BC651D06B0CC53B0F63BCE3C3E27D2604B

/-- `canonical_signature?/1` -/
def canonicalSignature (signature : Bytes) : Bool :=
  if signature.length = 64 then
    let r := fromBigEndian (signature.take 32)
    let s := fromBigEndian (signature.drop 32)
    0 < r && r < n && 0 < s && s ≤ n / 2
  else false

/-- `acceptable_public_key?/1` -/
def acceptablePublicKey (publicKey : Bytes) : Bool :=
  match publicKey with
  | 4 :: rest =>
      if rest.length = 64 then
        let x := fromBigEndian (rest.take 32)
        let y := fromBigEndian (rest.drop 32)
        x < p && y < p && (y * y : Int) % p == ((x * x * x : Int) - 3 * x + b) % p
      else false
  | _ => false

end Es256

namespace EcJwk

/-- `jwk_preimage/2` -/
def jwkPreimage (x y : Bytes) : Bytes :=
  ascii "\x7b\"crv\":\"P-256\",\"kty\":\"EC\",\"x\":\"" ++ Base64.encode x ++
    ascii "\",\"y\":\"" ++ Base64.encode y ++ ascii "\"\x7d"

/-- `encode_public/2` -/
def encodePublic (publicKey : Bytes) (limits : Limits) : Option Bytes := do
  let _ ← Bounds.coerce limits
  guard (publicKey.length = 65)
  guard (publicKey.head? = some 4)
  guard (Es256.acceptablePublicKey publicKey)
  some (jwkPreimage ((publicKey.drop 1).take 32) (publicKey.drop 33))

/-- `exact_members/2` -/
def exactMembers (jwk : Bytes) (bounds : Bounds) : Option (Bytes × Bytes) := do
  let .object members ← Json.decode jwk bounds | none
  guard (members.length = 4)
  guard (ClosedMap.string members.reverse (ascii "crv") = some (ascii "P-256"))
  guard (ClosedMap.string members.reverse (ascii "kty") = some (ascii "EC"))
  let xEncoded ← ClosedMap.string members.reverse (ascii "x")
  let yEncoded ← ClosedMap.string members.reverse (ascii "y")
  let x ← Base64Url.decode xEncoded bounds
  let y ← Base64Url.decode yEncoded bounds
  guard (x.length = 32 ∧ y.length = 32)
  guard (Es256.acceptablePublicKey (4 :: (x ++ y)))
  some (x, y)

/-- `decode_public/2` -/
def decodePublic (jwk : Bytes) (limits : Limits) : Option Bytes := do
  let bounds ← Bounds.coerce limits
  guard (jwk.length ≤ bounds .decodedSegmentBytes)
  let (x, y) ← exactMembers jwk bounds
  some (4 :: (x ++ y))

/-- `thumbprint_preimage/2` -/
def thumbprintPreimage (jwk : Bytes) (limits : Limits) : Option Bytes := do
  let publicKey ← decodePublic jwk limits
  encodePublic publicKey limits

variable (otp : Otp)

/-- `thumbprint_raw/2` -/
def thumbprintRaw (jwk : Bytes) (limits : Limits) : Option Bytes := do
  let preimage ← thumbprintPreimage jwk limits
  some (otp.sha256 preimage)

/-- `public_key_thumbprint_raw/2` -/
def publicKeyThumbprintRaw (publicKey : Bytes) (limits : Limits) : Option Bytes := do
  let jwk ← encodePublic publicKey limits
  thumbprintRaw otp jwk limits

end EcJwk

end BoundedAuthority.V3
