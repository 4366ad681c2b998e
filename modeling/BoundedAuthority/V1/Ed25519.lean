import BoundedAuthority.V1.Otp

/-!
# Strict Ed25519

`lib/bounded_authority_protocol/ed25519.ex`.

The byte-level clauses of the verification rule (canonical encodings, no small
order, a scalar below the group order) and the decoding of a public key are the
code's own integer arithmetic.  The cofactorless equation is the backend's.
-/

namespace BoundedAuthority.V1.Ed25519

open Wire

/-- `@p` -/
def p : Int := 2 ^ 255 - 19

/-- `@l` -/
def l : Int := 0x1000000000000000000000000000000014DEF9DEA2F79CD65812631A5CF5D3ED

/-- `@d` -/
def d : Int := 0x52036CEE2B6FFE738CC740797779E89800700A4D4141D8AB75EB4DCA135978A3

/-- `@sqrt_m1` -/
def sqrtM1 : Int := 0x2B8324804FC1DF0B2B4D00993DFBD7A72F431806AD2FE478C4EE1B274A0EA0B0

/-- `@sign_bit` -/
def signBit : Int := 2 ^ 255

/-- `<<value::little>>` -/
def little : Bytes → Int
  | [] => 0
  | b :: rest => b.toNat + 256 * little rest

/-- `<<value::big-size(256)>>` -/
def big256 (value : Nat) : Bytes :=
  (List.range 32).map fun i => UInt8.ofNat (value / 256 ^ (31 - i))

/-- `@small_order` -/
def smallOrder : List Bytes :=
  [big256 0x0100000000000000000000000000000000000000000000000000000000000000,
    big256 0xECFFFFFFFFFFFFFFFFFFFFFFFFFFFFFFFFFFFFFFFFFFFFFFFFFFFFFFFFFFFF7F,
    big256 0x0000000000000000000000000000000000000000000000000000000000000000,
    big256 0x0000000000000000000000000000000000000000000000000000000000000080,
    big256 0x26E8958FC2B227B045C3F489F2EF98F0D5DFAC05D3C63339B13802886D53FC05,
    big256 0x26E8958FC2B227B045C3F489F2EF98F0D5DFAC05D3C63339B13802886D53FC85,
    big256 0xC7176A703D4DD84FBA3C0B760D10670F2A2053FA2C39CCC64EC7FD7792AC037A,
    big256 0xC7176A703D4DD84FBA3C0B760D10670F2A2053FA2C39CCC64EC7FD7792AC03FA]

/-- `nonzero_x?/1` -/
def nonzeroX (y : Int) : Bool := if y = 1 then false else if y = p - 1 then false else true

/-- `canonical?/1` -/
def canonical (encoding : Bytes) : Bool :=
  let v := little encoding
  let y := v.tmod signBit
  y < p && (v < signBit || nonzeroX y)

/-- `small_order?/1` -/
def isSmallOrder (encoding : Bytes) : Bool := smallOrder.contains encoding

/-- `signature_gate?/1` -/
def signatureGate (signature : Bytes) : Bool :=
  if signature.length = 64 then
    let r := signature.take 32
    let s := little (signature.drop 32)
    canonical r && !isSmallOrder r && s < l
  else false

/-- `strict_gate?/2` -/
def strictGate (signature a : Bytes) : Bool :=
  if signature.length = 64 ∧ a.length = 32 then
    canonical a && !isSmallOrder a && signatureGate signature
  else false

/-- `field/1` -/
def field (value : Int) : Int :=
  let residue := value.tmod p
  if residue < 0 then residue + p else residue

/-- `square/2` -/
def square (value : Int) : Nat → Int
  | 0 => value
  | count + 1 => square (field (value * value)) count

/-- `pow_p58/1` -/
def powP58 (z : Int) : Int :=
  let z2 := field (z * z)
  let z9 := field (square z2 2 * z)
  let z11 := field (z9 * z2)
  let z_5_0 := field (field (z11 * z11) * z9)
  let z_10_0 := field (square z_5_0 5 * z_5_0)
  let z_20_0 := field (square z_10_0 10 * z_10_0)
  let z_40_0 := field (square z_20_0 20 * z_20_0)
  let z_50_0 := field (square z_40_0 10 * z_10_0)
  let z_100_0 := field (square z_50_0 50 * z_50_0)
  let z_200_0 := field (square z_100_0 100 * z_100_0)
  let z_250_0 := field (square z_200_0 50 * z_50_0)
  field (square z_250_0 2 * z)

/-- A point in extended coordinates. -/
structure Point where
  x : Int
  y : Int
  z : Int
  t : Int
deriving DecidableEq, Repr

/-- `point/3` -/
def point (x : Option Int) (y : Int) (signed : Bool) : Option Point :=
  match x with
  | none => none
  | some x =>
      let odd := x.tmod 2 == 1
      let x := if odd = signed then x else field (-x)
      some ⟨x, y, 1, field (x * y)⟩

/-- `decode_point/1` -/
def decodePoint (encoding : Bytes) : Option Point :=
  let v := little encoding
  let y := v.tmod signBit
  let u := field (y * y - 1)
  let w := field (d * y * y + 1)
  let w3 := field (field (w * w) * w)
  let w7 := field (field (w3 * w3) * w)
  let candidate := field (u * w3 * powP58 (field (u * w7)))
  let x :=
    if field (w * candidate * candidate - u) = 0 then some candidate
    else if field (w * candidate * candidate + u) = 0 then some (field (candidate * sqrtM1))
    else none
  point x y (v ≥ signBit)

/-- `acceptable_public_key?/1` -/
def acceptablePublicKey (publicKey : Bytes) : Bool :=
  if publicKey.length = 32 then
    canonical publicKey && !isSmallOrder publicKey && (decodePoint publicKey).isSome
  else false

/-- `verify_strict/3` -/
def verifyStrict (otp : Otp) (message signature publicKey : Bytes) : Bool :=
  if signature.length = 64 ∧ publicKey.length = 32 then
    strictGate signature publicKey && otp.verify message signature publicKey
  else false

/-- An acceptable key is a 32-byte string. -/
theorem length_of_acceptablePublicKey {publicKey : Bytes}
    (h : acceptablePublicKey publicKey = true) : publicKey.length = 32 := by
  unfold acceptablePublicKey at h
  split at h
  next length => exact length
  next => cases h

end BoundedAuthority.V1.Ed25519
