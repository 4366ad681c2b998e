import BoundedAuthority.V1.Ed25519Torsion
import Mathlib.Data.Int.GCD

/-!
# Key checks in Go

`sdks/go/ed25519_point.go` and the key checks of `sdks/go/ed25519.go`.

The decoding divides by a modular inverse and takes a power for the root, every doubling is
an addition, and the scalar is walked bit by bit.  The arithmetic is that of `math/big`.
-/

namespace BoundedAuthority.Go.Ed25519

open Wire

/-! ## `math/big` -/

/-- `SetBytes`: the number of big-endian octets. -/
def setBytes (octets : Bytes) : Int := octets.foldl (fun value b => 256 * value + b.toNat) 0

/-- `Bit` -/
def bit (value : Int) (i : Nat) : Int := value / 2 ^ i % 2

/-- `SetBit` -/
def setBit (value : Int) (i : Nat) (b : Int) : Int := value + (b - bit value i) * 2 ^ i

/-- `BitLen` -/
def bitLen (value : Int) : Nat := value.natAbs.size

/-- `ModInverse`, which returns a nil pointer when there is no inverse. -/
def modInverse (g n : Int) : Option Int := if Int.gcd g n = 1 then some (Int.gcdA g n % n) else none

/-- `Exp` with a modulus -/
def exp (x : Int) (y : Nat) (m : Int) : Int := powMod m.toNat y.size (x % m).toNat y

/-! ## Points -/

/-- `curveP` -/
def curveP : Int := 2 ^ 255 - 19

/-- `curveL` -/
def curveL : Int := 7237005577332262213973186563042994240857116359379907606001950938285454250989

/-- `curveD` -/
def curveD : Int := 0x52036cee2b6ffe738cc740797779e89800700a4d4141d8ab75eb4dca135978a3

/-- `sqrtM1` -/
def sqrtM1 : Int := 0x2b8324804fc1df0b2b4d00993dfbd7a72f431806ad2fe478c4ee1b274a0ea0b0

/-- `pPlus3D8` -/
def pPlus3D8 : Int := (curveP + 3) / 2 ^ 3

/-- `edwardsPoint` -/
structure EdwardsPoint where
  x : Int
  y : Int
  z : Int
  t : Int
deriving DecidableEq, Repr

/-- `fieldMod` -/
def fieldMod (v : Int) : Int := v % curveP

/-- `decodeEdwardsPoint`.  The outer `none` is the panic on a nil inverse. -/
def decodeEdwardsPoint (enc : Bytes) : Option (Option EdwardsPoint) :=
  let v := setBytes enc.reverse
  let sign := bit v 255
  let y := setBit v 255 0
  if y ≥ curveP then some none
  else
    let y2 := y * y
    let u := fieldMod (y2 - 1)
    let w := fieldMod (curveD * y2 + 1)
    match modInverse w curveP with
    | none => none
    | some inverse =>
        let x2 := fieldMod (u * inverse)
        let root := exp x2 pPlus3D8.toNat curveP
        let isRoot := fun c : Int => fieldMod (c * c - x2) = 0
        let found :=
          if isRoot root then some root
          else
            let root := fieldMod (root * sqrtM1)
            if isRoot root then some root else none
        match found with
        | none => some none
        | some root =>
            if root = 0 ∧ sign = 1 then some none
            else
              let root := if bit root 0 ≠ sign then fieldMod (curveP - root) else root
              some (some ⟨root, y, 1, fieldMod (root * y)⟩)

/-- `add` -/
def EdwardsPoint.add (p q : EdwardsPoint) : EdwardsPoint :=
  let a := fieldMod ((p.y - p.x) * (q.y - q.x))
  let b := fieldMod ((p.y + p.x) * (q.y + q.x))
  let c := fieldMod (p.t * q.t * curveD * 2)
  let d := fieldMod (p.z * q.z * 2)
  let e := b - a
  let f := d - c
  let g := d + c
  let h := b + a
  ⟨fieldMod (e * f), fieldMod (g * h), fieldMod (f * g), fieldMod (e * h)⟩

/-- `double` -/
def EdwardsPoint.double (p : EdwardsPoint) : EdwardsPoint := p.add p

/-- `identityPoint` -/
def identityPoint : EdwardsPoint := ⟨0, 1, 1, 0⟩

/-- `isIdentity` -/
def EdwardsPoint.isIdentity (p : EdwardsPoint) : Bool :=
  fieldMod p.x = 0 && fieldMod (p.y - p.z) = 0

/-- One turn of the loop over the bits. -/
def walk (scalar : Int) (state : EdwardsPoint × EdwardsPoint) (i : Nat) :
    EdwardsPoint × EdwardsPoint :=
  (if bit scalar i = 1 then state.1.add state.2 else state.1, state.2.double)

/-- `timesGroupOrderIsIdentity` -/
def EdwardsPoint.timesGroupOrderIsIdentity (p : EdwardsPoint) : Bool :=
  ((List.range (bitLen curveL)).foldl (walk curveL) (identityPoint, p)).1.isIdentity

/-! ## Keys -/

/-- `hex32` of the digits of a number -/
def hex32 (digits : Nat) : Bytes := V1.Ed25519.big256 digits

/-- `smallOrderEncodings` -/
def smallOrderEncodings : List Bytes :=
  [hex32 0x0100000000000000000000000000000000000000000000000000000000000000,
    hex32 0xecffffffffffffffffffffffffffffffffffffffffffffffffffffffffffff7f,
    hex32 0x0000000000000000000000000000000000000000000000000000000000000000,
    hex32 0x0000000000000000000000000000000000000000000000000000000000000080,
    hex32 0x26e8958fc2b227b045c3f489f2ef98f0d5dfac05d3c63339b13802886d53fc05,
    hex32 0x26e8958fc2b227b045c3f489f2ef98f0d5dfac05d3c63339b13802886d53fc85,
    hex32 0xc7176a703d4dd84fba3c0b760d10670f2a2053fa2c39ccc64ec7fd7792ac037a,
    hex32 0xc7176a703d4dd84fba3c0b760d10670f2a2053fa2c39ccc64ec7fd7792ac03fa]

/-- `isSmallOrder` -/
def isSmallOrder (enc : Bytes) : Bool := smallOrderEncodings.any fun listed => enc == listed

/-- `AcceptablePublicKey` -/
def acceptablePublicKey (key : Bytes) : Option Bool :=
  if key.length ≠ 32 ∨ isSmallOrder key then some false
  else (decodeEdwardsPoint key).map fun decoded => decoded.isSome

/-- `TorsionFree` -/
def torsionFree (key : Bytes) : Option Bool :=
  if key.length ≠ 32 ∨ isSmallOrder key then some false
  else (decodeEdwardsPoint key).map fun decoded =>
    match decoded with
    | some point => point.timesGroupOrderIsIdentity
    | none => false

end BoundedAuthority.Go.Ed25519
