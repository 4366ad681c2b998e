import BoundedAuthority.Wire.Bytes

/-!
# The platform below the code

The parts of OTP the codec calls and does not hold are one parameter, `Otp`.
Nothing is assumed of the signature backend or of the URI parser, and of SHA-256
only the size of its output.

A claim about digests never says "a collision exists", which is true of every
hash function: it names the two distinct byte strings that collide
(`Otp.Collide`).
-/

namespace BoundedAuthority.V1

open Wire

/-- The OTP calls of the codec. -/
structure Otp where
  /-- `:crypto.hash(:sha256, bytes)` -/
  sha256 : Bytes → Bytes
  length_sha256 : ∀ bytes, (sha256 bytes).length = 32
  /-- `:crypto.verify(:eddsa, :none, message, signature, [public_key, :ed25519])` -/
  verify : (message signature publicKey : Bytes) → Bool
  /-- `URI.new/1` succeeds with a scheme -/
  uriHasScheme : Bytes → Bool

/-- Two distinct byte strings with one digest. -/
def Otp.Collide (otp : Otp) (a b : Bytes) : Prop := a ≠ b ∧ otp.sha256 a = otp.sha256 b

theorem Otp.eq_or_collide (otp : Otp) {a b : Bytes} (h : otp.sha256 a = otp.sha256 b) :
    a = b ∨ otp.Collide a b := by
  by_cases same : a = b
  · exact .inl same
  · exact .inr ⟨same, h⟩

attribute [simp] Otp.length_sha256

/-- `FixedBytes.equal?/2`; on operands of one size `:crypto.hash_equals/2` compares them. -/
def FixedBytes.equal (left right : Bytes) : Bool :=
  if left.length = right.length then left == right else false

@[simp] theorem FixedBytes.equal_iff {left right : Bytes} :
    FixedBytes.equal left right = true ↔ left = right := by
  unfold FixedBytes.equal
  split
  next => simp
  next h => simpa using fun same => h (congrArg List.length same)

/-- `<<0::256>>` -/
def zeroHash : Bytes := List.replicate 32 0

end BoundedAuthority.V1
