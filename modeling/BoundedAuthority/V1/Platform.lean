import BoundedAuthority.V1.Otp
import BoundedAuthority.Wire.Sha256

/-!
# A platform to compute on

SHA-256 itself, with the signatures that verify listed one by one.
-/

namespace BoundedAuthority.V1

open Wire

/-- A message, its signature and the key. -/
abbrev Signed := Bytes × Bytes × Bytes

/-- The platform on which exactly the listed signatures verify. -/
def Otp.listed (signatures : List Signed) : Otp where
  sha256 := Sha256.hash
  length_sha256 := Sha256.length_hash
  verify message signature publicKey := signatures.contains (message, signature, publicKey)
  uriHasScheme value := (cut (ascii ":") value).isSome

end BoundedAuthority.V1
