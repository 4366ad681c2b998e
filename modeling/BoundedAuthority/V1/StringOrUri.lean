import BoundedAuthority.V1.Otp
import BoundedAuthority.Wire.Unicode

/-!
# Strings that are URIs when they hold a colon

`lib/bounded_authority_protocol/v1/string_or_uri.ex`.
-/

namespace BoundedAuthority.V1.StringOrUri

open Wire

/-- `@uri_punctuation` -/
def uriPunctuation : Bytes := ascii "-._~:/?#[]@!$&'()*+,;="

/-- `uri_bytes?/1` -/
def uriBytes : Bytes → Bool
  | [] => true
  | 0x25 :: first :: second :: rest => isHex first && isHex second && uriBytes rest
  | byte :: rest => (isAlnum byte || uriPunctuation.contains byte) && uriBytes rest

/-- `scheme_rest?/1` -/
def schemeRest (rest : Bytes) : Bool :=
  rest.all fun byte => isAlnum byte || (ascii "+-.").contains byte

/-- `valid_scheme?/1` -/
def validScheme : Bytes → Bool
  | [] => false
  | first :: rest => (isUpper first || isLower first) && schemeRest rest

variable (otp : Otp)

/-- `valid_uri?/1` -/
def validUri (value : Bytes) : Bool := otp.uriHasScheme value && uriBytes value

/-- `valid_string?/1` -/
def validString (value : Bytes) : Bool :=
  match cut (ascii ":") value with
  | none => true
  | some (scheme, _) => validScheme scheme && validUri otp value

/-- `valid?/1` -/
def valid (value : Bytes) : Bool := Utf8.valid value && validString otp value

end BoundedAuthority.V1.StringOrUri
