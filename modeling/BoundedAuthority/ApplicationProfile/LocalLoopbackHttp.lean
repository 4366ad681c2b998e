import BoundedAuthority.V1.Uri

/-!
# Loopback URIs

`lib/bounded_authority_protocol/application_profile/local_loopback_http/v1/uri.ex`,
with the helpers it shares with the URIs of the standard profile.
-/

namespace BoundedAuthority.ApplicationProfile.LocalLoopbackHttp

open Wire V1

/-- `split_http/1` -/
def splitHttp (uri : Bytes) : Option (Bytes × Bytes) := do
  let (scheme, rest) ← cut (ascii "://") uri
  guard (Uri.asciiDowncase scheme = ascii "http")
  guard (Uri.containsAny rest (ascii "?#") = false)
  let (authority, path) := Uri.splitAuthorityPath rest
  guard (authority ≠ [])
  some (authority, path)

/-- `parse_port/2` -/
def parsePort (port host : Bytes) : Option (Bytes × Option Nat) := do
  let value ← Uri.parsePort port
  some (host, some value)

/-- `normalize_authority/1` -/
def normalizeAuthority (authority : Bytes) : Option (Bytes × Option Nat) :=
  if authority = ascii "127.0.0.1" then some (ascii "127.0.0.1", none)
  else if authority = ascii "[::1]" then some (ascii "[::1]", none)
  else if (ascii "127.0.0.1:").isPrefixOf authority then
    parsePort (authority.drop 10) (ascii "127.0.0.1")
  else if (ascii "[::1]:").isPrefixOf authority then parsePort (authority.drop 6) (ascii "[::1]")
  else none

/-- `build_uri/3` -/
def buildUri (host : Bytes) (port : Option Nat) (path : Bytes) : Bytes :=
  match port with
  | none => ascii "http://" ++ host ++ path
  | some port =>
      if port = 80 then ascii "http://" ++ host ++ path
      else ascii "http://" ++ host ++ ascii ":" ++ Decimal.ofNat port ++ path

/-- `normalize/2` -/
def normalize (uri : Bytes) (limits : Limits) : Option Bytes := do
  let bounds ← Bounds.coerce limits
  guard (uri.length ≤ bounds .uriBytes)
  guard (Uri.asciiUri uri)
  let (authority, rawPath) ← splitHttp uri
  let (host, port) ← normalizeAuthority authority
  let path ← UriPath.normalize rawPath
  let normalized := buildUri host port path
  guard (normalized.length ≤ bounds .uriBytes)
  some normalized

end BoundedAuthority.ApplicationProfile.LocalLoopbackHttp
