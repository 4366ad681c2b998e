import BoundedAuthority.V1.Fields

/-!
# Request digests

`lib/bounded_authority_protocol/v1/request_digest.ex`; the later majors differ in
the prefix.
-/

namespace BoundedAuthority.V1.RequestDigest

open Wire JsonValue

/-- A value beside the name of its type. -/
def tagged (tag : String) (value : JsonValue) : JsonValue := .array [.string (ascii tag), value]

mutual

/-- `typed/1` -/
def typed : JsonValue → JsonValue
  | .null => .array [.string (ascii "null")]
  | .boolean value => tagged "boolean" (.boolean value)
  | .integer value => tagged "integer" (.integer value)
  | .float value => tagged "float" (.float value)
  | .string value => tagged "string" (.string value)
  | .array values => tagged "array" (.array (mapValues values))
  | .object members => tagged "object" (.object (mapMembers members))

/-- `map_values/2` -/
def mapValues : List JsonValue → List JsonValue
  | [] => []
  | value :: rest => typed value :: mapValues rest

/-- `map_members/2` -/
def mapMembers : List (Bytes × JsonValue) → List (Bytes × JsonValue)
  | [] => []
  | (key, value) :: rest => (key, typed value) :: mapMembers rest

end

/-- `@prefix` -/
def digestPrefix : Bytes := ascii "BAP1-REQUEST" ++ [0]

/-- The array that is written. -/
def request (operation : Bytes) (castArguments : JsonValue) : JsonValue :=
  .array [.string operation, typed castArguments]

variable (otp : Otp)

/-- `digest/3`, with the prefix as a parameter -/
def digestWith (head : Bytes) (operation : Bytes) (castArguments : JsonValue) (limits : Limits) :
    Option Bytes := do
  let bounds ← Bounds.coerce limits
  guard (validOperation operation bounds)
  let canonical ← Jcs.encode (request operation castArguments) bounds
  some (Base64.encode (otp.sha256 (head ++ canonical)))

/-- `digest_raw/3`, with the prefix as a parameter -/
def digestRawWith (head : Bytes) (operation : Bytes) (castArguments : JsonValue) (limits : Limits) :
    Option Bytes := do
  let encoded ← digestWith otp head operation castArguments limits
  Base64.decode encoded

/-- `digest/3` -/
def digest : (operation : Bytes) → (castArguments : JsonValue) → (limits : Limits) → Option Bytes :=
  digestWith otp digestPrefix

/-- `digest_raw/3` -/
def digestRaw : (operation : Bytes) → (castArguments : JsonValue) → (limits : Limits) →
    Option Bytes :=
  digestRawWith otp digestPrefix

end BoundedAuthority.V1.RequestDigest
