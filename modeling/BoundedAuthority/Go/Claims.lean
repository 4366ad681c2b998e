import BoundedAuthority.Go.Base64Url
import BoundedAuthority.Go.Uri
import BoundedAuthority.V1.ContextValidation
import BoundedAuthority.Wire.JsonValue

/-!
# Claims in the Go verifier

`sdks/go/claims.go`.

Digests and times are checked as the reference checks them.  An identifier with a colon is
not: the reference asks the platform for a URI, and the Go verifier looks at the scheme,
the bytes and the authority itself.  `AgreeOn` says that both come to one answer about an
identifier, and on one without a colon they do (`agreeOn_plain`).
-/

namespace BoundedAuthority.Go

open Wire V1 JsonValue

/-- `validScheme` -/
def validScheme (s : Bytes) : Bool :=
  match s with
  | [] => false
  | first :: rest =>
      (isUpper first || isLower first) &&
        rest.all fun c => isUpper c || isLower c || isDigit c || c == 0x2B || c == 0x2D || c == 0x2E

/-- The bytes in front of `strings.IndexAny(authority, "/?#")`. -/
def authorityOf (rest : Bytes) : Bytes := rest.takeWhile fun c => !(ascii "/?#").contains c

/-- The authority behind two slashes, in `validStringOrURI`. -/
def validAuthority (authority : Bytes) : Bool :=
  !(authority = [] || Uri.contains authority (ascii "@")) &&
    let (host, port) := Uri.splitHostPort authority
    (Uri.normalizeHost host).isSome && (Uri.normalizePort port).isSome

/-- `validStringOrURI` -/
def validStringOrURI (s : Bytes) (byteCeiling : Nat) : Bool :=
  if s.length = 0 ∨ s.length > byteCeiling then false
  else
    match cut (ascii ":") s with
    | none => true
    | some (scheme, rest) =>
        validScheme scheme && (rest.all fun c => !(c < 0x21 || c > 0x7E)) &&
          if (ascii "//").isPrefixOf rest then validAuthority (authorityOf (rest.drop 2)) else true

/-- `canonicalDigestString` -/
def canonicalDigestString (s : Bytes) : Option Bytes := do
  let raw ← base64urlDecode s
  guard (raw.length = 32)
  some raw

/-- `integralTime` -/
def integralTime (v : JsonValue) (b : Bounds) : Option Int :=
  match v with
  | .integer i =>
      if i > b .integerMagnitude ∨ i < -(b .integerMagnitude : Int) then none else some i
  | _ => none

/-! ## Digests and numbers -/

theorem canonicalDigestString_eq_some {s raw : Bytes} :
    canonicalDigestString s = some raw ↔ s = Base64.encode raw ∧ raw.length = 32 := by
  simp only [canonicalDigestString, Option.bind_eq_bind, Option.bind_eq_some_iff,
    base64urlDecode_eq_some, guard_eq_some, exists_const, Option.some.injEq]
  constructor
  · rintro ⟨_, rfl, size, rfl⟩
    exact ⟨rfl, size⟩
  · rintro ⟨rfl, size⟩
    exact ⟨raw, rfl, size, rfl⟩

theorem integralTime_eq_some {v : JsonValue} {b : Bounds} {time : Int} :
    integralTime v b = some time ↔ v = .integer time ∧ validTime time b = true := by
  simp only [validTime, Bool.and_eq_true, decide_eq_true_eq]
  cases v with
  | integer i =>
    simp only [integralTime, JsonValue.integer.injEq]
    split
    next outside =>
      constructor
      · rintro ⟨⟩
      · rintro ⟨rfl, within⟩
        omega
    next inside =>
      rw [Option.some.injEq]
      constructor
      · rintro rfl
        exact ⟨rfl, by omega⟩
      · rintro ⟨rfl, -⟩
        rfl
  | _ => simp [integralTime]

/-! ## Identifiers -/

/-- Both sides come to one answer about an identifier that is a string of the reference. -/
def AgreeOn (otp : Otp) (b : Bounds) (s : Bytes) : Prop :=
  Utf8.valid s = true → validStringOrURI s (b .identifierBytes) = validIdentifier otp s b

/-- They do about one without a colon. -/
theorem agreeOn_plain (otp : Otp) (b : Bounds) {s : Bytes} (plain : cut (ascii ":") s = none) :
    AgreeOn otp b s := by
  intro utf8
  simp only [validStringOrURI, validIdentifier, StringOrUri.valid, StringOrUri.validString, plain,
    utf8, Bool.and_true]
  by_cases size : s.length = 0 ∨ s.length > b .identifierBytes
  · rw [if_pos size]
    symm
    rw [Bool.and_eq_false_iff, decide_eq_false_iff_not, decide_eq_false_iff_not]
    omega
  · rw [if_neg size]
    symm
    rw [Bool.and_eq_true, decide_eq_true_eq, decide_eq_true_eq]
    omega

end BoundedAuthority.Go
