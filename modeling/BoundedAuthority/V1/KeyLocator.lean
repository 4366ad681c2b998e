import BoundedAuthority.V1.HolderBinding
import Mathlib.Data.List.Permutation

/-!
# The untrusted key locator

`untrusted_key_locator/2` of `lib/bounded_authority_protocol/v1.ex`, which reads the
protected header of a grant and nothing else.

It has its own reading of the header: the members one by one instead of a closed map.
Where the whole grant is decoded, both find the same key (`untrustedKeyLocator_eq`).
-/

namespace BoundedAuthority.V1

open Wire JsonValue

/-- `%KeyLocator{}` -/
structure KeyLocator where
  kid : Bytes
  trust : Trust
deriving DecidableEq

namespace KeyLocator

/-- `closed_header/4` -/
def closedHeader : (members : List (Bytes × JsonValue)) → (alg typ kid : Option Bytes) →
    Option Bytes
  | [], alg, typ, kid =>
      if alg = some (ascii "EdDSA") ∧ typ = some (ascii "ba+cap") then kid else none
  | (name, .string value) :: rest, alg, typ, kid =>
      if name = ascii "alg" ∧ alg = none then closedHeader rest (some value) typ kid
      else if name = ascii "typ" ∧ typ = none then closedHeader rest alg (some value) kid
      else if name = ascii "kid" ∧ kid = none then closedHeader rest alg typ (some value)
      else none
  | _ :: _, _, _, _ => none

/-- `kid_bytes?/1` -/
def kidBytes (kid : Bytes) : Bool :=
  kid.all fun byte =>
    isUpper byte || isLower byte || isDigit byte || [0x2D, 0x2E, 0x5F, 0x7E].contains byte

/-- `valid_kid?/2` -/
def validKid (kid : Bytes) (maximum : Nat) : Bool :=
  if 0 < kid.length ∧ kid.length ≤ maximum then kidBytes kid else false

/-- `untrusted_key_locator/2` -/
def untrustedKeyLocator (compact : Bytes) (limits : Limits) : Option KeyLocator := do
  let bounds ← Bounds.coerce limits
  guard (compact.length ≤ bounds .compactBytes)
  let [protectedHeader, _, _] := splitGlobal (ascii ".") compact | none
  guard (protectedHeader.length ≤ bounds .encodedSegmentBytes)
  let headerBytes ← Base64Url.decode protectedHeader bounds
  let .object members ← Json.decode headerBytes bounds | none
  let kid ← closedHeader members none none none
  guard (validKid kid (bounds .kidBytes))
  some ⟨kid, .notEvaluated⟩

/-! ## The header -/

/-- The orders of three. -/
theorem perm_three {α : Type} {a b c : α} {l : List α} (h : l.Perm [a, b, c]) :
    l = [a, b, c] ∨ l = [a, c, b] ∨ l = [b, a, c] ∨ l = [b, c, a] ∨ l = [c, a, b] ∨
      l = [c, b, a] := by
  have orders := List.mem_permutations'.mpr h
  simp only [List.permutations', List.flatMap_cons, List.flatMap_nil, List.permutations'Aux,
    List.map_cons, List.map_nil, List.cons_append, List.nil_append, List.append_nil, List.mem_cons,
    List.not_mem_nil, or_false] at orders
  tauto

/-- The members of a header, in whatever order they are. -/
theorem closedHeader_of_perm {members : List (Bytes × JsonValue)} {kid : Bytes}
    (h : members.Perm [(ascii "alg", .string (ascii "EdDSA")), (ascii "kid", .string kid),
      (ascii "typ", .string (ascii "ba+cap"))]) :
    closedHeader members none none none = some kid := by
  have algKid : ascii "kid" ≠ ascii "alg" := by decide
  have algTyp : ascii "typ" ≠ ascii "alg" := by decide
  have typKid : ascii "kid" ≠ ascii "typ" := by decide
  rcases perm_three h with rfl | rfl | rfl | rfl | rfl | rfl <;>
    simp [closedHeader, algKid, algTyp, typKid]

/-- A closed map of the three keys comes from members in some order. -/
theorem perm_of_closedMap {members : List (Bytes × JsonValue)} {map : ClosedMap}
    {alg kid typ : Bytes}
    (closed : ClosedMap.closedMap members BoundedAuthority.Runtime.grantHeaderKeys = some map)
    (hAlg : ClosedMap.string map (ascii "alg") = some alg)
    (hKid : ClosedMap.string map (ascii "kid") = some kid)
    (hTyp : ClosedMap.string map (ascii "typ") = some typ) :
    members.Perm [(ascii "alg", .string alg), (ascii "kid", .string kid),
      (ascii "typ", .string typ)] := by
  obtain ⟨names, rfl⟩ := ClosedMap.closedMap_eq_some.mp closed
  have own : BoundedAuthority.Runtime.grantHeaderKeys.Nodup := by decide
  have unique : (members.map Prod.fst).Nodup := names.nodup_iff.mpr own
  have uniqueReversed : (members.reverse.map Prod.fst).Nodup := by
    rw [List.map_reverse]
    exact List.nodup_reverse.mpr unique
  have found : ∀ {key value : Bytes}, ClosedMap.string members.reverse key = some value →
      (key, JsonValue.string value) ∈ members := by
    intro key value read
    rw [ClosedMap.string] at read
    split at read
    next found =>
      cases read
      exact List.mem_reverse.mp ((ClosedMap.lookup_eq_some_iff uniqueReversed).mp found)
    next => cases read
  have subset : [(ascii "alg", JsonValue.string alg), (ascii "kid", .string kid),
      (ascii "typ", .string typ)] ⊆ members := by
    simp [found hAlg, found hKid, found hTyp]
  have distinct : [(ascii "alg", JsonValue.string alg), (ascii "kid", .string kid),
      (ascii "typ", .string typ)].Nodup := List.Nodup.of_map Prod.fst own
  have length : members.length = 3 := by simpa [BoundedAuthority.Runtime.grantHeaderKeys]
    using names.length_eq
  exact ((distinct.subperm subset).perm_of_length_le length.le).symm

/-- Both readings ask the same of a key identifier. -/
theorem validKid_eq (kid : Bytes) (bounds : Bounds) :
    validKid kid (bounds .kidBytes) = validKeyId kid bounds := by
  have alphabet : ∀ byte : UInt8,
      (isUpper byte || isLower byte || isDigit byte || [0x2D, 0x2E, 0x5F, 0x7E].contains byte) =
        (isAlnum byte || (ascii "-._~").contains byte) :=
    byte_forall (by decide +kernel)
  simp only [validKid, kidBytes, validKeyId, asciiKeyId, alphabet]
  split
  next size => simp [Nat.succ_le_of_lt size.1, size.2]
  next size =>
    rw [eq_comm, Bool.and_eq_false_iff, Bool.and_eq_false_iff]
    refine .inl ?_
    simp only [decide_eq_false_iff_not]
    omega

/-! ## Agreement -/

/-- Three segments without a point are what the split returns. -/
theorem splitGlobal_compact {s : CompactJws.Segments} {bounds : Bounds} (fits : s.Fits bounds) :
    splitGlobal (ascii ".") s.compact = [s.protectedHeader, s.payload, s.signature] := by
  have point : ascii "." = [0x2E] := rfl
  have shape : s.compact = s.protectedHeader ++ 0x2E :: (s.payload ++ 0x2E :: s.signature) := by
    simp [CompactJws.Segments.compact, CompactJws.Segments.message, point]
  rw [shape, point, splitGlobal_singleton_append fits.protectedHeader.plain,
    splitGlobal_singleton_append fits.payload.plain, splitGlobal_singleton fits.signature.plain]

/-- A grant that is decoded is located by its own key identifier. -/
theorem untrustedKeyLocator_eq (otp : Otp) {compact : Bytes} {limits : Limits}
    {grant : BoundedAuthority.Runtime.DecodedGrant Selector}
    (decoded : Runtime.decodeGrant otp compact limits = some grant) :
    untrustedKeyLocator compact limits = some ⟨grant.keyId, .notEvaluated⟩ := by
  obtain ⟨parsed, found, rfl⟩ := Option.map_eq_some_iff.mp decoded
  obtain ⟨bounds, coerced, _⟩ := Option.bind_eq_some_iff.mp found
  have atBounds : BoundedAuthority.Runtime.parseGrant (Runtime.major otp) otp compact bounds =
      some parsed := by
    rw [← found]
    simp only [BoundedAuthority.Runtime.parseGrant, Bounds.coerce_toLimits, coerced]
  obtain ⟨opened, header, payload, isOpened, closedHeader_, _, fields, _⟩ :=
    (BoundedAuthority.Runtime.parseGrant_eq_some _ _).mp atBounds
  obtain ⟨segments, protectedBytes, _, scanned, read, _, _, _, json, _⟩ :=
    BoundedAuthority.Runtime.openCompact_eq_some.mp isOpened
  obtain ⟨rfl, fits⟩ := CompactJws.scan_eq_some.mp scanned
  have members := closedHeader_of_perm
    (perm_of_closedMap closedHeader_ fields.alg fields.kid fields.typ)
  have kid : validKid parsed.decoded.keyId (bounds .kidBytes) = true :=
    (validKid_eq _ bounds).trans fields.validKid
  simp only [untrustedKeyLocator, coerced, Option.bind_eq_bind, Option.bind_some, guard_true,
    Option.pure_def, fits.size, splitGlobal_compact fits, fits.protectedHeader.size, read, json,
    members, kid]

/-- The sample grant. -/
theorem untrustedKeyLocator_eq_sample : ∃ grant,
    Runtime.decodeGrant Runtime.Sample.platform Runtime.Sample.grantCompact [] = some grant ∧
      untrustedKeyLocator Runtime.Sample.grantCompact [] = some ⟨grant.keyId, .notEvaluated⟩ := by
  obtain ⟨grant, decoded⟩ := Option.isSome_iff_exists.mp
    (show (Runtime.decodeGrant Runtime.Sample.platform Runtime.Sample.grantCompact []).isSome = true
      by decide +kernel)
  exact ⟨grant, decoded, untrustedKeyLocator_eq _ decoded⟩

end KeyLocator

end BoundedAuthority.V1
