import BoundedAuthority.V1.Base64Url
import BoundedAuthority.V1.Otp

/-!
# Compact JWS

The scan and the digests of `lib/bounded_authority_protocol/v1/compact_jws.ex`.
-/

namespace BoundedAuthority.V1.CompactJws

open Wire

/-- The three segments of a compact serialization. -/
structure Segments where
  protectedHeader : Bytes
  payload : Bytes
  signature : Bytes
deriving DecidableEq

/-- The bytes that are signed. -/
def Segments.message (s : Segments) : Bytes := s.protectedHeader ++ ascii "." ++ s.payload

/-- `take_segment/2` -/
def takeSegment (compact : Bytes) (bounds : Bounds) : Option (Bytes × Bytes) := do
  let (segment, rest) ← cut (ascii ".") compact
  guard (0 < segment.length ∧ segment.length ≤ bounds .encodedSegmentBytes)
  some (segment, rest)

/-- `scan/2` -/
def scan (compact : Bytes) (limits : Limits) : Option Segments := do
  let bounds ← Bounds.coerce limits
  guard (compact.length ≤ bounds .compactBytes)
  let (protectedHeader, rest) ← takeSegment compact bounds
  let (payload, signature) ← takeSegment rest bounds
  guard (signature ≠ [] ∧ signature.length ≤ bounds .encodedSegmentBytes)
  guard (cut (ascii ".") signature = none)
  some ⟨protectedHeader, payload, signature⟩

variable (otp : Otp)

/-- `ath/2` -/
def ath (compact : Bytes) (limits : Limits) : Option Bytes := do
  let _ ← scan compact limits
  some (Base64.encode (otp.sha256 compact))

/-- `hash/2` -/
def hash (compact : Bytes) (limits : Limits) : Option Bytes := do
  let _ ← scan compact limits
  some (otp.sha256 compact)

/-! ## What the scan accepts -/

/-- A segment: not empty, within its bound, and without a point. -/
structure Segment (bounds : Bounds) (segment : Bytes) : Prop where
  plain : 0x2E ∉ segment
  nonempty : 0 < segment.length
  size : segment.length ≤ bounds .encodedSegmentBytes

/-- The compact serialization of three segments. -/
def Segments.compact (s : Segments) : Bytes := s.message ++ 0x2E :: s.signature

/-- Segments the scan returns. -/
structure Segments.Fits (s : Segments) (bounds : Bounds) : Prop where
  protectedHeader : Segment bounds s.protectedHeader
  payload : Segment bounds s.payload
  signature : Segment bounds s.signature
  size : s.compact.length ≤ bounds .compactBytes

variable {bounds : Bounds} {bytes : Bytes}

theorem takeSegment_eq_some {segment rest : Bytes} :
    takeSegment bytes bounds = some (segment, rest) ↔
      bytes = segment ++ 0x2E :: rest ∧ Segment bounds segment := by
  have point : ascii "." = [0x2E] := rfl
  simp only [takeSegment, Option.bind_eq_bind, Option.bind_eq_some_iff, guard_eq_some,
    exists_const, Option.some.injEq, Prod.exists, Prod.mk.injEq, point]
  constructor
  · rintro ⟨_, _, found, ⟨nonempty, size⟩, rfl, rfl⟩
    exact ⟨by simpa using cut_eq_some found, cut_singleton_notMem found, nonempty, size⟩
  · rintro ⟨rfl, plain, nonempty, size⟩
    exact ⟨_, _, cut_singleton_append rest plain, ⟨nonempty, size⟩, rfl, rfl⟩

/-- The scan accepts the compact serializations of segments that fit. -/
theorem scan_eq_some {s : Segments} :
    scan bytes bounds = some s ↔ bytes = s.compact ∧ s.Fits bounds := by
  have point : ascii "." = [0x2E] := rfl
  simp only [scan, Bounds.coerce_toLimits, Option.bind_eq_bind, Option.bind_some,
    Option.bind_eq_some_iff, guard_eq_some, exists_const, Option.some.injEq, Prod.exists,
    takeSegment_eq_some, point, cut_singleton_eq_none]
  constructor
  · rintro ⟨size, header, _, ⟨rfl, first⟩, payload, signature, ⟨rfl, second⟩, ⟨nonempty, third⟩,
      plain, rfl⟩
    refine ⟨?_, first, second, ⟨plain, List.length_pos_iff.mpr nonempty, third⟩, ?_⟩
    · simp [Segments.compact, Segments.message, point]
    · simpa [Segments.compact, Segments.message, point] using size
  · rintro ⟨rfl, first, second, third, size⟩
    refine ⟨size, s.protectedHeader, s.payload ++ 0x2E :: s.signature, ⟨?_, first⟩, s.payload,
      s.signature, ⟨rfl, second⟩, ⟨List.length_pos_iff.mp third.nonempty, third.size⟩,
      third.plain, rfl⟩
    simp [Segments.compact, Segments.message, point]

/-- The message determines the first two segments. -/
theorem segments_of_message {s s' : Segments} {bounds' : Bounds} (fits : s.Fits bounds)
    (fits' : s'.Fits bounds') (same : s.message = s'.message) :
    s.protectedHeader = s'.protectedHeader ∧ s.payload = s'.payload := by
  have first := cut_singleton_append s.payload fits.protectedHeader.plain
  have second := cut_singleton_append s'.payload fits'.protectedHeader.plain
  have point : ascii "." = [0x2E] := rfl
  simp only [Segments.message, point, List.append_assoc, List.singleton_append] at same
  rw [same, second, Option.some.injEq, Prod.mk.injEq] at first
  exact ⟨first.1.symm, first.2.symm⟩

/-- A serialization has one reading as three segments. -/
theorem compact_injective {s s' : Segments} (header : 0x2E ∉ s.protectedHeader)
    (header' : 0x2E ∉ s'.protectedHeader) (payload : 0x2E ∉ s.payload)
    (payload' : 0x2E ∉ s'.payload)
    (same : s.compact = s'.compact) : s = s' := by
  obtain ⟨h, p, x⟩ := s
  obtain ⟨h', p', x'⟩ := s'
  have point : ascii "." = [0x2E] := rfl
  simp only at header header' payload payload'
  simp only [Segments.compact, Segments.message, point, List.append_assoc, List.cons_append,
    List.nil_append] at same
  have first := cut_singleton_append (p ++ 0x2E :: x) header
  rw [same, cut_singleton_append _ header', Option.some.injEq, Prod.mk.injEq] at first
  obtain ⟨rfl, rest⟩ := first
  have second := cut_singleton_append x payload
  rw [← rest, cut_singleton_append _ payload', Option.some.injEq, Prod.mk.injEq] at second
  obtain ⟨rfl, rfl⟩ := second
  rfl

end BoundedAuthority.V1.CompactJws
