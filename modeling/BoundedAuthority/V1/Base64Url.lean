import BoundedAuthority.V1.Bounds
import BoundedAuthority.Wire.Base64

/-!
# Bounded base64url

`lib/bounded_authority_protocol/v1/base64url.ex`.
-/

namespace BoundedAuthority.V1.Base64Url

open Wire

/-- `projected_size/1` -/
def projectedSize (size : Nat) : Option Nat :=
  match size % 4 with
  | 0 => some (size / 4 * 3)
  | 2 => some (size / 4 * 3 + 1)
  | 3 => some (size / 4 * 3 + 2)
  | _ => none

/-- `alphabet?/1` -/
def alphabet (segment : Bytes) : Bool := segment.all Base64.inAlphabet

/-- `decode/2` -/
def decode (segment : Bytes) (limits : Limits) : Option Bytes := do
  let bounds ← Bounds.coerce limits
  guard (segment.length ≤ bounds .encodedSegmentBytes)
  guard (alphabet segment)
  let projected ← projectedSize segment.length
  guard (projected ≤ bounds .decodedSegmentBytes)
  let decoded ← Base64.decode segment
  guard (Base64.encode decoded = segment)
  some decoded

theorem projectedSize_encode (bytes : Bytes) :
    projectedSize (Base64.encode bytes).length = some bytes.length := by
  have length := Base64.length_encode bytes
  unfold projectedSize
  split at length
  next whole =>
    rw [show (Base64.encode bytes).length % 4 = 0 by omega]
    exact congrArg some (by omega)
  next part =>
    rcases show bytes.length % 3 = 1 ∨ bytes.length % 3 = 2 by omega with one | two
    · rw [show (Base64.encode bytes).length % 4 = 2 by omega]
      exact congrArg some (by omega)
    · rw [show (Base64.encode bytes).length % 4 = 3 by omega]
      exact congrArg some (by omega)

/-- The decoder accepts the canonical texts within its bounds. -/
theorem decode_eq_some {segment bytes : Bytes} {bounds : Bounds} :
    decode segment bounds = some bytes ↔ segment = Base64.encode bytes ∧
      segment.length ≤ bounds .encodedSegmentBytes ∧
        bytes.length ≤ bounds .decodedSegmentBytes := by
  simp only [decode, Bounds.coerce_toLimits, Option.bind_eq_bind, Option.bind_some,
    Option.bind_eq_some_iff, guard_eq_some, exists_const, Option.some.injEq]
  constructor
  · rintro ⟨size, -, projected, hp, fits, decoded, -, canonical, rfl⟩
    rw [← canonical, projectedSize_encode, Option.some.injEq] at hp
    exact ⟨canonical.symm, size, by omega⟩
  · rintro ⟨rfl, size, fits⟩
    refine ⟨size, ?_, _, projectedSize_encode bytes, fits, bytes, Base64.decode_encode bytes, rfl,
      rfl⟩
    exact List.all_eq_true.mpr fun c hc => Base64.inAlphabet_of_mem_encode hc

end BoundedAuthority.V1.Base64Url
