import BoundedAuthority.V1.Bounds

/-!
# The bounds of the Go verifier

`sdks/go/bounds.go`.

A caller passes a pointer to a struct with an integer for each bound.  A nil pointer
stands for the maxima, and a struct is checked field by field, since nothing keeps a
caller from filling one in.  What the check lets through is a `Bounds` of the
reference, and it is the one the reference makes of the same fields
(`resolveBounds_eq`).
-/

namespace BoundedAuthority.Go

open V1

/-- `*Bounds`; a field is named by its key. -/
abbrev BoundsPointer := Option (BoundKey → Int)

/-- `boundsKeys` -/
def boundsKeys : List BoundKey :=
  [.compactBytes, .encodedSegmentBytes, .decodedSegmentBytes, .jsonBytes, .jcsBytes, .depth,
    .objectMembers, .arrayItems, .totalNodes, .stringBytes, .numberLexemeBytes, .integerMagnitude,
    .floatMagnitude, .kidBytes, .keyBytes, .uriBytes, .identifierBytes, .nonceBytes, .methodBytes,
    .operationBytes, .audiences, .operations, .selectors, .pathSegments, .oneOfValues,
    .publicKeyBytes, .signatureBytes, .digestBytes, .clockSkew, .proofMaxAge, .chainRowBytes,
    .chainRows, .anchorBytes, .archiveHeaderBytes, .keyTransitions, .archiveChunks, .archiveBytes,
    .objectVersionBytes, .contentBytes]

/-- `validateBounds` -/
def validateBounds (b : BoundKey → Int) : Bool :=
  (boundsKeys.all fun key => 0 < b key && b key ≤ key.maximum) &&
    b .digestBytes == BoundKey.digestBytes.maximum &&
    b .publicKeyBytes == BoundKey.publicKeyBytes.maximum &&
    b .signatureBytes == BoundKey.signatureBytes.maximum

theorem mem_boundsKeys (key : BoundKey) : key ∈ boundsKeys := by
  cases key <;> decide

/-- The check of the struct is the check of an override for every key. -/
theorem validateBounds_iff {b : BoundKey → Int} :
    validateBounds b = true ↔ ∀ key, Bounds.validOverride key (b key) = true := by
  simp only [validateBounds, Bool.and_eq_true, List.all_eq_true, decide_eq_true_eq, beq_iff_eq,
    Bounds.validOverride_iff]
  constructor
  · rintro ⟨⟨⟨range, digest⟩, publicKey⟩, signature⟩ key
    obtain ⟨positive, tight⟩ := range key (mem_boundsKeys key)
    refine ⟨positive, tight, fun wide => ?_⟩
    cases key with
    | digestBytes => exact digest
    | publicKeyBytes => exact publicKey
    | signatureBytes => exact signature
    | _ => cases wide
  · intro valid
    exact ⟨⟨⟨fun key _ => ⟨(valid key).1, (valid key).2.1⟩, (valid .digestBytes).2.2 rfl⟩,
      (valid .publicKeyBytes).2.2 rfl⟩, (valid .signatureBytes).2.2 rfl⟩

/-- `resolveBounds` -/
def resolveBounds : BoundsPointer → Option Bounds
  | none => some Bounds.maximum
  | some b =>
      if h : validateBounds b = true then
        some
          { limit := fun key => (b key).toNat
            positive := fun key => by
              have := Bounds.validOverride_iff.mp (validateBounds_iff.mp h key)
              omega
            tightens := fun key => by
              have := Bounds.validOverride_iff.mp (validateBounds_iff.mp h key)
              omega
            fixed := fun key wide => by
              have := (Bounds.validOverride_iff.mp (validateBounds_iff.mp h key)).2.2 wide
              omega }
      else none

/-- The same bounds as the reference takes them: no overrides, or one for every
field. -/
def toLimits : BoundsPointer → Limits
  | none => []
  | some b => BoundKey.all.map fun key => (some key, b key)

/-- Both sides make the same bounds of the same fields, and refuse the same. -/
theorem resolveBounds_eq (bounds : BoundsPointer) :
    resolveBounds bounds = Bounds.coerce (toLimits bounds) := by
  cases bounds with
  | none => rfl
  | some b =>
      have agree : Bounds.validKeysAndValues (toLimits (some b)) = true ↔
          validateBounds b = true := by
        rw [Bounds.validKeysAndValues_iff, validateBounds_iff, toLimits, List.forall_mem_map]
        constructor
        · intro valid key
          obtain ⟨found, same, override⟩ := valid key key.mem_all
          cases same
          exact override
        · intro valid key _
          exact ⟨key, rfl, valid key⟩
      rw [resolveBounds, Bounds.coerce, Bounds.new]
      by_cases valid : validateBounds b = true
      · rw [dif_pos valid, dif_pos (agree.mpr valid)]
        congr 1
        ext key
        simp [Bounds.merge, toLimits, Bounds.lookup_map_some b key key.mem_all]
      · rw [dif_neg valid, dif_neg fun h => valid (agree.mp h)]

end BoundedAuthority.Go
