import BoundedAuthority.V1.JcsSpec

/-!
# Depth counted from the root

The reference counts the depth of a value from zero and asks for room below the bound.
An encoder may count from one at the root and compare with the bound at every container
instead.  `Fits` is what such an encoder accepts at a depth, before it looks at the
size of the text, and at the root it comes to the same (`encodable_iff`).
-/

namespace BoundedAuthority.V1.Jcs

open Wire JsonValue

variable {b : Bounds}

/-- A value an encoder accepts at a depth. -/
structure Fits (b : Bounds) (depth : Nat) (v : JsonValue) : Prop where
  within : Within (ceilings b) v
  depth : v.depth + depth ≤ b .depth + 1

/-- An array fits exactly when it may stand at its depth and its items fit below. -/
theorem fits_array {depth : Nat} {values : List JsonValue} : Fits b depth (.array values) ↔
    depth ≤ b .depth ∧ values.length ≤ b .arrayItems ∧ ∀ v ∈ values, Fits b (depth + 1) v := by
  constructor
  · rintro ⟨⟨count, within⟩, deep⟩
    have deep : depthItems values + 1 + depth ≤ b .depth + 1 := deep
    have items := depthItems_le.mp (show depthItems values ≤ b .depth - depth by omega)
    refine ⟨by omega, count, fun v hv => ⟨withinItems_iff.mp within v hv, ?_⟩⟩
    have := items v hv
    omega
  · rintro ⟨low, count, items⟩
    have deep : depthItems values ≤ b .depth - depth := depthItems_le.mpr fun v hv => by
      have := (items v hv).depth
      omega
    refine ⟨⟨count, withinItems_iff.mpr fun v hv => (items v hv).within⟩, ?_⟩
    show depthItems values + 1 + depth ≤ b .depth + 1
    omega

/-- A member fits when its name and its value do. -/
def FitsMember (b : Bounds) (depth : Nat) (m : Bytes × JsonValue) : Prop :=
  (ceilings b).Name m.1 ∧ Fits b depth m.2

theorem fits_object {depth : Nat} {members : List (Bytes × JsonValue)} :
    Fits b depth (.object members) ↔ depth ≤ b .depth ∧ members.length ≤ b .objectMembers ∧
      (members.map Prod.fst).Nodup ∧ ∀ m ∈ members, FitsMember b (depth + 1) m := by
  constructor
  · rintro ⟨⟨count, distinct, within⟩, deep⟩
    have deep : depthMembers members + 1 + depth ≤ b .depth + 1 := deep
    have values := depthMembers_le.mp (show depthMembers members ≤ b .depth - depth by omega)
    refine ⟨by omega, count, distinct, fun m hm => ?_⟩
    obtain ⟨name, value⟩ := withinMembers_iff.mp within m hm
    have := values m hm
    exact ⟨name, value, by omega⟩
  · rintro ⟨low, count, distinct, fits⟩
    have deep : depthMembers members ≤ b .depth - depth := depthMembers_le.mpr fun m hm => by
      have := (fits m hm).2.depth
      omega
    refine ⟨⟨count, distinct, withinMembers_iff.mpr fun m hm => ?_⟩, ?_⟩
    · exact ⟨(fits m hm).1, (fits m hm).2.within⟩
    · show depthMembers members + 1 + depth ≤ b .depth + 1
      omega

/-- At the root a value that fits only has to be short enough. -/
theorem encodable_iff {v : JsonValue} : Encodable b (b .depth) v ↔
    Fits b 1 v ∧ (canon v).length ≤ b .jcsBytes :=
  ⟨fun h => ⟨⟨h.within, Nat.succ_le_succ h.depth⟩, h.size⟩,
    fun h => ⟨h.1.within, Nat.le_of_succ_le_succ h.1.depth, h.2⟩⟩

/-- The bounds are made once. -/
theorem encode_eq_coerce (v : JsonValue) (limits : Limits) :
    encode v limits = (Bounds.coerce limits).bind fun b => encode v b := by
  rw [encode]
  cases Bounds.coerce limits with
  | none => rfl
  | some b => simp [encode]

end BoundedAuthority.V1.Jcs
