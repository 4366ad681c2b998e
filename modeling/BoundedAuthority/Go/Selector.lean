import BoundedAuthority.Go.JcsAgreement
import BoundedAuthority.V1.SemanticEquality

/-!
# Selectors and digests in Go

`semanticEqual` and `typedProjection` of `sdks/go/selector.go`.

The selector recurses on two values and looks the members of one object up in a map
of the other; the digest writes a projection.  Floats are compared with `==` here,
which takes the two zeros for the same, as the text of a float does.  So the selector
holds of two values exactly when they are `Alike` (`semanticEqual_iff`), which is
exactly when the digest does not tell them apart.
-/

namespace BoundedAuthority.Go

open Wire V1 JsonValue
open V1.RequestDigest (tidy tidyFloat Alike)

/-! ## The selector -/

/-- `==` of two floats that are numbers. -/
def floatEqual (a b : F64) : Bool := a == b || (a.units == 0 && b.units == 0)

/-- The map of the members: a later one replaces an earlier one of its name. -/
def indexMembers (members : List (Bytes × JsonValue)) (key : Bytes) : Option JsonValue :=
  members.reverse.lookup key

mutual

/-- `semanticEqual` -/
def semanticEqual : JsonValue → JsonValue → Bool
  | .null, .null => true
  | .boolean av, .boolean bv => av == bv
  | .integer av, .integer bv => av == bv
  | .float av, .float bv => floatEqual av bv
  | .string av, .string bv => av == bv
  | .array av, .array bv => av.length == bv.length && itemsEqual av bv
  | .object av, .object bv => av.length == bv.length && membersEqual av (indexMembers bv)
  | _, _ => false

/-- The loop over the indices of both arrays. -/
def itemsEqual : List JsonValue → List JsonValue → Bool
  | a :: av, b :: bv => semanticEqual a b && itemsEqual av bv
  | _, _ => true

/-- The loop over the members of the left object. -/
def membersEqual : List (Bytes × JsonValue) → (index : Bytes → Option JsonValue) → Bool
  | [], _ => true
  | (key, val) :: av, index =>
      (match index key with
        | some other => semanticEqual val other
        | none => false) && membersEqual av index

end

/-! ## The digest -/

mutual

/-- `typedProjection` -/
def typedProjection : JsonValue → JsonValue
  | .null => .array [.string (ascii "null")]
  | .boolean val => .array [.string (ascii "boolean"), .boolean val]
  | .integer val => .array [.string (ascii "integer"), .integer val]
  | .float val => .array [.string (ascii "float"), .float val]
  | .string val => .array [.string (ascii "string"), .string val]
  | .array val => .array [.string (ascii "array"), .array (projectItems val)]
  | .object val => .array [.string (ascii "object"), .object (projectMembers val)]

def projectItems : List JsonValue → List JsonValue
  | [] => []
  | item :: rest => typedProjection item :: projectItems rest

def projectMembers : List (Bytes × JsonValue) → List (Bytes × JsonValue)
  | [] => []
  | (key, val) :: rest => (key, typedProjection val) :: projectMembers rest

end

/-- The projection is that of the reference. -/
theorem typedProjection_eq (v : JsonValue) : typedProjection v = RequestDigest.typed v := by
  induction v using JsonValue.induction with
  | array values ih =>
      suffices projectItems values = RequestDigest.mapValues values by
        rw [typedProjection, RequestDigest.typed, this]
        rfl
      induction values with
      | nil => rfl
      | cons value rest rih =>
          rw [projectItems, RequestDigest.mapValues, ih value List.mem_cons_self,
            rih fun v hv => ih v (List.mem_cons_of_mem _ hv)]
  | object members ih =>
      suffices projectMembers members = RequestDigest.mapMembers members by
        rw [typedProjection, RequestDigest.typed, this]
        rfl
      induction members with
      | nil => rfl
      | cons member rest rih =>
          rw [projectMembers, RequestDigest.mapMembers, ih member List.mem_cons_self,
            rih fun m hm => ih m (List.mem_cons_of_mem _ hm)]
  | _ => rfl

/-! ## Equal values are alike -/

theorem floatEqual_iff (a b : F64) : floatEqual a b = true ↔ tidyFloat a = tidyFloat b := by
  rw [floatEqual, tidyFloat, tidyFloat, Bool.or_eq_true, Bool.and_eq_true, beq_iff_eq, beq_iff_eq,
    beq_iff_eq]
  by_cases za : a.units = 0
  · by_cases zb : b.units = 0
    · rw [if_pos za, if_pos zb]
      refine iff_of_true (.inr ⟨za, zb⟩) (F64.ext rfl ?_)
      rw [za, zb]
    · rw [if_pos za, if_neg zb]
      constructor
      · rintro (rfl | ⟨-, zero⟩)
        · exact absurd za zb
        · exact absurd zero zb
      · intro same
        exact absurd ((congrArg F64.units same).symm.trans za) zb
  · rw [if_neg za]
    by_cases zb : b.units = 0
    · rw [if_pos zb]
      constructor
      · rintro (rfl | ⟨zero, -⟩)
        · exact absurd zb za
        · exact absurd zero za
      · intro same
        exact absurd ((congrArg F64.units same).trans zb) za
    · rw [if_neg zb]
      exact or_iff_left fun both => za both.1

theorem itemsEqual_iff : ∀ {left right : List JsonValue}, left.length = right.length →
    (itemsEqual left right = true ↔ List.Forall₂ (fun v w => semanticEqual v w = true) left right)
  | [], [], _ => by simp [itemsEqual]
  | v :: left, w :: right, length => by
      rw [itemsEqual, Bool.and_eq_true, List.forall₂_cons, itemsEqual_iff (by simpa using length)]

theorem membersEqual_iff {left : List (Bytes × JsonValue)} {index : Bytes → Option JsonValue} :
    membersEqual left index = true ↔
      ∀ m ∈ left, ∃ other, index m.1 = some other ∧ semanticEqual m.2 other = true := by
  induction left with
  | nil => simp [membersEqual]
  | cons m left ih =>
      obtain ⟨key, val⟩ := m
      rw [membersEqual, Bool.and_eq_true, ih, List.forall_mem_cons]
      refine and_congr_left fun _ => ?_
      cases index key <;> simp

/-- With distinct names the map holds every member. -/
theorem indexMembers_eq {members : List (Bytes × JsonValue)}
    (distinct : (members.map Prod.fst).Nodup)
    (key : Bytes) : indexMembers members key = members.lookup key := by
  have reversed : (members.reverse.map Prod.fst).Nodup := by
    rw [List.map_reverse]
    exact List.nodup_reverse.mpr distinct
  refine Option.ext fun other => ?_
  rw [indexMembers, ClosedMap.lookup_eq_some_iff reversed, ClosedMap.lookup_eq_some_iff distinct,
    List.mem_reverse]

/-- The selector holds of two values exactly when they are the same up to the order of
members and the signs of zeros. -/
theorem semanticEqual_iff_alike {a b : JsonValue} (ha : Jcs.Writable a) (hb : Jcs.Writable b) :
    semanticEqual a b = true ↔ Alike a b := by
  show _ ↔ tidy a = tidy b
  induction a using JsonValue.induction generalizing b with
  | float x =>
      cases b with
      | float y =>
          rw [semanticEqual, floatEqual_iff, tidy, tidy, JsonValue.float.injEq]
      | _ => simp [semanticEqual, tidy]
  | array left ih =>
      cases b with
      | array right =>
          rw [semanticEqual, Bool.and_eq_true, beq_iff_eq, RequestDigest.tidy_array,
            RequestDigest.tidy_array, JsonValue.array.injEq]
          have agree : left.length = right.length →
              (itemsEqual left right = true ↔ left.map tidy = right.map tidy) :=
            fun length => (itemsEqual_iff length).trans
              (Selector.items_agree length fun v hv w hw => ih v hv (ha.item hv) (hb.item hw))
          constructor
          · rintro ⟨length, equal⟩
            exact (agree length).mp equal
          · intro same
            have length : left.length = right.length := by simpa using congrArg List.length same
            exact ⟨length, (agree length).mpr same⟩
      | _ => simp [semanticEqual, tidy]
  | object left ih =>
      cases b with
      | object right =>
          rw [semanticEqual, Bool.and_eq_true, beq_iff_eq, RequestDigest.tidy_object,
            RequestDigest.tidy_object, JsonValue.object.injEq, membersEqual_iff]
          simp only [indexMembers_eq hb.2.1]
          have agree : left.length = right.length → _ := fun length =>
            @Selector.members_agree tidy semanticEqual _ _ ha.2.1 hb.2.1
              (fun m hm => (hb.member hm).1.2) length
              fun m hm n hn => ih m hm (ha.member hm).2 (hb.member hn).2
          constructor
          · rintro ⟨length, found⟩
            exact (agree length).mp found
          · intro same
            have length : left.length = right.length := by
              have := congrArg List.length same
              rwa [List.length_map, List.length_map, (Jcs.sortMembers_perm left).length_eq,
                (Jcs.sortMembers_perm right).length_eq] at this
            exact ⟨length, (agree length).mpr same⟩
      | _ => simp [semanticEqual, tidy]
  | _ => cases b <;> simp [semanticEqual, tidy]

/-! ## The two against each other -/

/-- A value that is written is within the ceilings of the profile. -/
theorem writable_of_jcsEncode {v : JsonValue} {bounds : BoundsPointer} {out : Bytes}
    (h : jcsEncode v bounds = some out) : Jcs.Writable v ∧ out = Jcs.canon v := by
  cases resolved : resolveBounds bounds with
  | none =>
      rw [jcsEncode, resolved] at h
      cases h
  | some b =>
      obtain ⟨encodable, -, same⟩ := (jcsEncode_eq_some resolved).mp h
      exact ⟨encodable.within.mono ⟨b.tightens _, b.tightens _, b.tightens _, b.tightens _,
        b.tightens _, b.tightens _⟩, same⟩

/-- Of values that are written, the selector takes for equal exactly those whose
projections have one text, whenever both have one; the maxima are the nil pointer. -/
theorem semanticEqual_iff_projection {a b : JsonValue} {bounds bounds' : BoundsPointer}
    {x y : Bytes}
    (ha : jcsEncode a bounds = some x) (hb : jcsEncode b bounds' = some y) {p q : Bytes}
    {limits limits' : BoundsPointer} (hp : jcsEncode (typedProjection a) limits = some p)
    (hq : jcsEncode (typedProjection b) limits' = some q) : semanticEqual a b = true ↔ p = q := by
  obtain ⟨writable, -⟩ := writable_of_jcsEncode ha
  obtain ⟨writable', -⟩ := writable_of_jcsEncode hb
  obtain ⟨-, rfl⟩ := writable_of_jcsEncode hp
  obtain ⟨-, rfl⟩ := writable_of_jcsEncode hq
  rw [typedProjection_eq, typedProjection_eq, RequestDigest.canon_typed_iff writable writable']
  exact semanticEqual_iff_alike writable writable'

/-- Zeros of both signs in objects with their members in another order have one projection,
and another number has another. -/
theorem semanticEqual_iff_projection_zeros :
    let a := object [(ascii "b", float (Selector.signedZero true)), (ascii "a", integer 1)]
    let b := object [(ascii "a", integer 1), (ascii "b", float (Selector.signedZero false))]
    let c := object [(ascii "a", integer 2), (ascii "b", float (Selector.signedZero false))]
    ∃ p q, jcsEncode (typedProjection a) none = some p ∧
      jcsEncode (typedProjection b) none = some p ∧ jcsEncode (typedProjection c) none = some q ∧
      p ≠ q := by
  intro a b c
  have written : ∀ v ∈ [a, b, c, typedProjection a, typedProjection b, typedProjection c],
      (jcsEncode v none).isSome = true := by decide
  simp only [List.forall_mem_cons, Option.isSome_iff_exists] at written
  obtain ⟨⟨_, ha⟩, ⟨_, hb⟩, ⟨_, hc⟩, ⟨p, hp⟩, ⟨p', hp'⟩, ⟨q, hq⟩, -⟩ := written
  obtain rfl := (semanticEqual_iff_projection ha hb hp hp').mp (by decide)
  refine ⟨p, q, hp, hp', hq, fun same => ?_⟩
  exact absurd ((semanticEqual_iff_projection ha hc hp hq).mpr same) (by decide)

end BoundedAuthority.Go
