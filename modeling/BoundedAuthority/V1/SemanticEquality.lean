import BoundedAuthority.V1.RequestBinding
import BoundedAuthority.V1.Selector

/-!
# Selectors and digests

`semantic_equal?/2` recurses on two values and looks the members of one object up in
the other; the digest writes a typed projection with the members in order.  The
digest tells two values apart exactly when they are not `Alike`
(`canon_typed_iff`).  The selector compares floats with `===`, so it tells the two
zeros apart too: it holds exactly of values that are the same with their members in
order (`semanticEqual_iff`).
-/

namespace BoundedAuthority.V1

open Wire JsonValue

namespace RequestDigest

/-! ## The digest -/

/-- The projection of a value under the ceilings of the profile is under them too. -/
theorem within_typed {value : JsonValue} (h : Jcs.Writable value) : Jcs.Writable (typed value) := by
  have tag : ∀ (tag : String) (v : JsonValue), (ascii tag).length ≤ 8192 →
      Utf8.valid (ascii tag) = true → Jcs.Writable v → Jcs.Writable (tagged tag v) :=
    fun tag v size valid hv => ⟨show 2 ≤ 256 by decide, ⟨size, valid⟩, hv, trivial⟩
  induction value using JsonValue.induction with
  | null => exact ⟨show 1 ≤ 256 by decide, ⟨by decide, by decide⟩, trivial⟩
  | boolean b => exact tag "boolean" _ (by decide) (by decide) h
  | integer n => exact tag "integer" _ (by decide) (by decide) h
  | float x => exact tag "float" _ (by decide) (by decide) h
  | string s => exact tag "string" _ (by decide) (by decide) h
  | array values ih =>
      rw [typed_array]
      refine tag "array" _ (by decide) (by decide) ⟨?_, withinItems_iff.mpr ?_⟩
      · rw [List.length_map]
        exact h.1
      · rw [List.forall_mem_map]
        exact fun v hv => ih v hv (h.item hv)
  | object members ih =>
      rw [typed_object]
      refine tag "object" _ (by decide) (by decide) ⟨?_, ?_, withinMembers_iff.mpr ?_⟩
      · rw [List.length_map]
        exact h.1
      · rw [List.map_map]
        exact h.2.1
      · rw [List.forall_mem_map]
        intro m hm
        obtain ⟨name, value⟩ := h.member hm
        exact ⟨name, ih m hm value⟩

theorem normal_tidyFloat (x : F64) : Jcs.normal (.float (tidyFloat x)) = Jcs.normal (.float x) := by
  unfold tidyFloat
  split
  next zero =>
    have whole : Jcs.integral? x = some 0 := by
      cases h : Jcs.integral? x with
      | none => exact absurd (by rw [zero, Nat.zero_mul]) (Jcs.integral_eq_none h 0)
      | some n =>
          obtain ⟨magnitude, -⟩ := Jcs.integral_eq_some h
          have := Nat.mul_eq_zero.mp (magnitude.symm.trans zero)
          have := F64.unit_pos
          have : n = 0 := by omega
          rw [this]
    have whole' : Jcs.integral? ⟨false, x.units, x.representable, x.finite⟩ = some 0 := by
      cases h : Jcs.integral? ⟨false, x.units, x.representable, x.finite⟩ with
      | none => exact absurd (by rw [Nat.zero_mul]; exact zero) (Jcs.integral_eq_none h 0)
      | some n =>
          obtain ⟨magnitude, -⟩ := Jcs.integral_eq_some h
          have := Nat.mul_eq_zero.mp (magnitude.symm.trans zero)
          have := F64.unit_pos
          have : n = 0 := by omega
          rw [this]
    rw [Jcs.normal, Jcs.normal, whole, whole']
  next => rfl

/-- The projection keeps nothing that tidying drops. -/
theorem normal_typed_tidy (value : JsonValue) :
    Jcs.normal (typed (tidy value)) = Jcs.normal (typed value) := by
  induction value using JsonValue.induction with
  | float x => rw [tidy, typed, typed, normal_tagged, normal_tagged, normal_tidyFloat]
  | array values ih =>
      rw [tidy_array, typed_array, typed_array, normal_tagged, normal_tagged, Jcs.normal_array,
        Jcs.normal_array, List.map_map, List.map_map, List.map_map]
      exact congrArg (fun vs => array [_, array vs]) (List.map_congr_left ih)
  | object members ih =>
      rw [tidy_object, typed_object, typed_object, normal_tagged, normal_tagged, Jcs.normal_object,
        Jcs.normal_object]
      rw [Jcs.sortMembers_map, Jcs.sortMembers_map, Jcs.sortMembers_sortMembers,
        Jcs.sortMembers_map, List.map_map, List.map_map, List.map_map]
      refine congrArg (fun ms => array [_, object ms]) (List.map_congr_left fun m hm => ?_)
      have member := (Jcs.sortMembers_perm members).mem_iff.mp hm
      exact Prod.ext rfl (ih m member)
  | _ => rfl

/-- The digest tells two values apart exactly when they are not alike. -/
theorem canon_typed_iff {a b : JsonValue} (ha : Jcs.Writable a) (hb : Jcs.Writable b) :
    Jcs.canon (typed a) = Jcs.canon (typed b) ↔ Alike a b := by
  rw [Jcs.canon_eq_iff (within_typed ha) (within_typed hb)]
  constructor
  · exact tidy_of_normal_typed
  · intro alike
    rw [← normal_typed_tidy a, ← normal_typed_tidy b, show tidy a = tidy b from alike]

/-! ## Members in order -/

mutual

/-- The value with the members of every object in order. -/
def ordered : JsonValue → JsonValue
  | .array values => .array (orderedItems values)
  | .object members => .object (Jcs.sortMembers (orderedMembers members))
  | .null => .null
  | .boolean b => .boolean b
  | .integer n => .integer n
  | .float x => .float x
  | .string s => .string s

def orderedItems : List JsonValue → List JsonValue
  | [] => []
  | value :: rest => ordered value :: orderedItems rest

def orderedMembers : List (Bytes × JsonValue) → List (Bytes × JsonValue)
  | [] => []
  | (key, value) :: rest => (key, ordered value) :: orderedMembers rest

end

theorem ordered_array (values : List JsonValue) :
    ordered (.array values) = .array (values.map ordered) := by
  suffices orderedItems values = values.map ordered by rw [ordered, this]
  induction values with
  | nil => rfl
  | cons value rest ih => rw [orderedItems, ih, List.map_cons]

theorem ordered_object (members : List (Bytes × JsonValue)) :
    ordered (.object members) = .object ((Jcs.sortMembers members).map (Prod.map id ordered)) := by
  suffices orderedMembers members = members.map (Prod.map id ordered) by
    rw [ordered, this, Jcs.sortMembers_map]
  induction members with
  | nil => rfl
  | cons member rest ih => rw [orderedMembers, ih, List.map_cons, Prod.map, id]

theorem tidy_ordered (value : JsonValue) : tidy (ordered value) = tidy value := by
  induction value using JsonValue.induction with
  | array values ih =>
      rw [ordered_array, tidy_array, tidy_array, List.map_map]
      exact congrArg _ (List.map_congr_left ih)
  | object members ih =>
      rw [ordered_object, tidy_object, tidy_object, Jcs.sortMembers_map,
        Jcs.sortMembers_sortMembers, List.map_map]
      refine congrArg _ (List.map_congr_left fun m hm => ?_)
      exact Prod.ext rfl (ih m ((Jcs.sortMembers_perm members).mem_iff.mp hm))
  | _ => rfl

theorem alike_of_ordered {a b : JsonValue} (h : ordered a = ordered b) : Alike a b := by
  rw [Alike, ← tidy_ordered a, ← tidy_ordered b, h]

end RequestDigest

/-! ## The selector -/

namespace Selector

open RequestDigest

/-- Lists of pairs are the same as soon as they are of one length and each pair is. -/
theorem items_agree {f : JsonValue → JsonValue} {equal : JsonValue → JsonValue → Bool} :
    ∀ {left right : List JsonValue}, left.length = right.length →
      (∀ v ∈ left, ∀ w ∈ right, equal v w = true ↔ f v = f w) →
      (List.Forall₂ (fun v w => equal v w = true) left right ↔ left.map f = right.map f)
  | [], [], _, _ => by simp
  | v :: left, w :: right, length, agree => by
      have rest : List.Forall₂ (fun v w => equal v w = true) left right ↔
          left.map f = right.map f :=
        items_agree (by simpa using length)
          fun v hv w hw => agree v (List.mem_cons_of_mem _ hv) w (List.mem_cons_of_mem _ hw)
      rw [List.forall₂_cons, agree v List.mem_cons_self w List.mem_cons_self, rest, List.map_cons,
        List.map_cons, List.cons.injEq]

/-- Objects of one size whose members are all found in the other one have the same
members in order. -/
theorem members_agree {f : JsonValue → JsonValue} {equal : JsonValue → JsonValue → Bool}
    {left right : List (Bytes × JsonValue)} (distinct : (left.map Prod.fst).Nodup)
    (distinct' : (right.map Prod.fst).Nodup) (valid : ∀ m ∈ right, Utf8.valid m.1 = true)
    (length : left.length = right.length)
    (agree : ∀ m ∈ left, ∀ n ∈ right, equal m.2 n.2 = true ↔ f m.2 = f n.2) :
    (∀ m ∈ left, ∃ other, right.lookup m.1 = some other ∧ equal m.2 other = true) ↔
      (Jcs.sortMembers left).map (Prod.map id f) = (Jcs.sortMembers right).map (Prod.map id f) := by
  have names : ∀ members : List (Bytes × JsonValue),
      (members.map (Prod.map id f)).map Prod.fst = members.map Prod.fst := fun members => by
    rw [List.map_map]
    rfl
  constructor
  · intro found
    have subset : left.map (Prod.map id f) ⊆ right.map (Prod.map id f) := by
      intro pair hp
      obtain ⟨m, hm, rfl⟩ := List.mem_map.mp hp
      obtain ⟨other, present, same⟩ := found m hm
      have member := (ClosedMap.lookup_eq_some_iff distinct').mp present
      refine List.mem_map.mpr ⟨_, member, ?_⟩
      exact Prod.ext rfl ((agree m hm _ member).mp same).symm
    have nodup : (left.map (Prod.map id f)).Nodup := by
      rw [← names left] at distinct
      exact distinct.of_map
    have perm : (left.map (Prod.map id f)).Perm (right.map (Prod.map id f)) :=
      (List.subperm_of_subset nodup subset).perm_of_length_le (by
        rw [List.length_map, List.length_map, length])
    rw [← Jcs.sortMembers_map, ← Jcs.sortMembers_map]
    refine Jcs.eq_sortMembers ((Jcs.sortMembers_perm _).trans perm) (Jcs.sortMembers_sorted _) ?_ ?_
    · rw [List.forall_mem_map]
      exact valid
    · rw [names]
      exact distinct'
  · intro same m hm
    have image : Prod.map id f m ∈ (Jcs.sortMembers right).map (Prod.map id f) := by
      rw [← same]
      exact List.mem_map_of_mem ((Jcs.sortMembers_perm left).mem_iff.mpr hm)
    obtain ⟨n, hn, equalPair⟩ := List.mem_map.mp image
    have member := (Jcs.sortMembers_perm right).mem_iff.mp hn
    obtain ⟨name, value⟩ := Prod.mk.inj equalPair
    refine ⟨n.2, (ClosedMap.lookup_eq_some_iff distinct').mpr ?_,
      (agree m hm n member).mpr value.symm⟩
    rw [show m.1 = n.1 from name.symm]
    exact member

theorem semanticEqualItems_iff : ∀ {left right : List JsonValue}, left.length = right.length →
    (semanticEqualItems left right = true ↔
      List.Forall₂ (fun v w => semanticEqual v w = true) left right)
  | [], [], _ => by simp [semanticEqualItems]
  | v :: left, w :: right, length => by
      rw [semanticEqualItems, Bool.and_eq_true, List.forall₂_cons,
        semanticEqualItems_iff (by simpa using length)]

theorem semanticEqualMembers_iff {left right : List (Bytes × JsonValue)} :
    semanticEqualMembers left right = true ↔
      ∀ m ∈ left, ∃ other, right.lookup m.1 = some other ∧ semanticEqual m.2 other = true := by
  induction left with
  | nil => simp [semanticEqualMembers]
  | cons m left ih =>
      obtain ⟨key, value⟩ := m
      rw [semanticEqualMembers, Bool.and_eq_true, ih, List.forall_mem_cons]
      refine and_congr_left fun _ => ?_
      cases right.lookup key <;> simp

/-- The selector finds two values equal exactly when they are the same up to the order
of members. -/
theorem semanticEqual_iff {a b : JsonValue} (ha : Jcs.Writable a) (hb : Jcs.Writable b) :
    semanticEqual a b = true ↔ ordered a = ordered b := by
  induction a using JsonValue.induction generalizing b with
  | array left ih =>
      cases b with
      | array right =>
          rw [semanticEqual, Bool.and_eq_true, beq_iff_eq, ordered_array, ordered_array,
            JsonValue.array.injEq]
          have agree : left.length = right.length →
              (semanticEqualItems left right = true ↔ left.map ordered = right.map ordered) :=
            fun length => (semanticEqualItems_iff length).trans
              (items_agree length fun v hv w hw => ih v hv (ha.item hv) (hb.item hw))
          constructor
          · rintro ⟨length, equal⟩
            exact (agree length).mp equal
          · intro same
            have length : left.length = right.length := by simpa using congrArg List.length same
            exact ⟨length, (agree length).mpr same⟩
      | _ => simp [semanticEqual, ordered]
  | object left ih =>
      cases b with
      | object right =>
          rw [semanticEqual, ordered_object, ordered_object, JsonValue.object.injEq]
          simp only [unique, Bool.and_eq_true, decide_eq_true_eq, beq_iff_eq, ha.2.1, hb.2.1,
            true_and, semanticEqualMembers_iff]
          have agree : left.length = right.length → _ := fun length =>
            @members_agree ordered semanticEqual _ _ ha.2.1 hb.2.1
              (fun m hm => (hb.member hm).1.2) length
              fun m hm n hn => ih m hm (ha.member hm).2 (hb.member hn).2
          constructor
          · rintro ⟨length, found⟩
            exact (agree length).mp found
          · intro same
            have length : left.length = right.length := by
              have := congrArg List.length same
              rwa [List.length_map, List.length_map, (Jcs.sortMembers_perm left).length_eq,
                (Jcs.sortMembers_perm right).length_eq] at this
            exact ⟨length, (agree length).mpr same⟩
      | _ => simp [semanticEqual, ordered]
  | _ => cases b <;> simp [semanticEqual, ordered]

/-! ## The two against each other -/

/-- A value that is written under some limits is within the ceilings of the profile. -/
theorem writable_of_encode {value : JsonValue} {limits : Limits} {out : Bytes}
    (h : Jcs.encode value limits = some out) : Jcs.Writable value ∧ out = Jcs.canon value := by
  simp only [Jcs.encode, Option.bind_eq_bind, Option.bind_eq_some_iff] at h
  obtain ⟨bounds, -, h⟩ := h
  have written : Jcs.encode value bounds = some out := by
    rw [Jcs.encode, Bounds.coerce_toLimits]
    simpa only [Option.bind_eq_bind, Option.bind_some, Option.bind_eq_some_iff] using h
  obtain ⟨encodable, -, same⟩ := Jcs.encode_eq_some.mp written
  refine ⟨encodable.within.mono ?_, same⟩
  exact ⟨bounds.tightens _, bounds.tightens _, bounds.tightens _, bounds.tightens _,
    bounds.tightens _, bounds.tightens _⟩

/-- A zero float with a sign. -/
def signedZero (negative : Bool) : F64 :=
  ⟨negative, 0, Nat.dvd_zero _, Nat.mul_pos (Nat.two_pow_pos _) F64.unit_pos⟩

/-- Zeros of both signs: the digest identifies them and the selector does not. -/
theorem zeros_apart :
    (Jcs.encode (.float (signedZero false)) []).isSome = true ∧
      (Jcs.encode (.float (signedZero true)) []).isSome = true ∧
      semanticEqual (.float (signedZero false)) (.float (signedZero true)) = false ∧
      Jcs.encode (typed (.float (signedZero false))) [] = some (ascii "[\"float\",0]") ∧
      Jcs.encode (typed (.float (signedZero true))) [] = some (ascii "[\"float\",0]") := by
  refine ⟨?_, ?_, ?_, ?_, ?_⟩ <;> decide

/-- Of values that can be written, the selector finds equal exactly those with one
typed text, unless they differ in the signs of zero floats and in nothing else. -/
theorem semanticEqual_iff_digest {a b : JsonValue} {limits limits' : Limits} {x y : Bytes}
    (ha : Jcs.encode a limits = some x) (hb : Jcs.encode b limits' = some y) :
    ((semanticEqual a b = true ↔ Jcs.canon (typed a) = Jcs.canon (typed b)) ↔
      (Alike a b → ordered a = ordered b)) ∧
    ∀ limits limits' out out', Jcs.encode (typed a) limits = some out →
      Jcs.encode (typed b) limits' = some out' →
      ((semanticEqual a b = true ↔ out = out') ↔ (Alike a b → ordered a = ordered b)) := by
  obtain ⟨writable, -⟩ := writable_of_encode ha
  obtain ⟨writable', -⟩ := writable_of_encode hb
  have both : (semanticEqual a b = true ↔ Jcs.canon (typed a) = Jcs.canon (typed b)) ↔
      (Alike a b → ordered a = ordered b) := by
    rw [semanticEqual_iff writable writable', canon_typed_iff writable writable']
    exact ⟨fun h => h.mpr, fun h => ⟨alike_of_ordered, h⟩⟩
  refine ⟨both, fun _ _ out out' written written' => ?_⟩
  rw [(writable_of_encode written).2, (writable_of_encode written').2]
  exact both

/-- Members out of order. -/
theorem semanticEqual_iff_digest_members :
    let a := object [(ascii "b", integer 1), (ascii "a", array [.null])]
    let b := object [(ascii "a", array [.null]), (ascii "b", integer 1)]
    semanticEqual a b = true ∧ Jcs.canon (typed a) = Jcs.canon (typed b) := by
  intro a b
  have ha : Jcs.encode a [] = some (ascii "\x7b\"a\":[null],\"b\":1\x7d") := by decide
  have hb : Jcs.encode b [] = some (ascii "\x7b\"a\":[null],\"b\":1\x7d") := by decide
  have equal : semanticEqual a b = true := by decide
  have same : ordered a = ordered b :=
    (semanticEqual_iff (writable_of_encode ha).1 (writable_of_encode hb).1).mp equal
  exact ⟨equal, ((semanticEqual_iff_digest ha hb).1.mpr fun _ => same).mp equal⟩

end Selector

end BoundedAuthority.V1
