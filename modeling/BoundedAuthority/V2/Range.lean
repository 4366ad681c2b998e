import BoundedAuthority.V1.HonestCredentials
import BoundedAuthority.V2.Runtime
import BoundedAuthority.Wire.Binary64Value

/-!
# Range selectors

`lib/bounded_authority_protocol/v2/selector.ex`.  Both operands of a range carry one
tag and are compared as numbers.  A producer may write the bound as a float or as an
integer; on the wire its value decides, so a bound that is a whole number admits
integers only (`range_admits`).
-/

namespace BoundedAuthority.V2.Selector

open Wire JsonValue V1 BoundedAuthority.Runtime

/-! ## Numbers -/

/-- The number a value is. -/
def number : JsonValue → Option ℚ
  | .integer n => some n
  | .float x => some x.value
  | _ => none

/-- `{:integer, _}` -/
def isInteger : JsonValue → Bool
  | .integer _ => true
  | _ => false

/-- Numbers of one tag in order. -/
def AtMost (left right : JsonValue) : Prop :=
  isInteger left = isInteger right ∧
    ∃ a b, number left = some a ∧ number right = some b ∧ a ≤ b

/-- Floats are compared by their values; the two zeros are equal. -/
theorem leFloat_iff {left right : F64} : leFloat left right = true ↔ left.value ≤ right.value := by
  rw [F64.value_le_value]
  obtain ⟨negative, units, _, _⟩ := left
  obtain ⟨negative', units', _, _⟩ := right
  cases negative <;> cases negative' <;> simp only [leFloat, F64.signed] <;> split <;> simp <;>
    omega

theorem lteValue_iff {left right : JsonValue} : lteValue left right = true ↔ AtMost left right := by
  cases left with
  | integer n =>
    cases right with
    | integer m => simp [lteValue, AtMost, isInteger, number]
    | _ => simp [lteValue, AtMost, isInteger, number]
  | float x =>
    cases right with
    | float y => simp [lteValue, AtMost, isInteger, number, leFloat_iff]
    | _ => simp [lteValue, AtMost, isInteger, number]
  | _ => cases right <;> simp [lteValue, AtMost, isInteger, number]

theorem numericBound_iff {bound : JsonValue} :
    numericBound bound = true ↔ ∃ b, number bound = some b := by
  cases bound <;> simp [numericBound, number]

/-! ## Read back -/

/-- A whole float and its integer are one number. -/
theorem value_of_integral {x : F64} {n : Int} (h : Jcs.integral? x = some n) : x.value = n := by
  rw [F64.value_eq_intCast]
  obtain ⟨units, sign⟩ := Jcs.integral_eq_some h
  have count : (x.units : Int) = n.natAbs * unit := by exact_mod_cast units
  rw [F64.signed, count]
  by_cases negative : n < 0
  · have magnitude : (n.natAbs : Int) = -n := by omega
    rw [if_pos (sign.mp negative).1, magnitude, Int.neg_mul, Int.neg_neg]
  · have magnitude : (n.natAbs : Int) = n := by omega
    by_cases zero : n = 0
    · subst zero
      simp
    · have nonzero : x.units ≠ 0 := by
        rw [units]
        exact Nat.mul_ne_zero (Int.natAbs_ne_zero.mpr zero) F64.unit_pos.ne'
      have positive : ¬x.negative = true := fun is => negative (sign.mpr ⟨is, nonzero⟩)
      rw [if_neg positive, magnitude]

theorem value_of_fractional {x : F64} (h : Jcs.integral? x = none) (n : Int) : x.value ≠ n := by
  intro same
  rw [F64.value_eq_intCast, F64.signed] at same
  refine Jcs.integral_eq_none h n.natAbs ?_
  have magnitude := congrArg Int.natAbs same
  rw [Int.natAbs_mul, Int.natAbs_natCast] at magnitude
  rw [← magnitude]
  split <;> simp

/-- The normal form of a number is the same number. -/
theorem number_normal {bound : JsonValue} {b : ℚ} (h : number bound = some b) :
    number (Jcs.normal bound) = some b := by
  cases bound with
  | integer n => exact h
  | float x =>
    cases whole : Jcs.integral? x with
    | none => simpa [Jcs.normal, whole] using h
    | some n =>
      rw [number, Option.some.injEq, value_of_integral whole] at h
      simp only [Jcs.normal, whole, number, h]
  | _ => cases h

/-- It is an integer when the number is whole. -/
theorem isInteger_normal {bound : JsonValue} {b : ℚ} (h : number bound = some b) :
    isInteger (Jcs.normal bound) = true ↔ ∃ n : Int, b = n := by
  cases bound with
  | integer n =>
    obtain rfl := Option.some.inj h
    simp [Jcs.normal, isInteger]
  | float x =>
    obtain rfl := Option.some.inj h
    cases whole : Jcs.integral? x with
    | none =>
      have fractional := value_of_fractional whole
      simp only [Jcs.normal, whole, isInteger, Bool.false_eq_true, false_iff, not_exists]
      exact fractional
    | some n =>
      simp only [Jcs.normal, whole, isInteger, true_iff]
      exact ⟨n, value_of_integral whole⟩
  | _ => cases h

/-- A selector as it comes back from canonical JSON. -/
def readBack : Selector → Selector
  | .shared selector => .shared selector.readBack
  | .lte path bound => .lte path (Jcs.normal bound)
  | .gte path bound => .gte path (Jcs.normal bound)

/-- The arguments have what the selector asks for. -/
def Selects (arguments : JsonValue) : Selector → Prop
  | .shared selector => selector.Selects arguments
  | .lte path bound => ∃ actual, V1.Selector.traverse arguments path = some actual ∧
      AtMost actual bound
  | .gte path bound => ∃ actual, V1.Selector.traverse arguments path = some actual ∧
      AtMost bound actual

/-- A valid path is read as it is. -/
theorem strings_path {path : List Bytes} {bounds : Bounds} (h : validPath path bounds = true) :
    strings ((path.map JsonValue.string).map Jcs.normal) (bounds .pathSegments) (bounds .keyBytes) =
      some path := by
  simp only [validPath, Bool.and_eq_true, List.all_eq_true, decide_eq_true_eq] at h
  obtain ⟨count, each⟩ := h
  rw [List.map_map, strings, Option.bind_eq_bind, guard_bind_eq_some]
  refine ⟨by rwa [nonemptyBounded, List.isEmpty_map, List.length_map], ?_⟩
  refine mapM_eq_some.mpr
    (List.forall₂_map_left_iff.mpr (List.forall₂_same.mpr fun member known => ?_))
  obtain ⟨⟨positive, size⟩, valid⟩ := each member known
  simp only [Function.comp_apply, Jcs.normal, Option.bind_eq_bind, guard_bind_eq_some]
  exact ⟨⟨positive, size⟩, valid, trivial⟩

/-- The members of an encoded range. -/
def rangeMembers (kind : String) (path : List Bytes) (bound : JsonValue) :
    List (Bytes × JsonValue) :=
  [(ascii "kind", .string (ascii kind)), (ascii "path", V1.Selector.pathJson path),
    (ascii "value", bound)]

theorem encodeRange_eq_some {kind : String} {path : List Bytes} {bound encoded : JsonValue}
    {bounds : Bounds} : encodeRange kind path bound bounds = some encoded ↔
      validPath path bounds = true ∧ numericBound bound = true ∧
        (∃ bytes, Jcs.encode bound bounds = some bytes) ∧
        encoded = .object (rangeMembers kind path bound) := by
  simp only [encodeRange, Option.bind_eq_bind, Option.bind_eq_some_iff, guard_eq_some, exists_const,
    Option.some.injEq, rangeMembers]
  constructor
  · rintro ⟨valid, numeric, bytes, written, rfl⟩
    exact ⟨valid, numeric, ⟨bytes, written⟩, rfl⟩
  · rintro ⟨valid, numeric, ⟨bytes, written⟩, rfl⟩
    exact ⟨valid, numeric, bytes, written, rfl⟩

/-- A value that is written is written in its normal form. -/
theorem encode_normal_isSome {value : JsonValue} {bytes : Bytes}
    (h : Jcs.encode value Bounds.maximum = some bytes) :
    ∃ bytes, Jcs.encode (Jcs.normal value) Bounds.maximum = some bytes := by
  obtain ⟨encodable, nodes, -⟩ := Jcs.encode_eq_some.mp h
  exact ⟨_, Jcs.encode_normal encodable nodes⟩

theorem numericBound_normal {bound : JsonValue} (h : numericBound bound = true) :
    numericBound (Jcs.normal bound) = true := by
  obtain ⟨b, found⟩ := numericBound_iff.mp h
  exact numericBound_iff.mpr ⟨b, number_normal found⟩

section

variable {kind : String} {range : List Bytes → JsonValue → Selector}
  (which : kind = "lte" ∧ range = .lte ∨ kind = "gte" ∧ range = .gte)

include which

/-- An encoded range is read as the range with its bound in normal form. -/
theorem selector_range {path : List Bytes} {bound encoded : JsonValue}
    (written : encodeRange kind path bound .maximum = some encoded) :
    selector (Jcs.normal encoded) .maximum = some (range path (Jcs.normal bound)) := by
  obtain ⟨valid, numeric, ⟨bytes, encodes⟩, rfl⟩ := encodeRange_eq_some.mp written
  obtain ⟨text, again⟩ := encode_normal_isSome encodes
  have names : (rangeMembers kind path bound).map Prod.fst =
      [ascii "kind", ascii "path", ascii "value"] := rfl
  have readFrom : ClosedMap.ReadFrom (rangeMembers kind path bound)
      ((Jcs.sortMembers (rangeMembers kind path bound)).map (Prod.map id Jcs.normal)).reverse :=
    ⟨names ▸ show [ascii "kind", ascii "path", ascii "value"].Nodup by decide, rfl⟩
  have closed : ClosedMap.closedMapOneOf
      ((Jcs.sortMembers (rangeMembers kind path bound)).map (Prod.map id Jcs.normal))
      V1.Selector.selectorKeys =
        some ((Jcs.sortMembers (rangeMembers kind path bound)).map
          (Prod.map id Jcs.normal)).reverse := by
    refine ClosedMap.closedMapOneOf_eq_some.mpr
      ⟨⟨[ascii "kind", ascii "path", ascii "value"], by simp [V1.Selector.selectorKeys], ?_⟩, rfl⟩
    rw [← names, List.map_map]
    exact (Jcs.sortMembers_perm (rangeMembers kind path bound)).map Prod.fst
  have foundPath : V1.Selector.readPath
      ((Jcs.sortMembers (rangeMembers kind path bound)).map (Prod.map id Jcs.normal)).reverse
      .maximum = some path := by
    have nonempty : path ≠ [] := by
      rintro rfl
      simp [validPath, nonemptyBounded] at valid
    simp only [V1.Selector.readPath, readFrom.array (ascii "path") (path.map .string)
      (by simp [rangeMembers, V1.Selector.pathJson]), Option.bind_eq_bind, Option.bind_some,
      strings_path valid, guard_bind_eq_some]
    exact ⟨nonempty, trivial⟩
  have foundRange : ∀ range, readRange range
      ((Jcs.sortMembers (rangeMembers kind path bound)).map (Prod.map id Jcs.normal)).reverse
      .maximum = some (range path (Jcs.normal bound)) := by
    intro range
    simp only [readRange, readFrom.lookup (ascii "value") bound (by simp [rangeMembers]),
      foundPath, again, Option.bind_eq_bind, Option.bind_some, guard_bind_eq_some]
    exact ⟨numericBound_normal numeric, trivial⟩
  have foundKind := readFrom.string (ascii "kind") (ascii kind) (by simp [rangeMembers])
  rw [Jcs.normal_object]
  simp only [selector, closed, foundKind, foundRange, Option.bind_eq_bind, Option.bind_some]
  have different : ascii "gte" ≠ ascii "lte" := by decide
  rcases which with ⟨rfl, rfl⟩ | ⟨rfl, rfl⟩
  · rw [if_pos rfl]
  · rw [if_neg different, if_pos rfl]

end

/-- What a range that was read back selects. -/
theorem selects_range {path : List Bytes} {bound arguments : JsonValue} {bounds : Bounds}
    (valid : validPath path bounds = true) (numeric : numericBound bound = true) :
    (selects (.lte path bound) arguments bounds = true ↔
      (Selector.lte path bound).Selects arguments) ∧
      (selects (.gte path bound) arguments bounds = true ↔
        (Selector.gte path bound).Selects arguments) := by
  simp only [selects, Selects, valid, numeric, Bool.true_and]
  cases V1.Selector.traverse arguments path with
  | none => simp
  | some actual => simp [gteValue, lteValue_iff]

/-- The argument at a path is a number in relation to the bound, and is an integer when
the bound is a whole number. -/
def Admits (relation : ℚ → ℚ → Prop) (path : List Bytes) (bound arguments : JsonValue) : Prop :=
  ∃ actual a b, V1.Selector.traverse arguments path = some actual ∧ number actual = some a ∧
    number bound = some b ∧ relation a b ∧ (isInteger actual = true ↔ ∃ n : Int, b = n)

theorem selects_normal {path : List Bytes} {bound arguments : JsonValue}
    (numeric : numericBound bound = true) :
    ((Selector.lte path (Jcs.normal bound)).Selects arguments ↔
        Admits (fun a b => a ≤ b) path bound arguments) ∧
      ((Selector.gte path (Jcs.normal bound)).Selects arguments ↔
        Admits (fun a b => b ≤ a) path bound arguments) := by
  obtain ⟨b, found⟩ := numericBound_iff.mp numeric
  have tag : ∀ actual, isInteger actual = isInteger (Jcs.normal bound) ↔
      (isInteger actual = true ↔ ∃ n : Int, b = n) := by
    intro actual
    rw [← isInteger_normal found, Bool.eq_iff_iff]
  have normal := number_normal found
  constructor
  · constructor
    · rintro ⟨actual, traversed, same, a, b', left, right, le⟩
      obtain rfl := Option.some.inj (normal.symm.trans right)
      exact ⟨actual, a, b, traversed, left, found, le, (tag actual).mp same⟩
    · rintro ⟨actual, a, b', traversed, left, right, le, same⟩
      obtain rfl := Option.some.inj (found.symm.trans right)
      exact ⟨actual, traversed, (tag actual).mpr same, a, b, left, normal, le⟩
  · constructor
    · rintro ⟨actual, traversed, same, b', a, left, right, le⟩
      obtain rfl := Option.some.inj (normal.symm.trans left)
      exact ⟨actual, a, b, traversed, right, found, le, (tag actual).mp same.symm⟩
    · rintro ⟨actual, a, b', traversed, left, right, le, same⟩
      obtain rfl := Option.some.inj (found.symm.trans right)
      exact ⟨actual, traversed, ((tag actual).mpr same).symm, b, a, normal, left, le⟩

/-- A range that is written to canonical JSON is read back from it, and then selects the
numbers on its side of the bound: the integers, when the bound is a whole number
however it was written, and the floats otherwise. -/
theorem range_admits {path : List Bytes} {bound : JsonValue} :
    (∀ encoded bytes, encodeSelector (.lte path bound) .maximum = some encoded →
      Jcs.encode encoded Bounds.maximum = some bytes →
      ∃ value read, Json.decode bytes Bounds.maximum = some value ∧
        selector value .maximum = some read ∧
        ∀ arguments, selects read arguments .maximum = true ↔
          Admits (fun a b => a ≤ b) path bound arguments) ∧
    ∀ encoded bytes, encodeSelector (.gte path bound) .maximum = some encoded →
      Jcs.encode encoded Bounds.maximum = some bytes →
      ∃ value read, Json.decode bytes Bounds.maximum = some value ∧
        selector value .maximum = some read ∧
        ∀ arguments, selects read arguments .maximum = true ↔
          Admits (fun a b => b ≤ a) path bound arguments := by
  have decoded : ∀ {value : JsonValue} {bytes : Bytes},
      Jcs.encode value Bounds.maximum = some bytes →
      Json.decode bytes Bounds.maximum = some (Jcs.normal value) := by
    intro value bytes h
    obtain ⟨encodable, nodes, rfl⟩ := Jcs.encode_eq_some.mp h
    exact Jcs.decode_canon encodable nodes
  constructor
  · intro encoded bytes written text
    obtain ⟨valid, numeric, -, -⟩ := encodeRange_eq_some.mp written
    refine ⟨_, _, decoded text, selector_range (.inl ⟨rfl, rfl⟩) written, fun arguments => ?_⟩
    rw [(selects_range valid (numericBound_normal numeric)).1, (selects_normal numeric).1]
  · intro encoded bytes written text
    obtain ⟨valid, numeric, -, -⟩ := encodeRange_eq_some.mp written
    refine ⟨_, _, decoded text, selector_range (.inr ⟨rfl, rfl⟩) written, fun arguments => ?_⟩
    rw [(selects_range valid (numericBound_normal numeric)).2, (selects_normal numeric).2]

/-- At most one. -/
theorem range_admits_one : ∃ value read,
    Json.decode (ascii "\x7b\"kind\":\"lte\",\"path\":[\"n\"],\"value\":1\x7d") Bounds.maximum =
      some value ∧ selector value .maximum = some read ∧
    ∀ arguments, selects read arguments .maximum = true ↔
      Admits (fun a b => a ≤ b) [ascii "n"] (.integer 1) arguments :=
  (@range_admits [ascii "n"] (.integer 1)).1 (.object (rangeMembers "lte" [ascii "n"] (.integer 1)))
    _
    (by rfl) (by decide)

/-! ## Every selector -/

/-- An encoded selector of the first major is an object that names its kind. -/
theorem kind_of_shared {original : V1.Selector} {encoded : JsonValue} {bounds : Bounds}
    (written : V1.Selector.encodeSelector original bounds = some encoded) :
    ∃ members kind, encoded = .object members ∧ (members.map Prod.fst).Nodup ∧
      (ascii "kind", .string kind) ∈ members ∧ kind ≠ ascii "lte" ∧ kind ≠ ascii "gte" := by
  cases original with
  | all =>
    obtain rfl := Option.some.inj written
    exact ⟨_, ascii "all", rfl, show [ascii "kind"].Nodup by decide, by simp,
      by decide, by decide⟩
  | equals path value =>
    simp only [V1.Selector.encodeSelector, Option.bind_eq_bind, Option.bind_eq_some_iff,
      guard_eq_some, exists_const, Option.some.injEq] at written
    obtain ⟨-, -, -, rfl⟩ := written
    exact ⟨_, ascii "equals", rfl,
      show [ascii "kind", ascii "path", ascii "value"].Nodup by decide, by simp,
      by decide, by decide⟩
  | oneOf path values =>
    simp only [V1.Selector.encodeSelector, Option.bind_eq_bind, guard_bind_eq_some,
      Option.some.injEq] at written
    obtain ⟨-, -, -, rfl⟩ := written
    exact ⟨_, ascii "one_of", rfl,
      show [ascii "kind", ascii "path", ascii "values"].Nodup by decide, by simp,
      by decide, by decide⟩

/-- A selector that is written and read is the selector in its normal form. -/
theorem eq_readBack {original read : Selector} {encoded : JsonValue}
    (written : encodeSelector original .maximum = some encoded)
    (h : selector (Jcs.normal encoded) .maximum = some read) : read = original.readBack := by
  cases original with
  | shared original =>
    obtain ⟨members, kind, rfl, unique, member, notLte, notGte⟩ := kind_of_shared written
    have normal := Jcs.normal_object members
    rw [normal] at h
    simp only [selector, Option.bind_eq_bind, Option.bind_eq_some_iff] at h
    obtain ⟨map, closed, kind', found, h⟩ := h
    have readFrom : ClosedMap.ReadFrom members map := ⟨unique, ClosedMap.closedMapOneOf_eq closed⟩
    rw [readFrom.string (ascii "kind") kind member, Option.some.injEq] at found
    subst found
    rw [if_neg notLte, if_neg notGte] at h
    obtain ⟨shared, found, rfl⟩ := Option.map_eq_some_iff.mp h
    have again : V1.Selector.selector (Jcs.normal (.object members)) .maximum = some shared := by
      rw [normal, V1.Selector.selector, closed]
      exact found
    rw [V1.Selector.eq_readBack written again, readBack]
  | lte path bound =>
    exact Option.some.inj (h.symm.trans (selector_range (.inl ⟨rfl, rfl⟩) written))
  | gte path bound =>
    exact Option.some.inj (h.symm.trans (selector_range (.inr ⟨rfl, rfl⟩) written))

/-- A selector that is written selects what it asks for once it is read back. -/
theorem selects_readBack {original : Selector} {encoded arguments : JsonValue}
    (written : encodeSelector original .maximum = some encoded) :
    selects original.readBack arguments .maximum = true ↔ original.readBack.Selects arguments := by
  cases original with
  | shared original => exact V1.Selector.selects_readBack written
  | lte path bound =>
    obtain ⟨valid, numeric, -, -⟩ := encodeRange_eq_some.mp written
    exact (selects_range valid (numericBound_normal numeric)).1
  | gte path bound =>
    obtain ⟨valid, numeric, -, -⟩ := encodeRange_eq_some.mp written
    exact (selects_range valid (numericBound_normal numeric)).2

/-! ## Lower ceilings -/

section

variable {a b : Bounds} (le : a.Le b)

include le

theorem readRange_below (range : List Bytes → JsonValue → Selector) (map : ClosedMap) :
    Below (readRange range map a) (readRange range map b) := by
  refine Below.bind (Below.refl _) fun bound _ => ?_
  refine Below.bind (V1.Selector.readPath_below le map) fun path _ => ?_
  refine Below.guard id fun _ => ?_
  exact Below.bind (Jcs.encode_below le bound) fun _ _ => Below.refl _

theorem selector_below (value : JsonValue) : Below (selector value a) (selector value b) := by
  cases value with
  | object members =>
    refine Below.bind (Below.refl _) fun map _ => Below.bind (Below.refl _) fun kind _ => ?_
    split
    · exact readRange_below le .lte map
    split
    · exact readRange_below le .gte map
    · exact Below.map _ (V1.Selector.readSelector_below le map)
  | _ => exact Below.refl _

theorem selects_mono {selector : Selector} {arguments : JsonValue}
    (h : selects selector arguments a = true) : selects selector arguments b = true := by
  cases selector with
  | shared selector => exact V1.Selector.selects_mono le h
  | lte path bound =>
    simp only [selects, Bool.and_eq_true] at h ⊢
    exact ⟨⟨validPath_mono le h.1.1, h.1.2⟩, h.2⟩
  | gte path bound =>
    simp only [selects, Bool.and_eq_true] at h ⊢
    exact ⟨⟨validPath_mono le h.1.1, h.1.2⟩, h.2⟩

end

end BoundedAuthority.V2.Selector
