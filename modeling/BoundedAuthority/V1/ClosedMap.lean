import BoundedAuthority.V1.JcsRoundTrip

/-!
# Closed objects

`closed_row/1` and `closed_map/2`: every codec of the archive has its own copy.  An
object with exactly the expected names becomes a map, and a field is taken out of
it with its tag.

The codecs write their objects with the names in order, so what they write is
decoded to itself (`decode_encode`).
-/

namespace BoundedAuthority.V1

open Wire JsonValue

/-- A map with binary keys, the last occurrence of a key first. -/
abbrev ClosedMap := List (Bytes × JsonValue)

namespace ClosedMap

/-- `Enum.sort/1` of binaries. -/
def sortKeys (keys : List Bytes) : List Bytes := keys.insertionSort fun a b => leBytes a b = true

/-- `closed_map/2` -/
def closedMap (members : List (Bytes × JsonValue)) (keys : List Bytes) : Option ClosedMap := do
  guard (members.length = keys.length ∧ sortKeys (members.map Prod.fst) = sortKeys keys)
  some members.reverse

/-- `{:string, value} <- map[key]` -/
def string (map : ClosedMap) (key : Bytes) : Option Bytes :=
  match map.lookup key with
  | some (.string value) => some value
  | _ => none

/-- `{:integer, value} <- map[key]` -/
def integer (map : ClosedMap) (key : Bytes) : Option Int :=
  match map.lookup key with
  | some (.integer value) => some value
  | _ => none

/-- `{:array, values} <- map[key]` -/
def array (map : ClosedMap) (key : Bytes) : Option (List JsonValue) :=
  match map.lookup key with
  | some (.array values) => some values
  | _ => none

/-- `{:object, members} <- map[key]` -/
def object (map : ClosedMap) (key : Bytes) : Option (List (Bytes × JsonValue)) :=
  match map.lookup key with
  | some (.object members) => some members
  | _ => none

/-- `closed_map_one_of/2` -/
def closedMapOneOf (members : List (Bytes × JsonValue)) (alternatives : List (List Bytes)) :
    Option ClosedMap :=
  alternatives.findSome? (closedMap members)

/-! ## Objects in order -/

/-- A leaf that is no float. -/
def Plain : JsonValue → Prop
  | .string _ => True
  | .integer _ => True
  | _ => False

/-- The members of a codec's object: strings and integers with their names in order. -/
structure Ordered (members : List (Bytes × JsonValue)) : Prop where
  plain : ∀ m ∈ members, Plain m.2
  sorted : (members.map Prod.fst).Pairwise fun a b =>
    Utf16.le (Utf16.units a) (Utf16.units b) = true

theorem normal_of_ordered {members : List (Bytes × JsonValue)} (h : Ordered members) :
    Jcs.normal (JsonValue.object members) = JsonValue.object members := by
  have sorted : Jcs.sortMembers members = members :=
    List.Pairwise.insertionSort_eq (List.pairwise_map.mp h.sorted)
  rw [Jcs.normal_object, sorted]
  refine congrArg _ ((List.map_congr_left fun m hm => ?_).trans (List.map_id members))
  obtain ⟨key, value⟩ := m
  have plain := h.plain _ hm
  cases value <;> first | rfl | cases plain

/-- What a codec writes is read back. -/
theorem decode_encode {members : List (Bytes × JsonValue)} {bytes : Bytes} (h : Ordered members)
    (written : Jcs.encode (.object members) Bounds.maximum = some bytes) :
    Json.decode bytes Bounds.maximum = some (.object members) := by
  obtain ⟨encodable, nodes, rfl⟩ := Jcs.encode_eq_some.mp written
  have read := Jcs.decode_canon encodable nodes
  rw [normal_of_ordered h] at read
  exact read

/-- An object that is written, read and written again is the same bytes. -/
theorem encode_again {members members' : List (Bytes × JsonValue)} {bytes encoded : Bytes}
    {value : JsonValue} (h : Ordered members)
    (written : Jcs.encode (.object members) Bounds.maximum = some bytes)
    (decoded : Json.decode bytes Bounds.maximum = some value)
    (normal : Jcs.normal value = .object members')
    (again : Jcs.encode (.object members') Bounds.maximum = some encoded) : encoded = bytes := by
  rw [decode_encode h written, Option.some.injEq] at decoded
  rw [← decoded, normal_of_ordered h] at normal
  rw [← normal, written, Option.some.injEq] at again
  exact again.symm

/-- An object with the expected names is closed. -/
theorem closedMap_of_keys {members : List (Bytes × JsonValue)} {keys : List Bytes}
    (h : members.map Prod.fst = keys) : closedMap members keys = some members.reverse := by
  have length : members.length = keys.length := by rw [← h, List.length_map]
  simp [closedMap, h, length]

/-! ## Which objects are closed -/

/-- Names are sorted alike when they are the same names. -/
theorem sortKeys_eq_iff {names keys : List Bytes} :
    sortKeys names = sortKeys keys ↔ names.Perm keys := by
  have total : Std.Total fun a b : Bytes => leBytes a b = true := ⟨leBytes_total⟩
  have trans : IsTrans Bytes fun a b => leBytes a b = true := ⟨fun _ _ _ => leBytes_trans⟩
  constructor
  · intro same
    have sorted : (sortKeys names).Perm keys := by
      rw [same]
      exact List.perm_insertionSort _ keys
    exact (List.perm_insertionSort _ names).symm.trans sorted
  · intro perm
    refine List.Perm.eq_of_pairwise (fun _ _ _ _ => leBytes_antisymm)
      (List.pairwise_insertionSort _ _)
      (List.pairwise_insertionSort _ _) ?_
    exact (List.perm_insertionSort _ names).trans (perm.trans (List.perm_insertionSort _ keys).symm)

/-- An object is closed when it has the expected names, in whatever order. -/
theorem closedMap_eq_some {members : List (Bytes × JsonValue)} {keys : List Bytes}
    {map : ClosedMap} :
    closedMap members keys = some map ↔
      (members.map Prod.fst).Perm keys ∧ map = members.reverse := by
  simp only [closedMap, Option.bind_eq_bind, guard_bind_eq_some, Option.some.injEq, sortKeys_eq_iff]
  constructor
  · rintro ⟨⟨-, perm⟩, rfl⟩
    exact ⟨perm, rfl⟩
  · rintro ⟨perm, rfl⟩
    exact ⟨⟨by rw [← List.length_map (f := Prod.fst), perm.length_eq], perm⟩, rfl⟩

/-- An object is closed under one of the alternatives it has the names of. -/
theorem closedMapOneOf_eq_some {members : List (Bytes × JsonValue)}
    {alternatives : List (List Bytes)}
    {map : ClosedMap} : closedMapOneOf members alternatives = some map ↔
      (∃ keys ∈ alternatives, (members.map Prod.fst).Perm keys) ∧ map = members.reverse := by
  constructor
  · intro h
    obtain ⟨keys, listed, found⟩ := List.exists_of_findSome?_eq_some h
    obtain ⟨perm, same⟩ := closedMap_eq_some.mp found
    exact ⟨⟨keys, listed, perm⟩, same⟩
  · rintro ⟨⟨keys, listed, perm⟩, rfl⟩
    have found : (closedMapOneOf members alternatives).isSome = true := by
      refine List.findSome?_isSome_iff.mpr ⟨keys, listed, ?_⟩
      rw [closedMap_eq_some.mpr ⟨perm, rfl⟩]
      rfl
    obtain ⟨map, is⟩ := Option.isSome_iff_exists.mp found
    obtain ⟨_, -, closed⟩ := List.exists_of_findSome?_eq_some is
    rw [is, (closedMap_eq_some.mp closed).2]

/-! ## What a written object is read as -/

theorem closedMap_eq {members : List (Bytes × JsonValue)} {keys : List Bytes} {map : ClosedMap}
    (h : closedMap members keys = some map) : map = members.reverse := by
  simp only [closedMap, Option.bind_eq_bind, guard_bind_eq_some, Option.some.injEq] at h
  exact h.2.symm

theorem closedMapOneOf_eq {members : List (Bytes × JsonValue)} {alternatives : List (List Bytes)}
    {map : ClosedMap} (h : closedMapOneOf members alternatives = some map) :
    map = members.reverse := by
  obtain ⟨_, -, found⟩ := List.exists_of_findSome?_eq_some h
  exact closedMap_eq found

/-- Without a name that is there twice, a lookup finds the members. -/
theorem lookup_eq_some_iff {α : Type} {key : Bytes} {value : α} : ∀ {members : List (Bytes × α)},
    (members.map Prod.fst).Nodup → (members.lookup key = some value ↔ (key, value) ∈ members)
  | [], _ => by simp
  | (name, first) :: rest, unique => by
      simp only [List.map_cons, List.nodup_cons] at unique
      rw [List.lookup_cons, List.mem_cons, Prod.mk.injEq]
      by_cases same : key = name
      · subst same
        have fresh : (key, value) ∉ rest := fun member =>
          unique.1 (List.mem_map_of_mem (f := Prod.fst) member)
        simp [fresh, eq_comm]
      · have ih := @lookup_eq_some_iff _ key value _ unique.2
        simp [same, beq_false_of_ne same, ih]

theorem lookup_eq_none_iff {α : Type} {key : Bytes} {members : List (Bytes × α)} :
    members.lookup key = none ↔ key ∉ members.map Prod.fst := by
  induction members with
  | nil => simp
  | cons member rest ih =>
      obtain ⟨name, value⟩ := member
      rw [List.lookup_cons, List.map_cons, List.mem_cons, not_or]
      by_cases same : key = name
      · simp [same]
      · simp [same, beq_false_of_ne same, ih]

/-- A map read from the canonical text of some members. -/
structure ReadFrom (members : List (Bytes × JsonValue)) (map : ClosedMap) : Prop where
  unique : (members.map Prod.fst).Nodup
  read : map = ((Jcs.sortMembers members).map (Prod.map id Jcs.normal)).reverse

theorem readFrom_of_encode {members decoded : List (Bytes × JsonValue)} {bytes : Bytes}
    (written : Jcs.encode (.object members) Bounds.maximum = some bytes)
    (read : Json.decode bytes Bounds.maximum = some (.object decoded)) :
    ReadFrom members decoded.reverse := by
  obtain ⟨encodable, nodes, rfl⟩ := Jcs.encode_eq_some.mp written
  rw [Jcs.decode_canon encodable nodes, Jcs.normal_object, Option.some.injEq] at read
  exact ⟨encodable.within.2.1, by rw [JsonValue.object.inj read]⟩

variable {members : List (Bytes × JsonValue)} {map : ClosedMap}

theorem ReadFrom.perm (h : ReadFrom members map) :
    map.Perm (members.map (Prod.map id Jcs.normal)) := by
  rw [h.read]
  exact (List.reverse_perm _).trans ((Jcs.sortMembers_perm members).map _)

theorem ReadFrom.names (h : ReadFrom members map) :
    (map.map Prod.fst).Perm (members.map Prod.fst) := by
  have perm := h.perm.map Prod.fst
  rw [List.map_map] at perm
  exact perm

/-- A member is found in its normal form. -/
theorem ReadFrom.lookup (h : ReadFrom members map) (key : Bytes) (value : JsonValue)
    (member : (key, value) ∈ members) : map.lookup key = some (Jcs.normal value) := by
  rw [lookup_eq_some_iff (h.names.nodup_iff.mpr h.unique), h.perm.mem_iff]
  exact List.mem_map_of_mem (f := Prod.map id Jcs.normal) member

theorem ReadFrom.lookup_none (h : ReadFrom members map) {key : Bytes}
    (absent : key ∉ members.map Prod.fst) : map.lookup key = none := by
  rw [lookup_eq_none_iff, h.names.mem_iff]
  exact absent

theorem ReadFrom.string (h : ReadFrom members map) (key value : Bytes)
    (member : (key, .string value) ∈ members) : ClosedMap.string map key = some value := by
  rw [ClosedMap.string, h.lookup key _ member]
  rfl

theorem ReadFrom.integer (h : ReadFrom members map) (key : Bytes) (value : Int)
    (member : (key, .integer value) ∈ members) : ClosedMap.integer map key = some value := by
  rw [ClosedMap.integer, h.lookup key _ member]
  rfl

theorem ReadFrom.array (h : ReadFrom members map) (key : Bytes) (values : List JsonValue)
    (member : (key, .array values) ∈ members) :
    ClosedMap.array map key = some (values.map Jcs.normal) := by
  rw [ClosedMap.array, h.lookup key _ member, Jcs.normal_array]

/-- A nested object is read from its own members. -/
theorem ReadFrom.object (h : ReadFrom members map) (key : Bytes)
    (nested : List (Bytes × JsonValue)) (member : (key, .object nested) ∈ members)
    (unique : (nested.map Prod.fst).Nodup) :
    ∃ read, ClosedMap.object map key = some read ∧ ReadFrom nested read.reverse := by
  refine ⟨(Jcs.sortMembers nested).map (Prod.map id Jcs.normal), ?_, unique, rfl⟩
  rw [ClosedMap.object, h.lookup key _ member, Jcs.normal_object]

end ClosedMap

end BoundedAuthority.V1
