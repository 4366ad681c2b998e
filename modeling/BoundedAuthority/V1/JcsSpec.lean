import BoundedAuthority.V1.JcsText

/-!
# What the encoder writes

The encoder checks every ceiling while it walks a value and writes its parts.
What is left of those checks is one condition on the value, `Encodable`, and what
is written is the canonical text (`encodeValue_eq_some`, `encode_eq_some`).
-/

namespace BoundedAuthority.V1.Jcs

open Wire JsonValue

/-! ## The encoder -/

variable {bounds : Bounds}

theorem join_eq (parts : List Bytes) (separator : UInt8) :
    join parts separator = List.intercalate [separator] parts := by
  induction parts with
  | nil => rfl
  | cons part rest ih =>
      cases rest with
      | nil => simp [join]
      | cons next rest => simp [join, ih, List.intercalate_cons_cons]

theorem lengthBounded_iff {α : Type} {values : List α} {maximum : Nat} : ∀ {count : Nat},
    count ≤ maximum → (lengthBounded values maximum count = true ↔
      values.length + count ≤ maximum) := by
  induction values with
  | nil => intro count room; simp [lengthBounded, room]
  | cons value rest ih =>
      intro count room
      rw [lengthBounded]
      split
      next full => simp; omega
      next notFull =>
        rw [ih (by omega), List.length_cons]
        omega

/-- What the encoder checks a value against. -/
def ceilings (bounds : Bounds) : Ceilings where
  arrayItems := bounds .arrayItems
  objectMembers := bounds .objectMembers
  stringBytes := bounds .stringBytes
  keyBytes := bounds .keyBytes
  integerMagnitude := bounds .integerMagnitude
  floatMagnitude := bounds .floatMagnitude

/-- A value the encoder writes with some room below the depth bound. -/
structure Encodable (bounds : Bounds) (room : Nat) (v : JsonValue) : Prop where
  within : Within (ceilings bounds) v
  depth : v.depth ≤ room
  size : (canon v).length ≤ bounds .jcsBytes

/-- What a writer that counts nodes does: under a condition it writes a part and
adds the nodes of it, as long as they fit. -/
def Writes {α : Type} (f : α → Nat → Option (Bytes × Nat)) (limit : Nat) (ok : α → Prop)
    (part : α → Bytes) (size : α → Nat) (a : α) : Prop :=
  ∀ n out n', n ≤ limit → (f a n = some (out, n') ↔
    ok a ∧ n + size a ≤ limit ∧ out = part a ∧ n' = n + size a)

/-- A fold of writers writes all parts. -/
theorem mapReduce_eq_some {α : Type} {f : α → Nat → Option (Bytes × Nat)} {limit : Nat}
    {ok : α → Prop} {part : α → Bytes} {size : α → Nat} : ∀ {as : List α} {n : Nat} (n' : Nat)
    (outs : List Bytes), (∀ a ∈ as, Writes f limit ok part size a) → n ≤ limit →
    (mapReduce f as n = some (outs, n') ↔ (∀ a ∈ as, ok a) ∧ n + (as.map size).sum ≤ limit ∧
      outs = as.map part ∧ n' = n + (as.map size).sum)
  | [], _, n', outs, _, room => by
      simp [mapReduce, room, eq_comm]
  | a :: as, _, n', outs, writes, room => by
      have first := writes a List.mem_cons_self
      have others := fun b hb => writes b (List.mem_cons_of_mem _ hb)
      simp only [mapReduce, Option.bind_eq_bind, Option.bind_eq_some_iff, Option.some.injEq,
        Prod.exists, Prod.mk.injEq, List.map_cons, List.sum_cons, List.forall_mem_cons]
      constructor
      · rintro ⟨out, n₁, found, outs', n₂, foundRest, rfl, rfl⟩
        obtain ⟨okFirst, fits, rfl, rfl⟩ := (first _ _ _ room).mp found
        obtain ⟨okRest, fitsRest, rfl, rfl⟩ := (mapReduce_eq_some _ _ others fits).mp foundRest
        exact ⟨⟨okFirst, okRest⟩, by omega, rfl, by omega⟩
      · rintro ⟨⟨okFirst, okRest⟩, fits, rfl, rfl⟩
        exact ⟨_, _, (first _ _ _ room).mpr ⟨okFirst, by omega, rfl, rfl⟩, _, _,
          (mapReduce_eq_some _ _ others (by omega)).mpr ⟨okRest, by omega, rfl, rfl⟩, rfl, by omega⟩

theorem bounded_eq_some {iodata out : Bytes} :
    bounded iodata bounds = some out ↔ iodata.length ≤ bounds .jcsBytes ∧ out = iodata := by
  simp only [bounded, Option.bind_eq_bind, guard_bind_eq_some, Option.some.injEq]
  exact and_congr_right fun _ => eq_comm

theorem nextNode_eq_some {n n' : Nat} :
    nextNode n bounds = some n' ↔ n + 1 ≤ bounds .totalNodes ∧ n' = n + 1 := by
  simp only [nextNode, Option.bind_eq_bind, guard_bind_eq_some, Option.some.injEq]
  exact and_congr_right fun _ => eq_comm

/-- The last steps for a leaf. -/
theorem leaf_eq_some {iodata out : Bytes} {n n' : Nat} :
    (do let encoded ← bounded iodata bounds
        some (encoded, ← nextNode n bounds)) = some (out, n') ↔
      iodata.length ≤ bounds .jcsBytes ∧ n + 1 ≤ bounds .totalNodes ∧ out = iodata ∧
        n' = n + 1 := by
  simp only [Option.bind_eq_bind, Option.bind_eq_some_iff, bounded_eq_some, nextNode_eq_some,
    Option.some.injEq, Prod.mk.injEq]
  constructor
  · rintro ⟨_, ⟨size, rfl⟩, _, ⟨fits, rfl⟩, rfl, rfl⟩
    exact ⟨size, fits, rfl, rfl⟩
  · rintro ⟨size, fits, rfl, rfl⟩
    exact ⟨_, ⟨size, rfl⟩, _, ⟨fits, rfl⟩, rfl, rfl⟩

/-! ## Values -/

theorem floatMagnitude_small {x : F64} (h : x.magnitudeAtMost (bounds .floatMagnitude) = true) :
    x.units < 2 ^ 53 * unit := by
  have tight := bounds.tightens .floatMagnitude
  simp only [F64.magnitudeAtMost, decide_eq_true_eq] at h
  refine Nat.lt_of_le_of_lt (Nat.le_trans h (Nat.mul_le_mul_right _ tight)) ?_
  exact Nat.mul_lt_mul_of_pos_right (by decide) F64.unit_pos

/-- The names and values the encoder sorts. -/
def keyedMember (m : Bytes × JsonValue) : Bytes × Bytes × JsonValue := (Utf16.key m.1, m)

theorem keyed_eq_some {m : Bytes × JsonValue} {k : Bytes × Bytes × JsonValue} :
    keyed bounds m = some k ↔ (ceilings bounds).Name m.1 ∧ k = keyedMember m := by
  simp only [keyed, Option.bind_eq_bind, guard_bind_eq_some, Option.some.injEq]
  exact and_congr_right fun _ => eq_comm

theorem mapM_keyed_eq_some :
    ∀ {ms : List (Bytes × JsonValue)} {ks : List (Bytes × Bytes × JsonValue)},
    ms.mapM (keyed bounds) = some ks ↔
      (∀ m ∈ ms, (ceilings bounds).Name m.1) ∧ ks = ms.map keyedMember
  | [], ks => by simp [eq_comm]
  | m :: ms, ks => by
      simp only [List.mapM_cons, Option.bind_eq_bind, Option.bind_eq_some_iff, keyed_eq_some,
        mapM_keyed_eq_some, Option.pure_def, Option.some.injEq, List.forall_mem_cons, List.map_cons]
      constructor
      · rintro ⟨_, ⟨name, rfl⟩, _, ⟨names, rfl⟩, rfl⟩
        exact ⟨⟨name, names⟩, rfl⟩
      · rintro ⟨⟨name, names⟩, rfl⟩
        exact ⟨_, ⟨name, rfl⟩, _, ⟨names, rfl⟩, rfl⟩

/-- The keys are ordered as the code units of the names. -/
theorem sortByKey_map (ms : List (Bytes × JsonValue)) :
    sortByKey (ms.map keyedMember) = (sortMembers ms).map keyedMember := by
  refine (List.map_insertionSort
    (fun a b : Bytes × JsonValue => Utf16.le (Utf16.units a.1) (Utf16.units b.1) = true)
    (fun a b : Bytes × Bytes × JsonValue => leBytes a.1 b.1 = true) keyedMember ms ?_).symm
  intro a _ b _
  rw [keyedMember, keyedMember, Utf16.leBytes_key]

/-- What the encoder checks a member against. -/
structure EncodableMember (bounds : Bounds) (room : Nat) (m : Bytes × JsonValue) : Prop where
  name : (ceilings bounds).Name m.1
  value : Encodable bounds room m.2

theorem size_of_array {values : List JsonValue} {v : JsonValue} {n : Nat} (h : v ∈ values)
    (size : (canon (.array values)).length ≤ n) : (canon v).length ≤ n := by
  have part := length_le_intercalate (List.mem_map_of_mem (f := canon) h)
  rw [canon_array, List.length_cons, List.length_append] at size
  omega

theorem size_of_object {members : List (Bytes × JsonValue)} {m : Bytes × JsonValue} {n : Nat}
    (h : m ∈ members) (size : (canon (.object members)).length ≤ n) : (canon m.2).length ≤ n := by
  have sorted := (sortMembers_perm members).mem_iff.mpr h
  have part := length_le_intercalate (List.mem_map_of_mem (f := canonMember) sorted)
  rw [canon_object, List.length_cons, List.length_append] at size
  simp only [canonMember, List.length_cons, List.length_append] at part
  omega

/-- An array is encodable exactly when its items are, and it fits. -/
theorem encodable_array {room : Nat} {values : List JsonValue} :
    Encodable bounds (room + 1) (.array values) ↔ values.length ≤ bounds .arrayItems ∧
      (∀ v ∈ values, Encodable bounds room v) ∧ (canon (.array values)).length ≤
        bounds .jcsBytes := by
  constructor
  · rintro ⟨⟨count, within⟩, depth, size⟩
    refine ⟨count, fun v hv => ⟨withinItems_iff.mp within v hv, ?_, size_of_array hv size⟩, size⟩
    exact depthItems_le.mp (Nat.le_of_succ_le_succ depth) v hv
  · rintro ⟨count, items, size⟩
    refine ⟨⟨count, withinItems_iff.mpr fun v hv => (items v hv).within⟩, ?_, size⟩
    exact Nat.succ_le_succ (depthItems_le.mpr fun v hv => (items v hv).depth)

/-- An object is encodable exactly when its members are, no name is there twice, and
it fits. -/
theorem encodable_object {room : Nat} {members : List (Bytes × JsonValue)} :
    Encodable bounds (room + 1) (.object members) ↔ members.length ≤ bounds .objectMembers ∧
      (members.map Prod.fst).Nodup ∧ (∀ m ∈ members, EncodableMember bounds room m) ∧
      (canon (.object members)).length ≤ bounds .jcsBytes := by
  constructor
  · rintro ⟨⟨count, nodup, within⟩, depth, size⟩
    refine ⟨count, nodup, fun m hm => ?_, size⟩
    obtain ⟨name, value⟩ := withinMembers_iff.mp within m hm
    refine ⟨name, value, ?_, size_of_object hm size⟩
    exact depthMembers_le.mp (Nat.le_of_succ_le_succ depth) m hm
  · rintro ⟨count, nodup, members, size⟩
    refine ⟨⟨count, nodup, withinMembers_iff.mpr fun m hm => ?_⟩, ?_, size⟩
    · exact ⟨(members m hm).name, (members m hm).value.within⟩
    · exact Nat.succ_le_succ (depthMembers_le.mpr fun m hm => (members m hm).value.depth)

/-- A nested value is not encodable without room. -/
theorem encodable_zero {v : JsonValue} (h : Encodable bounds 0 v) : v.depth = 0 :=
  Nat.le_zero.mp h.depth

/-- A leaf only has to fit. -/
theorem encodable_leaf {room : Nat} {v : JsonValue} (depth : v.depth = 0) :
    Encodable bounds room v ↔ Within (ceilings bounds) v ∧ (canon v).length ≤ bounds .jcsBytes :=
  ⟨fun h => ⟨h.within, h.size⟩, fun h => ⟨h.1, by omega, h.2⟩⟩

/-- The body of the fold over the members. -/
def encodeMember (bounds : Bounds) (room : Nat) :
    Bytes × Bytes × JsonValue → Nat → Option (Bytes × Nat) := fun (_, key, value) count => do
  let (encoded, nextCount) ← encodeValue bounds room value count
  let escaped ← escapeString key
  some (escaped ++ 0x3A :: encoded, nextCount)

/-- A member with a well-formed name is written when its value is. -/
theorem encodeMember_writes {room : Nat} {m : Bytes × JsonValue} (valid : Utf8.valid m.1 = true)
    (value : Writes (encodeValue bounds room) (bounds .totalNodes) (Encodable bounds room) canon
      nodes m.2) :
    Writes (encodeMember bounds room) (bounds .totalNodes) (fun k => Encodable bounds room k.2.2)
      (fun k => canonMember k.2) (fun k => nodes k.2.2) (keyedMember m) := by
  intro n out n' fits
  simp only [encodeMember, keyedMember, escapeString_of_valid valid, Option.bind_eq_bind,
    Option.bind_eq_some_iff, Prod.exists, value n _ _ fits, Option.some.injEq, Prod.mk.injEq]
  constructor
  · rintro ⟨_, _, ⟨ok, fits', rfl, rfl⟩, _, rfl, rfl, rfl⟩
    exact ⟨ok, fits', rfl, rfl⟩
  · rintro ⟨ok, fits', rfl, rfl⟩
    exact ⟨_, _, ⟨ok, fits', rfl, rfl⟩, _, rfl, rfl, rfl⟩

/-- What the encoder writes, by recursion on the value. -/
theorem encodeValue_writes (v : JsonValue) : ∀ room, Writes (encodeValue bounds room)
    (bounds .totalNodes) (Encodable bounds room) canon nodes v := by
  induction v using JsonValue.induction with
  | null =>
      intro room n out n' fits
      rw [encodable_leaf rfl, encodeValue, leaf_eq_some]
      exact ⟨fun h => ⟨⟨trivial, h.1⟩, h.2⟩, fun h => ⟨h.1.2, h.2⟩⟩
  | boolean b =>
      intro room n out n' fits
      have bytes : (if b then ascii "true" else ascii "false") = canon (.boolean b) := by
        cases b <;> rfl
      rw [encodable_leaf rfl, encodeValue, bytes, leaf_eq_some]
      exact ⟨fun h => ⟨⟨trivial, h.1⟩, h.2⟩, fun h => ⟨h.1.2, h.2⟩⟩
  | integer k =>
      intro room n out n' fits
      have bytes : Decimal.ofInt k = canon (.integer k) := (render_integerLexeme k).symm
      rw [encodable_leaf rfl, encodeValue, bytes, Option.bind_eq_bind, guard_bind_eq_some,
        leaf_eq_some]
      exact and_assoc.symm
  | float x =>
      intro room n out n' fits
      rw [encodable_leaf rfl, encodeValue, Option.bind_eq_bind, guard_bind_eq_some, and_assoc]
      refine and_congr_right fun small => ?_
      rw [(ecmascriptNumber_eq (floatMagnitude_small small)).1]
      exact leaf_eq_some
  | string s =>
      intro room n out n' fits
      rw [encodable_leaf rfl, encodeValue, Option.bind_eq_bind, guard_bind_eq_some,
        and_assoc (a := Within _ _)]
      refine and_congr_right fun valid => ?_
      rw [escapeString_of_valid valid.2]
      exact leaf_eq_some
  | array values ih =>
      intro room n out n' fits
      cases room with
      | zero =>
          refine ⟨fun h => ?_, fun h => ?_⟩
          · cases h
          · cases encodable_zero h.1
      | succ room =>
          have items := fun n' outs => mapReduce_eq_some (n := n + 1) n' outs fun v hv =>
            ih v hv room
          rw [encodable_array, encodeValue, Option.bind_eq_bind, guard_bind_eq_some,
            lengthBounded_iff (Nat.zero_le _)]
          simp only [Option.bind_eq_bind, Option.bind_eq_some_iff, nextNode_eq_some,
            bounded_eq_some, Option.some.injEq, Prod.mk.injEq, Prod.exists, JsonValue.nodes,
            nodesItems_eq, join_eq, canon_array]
          constructor
          · rintro ⟨count, _, ⟨fits₁, rfl⟩, _, _, found, _, ⟨size, rfl⟩, rfl, rfl⟩
            obtain ⟨all, fits₂, rfl, rfl⟩ := (items _ _ fits₁).mp found
            exact ⟨⟨count, all, size⟩, by omega, rfl, by omega⟩
          · rintro ⟨⟨count, all, size⟩, fits₂, rfl, rfl⟩
            exact ⟨count, _, ⟨by omega, rfl⟩, _, _, (items _ _ (by omega)).mpr
              ⟨all, by omega, rfl, rfl⟩, _, ⟨size, rfl⟩, rfl, by omega⟩
  | object members ih =>
      intro room n out n' fits
      cases room with
      | zero =>
          refine ⟨fun h => ?_, fun h => ?_⟩
          · cases h
          · cases encodable_zero h.1
      | succ room =>
          have perm := sortMembers_perm members
          have names : ((sortMembers members).map keyedMember).map (fun m => m.2.1) =
              (sortMembers members).map Prod.fst := by
            rw [List.map_map]
            rfl
          have nodup : ((sortMembers members).map Prod.fst).Nodup ↔ (members.map Prod.fst).Nodup :=
            (perm.map _).nodup_iff
          have sum : (((sortMembers members).map keyedMember).map fun k => nodes k.2.2).sum =
              nodesMembers members := by
            rw [List.map_map, nodesMembers_eq]
            exact (perm.map _).sum_eq
          have parts : ((sortMembers members).map keyedMember).map (fun k => canonMember k.2) =
              (sortMembers members).map canonMember := by
            rw [List.map_map]
            rfl
          have items := fun n' outs (valid : ∀ m ∈ members, Utf8.valid m.1 = true) =>
            mapReduce_eq_some (n := n + 1) n' outs fun k
              (hk : k ∈ (sortMembers members).map keyedMember) => by
              obtain ⟨m, hm, rfl⟩ := List.mem_map.mp hk
              have hm := perm.mem_iff.mp hm
              exact encodeMember_writes (valid m hm) (ih m hm room)
          have all : (∀ k ∈ (sortMembers members).map keyedMember, Encodable bounds room k.2.2) ↔
              ∀ m ∈ members, Encodable bounds room m.2 := by
            simp only [List.forall_mem_map, keyedMember, perm.mem_iff]
          simp only [sum, parts, all] at items
          rw [encodable_object, encodeValue, Option.bind_eq_bind, guard_bind_eq_some,
            lengthBounded_iff (Nat.zero_le _)]
          simp only [Option.bind_eq_bind, Option.bind_eq_some_iff, nextNode_eq_some,
            bounded_eq_some, mapM_keyed_eq_some, guard_eq_some, Option.some.injEq, Prod.mk.injEq,
            Prod.exists, JsonValue.nodes, join_eq, canon_object]
          constructor
          · rintro ⟨count, _, ⟨fits₁, rfl⟩, _, ⟨named, rfl⟩, _, distinct, _, _, found, _,
              ⟨size, rfl⟩, rfl, rfl⟩
            rw [sortByKey_map] at distinct found
            rw [names, nodup] at distinct
            obtain ⟨values, fits₂, rfl, rfl⟩ :=
              (items _ _ (fun m hm => (named m hm).2) fits₁).mp found
            exact ⟨⟨count, distinct, fun m hm => ⟨named m hm, values m hm⟩, size⟩, by omega, rfl,
              by omega⟩
          · rintro ⟨⟨count, distinct, admitted, size⟩, fits₂, rfl, rfl⟩
            have named := fun m hm => (admitted m hm).name
            refine ⟨count, _, ⟨by omega, rfl⟩, _, ⟨named, rfl⟩, (), ?_, _,
              n + 1 + nodesMembers members, ?_, _, ⟨size, rfl⟩, rfl, by omega⟩
            · rw [sortByKey_map, names, nodup]
              exact distinct
            · rw [sortByKey_map]
              exact (items _ _ (fun m hm => (named m hm).2) (by omega)).mpr
                ⟨fun m hm => (admitted m hm).value, by omega, rfl, rfl⟩

theorem encodeValue_eq_some {v : JsonValue} {room n n' : Nat} {out : Bytes}
    (fits : n ≤ bounds .totalNodes) : encodeValue bounds room v n = some (out, n') ↔
      Encodable bounds room v ∧ n + v.nodes ≤ bounds .totalNodes ∧ out = canon v ∧
        n' = n + v.nodes :=
  encodeValue_writes v room n out n' fits

/-- The encoder writes the canonical text of the values within its bounds. -/
theorem encode_eq_some {v : JsonValue} {out : Bytes} : encode v bounds = some out ↔
    Encodable bounds (bounds .depth) v ∧ v.nodes ≤ bounds .totalNodes ∧ out = canon v := by
  simp only [encode, Bounds.coerce_toLimits, Option.bind_eq_bind, Option.bind_some,
    Option.bind_eq_some_iff, Prod.exists, Option.some.injEq, encodeValue_eq_some (Nat.zero_le _),
    Nat.zero_add]
  constructor
  · rintro ⟨_, _, ⟨ok, fits, rfl, rfl⟩, rfl⟩
    exact ⟨ok, fits, rfl⟩
  · rintro ⟨ok, fits, rfl⟩
    exact ⟨_, _, ⟨ok, fits, rfl, rfl⟩, rfl⟩

end BoundedAuthority.V1.Jcs
