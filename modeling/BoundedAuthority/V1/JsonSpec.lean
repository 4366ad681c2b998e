import BoundedAuthority.V1.JsonScan

/-!
# What the decoder accepts

The callbacks check every ceiling while they count.  What is left of those checks
at the end is one condition on the value (`decodeText_eq_some`): it is within the
ceilings, and its depth and its number of nodes are bounded.  With the scan, which
is a condition on the number lexemes, that says what `decode` accepts
(`decode_eq_some`): one JSON text, with whitespace around it.
-/

namespace BoundedAuthority.V1.Json

open Wire JsonValue

/-- What the callbacks check a value against.  A member name passes through the
string callback too. -/
def ceilings (bounds : Bounds) : Ceilings where
  arrayItems := bounds .arrayItems
  objectMembers := bounds .objectMembers
  stringBytes := bounds .stringBytes
  keyBytes := min (bounds .keyBytes) (bounds .stringBytes)
  integerMagnitude := bounds .integerMagnitude
  floatMagnitude := bounds .floatMagnitude

/-- The node of a value. -/
def Node.of (v : JsonValue) : Node := ⟨v, v.nodes, v.depth⟩

/-- A value the callbacks let through inside a container of the given level. -/
structure Admits (bounds : Bounds) (level : Nat) (v : JsonValue) : Prop where
  within : Within (ceilings bounds) v
  nodes : v.nodes ≤ bounds .totalNodes
  depth : level + v.depth ≤ bounds .depth

/-! ## The callbacks -/

variable {bounds : Bounds}

theorem numberNode_eq_some {level : Nat} (room : level ≤ bounds .depth) {lexeme : Lexeme}
    {node : Node} : numberNode lexeme bounds = some node ↔
      ∃ v, lexeme.value? = some v ∧ Admits bounds level v ∧ node = Node.of v := by
  have one : 1 ≤ bounds .totalNodes := bounds.positive _
  unfold numberNode Lexeme.value?
  split
  next =>
    cases F64.ofDecimal lexeme.negative lexeme.coefficient lexeme.scale with
    | none => simp
    | some x =>
        simp only [Option.map_some, Option.bind_eq_bind, Option.bind_some, guard_bind_eq_some,
          Option.some.injEq, exists_eq_left']
        constructor
        · rintro ⟨bounded, rfl⟩
          exact ⟨⟨bounded, one, by simpa [JsonValue.depth] using room⟩, rfl⟩
        · rintro ⟨admits, rfl⟩
          exact ⟨admits.within, rfl⟩
  next =>
    simp only [Option.bind_eq_bind, Option.bind_some, guard_bind_eq_some, Option.some.injEq,
      exists_eq_left']
    constructor
    · rintro ⟨bounded, rfl⟩
      exact ⟨⟨bounded, one, by simpa [JsonValue.depth] using room⟩, rfl⟩
    · rintro ⟨admits, rfl⟩
      exact ⟨admits.within, rfl⟩

theorem stringNode_eq_some {string : Bytes} {node : Node} : stringNode string bounds = some node ↔
    string.length ≤ bounds .stringBytes ∧ node = Node.of (.string string) := by
  simp only [stringNode, Option.bind_eq_bind, guard_bind_eq_some, Option.some.injEq]
  exact and_congr_right fun _ => eq_comm

theorem startContainer_eq_some {α : Type} {level : Nat} {container : Container α} :
    startContainer level bounds = some container ↔
      level + 1 ≤ bounds .depth ∧ container = ⟨level + 1, [], [], 0, 0, 0⟩ := by
  simp only [startContainer, Option.bind_eq_bind, guard_bind_eq_some, Option.some.injEq]
  exact and_congr_right fun _ => eq_comm

/-- The container after more items. -/
def Container.withItems (c : Container JsonValue) (vs : List JsonValue) : Container JsonValue :=
  { c with
    values := vs.reverse ++ c.values, count := c.count + vs.length
    nodes := c.nodes + nodesItems vs, depth := max c.depth (depthItems vs) }

/-- The container after more members. -/
def Container.withMembers (c : Container (Bytes × JsonValue)) (ms : List (Bytes × JsonValue)) :
    Container (Bytes × JsonValue) :=
  { c with
    values := ms.reverse ++ c.values, seen := (ms.map Prod.fst).reverse ++ c.seen
    count := c.count + ms.length, nodes := c.nodes + nodesMembers ms
    depth := max c.depth (depthMembers ms) }

theorem Container.withItems_cons (c : Container JsonValue) (v : JsonValue) (vs : List JsonValue) :
    (c.withItems [v]).withItems vs = c.withItems (v :: vs) := by
  simp [withItems, nodesItems, depthItems, Nat.add_assoc, Nat.add_comm 1, Nat.max_assoc]

theorem Container.withMembers_cons (c : Container (Bytes × JsonValue)) (m : Bytes × JsonValue)
    (ms : List (Bytes × JsonValue)) :
    (c.withMembers [m]).withMembers ms = c.withMembers (m :: ms) := by
  simp [withMembers, nodesMembers, depthMembers, Nat.add_assoc, Nat.add_comm 1, Nat.max_assoc]

theorem pushArray_eq_some {v : JsonValue} {c c' : Container JsonValue} :
    pushArray (Node.of v) c bounds = some c' ↔
      c.count + 1 ≤ bounds .arrayItems ∧ c.nodes + v.nodes + 1 ≤ bounds .totalNodes ∧
        c' = c.withItems [v] := by
  simp only [pushArray, Option.bind_eq_bind, guard_bind_eq_some, Option.some.injEq,
    and_assoc]
  refine and_congr_right fun _ => and_congr_right fun _ => ?_
  simp [Node.of, Container.withItems, nodesItems, depthItems, eq_comm]

theorem pushObject_eq_some {key : Bytes} {v : JsonValue} {c c' : Container (Bytes × JsonValue)} :
    pushObject key (Node.of v) c bounds = some c' ↔
      key.length ≤ bounds .keyBytes ∧ key ∉ c.seen ∧ c.count + 1 ≤ bounds .objectMembers ∧
        c.nodes + v.nodes + 1 ≤ bounds .totalNodes ∧ c' = c.withMembers [(key, v)] := by
  simp only [pushObject, Option.bind_eq_bind, guard_bind_eq_some, Option.some.injEq,
    and_assoc]
  refine and_congr_right fun _ => and_congr_right fun _ => and_congr_right fun _ =>
    and_congr_right fun _ => ?_
  simp [Node.of, Container.withMembers, nodesMembers, depthMembers, eq_comm]

theorem finishContainer_eq_some {α : Type} {kind : List α → JsonValue} {c : Container α}
    {node : Node} : finishContainer kind c bounds = some node ↔
      c.nodes + 1 ≤ bounds .totalNodes ∧ c.depth + 1 ≤ bounds .depth ∧
        node = ⟨kind c.values.reverse, c.nodes + 1, c.depth + 1⟩ := by
  simp only [finishContainer, Option.bind_eq_bind, guard_bind_eq_some, Option.some.injEq, and_assoc]
  exact and_congr_right fun _ => and_congr_right fun _ => eq_comm

/-! ## The recursion -/

/-- Items the callbacks let through into a container. -/
structure AdmitsItems (bounds : Bounds) (c : Container JsonValue) (vs : List JsonValue) : Prop where
  within : WithinItems (ceilings bounds) vs
  count : c.count + vs.length ≤ bounds .arrayItems
  nodes : c.nodes + nodesItems vs + 1 ≤ bounds .totalNodes
  depth : c.level + depthItems vs ≤ bounds .depth

/-- Members the callbacks let through into a container. -/
structure AdmitsMembers (bounds : Bounds) (c : Container (Bytes × JsonValue))
    (ms : List (Bytes × JsonValue)) : Prop where
  within : WithinMembers (ceilings bounds) ms
  unique : (ms.map Prod.fst).Nodup
  fresh : ∀ key ∈ ms.map Prod.fst, key ∉ c.seen
  count : c.count + ms.length ≤ bounds .objectMembers
  nodes : c.nodes + nodesMembers ms + 1 ≤ bounds .totalNodes
  depth : c.level + depthMembers ms ≤ bounds .depth

theorem admits_array {level : Nat} {vs : List JsonValue} : Admits bounds level (.array vs) ↔
    level + 1 ≤ bounds .depth ∧ AdmitsItems bounds ⟨level + 1, [], [], 0, 0, 0⟩ vs := by
  constructor
  · rintro ⟨⟨count, within⟩, nodes, depth⟩
    simp only [JsonValue.nodes, JsonValue.depth] at nodes depth
    exact ⟨by omega, within, by simpa [ceilings] using count, by simpa using nodes,
      by simp only; omega⟩
  · rintro ⟨room, within, count, nodes, depth⟩
    simp only at count nodes depth
    exact ⟨⟨by simpa [ceilings] using count, within⟩, by simpa [JsonValue.nodes] using nodes,
      by simp only [JsonValue.depth]; omega⟩

theorem admits_object {level : Nat} {ms : List (Bytes × JsonValue)} :
    Admits bounds level (.object ms) ↔
      level + 1 ≤ bounds .depth ∧ AdmitsMembers bounds ⟨level + 1, [], [], 0, 0, 0⟩ ms := by
  constructor
  · rintro ⟨⟨count, unique, within⟩, nodes, depth⟩
    simp only [JsonValue.nodes, JsonValue.depth] at nodes depth
    exact ⟨by omega, within, unique, by simp, by simpa [ceilings] using count, by simpa using nodes,
      by simp only; omega⟩
  · rintro ⟨room, within, unique, -, count, nodes, depth⟩
    simp only at count nodes depth
    exact ⟨⟨by simpa [ceilings] using count, unique, within⟩,
      by simpa [JsonValue.nodes] using nodes, by simp only [JsonValue.depth]; omega⟩

theorem admitsItems_cons {c : Container JsonValue} {v : JsonValue} {vs : List JsonValue} :
    AdmitsItems bounds c (v :: vs) ↔
      Admits bounds c.level v ∧ c.count + 1 ≤ bounds .arrayItems ∧
        c.nodes + v.nodes + 1 ≤ bounds .totalNodes ∧ AdmitsItems bounds (c.withItems [v]) vs := by
  constructor
  · rintro ⟨⟨within, rest⟩, count, nodes, depth⟩
    simp only [List.length_cons, nodesItems, depthItems] at count nodes depth
    refine ⟨⟨within, by omega, by omega⟩, by omega, by omega, ⟨rest, ?_, ?_, ?_⟩⟩ <;>
      simp only [Container.withItems, List.length_singleton, nodesItems] <;> omega
  · rintro ⟨⟨within, -, deep⟩, -, -, ⟨rest, count, nodes, depth⟩⟩
    simp only [Container.withItems, List.length_singleton, nodesItems] at count nodes depth
    refine ⟨⟨within, rest⟩, ?_, ?_, ?_⟩ <;>
      simp only [List.length_cons, nodesItems, depthItems] <;> omega

theorem admitsItems_nil {c : Container JsonValue} (room : c.level ≤ bounds .depth)
    (count : c.count ≤ bounds .arrayItems) (nodes : c.nodes + 1 ≤ bounds .totalNodes) :
    AdmitsItems bounds c [] :=
  ⟨trivial, by simpa using count, by simpa [nodesItems] using nodes,
    by simpa [depthItems] using room⟩

theorem admitsMembers_cons {c : Container (Bytes × JsonValue)} {key : Bytes} {v : JsonValue}
    {ms : List (Bytes × JsonValue)} (valid : Utf8.valid key = true) :
    AdmitsMembers bounds c ((key, v) :: ms) ↔
      key.length ≤ bounds .stringBytes ∧ Admits bounds c.level v ∧
        key.length ≤ bounds .keyBytes ∧ key ∉ c.seen ∧ c.count + 1 ≤ bounds .objectMembers ∧
        c.nodes + v.nodes + 1 ≤ bounds .totalNodes ∧
        AdmitsMembers bounds (c.withMembers [(key, v)]) ms := by
  constructor
  · rintro ⟨⟨⟨size, -⟩, within, rest⟩, unique, fresh, count, nodes, depth⟩
    simp only [List.length_cons, nodesMembers, depthMembers] at count nodes depth
    simp only [List.map_cons, List.nodup_cons] at unique
    simp only [List.map_cons, List.forall_mem_cons] at fresh
    have size : key.length ≤ min (bounds .keyBytes) (bounds .stringBytes) := size
    refine ⟨by omega, ⟨within, by omega, by omega⟩, by omega, fresh.1, by omega, by omega,
      ⟨rest, unique.2, fun k hk => ?_, ?_, ?_, ?_⟩⟩
    · simp only [Container.withMembers, List.map_cons, List.map_nil, List.reverse_cons,
        List.reverse_nil, List.nil_append, List.singleton_append, List.mem_cons, not_or]
      exact ⟨fun same => unique.1 (same ▸ hk), fresh.2 k hk⟩
    all_goals simp only [Container.withMembers, List.length_singleton, nodesMembers]; omega
  · rintro ⟨string, ⟨within, -, deep⟩, size, new, -, -, ⟨rest, unique, fresh, count, nodes, depth⟩⟩
    simp only [Container.withMembers, List.map_cons, List.map_nil, List.reverse_cons,
      List.reverse_nil, List.nil_append, List.singleton_append, List.mem_cons, not_or] at fresh
    simp only [Container.withMembers, List.length_singleton, nodesMembers] at count nodes depth
    refine ⟨⟨⟨Nat.le_min.mpr ⟨size, string⟩, valid⟩, within, rest⟩, ?_, ?_, ?_, ?_, ?_⟩
    · simp only [List.map_cons, List.nodup_cons]
      exact ⟨fun member => (fresh key member).1 rfl, unique⟩
    · simp only [List.map_cons, List.forall_mem_cons]
      exact ⟨new, fun k hk => (fresh k hk).2⟩
    all_goals simp only [List.length_cons, nodesMembers, depthMembers]; omega

theorem admitsMembers_nil {c : Container (Bytes × JsonValue)} (room : c.level ≤ bounds .depth)
    (count : c.count ≤ bounds .objectMembers) (nodes : c.nodes + 1 ≤ bounds .totalNodes) :
    AdmitsMembers bounds c [] :=
  ⟨trivial, List.nodup_nil, by simp, by simpa using count, by simpa [nodesMembers] using nodes,
    by simpa [depthMembers] using room⟩

/-- Closing the container of all items. -/
theorem finishArray_eq_some {level : Nat} {vs : List JsonValue} {node : Node}
    (admits : AdmitsItems bounds ⟨level + 1, [], [], 0, 0, 0⟩ vs) :
    finishContainer .array (Container.withItems ⟨level + 1, [], [], 0, 0, 0⟩ vs) bounds =
      some node ↔
      node = Node.of (.array vs) := by
  have nodes := admits.nodes
  have depth := admits.depth
  simp only at nodes depth
  rw [finishContainer_eq_some]
  simp only [Container.withItems, List.append_nil, List.reverse_reverse, Node.of, JsonValue.nodes,
    JsonValue.depth, Nat.zero_add, Nat.zero_max]
  constructor
  · exact fun h => h.2.2
  · exact fun h => ⟨by omega, by omega, h⟩

theorem finishObject_eq_some {level : Nat} {ms : List (Bytes × JsonValue)} {node : Node}
    (admits : AdmitsMembers bounds ⟨level + 1, [], [], 0, 0, 0⟩ ms) :
    finishContainer .object (Container.withMembers ⟨level + 1, [], [], 0, 0, 0⟩ ms) bounds =
      some node ↔ node = Node.of (.object ms) := by
  have nodes := admits.nodes
  have depth := admits.depth
  simp only at nodes depth
  rw [finishContainer_eq_some]
  simp only [Container.withMembers, List.append_nil, List.reverse_reverse, Node.of,
    JsonValue.nodes, JsonValue.depth, Nat.zero_add, Nat.zero_max]
  constructor
  · exact fun h => h.2.2
  · exact fun h => ⟨by omega, by omega, h⟩

mutual

/-- The callbacks build the node of the value exactly when they admit it. -/
theorem decodeText_eq_some : ∀ (t : Text) {level : Nat} {node : Node}, level ≤ bounds .depth →
    (decodeText bounds level t = some node ↔
      ∃ v, t.value? = some v ∧ Admits bounds level v ∧ node = Node.of v)
  | .null, level, node, room => by
      have one : 1 ≤ bounds .totalNodes := bounds.positive _
      have admits : Admits bounds level .null :=
        ⟨trivial, one, by simpa [JsonValue.depth] using room⟩
      simp only [decodeText, Text.value?, Option.some.injEq, exists_eq_left', admits, true_and]
      exact eq_comm
  | .boolean b, level, node, room => by
      have one : 1 ≤ bounds .totalNodes := bounds.positive _
      have admits : Admits bounds level (.boolean b) :=
        ⟨trivial, one, by simpa [JsonValue.depth] using room⟩
      simp only [decodeText, Text.value?, Option.some.injEq, exists_eq_left', admits, true_and]
      exact eq_comm
  | .number lexeme, level, node, room => numberNode_eq_some room
  | .string pieces, level, node, room => by
      have one : 1 ≤ bounds .totalNodes := bounds.positive _
      simp only [decodeText, Text.value?, Option.some.injEq, exists_eq_left', stringNode_eq_some]
      refine and_congr_left fun _ => ⟨fun size => ?_, fun admits => admits.within.1⟩
      exact ⟨⟨size, Pieces.valid_value pieces⟩, one, by simpa [JsonValue.depth] using room⟩
  | .emptyArray _, level, node, room => by
      simp only [decodeText, Text.value?, Option.some.injEq, exists_eq_left', admits_array,
        Option.bind_eq_bind, Option.bind_eq_some_iff, startContainer_eq_some]
      constructor
      · rintro ⟨_, ⟨deep, rfl⟩, finished⟩
        have admits : AdmitsItems bounds ⟨level + 1, [], [], 0, 0, 0⟩ [] :=
          admitsItems_nil deep (Nat.zero_le _) (finishContainer_eq_some.mp finished).1
        exact ⟨⟨deep, admits⟩, (finishArray_eq_some admits).mp finished⟩
      · rintro ⟨⟨deep, admits⟩, same⟩
        exact ⟨_, ⟨deep, rfl⟩, (finishArray_eq_some admits).mpr same⟩
  | .array items, level, node, room => by
      simp only [decodeText, Text.value?, Option.bind_eq_bind, Option.bind_eq_some_iff,
        startContainer_eq_some, Option.map_eq_some_iff]
      constructor
      · rintro ⟨_, ⟨deep, rfl⟩, c, found, finished⟩
        obtain ⟨vs, values, admits, rfl⟩ :=
          (decodeItems_eq_some items deep).mp found
        exact ⟨_, ⟨vs, values, rfl⟩, admits_array.mpr ⟨deep, admits⟩,
          (finishArray_eq_some admits).mp finished⟩
      · rintro ⟨_, ⟨vs, values, rfl⟩, admits, same⟩
        obtain ⟨deep, admits⟩ := admits_array.mp admits
        exact ⟨_, ⟨deep, rfl⟩, _, (decodeItems_eq_some items deep).mpr ⟨vs, values, admits, rfl⟩,
          (finishArray_eq_some admits).mpr same⟩
  | .emptyObject _, level, node, room => by
      simp only [decodeText, Text.value?, Option.some.injEq, exists_eq_left', admits_object,
        Option.bind_eq_bind, Option.bind_eq_some_iff, startContainer_eq_some]
      constructor
      · rintro ⟨_, ⟨deep, rfl⟩, finished⟩
        have admits : AdmitsMembers bounds ⟨level + 1, [], [], 0, 0, 0⟩ [] :=
          admitsMembers_nil deep (Nat.zero_le _) (finishContainer_eq_some.mp finished).1
        exact ⟨⟨deep, admits⟩, (finishObject_eq_some admits).mp finished⟩
      · rintro ⟨⟨deep, admits⟩, same⟩
        exact ⟨_, ⟨deep, rfl⟩, (finishObject_eq_some admits).mpr same⟩
  | .object members, level, node, room => by
      simp only [decodeText, Text.value?, Option.bind_eq_bind, Option.bind_eq_some_iff,
        startContainer_eq_some, Option.map_eq_some_iff]
      constructor
      · rintro ⟨_, ⟨deep, rfl⟩, c, found, finished⟩
        obtain ⟨ms, values, admits, rfl⟩ := (decodeMembers_eq_some members deep).mp found
        exact ⟨_, ⟨ms, values, rfl⟩, admits_object.mpr ⟨deep, admits⟩,
          (finishObject_eq_some admits).mp finished⟩
      · rintro ⟨_, ⟨ms, values, rfl⟩, admits, same⟩
        obtain ⟨deep, admits⟩ := admits_object.mp admits
        exact ⟨_, ⟨deep, rfl⟩, _, (decodeMembers_eq_some members deep).mpr
          ⟨ms, values, admits, rfl⟩, (finishObject_eq_some admits).mpr same⟩

theorem decodeItems_eq_some : ∀ (items : Items) {c c' : Container JsonValue},
    c.level ≤ bounds .depth →
    (decodeItems bounds c items = some c' ↔
      ∃ vs, items.values? = some vs ∧ AdmitsItems bounds c vs ∧ c' = c.withItems vs)
  | .last _ value _, c, c', room => by
      simp only [decodeItems, Items.values?, Option.bind_eq_bind, Option.bind_eq_some_iff,
        Option.map_eq_some_iff]
      constructor
      · rintro ⟨_, found, pushed⟩
        obtain ⟨v, denotes, admits, rfl⟩ := (decodeText_eq_some value room).mp found
        obtain ⟨count, nodes, rfl⟩ := pushArray_eq_some.mp pushed
        exact ⟨_, ⟨v, denotes, rfl⟩, admitsItems_cons.mpr ⟨admits, count, nodes,
          admitsItems_nil room count (by simpa [Container.withItems, nodesItems] using nodes)⟩, rfl⟩
      · rintro ⟨_, ⟨v, denotes, rfl⟩, admits, rfl⟩
        obtain ⟨admits, count, nodes, -⟩ := admitsItems_cons.mp admits
        exact ⟨_, (decodeText_eq_some value room).mpr ⟨v, denotes, admits, rfl⟩,
          pushArray_eq_some.mpr ⟨count, nodes, rfl⟩⟩
  | .more _ value _ rest, c, c', room => by
      simp only [decodeItems, Items.values?, Option.bind_eq_bind, Option.bind_eq_some_iff]
      constructor
      · rintro ⟨_, found, _, pushed, restFound⟩
        obtain ⟨v, denotes, admits, rfl⟩ := (decodeText_eq_some value room).mp found
        obtain ⟨count, nodes, rfl⟩ := pushArray_eq_some.mp pushed
        obtain ⟨vs, restDenotes, restAdmits, rfl⟩ :=
          (decodeItems_eq_some rest (c := c.withItems [v]) room).mp restFound
        exact ⟨v :: vs, ⟨v, denotes, vs, restDenotes, rfl⟩,
          admitsItems_cons.mpr ⟨admits, count, nodes, restAdmits⟩, c.withItems_cons v vs⟩
      · rintro ⟨_, ⟨v, denotes, vs, restDenotes, same⟩, admits, rfl⟩
        obtain rfl := Option.some.inj same
        obtain ⟨admits, count, nodes, restAdmits⟩ := admitsItems_cons.mp admits
        exact ⟨_, (decodeText_eq_some value room).mpr ⟨v, denotes, admits, rfl⟩, _,
          pushArray_eq_some.mpr ⟨count, nodes, rfl⟩,
          (decodeItems_eq_some rest (c := c.withItems [v]) room).mpr
            ⟨vs, restDenotes, restAdmits, (c.withItems_cons v vs).symm⟩⟩

theorem decodeMembers_eq_some : ∀ (members : Members) {c c' : Container (Bytes × JsonValue)},
    c.level ≤ bounds .depth →
    (decodeMembers bounds c members = some c' ↔
      ∃ ms, members.values? = some ms ∧ AdmitsMembers bounds c ms ∧ c' = c.withMembers ms)
  | .last _ _ name _ _ value _, c, c', room => by
      simp only [decodeMembers, Members.values?, Option.bind_eq_bind, Option.bind_eq_some_iff,
        Option.map_eq_some_iff, stringNode_eq_some]
      constructor
      · rintro ⟨_, ⟨string, -⟩, _, found, pushed⟩
        obtain ⟨v, denotes, admits, rfl⟩ := (decodeText_eq_some value room).mp found
        obtain ⟨size, new, count, nodes, rfl⟩ := pushObject_eq_some.mp pushed
        exact ⟨_, ⟨v, denotes, rfl⟩, (admitsMembers_cons (Pieces.valid_value name)).mpr
          ⟨string, admits, size, new, count, nodes, admitsMembers_nil room count
            (by simpa [Container.withMembers, nodesMembers] using nodes)⟩, rfl⟩
      · rintro ⟨_, ⟨v, denotes, rfl⟩, admits, rfl⟩
        obtain ⟨string, admits, size, new, count, nodes, -⟩ :=
          (admitsMembers_cons (Pieces.valid_value name)).mp admits
        exact ⟨_, ⟨string, rfl⟩, _, (decodeText_eq_some value room).mpr ⟨v, denotes, admits, rfl⟩,
          pushObject_eq_some.mpr ⟨size, new, count, nodes, rfl⟩⟩
  | .more _ _ name _ _ value _ rest, c, c', room => by
      simp only [decodeMembers, Members.values?, Option.bind_eq_bind, Option.bind_eq_some_iff,
        stringNode_eq_some]
      constructor
      · rintro ⟨_, ⟨string, -⟩, _, found, _, pushed, restFound⟩
        obtain ⟨v, denotes, admits, rfl⟩ := (decodeText_eq_some value room).mp found
        obtain ⟨size, new, count, nodes, rfl⟩ := pushObject_eq_some.mp pushed
        obtain ⟨ms, restDenotes, restAdmits, rfl⟩ :=
          (decodeMembers_eq_some rest (c := c.withMembers [(_, v)]) room).mp restFound
        exact ⟨_, ⟨v, denotes, ms, restDenotes, rfl⟩,
          (admitsMembers_cons (Pieces.valid_value name)).mpr
            ⟨string, admits, size, new, count, nodes, restAdmits⟩, c.withMembers_cons _ ms⟩
      · rintro ⟨_, ⟨v, denotes, ms, restDenotes, same⟩, admits, rfl⟩
        obtain rfl := Option.some.inj same
        obtain ⟨string, admits, size, new, count, nodes, restAdmits⟩ :=
          (admitsMembers_cons (Pieces.valid_value name)).mp admits
        exact ⟨_, ⟨string, rfl⟩, _, (decodeText_eq_some value room).mpr ⟨v, denotes, admits, rfl⟩,
          _, pushObject_eq_some.mpr ⟨size, new, count, nodes, rfl⟩,
          (decodeMembers_eq_some rest (c := c.withMembers [(_, v)]) room).mpr
            ⟨ms, restDenotes, restAdmits, (c.withMembers_cons _ ms).symm⟩⟩

end

/-! ## Decoding -/

/-- A text the decoder accepts, and its value. -/
structure Accepts (bounds : Bounds) (t : Text) (v : JsonValue) : Prop where
  lexemes : LexemesWithin bounds t.lexemes
  denotes : t.value? = some v
  admits : Admits bounds 0 v

theorem decodeBounded_eq_some {bytes : Bytes} {v : JsonValue} :
    decodeBounded bytes bounds = some v ↔ ∃ t : Text, t.Document bytes ∧ Accepts bounds t v := by
  unfold decodeBounded
  constructor
  · intro h
    split at h
    next scanned =>
      simp only [Option.bind_eq_bind, Option.bind_eq_some_iff, guard_eq_some] at h
      obtain ⟨⟨t, rest⟩, read, node, decoded, -, ⟨blank, -⟩, same⟩ := h
      obtain ⟨v', denotes, admits, rfl⟩ := (decodeText_eq_some t (Nat.zero_le _)).mp decoded
      obtain rfl : v' = v := Option.some.inj same
      have document : t.Document bytes :=
        Text.document_iff.mpr ⟨⟨rest, List.all_eq_true.mp blank⟩, read⟩
      obtain ⟨quoted, before, after, rfl⟩ := document
      exact ⟨t, ⟨quoted, before, after, rfl⟩,
        (numberLexemesValid_iff quoted before after).mp scanned, denotes, admits⟩
    next => cases h
  · rintro ⟨t, document, lexemes, denotes, admits⟩
    obtain ⟨after, read⟩ := Text.document_iff.mp document
    obtain ⟨quoted, before, after', rfl⟩ := document
    rw [if_pos ((numberLexemesValid_iff quoted before after').mpr lexemes)]
    have decoded : decodeText bounds 0 t = some (Node.of v) :=
      (decodeText_eq_some t (Nat.zero_le _)).mpr ⟨v, denotes, admits, rfl⟩
    simp only [read, decoded, Option.bind_eq_bind, Option.bind_some, guard_bind_eq_some]
    exact ⟨⟨List.all_eq_true.mpr after.property, admits.nodes⟩, rfl⟩

/-- The decoder accepts the documents of the texts within its bounds, and returns
their values. -/
theorem decode_eq_some {bytes : Bytes} {v : JsonValue} : decode bytes bounds = some v ↔
    bytes.length ≤ bounds .jsonBytes ∧ ∃ t : Text, t.Document bytes ∧ Accepts bounds t v := by
  simp only [decode, Bounds.coerce_toLimits, Option.bind_eq_bind, Option.bind_some,
    guard_bind_eq_some, decodeBounded_eq_some]

/-- One byte string is decoded to one value, under whatever bounds. -/
theorem decode_unique {bytes : Bytes} {bounds bounds' : Bounds} {v v' : JsonValue}
    (h : decode bytes bounds = some v) (h' : decode bytes bounds' = some v') : v = v' := by
  obtain ⟨-, t, document, accepts⟩ := decode_eq_some.mp h
  obtain ⟨-, t', document', accepts'⟩ := decode_eq_some.mp h'
  obtain rfl := document.unique document'
  exact Option.some.inj (accepts.denotes.symm.trans accepts'.denotes)

end BoundedAuthority.V1.Json
