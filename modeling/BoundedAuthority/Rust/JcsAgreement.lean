import BoundedAuthority.Rust.Jcs
import BoundedAuthority.V1.JcsFits
import BoundedAuthority.V1.JcsLayout

/-!
# The two canonical encoders, Rust and the reference

Both write the canonical text of the values within their bounds.  The Rust encoder
pushes into one buffer and checks its size after every node, so it may stop in the
middle of a value the reference only refuses at the end; the buffer never shrinks, so
both refuse the same values (`jcsEncode_eq`).
-/

namespace BoundedAuthority.Rust

open Wire V1 JsonValue
open V1.Jcs (ceilings canon canonMember sortMembers Fits FitsMember)

/-! ## Values -/

theorem representableItems_iff {items : List JsonValue} :
    RepresentableItems items ↔ ∀ v ∈ items, Representable v := by
  induction items with
  | nil => simp [RepresentableItems]
  | cons item rest ih => simp [RepresentableItems, ih]

theorem representableMembers_iff {members : List (Bytes × JsonValue)} :
    RepresentableMembers members ↔ ∀ m ∈ members, Utf8.valid m.1 = true ∧ Representable m.2 := by
  induction members with
  | nil => simp [RepresentableMembers]
  | cons member rest ih => simp [RepresentableMembers, ih, and_assoc]

namespace Jcs

/-! ## Strings -/

set_option maxRecDepth 4096 in
/-- The characters are pushed in their shortest form. -/
theorem escapeChar_eq (c : Char) : escapeChar c = (Piece.ofChar c).render := by
  by_cases plain : isUnescaped c = true
  · have small : ¬ c.toNat ≤ 0x1F ∧ c.toNat ≠ 0x22 ∧ c.toNat ≠ 0x5C := by
      simp only [isUnescaped, Bool.and_eq_true, decide_eq_true_eq] at plain
      omega
    rw [Piece.render_ofChar plain, escapeChar, if_neg small.1, if_neg small.2.2, if_neg small.2.1]
  · exact escaped_forall (P := fun c => escapeChar c = (Piece.ofChar c).render) (by decide) plain

theorem foldl_append (f : Char → Bytes) (cs : List Char) (out : Bytes) :
    cs.foldl (fun out c => out ++ f c) out = out ++ cs.flatMap f := by
  induction cs generalizing out with
  | nil => simp
  | cons c cs ih => rw [List.foldl_cons, ih, List.flatMap_cons, List.append_assoc]

theorem encodeString_eq (s out : Bytes) :
    encodeString s out = out ++ 0x22 :: Pieces.render (Pieces.ofString s) := by
  rw [encodeString, foldl_append, V1.Jcs.render_pieces, Pieces.ofString, chars, List.flatMap_map,
    show escapeChar = fun c => (Piece.ofChar c).render from funext escapeChar_eq]
  simp

/-! ## The order of names -/

theorem compareUnits_ne_gt : ∀ us vs : List Nat, compareUnits us vs ≠ .gt ↔ Utf16.le us vs = true
  | [], [] => by simp [compareUnits, Utf16.le]
  | [], _ :: _ => by simp [compareUnits, Utf16.le]
  | _ :: _, [] => by simp [compareUnits, Utf16.le]
  | u :: us, v :: vs => by
      rw [compareUnits, Utf16.le]
      rcases lt_trichotomy u v with lt | rfl | gt
      · rw [compare_lt_iff_lt.mpr lt, if_pos lt]
        simp
      · rw [compare_eq_iff_eq.mpr rfl, if_neg (Nat.lt_irrefl u), if_neg (Nat.lt_irrefl u)]
        exact compareUnits_ne_gt us vs
      · rw [compare_gt_iff_gt.mpr gt, if_neg (Nat.lt_asymm gt), if_pos gt]
        simp

theorem sortByName_eq {α : Type} (members : List (Bytes × α)) :
    sortByName members = sortMembers members := by
  rw [sortByName, sortMembers]
  have agree : ∀ x ∈ members, ∀ y ∈ members, utf16Compare x.1 y.1 ≠ .gt ↔
      Utf16.le (Utf16.units x.1) (Utf16.units y.1) = true := fun x _ y _ => compareUnits_ne_gt _ _
  have same := List.map_insertionSort (fun x y : Bytes × α => utf16Compare x.1 y.1 ≠ .gt)
    (fun x y : Bytes × α => Utf16.le (Utf16.units x.1) (Utf16.units y.1) = true) id members agree
  rwa [List.map_id, List.map_id] at same

variable {formatFinite : F64 → Bytes} {bounds : Bounds}

/-- The loop over the names finds out whether they are short and distinct. -/
theorem checkKeys_iff {seen keys : List Bytes} : checkKeys bounds seen keys = true ↔
    keys.Nodup ∧ ∀ k ∈ keys, k.length ≤ bounds .keyBytes ∧ k ∉ seen := by
  induction keys generalizing seen with
  | nil => simp [checkKeys]
  | cons k rest ih =>
      rw [checkKeys, List.nodup_cons, List.forall_mem_cons]
      by_cases refused : k.length > bounds .keyBytes ∨ k ∈ seen
      · rw [if_pos refused]
        constructor
        · intro h
          cases h
        · rintro ⟨_, ⟨short, fresh⟩, _⟩
          cases refused with
          | inl long => omega
          | inr old => exact absurd old fresh
      · rw [if_neg refused, ih]
        simp only [not_or, Nat.not_lt, List.mem_cons] at refused ⊢
        constructor
        · rintro ⟨nodup, apart⟩
          exact ⟨⟨fun again => (apart k again).2.1 rfl, nodup⟩, refused,
            fun n hn => ⟨(apart n hn).1, (apart n hn).2.2⟩⟩
        · rintro ⟨⟨fresh, nodup⟩, _, apart⟩
          refine ⟨nodup, fun n hn => ⟨(apart n hn).1, ?_, (apart n hn).2⟩⟩
          rintro rfl
          exact fresh hn

/-! ## Writers -/

/-- What an encoder of a value does at a depth: it pushes the canonical text as long as
the buffer stays within its size. -/
abbrev EncoderAppends (formatFinite : F64 → Bytes) (bounds : Bounds) (depth : Nat) (v : JsonValue) :
    Prop :=
  Writer.Appends (fun v => encodeValue formatFinite bounds v depth) (bounds .totalNodes)
    (fun size => size ≤ bounds .jcsBytes) (Fits bounds depth) canon nodes v

theorem shrinks (m n : Nat) (le : m ≤ n) (h : n ≤ bounds .jcsBytes) : m ≤ bounds .jcsBytes :=
  le.trans h

theorem itemEncoders_eq (items : List JsonValue) :
    itemEncoders formatFinite bounds items = items.map (encodeValue formatFinite bounds) := by
  induction items with
  | nil => rw [itemEncoders, List.map_nil]
  | cons item rest ih => rw [itemEncoders, ih, List.map_cons]

theorem memberEncoders_eq (members : List (Bytes × JsonValue)) :
    memberEncoders formatFinite bounds members =
      members.map (Prod.map id (encodeValue formatFinite bounds)) := by
  induction members with
  | nil => rw [memberEncoders, List.map_nil]
  | cons member rest ih => rw [memberEncoders, ih, List.map_cons, Prod.map, id]

/-- An arm that pushes the canonical text of a leaf. -/
theorem push_appends {v : JsonValue} {pushed : Bytes → Option Bytes} {depth : Nat}
    (leaf : v.depth = 0) (single : v.nodes = 1) (low : depth ≤ bounds .depth + 1)
    (text : ∀ out out', pushed out = some out' ↔
      Within (ceilings bounds) v ∧ out' = out ++ canon v) :
    ∀ out n out' n', n ≤ bounds .totalNodes →
      (encodeNode bounds (push pushed) depth out n = some (out', n') ↔ Fits bounds depth v ∧
        n + v.nodes ≤ bounds .totalNodes ∧ (out ++ canon v).length ≤ bounds .jcsBytes ∧
        out' = out ++ canon v ∧ n' = n + v.nodes) := by
  intro out n out' n' _
  simp only [encodeNode, push, Option.bind_eq_bind, Option.bind_eq_some_iff, guard_eq_some,
    exists_const, Option.map_eq_some_iff, text, Prod.exists, Prod.mk.injEq, Option.some.injEq,
    single]
  constructor
  · rintro ⟨under, _, _, ⟨_, ⟨within, rfl⟩, rfl, rfl⟩, size, rfl, rfl⟩
    exact ⟨⟨within, by omega⟩, under, size, rfl, rfl⟩
  · rintro ⟨fits, under, size, rfl, rfl⟩
    exact ⟨under, _, _, ⟨_, ⟨fits.within, rfl⟩, rfl, rfl⟩, size, rfl, rfl⟩

theorem encodeMember_appends {depth : Nat} {m : Bytes × JsonValue}
    (name : (ceilings bounds).Name m.1) (appends : EncoderAppends formatFinite bounds depth m.2) :
    Writer.Appends (fun m => encodeMember depth (Prod.map id (encodeValue formatFinite bounds) m))
      (bounds .totalNodes) (fun size => size ≤ bounds .jcsBytes) (FitsMember bounds depth)
        canonMember
      (fun m => nodes m.2) m := by
  intro out n out' n' room
  have text : out ++ canonMember m = encodeString m.1 out ++ [0x3A] ++ canon m.2 := by
    rw [encodeString_eq, canonMember]
    simp
  show encodeValue formatFinite bounds m.2 depth (encodeString m.1 out ++ [0x3A]) n = _ ↔ _
  rw [appends _ _ _ _ room, text, FitsMember, and_iff_right name]

/-- The loop over the items pushes them all. -/
theorem itemLoop_eq_some {depth : Nat} {values : List JsonValue}
    (appends : ∀ v ∈ values, EncoderAppends formatFinite bounds depth v) {out out' : Bytes}
    {n n' : Nat} (room : n ≤ bounds .totalNodes) :
    Writer.separated 0x2C (encodeItem depth) true (values.map (encodeValue formatFinite bounds)) out
      n =
        some (out', n') ↔
      (∀ v ∈ values, Fits bounds depth v) ∧ n + nodesItems values ≤ bounds .totalNodes ∧
        (values = [] ∨ out'.length ≤ bounds .jcsBytes) ∧
        out' = out ++ List.intercalate [0x2C] (values.map canon) ∧ n' = n + nodesItems values := by
  rw [Writer.separated_map, nodesItems_eq, ← Writer.joined_eq]
  exact Writer.separated_eq_some shrinks appends out' n' room

/-- The loop over the members pushes them all. -/
theorem memberLoop_eq_some {depth : Nat} {members : List (Bytes × JsonValue)}
    (names : ∀ m ∈ members, (ceilings bounds).Name m.1)
    (appends : ∀ m ∈ members, EncoderAppends formatFinite bounds depth m.2) {out out' : Bytes}
    {n n' : Nat} (room : n ≤ bounds .totalNodes) :
    Writer.separated 0x2C (encodeMember depth) true
        (members.map (Prod.map id (encodeValue formatFinite bounds))) out n = some (out', n') ↔
      (∀ m ∈ members, FitsMember bounds depth m) ∧ n + nodesMembers members ≤ bounds .totalNodes ∧
        (members = [] ∨ out'.length ≤ bounds .jcsBytes) ∧
        out' = out ++ List.intercalate [0x2C] (members.map canonMember) ∧
        n' = n + nodesMembers members := by
  rw [Writer.separated_map, nodesMembers_eq, ← Writer.joined_eq]
  exact Writer.separated_eq_some shrinks
    (fun m hm => encodeMember_appends (names m hm) (appends m hm))
    out' n' room

/-! ## The recursion -/

/-- The documented output of `ryu_js`. -/
def Ecma (formatFinite : F64 → Bytes) : Prop := ∀ x, formatFinite x = Ecmascript.numberToString x

theorem pushInt_eq_some {n : Int} {out out' : Bytes} : pushInt bounds n out = some out' ↔
    Within (ceilings bounds) (.integer n) ∧ out' = out ++ canon (.integer n) := by
  have bytes : Decimal.ofInt n = canon (.integer n) := (V1.Jcs.render_integerLexeme n).symm
  rw [pushInt, Option.bind_eq_bind, guard_bind_eq_some, Option.some.injEq, bytes, eq_comm]
  refine and_congr_left fun _ => ?_
  show ¬ (n < -(bounds .integerMagnitude : Int) ∨ n > bounds .integerMagnitude) ↔
    -(bounds .integerMagnitude : Int) ≤ n ∧ n ≤ bounds .integerMagnitude
  omega

theorem pushFloat_eq_some (ecma : Ecma formatFinite) {x : F64} {out out' : Bytes} :
    pushFloat formatFinite bounds (.finite x) out = some out' ↔
      Within (ceilings bounds) (.float x) ∧ out' = out ++ canon (.float x) := by
  rw [pushFloat, Option.bind_eq_bind, guard_bind_eq_some, encodeFloat, Option.some.injEq]
  refine and_congr_right fun within => ?_
  have same := (V1.Jcs.ecmascriptNumber_eq (V1.Jcs.floatMagnitude_small within)).1
  rw [V1.Jcs.ecmascriptNumber_eq_numberToString, Option.some.injEq] at same
  rw [ecma x, same, eq_comm]
  rfl

theorem pushString_eq_some {s out out' : Bytes} (valid : Utf8.valid s = true) :
    pushString bounds s out = some out' ↔
      Within (ceilings bounds) (.string s) ∧ out' = out ++ canon (.string s) := by
  rw [pushString, Option.bind_eq_bind, guard_bind_eq_some, Option.some.injEq, encodeString_eq,
    eq_comm]
  exact and_congr_left fun _ => (and_iff_left valid).symm

/-- What the encoder pushes, by recursion on the value. -/
theorem encodeValue_appends (ecma : Ecma formatFinite) (v : JsonValue) : Representable v →
    ∀ depth, depth ≤ bounds .depth + 1 → EncoderAppends formatFinite bounds depth v := by
  induction v using JsonValue.induction with
  | null =>
      intro _ depth low
      refine push_appends rfl rfl low fun out out' => ?_
      rw [Option.some.injEq, eq_comm]
      exact (and_iff_right trivial).symm
  | boolean value =>
      intro _ depth low
      cases value with
      | true =>
          refine push_appends rfl rfl low fun out out' => ?_
          rw [Option.some.injEq, eq_comm]
          exact (and_iff_right trivial).symm
      | false =>
          refine push_appends rfl rfl low fun out out' => ?_
          rw [Option.some.injEq, eq_comm]
          exact (and_iff_right trivial).symm
  | integer n =>
      intro _ depth low
      exact push_appends rfl rfl low fun out out' => pushInt_eq_some
  | float x =>
      intro _ depth low
      exact push_appends rfl rfl low fun out out' => pushFloat_eq_some ecma
  | string s =>
      intro valid depth low
      exact push_appends rfl rfl low fun out out' => pushString_eq_some valid
  | array values ih =>
      intro representable depth _ out n out' n' _
      have representable := representableItems_iff.mp representable
      have below := fun (low : depth ≤ bounds .depth) v hv =>
        ih v hv (representable v hv) (depth + 1) (Nat.succ_le_succ low)
      simp only [encodeValue, encodeNode, encodeArray, itemEncoders_eq, List.length_map,
        Option.bind_eq_bind, Option.bind_eq_some_iff, guard_eq_some, exists_const, Prod.exists,
        Option.some.injEq, Prod.mk.injEq, V1.Jcs.fits_array, JsonValue.nodes, V1.Jcs.canon_array]
      constructor
      · rintro ⟨under, _, _, ⟨low, count, _, _, found, rfl, rfl⟩, size, rfl, rfl⟩
        obtain ⟨fits, under', -, rfl, rfl⟩ := (itemLoop_eq_some (below low) under).mp found
        refine ⟨⟨low, count, fits⟩, by omega, ?_, by simp, by omega⟩
        simpa using size
      · rintro ⟨⟨low, count, fits⟩, under, size, rfl, rfl⟩
        refine ⟨by omega, _, _, ⟨low, count, _, _, (itemLoop_eq_some (below low) (by omega)).mpr
          ⟨fits, by omega, .inr ?_, rfl, rfl⟩, rfl, rfl⟩, by simpa using size, by simp, by omega⟩
        simp only [List.length_append, List.length_cons, List.length_nil] at size ⊢
        omega
  | object members ih =>
      intro representable depth _ out n out' n' _
      have representable := representableMembers_iff.mp representable
      have perm := V1.Jcs.sortMembers_perm members
      have total : nodesMembers (sortMembers members) = nodesMembers members := by
        rw [nodesMembers_eq, nodesMembers_eq]
        exact (perm.map _).sum_nat
      have below := fun (low : depth ≤ bounds .depth) m (hm : m ∈ sortMembers members) =>
        ih m (perm.mem_iff.mp hm) (representable m (perm.mem_iff.mp hm)).2 (depth + 1)
          (Nat.succ_le_succ low)
      have names : (members.map (Prod.map id (encodeValue formatFinite bounds))).map Prod.fst =
          members.map Prod.fst := by
        rw [List.map_map]
        rfl
      -- the names are checked before anything is pushed, and are well-formed by their type
      have keys : checkKeys bounds [] (members.map Prod.fst) = true ↔
          (members.map Prod.fst).Nodup ∧ ∀ m ∈ members, (ceilings bounds).Name m.1 := by
        rw [checkKeys_iff, List.forall_mem_map]
        refine and_congr_right fun _ => forall₂_congr fun m hm => ?_
        simp only [List.not_mem_nil, not_false_eq_true, and_true]
        exact (and_iff_left (representable m hm).1).symm
      simp only [encodeValue, encodeNode, encodeObject, memberEncoders_eq, List.length_map, names,
        keys, sortByName_eq, V1.Jcs.sortMembers_map, Option.bind_eq_bind, Option.bind_eq_some_iff,
        guard_eq_some, exists_const, Prod.exists, Option.some.injEq, Prod.mk.injEq,
        V1.Jcs.fits_object, JsonValue.nodes, V1.Jcs.canon_object]
      constructor
      · rintro ⟨under, _, _, ⟨low, count, ⟨nodup, named⟩, _, _, found, rfl, rfl⟩, size, rfl, rfl⟩
        obtain ⟨fits, under', -, rfl, rfl⟩ :=
          (memberLoop_eq_some (fun m hm => named m (perm.mem_iff.mp hm)) (below low) under).mp found
        rw [total] at under' ⊢
        refine ⟨⟨low, count, nodup, fun m hm => fits m (perm.mem_iff.mpr hm)⟩, by omega,
          ?_, by simp, by omega⟩
        simpa using size
      · rintro ⟨⟨low, count, nodup, fits⟩, under, size, rfl, rfl⟩
        have named := fun m hm => (fits m hm).1
        have sorted := fun m hm => fits m (perm.mem_iff.mp hm)
        refine ⟨by omega, _, _, ⟨low, count, ⟨nodup, named⟩, _, _,
          (memberLoop_eq_some (fun m hm => (sorted m hm).1) (below low) (by omega)).mpr
            ⟨sorted, by omega, .inr ?_, rfl, rfl⟩, rfl,
            rfl⟩, by simpa using size, by simp, by omega⟩
        simp only [List.length_append, List.length_cons, List.length_nil] at size ⊢
        omega

/-! ## The encoders -/

/-- The encoder writes the canonical text of the values within its bounds. -/
theorem jcsEncode_eq_some (ecma : Ecma formatFinite) {value : Value} {out : Bytes} :
    jcsEncode formatFinite bounds value = some out ↔
      V1.Jcs.Encodable bounds (bounds .depth) value.1 ∧ value.1.nodes ≤ bounds .totalNodes ∧
        out = canon value.1 := by
  have written := fun out' n' => encodeValue_appends ecma value.1 value.2 1 (Nat.le_add_left _ _)
    [] 0
    out' n' (Nat.zero_le (bounds .totalNodes))
  rw [V1.Jcs.encodable_iff, jcsEncode]
  simp only [Option.bind_eq_bind, Option.bind_eq_some_iff, Prod.exists, written, guard_eq_some,
    exists_const, Option.some.injEq, List.nil_append, Nat.zero_add]
  constructor
  · rintro ⟨_, _, ⟨fits, under, size, rfl, rfl⟩, -, rfl⟩
    exact ⟨⟨fits, size⟩, under, rfl⟩
  · rintro ⟨⟨fits, size⟩, under, rfl⟩
    exact ⟨_, _, ⟨fits, under, size, rfl, rfl⟩, size, rfl⟩

/-- Both encoders write the same bytes of a value, and refuse the same values. -/
theorem jcsEncode_eq_encode (ecma : Ecma formatFinite) (bounds : Bounds) (value : Value) :
    jcsEncode formatFinite bounds value = V1.Jcs.encode value.1 bounds :=
  Option.ext fun _ => (jcsEncode_eq_some ecma).trans V1.Jcs.encode_eq_some.symm

/-- A float and members out of order. -/
theorem jcsEncode_eq_encode_members :
    ∃ value : Value, jcsEncode Ecmascript.numberToString .maximum value =
        V1.Jcs.encode value.1 Bounds.maximum ∧
      V1.Jcs.encode value.1 Bounds.maximum = some (ascii "\x7b\"a\":[null],\"b\":1.5\x7d") := by
  let half : F64 := (F64.ofDecimal false 15 (-1)).get (by decide +kernel)
  refine ⟨⟨.object [(ascii "b", .float half), (ascii "a", .array [.null])], ?_⟩,
    jcsEncode_eq_encode (fun _ => rfl) .maximum _, ?_⟩
  · exact ⟨by decide, trivial, by decide, ⟨trivial, trivial⟩, trivial⟩
  · decide +kernel

end Jcs

end BoundedAuthority.Rust
