import BoundedAuthority.Go.Jcs
import BoundedAuthority.V1.JcsFits
import BoundedAuthority.V1.JcsLayout

/-!
# The two canonical encoders, Go and the reference

Both write the canonical text of the values within their bounds.  The Go encoder
checks the size of the text once it is complete, counts depth from one and node by
node on the way down, and reads its digits off another notation of the platform
(`jcsEncode_eq`).
-/

namespace BoundedAuthority.Go

open Wire V1 JsonValue Jcs

/-! ## Runes -/

theorem decodeRune_encode (c : Char) (rest : Bytes) : decodeRune (String.utf8EncodeChar c ++ rest) =
    (c, (String.utf8EncodeChar c).length) := by
  rw [decodeRune, Utf8.decodeFirst_encodeChar]
  simp

/-- A rune of one byte is no error rune. -/
theorem not_runeError (c : Char) : ¬ (c = runeError ∧ (String.utf8EncodeChar c).length = 1) := by
  rintro ⟨rfl, single⟩
  revert single
  decide

theorem runesFrom_encode : ∀ (cs : List Char) (n : Nat), cs.length ≤ n →
    runesFrom n (Utf8.encode cs) = cs
  | [], n, _ => by cases n <;> rfl
  | c :: cs, 0, h => by simp at h
  | c :: cs, n + 1, h => by
      have rest := runesFrom_encode cs n (by simpa using h)
      have decoded := decodeRune_encode c (Utf8.encode cs)
      rw [Utf8.encode_cons]
      cases hc : String.utf8EncodeChar c with
      | nil => exact absurd hc (Utf8.encodeChar_ne_nil c)
      | cons lead tail =>
          rw [hc, List.cons_append] at decoded
          rw [List.cons_append, runesFrom, decoded]
          dsimp only
          rw [← List.cons_append, List.drop_left, rest]

theorem runes_encode (cs : List Char) : runes (Utf8.encode cs) = cs :=
  runesFrom_encode cs _ (length_le_encode cs)

/-- The code units of a string are found through its runes. -/
theorem units_runes {s : Bytes} (valid : Utf8.valid s = true) :
    (runes s).flatMap Utf16.ofChar = Utf16.units s := by
  obtain ⟨cs, rfl⟩ := Utf8.valid_iff.mp valid
  rw [runes_encode, Utf16.units, Utf8.decode_encode, Option.getD_some]

/-! ## Strings -/

set_option maxRecDepth 4096 in
/-- The switch writes the shortest form of a rune. -/
theorem escapeRune_eq (c : Char) :
    escapeRune c (String.utf8EncodeChar c) = (Piece.ofChar c).render := by
  by_cases plain : isUnescaped c = true
  · have small : ¬ c.toNat < 0x20 ∧ c.toNat ≠ 0x22 ∧ c.toNat ≠ 0x5C := by
      simp only [isUnescaped, Bool.and_eq_true, decide_eq_true_eq] at plain
      omega
    have quote : c ≠ '"' := fun same => small.2.1 (by rw [same]; rfl)
    have backslash : c ≠ '\\' := fun same => small.2.2 (by rw [same]; rfl)
    rw [Piece.render_ofChar plain, escapeRune, if_neg quote, if_neg backslash, if_neg (by omega),
      if_neg (by omega), if_neg (by omega), if_neg (by omega), if_neg (by omega), if_neg small.1]
  · exact escaped_forall
      (P := fun c => escapeRune c (String.utf8EncodeChar c) = (Piece.ofChar c).render)
      (by decide) plain

theorem escapeFrom_encode : ∀ (cs : List Char) (n : Nat) (out : Bytes), cs.length ≤ n →
    escapeFrom n (Utf8.encode cs) out = some (out ++ cs.flatMap fun c => (Piece.ofChar c).render)
  | [], n, out, _ => by cases n <;> simp [escapeFrom]
  | c :: cs, 0, out, h => by simp at h
  | c :: cs, n + 1, out, h => by
      have rest := fun out => escapeFrom_encode cs n out (by simpa using h)
      have decoded := decodeRune_encode c (Utf8.encode cs)
      have written := escapeRune_eq c
      have sound := not_runeError c
      rw [Utf8.encode_cons]
      cases hc : String.utf8EncodeChar c with
      | nil => exact absurd hc (Utf8.encodeChar_ne_nil c)
      | cons lead tail =>
          rw [hc, List.cons_append] at decoded
          rw [hc] at sound written
          rw [List.cons_append, escapeFrom, decoded]
          dsimp only
          rw [if_neg sound, ← List.cons_append, List.drop_left, List.take_left, rest, written,
            List.flatMap_cons, List.append_assoc]

/-- A string within its ceiling is written in its shortest form. -/
theorem encodeJcsString_eq_some {s out : Bytes} {ceiling : Nat} :
    encodeJcsString s ceiling = some out ↔ (s.length ≤ ceiling ∧ Utf8.valid s = true) ∧
      out = 0x22 :: Pieces.render (Pieces.ofString s) := by
  simp only [encodeJcsString, Option.bind_eq_bind, guard_bind_eq_some, and_assoc]
  refine and_congr_right fun _ => and_congr_right fun valid => ?_
  obtain ⟨cs, rfl⟩ := Utf8.valid_iff.mp valid
  rw [escapeFrom_encode cs _ _ (length_le_encode cs), Option.bind_some, Option.some.injEq,
    render_pieces, Pieces.ofString, Utf8.decode_encode, Option.getD_some, List.flatMap_map]
  exact eq_comm

/-! ## The order of names -/

theorem unitsLess_eq : ∀ us vs : List Nat, unitsLess us vs = !Utf16.le vs us
  | [], [] => rfl
  | [], _ :: _ => rfl
  | _ :: _, [] => rfl
  | u :: us, v :: vs => by
      rw [unitsLess, Utf16.le, unitsLess_eq us vs]
      rcases lt_trichotomy u v with lt | rfl | gt
      · simp [lt, Nat.ne_of_lt lt, Nat.lt_asymm lt]
      · simp
      · simp [gt, Nat.ne_of_gt gt, Nat.lt_asymm gt]

/-- Two names in the order of the sort are in the order of their code units. -/
theorem utf16Less_eq {a b : Bytes} (valid : Utf8.valid a = true) (valid' : Utf8.valid b = true) :
    utf16Less b a = false ↔ Utf16.le (Utf16.units a) (Utf16.units b) = true := by
  rw [utf16Less, unitsLess_eq, units_runes valid, units_runes valid', Bool.not_eq_false']

theorem sortByName_perm {α : Type} (members : List (Bytes × α)) :
    (sortByName members).Perm members :=
  List.perm_insertionSort _ _

theorem sortByName_map {α β : Type} (f : α → β) (members : List (Bytes × α)) :
    sortByName (members.map (Prod.map id f)) = (sortByName members).map (Prod.map id f) :=
  (List.map_insertionSort (fun x y : Bytes × α => ¬ utf16Less y.1 x.1 = true)
    (fun x y : Bytes × β => ¬ utf16Less y.1 x.1 = true) (Prod.map id f) members
    fun _ _ _ _ => Iff.rfl).symm

/-- Members with well-formed names are sorted alike on both sides. -/
theorem sortByName_eq {α : Type} {members : List (Bytes × α)}
    (valid : ∀ m ∈ members, Utf8.valid m.1 = true) : sortByName members = sortMembers members := by
  rw [sortByName, sortMembers]
  have agree : ∀ x ∈ members, ∀ y ∈ members, (¬ utf16Less y.1 x.1 = true) ↔
      Utf16.le (Utf16.units x.1) (Utf16.units y.1) = true := fun x hx y hy => by
    rw [Bool.not_eq_true, utf16Less_eq (valid x hx) (valid y hy)]
  have same := List.map_insertionSort (fun x y : Bytes × α => ¬ utf16Less y.1 x.1 = true)
    (fun x y : Bytes × α => Utf16.le (Utf16.units x.1) (Utf16.units y.1) = true) id members agree
  rwa [List.map_id, List.map_id] at same

/-- The loop over the names finds out whether they are distinct. -/
theorem distinctKeys_iff {seen names : List Bytes} :
    distinctKeys seen names = true ↔ names.Nodup ∧ ∀ name ∈ names, name ∉ seen := by
  induction names generalizing seen with
  | nil => simp [distinctKeys]
  | cons name rest ih =>
      rw [distinctKeys, List.nodup_cons, List.forall_mem_cons]
      by_cases old : name ∈ seen
      · simp [old]
      · rw [if_neg old, ih]
        simp only [List.mem_cons, not_or]
        constructor
        · rintro ⟨nodup, apart⟩
          exact ⟨⟨fun again => (apart name again).1 rfl, nodup⟩, old, fun n hn => (apart n hn).2⟩
        · rintro ⟨⟨fresh, nodup⟩, _, apart⟩
          refine ⟨nodup, fun n hn => ⟨?_, apart n hn⟩⟩
          rintro rfl
          exact fresh hn

/-! ## Numbers -/

theorem stringsRepeat_eq (b : UInt8) (n : Int) : stringsRepeat b n = List.replicate n.toNat b := by
  rw [stringsRepeat]
  split
  next negative => rw [Int.toNat_of_nonpos negative, List.replicate_zero]
  next => rfl

theorem exponentString_eq (e : Int) : exponentString e = Ecmascript.exponentText e := by
  rw [exponentString, Ecmascript.exponentText, Decimal.ofInt, Decimal.ofInt]
  by_cases negative : e < 0
  · rw [if_pos negative, if_pos negative, if_neg (by omega), Int.natAbs_neg]
    rfl
  · rw [if_neg negative, if_neg negative, if_neg negative]
    rfl

/-- The switch writes the layout. -/
theorem floatBody_eq (digits : Bytes) (n : Int) :
    floatBody digits n = Ecmascript.layout digits n := by
  rw [floatBody, Ecmascript.layout, show ascii "." = [0x2E] by rfl, show ascii "e" = [0x65] by rfl,
    show ascii "0." = [0x30, 0x2E] by rfl]
  simp only [stringsRepeat_eq, exponentString_eq, List.append_assoc, List.cons_append,
    List.nil_append]

/-- A signed run of digits is read as the number it spells. -/
theorem atoi_signed {e : Int} (small : e.natAbs < 2 ^ 63) {digits : Bytes} (nonempty : digits ≠ [])
    (all : ∀ b ∈ digits, isDigit b = true) (value : Decimal.value digits = e.natAbs) :
    atoi ((if e < 0 then 0x2D else 0x2B) :: digits) = some e := by
  rw [atoi]
  by_cases negative : e < 0
  · have magnitude : -(e.natAbs : Int) = e := by omega
    simp only [if_pos negative, List.head?_cons, if_pos, true_or, List.drop_succ_cons,
      List.drop_zero, value, magnitude, Option.bind_eq_bind]
    rw [guard_bind_eq_some, guard_bind_eq_some]
    exact ⟨⟨nonempty, List.all_eq_true.mpr all⟩, ⟨by omega, by omega⟩, rfl⟩
  · have magnitude : (e.natAbs : Int) = e := by omega
    have plus : ¬ (some (0x2B : UInt8) = some 0x2D) := by decide
    simp only [if_neg negative, List.head?_cons, if_neg plus, or_true, if_true, List.drop_succ_cons,
      List.drop_zero, value, magnitude, Option.bind_eq_bind]
    rw [guard_bind_eq_some, guard_bind_eq_some]
    exact ⟨⟨nonempty, List.all_eq_true.mpr all⟩, ⟨by omega, by omega⟩, rfl⟩

theorem atoi_formatExponent {e : Int} (small : e.natAbs < 2 ^ 63) :
    atoi (formatExponent e) = some e := by
  have all := Decimal.ofNat_digits e.natAbs
  rw [formatExponent]
  by_cases short : (Decimal.ofNat e.natAbs).length < 2
  · simp only [if_pos short]
    refine atoi_signed small (List.cons_ne_nil _ _) ?_ ?_
    · intro b hb
      rcases List.mem_cons.mp hb with rfl | hb
      · rfl
      · exact all b hb
    · rw [Decimal.value_cons, Decimal.value_ofNat]
      simp [Decimal.digitValue]
  · simp only [if_neg short]
    exact atoi_signed small (Decimal.ofNat_ne_nil _) all (Decimal.value_ofNat _)

/-- The point behind the first digit is taken out again. -/
theorem stripPoint_formatMantissa {digits : Bytes} (nonempty : digits ≠ []) :
    stripPoint (formatMantissa digits) = digits := by
  obtain ⟨d, rest, rfl⟩ := List.exists_cons_of_ne_nil nonempty
  cases rest with
  | nil => rfl
  | cons e rest => simp [formatMantissa, stripPoint]

/-- The mantissa ends at the first `e`. -/
theorem findIdx_formatMantissa {digits : Bytes} (h : ∀ b ∈ digits, isDigit b = true)
    (rest : Bytes) :
    (formatMantissa digits ++ 0x65 :: rest).findIdx? (fun b => decide (b = 0x65)) =
      some (formatMantissa digits).length := by
  have digit : ∀ b ∈ digits, b ≠ 0x65 := by
    rintro b hb rfl
    exact absurd (h _ hb) (by decide)
  have apart : ∀ b ∈ formatMantissa digits, decide (b = 0x65) = false := by
    intro b hb
    rw [decide_eq_false_iff_not]
    rcases List.mem_append.mp hb with hb | hb
    · exact digit b (List.mem_of_mem_take hb)
    · split at hb
      · rcases List.mem_cons.mp hb with rfl | hb
        · decide
        · exact digit b (List.mem_of_mem_drop hb)
      · cases hb
  have found : ((0x65 : UInt8) :: rest).findIdx? (fun b => decide (b = 0x65)) = some 0 := by
    rw [List.findIdx?_cons]
    rfl
  rw [List.findIdx?_append, List.findIdx?_eq_none_iff.mpr apart, found, Option.none_or,
    Option.map_some, Nat.zero_add]

/-- The exponent of a double is small. -/
theorem point_small (x : F64) : (Ecmascript.point x - 1).natAbs < 2 ^ 63 := by
  have digitsLe := Decimal.length_ofNat_le (F64.shortest_lt x) (by decide)
  have range := F64.coarsest_shortest x
  have low := range.low
  have high := range.high
  rw [precision_eq] at low
  rw [Ecmascript.point]
  omega

/-- The digits and the exponent are found in the text again, and laid out. -/
theorem layoutFloat_text {digits : Bytes} (nonempty : digits ≠ [])
    (all : ∀ b ∈ digits, isDigit b = true) {n : Int} (small : (n - 1).natAbs < 2 ^ 63) :
    layoutFloat (formatMantissa digits ++ 0x65 :: formatExponent (n - 1)) =
      some (Ecmascript.layout digits n) := by
  rw [layoutFloat, findIdx_formatMantissa all, Option.bind_eq_bind, Option.bind_some,
    List.drop_length_add_append, List.drop_succ_cons, List.drop_zero, atoi_formatExponent small,
    Option.bind_eq_bind, Option.bind_some, List.take_left, stripPoint_formatMantissa nonempty,
    sub_add_cancel, floatBody_eq]

/-- A finite float within the bound is written as ECMAScript writes it. -/
theorem floatToECMAScript_finite (x : F64) (bound : Nat) : floatToECMAScript (.finite x) bound =
    if x.magnitudeAtMost bound = true then some (Ecmascript.numberToString x) else none := by
  rw [floatToECMAScript, Ecmascript.numberToString]
  by_cases zero : x.units = 0
  · have within : x.magnitudeAtMost bound = true := by simp [F64.magnitudeAtMost, zero]
    rw [if_pos zero, if_pos zero, if_pos within, show ascii "0" = [0x30] by rfl]
  have pos := F64.shortest_pos (Nat.pos_of_ne_zero zero)
  have body := layoutFloat_text (Ecmascript.significant_ne_nil pos)
    (Ecmascript.significant_digits x.shortest.1) (point_small x)
  rw [if_neg zero, if_neg zero, formatFloat, body]
  by_cases within : x.magnitudeAtMost bound = true
  · rw [if_pos within, show ascii "-" = [0x2D] by rfl]
    refine guard_bind_eq_some.mpr ⟨within, ?_⟩
    by_cases negative : x.negative = true
    · rw [if_pos negative, Option.bind_eq_bind, Option.bind_some, if_pos negative,
        List.singleton_append]
    · rw [if_neg negative, Option.bind_eq_bind, Option.bind_some, if_neg negative, List.nil_append]
  · rw [if_neg within]
    simp only [within, Option.bind_eq_bind, guard_false, Bool.false_eq_true]
    rfl

/-! ## Values -/

variable {b : Bounds}

theorem itemEncoders_eq (items : List JsonValue) : itemEncoders b items = items.map (encode b) := by
  induction items with
  | nil => rfl
  | cons item rest ih => rw [itemEncoders, ih, List.map_cons]

theorem memberEncoders_eq (members : List (Bytes × JsonValue)) :
    memberEncoders b members = members.map (Prod.map id (encode b)) := by
  induction members with
  | nil => rfl
  | cons member rest ih => rw [memberEncoders, ih, List.map_cons, Prod.map, id]

theorem countNode_eq_some {n n' : Nat} :
    countNode b n = some n' ↔ n + 1 ≤ b .totalNodes ∧ n' = n + 1 := by
  rw [countNode, Option.bind_eq_bind, guard_bind_eq_some, Option.some.injEq]
  exact and_congr_right fun _ => eq_comm

/-- A leaf is written when its text is. -/
theorem encodeLeaf_writes {v : JsonValue} {written : Option Bytes} {depth : Nat}
    (leaf : v.depth = 0) (single : v.nodes = 1) (low : depth ≤ b .depth + 1)
    (text : ∀ out, written = some out ↔ Within (ceilings b) v ∧ out = canon v) :
    ∀ n out n', n ≤ b .totalNodes → (encodeLeaf b written depth n = some (out, n') ↔
      Fits b depth v ∧ n + v.nodes ≤ b .totalNodes ∧ out = canon v ∧ n' = n + v.nodes) := by
  intro n out n' _
  simp only [encodeLeaf, Option.bind_eq_bind, Option.bind_eq_some_iff, countNode_eq_some, text,
    Option.some.injEq, Prod.mk.injEq, single]
  constructor
  · rintro ⟨_, ⟨under, rfl⟩, _, ⟨within, rfl⟩, rfl, rfl⟩
    exact ⟨⟨within, by omega⟩, under, rfl, rfl⟩
  · rintro ⟨fits, under, rfl, rfl⟩
    exact ⟨_, ⟨under, rfl⟩, _, ⟨fits.within, rfl⟩, rfl, rfl⟩

/-- What an encoder of a value does at a depth. -/
abbrev EncoderWrites (b : Bounds) (depth : Nat) (v : JsonValue) : Prop :=
  Writes (fun v n => encode b v depth n) (b .totalNodes) (Fits b depth) canon nodes v

theorem appendItem_appends {depth : Nat} {v : JsonValue} (writes : EncoderWrites b depth v) :
    Writer.Appends (fun v => appendItem depth (encode b v)) (b .totalNodes) (fun _ => True)
      (Fits b depth) canon nodes v := by
  intro out n out' n' room
  simp only [appendItem, Option.bind_eq_bind, Option.bind_eq_some_iff, Prod.exists,
    writes _ _ _ room, Option.some.injEq, Prod.mk.injEq, true_and]
  constructor
  · rintro ⟨_, _, ⟨fits, under, rfl, rfl⟩, rfl, rfl⟩
    exact ⟨fits, under, rfl, rfl⟩
  · rintro ⟨fits, under, rfl, rfl⟩
    exact ⟨_, _, ⟨fits, under, rfl, rfl⟩, rfl, rfl⟩

theorem appendMember_appends {depth : Nat} {m : Bytes × JsonValue}
    (writes : EncoderWrites b depth m.2) :
    Writer.Appends (fun m => appendMember b depth (Prod.map id (encode b) m)) (b .totalNodes)
      (fun _ => True) (FitsMember b depth) canonMember (fun m => nodes m.2) m := by
  intro out n out' n' room
  simp only [appendMember, Prod.map, id, Option.bind_eq_bind, Option.bind_eq_some_iff, Prod.exists,
    encodeJcsString_eq_some, writes _ _ _ room, Option.some.injEq, Prod.mk.injEq, true_and,
    canonMember]
  constructor
  · rintro ⟨_, ⟨name, rfl⟩, _, _, ⟨fits, under, rfl, rfl⟩, rfl, rfl⟩
    exact ⟨⟨name, fits⟩, under, by simp, rfl⟩
  · rintro ⟨⟨name, fits⟩, under, rfl, rfl⟩
    exact ⟨_, ⟨name, rfl⟩, _, _, ⟨fits, under, rfl, rfl⟩, by simp, rfl⟩

/-- The loop over the items writes them all. -/
theorem itemLoop_eq_some {depth : Nat} {values : List JsonValue}
    (writes : ∀ v ∈ values, EncoderWrites b depth v) {out out' : Bytes} {n n' : Nat}
    (room : n ≤ b .totalNodes) :
    Writer.separated 0x2C (appendItem depth) true (values.map (encode b)) out n = some (out', n') ↔
      (∀ v ∈ values, Fits b depth v) ∧ n + nodesItems values ≤ b .totalNodes ∧
        out' = out ++ List.intercalate [0x2C] (values.map canon) ∧ n' = n + nodesItems values := by
  rw [Writer.separated_map, nodesItems_eq, ← Writer.joined_eq]
  refine (Writer.separated_eq_some (fun _ _ _ _ => trivial)
    (fun v hv => appendItem_appends (writes v hv)) out' n' room).trans ?_
  simp only [or_true, true_and]

/-- The loop over the members writes them all. -/
theorem memberLoop_eq_some {depth : Nat} {members : List (Bytes × JsonValue)}
    (writes : ∀ m ∈ members, EncoderWrites b depth m.2) {out out' : Bytes} {n n' : Nat}
    (room : n ≤ b .totalNodes) :
    Writer.separated 0x2C (appendMember b depth) true (members.map (Prod.map id (encode b))) out n =
        some (out', n') ↔
      (∀ m ∈ members, FitsMember b depth m) ∧ n + nodesMembers members ≤ b .totalNodes ∧
        out' = out ++ List.intercalate [0x2C] (members.map canonMember) ∧
        n' = n + nodesMembers members := by
  rw [Writer.separated_map, nodesMembers_eq, ← Writer.joined_eq]
  refine (Writer.separated_eq_some (fun _ _ _ _ => trivial)
    (fun m hm => appendMember_appends (writes m hm)) out' n' room).trans ?_
  simp only [or_true, true_and]

/-- What the encoder writes, by recursion on the value. -/
theorem encode_writes (v : JsonValue) :
    ∀ depth, depth ≤ b .depth + 1 → EncoderWrites b depth v := by
  induction v using JsonValue.induction with
  | null =>
      intro depth low
      refine encodeLeaf_writes rfl rfl low fun out => ?_
      rw [Option.some.injEq, eq_comm]
      exact (and_iff_right trivial).symm
  | boolean value =>
      intro depth low
      refine encodeLeaf_writes rfl rfl low fun out => ?_
      rw [Option.some.injEq, eq_comm, show (if value then ascii "true" else ascii "false") =
        canon (.boolean value) by cases value <;> rfl]
      exact (and_iff_right trivial).symm
  | integer k =>
      intro depth low
      refine encodeLeaf_writes rfl rfl low fun out => ?_
      have bytes : Decimal.ofInt k = canon (.integer k) := (render_integerLexeme k).symm
      rw [Option.bind_eq_bind, guard_bind_eq_some, Option.some.injEq, bytes, eq_comm]
      refine and_congr_left fun _ => ?_
      show ¬ (k > (b .integerMagnitude : Int) ∨ k < -(b .integerMagnitude : Int)) ↔
        -(b .integerMagnitude : Int) ≤ k ∧ k ≤ b .integerMagnitude
      omega
  | float x =>
      intro depth low
      refine encodeLeaf_writes rfl rfl low fun out => ?_
      rw [floatToECMAScript_finite]
      show _ ↔ x.magnitudeAtMost (b .floatMagnitude) = true ∧ out = (numberLexeme x).render
      by_cases within : x.magnitudeAtMost (b .floatMagnitude) = true
      · have same := (ecmascriptNumber_eq (floatMagnitude_small within)).1
        rw [ecmascriptNumber_eq_numberToString, Option.some.injEq] at same
        rw [if_pos within, same, Option.some.injEq, eq_comm]
        exact (and_iff_right within).symm
      · rw [if_neg within]
        constructor
        · intro none
          cases none
        · intro both
          exact absurd both.1 within
  | string s =>
      intro depth low
      exact encodeLeaf_writes rfl rfl low fun out => encodeJcsString_eq_some
  | array values ih =>
      intro depth _ n out n' _
      simp only [encode, encodeArr, itemEncoders_eq, List.length_map, Option.bind_eq_bind,
        Option.bind_eq_some_iff, guard_eq_some, exists_const, countNode_eq_some, Prod.exists,
        Option.some.injEq, Prod.mk.injEq, fits_array, JsonValue.nodes, canon_array]
      constructor
      · rintro ⟨_, ⟨under, rfl⟩, low, count, _, _, found, rfl, rfl⟩
        have below := fun v hv => ih v hv (depth + 1) (Nat.succ_le_succ low)
        obtain ⟨fits, under', rfl, rfl⟩ := (itemLoop_eq_some below under).mp found
        exact ⟨⟨low, count, fits⟩, by omega, by simp [ascii], by omega⟩
      · rintro ⟨⟨low, count, fits⟩, under, rfl, rfl⟩
        have below := fun v hv => ih v hv (depth + 1) (Nat.succ_le_succ low)
        exact ⟨_, ⟨by omega, rfl⟩, low, count, _, _,
          (itemLoop_eq_some below (by omega)).mpr
          ⟨fits, by omega, rfl, rfl⟩, by simp [ascii], by omega⟩
  | object members ih =>
      intro depth _ n out n' _
      have perm := sortMembers_perm members
      have total : nodesMembers (sortMembers members) = nodesMembers members := by
        rw [nodesMembers_eq, nodesMembers_eq]
        exact (perm.map _).sum_nat
      have below := fun (low : depth ≤ b .depth) (sorted : List (Bytes × JsonValue))
        (same : sorted.Perm members) m (hm : m ∈ sorted) =>
          ih m (same.mem_iff.mp hm) (depth + 1) (Nat.succ_le_succ low)
      have names : (members.map (Prod.map id (encode b))).map Prod.fst = members.map Prod.fst := by
        rw [List.map_map]
        rfl
      have distinct :
          distinctKeys [] (members.map Prod.fst) = true ↔ (members.map Prod.fst).Nodup := by
        simp [distinctKeys_iff]
      simp only [encode, encodeObj, memberEncoders_eq, List.length_map, names, distinct,
        sortByName_map, Option.bind_eq_bind, Option.bind_eq_some_iff, guard_eq_some, exists_const,
        countNode_eq_some, Prod.exists, Option.some.injEq, Prod.mk.injEq, fits_object,
        JsonValue.nodes, canon_object]
      constructor
      · rintro ⟨_, ⟨under, rfl⟩, low, count, nodup, _, _, found, rfl, rfl⟩
        obtain ⟨fits, under', rfl, rfl⟩ :=
          (memberLoop_eq_some (below low _ (sortByName_perm members)) under).mp found
        -- a name that is not well-formed would have been refused, in whatever order
        have fits := fun m hm => fits m ((sortByName_perm members).mem_iff.mpr hm)
        have order := sortByName_eq fun m hm => (fits m hm).1.2
        rw [order] at under' ⊢
        rw [total] at under' ⊢
        exact ⟨⟨low, count, nodup, fits⟩, by omega, by simp [ascii], by omega⟩
      · rintro ⟨⟨low, count, nodup, fits⟩, under, rfl, rfl⟩
        have order := sortByName_eq fun m hm => (fits m hm).1.2
        rw [order]
        have sorted := fun m hm => fits m (perm.mem_iff.mp hm)
        exact ⟨_, ⟨by omega, rfl⟩, low, count, nodup, _, _,
          (memberLoop_eq_some (below low _ perm) (by omega)).mpr ⟨sorted, by omega, rfl, rfl⟩,
          by simp [ascii], by omega⟩

/-! ## The encoders -/

theorem encode_eq_some {v : JsonValue} {out : Bytes} {n' : Nat} :
    encode b v 1 0 = some (out, n') ↔
      Fits b 1 v ∧ v.nodes ≤ b .totalNodes ∧ out = canon v ∧ n' = v.nodes := by
  rw [encode_writes v 1 (Nat.le_add_left _ _) 0 out n' (Nat.zero_le _), Nat.zero_add]

/-- The encoder writes the canonical text of the values within its bounds. -/
theorem jcsEncode_eq_some {bounds : BoundsPointer} (resolved : resolveBounds bounds = some b)
    {v : JsonValue} {out : Bytes} : jcsEncode v bounds = some out ↔
      Encodable b (b .depth) v ∧ v.nodes ≤ b .totalNodes ∧ out = canon v := by
  rw [jcsEncode, resolved, encodable_iff]
  simp only [Option.bind_eq_bind, Option.bind_some, Option.bind_eq_some_iff, Prod.exists,
    encode_eq_some, guard_eq_some, exists_const, Option.some.injEq]
  constructor
  · rintro ⟨_, _, ⟨fits, under, rfl, rfl⟩, size, rfl⟩
    exact ⟨⟨fits, size⟩, under, rfl⟩
  · rintro ⟨⟨fits, size⟩, under, rfl⟩
    exact ⟨_, _, ⟨fits, under, rfl, rfl⟩, size, rfl⟩

/-- Both encoders write the same bytes of a value, and refuse the same values, whatever
the bounds; the size of an integer makes no difference. -/
theorem jcsEncode_eq_reference (v : JsonValue) (bounds : BoundsPointer) :
    jcsEncode v bounds = Jcs.encode v (toLimits bounds) := by
  rw [Jcs.encode_eq_coerce, ← resolveBounds_eq]
  cases resolved : resolveBounds bounds with
  | none => rw [jcsEncode, resolved]; rfl
  | some b => exact Option.ext fun _ => (jcsEncode_eq_some resolved).trans Jcs.encode_eq_some.symm

end BoundedAuthority.Go
