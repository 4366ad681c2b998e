import BoundedAuthority.V1.JcsSpec
import BoundedAuthority.V1.JsonSpec

/-!
# Canonical JSON is read back

The decoder reads the canonical text of a value as its normal form: the members of
every object are in order, and a float that is a natural number has become that
integer.  A normal form is within the ceilings of both sides whenever the value is
within those of the encoder, and its canonical text is the one of the value, so
the canonical bytes and the normal forms determine each other.
-/

namespace BoundedAuthority.V1.Jcs

open Wire JsonValue

/-! ## Normal forms -/

/-- The integer a float is equal to, if there is one. -/
def integral? (x : F64) : Option Int :=
  if unit ∣ x.units then
    some (if x.negative then -(x.units / unit : Nat) else (x.units / unit : Nat))
  else none

mutual

/-- The value with every object in order and every float that is an integer
replaced by it. -/
def normal : JsonValue → JsonValue
  | .float x =>
      match integral? x with
      | some n => .integer n
      | none => .float x
  | .array values => .array (normalItems values)
  | .object members => .object (sortMembers (normalMembers members))
  | .null => .null
  | .boolean b => .boolean b
  | .integer n => .integer n
  | .string s => .string s

def normalItems : List JsonValue → List JsonValue
  | [] => []
  | value :: rest => normal value :: normalItems rest

def normalMembers : List (Bytes × JsonValue) → List (Bytes × JsonValue)
  | [] => []
  | (key, value) :: rest => (key, normal value) :: normalMembers rest

end

theorem normal_array (values : List JsonValue) :
    normal (.array values) = .array (values.map normal) := by
  suffices normalItems values = values.map normal by rw [normal, this]
  induction values with
  | nil => rfl
  | cons value rest ih => rw [normalItems, ih, List.map_cons]

theorem normal_object (members : List (Bytes × JsonValue)) :
    normal (.object members) = .object ((sortMembers members).map (Prod.map id normal)) := by
  suffices normalMembers members = members.map (Prod.map id normal) by
    rw [normal, this, sortMembers_map]
  induction members with
  | nil => rfl
  | cons member rest ih => rw [normalMembers, ih, List.map_cons, Prod.map, id]

theorem integral_eq_some {x : F64} {n : Int} (h : integral? x = some n) :
    x.units = n.natAbs * unit ∧ (n < 0 ↔ x.negative = true ∧ x.units ≠ 0) := by
  unfold integral? at h
  split at h
  next whole =>
    obtain ⟨k, hk⟩ := whole
    have quotient : x.units / unit = k := by rw [hk, Nat.mul_div_cancel_left _ F64.unit_pos]
    have zero : x.units ≠ 0 ↔ k ≠ 0 := by
      rw [hk, Nat.mul_ne_zero_iff]
      exact and_iff_right (Nat.ne_of_gt F64.unit_pos)
    rw [quotient] at h
    obtain rfl := Option.some.inj h
    rw [zero, hk, Nat.mul_comm]
    cases x.negative with
    | true =>
        rw [if_pos rfl, Int.natAbs_neg, Int.natAbs_natCast]
        exact ⟨rfl, by simp only [true_and]; omega⟩
    | false =>
        rw [if_neg (by decide), Int.natAbs_natCast]
        exact ⟨rfl, by simp only [Bool.false_eq_true, false_and, iff_false]; omega⟩
  next => cases h

theorem integral_eq_none {x : F64} (h : integral? x = none) (k : Nat) : x.units ≠ k * unit := by
  unfold integral? at h
  split at h
  next => cases h
  next part => exact fun same => part ⟨k, by rw [same, Nat.mul_comm]⟩

/-! ## Ordered members -/

theorem sortMembers_sortMembers {α : Type} (members : List (Bytes × α)) :
    sortMembers (sortMembers members) = sortMembers members :=
  List.Pairwise.insertionSort_eq (sortMembers_sorted members)

/-! ## Numbers -/

/-- A lexeme without a fraction and an exponent, and not `-0`, is the one of its
integer. -/
theorem eq_integerLexeme {l : Lexeme} {n : Int} (plain : l.isFloat = false)
    (magnitude : l.coefficient = n.natAbs) (sign : n < 0 ↔ l.negative = true) :
    l = integerLexeme n := by
  obtain ⟨negative, integer, fraction, exponent, noLeadingZero⟩ := l
  simp only [Lexeme.isFloat, Bool.or_eq_false_iff, Option.isSome_eq_false_iff,
    Option.isNone_iff_eq_none] at plain
  obtain ⟨rfl, rfl⟩ := plain
  have digits : integer = digitsOf n.natAbs := by
    have := Decimal.ofNat_value integer.digits integer.nonempty noLeadingZero
    simp only [Lexeme.coefficient, Lexeme.fractionDigits, List.append_nil] at magnitude
    rw [magnitude] at this
    exact Digits.ext this.symm
  have negative : negative = decide (n < 0) := by
    rw [Bool.eq_iff_iff, decide_eq_true_eq]
    exact sign.symm
  subst digits negative
  rfl

variable {x : F64}

/-- The lexeme of a float that is an integer is the one of the integer. -/
theorem numberLexeme_integral (small : x.units < 2 ^ 53 * unit) {n : Int}
    (h : integral? x = some n) : numberLexeme x = integerLexeme n := by
  obtain ⟨-, zero, nonzero⟩ := ecmascriptNumber_eq small
  obtain ⟨magnitude, sign⟩ := integral_eq_some h
  by_cases units : x.units = 0
  · have : n.natAbs = 0 := by
      rw [units] at magnitude
      have := Nat.mul_eq_zero.mp magnitude.symm
      have := F64.unit_pos
      omega
    obtain rfl : n = 0 := Int.natAbs_eq_zero.mp this
    exact zero units
  · have lexeme := nonzero units
    have plain : (numberLexeme x).isFloat = false := by
      by_contra float
      exact lexeme.float (by simpa using float) _ magnitude
    refine eq_integerLexeme plain ?_ ?_
    · refine Nat.eq_of_mul_eq_mul_right F64.unit_pos ?_
      rw [← lexeme.integer plain, magnitude]
    · rw [sign, lexeme.negative]
      simp [units]

/-- The lexeme of a float that is no integer has a fraction or an exponent. -/
theorem numberLexeme_fractional (small : x.units < 2 ^ 53 * unit) (h : integral? x = none) :
    FloatLexeme x (numberLexeme x) ∧ (numberLexeme x).isFloat = true := by
  obtain ⟨-, -, nonzero⟩ := ecmascriptNumber_eq small
  have part := integral_eq_none h
  have lexeme := nonzero fun zero => part 0 (by rw [zero, Nat.zero_mul])
  refine ⟨lexeme, ?_⟩
  by_contra plain
  exact part _ (lexeme.integer (by simpa using plain))

theorem value_numberLexeme (small : x.units < 2 ^ 53 * unit) :
    (numberLexeme x).value? = some (normal (.float x)) := by
  rw [normal]
  cases h : integral? x with
  | some n => rw [numberLexeme_integral small h, value_integerLexeme]
  | none =>
      obtain ⟨lexeme, float⟩ := numberLexeme_fractional small h
      exact lexeme.value_float float

/-- A number lexeme of the canonical text is within the bounds of the decoder. -/
theorem lexemeWithin_integer {n : Int} (low : -9007199254740991 ≤ n) (high : n ≤ 9007199254740991) :
    Json.LexemeWithin .maximum (integerLexeme n) where
  size := by
    have digits := Decimal.length_ofNat_le (n := n.natAbs) (k := 16) (by omega) (by decide)
    rw [render_integerLexeme, show Bounds.maximum .numberLexemeBytes = 64 by rfl]
    unfold Decimal.ofInt
    split
    · rw [List.length_cons]
      omega
    · omega
  magnitude := by
    have plain : (integerLexeme n).isFloat = false := rfl
    rw [plain, Lexeme.AtMost, Decimal.AtMost, coefficient_integerLexeme, scale_integerLexeme]
    simp [BoundKey.maximum]
    omega

theorem lexemeWithin_fractional (small : x.units < 2 ^ 53 * unit) (h : integral? x = none) :
    Json.LexemeWithin .maximum (numberLexeme x) := by
  obtain ⟨lexeme, float⟩ := numberLexeme_fractional small h
  refine ⟨lexeme.short, ?_⟩
  have below : x.units < 2 ^ 52 * unit := by
    by_contra large
    obtain ⟨k, hk⟩ := F64.unit_dvd_of_large (Nat.not_lt.mp large)
    exact integral_eq_none h k (by rw [hk, Nat.mul_comm])
  have shortest := F64.shortest_below below
  rw [if_pos float, Lexeme.AtMost, Decimal.AtMost]
  refine Nat.le_of_mul_le_mul_right (c := 10 ^ (-x.shortest.2).toNat) ?_ (by positivity)
  calc _ = x.shortest.1 * 10 ^ x.shortest.2.toNat * 10 ^ (-(numberLexeme x).scale).toNat :=
    lexeme.same
    _ ≤ 2 ^ 52 * 10 ^ (-x.shortest.2).toNat * 10 ^ (-(numberLexeme x).scale).toNat :=
        Nat.mul_le_mul_right _ shortest.le
    _ ≤ 9007199254740991 * 10 ^ (-x.shortest.2).toNat * 10 ^ (-(numberLexeme x).scale).toNat := by
        gcongr
        decide
    _ = _ := by rw [Nat.mul_right_comm]; rfl

/-! ## Reading the canonical text -/

/-- What the encoder asks for under the maximal bounds. -/
abbrev Writable (v : JsonValue) : Prop := Within (ceilings .maximum) v

theorem small_of_writable (h : Writable (.float x)) : x.units < 2 ^ 53 * unit := by
  have within : x.magnitudeAtMost (Bounds.maximum .floatMagnitude) = true := h
  exact floatMagnitude_small within

theorem natAbs_integral (h : Writable (.float x)) {n : Int} (hx : integral? x = some n) :
    n.natAbs ≤ 9007199254740991 := by
  have bound : x.units ≤ (ceilings .maximum).floatMagnitude * unit := of_decide_eq_true h
  rw [(integral_eq_some hx).1] at bound
  exact Nat.le_of_mul_le_mul_right bound F64.unit_pos

theorem Writable.item {values : List JsonValue} {v : JsonValue} (h : Writable (.array values))
    (hv : v ∈ values) : Writable v :=
  withinItems_iff.mp h.2 v hv

theorem Writable.member {members : List (Bytes × JsonValue)} {m : Bytes × JsonValue}
    (h : Writable (.object members)) (hm : m ∈ members) :
    (ceilings .maximum).Name m.1 ∧ Writable m.2 :=
  withinMembers_iff.mp h.2.2 m hm

theorem quoted_text (v : JsonValue) : (text v).Quoted := by
  induction v using JsonValue.induction with
  | array values ih =>
      rw [text_array, Text.quoted_ofItems, List.forall_mem_map]
      exact ih
  | object members ih =>
      rw [text_object, Text.quoted_ofMembers, List.forall_mem_map]
      exact fun m hm => ih m ((sortMembers_perm members).mem_iff.mp hm)
  | _ => trivial

theorem lexemes_text {v : JsonValue} (h : Writable v) :
    Json.LexemesWithin .maximum (text v).lexemes := by
  induction v using JsonValue.induction with
  | integer n =>
      intro l hl
      obtain rfl := List.mem_singleton.mp hl
      exact lexemeWithin_integer h.1 h.2
  | float x =>
      intro l hl
      obtain rfl := List.mem_singleton.mp hl
      have small := small_of_writable h
      cases hx : integral? x with
      | none => exact lexemeWithin_fractional small hx
      | some n =>
          rw [numberLexeme_integral small hx]
          have := natAbs_integral h hx
          exact lexemeWithin_integer (by omega) (by omega)
  | array values ih =>
      intro l hl
      rw [text_array, Text.mem_lexemes_ofItems] at hl
      obtain ⟨t, ht, hl⟩ := hl
      obtain ⟨v, hv, rfl⟩ := List.mem_map.mp ht
      exact ih v hv (h.item hv) l hl
  | object members ih =>
      intro l hl
      rw [text_object, Text.mem_lexemes_ofMembers] at hl
      obtain ⟨t, ht, hl⟩ := hl
      obtain ⟨m, hm, rfl⟩ := List.mem_map.mp ht
      have hm := (sortMembers_perm members).mem_iff.mp hm
      exact ih m hm (h.member hm).2 l hl
  | _ => exact fun l hl => absurd hl (by simp [text, Text.lexemes])

theorem mapM_some_of_forall {α β : Type} {f : α → Option β} {g : α → β} :
    ∀ {as : List α}, (∀ a ∈ as, f a = some (g a)) → as.mapM f = some (as.map g)
  | [], _ => rfl
  | a :: as, h => by
      rw [List.mapM_cons, h a List.mem_cons_self,
        mapM_some_of_forall fun b hb => h b (List.mem_cons_of_mem _ hb)]
      rfl

/-- The canonical text denotes the normal form. -/
theorem value_text {v : JsonValue} (h : Writable v) : (text v).value? = some (normal v) := by
  induction v using JsonValue.induction with
  | null => rfl
  | boolean b => rfl
  | integer n => exact value_integerLexeme n
  | float x => exact value_numberLexeme (small_of_writable h)
  | string s => rw [text, Text.value?, Pieces.value_ofString h.2, normal]
  | array values ih =>
      have items : (values.map text).mapM Text.value? = some (values.map normal) := by
        rw [List.mapM_map]
        exact mapM_some_of_forall fun v hv => ih v hv (h.item hv)
      rw [text_array, Text.value_ofItems, items, normal_array]
      rfl
  | object members ih =>
      have items : ((sortMembers members).map memberText).mapM memberValue? =
          some ((sortMembers members).map (Prod.map id normal)) := by
        rw [List.mapM_map]
        refine mapM_some_of_forall fun m hm => ?_
        have hm := (sortMembers_perm members).mem_iff.mp hm
        obtain ⟨name, value⟩ := h.member hm
        simp only [Function.comp, memberValue?, memberText, ih m hm value,
          Pieces.value_ofString name.2]
        rfl
      rw [text_object, Text.value_ofMembers, items, normal_object]
      rfl

/-! ## Normal forms within the ceilings -/

theorem nodes_normal (v : JsonValue) : (normal v).nodes = v.nodes := by
  induction v using JsonValue.induction with
  | float x => rw [normal]; split <;> rfl
  | array values ih =>
      rw [normal_array, JsonValue.nodes, JsonValue.nodes, nodesItems_eq, nodesItems_eq,
        List.map_map]
      exact congrArg (·.sum + 1) (List.map_congr_left ih)
  | object members ih =>
      rw [normal_object, JsonValue.nodes, JsonValue.nodes, nodesMembers_eq, nodesMembers_eq,
        List.map_map, ((sortMembers_perm members).map _).sum_eq]
      exact congrArg (·.sum + 1) (List.map_congr_left ih)
  | _ => rfl

theorem depth_normal (v : JsonValue) : (normal v).depth = v.depth := by
  induction v using JsonValue.induction with
  | float x => rw [normal]; split <;> rfl
  | array values ih =>
      rw [normal_array]
      refine congrArg (· + 1) (eq_of_forall_ge_iff fun n => ?_)
      rw [depthItems_le, depthItems_le, List.forall_mem_map]
      exact forall₂_congr fun v hv => by rw [ih v hv]
  | object members ih =>
      rw [normal_object]
      refine congrArg (· + 1) (eq_of_forall_ge_iff fun n => ?_)
      simp only [depthMembers_le, List.forall_mem_map, (sortMembers_perm members).mem_iff, Prod.map]
      exact forall₂_congr fun m hm => by rw [ih m hm]
  | _ => rfl

/-- The normal form is under the ceilings of the decoder, which are those of the
encoder with names counted as strings too. -/
theorem within_normal {v : JsonValue} (h : Writable v) :
    Within (Json.ceilings .maximum) (normal v) := by
  induction v using JsonValue.induction with
  | null => trivial
  | boolean b => trivial
  | integer n => exact h
  | float x =>
      rw [normal]
      split
      next n hx =>
        have := natAbs_integral h hx
        exact ⟨show -(9007199254740991 : Int) ≤ n by omega,
          show n ≤ (9007199254740991 : Int) by omega⟩
      next => exact h
  | string s => exact h
  | array values ih =>
      rw [normal_array]
      refine ⟨by rw [List.length_map]; exact h.1, withinItems_iff.mpr ?_⟩
      rw [List.forall_mem_map]
      exact fun v hv => ih v hv (h.item hv)
  | object members ih =>
      have perm := sortMembers_perm members
      rw [normal_object]
      refine ⟨?_, ?_, withinMembers_iff.mpr ?_⟩
      · rw [List.length_map, perm.length_eq]
        exact h.1
      · rw [List.map_map]
        exact (perm.map Prod.fst).nodup_iff.mpr h.2.1
      · rw [List.forall_mem_map]
        intro m hm
        have hm := perm.mem_iff.mp hm
        obtain ⟨name, value⟩ := h.member hm
        exact ⟨⟨name.1, name.2⟩, ih m hm value⟩

/-- The ceilings of the decoder are within those of the encoder. -/
theorem writable_of_within {v : JsonValue} (h : Within (Json.ceilings .maximum) v) : Writable v :=
  h.mono ⟨Nat.le_refl _, Nat.le_refl _, Nat.le_refl _, Nat.min_le_left _ _, Nat.le_refl _,
    Nat.le_refl _⟩

/-- A value and its normal form have one canonical text. -/
theorem text_normal {v : JsonValue} (h : Writable v) : text (normal v) = text v := by
  induction v using JsonValue.induction with
  | null => rfl
  | boolean b => rfl
  | integer n => rfl
  | float x =>
      rw [normal]
      split
      next n hx => rw [text, text, numberLexeme_integral (small_of_writable h) hx]
      next => rfl
  | string s => rfl
  | array values ih =>
      rw [normal_array, text_array, text_array, List.map_map]
      exact congrArg _ (List.map_congr_left fun v hv => ih v hv (h.item hv))
  | object members ih =>
      rw [normal_object, text_object, text_object, sortMembers_map, sortMembers_sortMembers,
        List.map_map]
      refine congrArg _ (List.map_congr_left fun m hm => ?_)
      have hm := (sortMembers_perm members).mem_iff.mp hm
      exact congrArg (Prod.mk _) (ih m hm (h.member hm).2)

/-! ## The round trip -/

variable {v w : JsonValue} {c d : Bytes}

/-- Values have one canonical text exactly when they have one normal form. -/
theorem canon_eq_iff (hv : Writable v) (hw : Writable w) :
    canon v = canon w ↔ normal v = normal w := by
  constructor
  · intro same
    have left := Text.document_render (quoted_text v)
    rw [show (text v).render = (text w).render from same] at left
    have texts : text v = text w := left.unique (Text.document_render (quoted_text w))
    have value := value_text hv
    rw [texts, value_text hw, Option.some.injEq] at value
    exact value.symm
  · intro same
    rw [canon, canon, ← text_normal hv, ← text_normal hw, same]

/-- The normal form of a value is read from its canonical bytes. -/
theorem decode_canon (encodable : Encodable .maximum 32 v) (nodes : v.nodes ≤ 4096) :
    Json.decode (canon v) Bounds.maximum = some (normal v) := by
  refine Json.decode_eq_some.mpr ⟨encodable.size, text v, Text.document_render (quoted_text v), ?_⟩
  refine ⟨lexemes_text encodable.within, value_text encodable.within,
    within_normal encodable.within, ?_, ?_⟩
  · rw [nodes_normal]
    exact nodes
  · rw [depth_normal, Nat.zero_add]
    exact encodable.depth

/-- The normal form is written as the value is. -/
theorem encode_normal (encodable : Encodable .maximum 32 v) (nodes : v.nodes ≤ 4096) :
    encode (normal v) Bounds.maximum = some (canon v) := by
  have same : canon (normal v) = canon v := congrArg Text.render (text_normal encodable.within)
  refine encode_eq_some.mpr ⟨⟨writable_of_within (within_normal encodable.within), ?_, ?_⟩, ?_,
    same.symm⟩
  · rw [depth_normal]
    exact encodable.depth
  · rw [same]
    exact encodable.size
  · rw [nodes_normal]
    exact nodes

/-- Without overrides the bounds are the maximal ones. -/
theorem encode_nil : encode v [] = encode v Bounds.maximum := by
  rw [encode, encode, Bounds.coerce_nil, Bounds.coerce_toLimits]

theorem decode_nil : Json.decode c [] = Json.decode c Bounds.maximum := by
  rw [Json.decode, Json.decode, Bounds.coerce_nil, Bounds.coerce_toLimits]

/-- The canonical bytes are decoded to the normal form, which is encoded to them
again, and they are the same exactly for the same normal form. -/
theorem canonical_round_trip :
    (∀ v c, encode v [] = some c →
      Json.decode c [] = some (normal v) ∧ encode (normal v) [] = some c) ∧
    ∀ v w c d, encode v [] = some c → encode w [] = some d → (c = d ↔ normal v = normal w) := by
  simp only [encode_nil, decode_nil]
  refine ⟨fun v c hv => ?_, fun v w c d hv hw => ?_⟩
  · obtain ⟨encodable, nodes, rfl⟩ := encode_eq_some.mp hv
    exact ⟨decode_canon encodable nodes, encode_normal encodable nodes⟩
  · obtain ⟨encodableV, nodesV, rfl⟩ := encode_eq_some.mp hv
    obtain ⟨encodableW, nodesW, rfl⟩ := encode_eq_some.mp hw
    constructor
    · intro same
      have read := decode_canon encodableV nodesV
      rw [same, decode_canon encodableW nodesW] at read
      exact (Option.some.inj read).symm
    · intro same
      have written := encode_normal encodableV nodesV
      rw [same, encode_normal encodableW nodesW] at written
      exact (Option.some.inj written).symm

/-- Members out of order and a negative zero. -/
theorem canonical_round_trip_members :
    let zero := (F64.ofDecimal true 0 0).elim .null JsonValue.float
    let v := object [(ascii "b", integer 1), (ascii "a", array [zero, string (ascii "\n")])]
    let w := object [(ascii "a", array [integer 0, string (ascii "\n")]), (ascii "b", integer 1)]
    let c := ascii "\x7b\"a\":[0,\"\\n\"],\"b\":1\x7d"
    (Json.decode c [] = some (normal v) ∧ encode (normal v) [] = some c) ∧
      (c = c ↔ normal v = normal w) := by
  intro zero v w c
  have hv : encode v [] = some c := by decide +kernel
  have hw : encode w [] = some c := by decide +kernel
  exact ⟨canonical_round_trip.1 v c hv, canonical_round_trip.2 v w c c hv hw⟩

end BoundedAuthority.V1.Jcs
