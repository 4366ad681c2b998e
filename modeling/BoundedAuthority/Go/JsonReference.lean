import BoundedAuthority.Go.JsonSpec
import BoundedAuthority.V1.JsonSpec
import BoundedAuthority.Wire.Binary64Value

/-!
# The Go decoder and the reference

Both decoders accept the texts of one grammar.  They count alike, and they differ in two
places (`decode_iff_jsonDecode`).  A member name passes through the string callback of the
reference, so the reference holds it to the ceiling of strings as well.  And the reader of
fractions in Go refuses enormous exponents, where the reference rounds to zero.
-/

namespace BoundedAuthority.Go

open Wire V1 JsonValue

mutual

/-- No member name in the value has more bytes. -/
def NamesWithin (max : Nat) : JsonValue → Prop
  | .array values => NamesWithinItems max values
  | .object members => NamesWithinMembers max members
  | _ => True

def NamesWithinItems (max : Nat) : List JsonValue → Prop
  | [] => True
  | value :: rest => NamesWithin max value ∧ NamesWithinItems max rest

def NamesWithinMembers (max : Nat) : List (Bytes × JsonValue) → Prop
  | [] => True
  | (key, value) :: rest => key.length ≤ max ∧ NamesWithin max value ∧ NamesWithinMembers max rest

end

variable {b : Bounds}

/-! ## From the reference -/

mutual

/-- What the reference checks of a value, the Go decoder checks, and the names. -/
theorem sized_of_within : ∀ {v : JsonValue}, Within (Json.ceilings b) v →
    Sized b v ∧ NamesWithin (b .stringBytes) v
  | .null, _ => ⟨trivial, trivial⟩
  | .boolean _, _ => ⟨trivial, trivial⟩
  | .integer _, _ => ⟨trivial, trivial⟩
  | .float _, _ => ⟨trivial, trivial⟩
  | .string _, within => ⟨within.1, trivial⟩
  | .array values, within => by
      obtain ⟨sized, names⟩ := sized_of_withinItems within.2
      exact ⟨⟨within.1, sized⟩, names⟩
  | .object members, within => by
      obtain ⟨sized, names⟩ := sized_of_withinMembers within.2.2
      exact ⟨⟨within.1, within.2.1, sized⟩, names⟩

theorem sized_of_withinItems : ∀ {vs : List JsonValue}, WithinItems (Json.ceilings b) vs →
    SizedItems b vs ∧ NamesWithinItems (b .stringBytes) vs
  | [], _ => ⟨trivial, trivial⟩
  | value :: rest, within => by
      obtain ⟨sized, names⟩ := sized_of_within within.1
      obtain ⟨sizedRest, namesRest⟩ := sized_of_withinItems within.2
      exact ⟨⟨sized, sizedRest⟩, names, namesRest⟩

theorem sized_of_withinMembers : ∀ {ms : List (Bytes × JsonValue)},
    WithinMembers (Json.ceilings b) ms → SizedMembers b ms ∧ NamesWithinMembers (b .stringBytes) ms
  | [], _ => ⟨trivial, trivial⟩
  | (key, value) :: rest, within => by
      obtain ⟨sized, names⟩ := sized_of_within within.2.1
      obtain ⟨sizedRest, namesRest⟩ := sized_of_withinMembers within.2.2
      have short : key.length ≤ min (b .keyBytes) (b .stringBytes) := within.1.1
      obtain ⟨asKey, asString⟩ := Nat.le_min.mp short
      exact ⟨⟨asKey, sized, sizedRest⟩, asString, names, namesRest⟩

end

/-! ## To the reference -/

/-- A number whose lexeme is within the bounds is within them after it is rounded. -/
theorem within_of_lexeme {x : Lexeme} {v : JsonValue} (denotes : x.value? = some v)
    (lexeme : Json.LexemeWithin b x) : Within (Json.ceilings b) v := by
  have magnitude := lexeme.magnitude
  rw [Lexeme.value?] at denotes
  by_cases float : x.isFloat = true
  · rw [if_pos float] at denotes magnitude
    obtain ⟨value, rounded, rfl⟩ := Option.map_eq_some_iff.mp denotes
    have small : b .floatMagnitude < 2 ^ 53 :=
      Nat.lt_of_le_of_lt (b.tightens .floatMagnitude) (by decide)
    exact F64.magnitudeAtMost_of_decimal small magnitude rounded
  · rw [if_neg float] at denotes magnitude
    have coefficient : x.coefficient ≤ b .integerMagnitude := by
      rwa [Lexeme.atMost_integer (Bool.not_eq_true _ ▸ float)] at magnitude
    obtain rfl := Option.some.inj denotes
    show -((b .integerMagnitude : Nat) : Int) ≤ _ ∧ _ ≤ ((b .integerMagnitude : Nat) : Int)
    split <;> omega

mutual

/-- A value of the grammar is within the ceilings of the reference when its lexemes, its
sizes and its names are within the bounds. -/
theorem within_of_text : ∀ {t : Text} {v : JsonValue}, t.value? = some v →
    Json.LexemesWithin b t.lexemes → Sized b v → NamesWithin (b .stringBytes) v →
    Within (Json.ceilings b) v
  | .null, _, denotes, _, _, _ => by
      obtain rfl := Option.some.inj denotes
      trivial
  | .boolean _, _, denotes, _, _, _ => by
      obtain rfl := Option.some.inj denotes
      trivial
  | .number lexeme, _, denotes, lexemes, _, _ =>
      within_of_lexeme denotes (lexemes lexeme (List.mem_singleton_self _))
  | .string pieces, _, denotes, _, sized, _ => by
      obtain rfl := Option.some.inj denotes
      exact ⟨sized, Pieces.valid_value pieces⟩
  | .emptyArray _, _, denotes, _, sized, _ => by
      obtain rfl := Option.some.inj denotes
      exact ⟨sized.1, trivial⟩
  | .array items, _, denotes, lexemes, sized, names => by
      obtain ⟨vs, values, rfl⟩ := Option.map_eq_some_iff.mp denotes
      exact ⟨sized.1, within_of_items values lexemes sized.2 names⟩
  | .emptyObject _, _, denotes, _, sized, _ => by
      obtain rfl := Option.some.inj denotes
      exact ⟨sized.1, sized.2.1, trivial⟩
  | .object members, _, denotes, lexemes, sized, names => by
      obtain ⟨ms, values, rfl⟩ := Option.map_eq_some_iff.mp denotes
      exact ⟨sized.1, sized.2.1, within_of_members values lexemes sized.2.2 names⟩

theorem within_of_items : ∀ {items : Items} {vs : List JsonValue}, items.values? = some vs →
    Json.LexemesWithin b items.lexemes → SizedItems b vs → NamesWithinItems (b .stringBytes) vs →
    WithinItems (Json.ceilings b) vs
  | .last _ value _, _, values, lexemes, sized, names => by
      obtain ⟨v, denotes, rfl⟩ := Option.map_eq_some_iff.mp values
      exact ⟨within_of_text denotes lexemes sized.1 names.1, trivial⟩
  | .more _ value _ rest, _, values, lexemes, sized, names => by
      simp only [Items.values?, Option.bind_eq_bind, Option.bind_eq_some_iff, Option.some.injEq]
        at values
      obtain ⟨v, denotes, vs, values, rfl⟩ := values
      obtain ⟨first, others⟩ := Json.lexemesWithin_append.mp lexemes
      exact ⟨within_of_text denotes first sized.1 names.1,
        within_of_items values others sized.2 names.2⟩

theorem within_of_members : ∀ {members : Members} {ms : List (Bytes × JsonValue)},
    members.values? = some ms → Json.LexemesWithin b members.lexemes → SizedMembers b ms →
    NamesWithinMembers (b .stringBytes) ms → WithinMembers (Json.ceilings b) ms
  | .last _ _ name _ _ value _, _, values, lexemes, sized, names => by
      obtain ⟨v, denotes, rfl⟩ := Option.map_eq_some_iff.mp values
      exact ⟨⟨Nat.le_min.mpr ⟨sized.1, names.1⟩, Pieces.valid_value name⟩,
        within_of_text denotes lexemes sized.2.1 names.2.1, trivial⟩
  | .more _ _ name _ _ value _ rest, _, values, lexemes, sized, names => by
      simp only [Members.values?, Option.bind_eq_bind, Option.bind_eq_some_iff,
        Option.some.injEq] at values
      obtain ⟨v, denotes, ms, values, rfl⟩ := values
      obtain ⟨first, others⟩ := Json.lexemesWithin_append.mp lexemes
      exact ⟨⟨Nat.le_min.mpr ⟨sized.1, names.1⟩, Pieces.valid_value name⟩,
        within_of_text denotes first sized.2.1 names.2.1,
        within_of_members values others sized.2.2 names.2.2⟩

end

mutual

/-- Names within their own ceiling are within a higher one of strings. -/
theorem names_of_sized (longer : b .keyBytes ≤ b .stringBytes) : ∀ {v : JsonValue}, Sized b v →
    NamesWithin (b .stringBytes) v
  | .null, _ => trivial
  | .boolean _, _ => trivial
  | .integer _, _ => trivial
  | .float _, _ => trivial
  | .string _, _ => trivial
  | .array _, sized => names_of_sizedItems longer sized.2
  | .object _, sized => names_of_sizedMembers longer sized.2.2

theorem names_of_sizedItems (longer : b .keyBytes ≤ b .stringBytes) : ∀ {vs : List JsonValue},
    SizedItems b vs → NamesWithinItems (b .stringBytes) vs
  | [], _ => trivial
  | _ :: _, sized => ⟨names_of_sized longer sized.1, names_of_sizedItems longer sized.2⟩

theorem names_of_sizedMembers (longer : b .keyBytes ≤ b .stringBytes) :
    ∀ {ms : List (Bytes × JsonValue)}, SizedMembers b ms → NamesWithinMembers (b .stringBytes) ms
  | [], _ => trivial
  | (_, _) :: _, sized =>
      ⟨Nat.le_trans sized.1 longer, names_of_sized longer sized.2.1,
        names_of_sizedMembers longer sized.2.2⟩

end

/-! ## Both decoders -/

/-- The reference accepts the texts the Go decoder accepts whose names are within the
ceiling of strings. -/
theorem accepts_iff {t : Text} {v : JsonValue} :
    Json.Accepts b t v ↔ Accepts b t v ∧ NamesWithin (b .stringBytes) v := by
  constructor
  · rintro ⟨lexemes, denotes, admits⟩
    obtain ⟨sized, names⟩ := sized_of_within admits.within
    have depth := admits.depth
    exact ⟨⟨denotes, lexemes, sized, admits.nodes, by omega⟩, names⟩
  · rintro ⟨accepts, names⟩
    have depth := accepts.depth
    exact ⟨accepts.lexemes, accepts.denotes,
      within_of_text accepts.denotes accepts.lexemes accepts.sized names, accepts.nodes, by omega⟩

variable {numerals : Numerals}

theorem decode_eq_some_iff (sound : numerals.Sound) {data : Bytes} {v : JsonValue}
    {bounds : BoundsPointer} (resolved : resolveBounds bounds = some b) :
    (Json.decode data b = some v ∧ ∀ t : Text, t.Document data → numerals.TakesAll t) ↔
      jsonDecode numerals data bounds = some v ∧ NamesWithin (b .stringBytes) v := by
  rw [Json.decode_eq_some, jsonDecode_eq_some sound resolved]
  simp only [accepts_iff]
  constructor
  · rintro ⟨⟨size, t, document, accepts, names⟩, takes⟩
    exact ⟨⟨size, t, document, accepts, takes t document⟩, names⟩
  · rintro ⟨⟨size, t, document, accepts, takes⟩, names⟩
    exact ⟨⟨size, t, document, accepts, names⟩, fun _ other => document.unique other ▸ takes⟩

/-! ## Lexemes that are taken -/

/-- No float of the text has an exponent beyond a million. -/
def Ordinary (t : Text) : Prop := ∀ x ∈ t.lexemes, x.isFloat = true → x.scale.natAbs ≤ 1000000

theorem takesAll_of_ordinary (sound : numerals.Sound) {t : Text} (ordinary : Ordinary t)
    (lexemes : Json.LexemesWithin b t.lexemes) : numerals.TakesAll t := fun x member float =>
  sound.ordinary x ((lexemes x member).size.trans (b.tightens .numberLexemeBytes))
    (ordinary x member float)

mutual

/-- No number in the value is a float. -/
def FloatFree : JsonValue → Prop
  | .float _ => False
  | .array values => FloatFreeItems values
  | .object members => FloatFreeMembers members
  | _ => True

def FloatFreeItems : List JsonValue → Prop
  | [] => True
  | value :: rest => FloatFree value ∧ FloatFreeItems rest

def FloatFreeMembers : List (Bytes × JsonValue) → Prop
  | [] => True
  | (_, value) :: rest => FloatFree value ∧ FloatFreeMembers rest

end

theorem integer_of_floatFree {x : Lexeme} {v : JsonValue} (denotes : x.value? = some v)
    (free : FloatFree v) : x.isFloat = false := by
  rw [Lexeme.value?] at denotes
  by_contra float
  rw [if_pos (Bool.not_eq_false _ ▸ float)] at denotes
  obtain ⟨f, -, rfl⟩ := Option.map_eq_some_iff.mp denotes
  exact free

mutual

/-- A value without floats is spelled without float lexemes. -/
theorem integers_of_text : ∀ {t : Text} {v : JsonValue}, t.value? = some v → FloatFree v →
    ∀ x ∈ t.lexemes, x.isFloat = false
  | .null, _, _, _ => List.forall_mem_nil _
  | .boolean _, _, _, _ => List.forall_mem_nil _
  | .number lexeme, _, denotes, free =>
      List.forall_mem_singleton.mpr (integer_of_floatFree denotes free)
  | .string _, _, _, _ => List.forall_mem_nil _
  | .emptyArray _, _, _, _ => List.forall_mem_nil _
  | .array items, _, denotes, free => by
      obtain ⟨vs, values, rfl⟩ := Option.map_eq_some_iff.mp denotes
      exact integers_of_items values free
  | .emptyObject _, _, _, _ => List.forall_mem_nil _
  | .object members, _, denotes, free => by
      obtain ⟨ms, values, rfl⟩ := Option.map_eq_some_iff.mp denotes
      exact integers_of_members values free

theorem integers_of_items : ∀ {items : Items} {vs : List JsonValue}, items.values? = some vs →
    FloatFreeItems vs → ∀ x ∈ items.lexemes, x.isFloat = false
  | .last _ value _, _, values, free => by
      obtain ⟨v, denotes, rfl⟩ := Option.map_eq_some_iff.mp values
      exact integers_of_text denotes free.1
  | .more _ value _ rest, _, values, free => by
      simp only [Items.values?, Option.bind_eq_bind, Option.bind_eq_some_iff,
        Option.some.injEq] at values
      obtain ⟨v, denotes, vs, values, rfl⟩ := values
      exact List.forall_mem_append.mpr
        ⟨integers_of_text denotes free.1, integers_of_items values free.2⟩

theorem integers_of_members : ∀ {members : Members} {ms : List (Bytes × JsonValue)},
    members.values? = some ms → FloatFreeMembers ms → ∀ x ∈ members.lexemes, x.isFloat = false
  | .last _ _ name _ _ value _, _, values, free => by
      obtain ⟨v, denotes, rfl⟩ := Option.map_eq_some_iff.mp values
      exact integers_of_text denotes free.1
  | .more _ _ name _ _ value _ rest, _, values, free => by
      simp only [Members.values?, Option.bind_eq_bind, Option.bind_eq_some_iff,
        Option.some.injEq] at values
      obtain ⟨v, denotes, ms, values, rfl⟩ := values
      exact List.forall_mem_append.mpr
        ⟨integers_of_text denotes free.1, integers_of_members values free.2⟩

end

/-- A value without floats is read by Go where the reference reads it. -/
theorem jsonDecode_of_floatFree (sound : numerals.Sound) {data : Bytes} {v : JsonValue}
    {bounds : BoundsPointer} (resolved : resolveBounds bounds = some b) (free : FloatFree v)
    (decoded : Json.decode data b = some v) : jsonDecode numerals data bounds = some v := by
  refine ((decode_eq_some_iff sound resolved).mp ⟨decoded, fun t document x member float => ?_⟩).1
  obtain ⟨-, t', document', accepts⟩ := Json.decode_eq_some.mp decoded
  obtain rfl := document.unique document'
  have integer := integers_of_text accepts.denotes free x member
  exact absurd (integer.symm.trans float) Bool.false_ne_true

/-! ## One verdict -/

/-- A decoder reads its limits through `coerce`. -/
theorem decode_coerce {data : Bytes} {limits : Limits} {bounds : Bounds}
    (coerced : Bounds.coerce limits = some bounds) :
    Json.decode data limits = Json.decode data bounds := by
  rw [Json.decode, Json.decode, coerced, Bounds.coerce_toLimits]

/-- The Go decoder reads what the reference reads, and the same value of it, but for two
kinds of texts: those with a lexeme its reader of fractions refuses, and the other way
values with a member name that is longer than a string may be.  There are none of the first
kind where every exponent is ordinary, and none of the second unless the ceiling of strings
is lowered below the one of names. -/
theorem decode_iff_jsonDecode (sound : numerals.Sound) (data : Bytes) (bounds : BoundsPointer) :
    (∀ v, (Json.decode data (toLimits bounds) = some v ∧
        ∀ t : Text, t.Document data → numerals.TakesAll t) ↔
      ∃ b, resolveBounds bounds = some b ∧ jsonDecode numerals data bounds = some v ∧
        NamesWithin (b .stringBytes) v) ∧
    ((∀ b, resolveBounds bounds = some b → b .keyBytes ≤ b .stringBytes) →
      (∀ t : Text, t.Document data → Ordinary t) →
      Json.decode data (toLimits bounds) = jsonDecode numerals data bounds) := by
  cases resolved : resolveBounds bounds with
  | none =>
    have refused : Json.decode data (toLimits bounds) = none := by
      rw [Json.decode, ← resolveBounds_eq, resolved]
      rfl
    have refused' : jsonDecode numerals data bounds = none := by
      rw [jsonDecode, resolved]
      rfl
    simp [refused, refused']
  | some b =>
    have coerced : Bounds.coerce (toLimits bounds) = some b :=
      (resolveBounds_eq bounds).symm.trans resolved
    have one : ∀ v, (Json.decode data b = some v ∧
        ∀ t : Text, t.Document data → numerals.TakesAll t) ↔
        jsonDecode numerals data bounds = some v ∧ NamesWithin (b .stringBytes) v :=
      fun v => decode_eq_some_iff sound resolved
    rw [decode_coerce coerced]
    refine ⟨by simpa only [Option.some.injEq, exists_eq_left'] using one, ?_⟩
    intro longer ordinary
    refine Option.ext fun v => ⟨fun found => ?_, fun found => ?_⟩
    · obtain ⟨-, t, document, accepts⟩ := Json.decode_eq_some.mp found
      have takes := takesAll_of_ordinary sound (ordinary t document) accepts.lexemes
      exact ((one v).mp ⟨found, fun _ other => document.unique other ▸ takes⟩).1
    · obtain ⟨-, t, -, accepts, -⟩ := (jsonDecode_eq_some sound resolved).mp found
      exact ((one v).mpr ⟨found, names_of_sized (longer b rfl) accepts.sized⟩).1

/-- The fraction of a lexeme, unless its exponent is enormous. -/
def limitedRational (x : Lexeme) : Option ℚ :=
  if x.coefficient = 0 ∨ x.scale.natAbs ≤ 1000000 then some (rational x) else none

/-- Readers that refuse enormous exponents. -/
def Numerals.limited : Numerals where
  setString bs := (Lexeme.parse bs).bind fun found => limitedRational found.1
  parseFloat := Numerals.ofGrammar.parseFloat

theorem setString_limited (x : Lexeme) : Numerals.limited.setString x.render = limitedRational x :=
  parse_render_bind limitedRational x

theorem Numerals.sound_limited : Numerals.limited.Sound where
  taken x r found := by
    rw [setString_limited, limitedRational] at found
    split at found
    next => exact (Option.some.inj found).symm
    next => cases found
  ordinary x _ small := by
    rw [setString_limited, limitedRational, if_pos (.inr small), Option.isSome_some]
  nearest x _ := Numerals.exact_ofGrammar.parseFloat x

/-- A name and a fraction, under the maxima. -/
theorem decode_iff_jsonDecode_object :
    let data := ascii "\x7b\"a\":1.5\x7d"
    Json.decode data [] = jsonDecode .limited data none := by
  intro data
  have checked : ((parseJson data).all fun found => found.1.lexemes.all fun x =>
      decide (x.isFloat = true → x.scale.natAbs ≤ 1000000)) = true := by decide +kernel
  refine (decode_iff_jsonDecode Numerals.sound_limited data none).2 (fun b found => ?_) ?_
  · obtain rfl := Option.some.inj found
    decide
  · intro t document x member
    obtain ⟨after, read⟩ := Text.document_iff.mp document
    rw [read] at checked
    exact of_decide_eq_true (List.all_eq_true.mp checked x member)

end BoundedAuthority.Go
