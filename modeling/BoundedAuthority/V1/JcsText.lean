import BoundedAuthority.V1.JcsNumber
import BoundedAuthority.Wire.JsonCompact

/-!
# The canonical text

What the encoder writes is a JSON text: `text` builds its tree, with the members
of every object ordered by the UTF-16 code units of their names, and `canon` is
its bytes.
-/

namespace BoundedAuthority.V1.Jcs

open Wire JsonValue

/-! ## Strings -/

theorem encodeChar_ascii {c : Char} (h : c.toNat < 0x80) :
    String.utf8EncodeChar c = [UInt8.ofNat c.toNat] := by
  have h : c.val.toNat ≤ 0x7F := Nat.le_of_lt_succ h
  rw [String.utf8EncodeChar, if_pos h]
  rfl

/-- The first octet of a scalar value that is not escaped. -/
theorem lead_unescaped {c : Char} (h : isUnescaped c = true) : ∃ lead tail,
    String.utf8EncodeChar c = lead :: tail ∧ 0x20 ≤ lead ∧ lead ≠ 0x22 ∧ lead ≠ 0x5C := by
  obtain ⟨lead, tail, hc, -, -, length, value⟩ := Utf8.encodeChar_shape c
  simp only [isUnescaped, Bool.and_eq_true, decide_eq_true_eq] at h
  refine ⟨lead, tail, hc, ?_⟩
  by_cases ascii : lead < 0x80
  · obtain rfl : tail = [] := by
      have : tail.length = 0 := by simpa [Utf8.sequenceLength, ascii] using length.symm
      exact List.length_eq_zero_iff.mp this
    have value : lead.toNat = c.toNat := value
    refine ⟨?_, ?_, ?_⟩
    · rw [UInt8.le_iff_toNat_le, value]
      exact h.1.1
    · rintro rfl
      exact h.1.2 value.symm
    · rintro rfl
      exact h.2 value.symm
  · have high : 0x80 ≤ lead.toNat := by
      rw [UInt8.lt_iff_toNat_lt] at ascii
      simpa using ascii
    refine ⟨?_, ?_, ?_⟩
    · rw [UInt8.le_iff_toNat_le]
      exact Nat.le_trans (by decide) high
    · rintro rfl
      exact absurd high (by decide)
    · rintro rfl
      exact absurd high (by decide)

/-- The two-character and `\u` escapes of the encoder. -/
def escapeOf (byte : UInt8) : Option Bytes :=
  if byte = 0x22 then some [0x5C, 0x22]
  else if byte = 0x5C then some [0x5C, 0x5C]
  else if byte = 0x08 then some [0x5C, 0x62]
  else if byte = 0x09 then some [0x5C, 0x74]
  else if byte = 0x0A then some [0x5C, 0x6E]
  else if byte = 0x0C then some [0x5C, 0x66]
  else if byte = 0x0D then some [0x5C, 0x72]
  else if byte < 0x20 then some (controlEscape byte)
  else none

theorem escapeCodepoints_escape {byte : UInt8} {e : Bytes} (h : escapeOf byte = some e) (n : Nat)
    (rest : Bytes) :
      escapeCodepoints (n + 1) (byte :: rest) = (escapeCodepoints n rest).map (e ++ ·) := by
  rw [escapeOf] at h
  rw [escapeCodepoints]
  repeat' split at h
  all_goals simp_all only [Option.some.injEq, if_true, if_false, reduceCtorEq]

set_option maxRecDepth 4096 in
/-- One scalar value is written as its shortest form. -/
theorem escapeCodepoints_char (c : Char) (n : Nat) (rest : Bytes) :
    escapeCodepoints (n + 1) (String.utf8EncodeChar c ++ rest) =
      (escapeCodepoints n rest).map ((Piece.ofChar c).render ++ ·) := by
  by_cases plain : isUnescaped c = true
  · obtain ⟨lead, tail, hc, low, quote, backslash⟩ := lead_unescaped plain
    have decoded := Utf8.decodeFirst_encodeChar c rest
    have control : ¬ lead < 0x20 := UInt8.not_lt.mpr low
    have render := Piece.render_ofChar plain
    have other : ∀ b : UInt8, b < 0x20 → lead ≠ b := by
      rintro b hb rfl
      exact control hb
    rw [hc, List.cons_append] at decoded
    rw [render, hc, List.cons_append, escapeCodepoints, if_neg quote, if_neg backslash,
      if_neg (other 0x08 (by decide)), if_neg (other 0x09 (by decide)),
      if_neg (other 0x0A (by decide)), if_neg (other 0x0C (by decide)),
      if_neg (other 0x0D (by decide)), if_neg control, decoded]
    simp only [hc]
  · have escaped : escapeOf (UInt8.ofNat c.toNat) = some (Piece.ofChar c).render :=
      escaped_forall (P := fun c => escapeOf (UInt8.ofNat c.toNat) = some (Piece.ofChar c).render)
        (by decide) plain
    have small := isUnescaped_eq_false plain
    rw [encodeChar_ascii (by omega)]
    exact escapeCodepoints_escape escaped n rest

theorem escapeCodepoints_encode : ∀ (cs : List Char) (n : Nat), cs.length ≤ n →
    escapeCodepoints n (Utf8.encode cs) = some (cs.flatMap fun c => (Piece.ofChar c).render)
  | [], n, _ => by cases n <;> rfl
  | c :: cs, 0, h => by simp at h
  | c :: cs, n + 1, h => by
      rw [Utf8.encode_cons, escapeCodepoints_char,
        escapeCodepoints_encode cs n (by simpa using h)]
      rfl

theorem length_le_encode (cs : List Char) : cs.length ≤ (Utf8.encode cs).length := by
  induction cs with
  | nil => simp
  | cons c cs ih =>
      have := List.length_pos_of_ne_nil (Utf8.encodeChar_ne_nil c)
      rw [Utf8.encode_cons, List.length_append, List.length_cons]
      omega

theorem render_pieces (ps : List Piece) :
    Pieces.render ps = ps.flatMap Piece.render ++ [0x22] := by
  induction ps with
  | nil => rfl
  | cons p ps ih => simp [Pieces.render, ih]

/-- A well-formed string is written as its shortest form. -/
theorem escapeString_of_valid {s : Bytes} (h : Utf8.valid s = true) :
    escapeString s = some (0x22 :: Pieces.render (Pieces.ofString s)) := by
  obtain ⟨cs, rfl⟩ := Utf8.valid_iff.mp h
  rw [escapeString, escapeCodepoints_encode cs _ (length_le_encode cs), render_pieces]
  simp [Pieces.ofString, List.flatMap_map]

/-! ## The text of a value -/

/-- The lexeme of a float. -/
def numberLexeme (x : F64) : Lexeme :=
  match (ecmascriptNumber x).bind Lexeme.parse with
  | some (l, _) => l
  | none => integerLexeme 0

/-- The members ordered by the UTF-16 code units of their names. -/
def sortMembers {α : Type} (members : List (Bytes × α)) : List (Bytes × α) :=
  members.insertionSort fun a b => Utf16.le (Utf16.units a.1) (Utf16.units b.1) = true

mutual

/-- The tree of the canonical text. -/
def text : JsonValue → Text
  | .null => .null
  | .boolean b => .boolean b
  | .integer n => .number (integerLexeme n)
  | .float x => .number (numberLexeme x)
  | .string s => .string (Pieces.ofString s)
  | .array values => Text.ofItems (itemTexts values)
  | .object members =>
      Text.ofMembers ((sortMembers (memberTexts members)).map fun m => (Pieces.ofString m.1, m.2))

def itemTexts : List JsonValue → List Text
  | [] => []
  | value :: rest => text value :: itemTexts rest

def memberTexts : List (Bytes × JsonValue) → List (Bytes × Text)
  | [] => []
  | (key, value) :: rest => (key, text value) :: memberTexts rest

end

/-- The canonical bytes of a value. -/
def canon (v : JsonValue) : Bytes := (text v).render

theorem itemTexts_eq (values : List JsonValue) : itemTexts values = values.map text := by
  induction values with
  | nil => rfl
  | cons value rest ih => rw [itemTexts, ih, List.map_cons]

theorem memberTexts_eq (members : List (Bytes × JsonValue)) :
    memberTexts members = members.map (Prod.map id text) := by
  induction members with
  | nil => rfl
  | cons member rest ih => rw [memberTexts, ih, List.map_cons, Prod.map, id]

theorem sortMembers_map {α β : Type} (f : α → β) (members : List (Bytes × α)) :
    sortMembers (members.map (Prod.map id f)) = (sortMembers members).map (Prod.map id f) :=
  (List.map_insertionSort (fun a b : Bytes × α => Utf16.le (Utf16.units a.1) (Utf16.units b.1) =
    true)
    (fun a b : Bytes × β => Utf16.le (Utf16.units a.1) (Utf16.units b.1) = true) (Prod.map id f)
    members fun _ _ _ _ => Iff.rfl).symm

theorem sortMembers_perm {α : Type} (members : List (Bytes × α)) :
    (sortMembers members).Perm members :=
  List.perm_insertionSort _ _

theorem sortMembers_sorted {α : Type} (members : List (Bytes × α)) : (sortMembers members).Pairwise
    fun a b => Utf16.le (Utf16.units a.1) (Utf16.units b.1) = true := by
  have total :
      Std.Total fun a b : Bytes × α => Utf16.le (Utf16.units a.1) (Utf16.units b.1) = true :=
    ⟨fun a b => by
      rw [← Utf16.leBytes_key, ← Utf16.leBytes_key]
      exact leBytes_total _ _⟩
  have trans : IsTrans (Bytes × α) fun a b => Utf16.le (Utf16.units a.1) (Utf16.units b.1) = true :=
    ⟨fun a b c => by
      rw [← Utf16.leBytes_key, ← Utf16.leBytes_key, ← Utf16.leBytes_key]
      exact leBytes_trans⟩
  exact List.pairwise_insertionSort _ _

/-- The members in order are the only list of them in order, when their names are
well-formed and distinct. -/
theorem eq_sortMembers {α : Type} {members sorted : List (Bytes × α)} (perm : sorted.Perm members)
    (order : sorted.Pairwise fun a b => Utf16.le (Utf16.units a.1) (Utf16.units b.1) = true)
    (valid : ∀ m ∈ members, Utf8.valid m.1 = true) (distinct : (members.map Prod.fst).Nodup) :
    sorted = sortMembers members := by
  refine List.Perm.eq_of_pairwise (fun a b ha hb low high => ?_) order (sortMembers_sorted members)
    (perm.trans (sortMembers_perm members).symm)
  have memberA := perm.mem_iff.mp ha
  have memberB := (sortMembers_perm members).mem_iff.mp hb
  have same : a.1 = b.1 :=
    Utf16.units_injective (valid a memberA) (valid b memberB) (Utf16.le_antisymm low high)
  exact List.inj_on_of_nodup_map distinct memberA memberB same

/-- The name and the text of a member. -/
def memberText (m : Bytes × JsonValue) : List Piece × Text := (Pieces.ofString m.1, text m.2)

theorem text_array (values : List JsonValue) :
    text (.array values) = Text.ofItems (values.map text) := by
  rw [text, itemTexts_eq]

theorem text_object (members : List (Bytes × JsonValue)) :
    text (.object members) = Text.ofMembers ((sortMembers members).map memberText) := by
  rw [text, memberTexts_eq, sortMembers_map, List.map_map]
  rfl

/-- The canonical bytes of a member. -/
def canonMember (m : Bytes × JsonValue) : Bytes :=
  0x22 :: (Pieces.render (Pieces.ofString m.1) ++ 0x3A :: canon m.2)

theorem canon_array (values : List JsonValue) :
    canon (.array values) = 0x5B :: (List.intercalate [0x2C] (values.map canon) ++ [0x5D]) := by
  rw [canon, text_array, Text.render_ofItems, List.map_map]
  rfl

theorem canon_object (members : List (Bytes × JsonValue)) : canon (.object members) =
    0x7B :: (List.intercalate [0x2C] ((sortMembers members).map canonMember) ++ [0x7D]) := by
  rw [canon, text_object, Text.render_ofMembers, List.map_map]
  rfl

theorem length_le_intercalate {part : Bytes} {parts : List Bytes} (h : part ∈ parts) :
    part.length ≤ (List.intercalate [0x2C] parts).length := by
  induction parts with
  | nil => cases h
  | cons first rest ih =>
      cases rest with
      | nil =>
          obtain rfl := List.mem_singleton.mp h
          simp
      | cons second rest =>
          rw [List.intercalate_cons_cons, List.length_append, List.length_append]
          rcases List.mem_cons.mp h with rfl | h
          · omega
          · have := ih h
            omega

/-- A float under the ceiling is written as its lexeme. -/
theorem ecmascriptNumber_eq {x : F64} (small : x.units < 2 ^ 53 * unit) :
    ecmascriptNumber x = some (numberLexeme x).render ∧
      (x.units = 0 → numberLexeme x = integerLexeme 0) ∧
      (x.units ≠ 0 → FloatLexeme x (numberLexeme x)) := by
  by_cases zero : x.units = 0
  · have written : ecmascriptNumber x = some (integerLexeme 0).render := by
      rw [ecmascriptNumber, if_pos zero, render_integerLexeme]
      rfl
    have read : numberLexeme x = integerLexeme 0 := by
      have parsed : Lexeme.parse ((integerLexeme 0).render ++ []) = some (integerLexeme 0, []) :=
        Lexeme.parse_render (integerLexeme 0) (by simp [StopsNumber])
      rw [List.append_nil] at parsed
      rw [numberLexeme, written, Option.bind_some, parsed]
    exact ⟨by rw [read, written], fun _ => read, fun nonzero => absurd zero nonzero⟩
  · obtain ⟨l, written, lexeme⟩ := exists_lexeme small (Nat.pos_of_ne_zero zero)
    have read : numberLexeme x = l := by
      have parsed : Lexeme.parse (l.render ++ []) = some (l, []) :=
        Lexeme.parse_render l (by simp [StopsNumber])
      rw [List.append_nil] at parsed
      rw [numberLexeme, written, Option.bind_some, parsed]
    rw [read]
    exact ⟨written, fun h => absurd h zero, fun _ => lexeme⟩

end BoundedAuthority.V1.Jcs
