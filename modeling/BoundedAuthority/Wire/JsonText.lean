import BoundedAuthority.Wire.JsonString

/-!
# JSON texts

The grammar of RFC 8259 as a type of concrete syntax trees.  A tree keeps every
byte of the text: the insignificant whitespace, the form of each escape and the
digits of each number.  So `render` is a function, a text is read in at most one
way (`Text.render_injective`), and what a decoder does with a text can be said by
recursion on the tree.

The byte that opens a member name is a part of the tree.  The grammar asks for a
quotation mark there, and `Text.Quoted` says that it is one.
-/

namespace Wire

/-- `ws = *( %x20 / %x09 / %x0A / %x0D )` -/
def isBlank (b : UInt8) : Bool := b = 0x20 || b = 0x09 || b = 0x0A || b = 0x0D

/-- Insignificant whitespace. -/
abbrev Blank := { bs : Bytes // ∀ b ∈ bs, isBlank b = true }

/-- No whitespace. -/
def Blank.none : Blank := ⟨[], by simp⟩

/-- The whitespace in front. -/
def takeBlank (bs : Bytes) : Blank := ⟨bs.takeWhile isBlank, all_takeWhile _ _⟩

/-- What follows the whitespace in front. -/
def dropBlank (bs : Bytes) : Bytes := bs.dropWhile isBlank

mutual

/-- `value` -/
inductive Text
  | null
  | boolean (value : Bool)
  | number (lexeme : Lexeme)
  | string (pieces : List Piece)
  | emptyArray (blank : Blank)
  | array (items : Items)
  | emptyObject (blank : Blank)
  | object (members : Members)

/-- The items of an array up to and including the closing bracket. -/
inductive Items
  | last (before : Blank) (value : Text) (after : Blank)
  | more (before : Blank) (value : Text) (after : Blank) (rest : Items)

/-- The members of an object up to and including the closing brace. -/
inductive Members
  | last (before : Blank) (opener : UInt8) (name : List Piece) (gap : Blank) (space : Blank)
      (value : Text) (after : Blank)
  | more (before : Blank) (opener : UInt8) (name : List Piece) (gap : Blank) (space : Blank)
      (value : Text) (after : Blank) (rest : Members)

end

mutual

/-- The bytes of a text. -/
def Text.render : Text → Bytes
  | .null => ascii "null"
  | .boolean true => ascii "true"
  | .boolean false => ascii "false"
  | .number lexeme => lexeme.render
  | .string pieces => 0x22 :: Pieces.render pieces
  | .emptyArray blank => 0x5B :: (blank.val ++ [0x5D])
  | .array items => 0x5B :: items.render
  | .emptyObject blank => 0x7B :: (blank.val ++ [0x7D])
  | .object members => 0x7B :: members.render

def Items.render : Items → Bytes
  | .last before value after => before.val ++ (value.render ++ (after.val ++ [0x5D]))
  | .more before value after rest =>
      before.val ++ (value.render ++ (after.val ++ 0x2C :: rest.render))

def Members.render : Members → Bytes
  | .last before opener name gap space value after =>
      before.val ++ opener :: (Pieces.render name ++ (gap.val ++ 0x3A ::
        (space.val ++ (value.render ++ (after.val ++ [0x7D])))))
  | .more before opener name gap space value after rest =>
      before.val ++ opener :: (Pieces.render name ++ (gap.val ++ 0x3A ::
        (space.val ++ (value.render ++ (after.val ++ 0x2C :: rest.render)))))

end

mutual

/-- Every member name is opened by a quotation mark. -/
def Text.Quoted : Text → Prop
  | .array items => items.Quoted
  | .object members => members.Quoted
  | _ => True

def Items.Quoted : Items → Prop
  | .last _ value _ => value.Quoted
  | .more _ value _ rest => value.Quoted ∧ rest.Quoted

def Members.Quoted : Members → Prop
  | .last _ opener _ _ _ value _ => opener = 0x22 ∧ value.Quoted
  | .more _ opener _ _ _ value _ rest => opener = 0x22 ∧ value.Quoted ∧ rest.Quoted

end

mutual

/-- What a text denotes, unless a number in it overflows. -/
def Text.value? : Text → Option JsonValue
  | .null => some .null
  | .boolean b => some (.boolean b)
  | .number lexeme => lexeme.value?
  | .string pieces => some (.string (Pieces.value pieces))
  | .emptyArray _ => some (.array [])
  | .array items => items.values?.map .array
  | .emptyObject _ => some (.object [])
  | .object members => members.values?.map .object

def Items.values? : Items → Option (List JsonValue)
  | .last _ value _ => value.value?.map fun v => [v]
  | .more _ value _ rest => do
      let v ← value.value?
      let vs ← rest.values?
      some (v :: vs)

def Members.values? : Members → Option (List (Bytes × JsonValue))
  | .last _ _ name _ _ value _ => value.value?.map fun v => [(Pieces.value name, v)]
  | .more _ _ name _ _ value _ rest => do
      let v ← value.value?
      let vs ← rest.values?
      some ((Pieces.value name, v) :: vs)

end

mutual

/-- The number lexemes of a text, in order. -/
def Text.lexemes : Text → List Lexeme
  | .number lexeme => [lexeme]
  | .array items => items.lexemes
  | .object members => members.lexemes
  | _ => []

def Items.lexemes : Items → List Lexeme
  | .last _ value _ => value.lexemes
  | .more _ value _ rest => value.lexemes ++ rest.lexemes

def Members.lexemes : Members → List Lexeme
  | .last _ _ _ _ _ value _ => value.lexemes
  | .more _ _ _ _ _ value _ rest => value.lexemes ++ rest.lexemes

end

/-! ## Reading -/

/-- The bytes of a literal in front. -/
def takeLiteral (literal bs : Bytes) : Option Bytes :=
  if literal.isPrefixOf bs then some (bs.drop literal.length) else none

mutual

/-- One value and what follows it; the fuel bounds the nesting. -/
def parseText : Nat → Bytes → Option (Text × Bytes)
  | 0, _ => none
  | _ + 1, [] => none
  | n + 1, b :: bs =>
      if b = 0x7B then
        match dropBlank bs with
        | 0x7D :: rest => some (.emptyObject (takeBlank bs), rest)
        | _ => (parseMembers n bs).map fun (members, rest) => (.object members, rest)
      else if b = 0x5B then
        match dropBlank bs with
        | 0x5D :: rest => some (.emptyArray (takeBlank bs), rest)
        | _ => (parseItems n bs).map fun (items, rest) => (.array items, rest)
      else if b = 0x22 then
        (parsePieces bs.length bs).map fun (pieces, rest) => (.string pieces, rest)
      else if b = 0x6E then (takeLiteral (ascii "null") (b :: bs)).map (.null, ·)
      else if b = 0x74 then (takeLiteral (ascii "true") (b :: bs)).map (.boolean true, ·)
      else if b = 0x66 then (takeLiteral (ascii "false") (b :: bs)).map (.boolean false, ·)
      else (Lexeme.parse (b :: bs)).map fun (lexeme, rest) => (.number lexeme, rest)

def parseItems : Nat → Bytes → Option (Items × Bytes)
  | 0, _ => none
  | n + 1, bs =>
      match parseText n (dropBlank bs) with
      | none => none
      | some (value, rest) =>
          match dropBlank rest with
          | 0x5D :: after => some (.last (takeBlank bs) value (takeBlank rest), after)
          | 0x2C :: after =>
              (parseItems n after).map fun (items, rest') =>
                (.more (takeBlank bs) value (takeBlank rest) items, rest')
          | _ => none

def parseMembers : Nat → Bytes → Option (Members × Bytes)
  | 0, _ => none
  | n + 1, bs =>
      match dropBlank bs with
      | 0x22 :: bs₁ =>
          match parsePieces bs₁.length bs₁ with
          | none => none
          | some (name, bs₂) =>
              match dropBlank bs₂ with
              | 0x3A :: bs₃ =>
                  match parseText n (dropBlank bs₃) with
                  | none => none
                  | some (value, rest) =>
                      match dropBlank rest with
                      | 0x7D :: after =>
                          some (.last (takeBlank bs) 0x22 name (takeBlank bs₂) (takeBlank bs₃) value
                            (takeBlank rest), after)
                      | 0x2C :: after =>
                          (parseMembers n after).map fun (members, rest') =>
                            (.more (takeBlank bs) 0x22 name (takeBlank bs₂) (takeBlank bs₃) value
                              (takeBlank rest) members, rest')
                      | _ => none
              | _ => none
      | _ => none

end

/-- One value and what follows it, after whitespace. -/
def parseJson (bs : Bytes) : Option (Text × Bytes) := parseText (2 * bs.length) (dropBlank bs)

/-! ## Whitespace -/

theorem blank_append (blank : Blank) {rest : Bytes} (stop : ∀ b ∈ rest.head?, isBlank b = false) :
    dropBlank (blank.val ++ rest) = rest ∧ takeBlank (blank.val ++ rest) = blank := by
  obtain ⟨taken, dropped⟩ := span_append blank.property stop
  exact ⟨dropped, Subtype.ext taken⟩

theorem takeBlank_append_dropBlank (bs : Bytes) : (takeBlank bs).val ++ dropBlank bs = bs :=
  List.takeWhile_append_dropWhile

/-- Whitespace and what may follow it do not continue a number. -/
theorem stopsNumber_blank (blank : Blank) {r : Bytes} (stop : StopsNumber r) :
    StopsNumber (blank.val ++ r) := by
  obtain ⟨bs, all⟩ := blank
  cases bs with
  | nil => exact stop
  | cons b bs =>
      intro c hc
      obtain rfl : b = c := by simpa using hc
      have := all b List.mem_cons_self
      simp only [isBlank, Bool.or_eq_true, decide_eq_true_eq] at this
      rcases this with ((rfl | rfl) | rfl) | rfl <;> decide

theorem stopsNumber_cons {b : UInt8} (rest : Bytes) (h : continuesNumber b = false) :
    StopsNumber (b :: rest) := by
  intro c hc
  obtain rfl : b = c := by simpa using hc
  exact h

theorem head_render_lexeme (x : Lexeme) :
    ∃ b tail, x.render = b :: tail ∧ (b = 0x2D ∨ isDigit b = true) := by
  unfold Lexeme.render
  cases x.negative with
  | true => exact ⟨0x2D, _, rfl, .inl rfl⟩
  | false =>
      cases h : x.integer.bytes with
      | nil => exact absurd h x.integer.nonempty
      | cons d tail =>
          refine ⟨d, _, by simp [Lexeme.renderUnsigned, h]; rfl, .inr ?_⟩
          exact x.integer.digits d (by rw [h]; exact List.mem_cons_self)

set_option maxRecDepth 4096 in
/-- A text starts with a byte that is neither whitespace nor a closing bracket. -/
theorem Text.head_render (t : Text) :
    ∃ b tail, t.render = b :: tail ∧ isBlank b = false ∧ b ≠ 0x5D := by
  cases t with
  | null => exact ⟨_, _, rfl, by decide, by decide⟩
  | boolean b => cases b <;> exact ⟨_, _, rfl, by decide, by decide⟩
  | number lexeme =>
      obtain ⟨b, tail, h, first⟩ := head_render_lexeme lexeme
      refine ⟨b, tail, h, ?_⟩
      rcases first with rfl | digit
      · decide
      · revert digit
        exact byte_forall (P := fun b => isDigit b = true → isBlank b = false ∧ b ≠ 0x5D)
          (by decide) b
  | string pieces => exact ⟨_, _, rfl, by decide, by decide⟩
  | emptyArray blank => exact ⟨_, _, rfl, by decide, by decide⟩
  | array items => exact ⟨_, _, rfl, by decide, by decide⟩
  | emptyObject blank => exact ⟨_, _, rfl, by decide, by decide⟩
  | object members => exact ⟨_, _, rfl, by decide, by decide⟩

/-! ## Round trip -/

/-- The two readings of `dropBlank` and `takeBlank` in front of a text. -/
theorem blank_text (blank : Blank) (t : Text) (rest : Bytes) :
    dropBlank (blank.val ++ (t.render ++ rest)) = t.render ++ rest ∧
      takeBlank (blank.val ++ (t.render ++ rest)) = blank := by
  obtain ⟨b, tail, h, notBlank, -⟩ := t.head_render
  refine blank_append blank fun c hc => ?_
  obtain rfl : b = c := by simpa [h] using hc
  exact notBlank

/-- The same in front of a byte that is not whitespace. -/
theorem blank_cons (blank : Blank) {b : UInt8} (rest : Bytes) (h : isBlank b = false) :
    dropBlank (blank.val ++ b :: rest) = b :: rest ∧ takeBlank (blank.val ++ b :: rest) = blank :=
  blank_append blank fun c hc => by
    obtain rfl : b = c := by simpa using hc
    exact h

theorem parseText_bracket (n : Nat) (bs : Bytes) : parseText (n + 1) (0x5B :: bs) =
    match dropBlank bs with
    | 0x5D :: rest => some (.emptyArray (takeBlank bs), rest)
    | _ => (parseItems n bs).map fun (items, rest) => (.array items, rest) := rfl

theorem parseText_brace (n : Nat) (bs : Bytes) : parseText (n + 1) (0x7B :: bs) =
    match dropBlank bs with
    | 0x7D :: rest => some (.emptyObject (takeBlank bs), rest)
    | _ => (parseMembers n bs).map fun (members, rest) => (.object members, rest) := rfl

set_option maxRecDepth 4096 in
theorem parseText_lexeme (x : Lexeme) (n : Nat) {rest : Bytes} (stop : StopsNumber rest) :
    parseText (n + 1) (x.render ++ rest) = some (.number x, rest) := by
  obtain ⟨b, tail, h, first⟩ := head_render_lexeme x
  have read := Lexeme.parse_render x stop
  rw [h, List.cons_append] at read ⊢
  have other : b ≠ 0x7B ∧ b ≠ 0x5B ∧ b ≠ 0x22 ∧ b ≠ 0x6E ∧ b ≠ 0x74 ∧ b ≠ 0x66 := by
    rcases first with rfl | digit
    · decide
    · revert digit
      exact byte_forall (P := fun b => isDigit b = true → b ≠ 0x7B ∧ b ≠ 0x5B ∧ b ≠ 0x22 ∧
        b ≠ 0x6E ∧ b ≠ 0x74 ∧ b ≠ 0x66) (by decide) b
  simp only [parseText, other, if_false, read, Option.map_some]

/-- The items of an array do not start with the closing bracket. -/
theorem Items.head_dropBlank (items : Items) (rest : Bytes) :
    ∃ b tail, dropBlank (items.render ++ rest) = b :: tail ∧ b ≠ 0x5D := by
  cases items with
  | last before value after =>
      obtain ⟨b, tail, h, -, notClose⟩ := value.head_render
      refine ⟨b, tail ++ (after.val ++ 0x5D :: rest), ?_, notClose⟩
      have := (blank_text before value (after.val ++ 0x5D :: rest)).1
      simpa [Items.render, h] using this
  | more before value after items =>
      obtain ⟨b, tail, h, -, notClose⟩ := value.head_render
      refine ⟨b, tail ++ (after.val ++ 0x2C :: (items.render ++ rest)), ?_, notClose⟩
      have := (blank_text before value (after.val ++ 0x2C :: (items.render ++ rest))).1
      simpa [Items.render, h] using this

/-- The members of an object start with a quotation mark. -/
theorem Members.head_dropBlank (members : Members) (quoted : members.Quoted) (rest : Bytes) :
    ∃ tail, dropBlank (members.render ++ rest) = 0x22 :: tail := by
  cases members with
  | last before opener name gap space value after =>
      obtain ⟨rfl, -⟩ := quoted
      simp only [Members.render, List.append_assoc, List.cons_append]
      exact ⟨_, (blank_cons before _ (by decide)).1⟩
  | more before opener name gap space value after members =>
      obtain ⟨rfl, -⟩ := quoted
      simp only [Members.render, List.append_assoc, List.cons_append]
      exact ⟨_, (blank_cons before _ (by decide)).1⟩

theorem parsePieces_append (ps : List Piece) (rest : Bytes) :
    parsePieces (Pieces.render ps ++ rest).length (Pieces.render ps ++ rest) = some (ps, rest) :=
  parsePieces_render ps rest _ (by
    have := length_pieces_lt ps
    simp only [List.length_append]
    omega)

mutual

/-- A text is read back, with enough fuel for its nesting. -/
theorem parseText_render : ∀ (t : Text) {n : Nat} {r : Bytes}, t.Quoted →
    2 * t.render.length ≤ n → StopsNumber r → parseText n (t.render ++ r) = some (t, r)
  | t, 0, _, _, fuel, _ => by
      obtain ⟨b, tail, h, -⟩ := t.head_render
      simp [h] at fuel
  | .null, n + 1, rest, _, _, _ => rfl
  | .boolean true, n + 1, rest, _, _, _ => rfl
  | .boolean false, n + 1, rest, _, _, _ => rfl
  | .number lexeme, n + 1, rest, _, _, stop => parseText_lexeme lexeme n stop
  | .string pieces, n + 1, rest, _, _, _ => by
      simp only [Text.render, List.cons_append, parseText]
      rw [parsePieces_append]
      rfl
  | .emptyArray blank, n + 1, rest, _, _, _ => by
      obtain ⟨dropped, taken⟩ := blank_cons blank rest (b := 0x5D) (by decide)
      simp [Text.render, parseText, dropped, taken]
  | .emptyObject blank, n + 1, rest, _, _, _ => by
      obtain ⟨dropped, taken⟩ := blank_cons blank rest (b := 0x7D) (by decide)
      simp [Text.render, parseText, dropped, taken]
  | .array items, n + 1, rest, quoted, fuel, _ => by
      have read := parseItems_render items (n := n) (r := rest) quoted (by
        simp only [Text.render, List.length_cons] at fuel
        omega)
      obtain ⟨b, tail, h, notClose⟩ := items.head_dropBlank rest
      simp only [Text.render, List.cons_append, parseText_bracket, h, read]
      split
      next same => exact absurd (List.cons.inj same).1 notClose
      next => rfl
  | .object members, n + 1, rest, quoted, fuel, _ => by
      have read := parseMembers_render members (n := n) (r := rest) quoted (by
        simp only [Text.render, List.length_cons] at fuel
        omega)
      obtain ⟨tail, h⟩ := members.head_dropBlank quoted rest
      simp only [Text.render, List.cons_append, parseText_brace, h, read]
      rfl

theorem parseItems_render : ∀ (items : Items) {n : Nat} {r : Bytes}, items.Quoted →
    2 * items.render.length ≤ n → parseItems n (items.render ++ r) = some (items, r)
  | .last before value after, 0, _, _, fuel => by simp [Items.render] at fuel
  | .more before value after rest, 0, _, _, fuel => by simp [Items.render] at fuel
  | .last before value after, n + 1, rest, quoted, fuel => by
      have read := parseText_render value (n := n) (r := after.val ++ 0x5D :: rest) quoted
        (by simp [Items.render] at fuel; omega)
        (stopsNumber_blank after (stopsNumber_cons rest (by decide)))
      obtain ⟨dropped, taken⟩ := blank_text before value (after.val ++ 0x5D :: rest)
      obtain ⟨dropped', taken'⟩ := blank_cons after rest (b := 0x5D) (by decide)
      simp [Items.render, parseItems, dropped, taken, read, dropped', taken']
  | .more before value after items, n + 1, rest, quoted, fuel => by
      have read := parseText_render value (n := n)
        (r := after.val ++ 0x2C :: (items.render ++ rest)) quoted.1
        (by simp [Items.render] at fuel; omega)
        (stopsNumber_blank after (stopsNumber_cons _ (by decide)))
      have readRest := parseItems_render items (n := n) (r := rest) quoted.2
        (by simp [Items.render] at fuel; omega)
      obtain ⟨dropped, taken⟩ :=
        blank_text before value (after.val ++ 0x2C :: (items.render ++ rest))
      obtain ⟨dropped', taken'⟩ := blank_cons after (items.render ++ rest) (b := 0x2C) (by decide)
      simp [Items.render, parseItems, dropped, taken, read, dropped', taken', readRest]

theorem parseMembers_render : ∀ (members : Members) {n : Nat} {r : Bytes}, members.Quoted →
    2 * members.render.length ≤ n → parseMembers n (members.render ++ r) = some (members, r)
  | .last before opener name gap space value after, 0, _, _, fuel => by
      simp [Members.render] at fuel
  | .more before opener name gap space value after rest, 0, _, _, fuel => by
      simp [Members.render] at fuel
  | .last before opener name gap space value after, n + 1, rest, quoted, fuel => by
      obtain ⟨rfl, quoted⟩ := quoted
      have read := parseText_render value (n := n) (r := after.val ++ 0x7D :: rest) quoted
        (by simp [Members.render] at fuel; omega)
        (stopsNumber_blank after (stopsNumber_cons rest (by decide)))
      have readName := parsePieces_append name
        (gap.val ++ 0x3A :: (space.val ++ (value.render ++ (after.val ++ 0x7D :: rest))))
      obtain ⟨dropped, taken⟩ := blank_cons before (Pieces.render name ++ (gap.val ++ 0x3A ::
        (space.val ++ (value.render ++ (after.val ++ 0x7D :: rest))))) (b := 0x22) (by decide)
      obtain ⟨dropped₁, taken₁⟩ := blank_cons gap
        (space.val ++ (value.render ++ (after.val ++ 0x7D :: rest))) (b := 0x3A) (by decide)
      obtain ⟨dropped₂, taken₂⟩ := blank_text space value (after.val ++ 0x7D :: rest)
      obtain ⟨dropped₃, taken₃⟩ := blank_cons after rest (b := 0x7D) (by decide)
      simp only [Members.render, List.append_assoc, List.cons_append, List.nil_append, parseMembers,
        dropped, taken, readName, dropped₁, taken₁, dropped₂, taken₂, read, dropped₃, taken₃]
  | .more before opener name gap space value after members, n + 1, rest, quoted, fuel => by
      obtain ⟨rfl, quotedValue, quotedRest⟩ := quoted
      have read := parseText_render value (n := n)
        (r := after.val ++ 0x2C :: (members.render ++ rest)) quotedValue
        (by simp [Members.render] at fuel; omega)
        (stopsNumber_blank after (stopsNumber_cons _ (by decide)))
      have readRest := parseMembers_render members (n := n) (r := rest) quotedRest
        (by simp [Members.render] at fuel; omega)
      have readName := parsePieces_append name (gap.val ++ 0x3A ::
        (space.val ++ (value.render ++ (after.val ++ 0x2C :: (members.render ++ rest)))))
      obtain ⟨dropped, taken⟩ := blank_cons before (Pieces.render name ++ (gap.val ++ 0x3A ::
        (space.val ++ (value.render ++ (after.val ++ 0x2C :: (members.render ++ rest))))))
        (b := 0x22) (by decide)
      obtain ⟨dropped₁, taken₁⟩ := blank_cons gap
        (space.val ++ (value.render ++ (after.val ++ 0x2C :: (members.render ++ rest))))
        (b := 0x3A) (by decide)
      obtain ⟨dropped₂, taken₂⟩ :=
        blank_text space value (after.val ++ 0x2C :: (members.render ++ rest))
      obtain ⟨dropped₃, taken₃⟩ := blank_cons after (members.render ++ rest) (b := 0x2C) (by decide)
      simp only [Members.render, List.append_assoc, List.cons_append, parseMembers,
        dropped, taken, readName, dropped₁, taken₁, dropped₂, taken₂, read, dropped₃, taken₃,
        readRest, Option.map_some]

end

/-! ## What is read -/

theorem eq_of_takeLiteral {literal bs rest : Bytes} (h : takeLiteral literal bs = some rest) :
    bs = literal ++ rest := by
  unfold takeLiteral at h
  split at h
  next isPrefix =>
    obtain ⟨tail, rfl⟩ := List.isPrefixOf_iff_prefix.mp isPrefix
    cases h
    simp
  next => cases h

/-- A byte found after whitespace, put back. -/
theorem eq_of_dropBlank {bs rest : Bytes} (h : dropBlank bs = rest) :
    bs = (takeBlank bs).val ++ rest := by
  rw [← h, takeBlank_append_dropBlank]

mutual

/-- What is read as a text is that text. -/
theorem eq_of_parseText : ∀ {n : Nat} {bs rest : Bytes} {t : Text},
    parseText n bs = some (t, rest) → bs = t.render ++ rest ∧ t.Quoted
  | 0, bs, rest, t, h => by cases h
  | n + 1, [], rest, t, h => by cases h
  | n + 1, b :: bs, rest, t, h => by
      unfold parseText at h
      split at h
      next brace =>
        subst brace
        split at h
        next after close =>
          cases h
          have := eq_of_dropBlank close
          exact ⟨by rw [Text.render]; simp [← this], trivial⟩
        next =>
          obtain ⟨⟨members, rest'⟩, found, same⟩ := Option.map_eq_some_iff.mp h
          cases same
          obtain ⟨rfl, quoted⟩ := eq_of_parseMembers found
          exact ⟨rfl, quoted⟩
      next =>
        split at h
        next bracket =>
          subst bracket
          split at h
          next after close =>
            cases h
            have := eq_of_dropBlank close
            exact ⟨by rw [Text.render]; simp [← this], trivial⟩
          next =>
            obtain ⟨⟨items, rest'⟩, found, same⟩ := Option.map_eq_some_iff.mp h
            cases same
            obtain ⟨rfl, quoted⟩ := eq_of_parseItems found
            exact ⟨rfl, quoted⟩
        next =>
          split at h
          next quote =>
            subst quote
            obtain ⟨⟨pieces, rest'⟩, found, same⟩ := Option.map_eq_some_iff.mp h
            cases same
            exact ⟨by rw [eq_of_parsePieces found]; rfl, trivial⟩
          next =>
            split at h
            next =>
              obtain ⟨rest', found, same⟩ := Option.map_eq_some_iff.mp h
              cases same
              exact ⟨eq_of_takeLiteral found, trivial⟩
            next =>
              split at h
              next =>
                obtain ⟨rest', found, same⟩ := Option.map_eq_some_iff.mp h
                cases same
                exact ⟨eq_of_takeLiteral found, trivial⟩
              next =>
                split at h
                next =>
                  obtain ⟨rest', found, same⟩ := Option.map_eq_some_iff.mp h
                  cases same
                  exact ⟨eq_of_takeLiteral found, trivial⟩
                next =>
                  obtain ⟨⟨lexeme, rest'⟩, found, same⟩ := Option.map_eq_some_iff.mp h
                  cases same
                  exact ⟨Lexeme.eq_of_parse found, trivial⟩

theorem eq_of_parseItems : ∀ {n : Nat} {bs rest : Bytes} {items : Items},
    parseItems n bs = some (items, rest) → bs = items.render ++ rest ∧ items.Quoted
  | 0, bs, rest, items, h => by cases h
  | n + 1, bs, rest, items, h => by
      unfold parseItems at h
      split at h
      next => cases h
      next value rest₁ found =>
        obtain ⟨same, quoted⟩ := eq_of_parseText found
        have before := eq_of_dropBlank same
        split at h
        next after close =>
          cases h
          refine ⟨?_, quoted⟩
          rw [before, eq_of_dropBlank close]
          simp [Items.render, ← before, ← eq_of_dropBlank close]
        next after comma =>
          obtain ⟨⟨items', rest'⟩, found', same'⟩ := Option.map_eq_some_iff.mp h
          cases same'
          obtain ⟨rfl, quoted'⟩ := eq_of_parseItems found'
          refine ⟨?_, quoted, quoted'⟩
          rw [before, eq_of_dropBlank comma]
          simp [Items.render, ← before, ← eq_of_dropBlank comma]
        next => cases h

theorem eq_of_parseMembers : ∀ {n : Nat} {bs rest : Bytes} {members : Members},
    parseMembers n bs = some (members, rest) → bs = members.render ++ rest ∧ members.Quoted
  | 0, bs, rest, members, h => by cases h
  | n + 1, bs, rest, members, h => by
      unfold parseMembers at h
      split at h
      next bs₁ quote =>
        have before := eq_of_dropBlank quote
        split at h
        next => cases h
        next name bs₂ foundName =>
          have nameEq := eq_of_parsePieces foundName
          split at h
          next bs₃ colon =>
            have gap := eq_of_dropBlank colon
            split at h
            next => cases h
            next value rest₁ found =>
              obtain ⟨same, quoted⟩ := eq_of_parseText found
              have space := eq_of_dropBlank same
              split at h
              next after close =>
                cases h
                refine ⟨?_, rfl, quoted⟩
                have tail := eq_of_dropBlank close
                simp [Members.render, ← tail, ← space, ← gap, ← nameEq, ← before]
              next after comma =>
                obtain ⟨⟨members', rest'⟩, found', same'⟩ := Option.map_eq_some_iff.mp h
                cases same'
                obtain ⟨rfl, quoted'⟩ := eq_of_parseMembers found'
                refine ⟨?_, rfl, quoted, quoted'⟩
                have tail := eq_of_dropBlank comma
                simp [Members.render, ← tail, ← space, ← gap, ← nameEq, ← before]
              next => cases h
          next => cases h
      next => cases h

end

/-- A text and what follows it are read exactly from their bytes after whitespace. -/
theorem parseJson_eq_some {bs rest : Bytes} {t : Text} (stop : StopsNumber rest) :
    parseJson bs = some (t, rest) ↔
      t.Quoted ∧ ∃ before : Blank, bs = before.val ++ (t.render ++ rest) := by
  constructor
  · intro h
    obtain ⟨same, quoted⟩ := eq_of_parseText h
    exact ⟨quoted, takeBlank bs, eq_of_dropBlank same⟩
  · rintro ⟨quoted, before, rfl⟩
    rw [parseJson, (blank_text before t rest).1]
    refine parseText_render t quoted ?_ stop
    simp only [List.length_append]
    omega

/-- `JSON-text = ws value ws` -/
def Text.Document (t : Text) (bytes : Bytes) : Prop :=
  t.Quoted ∧ ∃ before after : Blank, bytes = before.val ++ (t.render ++ after.val)

theorem stopsNumber_blank_end (blank : Blank) : StopsNumber blank.val := by
  have := stopsNumber_blank blank (r := []) (by simp [StopsNumber])
  rwa [List.append_nil] at this

/-- The bytes of a document are read as its text, and only whitespace is left. -/
theorem Text.document_iff {t : Text} {bytes : Bytes} :
    t.Document bytes ↔ ∃ after : Blank, parseJson bytes = some (t, after.val) := by
  constructor
  · rintro ⟨quoted, before, after, same⟩
    exact ⟨after, (parseJson_eq_some (stopsNumber_blank_end after)).mpr ⟨quoted, before, same⟩⟩
  · rintro ⟨after, read⟩
    obtain ⟨quoted, before, same⟩ := (parseJson_eq_some (stopsNumber_blank_end after)).mp read
    exact ⟨quoted, before, after, same⟩

/-- A byte string is the document of at most one text. -/
theorem Text.Document.unique {t u : Text} {bytes : Bytes} (ht : t.Document bytes)
    (hu : u.Document bytes) : t = u := by
  obtain ⟨after, read⟩ := document_iff.mp ht
  obtain ⟨after', read'⟩ := document_iff.mp hu
  rw [read] at read'
  exact (Prod.mk.inj (Option.some.inj read')).1

end Wire
