import BoundedAuthority.Wire.JsonText

/-!
# The whole grammar of JSON

The grammar of RFC 8259 lets a `\u` escape hold any code unit, lone surrogates
too.  `Raw` is the type of its syntax trees.  The texts that denote a value are
among them (`Text.raw`), with the same bytes and the same number lexemes.
-/

namespace Wire

/-- `char` -/
inductive RawChar
  | unescaped (c : Char) (h : isUnescaped c = true)
  | escape (letter : UInt8) (h : (shortEscape letter).isSome = true)
  | unit (u : Hex4)

def RawChar.render : RawChar → Bytes
  | unescaped c _ => String.utf8EncodeChar c
  | escape letter _ => [0x5C, letter]
  | unit u => 0x5C :: 0x75 :: u.bytes

/-- The characters and the closing quotation mark. -/
def RawChar.renderAll : List RawChar → Bytes
  | [] => [0x22]
  | c :: cs => c.render ++ renderAll cs

mutual

/-- `value` -/
inductive Raw
  | null
  | boolean (value : Bool)
  | number (lexeme : Lexeme)
  | string (chars : List RawChar)
  | emptyArray (blank : Blank)
  | array (items : RawItems)
  | emptyObject (blank : Blank)
  | object (members : RawMembers)

/-- The items of an array up to and including the closing bracket. -/
inductive RawItems
  | last (before : Blank) (value : Raw) (after : Blank)
  | more (before : Blank) (value : Raw) (after : Blank) (rest : RawItems)

/-- The members of an object up to and including the closing brace. -/
inductive RawMembers
  | last (before : Blank) (name : List RawChar) (gap : Blank) (space : Blank) (value : Raw)
      (after : Blank)
  | more (before : Blank) (name : List RawChar) (gap : Blank) (space : Blank) (value : Raw)
      (after : Blank) (rest : RawMembers)

end

mutual

/-- The bytes of a value. -/
def Raw.render : Raw → Bytes
  | .null => ascii "null"
  | .boolean true => ascii "true"
  | .boolean false => ascii "false"
  | .number lexeme => lexeme.render
  | .string chars => 0x22 :: RawChar.renderAll chars
  | .emptyArray blank => 0x5B :: (blank.val ++ [0x5D])
  | .array items => 0x5B :: items.render
  | .emptyObject blank => 0x7B :: (blank.val ++ [0x7D])
  | .object members => 0x7B :: members.render

def RawItems.render : RawItems → Bytes
  | .last before value after => before.val ++ (value.render ++ (after.val ++ [0x5D]))
  | .more before value after rest =>
      before.val ++ (value.render ++ (after.val ++ 0x2C :: rest.render))

def RawMembers.render : RawMembers → Bytes
  | .last before name gap space value after =>
      before.val ++ 0x22 :: (RawChar.renderAll name ++ (gap.val ++ 0x3A ::
        (space.val ++ (value.render ++ (after.val ++ [0x7D])))))
  | .more before name gap space value after rest =>
      before.val ++ 0x22 :: (RawChar.renderAll name ++ (gap.val ++ 0x3A ::
        (space.val ++ (value.render ++ (after.val ++ 0x2C :: rest.render)))))

end

mutual

/-- The number lexemes outside strings, in order. -/
def Raw.lexemes : Raw → List Lexeme
  | .number lexeme => [lexeme]
  | .array items => items.lexemes
  | .object members => members.lexemes
  | _ => []

def RawItems.lexemes : RawItems → List Lexeme
  | .last _ value _ => value.lexemes
  | .more _ value _ rest => value.lexemes ++ rest.lexemes

def RawMembers.lexemes : RawMembers → List Lexeme
  | .last _ _ _ _ value _ => value.lexemes
  | .more _ _ _ _ value _ rest => value.lexemes ++ rest.lexemes

end

/-! ## Texts that denote a value -/

def Piece.raw : Piece → List RawChar
  | unescaped c h => [.unescaped c h]
  | short letter _ h => [.escape letter (by rw [h]; rfl)]
  | unit u _ => [.unit u]
  | pair high low _ => [.unit high, .unit low]

def Pieces.raw (ps : List Piece) : List RawChar := ps.flatMap Piece.raw

theorem Pieces.renderAll_raw (ps : List Piece) :
    RawChar.renderAll (Pieces.raw ps) = Pieces.render ps := by
  induction ps with
  | nil => rfl
  | cons p ps ih =>
      rw [Pieces.render, ← ih]
      cases p <;> simp [Pieces.raw, Piece.raw, Piece.render, RawChar.renderAll, RawChar.render]

mutual

/-- A text as a tree of the whole grammar. -/
def Text.raw : Text → Raw
  | .null => .null
  | .boolean b => .boolean b
  | .number lexeme => .number lexeme
  | .string pieces => .string (Pieces.raw pieces)
  | .emptyArray blank => .emptyArray blank
  | .array items => .array items.raw
  | .emptyObject blank => .emptyObject blank
  | .object members => .object members.raw

def Items.raw : Items → RawItems
  | .last before value after => .last before value.raw after
  | .more before value after rest => .more before value.raw after rest.raw

def Members.raw : Members → RawMembers
  | .last before _ name gap space value after =>
      .last before (Pieces.raw name) gap space value.raw after
  | .more before _ name gap space value after rest =>
      .more before (Pieces.raw name) gap space value.raw after rest.raw

end

mutual

theorem Text.render_raw : ∀ t : Text, t.Quoted → t.raw.render = t.render
  | .null, _ => rfl
  | .boolean true, _ => rfl
  | .boolean false, _ => rfl
  | .number _, _ => rfl
  | .string pieces, _ => congrArg (0x22 :: ·) (Pieces.renderAll_raw pieces)
  | .emptyArray _, _ => rfl
  | .array items, quoted => congrArg (0x5B :: ·) (Items.render_raw items quoted)
  | .emptyObject _, _ => rfl
  | .object members, quoted => congrArg (0x7B :: ·) (Members.render_raw members quoted)

theorem Items.render_raw : ∀ items : Items, items.Quoted → items.raw.render = items.render
  | .last before value after, quoted => by
      rw [Items.raw, RawItems.render, Items.render, Text.render_raw value quoted]
  | .more before value after rest, quoted => by
      rw [Items.raw, RawItems.render, Items.render, Text.render_raw value quoted.1,
        Items.render_raw rest quoted.2]

theorem Members.render_raw : ∀ members : Members, members.Quoted →
    members.raw.render = members.render
  | .last before opener name gap space value after, quoted => by
      obtain ⟨rfl, quoted⟩ := quoted
      rw [Members.raw, RawMembers.render, Members.render, Text.render_raw value quoted,
        Pieces.renderAll_raw]
  | .more before opener name gap space value after rest, quoted => by
      obtain ⟨rfl, value', rest'⟩ := quoted
      rw [Members.raw, RawMembers.render, Members.render, Text.render_raw value value',
        Members.render_raw rest rest', Pieces.renderAll_raw]

end

mutual

theorem Text.lexemes_raw : ∀ t : Text, t.raw.lexemes = t.lexemes
  | .null => rfl
  | .boolean _ => rfl
  | .number _ => rfl
  | .string _ => rfl
  | .emptyArray _ => rfl
  | .array items => Items.lexemes_raw items
  | .emptyObject _ => rfl
  | .object members => Members.lexemes_raw members

theorem Items.lexemes_raw : ∀ items : Items, items.raw.lexemes = items.lexemes
  | .last _ value _ => Text.lexemes_raw value
  | .more _ value _ rest => by
      rw [Items.raw, RawItems.lexemes, Items.lexemes, Text.lexemes_raw value,
        Items.lexemes_raw rest]

theorem Members.lexemes_raw : ∀ members : Members, members.raw.lexemes = members.lexemes
  | .last _ _ _ _ _ value _ => Text.lexemes_raw value
  | .more _ _ _ _ _ value _ rest => by
      rw [Members.raw, RawMembers.lexemes, Members.lexemes, Text.lexemes_raw value,
        Members.lexemes_raw rest]

end

end Wire
