import BoundedAuthority.Wire.Lexeme

/-!
# JSON string literals

The contents of a string literal are a list of pieces: a scalar value that
stands for itself, a two-character escape, and a `\u` escape, which is either a
code unit that is no surrogate or a pair of a high and a low one.  A lone
surrogate is not a piece, so every list of pieces denotes a string of scalar
values, and its UTF-8 form is the value of the literal.
-/

namespace Wire

/-- `unescaped = %x20-21 / %x23-5B / %x5D-10FFFF` -/
def isUnescaped (c : Char) : Bool := 0x20 ≤ c.toNat && c.toNat ≠ 0x22 && c.toNat ≠ 0x5C

/-- The scalar value of a two-character escape. -/
def shortEscape (letter : UInt8) : Option Char :=
  if letter = 0x22 then some '"'
  else if letter = 0x5C then some '\\'
  else if letter = 0x2F then some '/'
  else if letter = 0x62 then some (Char.ofNat 0x08)
  else if letter = 0x66 then some (Char.ofNat 0x0C)
  else if letter = 0x6E then some (Char.ofNat 0x0A)
  else if letter = 0x72 then some (Char.ofNat 0x0D)
  else if letter = 0x74 then some (Char.ofNat 0x09)
  else none

/-- Four hexadecimal digits. -/
@[ext] structure Hex4 where
  a : UInt8
  b : UInt8
  c : UInt8
  d : UInt8
  hex : isHex a = true ∧ isHex b = true ∧ isHex c = true ∧ isHex d = true

namespace Hex4

def bytes (h : Hex4) : Bytes := [h.a, h.b, h.c, h.d]

/-- The code unit. -/
def value (h : Hex4) : Nat :=
  ((hexValue h.a * 16 + hexValue h.b) * 16 + hexValue h.c) * 16 + hexValue h.d

end Hex4

def isHighSurrogate (unit : Nat) : Bool := 0xD800 ≤ unit && unit ≤ 0xDBFF

def isLowSurrogate (unit : Nat) : Bool := 0xDC00 ≤ unit && unit ≤ 0xDFFF

/-- The scalar value of a surrogate pair. -/
def surrogatePair (high low : Nat) : Nat := 0x10000 + (high - 0xD800) * 0x400 + (low - 0xDC00)

/-- One piece of the contents of a string literal. -/
inductive Piece
  | unescaped (c : Char) (h : isUnescaped c = true)
  | short (letter : UInt8) (c : Char) (h : shortEscape letter = some c)
  | unit (u : Hex4) (h : isHighSurrogate u.value = false ∧ isLowSurrogate u.value = false)
  | pair (high low : Hex4)
      (h : isHighSurrogate high.value = true ∧ isLowSurrogate low.value = true)

namespace Piece

/-- The scalar value a piece stands for. -/
def char : Piece → Char
  | unescaped c _ => c
  | short _ c _ => c
  | unit u _ => Char.ofNat u.value
  | pair high low _ => Char.ofNat (surrogatePair high.value low.value)

def render : Piece → Bytes
  | unescaped c _ => String.utf8EncodeChar c
  | short letter _ _ => [0x5C, letter]
  | unit u _ => 0x5C :: 0x75 :: u.bytes
  | pair high low _ => 0x5C :: 0x75 :: (high.bytes ++ 0x5C :: 0x75 :: low.bytes)

end Piece

namespace Pieces

/-- The string the pieces stand for, in UTF-8. -/
def value (ps : List Piece) : Bytes := Utf8.encode (ps.map Piece.char)

/-- The pieces and the closing quotation mark. -/
def render : List Piece → Bytes
  | [] => [0x22]
  | p :: ps => p.render ++ render ps

end Pieces

@[simp] theorem Pieces.value_nil : Pieces.value [] = [] := rfl

@[simp] theorem Pieces.value_cons (p : Piece) (ps : List Piece) :
    Pieces.value (p :: ps) = String.utf8EncodeChar p.char ++ Pieces.value ps := rfl

@[simp] theorem Pieces.valid_value (ps : List Piece) : Utf8.valid (Pieces.value ps) = true :=
  Utf8.valid_encode _

/-! ## Reading -/

/-- Four hexadecimal digits in front. -/
def takeHex4 (bs : Bytes) : Option (Hex4 × Bytes) :=
  match bs with
  | a :: b :: c :: d :: rest =>
      if h : isHex a = true ∧ isHex b = true ∧ isHex c = true ∧ isHex d = true then
        some (⟨a, b, c, d, h⟩, rest)
      else none
  | _ => none

/-- What follows `\u`: a code unit that is no surrogate, or the rest of a pair. -/
def parseUnit (bs : Bytes) : Option (Piece × Bytes) :=
  match takeHex4 bs with
  | none => none
  | some (u, rest) =>
      if h : isHighSurrogate u.value = false ∧ isLowSurrogate u.value = false then
        some (.unit u h, rest)
      else
        match rest with
        | 0x5C :: 0x75 :: after =>
            match takeHex4 after with
            | none => none
            | some (low, rest) =>
                if h : isHighSurrogate u.value = true ∧ isLowSurrogate low.value = true then
                  some (.pair u low h, rest)
                else none
        | _ => none

/-- One piece. -/
def parsePiece (bs : Bytes) : Option (Piece × Bytes) :=
  match bs with
  | 0x5C :: 0x75 :: rest => parseUnit rest
  | 0x5C :: letter :: rest =>
      match h : shortEscape letter with
      | none => none
      | some c => some (.short letter c h, rest)
  | _ =>
      match Utf8.decodeFirst bs with
      | none => none
      | some (c, rest) =>
          if h : isUnescaped c = true then some (.unescaped c h, rest) else none

/-- The pieces up to the closing quotation mark, at most `n` of them. -/
def parsePieces : Nat → Bytes → Option (List Piece × Bytes)
  | _, 0x22 :: rest => some ([], rest)
  | 0, _ => none
  | n + 1, bs =>
      match parsePiece bs with
      | none => none
      | some (p, rest) => (parsePieces n rest).map fun (ps, rest) => (p :: ps, rest)

/-- A piece does not start with a quotation mark. -/
theorem head_piece (p : Piece) : ∃ b tail, p.render = b :: tail ∧ b ≠ 0x22 := by
  cases p with
  | unescaped c h =>
      obtain ⟨lead, tail, hc, notContinuation, _, length, value⟩ := Utf8.encodeChar_shape c
      refine ⟨lead, tail, hc, ?_⟩
      rintro rfl
      simp only [isUnescaped, Bool.and_eq_true, decide_eq_true_eq] at h
      obtain rfl : tail = [] := by
        have : tail.length = 0 := by simpa [Utf8.sequenceLength] using length.symm
        exact List.length_eq_zero_iff.mp this
      exact h.1.2 value.symm
  | short letter c h => exact ⟨0x5C, [letter], rfl, by decide⟩
  | unit u h => exact ⟨0x5C, _, rfl, by decide⟩
  | pair high low h => exact ⟨0x5C, _, rfl, by decide⟩

theorem takeHex4_append (h : Hex4) (rest : Bytes) :
    takeHex4 (h.bytes ++ rest) = some (h, rest) := by
  simp [takeHex4, Hex4.bytes, h.hex]

theorem eq_of_takeHex4 {bs rest : Bytes} {u : Hex4} (h : takeHex4 bs = some (u, rest)) :
    bs = u.bytes ++ rest := by
  unfold takeHex4 at h
  split at h
  next =>
    split at h
    next => cases h; rfl
    next => cases h
  next => cases h

theorem parsePiece_render (p : Piece) (rest : Bytes) :
    parsePiece (p.render ++ rest) = some (p, rest) := by
  cases p with
  | unescaped c h =>
      obtain ⟨lead, tail, hc, -, -, length, value⟩ := Utf8.encodeChar_shape c
      have first : lead ≠ 0x5C := by
        rintro rfl
        obtain rfl : tail = [] := by
          have : tail.length = 0 := by simpa [Utf8.sequenceLength] using length.symm
          exact List.length_eq_zero_iff.mp this
        simp only [isUnescaped, Bool.and_eq_true, decide_eq_true_eq] at h
        exact h.2 value.symm
      have read := Utf8.decodeFirst_encodeChar c rest
      simp only [Piece.render]
      rw [hc, List.cons_append] at read ⊢
      unfold parsePiece
      split
      next same => exact absurd (List.cons.inj same).1 first
      next same => exact absurd (List.cons.inj same).1 first
      next => simp only [read, h, dif_pos]
  | short letter c h =>
      have notUnicode : letter ≠ 0x75 := by
        rintro rfl
        cases h
      simp only [Piece.render, List.cons_append, List.nil_append]
      unfold parsePiece
      split
      next same => exact absurd (List.cons.inj (List.cons.inj same).2).1 notUnicode
      next letter' rest' _ same =>
        obtain ⟨rfl, rfl⟩ := List.cons.inj (List.cons.inj same).2
        split
        next none => rw [h] at none; cases none
        next c' some => rw [h] at some; cases some; rfl
      next other => exact absurd rfl (other letter rest)
  | unit u h =>
      simp only [Piece.render, List.cons_append, parsePiece, parseUnit, takeHex4_append, h,
        and_self, dif_pos]
  | pair high low h =>
      have surrogate :
          ¬ (isHighSurrogate high.value = false ∧ isLowSurrogate high.value = false) := by
        simp [h.1]
      simp only [Piece.render, List.cons_append, List.append_assoc, parsePiece, parseUnit,
        takeHex4_append]
      rw [dif_neg surrogate, dif_pos h]

theorem eq_of_parseUnit {bs rest : Bytes} {p : Piece} (h : parseUnit bs = some (p, rest)) :
    0x5C :: 0x75 :: bs = p.render ++ rest := by
  unfold parseUnit at h
  split at h
  next => cases h
  next u rest' hu =>
    rw [eq_of_takeHex4 hu]
    split at h
    next => cases h; rfl
    next =>
      split at h
      next after =>
        split at h
        next => cases h
        next low rest'' hl =>
          split at h
          next =>
            cases h
            rw [eq_of_takeHex4 hl]
            simp [Piece.render]
          next => cases h
      next => cases h

theorem eq_of_parsePiece {bs rest : Bytes} {p : Piece} (h : parsePiece bs = some (p, rest)) :
    bs = p.render ++ rest := by
  unfold parsePiece at h
  split at h
  next => exact eq_of_parseUnit h
  next =>
    split at h
    next => cases h
    next => cases h; rfl
  next =>
    split at h
    next => cases h
    next c rest' read =>
      split at h
      next =>
        cases h
        exact Utf8.eq_of_decodeFirst read
      next => cases h

/-- The contents of a literal are read back. -/
theorem parsePieces_render (ps : List Piece) (rest : Bytes) :
    ∀ n, ps.length ≤ n → parsePieces n (Pieces.render ps ++ rest) = some (ps, rest) := by
  induction ps with
  | nil => intro n _; cases n <;> rfl
  | cons p ps ih =>
      intro n hn
      obtain ⟨b, tail, hp, notQuote⟩ := head_piece p
      have read := parsePiece_render p (Pieces.render ps ++ rest)
      obtain ⟨n, rfl⟩ : ∃ m, n = m + 1 := ⟨n - 1, by simp at hn; omega⟩
      simp only [Pieces.render, List.append_assoc]
      rw [hp, List.cons_append] at read ⊢
      rw [parsePieces, read]
      · simp [ih n (by simpa using hn)]
      · intro _ same
        exact notQuote (List.cons.inj same).1

/-- What is read is the input. -/
theorem eq_of_parsePieces : ∀ {n : Nat} {bs rest : Bytes} {ps : List Piece},
    parsePieces n bs = some (ps, rest) → bs = Pieces.render ps ++ rest := by
  intro n
  induction n with
  | zero =>
      intro bs rest ps h
      unfold parsePieces at h
      split at h
      next => cases h; rfl
      next => cases h
      next same _ => cases same
  | succ n ih =>
      intro bs rest ps h
      unfold parsePieces at h
      split at h
      next => cases h; rfl
      next => contradiction
      next m same _ =>
        obtain rfl : n = m := Nat.succ.inj same
        split at h
        next => cases h
        next p rest' hp =>
          obtain ⟨⟨ps', rest''⟩, hps, same⟩ := Option.map_eq_some_iff.mp h
          cases same
          rw [eq_of_parsePiece hp, ih hps]
          simp [Pieces.render]

/-- A piece takes at least one byte, so the length of a literal bounds its pieces. -/
theorem length_pieces_lt (ps : List Piece) : ps.length < (Pieces.render ps).length := by
  induction ps with
  | nil => simp [Pieces.render]
  | cons p ps ih =>
      obtain ⟨b, tail, hp, -⟩ := head_piece p
      simp only [Pieces.render, hp, List.length_append, List.length_cons]
      omega

end Wire
