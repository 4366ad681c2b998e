import BoundedAuthority.Wire.Base64
import BoundedAuthority.Wire.JsonText

/-!
# Compact JSON texts

A writer of JSON leaves out all whitespace and has one form for each string.  A
container is built from the texts of its elements (`Text.ofItems`,
`Text.ofMembers`), and its bytes are theirs with commas between them; a string is
built from the shortest form of each of its scalar values (`Pieces.ofString`).
-/

namespace Wire

/-! ## Strings -/

/-- A lowercase hexadecimal digit. -/
def lowerHex (d : Nat) : UInt8 := if d < 10 then UInt8.ofNat (0x30 + d) else UInt8.ofNat (0x57 + d)

theorem isHex_lowerHex {d : Nat} (h : d < 16) : isHex (lowerHex d) = true := by
  have all : ∀ k : Fin 16, isHex (lowerHex k) = true := by decide
  exact all ⟨d, h⟩

/-- The code unit below `0x100` in lowercase. -/
def Hex4.ofNat (n : Nat) : Hex4 :=
  ⟨0x30, 0x30, lowerHex (n / 16 % 16), lowerHex (n % 16), rfl, rfl,
    isHex_lowerHex (Nat.mod_lt _ (by decide)), isHex_lowerHex (Nat.mod_lt _ (by decide))⟩

theorem Hex4.value_ofNat {n : Nat} (h : n < 0x20) : (Hex4.ofNat n).value = n := by
  have all : ∀ k : Fin 0x20, (Hex4.ofNat k).value = k := by decide
  exact all ⟨n, h⟩

/-- No code unit below `0x20` is a surrogate. -/
theorem Hex4.ofNat_scalar {n : Nat} (h : n < 0x20) :
    isHighSurrogate (Hex4.ofNat n).value = false ∧ isLowSurrogate (Hex4.ofNat n).value = false := by
  rw [Hex4.value_ofNat h]
  simp only [isHighSurrogate, isLowSurrogate, Bool.and_eq_false_iff, decide_eq_false_iff_not]
  omega

theorem isUnescaped_of_large {c : Char} (noQuote : ¬c = '"') (noBackslash : ¬c = '\\')
    (large : ¬c.toNat < 0x20) : isUnescaped c = true := by
  have quote : c.toNat ≠ 0x22 := fun same => noQuote (Char.toNat_inj.mp same)
  have backslash : c.toNat ≠ 0x5C := fun same => noBackslash (Char.toNat_inj.mp same)
  simp only [isUnescaped, Bool.and_eq_true, decide_eq_true_eq]
  omega

/-- The shortest form of a scalar value in a string literal. -/
def Piece.ofChar (c : Char) : Piece :=
  if h : c = '"' then .short 0x22 c (by rw [h]; rfl)
  else if h : c = '\\' then .short 0x5C c (by rw [h]; rfl)
  else if h : c = Char.ofNat 0x08 then .short 0x62 c (by rw [h]; rfl)
  else if h : c = Char.ofNat 0x09 then .short 0x74 c (by rw [h]; rfl)
  else if h : c = Char.ofNat 0x0A then .short 0x6E c (by rw [h]; rfl)
  else if h : c = Char.ofNat 0x0C then .short 0x66 c (by rw [h]; rfl)
  else if h : c = Char.ofNat 0x0D then .short 0x72 c (by rw [h]; rfl)
  else if h : c.toNat < 0x20 then .unit (Hex4.ofNat c.toNat) (Hex4.ofNat_scalar h)
  else .unescaped c (isUnescaped_of_large ‹¬c = '"'› ‹¬c = '\\'› h)

@[simp] theorem Piece.char_ofChar (c : Char) : (Piece.ofChar c).char = c := by
  unfold Piece.ofChar
  repeat' split
  any_goals rfl
  next small =>
    simp only [Piece.char, Hex4.value_ofNat small]
    exact Char.ofNat_toNat c

/-- A scalar value that may stand unescaped does. -/
theorem Piece.render_ofChar {c : Char} (plain : isUnescaped c = true) :
    (Piece.ofChar c).render = String.utf8EncodeChar c := by
  have not : ∀ d : Char, isUnescaped d = false → c ≠ d := by
    rintro d hd rfl
    rw [plain] at hd
    cases hd
  have small : ¬ c.toNat < 0x20 := by
    simp only [isUnescaped, Bool.and_eq_true, decide_eq_true_eq] at plain
    omega
  unfold Piece.ofChar
  rw [dif_neg (not _ rfl), dif_neg (not _ rfl), dif_neg (not _ rfl), dif_neg (not _ rfl),
    dif_neg (not _ rfl), dif_neg (not _ rfl), dif_neg (not _ rfl), dif_neg small]
  rfl

/-- The scalar values that are escaped are ASCII. -/
theorem isUnescaped_eq_false {c : Char} (h : ¬ isUnescaped c = true) :
    c.toNat < 0x20 ∨ c.toNat = 0x22 ∨ c.toNat = 0x5C := by
  simp only [isUnescaped, Bool.and_eq_true, decide_eq_true_eq, not_and_or, not_not] at h
  omega

/-- What holds of the escaped characters is found by going through ASCII. -/
theorem escaped_forall {P : Char → Prop}
    (table : ∀ k : Fin 0x80, (k.val < 0x20 ∨ k.val = 0x22 ∨ k.val = 0x5C) → P (Char.ofNat k))
    {c : Char} (h : ¬ isUnescaped c = true) : P c := by
  have small := isUnescaped_eq_false h
  have found := table ⟨c.toNat, by omega⟩ small
  rwa [show Char.ofNat (Fin.val ⟨c.toNat, _⟩) = c from Char.ofNat_toNat c] at found

/-- The shortest form of a string. -/
def Pieces.ofString (s : Bytes) : List Piece := ((Utf8.decode s).getD []).map Piece.ofChar

theorem Pieces.value_ofString {s : Bytes} (h : Utf8.valid s = true) :
    Pieces.value (Pieces.ofString s) = s := by
  obtain ⟨cs, rfl⟩ := Utf8.valid_iff.mp h
  have chars : Piece.char ∘ Piece.ofChar = id := funext Piece.char_ofChar
  simp [Pieces.ofString, Pieces.value, chars]

/-- An ASCII character that stands for itself. -/
def isPlain (b : UInt8) : Bool := within 0x20 0x7F b && b != 0x22 && b != 0x5C

set_option maxRecDepth 4096 in
theorem lt_of_isPlain {b : UInt8} (h : isPlain b = true) : b < 0x80 := by
  revert h
  exact byte_forall (P := fun b => isPlain b = true → b < 0x80) (by decide) b

set_option maxRecDepth 4096 in
theorem isPlain_of_inAlphabet {b : UInt8} (h : Base64.inAlphabet b = true) : isPlain b = true := by
  revert h
  exact byte_forall (P := fun b => Base64.inAlphabet b = true → isPlain b = true)
    (by decide) b

set_option maxRecDepth 4096 in
/-- A string of such characters is written as it is. -/
theorem Pieces.render_plain {s : Bytes} (h : ∀ b ∈ s, isPlain b = true) :
    Pieces.render (Pieces.ofString s) = s ++ [0x22] := by
  rw [Pieces.ofString, Utf8.decode_ascii fun b hb => lt_of_isPlain (h b hb), Option.getD_some]
  induction s with
  | nil => rfl
  | cons b s ih =>
      have one : isPlain b = true → (Piece.ofChar (Char.ofNat b.toNat)).render = [b] :=
        byte_forall (P := fun b => isPlain b = true →
          (Piece.ofChar (Char.ofNat b.toNat)).render = [b]) (by decide) b
      rw [List.map_cons, List.map_cons, Pieces.render, one (h b List.mem_cons_self),
        ih fun c hc => h c (List.mem_cons_of_mem _ hc)]
      rfl

/-! ## Containers -/

/-- The items of a nonempty array. -/
def Items.ofList (t : Text) : List Text → Items
  | [] => .last Blank.none t Blank.none
  | u :: us => .more Blank.none t Blank.none (Items.ofList u us)

/-- The array of some texts. -/
def Text.ofItems : List Text → Text
  | [] => .emptyArray Blank.none
  | t :: ts => .array (Items.ofList t ts)

/-- The members of a nonempty object. -/
def Members.ofList (m : List Piece × Text) : List (List Piece × Text) → Members
  | [] => .last Blank.none 0x22 m.1 Blank.none Blank.none m.2 Blank.none
  | k :: ks => .more Blank.none 0x22 m.1 Blank.none Blank.none m.2 Blank.none (Members.ofList k ks)

/-- The object of some names and texts. -/
def Text.ofMembers : List (List Piece × Text) → Text
  | [] => .emptyObject Blank.none
  | m :: ms => .object (Members.ofList m ms)

/-- The bytes of a name and its value. -/
def renderMember (m : List Piece × Text) : Bytes :=
  0x22 :: (Pieces.render m.1 ++ 0x3A :: m.2.render)

theorem Items.render_ofList (t : Text) (ts : List Text) :
    (Items.ofList t ts).render = List.intercalate [0x2C] ((t :: ts).map Text.render) ++ [0x5D] := by
  induction ts generalizing t with
  | nil => simp [Items.ofList, Items.render, Blank.none]
  | cons u us ih =>
      rw [Items.ofList, Items.render, ih u]
      simp [Blank.none, List.intercalate_cons_cons]

theorem Text.render_ofItems (ts : List Text) : (Text.ofItems ts).render =
    0x5B :: (List.intercalate [0x2C] (ts.map Text.render) ++ [0x5D]) := by
  cases ts with
  | nil => rfl
  | cons t ts => rw [Text.ofItems, Text.render, Items.render_ofList]

theorem Members.render_ofList (m : List Piece × Text) (ms : List (List Piece × Text)) :
    (Members.ofList m ms).render =
      List.intercalate [0x2C] ((m :: ms).map renderMember) ++ [0x7D] := by
  induction ms generalizing m with
  | nil => simp [Members.ofList, Members.render, Blank.none, renderMember]
  | cons k ks ih =>
      rw [Members.ofList, Members.render, ih k]
      simp [Blank.none, renderMember, List.intercalate_cons_cons]

theorem Text.render_ofMembers (ms : List (List Piece × Text)) : (Text.ofMembers ms).render =
    0x7B :: (List.intercalate [0x2C] (ms.map renderMember) ++ [0x7D]) := by
  cases ms with
  | nil => rfl
  | cons m ms => rw [Text.ofMembers, Text.render, Members.render_ofList]

/-! ## What a container passes on -/

theorem Items.quoted_ofList (t : Text) (ts : List Text) :
    (Items.ofList t ts).Quoted ↔ ∀ u ∈ t :: ts, u.Quoted := by
  induction ts generalizing t with
  | nil => simp [Items.ofList, Items.Quoted]
  | cons u us ih => simp [Items.ofList, Items.Quoted, ih]

theorem Text.quoted_ofItems {ts : List Text} : (Text.ofItems ts).Quoted ↔ ∀ t ∈ ts, t.Quoted := by
  cases ts with
  | nil => simp [Text.ofItems, Text.Quoted]
  | cons t ts => rw [Text.ofItems, Text.Quoted, Items.quoted_ofList]

theorem Members.quoted_ofList (m : List Piece × Text) (ms : List (List Piece × Text)) :
    (Members.ofList m ms).Quoted ↔ ∀ k ∈ m :: ms, k.2.Quoted := by
  induction ms generalizing m with
  | nil => simp [Members.ofList, Members.Quoted]
  | cons k ks ih => simp [Members.ofList, Members.Quoted, ih]

theorem Text.quoted_ofMembers {ms : List (List Piece × Text)} :
    (Text.ofMembers ms).Quoted ↔ ∀ m ∈ ms, m.2.Quoted := by
  cases ms with
  | nil => simp [Text.ofMembers, Text.Quoted]
  | cons m ms => rw [Text.ofMembers, Text.Quoted, Members.quoted_ofList]

theorem Items.mem_lexemes_ofList (t : Text) (ts : List Text) {x : Lexeme} :
    x ∈ (Items.ofList t ts).lexemes ↔ ∃ u ∈ t :: ts, x ∈ u.lexemes := by
  induction ts generalizing t with
  | nil => simp [Items.ofList, Items.lexemes]
  | cons u us ih => simp [Items.ofList, Items.lexemes, ih]

theorem Text.mem_lexemes_ofItems {ts : List Text} {x : Lexeme} :
    x ∈ (Text.ofItems ts).lexemes ↔ ∃ t ∈ ts, x ∈ t.lexemes := by
  cases ts with
  | nil => simp [Text.ofItems, Text.lexemes]
  | cons t ts => rw [Text.ofItems, Text.lexemes, Items.mem_lexemes_ofList]

theorem Members.mem_lexemes_ofList (m : List Piece × Text) (ms : List (List Piece × Text))
    {x : Lexeme} : x ∈ (Members.ofList m ms).lexemes ↔ ∃ k ∈ m :: ms, x ∈ k.2.lexemes := by
  induction ms generalizing m with
  | nil => simp [Members.ofList, Members.lexemes]
  | cons k ks ih =>
      simp only [Members.ofList, Members.lexemes, List.mem_append, ih]
      simp

theorem Text.mem_lexemes_ofMembers {ms : List (List Piece × Text)} {x : Lexeme} :
    x ∈ (Text.ofMembers ms).lexemes ↔ ∃ m ∈ ms, x ∈ m.2.lexemes := by
  cases ms with
  | nil => simp [Text.ofMembers, Text.lexemes]
  | cons m ms => rw [Text.ofMembers, Text.lexemes, Members.mem_lexemes_ofList]

theorem Items.values_ofList (t : Text) (ts : List Text) :
    (Items.ofList t ts).values? = (t :: ts).mapM Text.value? := by
  induction ts generalizing t with
  | nil => cases h : t.value? <;> simp [Items.ofList, Items.values?, h]
  | cons u us ih =>
      rw [Items.ofList, Items.values?, ih u, List.mapM_cons (l := u :: us)]
      rfl

theorem Text.value_ofItems (ts : List Text) :
    (Text.ofItems ts).value? = (ts.mapM Text.value?).map .array := by
  cases ts with
  | nil => rfl
  | cons t ts => rw [Text.ofItems, Text.value?, Items.values_ofList]

/-- The name and the value of a member. -/
def memberValue? (m : List Piece × Text) : Option (Bytes × JsonValue) :=
  m.2.value?.map fun v => (Pieces.value m.1, v)

theorem Members.values_ofList (m : List Piece × Text) (ms : List (List Piece × Text)) :
    (Members.ofList m ms).values? = (m :: ms).mapM memberValue? := by
  induction ms generalizing m with
  | nil => cases h : m.2.value? <;> simp [Members.ofList, Members.values?, memberValue?, h]
  | cons k ks ih =>
      rw [Members.ofList, Members.values?, ih k, List.mapM_cons (l := k :: ks)]
      cases h : m.2.value? <;> simp [memberValue?, h]

theorem Text.value_ofMembers (ms : List (List Piece × Text)) :
    (Text.ofMembers ms).value? = (ms.mapM memberValue?).map .object := by
  cases ms with
  | nil => rfl
  | cons m ms => rw [Text.ofMembers, Text.value?, Members.values_ofList]

/-- A text without whitespace around it is a document. -/
theorem Text.document_render {t : Text} (quoted : t.Quoted) : t.Document t.render :=
  ⟨quoted, Blank.none, Blank.none, by simp [Blank.none]⟩

end Wire
