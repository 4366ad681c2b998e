import BoundedAuthority.Go.Json
import BoundedAuthority.Go.JcsAgreement

/-!
# What the Go decoder accepts

A string is read into a buffer, and that is a literal of the grammar
(`parseString_eq_some`).  The recursion then reads the texts of the grammar whose
number lexemes and whose sizes are within the bounds (`parseValue_eq_some`), and
`jsonDecode` the documents of such texts.
-/

namespace BoundedAuthority.Go

open Wire V1 JsonValue

variable {b : Bounds}

theorem skipWS_eq (bs : Bytes) : skipWS bs = dropBlank bs := by
  induction bs with
  | nil => rfl
  | cons c rest ih =>
      have blank : (c = 0x20 ∨ c = 0x09 ∨ c = 0x0A ∨ c = 0x0D) ↔ isBlank c = true := by
        simp [isBlank, or_assoc]
      rw [skipWS, if_congr blank rfl rfl, ih, dropBlank, dropBlank, List.dropWhile_cons]

theorem literal_eq (want bs : Bytes) : literal want bs = takeLiteral want bs := by
  have same :
      want.isPrefixOf bs = true ↔ ¬(want.length > bs.length ∨ bs.take want.length ≠ want) := by
    rw [List.isPrefixOf_iff_prefix, List.prefix_iff_eq_take]
    constructor
    · intro whole
      have length := congrArg List.length whole
      rw [List.length_take] at length
      exact not_or.mpr ⟨by omega, not_not_intro whole.symm⟩
    · intro both
      exact (not_not.mp (not_or.mp both).2).symm
  rw [literal, takeLiteral]
  by_cases found : want.isPrefixOf bs = true
  · rw [if_neg (same.mp found), if_pos found]
  · rw [if_pos (not_not.mp fun other => found (same.mpr other)), if_neg found]

/-! ## Strings -/

set_option maxRecDepth 4096 in
theorem hexDigitValue_eq (c : UInt8) :
    hexDigitValue c = if isHex c = true then some (hexValue c) else none :=
  byte_forall (P := fun c => hexDigitValue c = if isHex c = true then some (hexValue c) else none)
    (by decide) c

theorem hex4_eq (bs : Bytes) : hex4 bs = (takeHex4 bs).map fun (u, rest) => (u.value, rest) := by
  match bs with
  | c₀ :: c₁ :: c₂ :: c₃ :: rest =>
    simp only [hex4, takeHex4, hexDigitValue_eq]
    by_cases hex : isHex c₀ = true ∧ isHex c₁ = true ∧ isHex c₂ = true ∧ isHex c₃ = true
    · have joined : ∀ (v : Nat) {c : UInt8}, isHex c = true →
          v <<< 4 ||| hexValue c = v * 16 + hexValue c := by
        intro v c hc
        rw [← Nat.shiftLeft_add_eq_or_of_lt (hexValue_lt hc), Nat.shiftLeft_eq]
      obtain ⟨h₀, h₁, h₂, h₃⟩ := hex
      simp [h₀, h₁, h₂, h₃, joined, Hex4.value]
    · rw [dif_neg hex]
      cases h₀ : isHex c₀ <;> cases h₁ : isHex c₁ <;> cases h₂ : isHex c₂ <;>
        cases h₃ : isHex c₃ <;> simp_all
  | [] | [_] | [_, _] | [_, _, _] => rfl

theorem isSurrogate_eq (unit : Nat) :
    isSurrogate unit = (isHighSurrogate unit || isLowSurrogate unit) := by
  rw [Bool.eq_iff_iff]
  simp only [isSurrogate, isHighSurrogate, isLowSurrogate, Bool.or_eq_true, Bool.and_eq_true,
    decide_eq_true_eq]
  omega

theorem Hex4.value_lt (u : Hex4) : u.value < 0x10000 := by
  have a := hexValue_lt u.hex.1
  have b := hexValue_lt u.hex.2.1
  have c := hexValue_lt u.hex.2.2.1
  have d := hexValue_lt u.hex.2.2.2
  rw [Hex4.value]
  omega

theorem appendRune_of_valid {r : Nat} (valid : r.isValidChar) :
    appendRune r = String.utf8EncodeChar (Char.ofNat r) := by rw [appendRune, if_pos valid]

/-- Bits below a shifted number are joined to it as they are added. -/
theorem joined_halves (h : Nat) {l : Nat} (small : l < 2 ^ 10) :
    (h <<< 10 ||| l) + 0x10000 = 0x10000 + h * 0x400 + l := by
  rw [← Nat.shiftLeft_add_eq_or_of_lt small, Nat.shiftLeft_eq]
  ring

theorem decodeSurrogates_eq {hi lo : Nat} (low : isLowSurrogate lo = true) :
    decodeSurrogates hi lo = surrogatePair hi lo := by
  simp only [isLowSurrogate, Bool.and_eq_true, decide_eq_true_eq] at low
  exact joined_halves (hi - 0xD800) (by omega)

theorem valid_surrogatePair {hi lo : Nat} (high : isHighSurrogate hi = true)
    (low : isLowSurrogate lo = true) : (surrogatePair hi lo).isValidChar := by
  simp only [isHighSurrogate, isLowSurrogate, Bool.and_eq_true, decide_eq_true_eq] at high low
  refine .inr ⟨?_, ?_⟩ <;>
  · unfold surrogatePair
    omega

/-- A low surrogate behind a high one completes the pair. -/
theorem lowHalf_escape {u : Hex4} (high : isHighSurrogate u.value = true) (after : Bytes) :
    ((lowHalf u.value (0x5C :: 0x75 :: after)).map fun (r, rest) => (appendRune r, rest)) =
      (match takeHex4 after with
        | none => none
        | some (low, rest) =>
            if h : isHighSurrogate u.value = true ∧ isLowSurrogate low.value = true then
              some (Piece.pair u low h, rest)
            else none).map fun (q : Piece × Bytes) => (String.utf8EncodeChar q.1.char, q.2) := by
  rw [lowHalf, hex4_eq]
  cases takeHex4 after with
  | none => rfl
  | some found =>
      obtain ⟨v, rest⟩ := found
      have range : (0xDC00 ≤ v.value ∧ v.value ≤ 0xDFFF) ↔ isLowSurrogate v.value = true := by
        simp [isLowSurrogate]
      simp only [Option.map_some, Option.bind_eq_bind, Option.bind_some, range, high, true_and]
      by_cases low : isLowSurrogate v.value = true
      · simp [low, decodeSurrogates_eq low, Piece.char,
          appendRune_of_valid (valid_surrogatePair high low)]
      · simp [low]

theorem lowHalf_other (hi : Nat) {bs : Bytes} (other : ∀ after, bs ≠ 0x5C :: 0x75 :: after) :
    lowHalf hi bs = none := by
  rw [lowHalf.eq_def]
  split
  next after => exact absurd rfl (other after)
  next => rfl

/-- A unicode escape appends its piece. -/
theorem parseUnicodeEscape_eq (bs : Bytes) :
    ((parseUnicodeEscape bs).map fun (r, rest) => (appendRune r, rest)) =
      (parseUnit bs).map fun (p, rest) => (String.utf8EncodeChar p.char, rest) := by
  rw [parseUnicodeEscape, hex4_eq, parseUnit]
  cases takeHex4 bs with
  | none => rfl
  | some first =>
      obtain ⟨u, rest⟩ := first
      have small := Hex4.value_lt u
      simp only [Option.map_some, Option.bind_eq_bind, Option.bind_some, isSurrogate_eq]
      by_cases plain : isHighSurrogate u.value = false ∧ isLowSurrogate u.value = false
      · have scalar : u.value.isValidChar := by
          simp only [isHighSurrogate, isLowSurrogate, Bool.and_eq_false_iff,
            decide_eq_false_iff_not] at plain
          simp only [Nat.isValidChar]
          omega
        simp only [plain, Bool.or_self, Bool.false_eq_true, if_false, dif_pos, and_self,
          Option.map_some, appendRune_of_valid scalar, Piece.char]
      · rw [dif_neg plain]
        have surrogate : (isHighSurrogate u.value || isLowSurrogate u.value) = true := by
          rw [not_and_or, Bool.not_eq_false, Bool.not_eq_false] at plain
          rwa [Bool.or_eq_true]
        have half : u.value < 0xDC00 ↔ isHighSurrogate u.value = true := by
          simp only [isHighSurrogate, isLowSurrogate, Bool.or_eq_true, Bool.and_eq_true,
            decide_eq_true_eq] at surrogate ⊢
          omega
        rw [if_pos surrogate, if_congr half rfl rfl]
        by_cases high : isHighSurrogate u.value = true
        · rw [if_pos high]
          by_cases escape : ∃ after, rest = 0x5C :: 0x75 :: after
          · obtain ⟨after, rfl⟩ := escape
            exact lowHalf_escape high after
          · have other : ∀ after, rest ≠ 0x5C :: 0x75 :: after := fun after same =>
              escape ⟨after, same⟩
            rw [lowHalf_other u.value other]
            split
            next after => exact absurd rfl (other after)
            next => rfl
        · -- a low surrogate in front is lone, whatever follows
          rw [if_neg high]
          split
          next after =>
            cases takeHex4 after with
            | none => rfl
            | some second => simp [high]
          next => rfl

set_option maxRecDepth 4096 in
theorem escapedByte_eq (e : UInt8) :
    (escapedByte e).map ([·]) = (shortEscape e).map String.utf8EncodeChar :=
  byte_forall (P := fun e => (escapedByte e).map ([·]) = (shortEscape e).map String.utf8EncodeChar)
    (by decide) e

theorem stringEscape_eq (bs : Bytes) : stringEscape bs = takeEscape bs := by
  cases bs with
  | nil => rfl
  | cons e rest =>
      have short := congrArg (Option.map fun chunk => (chunk, rest)) (escapedByte_eq e)
      rw [Option.map_map, Option.map_map] at short
      rw [stringEscape, takeEscape, parseUnicodeEscape_eq]
      exact if_congr Iff.rfl rfl short

/-- The loop fills the buffer behind what is in it. -/
theorem stringLoop_eq (n : Nat) (out bs : Bytes) : stringLoop n out bs =
    (takeBuffer n bs).map fun (buffer, rest) => (out ++ buffer, rest) := by
  induction n generalizing out bs with
  | zero => rfl
  | succ n ih =>
      cases bs with
      | nil => rfl
      | cons c rest =>
          rw [stringLoop, takeBuffer]
          by_cases close : c = 0x22
          · subst close
            simp
          · have more : ¬(c :: rest).head? = some 0x22 := by simpa using close
            rw [if_neg close, if_neg more, takeChunk, stringEscape_eq]
            by_cases escape : c = 0x5C
            · simp only [escape, if_true, Option.bind_eq_bind]
              cases takeEscape rest with
              | none => rfl
              | some taken =>
                  obtain ⟨chunk, rest⟩ := taken
                  simp only [Option.bind_some, ih]
                  cases takeBuffer n rest <;> simp
            · have control : (c < 0x20) ↔ ¬isCopied c = true := by
                simp [isCopied, close, escape]
              rw [if_neg escape, if_neg escape]
              by_cases copied : isCopied c = true
              · rw [if_neg fun low => control.mp low copied, if_pos copied, ih]
                simp only [Option.bind_eq_bind, Option.bind_some]
                cases takeBuffer n rest <;> simp
              · rw [if_pos (control.mpr copied), if_neg copied]
                rfl

/-- A string is read exactly when a literal is in front; the size of a name is not
checked here. -/
theorem parseString_eq_some {isName : Bool} {bs s rest : Bytes} :
    parseString b isName bs = some (s, rest) ↔
      ∃ ps, parsePieces bs.length bs = some (ps, rest) ∧ s = Pieces.value ps ∧
        (isName = true ∨ s.length ≤ b .stringBytes) := by
  have literal := @takeBuffer_iff bs s rest
  simp only [parseString, stringLoop_eq, List.nil_append, Option.map_id', Option.bind_eq_bind,
    Option.bind_eq_some_iff, guard_eq_some, exists_const, Prod.exists, Option.some.injEq,
    Prod.mk.injEq]
  constructor
  · rintro ⟨_, _, taken, valid, -, size, rfl, rfl⟩
    obtain ⟨ps, read, value⟩ := literal.mp ⟨taken, valid⟩
    exact ⟨ps, read, value, size⟩
  · rintro ⟨ps, read, value, size⟩
    obtain ⟨taken, valid⟩ := literal.mpr ⟨ps, read, value⟩
    refine ⟨s, rest, taken, valid, ?_, size, rfl, rfl⟩
    rintro ⟨empty, nonempty⟩
    obtain ⟨cs, rfl⟩ := Utf8.valid_iff.mp valid
    rw [runes_encode, List.length_eq_zero_iff] at empty
    exact nonempty (by rw [empty]; rfl)

/-! ## What a text is checked for -/

mutual

/-- The sizes of a value are within the bounds, and no object has a name twice. -/
def Sized (b : Bounds) : JsonValue → Prop
  | .string s => s.length ≤ b .stringBytes
  | .array values => values.length ≤ b .arrayItems ∧ SizedItems b values
  | .object members =>
      members.length ≤ b .objectMembers ∧ (members.map Prod.fst).Nodup ∧ SizedMembers b members
  | _ => True

def SizedItems (b : Bounds) : List JsonValue → Prop
  | [] => True
  | value :: rest => Sized b value ∧ SizedItems b rest

def SizedMembers (b : Bounds) : List (Bytes × JsonValue) → Prop
  | [] => True
  | (key, value) :: rest => key.length ≤ b .keyBytes ∧ Sized b value ∧ SizedMembers b rest

end

/-- A text that is let through below `depth` containers and after `nodes` values, and its
value. -/
structure Admits (numerals : Numerals) (b : Bounds) (depth nodes : Nat) (t : Text) (v : JsonValue) :
    Prop where
  denotes : t.value? = some v
  lexemes : ∀ x ∈ t.lexemes, numerals.Reads b x
  sized : Sized b v
  nodes : nodes + v.nodes ≤ b .totalNodes
  depth : depth + v.depth ≤ b .depth

/-- Items that are let through behind `count` others. -/
structure AdmitsItems (numerals : Numerals) (b : Bounds) (depth nodes count : Nat) (items : Items)
    (vs : List JsonValue) : Prop where
  denotes : items.values? = some vs
  lexemes : ∀ x ∈ items.lexemes, numerals.Reads b x
  sized : SizedItems b vs
  count : count + vs.length ≤ b .arrayItems
  nodes : nodes + nodesItems vs ≤ b .totalNodes
  depth : depth + depthItems vs ≤ b .depth

/-- Members that are let through behind `count` others, whose names are `seen`. -/
structure AdmitsMembers (numerals : Numerals) (b : Bounds) (depth nodes count : Nat)
    (seen : List Bytes)
    (members : Members) (ms : List (Bytes × JsonValue)) : Prop where
  denotes : members.values? = some ms
  lexemes : ∀ x ∈ members.lexemes, numerals.Reads b x
  sized : SizedMembers b ms
  unique : (ms.map Prod.fst).Nodup
  fresh : ∀ key ∈ ms.map Prod.fst, key ∉ seen
  count : count + ms.length ≤ b .objectMembers
  nodes : nodes + nodesMembers ms ≤ b .totalNodes
  depth : depth + depthMembers ms ≤ b .depth

section Admits

variable {numerals : Numerals} {depth nodes count : Nat} {seen : List Bytes}

theorem admits_array {items : Items} {v : JsonValue} :
    Admits numerals b depth nodes (.array items) v ↔
    ∃ vs, v = .array vs ∧ AdmitsItems numerals b (depth + 1) (nodes + 1) 0 items vs := by
  constructor
  · rintro ⟨denotes, lexemes, sized, few, shallow⟩
    obtain ⟨vs, values, rfl⟩ := Option.map_eq_some_iff.mp denotes
    simp only [JsonValue.nodes, JsonValue.depth] at few shallow
    exact ⟨vs, rfl, values, lexemes, sized.2, by simpa using sized.1, by omega, by omega⟩
  · rintro ⟨vs, rfl, denotes, lexemes, sized, size, few, shallow⟩
    refine ⟨?_, lexemes, ⟨by simpa using size, sized⟩, ?_, ?_⟩
    · rw [Text.value?, denotes]
      rfl
    · simp only [JsonValue.nodes]
      omega
    · simp only [JsonValue.depth]
      omega

theorem admits_object {members : Members} {v : JsonValue} :
    Admits numerals b depth nodes (.object members) v ↔
      ∃ ms, v = .object ms ∧ AdmitsMembers numerals b (depth + 1) (nodes + 1) 0 [] members ms := by
  constructor
  · rintro ⟨denotes, lexemes, sized, few, shallow⟩
    obtain ⟨ms, values, rfl⟩ := Option.map_eq_some_iff.mp denotes
    simp only [JsonValue.nodes, JsonValue.depth] at few shallow
    exact ⟨ms, rfl, values, lexemes, sized.2.2, sized.2.1, by simp, by simpa using sized.1,
      by omega, by omega⟩
  · rintro ⟨ms, rfl, denotes, lexemes, sized, unique, -, size, few, shallow⟩
    refine ⟨?_, lexemes, ⟨by simpa using size, unique, sized⟩, ?_, ?_⟩
    · rw [Text.value?, denotes]
      rfl
    · simp only [JsonValue.nodes]
      omega
    · simp only [JsonValue.depth]
      omega

theorem admitsItems_last {before after : Blank} {value : Text} {vs : List JsonValue} :
    AdmitsItems numerals b depth nodes count (.last before value after) vs ↔
      ∃ v, vs = [v] ∧ Admits numerals b depth nodes value v ∧ count < b .arrayItems := by
  constructor
  · rintro ⟨denotes, lexemes, sized, size, few, shallow⟩
    obtain ⟨v, value, rfl⟩ := Option.map_eq_some_iff.mp denotes
    simp only [nodesItems, depthItems, List.length_singleton] at few shallow size
    exact ⟨v, rfl, ⟨value, lexemes, sized.1, by omega, by omega⟩, by omega⟩
  · rintro ⟨v, rfl, ⟨denotes, lexemes, sized, few, shallow⟩, size⟩
    refine ⟨?_, lexemes, ⟨sized, trivial⟩, size, by simpa [nodesItems] using few,
      by simpa [depthItems] using shallow⟩
    rw [Items.values?, denotes]
    rfl

theorem admitsItems_more {before after : Blank} {value : Text} {rest : Items}
    {vs : List JsonValue} :
    AdmitsItems numerals b depth nodes count (.more before value after rest) vs ↔
      ∃ v vs', vs = v :: vs' ∧ Admits numerals b depth nodes value v ∧ count < b .arrayItems ∧
        AdmitsItems numerals b depth (nodes + v.nodes) (count + 1) rest vs' := by
  constructor
  · rintro ⟨denotes, lexemes, sized, size, few, shallow⟩
    simp only [Items.values?, Option.bind_eq_bind, Option.bind_eq_some_iff] at denotes
    obtain ⟨v, denotes, vs', denotes', same⟩ := denotes
    obtain rfl := Option.some.inj same
    obtain ⟨first, later⟩ := List.forall_mem_append.mp lexemes
    simp only [nodesItems, depthItems, List.length_cons] at few shallow size
    exact ⟨v, vs', rfl, ⟨denotes, first, sized.1, by omega, by omega⟩, by omega,
      denotes', later, sized.2, by omega, by omega, by omega⟩
  · rintro ⟨v, vs', rfl, admits, -, rest⟩
    have few := rest.nodes
    have size := rest.count
    have shallow := rest.depth
    have shallow' := admits.depth
    refine ⟨?_, List.forall_mem_append.mpr ⟨admits.lexemes, rest.lexemes⟩,
      ⟨admits.sized, rest.sized⟩, ?_, ?_, ?_⟩
    · simp [Items.values?, admits.denotes, rest.denotes]
    all_goals simp only [nodesItems, depthItems, List.length_cons]; omega

theorem admitsMembers_last {before gap space after : Blank} {name : List Piece} {value : Text}
    {opener : UInt8} {ms : List (Bytes × JsonValue)} :
    AdmitsMembers numerals b depth nodes count seen
        (.last before opener name gap space value after) ms ↔
      ∃ v, ms = [(Pieces.value name, v)] ∧ Admits numerals b depth nodes value v ∧
        (Pieces.value name).length ≤ b .keyBytes ∧ Pieces.value name ∉ seen ∧
        count < b .objectMembers := by
  constructor
  · rintro ⟨denotes, lexemes, sized, -, fresh, size, few, shallow⟩
    obtain ⟨v, value, rfl⟩ := Option.map_eq_some_iff.mp denotes
    simp only [nodesMembers, depthMembers, List.length_singleton] at few shallow size
    exact ⟨v, rfl, ⟨value, lexemes, sized.2.1, by omega, by omega⟩, sized.1, fresh _ (by simp),
      by omega⟩
  · rintro ⟨v, rfl, ⟨denotes, lexemes, sized, few, shallow⟩, short, fresh, size⟩
    refine ⟨?_, lexemes, ⟨short, sized, trivial⟩, by simp, by simpa using fresh, size,
      by simpa [nodesMembers] using few, by simpa [depthMembers] using shallow⟩
    rw [Members.values?, denotes]
    rfl

theorem admitsMembers_more {before gap space after : Blank} {name : List Piece} {value : Text}
    {opener : UInt8} {rest : Members} {ms : List (Bytes × JsonValue)} :
    AdmitsMembers numerals b depth nodes count seen
        (.more before opener name gap space value after rest) ms ↔
      ∃ v ms', ms = (Pieces.value name, v) :: ms' ∧ Admits numerals b depth nodes value v ∧
        (Pieces.value name).length ≤ b .keyBytes ∧ Pieces.value name ∉ seen ∧
        count < b .objectMembers ∧
        AdmitsMembers numerals b depth (nodes + v.nodes) (count + 1) (Pieces.value name :: seen)
          rest ms' := by
  constructor
  · rintro ⟨denotes, lexemes, sized, unique, fresh, size, few, shallow⟩
    simp only [Members.values?, Option.bind_eq_bind, Option.bind_eq_some_iff] at denotes
    obtain ⟨v, denotes, ms', denotes', same⟩ := denotes
    obtain rfl := Option.some.inj same
    obtain ⟨first, later⟩ := List.forall_mem_append.mp lexemes
    simp only [nodesMembers, depthMembers, List.length_cons] at few shallow size
    rw [List.map_cons, List.nodup_cons] at unique
    rw [List.map_cons, List.forall_mem_cons] at fresh
    refine ⟨v, ms', rfl, ⟨denotes, first, sized.2.1, by omega, by omega⟩, sized.1,
      fresh.1, by omega, denotes', later, sized.2.2, unique.2,
      fun key member => ?_, by omega, by omega, by omega⟩
    rw [List.mem_cons, not_or]
    exact ⟨fun same => unique.1 (same ▸ member), fresh.2 key member⟩
  · rintro ⟨v, ms', rfl, admits, short, new, -, rest⟩
    have few := rest.nodes
    have size := rest.count
    have shallow := rest.depth
    have shallow' := admits.depth
    refine ⟨?_, List.forall_mem_append.mpr ⟨admits.lexemes, rest.lexemes⟩,
      ⟨short, admits.sized, rest.sized⟩, ?_, ?_, ?_, ?_, ?_⟩
    · simp [Members.values?, admits.denotes, rest.denotes]
    · rw [List.map_cons, List.nodup_cons]
      exact ⟨fun member => rest.fresh _ member List.mem_cons_self, rest.unique⟩
    · rw [List.map_cons, List.forall_mem_cons]
      exact ⟨new, fun key member known =>
        rest.fresh key member (List.mem_cons_of_mem _ known)⟩
    all_goals simp only [nodesMembers, depthMembers, List.length_cons]; omega

end Admits

/-! ## The recursion -/

section Recursion

variable {numerals : Numerals}

theorem dropBlank_dropBlank (bs : Bytes) : dropBlank (dropBlank bs) = dropBlank bs :=
  List.dropWhile_idempotent isBlank bs

/-- A loop skips the whitespace in front again. -/
theorem arrayLoop_skip (n depth nodes : Nat) (arr : List JsonValue) (bs : Bytes) :
    arrayLoop numerals b n depth nodes arr (skipWS bs) =
      arrayLoop numerals b n depth nodes arr bs := by
  cases n with
  | zero => rfl
  | succ n => simp only [arrayLoop, skipWS_eq, dropBlank_dropBlank]

theorem objectLoop_skip (n depth nodes : Nat) (obj : List (Bytes × JsonValue)) (seen : List Bytes)
    (bs : Bytes) : objectLoop numerals b n depth nodes obj seen (skipWS bs) =
      objectLoop numerals b n depth nodes obj seen bs := by
  cases n with
  | zero => rfl
  | succ n => simp only [objectLoop, skipWS_eq, dropBlank_dropBlank]

/-- A leaf counts for itself. -/
theorem admits_leaf {depth nodes : Nat} {t : Text} {v w : JsonValue} (denotes : t.value? = some w)
    (noLexemes : t.lexemes = []) (one : w.nodes = 1) (flat : w.depth = 0)
    (room : depth ≤ b .depth) :
    Admits numerals b depth nodes t v ↔ nodes + 1 ≤ b .totalNodes ∧ Sized b w ∧ w = v := by
  constructor
  · rintro ⟨denotes', -, sized, few, -⟩
    obtain rfl := Option.some.inj (denotes.symm.trans denotes')
    exact ⟨by omega, sized, rfl⟩
  · rintro ⟨few, sized, rfl⟩
    refine ⟨denotes, ?_, sized, by omega, by omega⟩
    rw [noLexemes]
    exact fun x member => by cases member

/-- A literal in front is a value. -/
theorem literal_leaf {depth nodes nodes' : Nat} {t : Text} {v w : JsonValue} {rest : Bytes}
    {taken : Option Bytes} (denotes : t.value? = some w) (noLexemes : t.lexemes = [])
    (one : w.nodes = 1) (flat : w.depth = 0) (sized : Sized b w) (room : depth ≤ b .depth) :
    (nodes + 1 ≤ b .totalNodes ∧ taken.map (w, nodes + 1, ·) = some (v, nodes', rest)) ↔
      ∃ u, taken.map (t, ·) = some (u, rest) ∧ Admits numerals b depth nodes u v ∧
        nodes' = nodes + v.nodes := by
  simp only [Option.map_eq_some_iff, Prod.mk.injEq]
  constructor
  · rintro ⟨few, _, known, rfl, rfl, rfl⟩
    exact ⟨t, ⟨_, known, rfl, rfl⟩, (admits_leaf denotes noLexemes one flat room).mpr
      ⟨few, sized, rfl⟩, by rw [one]⟩
  · rintro ⟨_, ⟨_, known, rfl, rfl⟩, admits, rfl⟩
    obtain ⟨few, -, rfl⟩ := (admits_leaf denotes noLexemes one flat room).mp admits
    exact ⟨few, _, known, rfl, by rw [one], rfl⟩

/-- A string in front is a value. -/
theorem string_leaf {depth nodes nodes' : Nat} {v : JsonValue} {bs rest : Bytes}
    (room : depth ≤ b .depth) :
    (nodes + 1 ≤ b .totalNodes ∧ (parseString b false bs).map (fun (s, rest) =>
        (JsonValue.string s, nodes + 1, rest)) = some (v, nodes', rest)) ↔
      ∃ t, (parsePieces bs.length bs).map (fun (ps, rest) => (Text.string ps, rest)) =
        some (t, rest) ∧
        Admits numerals b depth nodes t v ∧ nodes' = nodes + v.nodes := by
  simp only [Option.map_eq_some_iff, Prod.exists, Prod.mk.injEq, parseString_eq_some,
    Bool.false_eq_true, false_or]
  constructor
  · rintro ⟨few, _, _, ⟨ps, read, rfl, size⟩, rfl, rfl, rfl⟩
    have admits : Admits numerals b depth nodes (.string ps) (.string (Pieces.value ps)) :=
      (admits_leaf (w := .string (Pieces.value ps)) rfl rfl rfl rfl room).mpr ⟨few, size, rfl⟩
    exact ⟨.string ps, ⟨ps, _, read, rfl, rfl⟩, admits, rfl⟩
  · rintro ⟨_, ⟨ps, _, read, rfl, rfl⟩, admits, rfl⟩
    obtain ⟨few, size, rfl⟩ :=
      (admits_leaf (w := .string (Pieces.value ps)) rfl rfl rfl rfl room).mp admits
    exact ⟨few, _, _, ⟨ps, read, rfl, size⟩, rfl, rfl, rfl⟩

/-- A number in front is a value. -/
theorem number_leaf (sound : numerals.Sound) {depth nodes nodes' : Nat} {v : JsonValue}
    {bs rest : Bytes} (room : depth ≤ b .depth) :
    (nodes + 1 ≤ b .totalNodes ∧ (parseNumber numerals b bs).map (fun (v, rest) =>
        (v, nodes + 1, rest)) = some (v, nodes', rest)) ↔
      ∃ t, (Lexeme.parse bs).map (fun (x, rest) => (Text.number x, rest)) = some (t, rest) ∧
        Admits numerals b depth nodes t v ∧ nodes' = nodes + v.nodes := by
  have leaf : ∀ {x : Lexeme} {v : JsonValue}, x.value? = some v →
      v.nodes = 1 ∧ v.depth = 0 ∧ Sized b v := by
    intro x v value
    rw [Lexeme.value?] at value
    split at value
    next =>
      obtain ⟨f, -, rfl⟩ := Option.map_eq_some_iff.mp value
      exact ⟨rfl, rfl, trivial⟩
    next =>
      cases value
      exact ⟨rfl, rfl, trivial⟩
  simp only [Option.map_eq_some_iff, Prod.exists, Prod.mk.injEq, parseNumber_eq_some sound]
  constructor
  · rintro ⟨few, _, _, ⟨x, read, within, value⟩, rfl, rfl, rfl⟩
    obtain ⟨one, flat, sized⟩ := leaf value
    refine ⟨.number x, ⟨x, _, read, rfl, rfl⟩, ⟨value, ?_, sized, by omega, by omega⟩, by rw [one]⟩
    exact fun y member => by rwa [List.mem_singleton.mp member]
  · rintro ⟨_, ⟨x, _, read, rfl, rfl⟩, ⟨value, within, sized, few, shallow⟩, rfl⟩
    obtain ⟨one, -, -⟩ := leaf value
    exact ⟨by omega, v, _, ⟨x, read, within x List.mem_cons_self, value⟩, rfl, by rw [one], rfl⟩

/-- An array in front is a value, if the loop reads its items. -/
theorem array_value {loop : Bytes → Option (JsonValue × Nat × Bytes)} {n depth nodes nodes' : Nat}
    {v : JsonValue} {bs rest : Bytes}
    (spec : depth + 1 ≤ b .depth → (loop (skipWS bs) = some (v, nodes', rest) ↔
      ∃ items vs, parseItems n bs = some (items, rest) ∧
        AdmitsItems numerals b (depth + 1) (nodes + 1) 0 items vs ∧ v = .array vs ∧
        nodes' = nodes + 1 + nodesItems vs)) :
    (nodes + 1 ≤ b .totalNodes ∧ depth + 1 ≤ b .depth ∧
        parseArray loop (nodes + 1) bs = some (v, nodes', rest)) ↔
      ∃ t, parseText (n + 1) (0x5B :: bs) = some (t, rest) ∧ Admits numerals b depth nodes t v ∧
        nodes' = nodes + v.nodes := by
  simp only [parseText_bracket, parseArray]
  constructor
  · rintro ⟨few, deep, h⟩
    split at h
    next close =>
      cases h
      obtain ⟨tail, close⟩ := List.head?_eq_some_iff.mp close
      rw [close, List.drop_one, List.tail_cons]
      rw [skipWS_eq] at close
      refine ⟨.emptyArray (takeBlank bs), by rw [close]; rfl, ⟨rfl, ?_, ?_, few, deep⟩, rfl⟩
      · exact fun x member => by cases member
      · exact ⟨Nat.zero_le _, trivial⟩
    next other =>
      obtain ⟨items, vs, read, admits, rfl, rfl⟩ := (spec deep).mp h
      refine ⟨.array items, ?_, admits_array.mpr ⟨vs, rfl, admits⟩, ?_⟩
      · split
        next close => exact absurd (by rw [skipWS_eq, close]; rfl) other
        next => rw [read]; rfl
      · simp only [JsonValue.nodes]
        omega
  · rintro ⟨t, h, admits, rfl⟩
    split at h
    next tail close =>
      cases h
      obtain rfl : v = .array [] := (Option.some.inj admits.denotes).symm
      refine ⟨admits.nodes, admits.depth, ?_⟩
      rw [skipWS_eq, close]
      rfl
    next other =>
      obtain ⟨⟨items, rest'⟩, read, same⟩ := Option.map_eq_some_iff.mp h
      cases same
      obtain ⟨vs, rfl, inside⟩ := admits_array.mp admits
      have few := admits.nodes
      have deep := admits.depth
      simp only [JsonValue.nodes, JsonValue.depth] at few deep
      have room : depth + 1 ≤ b .depth := by omega
      refine ⟨by omega, room, ?_⟩
      rw [if_neg]
      · refine (spec room).mpr ⟨items, vs, read, inside, rfl, ?_⟩
        simp only [JsonValue.nodes]
        omega
      · intro close
        obtain ⟨tail, close⟩ := List.head?_eq_some_iff.mp close
        exact other tail (by rw [← skipWS_eq, close])

/-- An object in front is a value, if the loop reads its members. -/
theorem object_value {loop : Bytes → Option (JsonValue × Nat × Bytes)} {n depth nodes nodes' : Nat}
    {v : JsonValue} {bs rest : Bytes}
    (spec : depth + 1 ≤ b .depth → (loop (skipWS bs) = some (v, nodes', rest) ↔
      ∃ members ms, parseMembers n bs = some (members, rest) ∧
        AdmitsMembers numerals b (depth + 1) (nodes + 1) 0 [] members ms ∧ v = .object ms ∧
        nodes' = nodes + 1 + nodesMembers ms)) :
    (nodes + 1 ≤ b .totalNodes ∧ depth + 1 ≤ b .depth ∧
        parseObject loop (nodes + 1) bs = some (v, nodes', rest)) ↔
      ∃ t, parseText (n + 1) (0x7B :: bs) = some (t, rest) ∧ Admits numerals b depth nodes t v ∧
        nodes' = nodes + v.nodes := by
  simp only [parseText_brace, parseObject]
  constructor
  · rintro ⟨few, deep, h⟩
    split at h
    next close =>
      cases h
      obtain ⟨tail, close⟩ := List.head?_eq_some_iff.mp close
      rw [close, List.drop_one, List.tail_cons]
      rw [skipWS_eq] at close
      refine ⟨.emptyObject (takeBlank bs), by rw [close]; rfl, ⟨rfl, ?_, ?_, few, deep⟩, rfl⟩
      · exact fun x member => by cases member
      · exact ⟨Nat.zero_le _, List.nodup_nil, trivial⟩
    next other =>
      obtain ⟨members, ms, read, admits, rfl, rfl⟩ := (spec deep).mp h
      refine ⟨.object members, ?_, admits_object.mpr ⟨ms, rfl, admits⟩, ?_⟩
      · split
        next close => exact absurd (by rw [skipWS_eq, close]; rfl) other
        next => rw [read]; rfl
      · simp only [JsonValue.nodes]
        omega
  · rintro ⟨t, h, admits, rfl⟩
    split at h
    next tail close =>
      cases h
      obtain rfl : v = .object [] := (Option.some.inj admits.denotes).symm
      refine ⟨admits.nodes, admits.depth, ?_⟩
      rw [skipWS_eq, close]
      rfl
    next other =>
      obtain ⟨⟨members, rest'⟩, read, same⟩ := Option.map_eq_some_iff.mp h
      cases same
      obtain ⟨ms, rfl, inside⟩ := admits_object.mp admits
      have few := admits.nodes
      have deep := admits.depth
      simp only [JsonValue.nodes, JsonValue.depth] at few deep
      have room : depth + 1 ≤ b .depth := by omega
      refine ⟨by omega, room, ?_⟩
      rw [if_neg]
      · refine (spec room).mpr ⟨members, ms, read, inside, rfl, ?_⟩
        simp only [JsonValue.nodes]
        omega
      · intro close
        obtain ⟨tail, close⟩ := List.head?_eq_some_iff.mp close
        exact other tail (by rw [← skipWS_eq, close])

mutual

/-- A value is read exactly when a text is in front that is let through. -/
theorem parseValue_eq_some (sound : numerals.Sound) : ∀ (n : Nat) {depth nodes nodes' : Nat}
    {bs rest : Bytes} {v : JsonValue}, depth ≤ b .depth →
    (parseValue numerals b n depth nodes bs = some (v, nodes', rest) ↔
      ∃ t, parseText n bs = some (t, rest) ∧ Admits numerals b depth nodes t v ∧
      nodes' = nodes + v.nodes)
  | 0, depth, nodes, nodes', bs, rest, v, room => by simp [parseValue, parseText]
  | n + 1, depth, nodes, nodes', [], rest, v, room => by simp [parseValue, parseText]
  | n + 1, depth, nodes, nodes', c :: bs, rest, v, room => by
      simp only [parseValue, Option.bind_eq_bind, List.head?_cons, Option.bind_some,
        Option.bind_eq_some_iff, guard_eq_some, exists_const, List.drop_one, List.tail_cons,
        literal_eq]
      have leaf : ∀ {p q r s : Prop}, ¬q → (p ∧ (q → r) ∧ s ↔ p ∧ s) := by
        intro p q r s no
        simp [no]
      have nested : ∀ {p q r s : Prop}, q → (p ∧ (q → r) ∧ s ↔ p ∧ r ∧ s) := by
        intro p q r s yes
        simp [yes]
      by_cases null : c = 0x6E
      · subst null
        rw [leaf (by decide)]
        exact literal_leaf (t := .null) (w := .null) rfl rfl rfl rfl trivial room
      by_cases true_ : c = 0x74
      · subst true_
        rw [leaf (by decide)]
        exact literal_leaf (t := .boolean true) (w := .boolean true) rfl rfl rfl rfl trivial room
      by_cases false_ : c = 0x66
      · subst false_
        rw [leaf (by decide)]
        exact literal_leaf (t := .boolean false) (w := .boolean false) rfl rfl rfl rfl trivial room
      by_cases quote : c = 0x22
      · subst quote
        rw [leaf (by decide)]
        exact string_leaf room
      by_cases bracket : c = 0x5B
      · subst bracket
        rw [nested (.inl rfl)]
        refine array_value fun room => ?_
        rw [arrayLoop_skip]
        exact arrayLoop_eq_some sound n room
      by_cases brace : c = 0x7B
      · subst brace
        rw [nested (.inr rfl)]
        refine object_value fun room => ?_
        rw [objectLoop_skip]
        exact objectLoop_eq_some sound n room
      rw [leaf (not_or.mpr ⟨bracket, brace⟩)]
      simp only [parseText, null, true_, false_, quote, bracket, brace, if_false]
      by_cases number : c = 0x2D ∨ isDigit c = true
      · rw [if_pos number]
        exact number_leaf sound room
      · rw [not_or, Bool.not_eq_true] at number
        have absent := Lexeme.parse_of_head number.1 number.2 bs
        simp [number, absent]

theorem arrayLoop_eq_some (sound : numerals.Sound) : ∀ (n : Nat) {depth nodes nodes' : Nat}
    {arr : List JsonValue} {bs rest : Bytes} {v : JsonValue}, depth ≤ b .depth →
    (arrayLoop numerals b n depth nodes arr bs = some (v, nodes', rest) ↔
      ∃ items vs, parseItems n bs = some (items, rest) ∧
        AdmitsItems numerals b depth nodes arr.length items vs ∧ v = .array (arr ++ vs) ∧
        nodes' = nodes + nodesItems vs)
  | 0, depth, nodes, nodes', arr, bs, rest, v, room => by simp [arrayLoop, parseItems]
  | n + 1, depth, nodes, nodes', arr, bs, rest, v, room => by
      constructor
      · intro h
        simp only [arrayLoop, Option.bind_eq_bind, Option.bind_eq_some_iff, Prod.exists,
          guard_eq_some, exists_const] at h
        obtain ⟨v₁, nodes₁, rest₁, parsed, size, h⟩ := h
        obtain ⟨t, read, admits, rfl⟩ := (parseValue_eq_some sound n room).mp parsed
        rw [skipWS_eq] at read h
        split at h
        next after comma =>
          obtain ⟨items, vs, readRest, rest', rfl, rfl⟩ := (arrayLoop_eq_some sound n room).mp h
          refine ⟨.more (takeBlank bs) t (takeBlank rest₁) items, v₁ :: vs, ?_,
            admitsItems_more.mpr ⟨v₁, vs, rfl, admits, by omega, ?_⟩, by simp, ?_⟩
          · simp only [parseItems, read, comma, readRest, Option.map_some]
          · simpa using rest'
          · simp only [nodesItems]
            omega
        next after close =>
          cases h
          refine ⟨.last (takeBlank bs) t (takeBlank rest₁), [v₁], ?_,
            admitsItems_last.mpr ⟨v₁, rfl, admits, by omega⟩, rfl, by simp [nodesItems]⟩
          simp only [parseItems, read, close]
        next => cases h
      · rintro ⟨items, vs, h, admits, rfl, rfl⟩
        unfold parseItems at h
        split at h
        next => cases h
        next t rest₁ read =>
          split at h
          next after close =>
            cases h
            obtain ⟨v, rfl, admits, size⟩ := admitsItems_last.mp admits
            have parsed := (parseValue_eq_some sound n room).mpr ⟨t, read, admits, rfl⟩
            simp [arrayLoop, skipWS_eq, parsed, size, close, nodesItems]
          next after comma =>
            obtain ⟨⟨items', rest'⟩, readRest, same⟩ := Option.map_eq_some_iff.mp h
            cases same
            obtain ⟨v, vs', rfl, admits, size, admitsRest⟩ := admitsItems_more.mp admits
            have parsed := (parseValue_eq_some sound n room).mpr ⟨t, read, admits, rfl⟩
            have looped := (@arrayLoop_eq_some sound n _ _ _ (arr ++ [v]) _ _ _ room).mpr
              ⟨items', vs', readRest, by simpa using admitsRest, rfl, rfl⟩
            simp [arrayLoop, skipWS_eq, parsed, size, comma, looped, nodesItems, Nat.add_assoc]
          next => cases h

theorem objectLoop_eq_some (sound : numerals.Sound) : ∀ (n : Nat) {depth nodes nodes' : Nat}
    {obj : List (Bytes × JsonValue)} {seen : List Bytes} {bs rest : Bytes} {v : JsonValue},
    depth ≤ b .depth →
    (objectLoop numerals b n depth nodes obj seen bs = some (v, nodes', rest) ↔
      ∃ members ms, parseMembers n bs = some (members, rest) ∧
        AdmitsMembers numerals b depth nodes obj.length seen members ms ∧ v = .object (obj ++ ms) ∧
        nodes' = nodes + nodesMembers ms)
  | 0, depth, nodes, nodes', obj, seen, bs, rest, v, room => by simp [objectLoop, parseMembers]
  | n + 1, depth, nodes, nodes', obj, seen, bs, rest, v, room => by
      constructor
      · intro h
        unfold objectLoop at h
        split at h
        next bs₁ quote =>
          simp only [Option.bind_eq_bind, Option.bind_eq_some_iff, Prod.exists, guard_eq_some,
            exists_const] at h
          obtain ⟨key, bs₂, named, short, new, h⟩ := h
          obtain ⟨name, readName, rfl, -⟩ := parseString_eq_some.mp named
          rw [skipWS_eq] at quote
          split at h
          next bs₃ colon =>
            simp only [Option.bind_eq_some_iff, Prod.exists, guard_eq_some, exists_const] at h
            obtain ⟨v₁, nodes₁, rest₁, parsed, size, h⟩ := h
            obtain ⟨t, read, admits, rfl⟩ := (parseValue_eq_some sound n room).mp parsed
            rw [skipWS_eq] at colon read h
            split at h
            next after comma =>
              obtain ⟨members, ms, readRest, rest', rfl, rfl⟩ :=
                (objectLoop_eq_some sound n room).mp h
              refine ⟨.more (takeBlank bs) 0x22 name (takeBlank bs₂) (takeBlank bs₃) t
                (takeBlank rest₁) members, (Pieces.value name, v₁) :: ms, ?_,
                admitsMembers_more.mpr ⟨v₁, ms, rfl, admits, by omega, new, by omega, ?_⟩, by simp,
                ?_⟩
              · simp only [parseMembers, quote, readName, colon, read, comma, readRest,
                  Option.map_some]
              · simpa using rest'
              · simp only [nodesMembers]
                omega
            next after close =>
              cases h
              refine ⟨.last (takeBlank bs) 0x22 name (takeBlank bs₂) (takeBlank bs₃) t
                (takeBlank rest₁), [(Pieces.value name, v₁)], ?_,
                admitsMembers_last.mpr ⟨v₁, rfl, admits, by omega, new, by omega⟩, rfl,
                by simp [nodesMembers]⟩
              simp only [parseMembers, quote, readName, colon, read, close]
            next => cases h
          next => cases h
        next => cases h
      · rintro ⟨members, ms, h, admits, rfl, rfl⟩
        unfold parseMembers at h
        split at h
        next bs₁ quote =>
          split at h
          next => cases h
          next name bs₂ readName =>
            split at h
            next bs₃ colon =>
              split at h
              next => cases h
              next t rest₁ read =>
                have named : parseString b true bs₁ = some (Pieces.value name, bs₂) :=
                  parseString_eq_some.mpr ⟨name, readName, rfl, .inl rfl⟩
                split at h
                next after close =>
                  cases h
                  obtain ⟨v, rfl, admits, short, new, size⟩ := admitsMembers_last.mp admits
                  have parsed := (parseValue_eq_some sound n room).mpr ⟨t, read, admits, rfl⟩
                  simp [objectLoop, skipWS_eq, quote, named, short, new, colon, parsed, size, close,
                    nodesMembers]
                next after comma =>
                  obtain ⟨⟨members', rest'⟩, readRest, same⟩ := Option.map_eq_some_iff.mp h
                  cases same
                  obtain ⟨v, ms', rfl, admits, short, new, size, admitsRest⟩ :=
                    admitsMembers_more.mp admits
                  have parsed := (parseValue_eq_some sound n room).mpr ⟨t, read, admits, rfl⟩
                  have looped := (@objectLoop_eq_some sound n _ _ _
                    (obj ++ [(Pieces.value name, v)]) _ _ _ _ room).mpr
                    ⟨members', ms', readRest, by simpa using admitsRest, rfl, rfl⟩
                  simp [objectLoop, skipWS_eq, quote, named, short, new, colon, parsed, size, comma,
                    looped, nodesMembers, Nat.add_assoc]
                next => cases h
            next => cases h
        next => cases h

end

end Recursion

/-! ## Decoding -/

/-- A text the decoder accepts, and its value. -/
structure Accepts (b : Bounds) (t : Text) (v : JsonValue) : Prop where
  denotes : t.value? = some v
  lexemes : Json.LexemesWithin b t.lexemes
  sized : Sized b v
  nodes : v.nodes ≤ b .totalNodes
  depth : v.depth ≤ b .depth

variable {numerals : Numerals}

/-- Every lexeme of the text is taken. -/
def Numerals.TakesAll (numerals : Numerals) (t : Text) : Prop := ∀ x ∈ t.lexemes, numerals.Takes x

theorem admits_zero {t : Text} {v : JsonValue} :
    Admits numerals b 0 0 t v ↔ Accepts b t v ∧ numerals.TakesAll t := by
  constructor
  · rintro ⟨denotes, lexemes, sized, few, shallow⟩
    exact ⟨⟨denotes, fun x member => (lexemes x member).bounded, sized, by omega, by omega⟩,
      fun x member => (lexemes x member).takes⟩
  · rintro ⟨⟨denotes, lexemes, sized, few, shallow⟩, takes⟩
    exact ⟨denotes, fun x member => ⟨lexemes x member, takes x member⟩, sized, by omega, by omega⟩

/-- One value with whitespace around it is read exactly when the bytes are a document of
a text that is accepted and whose lexemes are taken. -/
theorem document_eq_some (sound : numerals.Sound) {data : Bytes} {v : JsonValue} :
    (∃ nodes rest, parseValue numerals b (2 * data.length) 0 0 (skipWS data) =
        some (v, nodes, rest) ∧ skipWS rest = []) ↔
      ∃ t : Text, t.Document data ∧ Accepts b t v ∧ numerals.TakesAll t := by
  simp only [skipWS_eq, Text.document_iff, parseJson]
  constructor
  · rintro ⟨_, rest, parsed, ended⟩
    obtain ⟨t, read, admits, rfl⟩ := (parseValue_eq_some sound _ (Nat.zero_le _)).mp parsed
    have blank := takeBlank_append_dropBlank rest
    rw [ended, List.append_nil] at blank
    exact ⟨t, ⟨takeBlank rest, by rw [blank, read]⟩, admits_zero.mp admits⟩
  · rintro ⟨t, ⟨after, read⟩, accepts⟩
    refine ⟨_, after.val, (parseValue_eq_some sound _ (Nat.zero_le _)).mpr
      ⟨t, read, admits_zero.mpr accepts, rfl⟩, ?_⟩
    have whole := (@blank_append after [] (by simp)).1
    rwa [List.append_nil] at whole

/-- What the decoder accepts under the bounds it resolves. -/
theorem jsonDecode_eq_some (sound : numerals.Sound) {data : Bytes} {v : JsonValue}
    {bounds : BoundsPointer} (resolved : resolveBounds bounds = some b) :
    jsonDecode numerals data bounds = some v ↔
      data.length ≤ b .jsonBytes ∧
        ∃ t : Text, t.Document data ∧ Accepts b t v ∧ numerals.TakesAll t := by
  simp only [jsonDecode, resolved, Option.bind_eq_bind, Option.bind_some, Option.bind_eq_some_iff,
    guard_eq_some, exists_const, Prod.exists, Option.some.injEq, Nat.not_lt, gt_iff_lt]
  refine and_congr_right fun _ => ?_
  rw [← document_eq_some sound]
  constructor
  · rintro ⟨_, nodes, rest, parsed, ended, rfl⟩
    exact ⟨nodes, rest, parsed, ended⟩
  · rintro ⟨nodes, rest, parsed, ended⟩
    exact ⟨v, nodes, rest, parsed, ended, rfl⟩

/-- The decoder returns the value of a document exactly when its text is within the
bounds: no bytes are accepted that the grammar does not derive, and none refused that
it does for anything but a bound. -/
theorem jsonDecode_iff (numerals : Numerals) (exact_ : numerals.Exact) (data : Bytes)
    (bounds : BoundsPointer) (v : JsonValue) : jsonDecode numerals data bounds = some v ↔
      ∃ b, resolveBounds bounds = some b ∧ data.length ≤ b .jsonBytes ∧
        ∃ t : Text, t.Document data ∧ Accepts b t v := by
  cases resolved : resolveBounds bounds with
  | none => simp [jsonDecode, resolved]
  | some b =>
      rw [jsonDecode_eq_some exact_.sound resolved]
      have takes : ∀ t : Text, numerals.TakesAll t := fun _ x _ => exact_.takes x
      simp only [takes, and_true, Option.some.injEq, exists_eq_left']

/-- The double nearest to a lexeme. -/
def roundLexeme (x : Lexeme) : Option F64 := F64.ofDecimal x.negative x.coefficient x.scale

/-- Readers that go by the grammar. -/
def Numerals.ofGrammar : Numerals where
  setString bs := (Lexeme.parse bs).bind fun found => some (rational found.1)
  parseFloat bs := (Lexeme.parse bs).bind fun found => roundLexeme found.1

theorem parse_render_bind {β : Type} (f : Lexeme → Option β) (x : Lexeme) :
    ((Lexeme.parse x.render).bind fun found => f found.1) = f x := by
  rw [Lexeme.parse_render_self, Option.bind_some]

theorem Numerals.exact_ofGrammar : Numerals.ofGrammar.Exact where
  setString := parse_render_bind fun x => some (rational x)
  parseFloat := parse_render_bind roundLexeme

/-- An integer, a fraction and an escaped letter. -/
theorem jsonDecode_iff_sample :
    let data := ascii " [1, -2.5e1, \"\\u0041\"]"
    ∃ v t, jsonDecode .ofGrammar data none = some v ∧ t.Document data ∧ Accepts .maximum t v := by
  intro data
  have some_ : (jsonDecode .ofGrammar data none).isSome = true := by decide +kernel
  obtain ⟨v, decoded⟩ := Option.isSome_iff_exists.mp some_
  obtain ⟨b, resolved, -, t, document, accepts⟩ :=
    (jsonDecode_iff _ Numerals.exact_ofGrammar data none v).mp decoded
  obtain rfl := Option.some.inj resolved
  exact ⟨v, t, decoded, document, accepts⟩

end BoundedAuthority.Go
