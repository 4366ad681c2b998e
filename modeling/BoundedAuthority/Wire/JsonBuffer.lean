import BoundedAuthority.Wire.JsonText

/-!
# String literals read into a buffer

A reader that copies the bytes of a literal into a buffer decodes its escapes and
leaves every other byte as it is, and only the whole buffer has to be well-formed.
Bytes around an escape could be well-formed only together with it, but no escape
stands for a part of a scalar value.  So the reader accepts the literals of the
grammar and no others (`takeBuffer_iff`).
-/

namespace Wire

/-- A byte that is copied. -/
def isCopied (b : UInt8) : Bool := 0x20 ≤ b && b ≠ 0x22 && b ≠ 0x5C

/-- What follows the backslash of an escape. -/
def takeEscape : Bytes → Option (Bytes × Bytes)
  | [] => none
  | letter :: rest =>
      if letter = 0x75 then
        (parseUnit rest).map fun (p, rest) => (String.utf8EncodeChar p.char, rest)
      else (shortEscape letter).map fun c => (String.utf8EncodeChar c, rest)

/-- An escape, or one byte that is copied. -/
def takeChunk : Bytes → Option (Bytes × Bytes)
  | [] => none
  | b :: rest =>
      if b = 0x5C then takeEscape rest
      else if isCopied b then some ([b], rest)
      else none

/-- The buffer at the closing quotation mark, of at most `n` chunks. -/
def takeBuffer : Nat → Bytes → Option (Bytes × Bytes)
  | 0, _ => none
  | n + 1, bs =>
      if bs.head? = some 0x22 then some ([], bs.drop 1)
      else do
        let (chunk, rest) ← takeChunk bs
        let (buffer, rest) ← takeBuffer n rest
        some (chunk ++ buffer, rest)

/-! ## Bytes that are copied -/

set_option maxRecDepth 4096 in
/-- The bytes of a scalar value are copied when it stands for itself. -/
theorem copied_encodeChar (c : Char) :
    (∀ b ∈ String.utf8EncodeChar c, isCopied b = true) ↔ isUnescaped c = true := by
  obtain ⟨lead, tail, shape, notContinuation, continuations, length, value⟩ :=
    Utf8.encodeChar_shape c
  have later : ∀ b ∈ tail, isCopied b = true := by
    intro b member
    have high := (continuations b member).1
    revert high
    exact byte_forall (P := fun b => 0x80 ≤ b → isCopied b = true) (by decide) b
  rw [shape, List.forall_mem_cons, and_iff_left later]
  simp only [isCopied, isUnescaped, Bool.and_eq_true, decide_eq_true_eq, UInt8.le_iff_toNat_le,
    ne_eq, ← UInt8.toNat_inj]
  by_cases one : lead < 0x80
  · obtain rfl : tail = [] := by
      have : tail.length = 0 := by simpa [Utf8.sequenceLength, one] using length.symm
      exact List.length_eq_zero_iff.mp this
    have value : lead.toNat = c.toNat := value
    rw [value]
    rfl
  · have wide : ¬c.toNat ≤ 0x7F := by
      intro small
      have small : c.val.toNat ≤ 0x7F := small
      have short : String.utf8EncodeChar c = [UInt8.ofNat c.toNat] := by
        rw [String.utf8EncodeChar, if_pos small]
        rfl
      rw [shape, List.cons.injEq] at short
      apply one
      rw [short.1, UInt8.lt_iff_toNat_lt, UInt8.toNat_ofNat', Nat.mod_eq_of_lt (by omega)]
      exact Nat.lt_succ_of_le small
    rw [UInt8.lt_iff_toNat_lt, Nat.not_lt] at one
    have one : 0x80 ≤ lead.toNat := one
    constructor
    · intro _
      omega
    · intro _
      exact ⟨⟨by simp; omega, by simp; omega⟩, by simp; omega⟩

/-- A well-formed run of copied bytes is a run of scalar values that stand for themselves. -/
theorem pieces_of_run {run : Bytes} (plain : ∀ b ∈ run, isCopied b = true)
    (valid : Utf8.valid run = true) :
    ∃ ps, Pieces.value ps = run ∧ ∀ qs, Pieces.render (ps ++ qs) = run ++ Pieces.render qs := by
  obtain ⟨cs, rfl⟩ := Utf8.valid_iff.mp valid
  induction cs with
  | nil => exact ⟨[], rfl, fun _ => rfl⟩
  | cons c cs ih =>
      rw [Utf8.encode_cons, List.forall_mem_append] at plain
      obtain ⟨ps, value, render⟩ := ih plain.2 (Utf8.valid_encode cs)
      refine ⟨.unescaped c ((copied_encodeChar c).mp plain.1) :: ps, ?_, fun qs => ?_⟩
      · rw [Pieces.value_cons, value]
        rfl
      · rw [List.cons_append, Pieces.render, render, Utf8.encode_cons, List.append_assoc]
        rfl

/-! ## The chunks -/

/-- An escape is a piece. -/
theorem piece_of_takeEscape {bs rest chunk : Bytes} (h : takeEscape bs = some (chunk, rest)) :
    ∃ p : Piece, 0x5C :: bs = p.render ++ rest ∧ chunk = String.utf8EncodeChar p.char := by
  cases bs with
  | nil => cases h
  | cons letter bs =>
      rw [takeEscape] at h
      split at h
      next unicode =>
        obtain ⟨⟨p, rest'⟩, read, same⟩ := Option.map_eq_some_iff.mp h
        cases same
        exact ⟨p, by rw [unicode, eq_of_parseUnit read], rfl⟩
      next =>
        obtain ⟨c, read, same⟩ := Option.map_eq_some_iff.mp h
        cases same
        exact ⟨.short letter c read, rfl, rfl⟩

theorem takeChunk_copied {b : UInt8} (plain : isCopied b = true) (bs : Bytes) :
    takeChunk (b :: bs) = some ([b], bs) := by
  have other : b ≠ 0x5C := by
    rintro rfl
    cases plain
  rw [takeChunk, if_neg other, if_pos plain]

/-- A run of copied bytes in front of a buffer. -/
theorem takeBuffer_run {run : Bytes} (plain : ∀ b ∈ run, isCopied b = true) (n : Nat) (bs : Bytes) :
    takeBuffer (run.length + n) (run ++ bs) =
      (takeBuffer n bs).map fun (buffer, rest) => (run ++ buffer, rest) := by
  induction run with
  | nil => simp
  | cons b run ih =>
      obtain ⟨first, later⟩ := List.forall_mem_cons.mp plain
      have open_ : ¬(b :: (run ++ bs)).head? = some 0x22 := by
        rintro ⟨⟩
        cases first
      have fuel : (b :: run).length + n = run.length + n + 1 := by
        rw [List.length_cons]
        omega
      rw [fuel, List.cons_append, takeBuffer, if_neg open_, takeChunk_copied first]
      simp only [Option.bind_eq_bind, Option.bind_some, ih later]
      cases takeBuffer n bs <;> rfl

/-- A piece that does not stand for itself is an escape. -/
theorem takeEscape_of_piece (p : Piece) : (∃ c plain, p = .unescaped c plain) ∨
    ∃ escape, p.render = 0x5C :: escape ∧
      ∀ bs, takeEscape (escape ++ bs) = some (String.utf8EncodeChar p.char, bs) := by
  cases p with
  | unescaped c plain => exact .inl ⟨c, plain, rfl⟩
  | short letter c known =>
      refine .inr ⟨[letter], rfl, fun bs => ?_⟩
      have other : letter ≠ 0x75 := by
        rintro rfl
        cases known
      rw [List.singleton_append, takeEscape, if_neg other, known]
      rfl
  | unit u plain =>
      refine .inr ⟨0x75 :: u.bytes, rfl, fun bs => ?_⟩
      have read : parseUnit (u.bytes ++ bs) = _ := parsePiece_render (.unit u plain) bs
      rw [List.cons_append, takeEscape, if_pos rfl, read]
      rfl
  | pair high low surrogates =>
      refine .inr ⟨_, rfl, fun bs => ?_⟩
      have read := parsePiece_render (.pair high low surrogates) bs
      rw [List.cons_append, takeEscape, if_pos rfl]
      exact congrArg (Option.map fun (q : Piece × Bytes) => (String.utf8EncodeChar q.1.char, q.2))
        read

/-! ## The buffer -/

/-- More fuel does not change a buffer. -/
theorem takeBuffer_mono {n m : Nat} (le : n ≤ m) {bs : Bytes} {out : Bytes × Bytes}
    (h : takeBuffer n bs = some out) : takeBuffer m bs = some out := by
  induction n generalizing m bs out with
  | zero => cases h
  | succ n ih =>
      obtain ⟨m, rfl⟩ : ∃ k, m = k + 1 := ⟨m - 1, by omega⟩
      rw [takeBuffer] at h ⊢
      split at h
      next close => rw [if_pos close, h]
      next more =>
        rw [if_neg more]
        simp only [Option.bind_eq_bind, Option.bind_eq_some_iff] at h ⊢
        obtain ⟨chunk, taken, buffer, later, same⟩ := h
        exact ⟨chunk, taken, buffer, ih (Nat.le_of_succ_le_succ le) later, same⟩

/-- A piece in front of a buffer. -/
theorem takeBuffer_piece (p : Piece) {n m : Nat} {bs buffer rest : Bytes}
    (h : takeBuffer n bs = some (buffer, rest)) (fuel : p.render.length + n ≤ m) :
    takeBuffer m (p.render ++ bs) = some (String.utf8EncodeChar p.char ++ buffer, rest) := by
  refine takeBuffer_mono fuel ?_
  rcases takeEscape_of_piece p with ⟨c, plain, rfl⟩ | ⟨escape, render, taken⟩
  · rw [Piece.render, takeBuffer_run ((copied_encodeChar c).mpr plain), h]
    rfl
  · have more : ¬(0x5C :: (escape ++ bs)).head? = some 0x22 := by rintro ⟨⟩
    have later := takeBuffer_mono (Nat.le_add_left n escape.length) h
    rw [render, List.length_cons, Nat.add_right_comm, List.cons_append, takeBuffer, if_neg more,
      takeChunk, if_pos rfl, taken]
    simp only [Option.bind_eq_bind, Option.bind_some, later]

/-- The contents of a literal end up in the buffer. -/
theorem takeBuffer_render (ps : List Piece) (rest : Bytes) :
    ∀ n, (Pieces.render ps).length ≤ n →
      takeBuffer n (Pieces.render ps ++ rest) = some (Pieces.value ps, rest) := by
  induction ps with
  | nil =>
      intro n fuel
      refine takeBuffer_mono (show 1 ≤ n from fuel) ?_
      rfl
  | cons p ps ih =>
      intro n fuel
      rw [Pieces.render, List.length_append] at fuel
      rw [Pieces.render, List.append_assoc, Pieces.value_cons]
      exact takeBuffer_piece p (ih _ le_rfl) fuel

/-- A buffer that is well-formed behind a run of copied bytes holds the contents of a
literal. -/
theorem pieces_of_takeBuffer {n : Nat} {run bs buffer rest : Bytes}
    (plain : ∀ b ∈ run, isCopied b = true) (h : takeBuffer n bs = some (buffer, rest))
    (valid : Utf8.valid (run ++ buffer) = true) :
    ∃ ps, run ++ bs = Pieces.render ps ++ rest ∧ run ++ buffer = Pieces.value ps := by
  induction n generalizing run bs buffer with
  | zero => cases h
  | succ n ih =>
      rw [takeBuffer] at h
      split at h
      next close =>
        cases h
        obtain ⟨tail, rfl⟩ : ∃ tail, bs = 0x22 :: tail := List.head?_eq_some_iff.mp close
        rw [List.append_nil] at valid
        obtain ⟨ps, value, render⟩ := pieces_of_run plain valid
        refine ⟨ps, ?_, by rw [List.append_nil, value]⟩
        have closed := render []
        rw [List.append_nil] at closed
        rw [closed, List.append_assoc]
        rfl
      next more =>
        simp only [Option.bind_eq_bind, Option.bind_eq_some_iff, Prod.exists, Option.some.injEq,
          Prod.mk.injEq] at h
        obtain ⟨chunk, bs', taken, buffer', _, later, rfl, rfl⟩ := h
        cases bs with
        | nil => cases taken
        | cons b bs =>
            by_cases escape : b = 0x5C
            · subst escape
              rw [takeChunk, if_pos rfl] at taken
              obtain ⟨p, render, rfl⟩ := piece_of_takeEscape taken
              -- an escape is a whole scalar value, so both of its sides are well-formed
              rw [← List.append_assoc, Utf8.valid_around] at valid
              obtain ⟨ps, value, front⟩ := pieces_of_run plain valid.1
              obtain ⟨qs, same, value'⟩ := @ih [] _ _ (fun b h => by cases h) later valid.2
              rw [List.nil_append] at same value'
              refine ⟨ps ++ p :: qs, ?_, ?_⟩
              · rw [front, Pieces.render, List.append_assoc, List.append_assoc, ← same, render]
              · rw [Pieces.value, List.map_append, Utf8.encode_append, value', ← value]
                rfl
            · rw [takeChunk, if_neg escape] at taken
              split at taken
              next copied =>
                cases taken
                have plain' : ∀ c ∈ run ++ [b], isCopied c = true :=
                  List.forall_mem_append.mpr ⟨plain, by simpa using copied⟩
                obtain ⟨ps, same, value⟩ := ih plain' later (by simpa using valid)
                exact ⟨ps, by simpa using same, by simpa using value⟩
              next => cases taken

/-- The reader accepts the literals of the grammar, with what they stand for. -/
theorem takeBuffer_iff {bs s rest : Bytes} :
    takeBuffer bs.length bs = some (s, rest) ∧ Utf8.valid s = true ↔
      ∃ ps, parsePieces bs.length bs = some (ps, rest) ∧ s = Pieces.value ps := by
  constructor
  · rintro ⟨taken, valid⟩
    obtain ⟨ps, same, value⟩ := @pieces_of_takeBuffer _ [] _ _ _ (fun b h => by cases h) taken valid
    rw [List.nil_append] at same value
    refine ⟨ps, ?_, value⟩
    rw [same]
    refine parsePieces_render ps rest _ ?_
    have := length_pieces_lt ps
    rw [List.length_append]
    omega
  · rintro ⟨ps, read, rfl⟩
    refine ⟨?_, Pieces.valid_value ps⟩
    rw [eq_of_parsePieces read]
    exact takeBuffer_render ps rest _ (by rw [List.length_append]; omega)

end Wire
