import BoundedAuthority.Wire.Bytes

/-!
# UTF-8 and UTF-16

A Lean `Char` is a Unicode scalar value, and `String.utf8EncodeChar` is its
UTF-8 form.  `Utf8.decodeFirst` reads one scalar value back: it takes as many
octets as the first one announces and keeps the value only when encoding it
gives those octets again.  That refuses every ill-formed sequence, overlong
forms, surrogates and values above `U+10FFFF` included.

UTF-8 is self-synchronizing: an encoded scalar value inside a well-formed string
splits it into two well-formed strings (`Utf8.decode_split`).  A reader that
collects raw octets and decoded escapes in one buffer, and looks at the buffer
only at the end, therefore sees exactly the well-formed pieces.

`Utf16.key` is the big-endian UTF-16 form, which orders strings by their code
units.
-/

namespace Wire

namespace Utf8

/-- The UTF-8 form of a sequence of scalar values. -/
def encode (cs : List Char) : Bytes := cs.flatMap String.utf8EncodeChar

/-- How many octets the first octet of a sequence announces. -/
def sequenceLength (lead : UInt8) : Nat :=
  if lead < 0x80 then 1 else if lead < 0xE0 then 2 else if lead < 0xF0 then 3 else 4

/-- The number the payload bits of a sequence spell. -/
def payload : Bytes → Nat
  | [a] => a.toNat
  | [a, b] => a.toNat % 32 * 64 + b.toNat % 64
  | [a, b, c] => (a.toNat % 16 * 64 + b.toNat % 64) * 64 + c.toNat % 64
  | [a, b, c, d] => ((a.toNat % 8 * 64 + b.toNat % 64) * 64 + c.toNat % 64) * 64 + d.toNat % 64
  | _ => 0

/-- The first scalar value of a byte string and what follows it. -/
def decodeFirst : Bytes → Option (Char × Bytes)
  | [] => none
  | lead :: rest =>
      let sequence := (lead :: rest).take (sequenceLength lead)
      let c := Char.ofNat (payload sequence)
      if String.utf8EncodeChar c = sequence then
        some (c, (lead :: rest).drop (sequenceLength lead))
      else none

/-- The scalar values of a byte string, at most `n` of them. -/
def decodeUpTo : Nat → Bytes → Option (List Char)
  | _, [] => some []
  | 0, _ :: _ => none
  | n + 1, b :: bs =>
      match decodeFirst (b :: bs) with
      | none => none
      | some (c, rest) => (decodeUpTo n rest).map (c :: ·)

/-- The scalar values of a well-formed byte string. -/
def decode (bs : Bytes) : Option (List Char) := decodeUpTo bs.length bs

/-- `String.valid?`, `std::str::from_utf8` and `utf8.Valid`: the bytes are
well-formed UTF-8. -/
def valid (bs : Bytes) : Bool := (decode bs).isSome

/-! ## One scalar value -/

@[simp] theorem encode_nil : encode [] = [] := rfl

@[simp] theorem encode_cons (c : Char) (cs : List Char) :
    encode (c :: cs) = String.utf8EncodeChar c ++ encode cs := rfl

@[simp] theorem encode_append (cs ds : List Char) : encode (cs ++ ds) = encode cs ++ encode ds := by
  simp [encode]

/-- A continuation octet, `10xxxxxx`. -/
def Continuation (b : UInt8) : Prop := 0x80 ≤ b ∧ b < 0xC0

theorem sequenceLength_eq_two {b : UInt8} (low : 0x80 ≤ b.toNat) (high : b.toNat < 0xE0) :
    sequenceLength b = 2 := by
  simp only [sequenceLength, UInt8.lt_iff_toNat_lt, UInt8.reduceToNat]
  rw [if_neg (by omega), if_pos (by omega)]

theorem sequenceLength_eq_three {b : UInt8} (low : 0xE0 ≤ b.toNat) (high : b.toNat < 0xF0) :
    sequenceLength b = 3 := by
  simp only [sequenceLength, UInt8.lt_iff_toNat_lt, UInt8.reduceToNat]
  rw [if_neg (by omega), if_neg (by omega), if_pos (by omega)]

theorem sequenceLength_eq_four {b : UInt8} (low : 0xF0 ≤ b.toNat) : sequenceLength b = 4 := by
  simp only [sequenceLength, UInt8.lt_iff_toNat_lt, UInt8.reduceToNat]
  rw [if_neg (by omega), if_neg (by omega), if_neg (by omega)]

/-- The shapes of an encoded scalar value: the first octet announces the length
and is no continuation, the others are continuations, and the payload is the
value. -/
theorem encodeChar_shape (c : Char) :
    ∃ lead tail, String.utf8EncodeChar c = lead :: tail ∧
      ¬ Continuation lead ∧ (∀ b ∈ tail, Continuation b) ∧
      sequenceLength lead = tail.length + 1 ∧ payload (lead :: tail) = c.toNat := by
  have small : c.toNat < 0x110000 := by
    rcases c.valid with h | h
    · exact Nat.lt_trans h (by decide)
    · exact h.2
  have toNat : ∀ n, n < 256 → (UInt8.ofNat n).toNat = n := fun n h => by
    simp [Nat.mod_eq_of_lt h]
  unfold String.utf8EncodeChar
  simp only [show c.val.toNat = c.toNat from rfl]
  generalize c.toNat = v at small
  split
  next h =>
    refine ⟨_, _, rfl, ?_, by simp, ?_, ?_⟩
    · simp only [Continuation, UInt8.le_iff_toNat_le, UInt8.lt_iff_toNat_lt]
      rw [toNat v (by omega)]
      simp; omega
    · simp only [sequenceLength, UInt8.lt_iff_toNat_lt]
      rw [toNat v (by omega)]
      simp; omega
    · simp only [payload]
      rw [toNat v (by omega)]
  next h1 =>
    split
    next h2 =>
      refine ⟨_, _, rfl, ?_, ?_, ?_, ?_⟩
      · simp only [Continuation, UInt8.le_iff_toNat_le, UInt8.lt_iff_toNat_lt]
        rw [toNat _ (by omega)]
        simp
      · simp only [List.mem_singleton, forall_eq, Continuation, UInt8.le_iff_toNat_le,
          UInt8.lt_iff_toNat_lt]
        rw [toNat _ (by omega)]
        simp; omega
      · exact sequenceLength_eq_two (by rw [toNat _ (by omega)]; omega)
          (by rw [toNat _ (by omega)]; omega)
      · simp only [payload]
        rw [toNat _ (by omega), toNat _ (by omega)]
        omega
    next h2 =>
      split
      next h3 =>
        refine ⟨_, _, rfl, ?_, ?_, ?_, ?_⟩
        · simp only [Continuation, UInt8.le_iff_toNat_le, UInt8.lt_iff_toNat_lt]
          rw [toNat _ (by omega)]
          simp
        · simp only [List.mem_cons, List.not_mem_nil, or_false, forall_eq_or_imp, forall_eq,
            Continuation, UInt8.le_iff_toNat_le, UInt8.lt_iff_toNat_lt]
          rw [toNat _ (by omega), toNat _ (by omega)]
          simp; omega
        · exact sequenceLength_eq_three (by rw [toNat _ (by omega)]; omega)
            (by rw [toNat _ (by omega)]; omega)
        · simp only [payload]
          rw [toNat _ (by omega), toNat _ (by omega), toNat _ (by omega)]
          omega
      next h3 =>
        refine ⟨_, _, rfl, ?_, ?_, ?_, ?_⟩
        · simp only [Continuation, UInt8.le_iff_toNat_le, UInt8.lt_iff_toNat_lt]
          rw [toNat _ (by omega)]
          simp
        · simp only [List.mem_cons, List.not_mem_nil, or_false, forall_eq_or_imp, forall_eq,
            Continuation, UInt8.le_iff_toNat_le, UInt8.lt_iff_toNat_lt]
          rw [toNat _ (by omega), toNat _ (by omega), toNat _ (by omega)]
          simp; omega
        · exact sequenceLength_eq_four (by rw [toNat _ (by omega)]; omega)
        · simp only [payload]
          rw [toNat _ (by omega), toNat _ (by omega), toNat _ (by omega), toNat _ (by omega)]
          omega

theorem encodeChar_ne_nil (c : Char) : String.utf8EncodeChar c ≠ [] := by
  obtain ⟨lead, tail, h, _⟩ := encodeChar_shape c
  simp [h]

/-- Reading back one encoded scalar value. -/
@[simp] theorem decodeFirst_encodeChar (c : Char) (rest : Bytes) :
    decodeFirst (String.utf8EncodeChar c ++ rest) = some (c, rest) := by
  obtain ⟨lead, tail, h, _, _, length, value⟩ := encodeChar_shape c
  rw [h, List.cons_append]
  have take : (lead :: (tail ++ rest)).take (sequenceLength lead) = lead :: tail := by
    simp [length]
  have drop : (lead :: (tail ++ rest)).drop (sequenceLength lead) = rest := by
    simp [length]
  simp only [decodeFirst, take, drop, value, Char.ofNat_toNat, h, if_true]

/-- What is read back is the encoding of the value read. -/
theorem eq_of_decodeFirst {bs rest : Bytes} {c : Char} (h : decodeFirst bs = some (c, rest)) :
    bs = String.utf8EncodeChar c ++ rest := by
  cases bs with
  | nil => simp [decodeFirst] at h
  | cons lead tail =>
      simp only [decodeFirst] at h
      split at h
      next same =>
        obtain ⟨rfl, rfl⟩ := Prod.mk.injEq .. ▸ Option.some.inj h
        rw [same, List.take_append_drop]
      next => cases h

/-! ## Whole strings -/

theorem decodeUpTo_encode (cs : List Char) :
    ∀ n, (encode cs).length ≤ n → decodeUpTo n (encode cs) = some cs := by
  induction cs with
  | nil => intro n _; cases n <;> rfl
  | cons c cs ih =>
      intro n hn
      obtain ⟨lead, tail, h, _⟩ := encodeChar_shape c
      rw [encode_cons] at hn ⊢
      cases n with
      | zero => simp [h] at hn
      | succ n =>
          have read := decodeFirst_encodeChar c (encode cs)
          rw [h, List.cons_append] at read ⊢
          rw [decodeUpTo, read]
          simp only [h, List.cons_append, List.length_cons, List.length_append] at hn
          simp [ih n (by omega)]

theorem eq_of_decodeUpTo :
    ∀ {n : Nat} {bs : Bytes} {cs : List Char}, decodeUpTo n bs = some cs → bs = encode cs
  | n, [], cs, h => by
      cases n <;> · cases h; rfl
  | 0, _ :: _, _, h => by cases h
  | n + 1, b :: bs, cs, h => by
      rw [decodeUpTo] at h
      split at h
      next => cases h
      next c rest read =>
        obtain ⟨cs', h', rfl⟩ := Option.map_eq_some_iff.mp h
        rw [eq_of_decodeFirst read, encode_cons, eq_of_decodeUpTo h']

/-- Decoding and encoding are inverse. -/
theorem decode_eq_some {bs : Bytes} {cs : List Char} : decode bs = some cs ↔ bs = encode cs := by
  constructor
  · exact eq_of_decodeUpTo
  · rintro rfl
    exact decodeUpTo_encode cs _ (Nat.le_refl _)

@[simp] theorem decode_encode (cs : List Char) : decode (encode cs) = some cs :=
  decode_eq_some.mpr rfl

theorem valid_iff {bs : Bytes} : valid bs = true ↔ ∃ cs, bs = encode cs := by
  simp only [valid, Option.isSome_iff_exists, decode_eq_some]

@[simp] theorem valid_encode (cs : List Char) : valid (encode cs) = true :=
  valid_iff.mpr ⟨cs, rfl⟩

set_option maxRecDepth 4096 in
/-- ASCII is well-formed, one octet for each scalar value. -/
theorem decode_ascii {bs : Bytes} (h : ∀ b ∈ bs, b < 0x80) :
    decode bs = some (bs.map fun b => Char.ofNat b.toNat) := by
  refine decode_eq_some.mpr ?_
  induction bs with
  | nil => rfl
  | cons b bs ih =>
      have one : b < 0x80 → String.utf8EncodeChar (Char.ofNat b.toNat) = [b] :=
        byte_forall (P := fun b => b < 0x80 → String.utf8EncodeChar (Char.ofNat b.toNat) = [b])
          (by decide) b
      rw [List.map_cons, encode_cons, one (h b List.mem_cons_self),
        ← ih fun c hc => h c (List.mem_cons_of_mem _ hc)]
      rfl

theorem valid_ascii {bs : Bytes} (h : ∀ b ∈ bs, b < 0x80) : valid bs = true := by
  rw [valid, decode_ascii h]
  rfl

/-! ## Self-synchronization -/

/-- An encoded scalar value inside a well-formed string starts where a scalar
value of that string starts. -/
theorem decode_split (c : Char) (right : Bytes) :
    ∀ (cs : List Char) (left : Bytes), encode cs = left ++ String.utf8EncodeChar c ++ right →
      ∃ before after, cs = before ++ c :: after ∧ left = encode before ∧ right = encode after
  | [], left, h => by
      have := encodeChar_ne_nil c
      simp_all
  | d :: cs, left, h => by
      rw [encode_cons, List.append_assoc] at h
      obtain ⟨lead, tail, hc, notContinuation, _⟩ := encodeChar_shape c
      obtain ⟨lead', tail', hd, _, continuations, _⟩ := encodeChar_shape d
      rcases List.append_eq_append_iff.mp h with ⟨left', hleft, hrest⟩ | ⟨middle, hsplit, hrest⟩
      · -- `d` ends before `c` starts
        rw [← List.append_assoc] at hrest
        obtain ⟨before, after, rfl, rfl, rfl⟩ := decode_split c right cs left' hrest
        exact ⟨d :: before, after, rfl, by simp [hleft], rfl⟩
      · cases left with
        | nil =>
            -- `c` starts where `d` does
            have read := decodeFirst_encodeChar d (encode cs)
            rw [h, List.nil_append, decodeFirst_encodeChar c right] at read
            cases read
            exact ⟨[], cs, rfl, rfl, rfl⟩
        | cons l left =>
            cases middle with
            | nil =>
                simp only [List.nil_append, List.append_nil] at hsplit hrest
                obtain ⟨before, after, rfl, hb, ha⟩ :=
                  decode_split c right cs [] (by simpa using hrest.symm)
                have : before = [] := by
                  cases before with
                  | nil => rfl
                  | cons b bs =>
                      have := encodeChar_ne_nil b
                      simp_all
                subst this
                exact ⟨[d], after, rfl, by simp [hsplit], ha⟩
            | cons m middle =>
                -- the first octet of `c` would be a continuation of `d`
                rw [hd, List.cons_append, List.cons.injEq] at hsplit
                rw [hc, List.cons_append, List.cons_append, List.cons.injEq] at hrest
                have : Continuation lead := by
                  apply continuations
                  rw [hsplit.2, hrest.1]
                  simp
                exact absurd this notContinuation

/-- A string around an encoded scalar value is well-formed exactly when both
sides are. -/
theorem valid_around {left right : Bytes} {c : Char} :
    valid (left ++ String.utf8EncodeChar c ++ right) = true ↔
      valid left = true ∧ valid right = true := by
  simp only [valid_iff]
  constructor
  · rintro ⟨cs, h⟩
    obtain ⟨before, after, _, hl, hr⟩ := decode_split c right cs left h.symm
    exact ⟨⟨before, hl⟩, ⟨after, hr⟩⟩
  · rintro ⟨⟨before, rfl⟩, ⟨after, rfl⟩⟩
    exact ⟨before ++ c :: after, by simp⟩

end Utf8

namespace Utf16

/-- The code units of a scalar value: one, or a surrogate pair. -/
def ofChar (c : Char) : List Nat :=
  if c.toNat < 0x10000 then [c.toNat]
  else [0xD800 + (c.toNat - 0x10000) / 0x400, 0xDC00 + (c.toNat - 0x10000) % 0x400]

/-- The code units of a UTF-8 string.  Ill-formed input has none. -/
def units (bs : Bytes) : List Nat := ((Utf8.decode bs).getD []).flatMap ofChar

/-- Code units ordered by their first difference, a proper prefix first. -/
def le : List Nat → List Nat → Bool
  | [], _ => true
  | _ :: _, [] => false
  | u :: us, v :: vs => if u < v then true else if v < u then false else le us vs

/-- The big-endian octets of one code unit. -/
def octets (unit : Nat) : Bytes := [UInt8.ofNat (unit / 256), UInt8.ofNat (unit % 256)]

/-- The big-endian UTF-16 form of a UTF-8 string. -/
def key (bs : Bytes) : Bytes := (units bs).flatMap octets

theorem ofChar_lt (c : Char) : ∀ u ∈ ofChar c, u < 0x10000 := by
  have small : c.toNat < 0x110000 := by
    rcases c.valid with h | h
    · exact Nat.lt_trans h (by decide)
    · exact h.2
  unfold ofChar
  split <;> simp <;> omega

theorem units_lt (bs : Bytes) : ∀ u ∈ units bs, u < 0x10000 := by
  intro u hu
  obtain ⟨c, -, hc⟩ := List.mem_flatMap.mp hu
  exact ofChar_lt c u hc

/-- Octets are ordered as the code units. -/
theorem leBytes_octets : ∀ (us vs : List Nat), (∀ u ∈ us, u < 0x10000) → (∀ v ∈ vs, v < 0x10000) →
    leBytes (us.flatMap octets) (vs.flatMap octets) = le us vs
  | [], vs, _, _ => by simp [leBytes, le]
  | u :: us, [], _, _ => by simp [leBytes, octets, le]
  | u :: us, v :: vs, hu, hv => by
      have ih := leBytes_octets us vs
        (fun w hw => hu w (List.mem_cons_of_mem _ hw))
          (fun w hw => hv w (List.mem_cons_of_mem _ hw))
      have smallU := hu u List.mem_cons_self
      have smallV := hv v List.mem_cons_self
      have toNat : ∀ n, n < 256 → (UInt8.ofNat n).toNat = n := fun n h => by
        simp [Nat.mod_eq_of_lt h]
      rw [le, ← ih]
      simp only [List.flatMap_cons, octets, List.cons_append, List.nil_append, leBytes,
        UInt8.lt_iff_toNat_lt, toNat _ (show u / 256 < 256 by omega),
        toNat _ (show v / 256 < 256 by omega), toNat _ (Nat.mod_lt u (show 0 < 256 by decide)),
        toNat _ (Nat.mod_lt v (show 0 < 256 by decide))]
      rcases lt_trichotomy u v with lt | rfl | gt
      · have : u / 256 < v / 256 ∨ u / 256 = v / 256 ∧ u % 256 < v % 256 := by omega
        rcases this with h | ⟨h, h'⟩
        · simp [h, lt]
        · simp [h, h', lt]
      · simp
      · have : v / 256 < u / 256 ∨ u / 256 = v / 256 ∧ v % 256 < u % 256 := by omega
        rcases this with h | ⟨h, h'⟩
        · simp [h, gt, Nat.not_lt.mpr (Nat.le_of_lt h), Nat.not_lt.mpr (Nat.le_of_lt gt)]
        · simp [h, h', gt, Nat.not_lt.mpr (Nat.le_of_lt h'), Nat.not_lt.mpr (Nat.le_of_lt gt)]

/-- Keys are ordered as the code units. -/
theorem leBytes_key (a b : Bytes) : leBytes (key a) (key b) = le (units a) (units b) :=
  leBytes_octets _ _ (units_lt a) (units_lt b)

theorem le_antisymm : ∀ {us vs : List Nat}, le us vs = true → le vs us = true → us = vs
  | [], [], _, _ => rfl
  | u :: us, v :: vs, h, h' => by
      rw [le] at h h'
      rcases lt_trichotomy u v with lt | rfl | gt
      · simp [lt, Nat.lt_asymm lt] at h'
      · simp only [Nat.lt_irrefl, if_false] at h h'
        rw [le_antisymm h h']
      · simp [gt, Nat.lt_asymm gt] at h

/-- A unit of a scalar value alone is no surrogate, so the first unit tells how many there are. -/
theorem ofChar_append_injective {c d : Char} {us vs : List Nat}
    (h : ofChar c ++ us = ofChar d ++ vs) : c = d ∧ us = vs := by
  have scalar : ∀ c : Char, c.toNat < 0xD800 ∨ 0xDFFF < c.toNat ∧ c.toNat < 0x110000 :=
    fun c => c.valid
  have first := scalar c
  have second := scalar d
  unfold ofChar at h
  split at h <;> split at h <;> simp only [List.cons_append, List.nil_append, List.cons.injEq] at h
  · exact ⟨Char.toNat_inj.mp h.1, h.2⟩
  · omega
  · omega
  · obtain ⟨high, low, rest⟩ := h
    exact ⟨Char.toNat_inj.mp (by omega), rest⟩

theorem flatMap_ofChar_injective : ∀ {cs ds : List Char},
    cs.flatMap ofChar = ds.flatMap ofChar → cs = ds
  | [], [], _ => rfl
  | [], d :: ds, h => by
      have : ofChar d ≠ [] := by unfold ofChar; split <;> simp
      simp [this] at h
  | c :: cs, [], h => by
      have : ofChar c ≠ [] := by unfold ofChar; split <;> simp
      simp [this] at h
  | c :: cs, d :: ds, h => by
      rw [List.flatMap_cons, List.flatMap_cons] at h
      obtain ⟨rfl, rest⟩ := ofChar_append_injective h
      rw [flatMap_ofChar_injective rest]

/-- Well-formed strings with the same code units are the same. -/
theorem units_injective {a b : Bytes} (valid : Utf8.valid a = true) (valid' : Utf8.valid b = true)
    (h : units a = units b) : a = b := by
  obtain ⟨cs, rfl⟩ := Utf8.valid_iff.mp valid
  obtain ⟨ds, rfl⟩ := Utf8.valid_iff.mp valid'
  simp only [units, Utf8.decode_encode, Option.getD_some] at h
  rw [flatMap_ofChar_injective h]

end Utf16

end Wire
