import BoundedAuthority.Wire.Bytes

/-!
# Percent-encoding

RFC 3986, sections 2 and 6.2.2.  A text of single bytes and of octets `%HH` is put in
normal form byte by byte: an escaped octet that needs no escape is decoded, every other
escape keeps its octet and gets digits in upper case.  Which bytes may stand alone and
what becomes of a byte that does are parameters, since a host is lowered and a path is
not (`normalize`).

The normal form is its own (`Rules.normalize_idempotent`), and a byte that is no
hexadecimal digit splits a text into two that are normalized apart
(`Rules.normalize_append`).
-/

namespace Wire.Percent

/-- `unreserved` -/
def isUnreserved (b : UInt8) : Bool := isAlnum b || (ascii "-._~").contains b

/-- `sub-delims` -/
def isSubDelim (b : UInt8) : Bool := (ascii "!$&'()*+,;=").contains b

/-- A letter in lower case. -/
def lower (b : UInt8) : UInt8 := if isUpper b then b + 32 else b

/-- A hexadecimal digit in upper case. -/
def upperHex (b : UInt8) : UInt8 := if within 0x61 0x66 b then b - 32 else b

/-- The octet of two hexadecimal digits. -/
def octet (high low : UInt8) : UInt8 := UInt8.ofNat (hexValue high * 16 + hexValue low)

/-- What an escaped octet is written as. -/
def escaped (literal : UInt8 → UInt8) (high low : UInt8) : Bytes :=
  if isUnreserved (octet high low) then [literal (octet high low)]
  else [0x25, upperHex high, upperHex low]

/-- A text in normal form. -/
def normalize (allowed : UInt8 → Bool) (literal : UInt8 → UInt8) : Bytes → Option Bytes
  | [] => some []
  | b :: rest =>
      if b = 0x25 then
        match rest with
        | high :: low :: rest =>
            if isHex high && isHex low then
              (normalize allowed literal rest).map (escaped literal high low ++ ·)
            else none
        | _ => none
      else if allowed b then (normalize allowed literal rest).map (literal b :: ·)
      else none

example : normalize isUnreserved lower (ascii "A%7e%2f") = some (ascii "a~%2F") := by
  decide +kernel

/-- The octets a text stands for. -/
def decode : Bytes → Bytes
  | [] => []
  | b :: rest =>
      if b = 0x25 then
        match rest with
        | high :: low :: rest => octet high low :: decode rest
        | rest => b :: decode rest
      else b :: decode rest

/-- A text with each escaped unreserved octet decoded and every other escape in upper
case, in one pass. -/
def decodeUnreserved : Bytes → Bytes
  | [] => []
  | b :: rest =>
      if b = 0x25 then
        match rest with
        | high :: low :: later =>
            if isHex high && isHex low then escaped id high low ++ decodeUnreserved later
            else b :: decodeUnreserved (high :: low :: later)
        | rest => b :: decodeUnreserved rest
      else b :: decodeUnreserved rest

/-! ## Bytes -/

set_option maxRecDepth 4096 in
theorem exists_capital {b : UInt8} : isUpper b = true →
    ∃ n : Fin 26, 0x41 + UInt8.ofNat n = b ∧ 0x61 + UInt8.ofNat n = lower b :=
  byte_forall (P := fun b => isUpper b = true →
    ∃ n : Fin 26, 0x41 + UInt8.ofNat n = b ∧ 0x61 + UInt8.ofNat n = lower b) (by decide) b

/-- Lowering changes the 26 capitals and nothing else. -/
theorem lower_forall {P : UInt8 → UInt8 → Prop} (same : ∀ b, isUpper b = false → P b b)
    (capital : ∀ n : Fin 26, P (0x41 + UInt8.ofNat n) (0x61 + UInt8.ofNat n)) (b : UInt8) :
    P b (lower b) := by
  cases upper : isUpper b with
  | false => simpa [lower, upper] using same b upper
  | true =>
      obtain ⟨n, large, small⟩ := exists_capital upper
      rw [← large, large, ← small]
      exact large ▸ capital n

/-- What a capital shares with its small letter. -/
theorem lower_classes (b : UInt8) : lower (lower b) = lower b ∧
    isUnreserved (lower b) = isUnreserved b ∧ isSubDelim (lower b) = isSubDelim b ∧
      isHex (lower b) = isHex b :=
  lower_forall (P := fun b c => lower c = c ∧ isUnreserved c = isUnreserved b ∧
      isSubDelim c = isSubDelim b ∧ isHex c = isHex b)
    (fun b small => ⟨by simp [lower, small], rfl, rfl, rfl⟩) (by decide) b

set_option maxRecDepth 4096 in
/-- What a hexadecimal digit shares with the one in upper case. -/
theorem byte_hex {b : UInt8} : isHex b = true → isHex (upperHex b) = true ∧
    hexValue (upperHex b) = hexValue b ∧ isUnreserved b = true ∧
      within 0x61 0x66 (upperHex b) = false :=
  byte_forall (P := fun b => isHex b = true → isHex (upperHex b) = true ∧
    hexValue (upperHex b) = hexValue b ∧ isUnreserved b = true ∧
      within 0x61 0x66 (upperHex b) = false) (by decide) b

theorem isHex_upperHex {b : UInt8} (h : isHex b = true) : isHex (upperHex b) = true :=
  (byte_hex h).1

theorem hexValue_upperHex {b : UInt8} (h : isHex b = true) : hexValue (upperHex b) = hexValue b :=
  (byte_hex h).2.1

theorem isUnreserved_of_isHex {b : UInt8} (h : isHex b = true) : isUnreserved b = true :=
  (byte_hex h).2.2.1

@[simp] theorem upperHex_upperHex (b : UInt8) : upperHex (upperHex b) = upperHex b := by
  by_cases small : within 0x61 0x66 b = true
  · have raised := (byte_hex (b := b) (by simp [isHex, small])).2.2.2
    rw [upperHex, if_neg (by simp [raised])]
  · have same : upperHex b = b := if_neg small
    rw [same, same]

theorem lower_lower (b : UInt8) : lower (lower b) = lower b := (lower_classes b).1

theorem isUnreserved_lower (b : UInt8) : isUnreserved (lower b) = isUnreserved b :=
  (lower_classes b).2.1

theorem isSubDelim_lower (b : UInt8) : isSubDelim (lower b) = isSubDelim b :=
  (lower_classes b).2.2.1

theorem isHex_lower (b : UInt8) : isHex (lower b) = isHex b := (lower_classes b).2.2.2

/-! ## Normal forms -/

/-- What the parameters of a normal form must keep. -/
structure Rules (allowed : UInt8 → Bool) (literal : UInt8 → UInt8) : Prop where
  percent : allowed 0x25 = false
  unreserved : ∀ b, isUnreserved b = true → allowed b = true
  closed : ∀ b, allowed b = true → allowed (literal b) = true
  stable : ∀ b, literal (literal b) = literal b

variable {allowed : UInt8 → Bool} {literal : UInt8 → UInt8}

theorem normalize_literal {b : UInt8} {rest : Bytes} (percent : b ≠ 0x25)
    (h : allowed b = true) :
    normalize allowed literal (b :: rest) =
      (normalize allowed literal rest).map (literal b :: ·) := by
  rw [normalize.eq_def]
  simp only [if_neg percent, if_pos h]

theorem normalize_escape {high low : UInt8} {rest : Bytes}
    (hex : (isHex high && isHex low) = true) :
    normalize allowed literal (0x25 :: high :: low :: rest) =
      (normalize allowed literal rest).map (escaped literal high low ++ ·) := by
  rw [normalize.eq_def]
  simp only [if_pos, hex]

theorem normalize_malformed {high low : UInt8} {rest : Bytes}
    (hex : ¬(isHex high && isHex low) = true) :
    normalize allowed literal (0x25 :: high :: low :: rest) = none := by
  rw [normalize.eq_def]
  simp only [if_pos, if_neg hex]

theorem normalize_refused {b : UInt8} {rest : Bytes} (percent : b ≠ 0x25)
    (h : ¬allowed b = true) : normalize allowed literal (b :: rest) = none := by
  rw [normalize.eq_def]
  simp only [if_neg percent, if_neg h]

theorem normalize_short {rest : Bytes} (h : ∀ high low later, rest = high :: low :: later → False) :
    normalize allowed literal (0x25 :: rest) = none := by
  cases rest with
  | nil => rfl
  | cons high rest =>
      cases rest with
      | nil => rfl
      | cons low rest => exact (h high low rest rfl).elim

/-- Induction over the texts that have a normal form. -/
theorem normalize_induction {motive : Bytes → Bytes → Prop} (nil : motive [] [])
    (escape : ∀ {high low : UInt8} {rest later : Bytes}, isHex high = true → isHex low = true →
      motive rest later → motive (0x25 :: high :: low :: rest) (escaped literal high low ++ later))
    (single : ∀ {b : UInt8} {rest later : Bytes}, b ≠ 0x25 → allowed b = true →
      motive rest later → motive (b :: rest) (literal b :: later))
    {bs n : Bytes} (h : normalize allowed literal bs = some n) : motive bs n := by
  fun_induction normalize allowed literal bs generalizing n with
  | case1 =>
      cases h
      exact nil
  | case2 high low rest hex ih =>
      obtain ⟨later, found, rfl⟩ := Option.map_eq_some_iff.mp h
      rw [Bool.and_eq_true] at hex
      exact escape hex.1 hex.2 (ih found)
  | case5 b rest percent plain ih =>
      obtain ⟨later, found, rfl⟩ := Option.map_eq_some_iff.mp h
      exact single percent plain (ih found)
  | case3 => cases h
  | case4 => cases h
  | case6 => cases h

/-- Where bytes stand for themselves the normal form is reached in one pass. -/
theorem eq_decodeUnreserved {bs n : Bytes} (h : normalize allowed id bs = some n) :
    n = decodeUnreserved bs := by
  refine normalize_induction (motive := fun bs n => n = decodeUnreserved bs) ?_ ?_ ?_ h
  · rfl
  · intro high low rest later hex hex' ih
    have pass : decodeUnreserved (0x25 :: high :: low :: rest) =
        escaped id high low ++ decodeUnreserved rest := by
      rw [decodeUnreserved.eq_def]
      simp only [if_pos, hex, hex', Bool.and_self]
    rw [ih, pass]
  · intro b rest later percent _ ih
    have pass : decodeUnreserved (b :: rest) = b :: decodeUnreserved rest := by
      rw [decodeUnreserved.eq_def]
      simp only [if_neg percent]
    rw [ih, pass, id]

/-- What a text with a normal form is written in. -/
theorem mem_of_normalize {bs n : Bytes} (h : normalize allowed literal bs = some n) :
    ∀ b ∈ bs, allowed b = true ∨ b = 0x25 ∨ isHex b = true := by
  refine normalize_induction (motive := fun bs _ => ∀ b ∈ bs, allowed b = true ∨ b = 0x25 ∨
    isHex b = true) ?_ ?_ ?_ h
  · simp
  · intro high low rest _ hex hex' ih
    rw [List.forall_mem_cons, List.forall_mem_cons, List.forall_mem_cons]
    exact ⟨.inr (.inl rfl), .inr (.inr hex), .inr (.inr hex'), ih⟩
  · intro b rest _ _ plain ih
    rw [List.forall_mem_cons]
    exact ⟨.inl plain, ih⟩

/-- An escape is written in at least one byte. -/
theorem escaped_ne_nil (high low : UInt8) : escaped literal high low ≠ [] := by
  unfold escaped
  split <;> exact List.cons_ne_nil _ _

/-- Only the empty text becomes empty. -/
theorem normalize_eq_nil {bs : Bytes} (h : normalize allowed literal bs = some []) : bs = [] := by
  refine normalize_induction (motive := fun bs n => n = [] → bs = []) ?_ ?_ ?_ h rfl
  · exact id
  · intro high low rest later _ _ _ empty
    exact (escaped_ne_nil high low (List.append_eq_nil_iff.mp empty).1).elim
  · intro b rest later _ _ _ empty
    cases empty

namespace Rules

variable (rules : Rules allowed literal)

include rules

theorem ne_percent {b : UInt8} (h : allowed b = true) : b ≠ 0x25 := by
  rintro rfl
  rw [rules.percent] at h
  cases h

/-- An escape in normal form is its own. -/
theorem normalize_escaped {high low : UInt8} {rest : Bytes}
    (hex : (isHex high && isHex low) = true) :
    normalize allowed literal (escaped literal high low ++ rest) =
      (normalize allowed literal rest).map (escaped literal high low ++ ·) := by
  simp only [Bool.and_eq_true] at hex
  unfold escaped
  split
  next plain =>
    have allowedByte := rules.closed _ (rules.unreserved _ plain)
    rw [List.singleton_append, normalize_literal (rules.ne_percent allowedByte) allowedByte,
      rules.stable]
    rfl
  next reserved =>
    have upper : (isHex (upperHex high) && isHex (upperHex low)) = true := by
      rw [Bool.and_eq_true]
      exact ⟨isHex_upperHex hex.1, isHex_upperHex hex.2⟩
    have same : octet (upperHex high) (upperHex low) = octet high low := by
      rw [octet, hexValue_upperHex hex.1, hexValue_upperHex hex.2, octet]
    have own : escaped literal (upperHex high) (upperHex low) =
        [0x25, upperHex high, upperHex low] := by
      rw [escaped, same, if_neg reserved, upperHex_upperHex, upperHex_upperHex]
    rw [List.cons_append, List.cons_append, List.singleton_append, normalize_escape upper, own]

/-- A normal form is its own. -/
theorem normalize_idempotent {bs n : Bytes} (h : normalize allowed literal bs = some n) :
    normalize allowed literal n = some n := by
  refine normalize_induction (motive := fun _ n => normalize allowed literal n = some n)
    ?_ ?_ ?_ h
  · rfl
  · intro high low rest later hex hex' ih
    rw [rules.normalize_escaped (by rw [hex, hex']; rfl), ih]
    rfl
  · intro b rest later _ plain ih
    have allowedByte := rules.closed _ plain
    rw [normalize_literal (rules.ne_percent allowedByte) allowedByte, ih, rules.stable]
    rfl

/-- A byte that is no hexadecimal digit ends whatever is before it. -/
theorem normalize_append {a rest : Bytes} {c : UInt8} (plain : allowed c = true)
    (noHex : isHex c = false) :
    normalize allowed literal (a ++ c :: rest) = (normalize allowed literal a).bind fun x =>
      (normalize allowed literal rest).map fun y => x ++ literal c :: y := by
  fun_induction normalize allowed literal a with
  | case1 =>
      rw [List.nil_append, normalize_literal (rules.ne_percent plain) plain]
      rfl
  | case2 high low a hex ih =>
      rw [List.cons_append, List.cons_append, List.cons_append, normalize_escape hex, ih]
      cases normalize allowed literal a with
      | none => rfl
      | some x =>
          cases normalize allowed literal rest with
          | none => rfl
          | some y => simp
  | case3 high low a hex => exact normalize_malformed hex
  | case4 a short =>
      -- the digits the escape lacks cannot come from behind the byte
      have malformed : ∀ low, ¬(isHex c && isHex low) = true := by
        intro low
        simp [noHex]
      have malformed' : ∀ high, ¬(isHex high && isHex c) = true := by
        intro high
        simp [noHex]
      match a, rest with
      | [], [] => rfl
      | [], low :: rest => exact normalize_malformed (malformed low)
      | [high], rest => exact normalize_malformed (malformed' high)
      | high :: low :: a, rest => exact (short high low a rfl).elim
  | case5 b a percent plainByte ih =>
      rw [List.cons_append, normalize_literal percent plainByte, ih]
      cases normalize allowed literal a with
      | none => rfl
      | some x =>
          cases normalize allowed literal rest with
          | none => rfl
          | some y => rfl
  | case6 b a percent refused => exact normalize_refused percent refused

omit rules in
/-- What an escape is written in. -/
theorem mem_escaped {high low b : UInt8} (member : b ∈ escaped literal high low) :
    (isUnreserved (octet high low) = true ∧ b = literal (octet high low)) ∨ b = 0x25 ∨
      b = upperHex high ∨ b = upperHex low := by
  unfold escaped at member
  split at member
  next plain => exact .inl ⟨plain, List.mem_singleton.mp member⟩
  next =>
    simp only [List.mem_cons, List.not_mem_nil, or_false] at member
    exact .inr member

/-- A normal form is written in allowed bytes and percent signs. -/
theorem allowed_of_mem {bs n : Bytes} (h : normalize allowed literal bs = some n) :
    ∀ b ∈ n, allowed b = true ∨ b = 0x25 := by
  refine normalize_induction (motive := fun _ n => ∀ b ∈ n, allowed b = true ∨ b = 0x25)
    ?_ ?_ ?_ h
  · simp
  · intro high low rest later hex hex' ih b member
    have digit : ∀ c : UInt8, isHex c = true → allowed (upperHex c) = true := fun c hex =>
      rules.unreserved _ (isUnreserved_of_isHex (isHex_upperHex hex))
    rcases List.mem_append.mp member with first | later
    · rcases mem_escaped first with ⟨plain, rfl⟩ | same | rfl | rfl
      · exact .inl (rules.closed _ (rules.unreserved _ plain))
      · exact .inr same
      · exact .inl (digit _ hex)
      · exact .inl (digit _ hex')
    · exact ih b later
  · intro b rest later _ plain ih
    rw [List.forall_mem_cons]
    exact ⟨.inl (rules.closed _ plain), ih⟩

omit rules in
/-- A byte that neither stands for another nor is decoded does not come up. -/
theorem notMem_normalize {c : UInt8} (percent : c ≠ 0x25) (reserved : isUnreserved c = false)
    (own : ∀ b, literal b = c → b = c) {bs n : Bytes}
    (h : normalize allowed literal bs = some n) (notMem : c ∉ bs) : c ∉ n := by
  refine normalize_induction (motive := fun bs n => c ∉ bs → c ∉ n) ?_ ?_ ?_ h notMem
  · exact id
  · intro high low rest later hex hex' ih notMem member
    have noHex : ∀ {b : UInt8}, isHex b = true → c ≠ b := by
      rintro b digit rfl
      rw [isUnreserved_of_isHex digit] at reserved
      cases reserved
    rcases List.mem_append.mp member with first | later
    · rcases mem_escaped first with ⟨plain, same⟩ | same | same | same
      · rw [own _ same.symm, reserved] at plain
        cases plain
      · exact percent same
      · exact noHex (isHex_upperHex hex) same
      · exact noHex (isHex_upperHex hex') same
    · exact ih (fun m => notMem (by simp [m])) later
  · intro b rest later _ _ ih notMem
    rw [List.mem_cons, not_or] at notMem ⊢
    exact ⟨fun same => notMem.1 (own b same.symm).symm, ih notMem.2⟩

omit rules in
/-- A normal form without escapes is what the text stands for. -/
theorem eq_decode {bs n : Bytes} (h : normalize allowed literal bs = some n)
    (plain : 0x25 ∉ n ∨ ∀ b ∈ decode bs, isUnreserved b = true) : n = (decode bs).map literal := by
  refine normalize_induction (motive := fun bs n => (0x25 ∉ n ∨ ∀ b ∈ decode bs,
    isUnreserved b = true) → n = (decode bs).map literal) ?_ ?_ ?_ h plain
  · intro _
    rfl
  · intro high low rest later _ _ ih plain
    have decoded : decode (0x25 :: high :: low :: rest) = octet high low :: decode rest := by
      rw [decode.eq_def]
      simp only [if_pos]
    rw [decoded, List.forall_mem_cons] at plain
    have single : isUnreserved (octet high low) = true := by
      rcases plain with none | all
      · unfold escaped at none
        split at none
        next single => exact single
        next => simp at none
      · exact all.1
    rw [escaped, if_pos single, List.singleton_append, List.mem_cons, not_or] at plain
    rw [decoded, escaped, if_pos single, List.singleton_append, List.map_cons,
      ih (plain.imp And.right And.right)]
  · intro b rest later percent _ ih plain
    have decoded : decode (b :: rest) = b :: decode rest := by
      rw [decode.eq_def]
      simp only [if_neg percent]
    rw [decoded, List.forall_mem_cons, List.mem_cons, not_or] at plain
    rw [decoded, List.map_cons, ih (plain.imp And.right And.right)]

end Rules

end Wire.Percent
