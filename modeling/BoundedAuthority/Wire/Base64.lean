import BoundedAuthority.Wire.Bytes

/-!
# Unpadded base64url

`encode` writes three octets as four characters of the URL-safe alphabet and
ends with two or three characters and no padding.  `decode` reads it back and
ignores the surplus bits of the last character, so several texts decode to one
byte string; a canonical reader compares with `encode` afterwards.
-/

namespace Wire.Base64

/-- The character of a six-bit value. -/
def character (i : Nat) : UInt8 :=
  if i < 26 then UInt8.ofNat (0x41 + i)
  else if i < 52 then UInt8.ofNat (0x61 + (i - 26))
  else if i < 62 then UInt8.ofNat (0x30 + (i - 52))
  else if i = 62 then 0x2D
  else 0x5F

/-- The six-bit value of a character. -/
def sextet (c : UInt8) : Option Nat :=
  if isUpper c then some (c.toNat - 0x41)
  else if isLower c then some (c.toNat - 0x61 + 26)
  else if isDigit c then some (c.toNat - 0x30 + 52)
  else if c = 0x2D then some 62
  else if c = 0x5F then some 63
  else none

/-- A character of the alphabet. -/
def inAlphabet (c : UInt8) : Bool := isAlnum c || c = 0x5F || c = 0x2D

/-- `Base.url_encode64(bytes, padding: false)` and `base64.RawURLEncoding`. -/
def encode : Bytes → Bytes
  | [] => []
  | [a] => [character (a.toNat / 4), character (a.toNat % 4 * 16)]
  | [a, b] =>
      [character (a.toNat / 4), character (a.toNat % 4 * 16 + b.toNat / 16),
        character (b.toNat % 16 * 4)]
  | a :: b :: c :: rest =>
      character (a.toNat / 4) :: character (a.toNat % 4 * 16 + b.toNat / 16) ::
        character (b.toNat % 16 * 4 + c.toNat / 64) :: character (c.toNat % 64) :: encode rest

/-- `Base.url_decode64(text, padding: false)`. -/
def decode : Bytes → Option Bytes
  | [] => some []
  | [_] => none
  | [c, d] => do
      let x ← sextet c
      let y ← sextet d
      some [UInt8.ofNat (x * 4 + y / 16)]
  | [c, d, e] => do
      let x ← sextet c
      let y ← sextet d
      let z ← sextet e
      some [UInt8.ofNat (x * 4 + y / 16), UInt8.ofNat (y % 16 * 16 + z / 4)]
  | c :: d :: e :: f :: rest => do
      let x ← sextet c
      let y ← sextet d
      let z ← sextet e
      let w ← sextet f
      let tail ← decode rest
      some (UInt8.ofNat (x * 4 + y / 16) :: UInt8.ofNat (y % 16 * 16 + z / 4) ::
        UInt8.ofNat (z % 4 * 64 + w) :: tail)

/-! ## Characters -/

theorem sextet_character {i : Nat} (h : i < 64) : sextet (character i) = some i := by
  have all : ∀ j : Fin 64, sextet (character j) = some j.val := by decide
  exact all ⟨i, h⟩

theorem inAlphabet_character (i : Nat) : inAlphabet (character i) = true := by
  by_cases h : i < 64
  · have all : ∀ j : Fin 64, inAlphabet (character j) = true := by decide
    exact all ⟨i, h⟩
  · have : character i = 0x5F := by
      simp only [character]
      rw [if_neg (by omega), if_neg (by omega), if_neg (by omega), if_neg (by omega)]
    rw [this]
    decide

theorem ofNat_eq {n : Nat} {b : UInt8} (h : n = b.toNat) : UInt8.ofNat n = b := by
  rw [h]
  simp

/-! ## Round trip -/

theorem decode_encode : ∀ bs : Bytes, decode (encode bs) = some bs
  | [] => rfl
  | [a] => by
      have ha := a.toNat_lt
      simp only [encode, decode]
      rw [sextet_character (by omega), sextet_character (by omega)]
      simp only [Option.bind_eq_bind, Option.bind_some]
      rw [ofNat_eq (b := a) (by omega)]
  | [a, b] => by
      have ha := a.toNat_lt
      have hb := b.toNat_lt
      simp only [encode, decode]
      rw [sextet_character (by omega), sextet_character (by omega), sextet_character (by omega)]
      simp only [Option.bind_eq_bind, Option.bind_some]
      rw [ofNat_eq (b := a) (by omega), ofNat_eq (b := b) (by omega)]
  | a :: b :: c :: rest => by
      have ha := a.toNat_lt
      have hb := b.toNat_lt
      have hc := c.toNat_lt
      simp only [encode, decode]
      rw [sextet_character (by omega), sextet_character (by omega), sextet_character (by omega),
        sextet_character (by omega), decode_encode rest]
      simp only [Option.bind_eq_bind, Option.bind_some]
      rw [ofNat_eq (b := a) (by omega), ofNat_eq (b := b) (by omega), ofNat_eq (b := c) (by omega)]

theorem encode_injective {bs cs : Bytes} (h : encode bs = encode cs) : bs = cs := by
  have := decode_encode bs
  rw [h, decode_encode] at this
  exact (Option.some.inj this).symm

/-! ## Size and alphabet -/

/-- Four characters for three octets, and one more than the octets left over. -/
theorem length_encode : ∀ bs : Bytes,
    (encode bs).length = bs.length / 3 * 4 + (if bs.length % 3 = 0 then 0 else bs.length % 3 + 1)
  | [] => rfl
  | [a] => by simp [encode]
  | [a, b] => by simp [encode]
  | a :: b :: c :: rest => by
      have ih := length_encode rest
      have quotient : (rest.length + 3) / 3 = rest.length / 3 + 1 := by omega
      have remainder : (rest.length + 3) % 3 = rest.length % 3 := by omega
      simp only [encode, List.length_cons, ih, quotient, remainder]
      omega

theorem inAlphabet_of_mem_encode : ∀ {bs : Bytes} {c : UInt8}, c ∈ encode bs → inAlphabet c = true
  | [], c, h => by simp [encode] at h
  | [a], c, h => by
      simp only [encode, List.mem_cons, List.not_mem_nil, or_false] at h
      rcases h with rfl | rfl <;> exact inAlphabet_character _
  | [a, b], c, h => by
      simp only [encode, List.mem_cons, List.not_mem_nil, or_false] at h
      rcases h with rfl | rfl | rfl <;> exact inAlphabet_character _
  | a :: b :: d :: rest, c, h => by
      simp only [encode, List.mem_cons] at h
      rcases h with rfl | rfl | rfl | rfl | h
      iterate 4 exact inAlphabet_character _
      exact inAlphabet_of_mem_encode h

/-- No encoded text holds the separator of a compact serialization. -/
theorem dot_notMem_encode (bs : Bytes) : (0x2E : UInt8) ∉ encode bs := fun h =>
  absurd (inAlphabet_of_mem_encode h) (by decide)

theorem encode_eq_nil {bs : Bytes} : encode bs = [] ↔ bs = [] := by
  rcases bs with _ | ⟨a, _ | ⟨b, _ | ⟨c, rest⟩⟩⟩ <;> simp [encode]

end Wire.Base64
