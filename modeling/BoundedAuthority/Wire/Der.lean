import BoundedAuthority.Wire.Bytes

/-!
# The distinguished encoding of integers and sequences

X.690 restricted to what a pair of integers needs.  An element is a tag octet, the
length octets and the content octets (`element`).  The length octets are the short
form below `0x80` and the fewest octets of the long form from there on.

The content octets of an integer are its two's complement, the most significant octet
first (`signed`), and as few as possible: the first nine bits are not all equal
(`Minimal`).  For a natural number that means no sign bit and no zero octet in front
but to keep the sign bit clear (`integerContent_natCast`).
-/

namespace Wire.Der

/-! ## Elements -/

/-- The octets of a number, as few as possible. -/
def octets (n : Nat) : Bytes := (Nat.digits 256 n).reverse.map UInt8.ofNat

/-- The length octets of a definite length. -/
def lengthOctets (n : Nat) : Bytes :=
  if n < 0x80 then [UInt8.ofNat n]
  else UInt8.ofNat (0x80 + (octets n).length) :: octets n

/-- One element. -/
def element (tag : UInt8) (content : Bytes) : Bytes :=
  tag :: (lengthOctets content.length ++ content)

theorem element_short {tag : UInt8} {content : Bytes} (short : content.length < 0x80) :
    element tag content = tag :: UInt8.ofNat content.length :: content := by
  rw [element, lengthOctets, if_pos short]
  rfl

/-! ## Integers -/

/-- The number the content octets are as a two's complement. -/
def signed : Bytes → Int
  | [] => 0
  | b :: rest =>
      if b < 0x80 then fromBigEndian (b :: rest)
      else fromBigEndian (b :: rest) - 256 ^ (rest.length + 1)

/-- There are content octets, and the first nine bits are not all equal. -/
def Minimal : Bytes → Prop
  | [] => False
  | [_] => True
  | b :: c :: _ => ¬(b = 0 ∧ c < 0x80) ∧ ¬(b = 0xFF ∧ 0x80 ≤ c)

/-- Content octets of an integer. -/
def IntegerContent (v : Int) (content : Bytes) : Prop := Minimal content ∧ signed content = v

/-- The sign bit is clear, and a zero octet in front only clears it. -/
def Unsigned : Bytes → Prop
  | [] => False
  | [b] => b < 0x80
  | b :: c :: _ => b < 0x80 ∧ (b = 0 → 0x80 ≤ c)

/-- The content octets of a natural number. -/
theorem integerContent_natCast {n : Nat} {content : Bytes} :
    IntegerContent n content ↔ Unsigned content ∧ fromBigEndian content = n := by
  cases content with
  | nil => simp [IntegerContent, Minimal, Unsigned]
  | cons b rest =>
      have small := fromBigEndian_lt (b :: rest)
      rw [List.length_cons] at small
      have value : signed (b :: rest) = n ↔ b < 0x80 ∧ fromBigEndian (b :: rest) = n := by
        rw [signed]
        split
        next clear => simp [clear]
        next set =>
          refine iff_of_false (fun same => ?_) (fun h => set h.1)
          have : (fromBigEndian (b :: rest) : Int) < 256 ^ (rest.length + 1) := by exact_mod_cast
            small
          omega
      rw [IntegerContent, value]
      cases rest with
      | nil => simp [Minimal, Unsigned]
      | cons c rest =>
          simp only [Minimal, Unsigned, not_and, UInt8.not_lt, UInt8.not_le]
          constructor
          · rintro ⟨⟨zero, _⟩, clear, value⟩
            exact ⟨⟨clear, zero⟩, value⟩
          · rintro ⟨⟨clear, zero⟩, value⟩
            refine ⟨⟨zero, ?_⟩, clear, value⟩
            rintro rfl
            exact absurd clear (by decide)

/-- A number below a power of 256 needs one octet more at most, and that is zero. -/
theorem Unsigned.length_le {content : Bytes} {size : Nat} (unsigned : Unsigned content)
    (small : fromBigEndian content < 256 ^ size) : content.length ≤ size + 1 := by
  cases content with
  | nil => exact Nat.zero_le _
  | cons b rest =>
      cases rest with
      | nil => exact Nat.succ_le_succ (Nat.zero_le _)
      | cons c rest =>
          rw [fromBigEndian_cons, fromBigEndian_cons] at small
          by_contra long
          have room : size ≤ rest.length := by
            simp only [List.length_cons, Nat.not_le] at long
            omega
          have power : 256 ^ size ≤ 256 ^ rest.length := Nat.pow_le_pow_right (by decide) room
          -- one of the first two octets is not zero, and either weighs that much
          have heavy : 0 < b.toNat ∨ 0 < c.toNat := by
            by_cases zero : b = 0
            · have set : (0x80 : UInt8).toNat ≤ c.toNat := unsigned.2 zero
              exact .inr (Nat.lt_of_lt_of_le (by decide) set)
            · exact .inl (Nat.pos_of_ne_zero fun h => zero (UInt8.toNat.inj h))
          cases heavy with
          | inl h =>
              have weight : 256 ^ rest.length ≤ b.toNat * 256 ^ (c :: rest).length := by
                rw [List.length_cons, pow_succ]
                nlinarith [Nat.pow_pos (n := rest.length) (show 0 < 256 by decide)]
              omega
          | inr h =>
              have weight : 256 ^ rest.length ≤ c.toNat * 256 ^ rest.length :=
                Nat.le_mul_of_pos_left _ h
              omega

end Wire.Der
