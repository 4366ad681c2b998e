import BoundedAuthority.Wire.Base64

/-!
# base64url in the Go verifier

`sdks/go/base64url.go`.

The decoder is written out by hand.  It puts sextets together with shifts, drops the bits
that are left over, and compares with the encoder in the end, so it reads the canonical
texts and no others (`base64urlDecode_eq_some`).
-/

namespace BoundedAuthority.Go

open Wire

/-- `b64urlAlphabet` -/
def b64urlAlphabet : Bytes :=
  ascii "ABCDEFGHIJKLMNOPQRSTUVWXYZ" ++ ascii "abcdefghijklmnopqrstuvwxyz" ++ ascii "0123456789-_"

/-- `b64urlDecodeTable` -/
def b64urlDecodeTable (c : UInt8) : Int :=
  match b64urlAlphabet.findIdx? fun known => known == c with
  | some i => i
  | none => -1

/-- An index into the alphabet. -/
def character (i : UInt8) : UInt8 := b64urlAlphabet.getD i.toNat 0

/-- One turn of the loop in `Base64urlEncode`. -/
def encodeGroup (b0 b1 b2 : UInt8) (rem : Nat) : Bytes :=
  character (b0 >>> 2) :: character ((b0 &&& 0x03) <<< 4 ||| b1 >>> 4) ::
    ((if rem > 1 then [character ((b1 &&& 0x0F) <<< 2 ||| b2 >>> 6)] else []) ++
      if rem > 2 then [character (b2 &&& 0x3F)] else [])

/-- `Base64urlEncode` -/
def base64urlEncode : Bytes → Bytes
  | [] => []
  | [b0] => encodeGroup b0 0 0 1
  | [b0, b1] => encodeGroup b0 b1 0 2
  | b0 :: b1 :: b2 :: rest => encodeGroup b0 b1 b2 3 ++ base64urlEncode rest

/-- The value of a character the table knows. -/
def tableValue (c : UInt8) : Nat := (b64urlDecodeTable c).toNat

/-- The loop of `Base64urlDecode`. -/
def decodeLoop : Bytes → Bytes
  | c0 :: c1 :: c2 :: c3 :: rest =>
      UInt8.ofNat (tableValue c0 <<< 2 ||| tableValue c1 >>> 4) ::
        UInt8.ofNat (tableValue c1 <<< 4 ||| tableValue c2 >>> 2) ::
          UInt8.ofNat (tableValue c2 <<< 6 ||| tableValue c3) :: decodeLoop rest
  | [c0, c1] => [UInt8.ofNat (tableValue c0 <<< 2 ||| tableValue c1 >>> 4)]
  | [c0, c1, c2] =>
      [UInt8.ofNat (tableValue c0 <<< 2 ||| tableValue c1 >>> 4),
        UInt8.ofNat (tableValue c1 <<< 4 ||| tableValue c2 >>> 2)]
  | _ => []

/-- `Base64urlDecode` -/
def base64urlDecode (s : Bytes) : Option Bytes := do
  guard ¬(s.length % 4 = 1)
  guard (s.all fun c => !(b64urlDecodeTable c < 0))
  let out := decodeLoop s
  guard (base64urlEncode out = s)
  some out

/-! ## The encoder -/

theorem character_eq {i : UInt8} (h : i.toNat < 64) : character i = Base64.character i.toNat :=
  byte_forall (P := fun i => i.toNat < 64 → character i = Base64.character i.toNat)
    (by decide +kernel) i h

theorem shift_or (high : Nat) {low k : Nat} (h : low < 2 ^ k) :
    high <<< k ||| low = high * 2 ^ k + low := by
  rw [← Nat.shiftLeft_add_eq_or_of_lt h, Nat.shiftLeft_eq]

theorem firstSextet (b0 : UInt8) : (b0 >>> 2).toNat = b0.toNat / 4 := by
  simp [Nat.shiftRight_eq_div_pow]

theorem secondSextet (b0 b1 : UInt8) :
    ((b0 &&& 0x03) <<< 4 ||| b1 >>> 4).toNat = b0.toNat % 4 * 16 + b1.toNat / 16 := by
  have low : b1.toNat / 16 < 2 ^ 4 := by have := b1.toNat_lt; omega
  have kept : b0.toNat &&& 3 = b0.toNat % 4 := Nat.and_two_pow_sub_one_eq_mod _ 2
  have small : (b0.toNat % 4) <<< 4 % 256 = (b0.toNat % 4) <<< 4 := by
    rw [Nat.shiftLeft_eq]
    omega
  simp only [UInt8.toNat_or, UInt8.toNat_shiftLeft, UInt8.toNat_and, UInt8.toNat_shiftRight,
    UInt8.toNat_ofNat, Nat.reduceMod, Nat.reducePow, kept, small, Nat.shiftRight_eq_div_pow]
  exact shift_or _ low

theorem thirdSextet (b1 b2 : UInt8) :
    ((b1 &&& 0x0F) <<< 2 ||| b2 >>> 6).toNat = b1.toNat % 16 * 4 + b2.toNat / 64 := by
  have low : b2.toNat / 64 < 2 ^ 2 := by have := b2.toNat_lt; omega
  have kept : b1.toNat &&& 15 = b1.toNat % 16 := Nat.and_two_pow_sub_one_eq_mod _ 4
  have small : (b1.toNat % 16) <<< 2 % 256 = (b1.toNat % 16) <<< 2 := by
    rw [Nat.shiftLeft_eq]
    omega
  simp only [UInt8.toNat_or, UInt8.toNat_shiftLeft, UInt8.toNat_and, UInt8.toNat_shiftRight,
    UInt8.toNat_ofNat, Nat.reduceMod, Nat.reducePow, kept, small, Nat.shiftRight_eq_div_pow]
  exact shift_or _ low

theorem lastSextet (b2 : UInt8) : (b2 &&& 0x3F).toNat = b2.toNat % 64 := by
  simp only [UInt8.toNat_and, UInt8.toNat_ofNat, Nat.reduceMod, Nat.reducePow]
  exact Nat.and_two_pow_sub_one_eq_mod _ 6

/-- A group is written as it is in the library. -/
theorem encodeGroup_eq (b0 b1 b2 : UInt8) (rem : Nat) : encodeGroup b0 b1 b2 rem =
    Base64.character (b0.toNat / 4) :: Base64.character (b0.toNat % 4 * 16 + b1.toNat / 16) ::
      ((if rem > 1 then [Base64.character (b1.toNat % 16 * 4 + b2.toNat / 64)] else []) ++
        if rem > 2 then [Base64.character (b2.toNat % 64)] else []) := by
  have lt₀ := b0.toNat_lt
  have lt₁ := b1.toNat_lt
  have lt₂ := b2.toNat_lt
  rw [encodeGroup, character_eq (by rw [firstSextet]; omega),
    character_eq (by rw [secondSextet]; omega), character_eq (by rw [thirdSextet]; omega),
    character_eq (by rw [lastSextet]; omega), firstSextet, secondSextet, thirdSextet, lastSextet]

/-- The encoder is the one of the standard. -/
theorem base64urlEncode_eq : ∀ bs : Bytes, base64urlEncode bs = Base64.encode bs
  | [] => rfl
  | [b0] => by simp [base64urlEncode, encodeGroup_eq, Base64.encode]
  | [b0, b1] => by simp [base64urlEncode, encodeGroup_eq, Base64.encode]
  | b0 :: b1 :: b2 :: rest => by
      simp [base64urlEncode, encodeGroup_eq, Base64.encode, base64urlEncode_eq rest]

/-! ## The decoder -/

theorem b64urlDecodeTable_eq (c : UInt8) :
    b64urlDecodeTable c = match Base64.sextet c with | some i => (i : Int) | none => -1 :=
  byte_forall (P := fun c => b64urlDecodeTable c =
    match Base64.sextet c with | some i => (i : Int) | none => -1) (by decide +kernel) c

theorem inAlphabet_iff_sextet (c : UInt8) : Base64.inAlphabet c = (Base64.sextet c).isSome :=
  byte_forall (P := fun c => Base64.inAlphabet c = (Base64.sextet c).isSome) (by decide +kernel) c

/-- The characters the table knows. -/
theorem known_iff (c : UInt8) : (!(b64urlDecodeTable c < 0)) = Base64.inAlphabet c := by
  rw [b64urlDecodeTable_eq, inAlphabet_iff_sextet]
  cases Base64.sextet c with
  | none => rfl
  | some i => simp

theorem sextet_of_known {c : UInt8} (known : Base64.inAlphabet c = true) :
    Base64.sextet c = some (tableValue c) ∧ tableValue c < 64 := by
  rw [inAlphabet_iff_sextet] at known
  obtain ⟨i, found⟩ := Option.isSome_iff_exists.mp known
  have value : tableValue c = i := by rw [tableValue, b64urlDecodeTable_eq, found]; rfl
  refine ⟨by rw [found, value], ?_⟩
  exact value ▸ byte_forall (P := fun c => ∀ i ∈ Base64.sextet c, i < 64)
    (by decide +kernel) c i found

theorem firstByte {x y : Nat} (hy : y < 64) :
    UInt8.ofNat (x <<< 2 ||| y >>> 4) = UInt8.ofNat (x * 4 + y / 16) := by
  rw [Nat.shiftRight_eq_div_pow, shift_or x (show y / 2 ^ 4 < 2 ^ 2 by omega)]
  rfl

theorem secondByte {y z : Nat} (hz : z < 64) :
    UInt8.ofNat (y <<< 4 ||| z >>> 2) = UInt8.ofNat (y % 16 * 16 + z / 4) := by
  rw [Nat.shiftRight_eq_div_pow, shift_or y (show z / 2 ^ 2 < 2 ^ 4 by omega)]
  refine UInt8.toNat_inj.mp ?_
  simp only [UInt8.toNat_ofNat']
  omega

theorem thirdByte {z w : Nat} (hw : w < 64) :
    UInt8.ofNat (z <<< 6 ||| w) = UInt8.ofNat (z % 4 * 64 + w) := by
  rw [shift_or z (show w < 2 ^ 6 by omega)]
  refine UInt8.toNat_inj.mp ?_
  simp only [UInt8.toNat_ofNat']
  omega

/-- On characters of the alphabet the loop decodes as the library does. -/
theorem decodeLoop_eq : ∀ {s : Bytes}, (∀ c ∈ s, Base64.inAlphabet c = true) → s.length % 4 ≠ 1 →
    Base64.decode s = some (decodeLoop s)
  | [], _, _ => rfl
  | [_], _, size => absurd rfl size
  | [c0, c1], known, _ => by
      simp only [List.forall_mem_cons] at known
      obtain ⟨found₀, -⟩ := sextet_of_known known.1
      obtain ⟨found₁, lt₁⟩ := sextet_of_known known.2.1
      simp [Base64.decode, decodeLoop, found₀, found₁, firstByte lt₁]
  | [c0, c1, c2], known, _ => by
      simp only [List.forall_mem_cons] at known
      obtain ⟨found₀, -⟩ := sextet_of_known known.1
      obtain ⟨found₁, lt₁⟩ := sextet_of_known known.2.1
      obtain ⟨found₂, lt₂⟩ := sextet_of_known known.2.2.1
      simp [Base64.decode, decodeLoop, found₀, found₁, found₂, firstByte lt₁, secondByte lt₂]
  | c0 :: c1 :: c2 :: c3 :: rest, known, size => by
      simp only [List.forall_mem_cons] at known
      obtain ⟨found₀, -⟩ := sextet_of_known known.1
      obtain ⟨found₁, lt₁⟩ := sextet_of_known known.2.1
      obtain ⟨found₂, lt₂⟩ := sextet_of_known known.2.2.1
      obtain ⟨found₃, lt₃⟩ := sextet_of_known known.2.2.2.1
      have tail : Base64.decode rest = some (decodeLoop rest) := by
        refine decodeLoop_eq known.2.2.2.2 ?_
        simp only [List.length_cons] at size
        omega
      simp [Base64.decode, decodeLoop, found₀, found₁, found₂, found₃, tail, firstByte lt₁,
        secondByte lt₂, thirdByte lt₃]

/-- The decoder reads the canonical texts. -/
theorem base64urlDecode_eq_some {s bs : Bytes} :
    base64urlDecode s = some bs ↔ s = Base64.encode bs := by
  simp only [base64urlDecode, base64urlEncode_eq, known_iff, Option.bind_eq_bind,
    Option.bind_eq_some_iff, guard_eq_some, exists_const, Option.some.injEq]
  constructor
  · rintro ⟨-, -, canonical, rfl⟩
    exact canonical.symm
  · rintro rfl
    have known : ∀ c ∈ Base64.encode bs, Base64.inAlphabet c = true := fun c member =>
      Base64.inAlphabet_of_mem_encode member
    have size : (Base64.encode bs).length % 4 ≠ 1 := by
      have length := Base64.length_encode bs
      split at length <;> omega
    have decoded : decodeLoop (Base64.encode bs) = bs :=
      Option.some.inj ((decodeLoop_eq known size).symm.trans (Base64.decode_encode bs))
    rw [decoded]
    exact ⟨size, List.all_eq_true.mpr known, rfl, rfl⟩

end BoundedAuthority.Go
