import Mathlib.Data.List.DropRight
import BoundedAuthority.Wire.Binary64

/-!
# Numbers as ECMAScript writes them

`Number::toString` of a finite double takes the shortest digits that read back, the
last of them not a zero, and the place of the point, and lays them out in one of
five ways.
-/

namespace Wire.Ecmascript

/-- The digits of a number without the zeros at the end. -/
def significant (m : Nat) : Bytes := (Decimal.ofNat m).rdropWhile fun b => decide (b = 0x30)

/-- How many digits of a double stand in front of the point. -/
def point (x : F64) : Int := (Decimal.ofNat x.shortest.1).length + x.shortest.2

/-- An exponent, always with its sign. -/
def exponentText (e : Int) : Bytes :=
  (if e < 0 then 0x2D else 0x2B) :: Decimal.ofNat e.natAbs

/-- The digits with the point behind the `n`th of them. -/
def layout (digits : Bytes) (n : Int) : Bytes :=
  let k : Int := digits.length
  if k ≤ n ∧ n ≤ 21 then digits ++ List.replicate (n - k).toNat 0x30
  else if 0 < n ∧ n ≤ 21 then digits.take n.toNat ++ 0x2E :: digits.drop n.toNat
  else if -6 < n ∧ n ≤ 0 then 0x30 :: 0x2E :: (List.replicate (-n).toNat 0x30 ++ digits)
  else if k = 1 then digits ++ 0x65 :: exponentText (n - 1)
  else digits.take 1 ++ 0x2E :: (digits.drop 1 ++ 0x65 :: exponentText (n - 1))

/-- The text of a finite double. -/
def numberToString (x : F64) : Bytes :=
  if x.units = 0 then [0x30]
  else (if x.negative then [0x2D] else []) ++ layout (significant x.shortest.1) (point x)

/-! ## Significant digits -/

theorem exists_nonzero_digit {m : Nat} (pos : 0 < m) : ∃ b ∈ Decimal.ofNat m, b ≠ 0x30 := by
  by_contra none
  have zero := (Decimal.value_eq_zero (Decimal.ofNat_digits m)).mpr (by simpa using none)
  rw [Decimal.value_ofNat] at zero
  omega

/-- Dropping zeros from the end stops at a digit that is there. -/
theorem dropWhile_zeros_ne_nil {ds : Bytes} (h : ∃ b ∈ ds, b ≠ 0x30) :
    ds.dropWhile (fun b => decide (b = 0x30)) ≠ [] := by
  intro none
  obtain ⟨b, member, nonzero⟩ := h
  have := List.dropWhile_eq_nil_iff.mp none b member
  exact nonzero (of_decide_eq_true this)

theorem significant_ne_nil {m : Nat} (pos : 0 < m) : significant m ≠ [] := by
  intro none
  obtain ⟨b, member, nonzero⟩ := exists_nonzero_digit pos
  have there : ∃ b ∈ (Decimal.ofNat m).reverse, b ≠ 0x30 :=
    ⟨b, List.mem_reverse.mpr member, nonzero⟩
  exact dropWhile_zeros_ne_nil there (List.reverse_eq_nil_iff.mp none)

/-- The significant digits are a prefix of the digits. -/
theorem significant_leads (m : Nat) : significant m <+: Decimal.ofNat m :=
  List.rdropWhile_prefix ..

theorem significant_digits (m : Nat) : ∀ b ∈ significant m, isDigit b = true :=
  fun b hb => Decimal.ofNat_digits m b ((significant_leads m).subset hb)

/-- Zeros around the digits of a number: those behind fall, those in front stay. -/
theorem rdropWhile_padded {m : Nat} (pos : 0 < m) (front back : Nat) :
    (List.replicate front 0x30 ++ (Decimal.ofNat m ++ List.replicate back 0x30)).rdropWhile
      (fun b => decide (b = 0x30)) = List.replicate front 0x30 ++ significant m := by
  obtain ⟨b, member, nonzero⟩ := exists_nonzero_digit pos
  have stops : ((Decimal.ofNat m).reverse.dropWhile fun b => decide (b = 0x30)).isEmpty =
      false := by
    rw [List.isEmpty_eq_false_iff]
    exact dropWhile_zeros_ne_nil ⟨b, List.mem_reverse.mpr member, nonzero⟩
  have zeros : ∀ b ∈ List.replicate back (0x30 : UInt8), decide (b = 0x30) = true := by
    intro b hb
    exact decide_eq_true (List.mem_replicate.mp hb).2
  rw [significant, List.rdropWhile, List.rdropWhile, List.reverse_append, List.reverse_append,
    List.reverse_replicate, List.reverse_replicate, List.append_assoc,
    List.dropWhile_append_of_pos zeros, List.dropWhile_append, stops, if_neg (by decide),
    List.reverse_append, List.reverse_replicate]

end Wire.Ecmascript
