import BoundedAuthority.V1.JcsNumber
import BoundedAuthority.Wire.Ecmascript

/-!
# The layout against ECMAScript

The encoder takes the digits out of a text the platform printed, in whichever
notation it chose, and lays them out again.  What it writes is `Number::toString`
of the double (`ecmascriptNumber_eq_numberToString`): zeros the platform put behind
the digits are trimmed, and the few it put in front stand where the layout wants
them.
-/

namespace BoundedAuthority.V1.Jcs

open Wire

/-! ## Trimming -/

theorem trimReversed_eq : ∀ {s : Bytes}, (∃ b ∈ s, b ≠ 0x30) →
    trimReversed s = s.dropWhile fun b => decide (b = 0x30)
  | [], h => by simp at h
  | [d], h => by
      have nonzero : d ≠ 0x30 := by simpa using h
      simp [trimReversed, List.dropWhile, nonzero]
  | d :: e :: rest, h => by
      by_cases zero : d = 0x30
      · have others : ∃ b ∈ e :: rest, b ≠ 0x30 := by simpa [zero] using h
        have dropped := List.dropWhile_cons_of_pos (p := fun b => decide (b = 0x30))
          (l := e :: rest)
          (decide_eq_true zero)
        rw [dropped, ← trimReversed_eq others]
        exact if_pos zero
      · have kept := List.dropWhile_cons_of_neg (p := fun b => decide (b = 0x30)) (l := e :: rest)
          (by simpa using zero)
        rw [kept]
        exact if_neg zero

theorem trimTrailingZeroes_eq {ds : Bytes} (h : ∃ b ∈ ds, b ≠ 0x30) :
    trimTrailingZeroes ds = ds.rdropWhile fun b => decide (b = 0x30) := by
  have reversed : ∃ b ∈ ds.reverse, b ≠ 0x30 := by simpa using h
  rw [trimTrailingZeroes, trimReversed_eq reversed, List.rdropWhile]

/-! ## The layout -/

theorem exponent_eq (e : Int) :
    (if e ≥ 0 then ascii "+" else []) ++ Decimal.ofInt e = Ecmascript.exponentText e := by
  rw [show ascii "+" = [0x2B] by rfl, Decimal.ofInt, Ecmascript.exponentText]
  by_cases negative : e < 0
  · rw [if_neg (by omega), if_pos negative, if_pos negative, List.nil_append]
  · rw [if_pos (by omega), if_neg negative, if_neg negative, List.singleton_append]

theorem scientific_eq {digits : Bytes} (nonempty : digits ≠ []) (e : Int) :
    scientific digits e =
      if (digits.length : Int) = 1 then digits ++ 0x65 :: Ecmascript.exponentText e
      else digits.take 1 ++ 0x2E :: (digits.drop 1 ++ 0x65 :: Ecmascript.exponentText e) := by
  obtain ⟨d, rest, rfl⟩ := List.exists_cons_of_ne_nil nonempty
  rw [scientific, show ascii "e" = [0x65] by rfl, List.append_assoc, exponent_eq]
  cases rest with
  | nil => rfl
  | cons d' rest =>
      have long : ¬ ((d :: d' :: rest).length : Int) = 1 := by
        rw [List.length_cons, List.length_cons]
        omega
      rw [if_neg long]
      simp

/-- The encoder's two layouts are the five of ECMAScript. -/
theorem layout_eq {digits : Bytes} (nonempty : digits ≠ []) (n : Int) :
    layout digits n = Ecmascript.layout digits n := by
  have positive := List.length_pos_of_ne_nil nonempty
  rw [layout, Ecmascript.layout]
  by_cases outside : n - 1 < -6 ∨ n - 1 ≥ 21
  · rw [if_pos outside, if_neg (by omega), if_neg (by omega), if_neg (by omega),
      scientific_eq nonempty]
  · rw [if_neg outside, fixed]
    by_cases below : n ≤ 0
    · rw [if_pos below, if_neg (by omega), if_neg (by omega), if_pos (by omega)]
      rfl
    · rw [if_neg below]
      by_cases whole : n ≥ digits.length
      · rw [if_pos whole, if_pos (by omega)]
      · rw [if_neg whole, if_neg (by omega), if_pos (by omega)]

/-- With zeros in front the point stands behind the first of them. -/
theorem layout_padded (digits : Bytes) {n : Nat} (few : n + 1 ≤ 6) (nonempty : digits ≠ []) :
    layout (List.replicate (n + 1) 0x30 ++ digits) 1 = Ecmascript.layout digits (-n) := by
  have positive := List.length_pos_of_ne_nil nonempty
  have first : List.replicate (n + 1) (0x30 : UInt8) ++ digits =
      0x30 :: (List.replicate n 0x30 ++ digits) := by
    rw [List.replicate_succ, List.cons_append]
  have long : ¬ (1 : Int) ≥ (List.replicate (n + 1) (0x30 : UInt8) ++ digits).length := by
    rw [List.length_append, List.length_replicate]
    omega
  rw [layout, if_neg (by omega), fixed, if_neg (by omega), if_neg long, first, Ecmascript.layout,
    if_neg (by omega), if_neg (by omega), if_pos (by omega), neg_neg, Int.toNat_natCast]
  rfl

/-- What the encoder writes for a finite double is its ECMAScript text. -/
theorem ecmascriptNumber_eq_numberToString (x : F64) :
    ecmascriptNumber x = some (Ecmascript.numberToString x) := by
  rw [ecmascriptNumber, Ecmascript.numberToString]
  by_cases zero : x.units = 0
  · rw [if_pos zero, if_pos zero]
    rfl
  have pos := F64.shortest_pos (Nat.pos_of_ne_zero zero)
  have nonempty := Ecmascript.significant_ne_nil pos
  obtain ⟨ds, index, found, recovered⟩ := recovered_short x
  obtain ⟨front, back, hds, hindex, hfront, few⟩ := recovered.zeros
  have nonzero : ∃ b ∈ ds, b ≠ 0x30 := by
    obtain ⟨b, member, nonzero⟩ := Ecmascript.exists_nonzero_digit pos
    exact ⟨b, by simp [hds, member], nonzero⟩
  have trimmed : trimTrailingZeroes ds =
      List.replicate front 0x30 ++ Ecmascript.significant x.shortest.1 := by
    rw [trimTrailingZeroes_eq nonzero, hds, Ecmascript.rdropWhile_padded pos]
  have body : layout (trimTrailingZeroes ds) index =
      Ecmascript.layout (Ecmascript.significant x.shortest.1) (Ecmascript.point x) := by
    rw [trimmed]
    cases front with
    | zero =>
        rw [List.replicate_zero, List.nil_append, layout_eq nonempty, hindex, Nat.cast_zero,
          add_zero]
        rfl
    | succ n =>
        have one := hfront (Nat.succ_pos n)
        have point : Ecmascript.point x = -n := by
          rw [Ecmascript.point]
          omega
        rw [one, layout_padded _ few nonempty, point]
  unfold recover at found
  rw [if_neg zero, if_neg zero, ← body]
  simp only [found, Option.bind_eq_bind, Option.bind_some, layout]
  rfl

end BoundedAuthority.V1.Jcs
