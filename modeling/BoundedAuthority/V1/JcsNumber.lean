import BoundedAuthority.V1.Jcs
import BoundedAuthority.Wire.Lexeme

/-!
# The canonical text of a number

The platform writes a float in one of two notations, and the encoder takes the
digits and the place of the point out of either one (`recovered_decimal`,
`recovered_scientific`), trims zeros, and writes them in the ECMAScript layout.
What it writes is a number lexeme with the decimal value of the shortest digits
(`exists_lexeme`).  It has no point and no exponent exactly when that value is a
natural number.
-/

namespace BoundedAuthority.V1.Jcs

open Wire

/-! ## Integers -/

theorem binaryToInteger_ofInt (n : Int) : binaryToInteger (Decimal.ofInt n) = n := by
  unfold Decimal.ofInt
  split
  next negative =>
    simp only [binaryToInteger, Decimal.value_ofNat]
    omega
  next nonneg =>
    unfold binaryToInteger
    split
    next digits h =>
      have := Decimal.ofNat_digits n.natAbs 0x2D (by rw [h]; exact List.mem_cons_self)
      cases this
    next => rw [Decimal.value_ofNat]; omega

/-- The digits of a number as digits of a lexeme. -/
def digitsOf (n : Nat) : Digits :=
  ⟨Decimal.ofNat n, Decimal.ofNat_digits n, Decimal.ofNat_ne_nil n⟩

/-- The lexeme of an integer. -/
def integerLexeme (n : Int) : Lexeme where
  negative := n < 0
  integer := digitsOf n.natAbs
  fraction := none
  exponent := none
  noLeadingZero rest h := by
    have zero := Decimal.head_ofNat h rfl
    have : Decimal.ofNat 0 = 0x30 :: rest := by rw [← zero]; exact h
    simpa [Decimal.ofNat] using this.symm

theorem render_integerLexeme (n : Int) : (integerLexeme n).render = Decimal.ofInt n := by
  unfold Decimal.ofInt
  split <;>
    simp [Lexeme.render, Lexeme.renderUnsigned, integerLexeme, digitsOf, Lexeme.renderFraction,
      Lexeme.renderExponent, *]

theorem coefficient_integerLexeme (n : Int) : (integerLexeme n).coefficient = n.natAbs := by
  simp [Lexeme.coefficient, integerLexeme, digitsOf, Lexeme.fractionDigits]

theorem scale_integerLexeme (n : Int) : (integerLexeme n).scale = 0 := rfl

theorem value_integerLexeme (n : Int) : (integerLexeme n).value? = some (.integer n) := by
  have plain : (integerLexeme n).isFloat = false := rfl
  have negative : (integerLexeme n).negative = decide (n < 0) := rfl
  rw [Lexeme.value?, plain, if_neg (by decide), coefficient_integerLexeme, negative]
  simp only [decide_eq_true_eq, Option.some.injEq, JsonValue.integer.injEq]
  split <;> omega

/-! ## Reading the digits back -/

/-- The digits found are the shortest digits with zeros around them, and the index
counts the digits in front of the point.  Zeros in front are only found with one
digit before the point, and then there are few: decimal notation was not longer, so
the number is not below `1e-6`. -/
structure Recovered (shortest : Bytes) (exponent : Int) (digits : Bytes) (index : Int) : Prop where
  zeros : ∃ front back, digits = List.replicate front 0x30 ++
    (shortest ++ List.replicate back 0x30) ∧
    index = shortest.length + exponent + front ∧ (0 < front → index = 1) ∧ front ≤ 6

/-- What the encoder takes out of a float text. -/
def recover (raw : Bytes) : Option (Bytes × Int) :=
  decimalDigits (splitExponent raw).1 (splitExponent raw).2

theorem notMem_of_digits {ds : Bytes} (digits : ∀ b ∈ ds, isDigit b = true) {b : UInt8}
    (h : isDigit b = false) : b ∉ ds := fun member => by
  rw [digits b member] at h
  cases h

theorem decimalDigits_point {i fraction : Bytes} (digits : ∀ b ∈ i, isDigit b = true)
    (exponent : Int) : decimalDigits (i ++ 0x2E :: fraction) exponent =
      some (i ++ fraction, i.length + exponent) := by
  have found := cut_singleton_append fraction (notMem_of_digits digits (b := 0x2E) rfl)
  unfold decimalDigits
  rw [show ascii "." = [0x2E] by rfl, found]
  rfl

/-- A text without an exponent. -/
theorem recover_point {i f : Bytes} (hi : ∀ b ∈ i, isDigit b = true)
    (hf : ∀ b ∈ f, isDigit b = true) :
    recover (i ++ 0x2E :: f) = some (i ++ f, (i.length : Int)) := by
  have none : cut (ascii "e") (i ++ 0x2E :: f) = none := by
    refine cut_singleton_eq_none.mpr fun member => ?_
    rcases List.mem_append.mp member with h | h
    · exact notMem_of_digits hi rfl h
    · rcases List.mem_cons.mp h with h | h
      · cases h
      · exact notMem_of_digits hf rfl h
  unfold recover splitExponent
  rw [none]
  simp only [decimalDigits_point hi, Int.add_zero]

theorem digits_replicate (n : Nat) : ∀ b ∈ List.replicate n (0x30 : UInt8), isDigit b = true := by
  intro b hb
  obtain ⟨-, rfl⟩ := List.mem_replicate.mp hb
  rfl

/-- Scientific notation of a number below one. -/
theorem length_scientificNotation {shortest : Bytes} {exponent : Int} {n : Nat}
    (nonempty : shortest ≠ []) (point : (shortest.length : Int) + exponent = -n) :
    (scientificNotation shortest exponent).length ≤
      shortest.length + 4 + (Decimal.ofNat (n + 1)).length := by
  obtain ⟨d, rest, rfl⟩ := List.exists_cons_of_ne_nil nonempty
  have negative : ((d :: rest).length : Int) + exponent - 1 < 0 := by omega
  have exponentLength : (Decimal.ofInt (((d :: rest).length : Int) + exponent - 1)).length =
      (Decimal.ofNat (n + 1)).length + 1 := by
    rw [Decimal.ofInt, if_pos negative, List.length_cons,
      show (((d :: rest).length : Int) + exponent - 1).natAbs = n + 1 by omega]
  have fraction : (if rest = [] then [0x30] else rest).length ≤ rest.length + 1 := by
    split <;> simp
  simp only [scientificNotation, List.take_succ_cons, List.take_zero, List.drop_succ_cons,
    List.drop_zero, List.length_append, List.length_cons, List.length_nil] at exponentLength ⊢
  omega

/-- The zeros a decimal notation can afford against an exponent of four digits. -/
theorem few_zeros {n : Nat} (low : n + 1 < 10 ^ 4)
    (shorter : n + 1 ≤ 3 + (Decimal.ofNat (n + 1)).length) : n + 1 ≤ 6 := by
  have four := Decimal.length_ofNat_le low (by decide)
  have one := Decimal.length_ofNat_le (show n + 1 < 10 ^ 1 by omega) (by decide)
  omega

theorem recovered_decimal {shortest : Bytes} (digits : ∀ b ∈ shortest, isDigit b = true)
    (nonempty : shortest ≠ []) {exponent : Int} (low : -1074 ≤ exponent)
    (shorter : (decimalNotation shortest exponent).length ≤
      (scientificNotation shortest exponent).length) : ∃ ds index,
      recover (decimalNotation shortest exponent) = some (ds, index) ∧
        Recovered shortest exponent ds index := by
  unfold decimalNotation at shorter ⊢
  dsimp only at shorter ⊢
  split
  next small =>
    have fraction : ∀ b ∈ List.replicate (-(shortest.length + exponent)).toNat 0x30 ++ shortest,
        isDigit b = true := by
      intro b hb
      rcases List.mem_append.mp hb with hb | hb
      · exact digits_replicate _ b hb
      · exact digits b hb
    have found := recover_point (i := [0x30]) (by simp [isDigit, within]) fraction
    rw [show ascii "0." = [0x30, 0x2E] by rfl, List.append_assoc]
    refine ⟨_, _, found, ?_⟩
    refine ⟨(-(shortest.length + exponent)).toNat + 1, 0, ?_, ?_, fun _ => rfl, ?_⟩
    · simp [List.replicate_succ]
    · simp only [List.length_singleton]
      omega
    · obtain ⟨n, point⟩ : ∃ n : Nat, (shortest.length : Int) + exponent = -n :=
        ⟨(-(shortest.length + exponent)).toNat, by omega⟩
      have scientific := length_scientificNotation nonempty point
      rw [if_pos small, point, neg_neg, Int.toNat_natCast,
        show ascii "0." = [0x30, 0x2E] by rfl] at shorter
      simp only [List.length_append, List.length_cons, List.length_nil, List.length_replicate]
        at shorter
      rw [point, neg_neg, Int.toNat_natCast]
      have nonempty := List.length_pos_of_ne_nil nonempty
      exact few_zeros (by omega) (by omega)
  next =>
    split
    next =>
      have integer : ∀ b ∈ shortest ++ List.replicate exponent.toNat 0x30, isDigit b = true := by
        intro b hb
        rcases List.mem_append.mp hb with hb | hb
        · exact digits b hb
        · exact digits_replicate _ b hb
      have found := recover_point (f := [0x30]) integer (by simp [isDigit, within])
      refine ⟨_, _, by rw [← found]; rfl, ?_⟩
      refine ⟨0, exponent.toNat + 1, ?_, ?_, by simp, by simp⟩
      · simp [List.replicate_succ']
      · simp only [List.length_append, List.length_replicate]
        omega
    next =>
      have found := recover_point
        (i := shortest.take (shortest.length + exponent).toNat)
        (f := shortest.drop (shortest.length + exponent).toNat)
        (fun b hb => digits b (List.mem_of_mem_take hb))
        (fun b hb => digits b (List.mem_of_mem_drop hb))
      refine ⟨_, _, found, 0, 0, ?_, ?_, by simp, by simp⟩
      · simp
      · rw [List.length_take]
        omega

theorem recovered_scientific {shortest : Bytes} (digits : ∀ b ∈ shortest, isDigit b = true)
    (nonempty : shortest ≠ []) (exponent : Int) : ∃ ds index,
      recover (scientificNotation shortest exponent) = some (ds, index) ∧
        Recovered shortest exponent ds index := by
  obtain ⟨d, rest, rfl⟩ := List.exists_cons_of_ne_nil nonempty
  have first : ∀ b ∈ [d], isDigit b = true := fun b hb => digits b (by simp_all)
  have others : ∀ b ∈ rest, isDigit b = true := fun b hb => digits b (List.mem_cons_of_mem _ hb)
  obtain ⟨fraction, back, hf, same⟩ : ∃ fraction back,
      (if rest = [] then [0x30] else rest) = fraction ∧
        fraction = rest ++ List.replicate back 0x30 := by
    by_cases empty : rest = []
    · exact ⟨_, 1, by rw [if_pos empty], by simp [empty]⟩
    · exact ⟨_, 0, by rw [if_neg empty], by simp⟩
  have fractionDigits : ∀ b ∈ fraction, isDigit b = true := by
    rw [same]
    intro b hb
    rcases List.mem_append.mp hb with hb | hb
    · exact others b hb
    · exact digits_replicate _ b hb
  have mantissa : (0x65 : UInt8) ∉ [d] ++ 0x2E :: fraction := by
    intro member
    rcases List.mem_append.mp member with h | h
    · exact notMem_of_digits first rfl h
    · rcases List.mem_cons.mp h with h | h
      · cases h
      · exact notMem_of_digits fractionDigits rfl h
  have found := cut_singleton_append
    (Decimal.ofInt (((d :: rest).length : Int) + exponent - 1)) mantissa
  refine ⟨[d] ++ fraction, 1 + (((d :: rest).length : Int) + exponent - 1), ?_, 0, back, ?_, ?_, ?_,
    ?_⟩
  · unfold recover splitExponent scientificNotation
    simp only [List.take_succ_cons, List.take_zero, List.drop_succ_cons, List.drop_zero, hf]
    rw [show ascii "e" = [0x65] by rfl]
    simp only [List.cons_append, List.nil_append] at found ⊢
    rw [found]
    simp only [binaryToInteger_ofInt]
    exact decimalDigits_point (i := [d]) first _
  · simp [same]
  · simp only [List.length_cons]
    omega
  · simp
  · simp

/-- Whatever notation the platform chose, the encoder finds its digits. -/
theorem recovered_short (x : F64) : ∃ ds index,
    recover (floatToBinaryShort x) = some (ds, index) ∧
      Recovered (Decimal.ofNat x.shortest.1) x.shortest.2 ds index := by
  unfold floatToBinaryShort
  dsimp only
  split
  next decimal =>
    have low := (F64.coarsest_shortest x).low
    rw [precision_eq] at low
    exact recovered_decimal (Decimal.ofNat_digits _) (Decimal.ofNat_ne_nil _) low decimal.2
  next => exact recovered_scientific (Decimal.ofNat_digits _) (Decimal.ofNat_ne_nil _) _

/-! ## Trimming -/

/-- Trimming takes zeros off the end and stops at another digit. -/
theorem trimReversed_spec : ∀ {s : Bytes}, (∃ b ∈ s, b ≠ 0x30) →
    ∃ zeros d rest, s = List.replicate zeros 0x30 ++ d :: rest ∧ d ≠ 0x30 ∧
      trimReversed s = d :: rest
  | [], h => by simp at h
  | [d], h => ⟨0, d, [], rfl, by simpa using h, rfl⟩
  | d :: e :: rest, h => by
      by_cases zero : d = 0x30
      · obtain ⟨zeros, d', rest', same, nonzero, trimmed⟩ :=
          trimReversed_spec (s := e :: rest) (by simpa [zero] using h)
        refine ⟨zeros + 1, d', rest', ?_, nonzero, ?_⟩
        · rw [same, zero]
          simp [List.replicate_succ]
        · simpa [trimReversed, zero] using trimmed
      · exact ⟨0, d, e :: rest, rfl, zero, by simp [trimReversed, zero]⟩

theorem trimTrailingZeroes_spec {ds : Bytes} (h : ∃ b ∈ ds, b ≠ 0x30) :
    ∃ zeros rest d, ds = (rest ++ [d]) ++ List.replicate zeros 0x30 ∧ d ≠ 0x30 ∧
      trimTrailingZeroes ds = rest ++ [d] := by
  obtain ⟨zeros, d, rest, same, nonzero, trimmed⟩ := trimReversed_spec (s := ds.reverse)
    (by simpa using h)
  refine ⟨zeros, rest.reverse, d, ?_, nonzero, ?_⟩
  · rw [← List.reverse_reverse ds, same]
    simp
  · rw [trimTrailingZeroes, trimmed]
    simp

/-! ## Layout -/

/-- The digits in the ECMAScript layout. -/
def layout (digits : Bytes) (index : Int) : Bytes :=
  if index - 1 < -6 ∨ index - 1 ≥ 21 then scientific digits (index - 1) else fixed digits index

/-- What the layout writes: with a fraction or an exponent the digits scaled as the
index says, and else their integer. -/
structure LaidOut (digits : Bytes) (index : Int) (x : Lexeme) : Prop where
  float : x.isFloat = true → x.coefficient = Decimal.value digits ∧
    x.scale = index - digits.length ∧ index < digits.length
  integer : x.isFloat = false → x.scale = 0 ∧
    x.coefficient = Decimal.value digits * 10 ^ (index - digits.length).toNat ∧
      digits.length ≤ index

/-- The sign of a scientific exponent as the sign of a lexeme. -/
def exponentOf (e : Int) : Exponent :=
  ⟨false, some (e < 0), digitsOf e.natAbs⟩

theorem render_exponentOf (e : Int) :
    (exponentOf e).render = ascii "e" ++ (if e ≥ 0 then ascii "+" else []) ++ Decimal.ofInt e := by
  rw [show ascii "e" = [0x65] by rfl, show ascii "+" = [0x2B] by rfl]
  unfold exponentOf Exponent.render Decimal.ofInt
  by_cases negative : e < 0
  · simp [negative, Exponent.renderSign, digitsOf, show ¬ e ≥ 0 by omega]
  · simp [negative, Exponent.renderSign, digitsOf, show e ≥ 0 by omega]

theorem value_exponentOf (e : Int) : (exponentOf e).value = e := by
  unfold exponentOf Exponent.value
  simp only [digitsOf, Decimal.value_ofNat, Option.some.injEq, decide_eq_true_eq]
  split <;> omega

variable {digits : Bytes} {index : Int}

/-- A first digit zero stands alone before the point. -/
def LeadingZero (digits : Bytes) (index : Int) : Prop :=
  ∀ rest, digits = 0x30 :: rest → index = 1 ∧ rest ≠ []

theorem exists_scientific (negative : Bool) (hd : ∀ b ∈ digits, isDigit b = true)
    (nonempty : digits ≠ []) (small : index ≤ 0) :
    ∃ x : Lexeme, x.render = (if negative then [0x2D] else []) ++ scientific digits (index - 1) ∧
      x.negative = negative ∧ LaidOut digits index x := by
  obtain ⟨d, rest, rfl⟩ := List.exists_cons_of_ne_nil nonempty
  have first : ∀ b ∈ [d], isDigit b = true := fun b hb => hd b (by simp_all)
  have others : ∀ b ∈ rest, isDigit b = true := fun b hb => hd b (List.mem_cons_of_mem _ hb)
  have noLeadingZero : ∀ tail, [d] = 0x30 :: tail → tail = [] := by simp
  by_cases empty : rest = []
  · refine ⟨⟨negative, ⟨[d], first, by simp⟩, none, some (exponentOf (index - 1)), noLeadingZero⟩,
      ?_, rfl, ?_, ?_⟩
    · simp [Lexeme.render, Lexeme.renderUnsigned, Lexeme.renderFraction, Lexeme.renderExponent,
        render_exponentOf, scientific, empty]
    · intro _
      simp only [Lexeme.coefficient, Lexeme.scale, Lexeme.fractionDigits, Lexeme.exponentValue,
        value_exponentOf, empty, List.append_nil, List.length_nil, List.length_singleton]
      refine ⟨trivial, ?_, ?_⟩ <;> omega
    · intro plain
      cases plain
  · refine ⟨⟨negative, ⟨[d], first, by simp⟩, some ⟨rest, others, empty⟩,
      some (exponentOf (index - 1)), noLeadingZero⟩, ?_, rfl, ?_, ?_⟩
    · simp [Lexeme.render, Lexeme.renderUnsigned, Lexeme.renderFraction, Lexeme.renderExponent,
        render_exponentOf, scientific, empty]
    · intro _
      simp only [Lexeme.coefficient, Lexeme.scale, Lexeme.fractionDigits, Lexeme.exponentValue,
        value_exponentOf, List.singleton_append, List.length_cons]
      refine ⟨trivial, ?_, ?_⟩ <;> omega
    · intro plain
      cases plain

theorem exists_fixed (negative : Bool) (hd : ∀ b ∈ digits, isDigit b = true)
    (nonempty : digits ≠ []) (zero : LeadingZero digits index) :
    ∃ x : Lexeme, x.render = (if negative then [0x2D] else []) ++ fixed digits index ∧
      x.negative = negative ∧ LaidOut digits index x := by
  have positive := List.length_pos_of_ne_nil nonempty
  unfold fixed
  by_cases below : index ≤ 0
  · -- all digits stand behind the point
    have fraction : ∀ b ∈ List.replicate (-index).toNat 0x30 ++ digits, isDigit b = true := by
      intro b hb
      rcases List.mem_append.mp hb with hb | hb
      · exact digits_replicate _ b hb
      · exact hd b hb
    refine ⟨⟨negative, ⟨[0x30], by simp [isDigit, within], by simp⟩,
      some ⟨_, fraction, by simp [nonempty]⟩, none, by simp⟩, ?_, rfl, ?_, ?_⟩
    · rw [if_pos below, show ascii "0." = [0x30, 0x2E] by rfl]
      simp [Lexeme.render, Lexeme.renderUnsigned, Lexeme.renderFraction, Lexeme.renderExponent]
    · intro _
      simp only [Lexeme.coefficient, Lexeme.scale, Lexeme.fractionDigits, Lexeme.exponentValue,
        Decimal.value_append, Decimal.value_replicate_zero, List.length_append,
        List.length_replicate]
      refine ⟨by simp [Decimal.value_cons, Decimal.digitValue], ?_, ?_⟩ <;> omega
    · intro plain
      cases plain
  · rw [if_neg below]
    by_cases above : index ≥ digits.length
    · -- the point stands behind all digits
      have integer : ∀ b ∈ digits ++ List.replicate (index - digits.length).toNat 0x30,
          isDigit b = true := by
        intro b hb
        rcases List.mem_append.mp hb with hb | hb
        · exact hd b hb
        · exact digits_replicate _ b hb
      refine ⟨⟨negative, ⟨_, integer, by simp [nonempty]⟩, none, none, ?_⟩, ?_, rfl, ?_, ?_⟩
      · intro rest h
        obtain ⟨d, tail, rfl⟩ := List.exists_cons_of_ne_nil nonempty
        have h : d :: (tail ++ _) = 0x30 :: rest := h
        obtain ⟨one, more⟩ := zero tail (by rw [(List.cons.inj h).1])
        have := List.length_pos_of_ne_nil more
        simp only [List.length_cons] at above
        omega
      · rw [if_pos above]
        simp [Lexeme.render, Lexeme.renderUnsigned, Lexeme.renderFraction, Lexeme.renderExponent]
      · intro float
        cases float
      · intro _
        refine ⟨rfl, ?_, above⟩
        simp [Lexeme.coefficient, Lexeme.fractionDigits, Decimal.value_append]
    · -- the point stands between the digits
      have taken : ∀ b ∈ digits.take index.toNat, isDigit b = true :=
        fun b hb => hd b (List.mem_of_mem_take hb)
      have dropped : ∀ b ∈ digits.drop index.toNat, isDigit b = true :=
        fun b hb => hd b (List.mem_of_mem_drop hb)
      have takenNe : digits.take index.toNat ≠ [] := by
        refine List.ne_nil_of_length_pos ?_
        rw [List.length_take]
        omega
      have droppedNe : digits.drop index.toNat ≠ [] := by
        refine List.ne_nil_of_length_pos ?_
        rw [List.length_drop]
        omega
      refine ⟨⟨negative, ⟨_, taken, takenNe⟩, some ⟨_, dropped, droppedNe⟩, none, ?_⟩, ?_, rfl, ?_,
        ?_⟩
      · intro rest h
        obtain ⟨d, tail, rfl⟩ := List.exists_cons_of_ne_nil nonempty
        obtain ⟨k, hk⟩ : ∃ k, index.toNat = k + 1 := ⟨index.toNat - 1, by omega⟩
        have h : (d :: tail).take index.toNat = 0x30 :: rest := h
        simp only [hk, List.take_succ_cons, List.cons.injEq] at h
        obtain ⟨one, -⟩ := zero tail (by rw [h.1])
        obtain rfl : k = 0 := by omega
        simpa using h.2.symm
      · rw [if_neg above]
        simp [Lexeme.render, Lexeme.renderUnsigned, Lexeme.renderFraction, Lexeme.renderExponent]
      · intro _
        simp only [Lexeme.coefficient, Lexeme.scale, Lexeme.fractionDigits, Lexeme.exponentValue,
          List.take_append_drop, List.length_drop]
        refine ⟨trivial, ?_, ?_⟩ <;> omega
      · intro plain
        cases plain

theorem length_layout_le (nonempty : digits ≠ []) (low : -1100 ≤ index) (high : index ≤ 21) :
    (layout digits index).length ≤ digits.length + 22 := by
  have positive := List.length_pos_of_ne_nil nonempty
  unfold layout
  split
  next =>
    have exponentLength : (Decimal.ofInt (index - 1)).length ≤ 5 := by
      have := Decimal.length_ofNat_le (n := (index - 1).natAbs) (k := 4) (by omega) (by decide)
      unfold Decimal.ofInt
      split
      · rw [List.length_cons]
        omega
      · omega
    unfold scientific
    rw [show ascii "e" = [0x65] by rfl, show ascii "+" = [0x2B] by rfl]
    dsimp only
    split <;> split <;>
      simp only [List.length_append, List.length_cons, List.length_nil, List.length_take,
        List.length_drop] <;> omega
  next =>
    unfold fixed
    rw [show ascii "0." = [0x30, 0x2E] by rfl]
    split
    · simp only [List.length_append, List.length_cons, List.length_nil, List.length_replicate]
      omega
    · split
      · simp only [List.length_append, List.length_replicate]
        omega
      · simp only [List.length_append, List.length_cons, List.length_take, List.length_drop]
        omega

/-! ## The lexeme of a float -/

/-- What the encoder writes for a float other than zero. -/
structure FloatLexeme (x : F64) (l : Lexeme) : Prop where
  negative : l.negative = x.negative
  same : Decimal.Same l.coefficient l.scale x.shortest.1 x.shortest.2
  float : l.isFloat = true → ∀ k, x.units ≠ k * unit
  integer : l.isFloat = false → x.units = l.coefficient * unit
  short : l.render.length ≤ 64

/-- The trimmed digits against the shortest ones. -/
structure Trimmed (m : Nat) (j : Int) (digits : Bytes) (index : Int) : Prop where
  all : ∀ b ∈ digits, isDigit b = true
  last : ∃ rest d, digits = rest ++ [d] ∧ d ≠ 0x30
  same : Decimal.Same (Decimal.value digits) (index - digits.length) m j
  zero : LeadingZero digits index
  length : digits.length ≤ (Decimal.ofNat m).length + 8
  index : index = (Decimal.ofNat m).length + j ∨ index = 1

theorem trimmed_of_recovered {m : Nat} {j : Int} (pos : 0 < m) {ds : Bytes} {index : Int}
    (recovered : Recovered (Decimal.ofNat m) j ds index) :
    Trimmed m j (trimTrailingZeroes ds) index := by
  obtain ⟨front, back, hds, hindex, hfront, few⟩ := recovered.zeros
  have allDigits : ∀ b ∈ ds, isDigit b = true := by
    rw [hds]
    intro b hb
    rcases List.mem_append.mp hb with hb | hb
    · exact digits_replicate _ b hb
    rcases List.mem_append.mp hb with hb | hb
    · exact Decimal.ofNat_digits _ b hb
    · exact digits_replicate _ b hb
  have value : Decimal.value ds = m * 10 ^ back := by
    simp [hds, Decimal.value_append]
  have some : ∃ b ∈ ds, b ≠ 0x30 := by
    by_contra none
    have zero := (Decimal.value_eq_zero allDigits).mpr (by simpa using none)
    have : 0 < m * 10 ^ back := by positivity
    omega
  obtain ⟨zeros, rest, d, split, nonzero, trimmed⟩ := trimTrailingZeroes_spec some
  rw [trimmed]
  have digits : ∀ b ∈ rest ++ [d], isDigit b = true := fun b hb =>
    allDigits b (by rw [split]; exact List.mem_append_left _ hb)
  have shift : Decimal.value (rest ++ [d]) * 10 ^ zeros = m * 10 ^ back := by
    rw [← value, split, Decimal.value_append _ (List.replicate zeros 0x30),
      Decimal.value_replicate_zero, List.length_replicate, Nat.add_zero]
  have lengths : (rest ++ [d]).length + zeros = front + (Decimal.ofNat m).length + back := by
    have := congrArg List.length (split.symm.trans hds)
    simp only [List.length_append, List.length_replicate, List.length_cons,
      List.length_nil] at this ⊢
    omega
  have enough : back ≤ zeros := by
    by_contra less
    obtain ⟨k, rfl⟩ : ∃ k, back = zeros + (k + 1) := ⟨back - zeros - 1, by omega⟩
    have last : isDigit d = true := digits d (by simp)
    refine Decimal.value_ne_mul_ten (s := rest) last nonzero (m * 10 ^ k) ?_
    refine Nat.eq_of_mul_eq_mul_right (m := 10 ^ zeros) (by positivity) ?_
    rw [shift, pow_add, pow_succ]
    ring
  refine ⟨digits, ⟨rest, d, rfl, nonzero⟩, Decimal.same_of_shift shift (by omega), ?_, by omega, ?_⟩
  · intro tail lead
    have more : tail ≠ [] := by
      rintro rfl
      have last : d ∈ [(0x30 : UInt8)] := by rw [← lead]; simp
      exact nonzero (List.mem_singleton.mp last)
    refine ⟨hfront (Nat.pos_of_ne_zero fun zero => ?_), more⟩
    -- without zeros in front the first digit is the one of the number
    subst zero
    cases h : Decimal.ofNat m with
    | nil => exact Decimal.ofNat_ne_nil m h
    | cons c cs =>
        rw [h, split, lead] at hds
        have first := Decimal.head_ofNat h (List.cons.inj hds).1.symm
        omega
  · rcases Nat.eq_zero_or_pos front with zero | positive
    · exact .inl (by omega)
    · exact .inr (hfront positive)

/-- Below `2^53` the point stands behind the sixteenth digit at most. -/
theorem index_le {x : F64} (small : x.units < 2 ^ 53 * unit) (pos : 0 < x.units) :
    (Decimal.ofNat x.shortest.1).length + x.shortest.2 ≤ 16 := by
  have below := F64.shortest_below small
  have low := Decimal.pow_le_of_ofNat (F64.shortest_pos pos)
  have ten : (2 : Nat) ^ 53 < 10 ^ 16 := by decide
  generalize x.shortest.1 = m at *
  generalize x.shortest.2 = j at *
  have : 10 ^ ((Decimal.ofNat m).length - 1 + j.toNat) < 10 ^ (16 + (-j).toNat) :=
    calc 10 ^ ((Decimal.ofNat m).length - 1 + j.toNat)
        = 10 ^ ((Decimal.ofNat m).length - 1) * 10 ^ j.toNat := pow_add ..
      _ ≤ m * 10 ^ j.toNat := Nat.mul_le_mul_right _ low
      _ < 2 ^ 53 * 10 ^ (-j).toNat := below
      _ ≤ 10 ^ 16 * 10 ^ (-j).toNat := Nat.mul_le_mul_right _ ten.le
      _ = 10 ^ (16 + (-j).toNat) := (pow_add ..).symm
  have := (Nat.pow_lt_pow_iff_right (a := 10) (by decide)).mp this
  omega

theorem floatLexeme_of_laidOut {x : F64} {l : Lexeme} {digits : Bytes} {index : Int}
    (small : x.units < 2 ^ 53 * unit) (trimmed : Trimmed x.shortest.1 x.shortest.2 digits index)
    (laidOut : LaidOut digits index l) (negative : l.negative = x.negative)
    (short : l.render.length ≤ 64) : FloatLexeme x l := by
  obtain ⟨rest, d, hdigits, nonzero⟩ := trimmed.last
  have same := trimmed.same
  cases kind : l.isFloat with
  | true =>
      obtain ⟨coefficient, scale, behind⟩ := laidOut.float kind
      refine ⟨negative, by rw [coefficient, scale]; exact same,
        fun _ k natural => ?_, by simp [kind], short⟩
      refine Decimal.Same.not_natural (trimmed.all d (by simp [hdigits])) nonzero
        (by rw [← hdigits]; exact same) (by omega) k ?_
      exact (F64.shortest_natural small k).mpr natural
  | false =>
      obtain ⟨scale, coefficient, whole⟩ := laidOut.integer kind
      have same : Decimal.Same l.coefficient l.scale x.shortest.1 x.shortest.2 := by
        rw [Decimal.Same, show (-(index - (digits.length : Int))).toNat = 0 by omega, pow_zero,
          Nat.mul_one] at same
        rw [Decimal.Same, scale, coefficient, neg_zero, Int.toNat_zero, pow_zero, Nat.mul_one,
          Nat.mul_one]
        exact same
      refine ⟨negative, same, by simp [kind], fun _ => ?_, short⟩
      refine (F64.shortest_natural small _).mp ?_
      rw [Decimal.Same, scale] at same
      simpa using same.symm

/-- A float below `2^53` other than zero is written as a number lexeme. -/
theorem exists_lexeme {x : F64} (small : x.units < 2 ^ 53 * unit) (pos : 0 < x.units) :
    ∃ l : Lexeme, ecmascriptNumber x = some l.render ∧ FloatLexeme x l := by
  obtain ⟨ds, index, found, recovered⟩ := recovered_short x
  have trimmed := trimmed_of_recovered (F64.shortest_pos pos) recovered
  have digitsLe := Decimal.length_ofNat_le (F64.shortest_lt x) (by decide)
  have low := (F64.coarsest_shortest x).low
  have high := index_le small pos
  rw [precision_eq] at low
  have positive := List.length_pos_of_ne_nil (Decimal.ofNat_ne_nil x.shortest.1)
  have sides := trimmed.index
  have nonempty : trimTrailingZeroes ds ≠ [] := by
    obtain ⟨rest, d, same, -⟩ := trimmed.last
    simp [same]
  obtain ⟨l, render, negative, laidOut⟩ : ∃ l : Lexeme,
      l.render = (if x.negative then [0x2D] else []) ++ layout (trimTrailingZeroes ds) index ∧
        l.negative = x.negative ∧ LaidOut (trimTrailingZeroes ds) index l := by
    unfold layout
    by_cases outside : index - 1 < -6 ∨ index - 1 ≥ 21
    · -- the index is at most sixteen, so it is small
      rw [if_pos outside]
      exact exists_scientific _ trimmed.all nonempty (by omega)
    · rw [if_neg outside]
      exact exists_fixed _ trimmed.all nonempty trimmed.zero
  refine ⟨l, ?_, floatLexeme_of_laidOut small trimmed laidOut negative ?_⟩
  · unfold recover at found
    unfold ecmascriptNumber
    rw [if_neg (by omega), render, show ascii "-" = [0x2D] by rfl]
    simp only [found, Option.bind_eq_bind, Option.bind_some, layout]
  · have body : (layout _ index).length ≤ _ := length_layout_le nonempty (by omega) (by omega)
    have length := trimmed.length
    rw [render, List.length_append]
    have sign : (if x.negative then [(0x2D : UInt8)] else []).length ≤ 1 := by split <;> simp
    omega

/-- A float that is not a natural number is written as a float, and is read back. -/
theorem FloatLexeme.value_float {x : F64} {l : Lexeme} (h : FloatLexeme x l)
    (float : l.isFloat = true) : l.value? = some (.float x) := by
  rw [Lexeme.value?, if_pos float, h.negative, F64.ofDecimal_congr _ h.same,
    F64.ofDecimal_of_reads x.shortest_reads]
  rfl

end BoundedAuthority.V1.Jcs
