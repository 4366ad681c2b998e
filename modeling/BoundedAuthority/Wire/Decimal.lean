import BoundedAuthority.Wire.Bytes
import Mathlib.Data.Nat.Digits.Lemmas

/-!
# Decimal digit strings

The value of a string of digits, the digits of a natural number, and the
comparison of a decimal fraction with a natural number.

A decimal fraction is a natural number `m` scaled by a power of ten `e`, and
`AtMost m e max` says that `m · 10^e` does not exceed `max`, with the power on
the side where it is a natural number.  `atMost_iff_of_length` is what a reader
relies on that compares digit counts first: with as many digits before the point
as `max` has, only the digits decide.
-/

namespace Wire.Decimal

/-- The digit of a number below ten. -/
def digit (d : Nat) : UInt8 := UInt8.ofNat (0x30 + d)

/-- The number a digit stands for. -/
def digitValue (b : UInt8) : Nat := b.toNat - 0x30

/-- The number a string of digits spells. -/
def value (ds : Bytes) : Nat := ds.foldl (fun v b => 10 * v + digitValue b) 0

/-- The digits of a natural number, without leading zeros. -/
def ofNat (n : Nat) : Bytes :=
  if n = 0 then [0x30] else (Nat.digits 10 n).reverse.map digit

/-- The digits of an integer, after a minus sign for a negative one. -/
def ofInt (n : Int) : Bytes := if n < 0 then 0x2D :: ofNat n.natAbs else ofNat n.natAbs

/-- `m · 10^e ≤ max` -/
def AtMost (m : Nat) (e : Int) (max : Nat) : Prop := m * 10 ^ e.toNat ≤ max * 10 ^ (-e).toNat

instance (m : Nat) (e : Int) (max : Nat) : Decidable (AtMost m e max) :=
  inferInstanceAs (Decidable (_ ≤ _))

/-- `m · 10^e = m' · 10^e'` -/
def Same (m : Nat) (e : Int) (m' : Nat) (e' : Int) : Prop :=
  m * 10 ^ e.toNat * 10 ^ (-e').toNat = m' * 10 ^ e'.toNat * 10 ^ (-e).toNat

/-! ## Digits -/

theorem digitValue_digit {d : Nat} (h : d < 10) : digitValue (digit d) = d := by
  have all : ∀ k : Fin 10, digitValue (digit k) = k.val := by decide
  exact all ⟨d, h⟩

theorem isDigit_digit {d : Nat} (h : d < 10) : isDigit (digit d) = true := by
  have all : ∀ k : Fin 10, isDigit (digit k) = true := by decide
  exact all ⟨d, h⟩

set_option maxRecDepth 4096 in
theorem digit_digitValue {b : UInt8} (h : isDigit b = true) : digit (digitValue b) = b := by
  revert h
  exact byte_forall (P := fun b => isDigit b = true → digit (digitValue b) = b) (by decide) b

set_option maxRecDepth 4096 in
theorem digitValue_lt {b : UInt8} (h : isDigit b = true) : digitValue b < 10 := by
  revert h
  exact byte_forall (P := fun b => isDigit b = true → digitValue b < 10) (by decide) b

/-! ## Values -/

theorem foldl_value (ds : Bytes) (v : Nat) :
    ds.foldl (fun v b => 10 * v + digitValue b) v = v * 10 ^ ds.length + value ds := by
  induction ds generalizing v with
  | nil => simp [value]
  | cons d ds ih =>
      simp only [value, List.foldl_cons, List.length_cons, pow_succ]
      rw [ih, ih (10 * 0 + digitValue d)]
      ring

@[simp] theorem value_nil : value [] = 0 := rfl

theorem value_cons (d : UInt8) (ds : Bytes) :
    value (d :: ds) = digitValue d * 10 ^ ds.length + value ds := by
  rw [value, List.foldl_cons, foldl_value]
  simp

theorem value_append (as bs : Bytes) : value (as ++ bs) = value as * 10 ^ bs.length + value bs := by
  rw [value, List.foldl_append, foldl_value]
  rfl

@[simp] theorem value_replicate_zero (n : Nat) : value (List.replicate n 0x30) = 0 := by
  induction n with
  | zero => rfl
  | succ n ih => rw [List.replicate_succ, value_cons, ih]; simp [digitValue]

/-- A remainder does not reach the next multiple. -/
theorem mul_add_lt_mul {x y p a : Nat} (h : x < y) (low : a < p) : x * p + a < y * p :=
  calc x * p + a < x * p + p := Nat.add_lt_add_left low _
    _ = (x + 1) * p := (Nat.succ_mul x p).symm
    _ ≤ y * p := Nat.mul_le_mul_right p h

theorem value_lt {ds : Bytes} (h : ∀ b ∈ ds, isDigit b = true) : value ds < 10 ^ ds.length := by
  induction ds with
  | nil => simp
  | cons d ds ih =>
      have low := ih fun b hb => h b (List.mem_cons_of_mem _ hb)
      have lead := digitValue_lt (h d List.mem_cons_self)
      rw [value_cons, List.length_cons, pow_succ']
      exact mul_add_lt_mul lead low

/-- A first digit other than zero fixes the size of the number. -/
theorem le_value {d : UInt8} {s : Bytes} (h : isDigit d = true) (nonzero : d ≠ 0x30) :
    10 ^ s.length ≤ value (d :: s) := by
  have pos : 0 < digitValue d := by
    rcases Nat.eq_zero_or_pos (digitValue d) with zero | pos
    · exact absurd ((digit_digitValue h).symm.trans (by rw [zero]; rfl)) nonzero
    · exact pos
  rw [value_cons]
  exact Nat.le_add_right_of_le (Nat.le_mul_of_pos_left _ pos)

/-- A string of digits is zero exactly when its digits are. -/
theorem value_eq_zero {ds : Bytes} (h : ∀ b ∈ ds, isDigit b = true) :
    value ds = 0 ↔ ∀ b ∈ ds, b = 0x30 := by
  induction ds with
  | nil => simp
  | cons d ds ih =>
      have hd := h d List.mem_cons_self
      rw [value_cons, Nat.add_eq_zero_iff, ih fun b hb => h b (List.mem_cons_of_mem _ hb),
        List.forall_mem_cons, Nat.mul_eq_zero]
      have lead : digitValue d = 0 ↔ d = 0x30 := by
        constructor
        · intro zero
          rw [← digit_digitValue hd, zero]
          rfl
        · rintro rfl
          rfl
      simp [lead]

/-- Digit strings of one length are ordered as their values. -/
theorem value_lt_iff {as bs : Bytes} (ha : ∀ b ∈ as, isDigit b = true)
    (hb : ∀ b ∈ bs, isDigit b = true) (h : as.length = bs.length) :
    value as < value bs ↔ leBytes bs as = false := by
  induction as generalizing bs with
  | nil =>
      obtain rfl : bs = [] := by simpa using h.symm
      simp [leBytes]
  | cons a as ih =>
      obtain _ | ⟨b, bs⟩ := bs
      · simp at h
      have same : as.length = bs.length := by simpa using h
      have lowA := value_lt fun c hc => ha c (List.mem_cons_of_mem _ hc)
      have lowB := value_lt fun c hc => hb c (List.mem_cons_of_mem _ hc)
      have digitA := ha a List.mem_cons_self
      have digitB := hb b List.mem_cons_self
      have order : ∀ x y : UInt8, isDigit x = true → isDigit y = true →
          (x < y ↔ digitValue x < digitValue y) := by
        intro x y hx hy
        simp only [isDigit, within, Bool.and_eq_true, decide_eq_true_eq, UInt8.le_iff_toNat_le]
          at hx hy
        simp only [digitValue, UInt8.lt_iff_toNat_lt]
        simp at hx hy
        omega
      rw [value_cons, value_cons, ← same]
      simp only [leBytes]
      rw [← same] at lowB
      rcases lt_trichotomy (digitValue a) (digitValue b) with lt | eq | gt
      · have h1 : ¬ b < a := fun c => absurd ((order b a digitB digitA).mp c) (by omega)
        have h2 : a < b := (order a b digitA digitB).mpr lt
        simp only [h1, h2, if_true, if_false, iff_true]
        exact Nat.lt_add_right _ (mul_add_lt_mul lt lowA)
      · have same' : a = b := by
          rw [← digit_digitValue digitA, ← digit_digitValue digitB, eq]
        subst same'
        have irrefl : ¬ a < a := by simp
        simp only [irrefl, if_false]
        rw [← ih (fun c hc => ha c (List.mem_cons_of_mem _ hc))
          (fun c hc => hb c (List.mem_cons_of_mem _ hc)) same]
        omega
      · have h1 : b < a := (order b a digitB digitA).mpr gt
        simp only [h1, if_true]
        constructor
        · intro h
          have := mul_add_lt_mul gt lowB
          omega
        · intro h
          cases h

/-! ## The digits of a number -/

theorem ofNat_digits (n : Nat) : ∀ b ∈ ofNat n, isDigit b = true := by
  intro b hb
  unfold ofNat at hb
  split at hb
  next => obtain rfl : b = 0x30 := by simpa using hb
          rfl
  next =>
    simp only [List.mem_map, List.mem_reverse] at hb
    obtain ⟨d, hd, rfl⟩ := hb
    exact isDigit_digit (Nat.digits_lt_base (by decide) hd)

theorem value_map_digit {ds : List Nat} (h : ∀ d ∈ ds, d < 10) :
    value (ds.reverse.map digit) = Nat.ofDigits 10 ds := by
  induction ds with
  | nil => rfl
  | cons d ds ih =>
      rw [List.reverse_cons, List.map_append, value_append, ih fun c hc => h c (by simp [hc]),
        Nat.ofDigits_cons]
      simp [value_cons, digitValue_digit (h d List.mem_cons_self)]
      ring

@[simp] theorem value_ofNat (n : Nat) : value (ofNat n) = n := by
  unfold ofNat
  split
  next h => rw [h]; rfl
  next =>
    rw [value_map_digit fun d hd => Nat.digits_lt_base (by decide) hd, Nat.ofDigits_digits]

theorem ofNat_ne_nil (n : Nat) : ofNat n ≠ [] := by
  unfold ofNat
  split
  next => simp
  next h => simpa [Nat.digits_ne_nil_iff_ne_zero] using h

/-- Only zero is written with a leading zero. -/
theorem head_ofNat {n : Nat} {d : UInt8} {ds : Bytes} (h : ofNat n = d :: ds) (zero : d = 0x30) :
    n = 0 := by
  by_contra nonzero
  have ne : Nat.digits 10 n ≠ [] := Nat.digits_ne_nil_iff_ne_zero.mpr nonzero
  have lt := Nat.digits_lt_base (b := 10) (by decide) (List.getLast_mem ne)
  have split : (Nat.digits 10 n).reverse =
      (Nat.digits 10 n).getLast ne :: (Nat.digits 10 n).dropLast.reverse := by
    rw [← List.reverse_concat, List.dropLast_append_getLast]
  rw [ofNat, if_neg nonzero, split, List.map_cons, List.cons.injEq] at h
  have value := digitValue_digit lt
  rw [h.1, zero] at value
  exact Nat.getLast_digit_ne_zero 10 nonzero value.symm

theorem lt_pow_length_ofNat (n : Nat) : n < 10 ^ (ofNat n).length := by
  have := value_lt (ofNat_digits n)
  rwa [value_ofNat] at this

theorem pow_le_of_ofNat {n : Nat} (pos : 0 < n) : 10 ^ ((ofNat n).length - 1) ≤ n := by
  have digits := ofNat_digits n
  have value := value_ofNat n
  cases h : ofNat n with
  | nil => exact absurd h (ofNat_ne_nil n)
  | cons d ds =>
      rw [h] at digits value
      have nonzero : d ≠ 0x30 := fun zero => absurd (head_ofNat h zero) (by omega)
      have := le_value (s := ds) (digits d List.mem_cons_self) nonzero
      rwa [value] at this

theorem length_ofNat_le {n k : Nat} (h : n < 10 ^ k) (pos : 0 < k) : (ofNat n).length ≤ k := by
  rcases Nat.eq_zero_or_pos n with rfl | positive
  · exact pos
  · have low := pow_le_of_ofNat positive
    have := (Nat.pow_lt_pow_iff_right (a := 10) (by decide)).mp (Nat.lt_of_le_of_lt low h)
    omega

/-- Digits without a leading zero are the digits of their number. -/
theorem ofNat_value {ds : Bytes} (digits : ∀ b ∈ ds, isDigit b = true) (nonempty : ds ≠ [])
    (zero : ∀ rest, ds = 0x30 :: rest → rest = []) : ofNat (value ds) = ds := by
  obtain ⟨d, tail, rfl⟩ := List.exists_cons_of_ne_nil nonempty
  by_cases leading : d = 0x30
  · obtain rfl := leading
    obtain rfl := zero tail rfl
    rfl
  have low := le_value (s := tail) (digits d List.mem_cons_self) leading
  have high := value_lt digits
  have pos : 0 < value (d :: tail) := Nat.lt_of_lt_of_le (by positivity) low
  have low' := pow_le_of_ofNat pos
  have high' := lt_pow_length_ofNat (value (d :: tail))
  have same : (ofNat (value (d :: tail))).length = (d :: tail).length := by
    have h₁ := (Nat.pow_lt_pow_iff_right (a := 10) (by decide)).mp (Nat.lt_of_le_of_lt low high')
    have h₂ := (Nat.pow_lt_pow_iff_right (a := 10) (by decide)).mp (Nat.lt_of_le_of_lt low' high)
    simp only [List.length_cons] at h₂ ⊢
    omega
  have own := ofNat_digits (value (d :: tail))
  refine leBytes_antisymm ?_ ?_
  · by_contra h
    have := (value_lt_iff digits own same.symm).mpr (by simpa using h)
    rw [value_ofNat] at this
    omega
  · by_contra h
    have := (value_lt_iff own digits same).mpr (by simpa using h)
    rw [value_ofNat] at this
    omega

/-- Leading zeros do not count. -/
theorem value_dropWhile_zero : ∀ (ds : Bytes), value (ds.dropWhile fun c => c == 0x30) = value ds
  | [] => rfl
  | d :: ds => by
      rw [List.dropWhile_cons]
      split
      next zero =>
        obtain rfl := beq_iff_eq.mp zero
        rw [value_dropWhile_zero ds, value_cons]
        simp [digitValue]
      next => rfl

/-- Without its leading zeros a string of digits is the one the number is written as. -/
theorem dropWhile_zero_eq {ds : Bytes} (digits : ∀ b ∈ ds, isDigit b = true) (pos : value ds ≠ 0) :
    (ds.dropWhile fun c => c == 0x30) = ofNat (value ds) := by
  have same := value_dropWhile_zero ds
  have nonempty : (ds.dropWhile fun c => c == 0x30) ≠ [] := by
    intro empty
    rw [empty] at same
    exact pos same.symm
  have kept : ∀ b ∈ ds.dropWhile fun c => c == 0x30, isDigit b = true := fun b member =>
    digits b (List.dropWhile_subset _ member)
  have leading : ∀ rest, (ds.dropWhile fun c => c == 0x30) = 0x30 :: rest → rest = [] := by
    intro rest first
    have stopped := List.head?_dropWhile_not (fun c => c == (0x30 : UInt8)) ds
    rw [first] at stopped
    simp at stopped
  rw [← same]
  exact (ofNat_value kept nonempty leading).symm

/-! ## Comparison -/

/-- Too few digits before the point to exceed `max`. -/
theorem atMost_of_short {s : Bytes} (digits : ∀ b ∈ s, isDigit b = true) {e : Int} {max k : Nat}
    (hmax : 10 ^ k ≤ max) (h : s.length + e ≤ k) : AtMost (value s) e max := by
  have low := value_lt digits
  have split : s.length + e.toNat ≤ k + (-e).toNat := by omega
  calc value s * 10 ^ e.toNat
      ≤ 10 ^ s.length * 10 ^ e.toNat := Nat.mul_le_mul_right _ low.le
    _ = 10 ^ (s.length + e.toNat) := (pow_add ..).symm
    _ ≤ 10 ^ (k + (-e).toNat) := Nat.pow_le_pow_right (by decide) split
    _ = 10 ^ k * 10 ^ (-e).toNat := pow_add ..
    _ ≤ max * 10 ^ (-e).toNat := Nat.mul_le_mul_right _ hmax

/-- Too many digits before the point not to exceed `max`. -/
theorem not_atMost_of_long {d : UInt8} {ds : Bytes} (digit : isDigit d = true) (nonzero : d ≠ 0x30)
    {e : Int} {max k : Nat} (hmax : max < 10 ^ k) (h : k < ds.length + 1 + e) :
    ¬ AtMost (value (d :: ds)) e max := by
  have low := le_value (s := ds) digit nonzero
  have split : k + (-e).toNat ≤ ds.length + e.toNat := by omega
  refine Nat.not_le.mpr ?_
  calc max * 10 ^ (-e).toNat
      < 10 ^ k * 10 ^ (-e).toNat := Nat.mul_lt_mul_of_pos_right hmax (by positivity)
    _ = 10 ^ (k + (-e).toNat) := (pow_add ..).symm
    _ ≤ 10 ^ (ds.length + e.toNat) := Nat.pow_le_pow_right (by decide) split
    _ = 10 ^ ds.length * 10 ^ e.toNat := pow_add ..
    _ ≤ value (d :: ds) * 10 ^ e.toNat := Nat.mul_le_mul_right _ low

/-- With the point inside the digits, the integer part decides, and after it the fraction. -/
theorem atMost_point {i f : Bytes} (digits : ∀ b ∈ f, isDigit b = true)
    {m : Nat} : AtMost (value (i ++ f)) (-(f.length : Int)) m ↔
      value i < m ∨ value i = m ∧ value f = 0 := by
  have low := value_lt digits
  have power : 0 < 10 ^ f.length := by positivity
  simp only [AtMost, value_append, neg_neg, Int.toNat_natCast, Int.toNat_neg_natCast, pow_zero,
    mul_one]
  constructor
  · intro h
    rcases lt_trichotomy (value i) m with lt | eq | gt
    · exact .inl lt
    · exact .inr ⟨eq, by rw [eq] at h; omega⟩
    · have := Nat.mul_lt_mul_of_pos_right gt power
      omega
  · rintro (lt | ⟨eq, zero⟩)
    · exact Nat.le_of_lt (mul_add_lt_mul lt low)
    · rw [eq, zero]; omega

/-- With the point after the digits, zeros fill the places in between. -/
theorem atMost_pad {s : Bytes} {n m : Nat} :
    AtMost (value s) n m ↔ value (s ++ List.replicate n 0x30) ≤ m := by
  simp [AtMost, value_append]

/-! ## Equal decimals -/

/-- Moving zeros between the digits and the exponent keeps a decimal. -/
theorem same_of_shift {a m b c : Nat} {e j : Int} (h : a * 10 ^ c = m * 10 ^ b)
    (shift : e = j + c - b) : Same a e m j := by
  have exponents : e.toNat + (-j).toNat + b = c + j.toNat + (-e).toNat := by omega
  refine Nat.eq_of_mul_eq_mul_right (m := 10 ^ b * 10 ^ c) (by positivity) ?_
  calc a * 10 ^ e.toNat * 10 ^ (-j).toNat * (10 ^ b * 10 ^ c)
      = a * 10 ^ c * 10 ^ (e.toNat + (-j).toNat + b) := by rw [pow_add, pow_add]; ring
    _ = m * 10 ^ b * 10 ^ (c + j.toNat + (-e).toNat) := by rw [h, exponents]
    _ = m * 10 ^ j.toNat * 10 ^ (-e).toNat * (10 ^ b * 10 ^ c) := by rw [pow_add, pow_add]; ring

/-- A last digit other than zero is no multiple of ten. -/
theorem value_ne_mul_ten {s : Bytes} {d : UInt8} (digit : isDigit d = true) (nonzero : d ≠ 0x30)
    (k : Nat) : value (s ++ [d]) ≠ k * 10 := by
  have low := digitValue_lt digit
  have pos : digitValue d ≠ 0 := fun zero => by
    rw [← digit_digitValue digit, zero] at nonzero
    exact nonzero rfl
  simp only [value_append, List.length_singleton, value_cons, List.length_nil, pow_zero, value_nil]
  omega

/-- With a last digit other than zero behind the point, a decimal is not natural. -/
theorem Same.not_natural {ds : Bytes} {d : UInt8} {e j : Int} {m : Nat} (digit : isDigit d = true)
    (nonzero : d ≠ 0x30) (same : Same (value (ds ++ [d])) e m j) (behind : e < 0) (k : Nat) :
    m * 10 ^ j.toNat ≠ k * 10 ^ (-j).toNat := by
  intro natural
  obtain ⟨s, hs⟩ : ∃ s, (-e).toNat = s + 1 := ⟨(-e).toNat - 1, by omega⟩
  rw [Same, natural, show e.toNat = 0 by omega, pow_zero, Nat.mul_one, hs] at same
  have : value (ds ++ [d]) = k * 10 ^ (s + 1) := by
    refine Nat.eq_of_mul_eq_mul_right (m := 10 ^ (-j).toNat) (by positivity) ?_
    rw [same]
    ring
  exact value_ne_mul_ten digit nonzero (k * 10 ^ s) (by rw [this, pow_succ, Nat.mul_assoc])

end Wire.Decimal
