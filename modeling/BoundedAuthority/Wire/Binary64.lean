import BoundedAuthority.Wire.Decimal

/-!
# Finite binary64 numbers

A finite double is a sign and a multiple of `2^-1074`, counted in `units`.  The
doubles around `t` units are spaced by `quantum t`, so a number of units is a
double exactly when its own quantum divides it.

`roundUnits` rounds a quotient to the nearest double, ties to even, and
`F64.ofDecimal` reads a decimal that way.  `F64.shortest` goes the other way: it
looks for the coarsest power of ten with a multiple that reads back, and takes
the closest one there.

Three facts are used of it.  It reads back (`F64.shortest_reads`), it has at
most eighteen digits (`F64.shortest_lt`), and below `2^53` it is a natural number
exactly when the double is, and then the same one (`F64.shortest_natural`).
-/

namespace Wire

/-- The distance between the doubles around `t` units. -/
def quantum (t : Nat) : Nat := 2 ^ (Nat.log2 t - 52)

/-- A quotient rounded to the nearest natural number, ties to even. -/
def halfEven (num den : Nat) : Nat :=
  let q := num / den
  let r := num % den
  if 2 * r < den then q else if den < 2 * r then q + 1 else q + q % 2

/-- A quotient of units rounded to the nearest double, ties to even. -/
def roundUnits (num den : Nat) : Nat :=
  let q := quantum (num / den)
  halfEven num (den * q) * q

theorem quantum_pos (t : Nat) : 0 < quantum t := Nat.two_pow_pos _

/-! ## Rounding to a natural number -/

theorem halfEven_bounds (num den : Nat) :
    num / den ≤ halfEven num den ∧ halfEven num den ≤ num / den + 1 := by
  simp only [halfEven]
  split
  next => omega
  next => split <;> omega

/-- The nearest natural number is the only one less than half a step away. -/
theorem halfEven_near {num den m : Nat} (low : 2 * (m * den) < 2 * num + den)
    (high : 2 * num < 2 * (m * den) + den) : halfEven num den = m := by
  have pos : 0 < den := by omega
  have split := Nat.div_add_mod num den
  have rem := Nat.mod_lt num pos
  generalize hq : num / den = q at split
  generalize hr : num % den = r at split rem
  simp only [halfEven, hq, hr]
  rw [Nat.mul_comm] at split
  rcases lt_trichotomy m q with lt | rfl | gt
  · have : (m + 1) * den ≤ q * den := Nat.mul_le_mul_right _ lt
    rw [Nat.add_mul] at this
    omega
  · rw [if_pos (by omega)]
  · have above : (q + 1) * den ≤ m * den := Nat.mul_le_mul_right _ gt
    have exact : m = q + 1 := by
      by_contra ne
      have : (q + 2) * den ≤ m * den := Nat.mul_le_mul_right _ (by omega)
      rw [Nat.add_mul] at this
      omega
    rw [Nat.add_mul] at above
    rw [if_neg (by subst exact; rw [Nat.add_mul] at low; omega),
      if_pos (by subst exact; rw [Nat.add_mul] at low; omega), exact]

theorem halfEven_mul (m : Nat) {den : Nat} (pos : 0 < den) : halfEven (m * den) den = m :=
  halfEven_near (by omega) (by omega)

/-! ## Rounding to a double -/

theorem lt_quantum_mul (t : Nat) : t < 2 ^ 53 * quantum t := by
  rcases Nat.eq_zero_or_pos t with rfl | pos
  · decide
  · have := Nat.lt_log2_self (n := t)
    rw [quantum, ← pow_add]
    exact Nat.lt_of_lt_of_le this (Nat.pow_le_pow_right (by decide) (by omega))

theorem quantum_mul_le {t : Nat} (h : 2 ^ 52 ≤ t) : 2 ^ 52 * quantum t ≤ t := by
  have pos : t ≠ 0 := by rintro rfl; simp at h
  have := Nat.log2_self_le pos
  have large : 52 ≤ Nat.log2 t := (Nat.le_log2 pos).mpr h
  rw [quantum, ← pow_add, show 52 + (Nat.log2 t - 52) = Nat.log2 t by omega]
  exact this

theorem quantum_of_lt {t : Nat} (h : t < 2 ^ 53) : quantum t = 1 := by
  rcases Nat.eq_zero_or_pos t with rfl | pos
  · decide
  · have := (Nat.log2_lt (k := 53) (by omega)).mpr h
    rw [quantum, show Nat.log2 t - 52 = 0 by omega, pow_zero]

/-- The quantum depends on the power of two below the number. -/
theorem quantum_eq {t k : Nat} (low : 2 ^ (52 + k) ≤ t) (high : t < 2 ^ (53 + k)) :
    quantum t = 2 ^ k := by
  have nonzero : t ≠ 0 := by have := Nat.two_pow_pos (52 + k); omega
  have lower := (Nat.le_log2 nonzero).mpr low
  have upper := (Nat.log2_lt nonzero).mpr high
  rw [quantum, show Nat.log2 t - 52 = k by omega]

theorem quantum_mono {s t : Nat} (h : s ≤ t) : quantum s ∣ quantum t := by
  rcases Nat.eq_zero_or_pos s with rfl | pos
  · simp [quantum]
  · refine Nat.pow_dvd_pow 2 ?_
    have : Nat.log2 s ≤ Nat.log2 t :=
      (Nat.le_log2 (by omega)).mpr (Nat.le_trans (Nat.log2_self_le (by omega)) h)
    omega

/-- Rounding on the spacing of the quotient. -/
theorem roundUnits_near {num den x : Nat} (h : quantum (num / den) ∣ x)
    (low : 2 * (x * den) < 2 * num + den * quantum (num / den))
    (high : 2 * num < 2 * (x * den) + den * quantum (num / den)) : roundUnits num den = x := by
  obtain ⟨n, rfl⟩ := h
  have same : quantum (num / den) * n * den = n * (den * quantum (num / den)) := by ring
  rw [same] at low high
  simp only [roundUnits]
  rw [halfEven_near low high, Nat.mul_comm]

/-- A double is rounded to itself. -/
theorem roundUnits_mul {x d : Nat} (pos : 0 < d) (h : quantum x ∣ x) :
    roundUnits (x * d) d = x := by
  have quotient : x * d / d = x := Nat.mul_div_cancel x pos
  have step := Nat.mul_pos pos (quantum_pos x)
  refine roundUnits_near ?_ ?_ ?_ <;> rw [quotient]
  · exact h
  · omega
  · omega

/-- The multiple that rounding picks, and its size. -/
theorem roundUnits_bounds (num den : Nat) :
    ∃ n, roundUnits num den = n * quantum (num / den) ∧
      num / den / quantum (num / den) ≤ n ∧ n ≤ 2 ^ 53 := by
  obtain ⟨low, high⟩ := halfEven_bounds num (den * quantum (num / den))
  have small : num / den / quantum (num / den) < 2 ^ 53 :=
    (Nat.div_lt_iff_lt_mul (quantum_pos _)).mpr (lt_quantum_mul _)
  rw [← Nat.div_div_eq_div_mul] at low high
  exact ⟨_, rfl, low, by omega⟩

/-- Rounding gives a double. -/
theorem quantum_dvd_roundUnits (num den : Nat) :
    quantum (roundUnits num den) ∣ roundUnits num den := by
  obtain ⟨n, h, low, high⟩ := roundUnits_bounds num den
  rw [h]
  generalize num / den = f at low
  by_cases small : f < 2 ^ 53
  · rw [quantum_of_lt small, mul_one]
    rcases Nat.lt_or_eq_of_le high with lt | rfl
    · rw [quantum_of_lt lt]
      exact one_dvd _
    · exact Nat.pow_dvd_pow 2 (by decide)
  · -- a leading digit is lost only when the multiple is rounded up to `2^53`
    have nonzero : f ≠ 0 := by omega
    have large : 53 ≤ Nat.log2 f := (Nat.le_log2 nonzero).mpr (by omega)
    have atLeast : 2 ^ 52 ≤ n := by
      refine Nat.le_trans ((Nat.le_div_iff_mul_le (quantum_pos f)).mpr ?_) low
      exact quantum_mul_le (by omega)
    generalize hk : Nat.log2 f - 52 = k
    have quantum_f : quantum f = 2 ^ k := by rw [quantum, hk]
    rw [quantum_f]
    rcases Nat.lt_or_eq_of_le high with lt | rfl
    · rw [quantum_eq (k := k) (by rw [pow_add]; exact Nat.mul_le_mul_right _ atLeast)
        (by rw [pow_add]; exact Nat.mul_lt_mul_of_pos_right lt (Nat.two_pow_pos k))]
      exact Nat.dvd_mul_left ..
    · rw [← pow_add, quantum_eq (k := k + 1) (Nat.pow_le_pow_right (by decide) (by omega))
        (Nat.pow_lt_pow_right (by decide) (by omega))]
      exact Nat.pow_dvd_pow 2 (by omega)

/-- Rounding does not fall below a power of two. -/
theorem le_roundUnits {num den k : Nat} (h : 2 ^ (53 + k) ≤ num / den) :
    2 ^ (53 + k) ≤ roundUnits num den := by
  obtain ⟨n, hn, low, -⟩ := roundUnits_bounds num den
  rw [hn]
  generalize num / den = f at h low
  have nonzero : f ≠ 0 := by have := Nat.two_pow_pos (53 + k); omega
  have large : 53 + k ≤ Nat.log2 f := (Nat.le_log2 nonzero).mpr h
  have atLeast : 2 ^ 52 ≤ n := by
    refine Nat.le_trans ((Nat.le_div_iff_mul_le (quantum_pos f)).mpr (quantum_mul_le ?_)) low
    exact Nat.le_trans (Nat.pow_le_pow_right (by decide) (by omega)) h
  calc 2 ^ (53 + k) ≤ 2 ^ (52 + (Nat.log2 f - 52)) := Nat.pow_le_pow_right (by decide) (by omega)
    _ = 2 ^ 52 * quantum f := pow_add ..
    _ ≤ n * quantum f := Nat.mul_le_mul_right _ atLeast

/-- Rounding at most doubles a number of units. -/
theorem roundUnits_le (num den : Nat) : roundUnits num den ≤ 2 * (num / den) + 1 := by
  obtain ⟨low, high⟩ := halfEven_bounds num (den * quantum (num / den))
  rw [← Nat.div_div_eq_div_mul] at high
  have floor := Nat.div_mul_le_self (num / den) (quantum (num / den))
  simp only [roundUnits]
  generalize num / den = f at high floor ⊢
  have step : quantum f ≤ f + 1 := by
    by_cases small : f < 2 ^ 53
    · rw [quantum_of_lt small]; omega
    · have := quantum_mul_le (t := f) (by omega)
      omega
  calc _ ≤ (f / quantum f + 1) * quantum f := Nat.mul_le_mul_right _ high
    _ = f / quantum f * quantum f + quantum f := by rw [Nat.add_mul, one_mul]
    _ ≤ 2 * f + 1 := by omega

/-- Less than a quarter of the spacing away from a double is nearest to it.  The
spacing below a power of two is half of the one above, which is why a quarter is
asked for and not a half. -/
theorem roundUnits_of_close {num den x : Nat} (h : quantum x ∣ x) (pos : 0 < x)
    (low : 4 * (x * den) < 4 * num + den * quantum x)
    (high : 4 * num < 4 * (x * den) + den * quantum x) : roundUnits num den = x := by
  have hden : 0 < den := by
    rcases Nat.eq_zero_or_pos den with rfl | pos
    · omega
    · exact pos
  suffices spacing : quantum (num / den) ∣ x ∧ quantum x ≤ 2 * quantum (num / den) by
    have step := Nat.mul_le_mul_left den spacing.2
    rw [Nat.mul_left_comm] at step
    refine roundUnits_near spacing.1 ?_ ?_ <;> omega
  have floor := Nat.div_mul_le_self num den
  have ceiling := Nat.lt_mul_div_succ num hden
  generalize num / den = f at floor ceiling ⊢
  have above : 4 * f < 4 * x + quantum x := by
    refine Nat.lt_of_mul_lt_mul_right (a := den) ?_
    rw [Nat.add_mul, Nat.mul_assoc, Nat.mul_assoc, Nat.mul_comm (quantum x)]
    omega
  have below : 4 * x < 4 * f + 4 + quantum x := by
    refine Nat.lt_of_mul_lt_mul_right (a := den) ?_
    rw [Nat.mul_comm den, Nat.add_mul, Nat.one_mul] at ceiling
    rw [Nat.add_mul, Nat.add_mul, Nat.mul_assoc, Nat.mul_assoc, Nat.mul_comm (quantum x)]
    omega
  by_cases small : x < 2 ^ 53
  · rw [quantum_of_lt small] at above ⊢
    rw [quantum_of_lt (t := f) (by omega)]
    exact ⟨one_dvd _, by decide⟩
  · have large : 53 ≤ Nat.log2 x := (Nat.le_log2 (by omega)).mpr (by omega)
    obtain ⟨k, hk⟩ : ∃ k, Nat.log2 x - 52 = k + 1 := ⟨Nat.log2 x - 53, by omega⟩
    have quantum_x : quantum x = 2 ^ (k + 1) := by rw [quantum, hk]
    have lower := Nat.log2_self_le (n := x) (by omega)
    have upper := Nat.lt_log2_self (n := x)
    rw [show Nat.log2 x = 52 + (k + 1) by omega] at lower upper
    rw [quantum_x] at h above below ⊢
    have pow52 : 2 ^ (52 + (k + 1)) = 2 ^ 52 * 2 ^ (k + 1) := pow_add ..
    have pow53 : 2 ^ (52 + (k + 1) + 1) = 2 ^ 53 * 2 ^ (k + 1) := by ring
    have half : 2 ^ (k + 1) = 2 * 2 ^ k := by ring
    by_cases same : 2 ^ (52 + (k + 1)) ≤ f
    · -- at or above the power of two the spacing is the one of `x`
      obtain ⟨n, rfl⟩ := h
      have : n < 2 ^ 53 := by
        refine Nat.lt_of_mul_lt_mul_left (a := 2 ^ (k + 1)) ?_
        omega
      have room : 2 ^ (k + 1) * n + 2 ^ (k + 1) ≤ 2 ^ 53 * 2 ^ (k + 1) := by
        calc 2 ^ (k + 1) * n + 2 ^ (k + 1) = (n + 1) * 2 ^ (k + 1) := by ring
          _ ≤ 2 ^ 53 * 2 ^ (k + 1) := Nat.mul_le_mul_right _ this
      rw [quantum_eq (k := k + 1) same
        (by rw [show 53 + (k + 1) = 52 + (k + 1) + 1 by omega, pow53]; omega)]
      exact ⟨Nat.dvd_mul_right .., by omega⟩
    · -- below it the spacing is half
      have pow51 : 2 ^ (52 + k) = 2 ^ 52 * 2 ^ k := pow_add ..
      have := Nat.two_pow_pos k
      rw [quantum_eq (t := f) (k := k) (by omega)
        (by rw [show 53 + k = 52 + (k + 1) by omega]; omega), half]
      refine ⟨?_, Nat.le_refl _⟩
      rw [half] at h
      exact Nat.dvd_trans (Nat.dvd_mul_left ..) h

/-- A rounded quotient is at most half a step away. -/
theorem halfEven_distance {n den : Nat} (pos : 0 < den) :
    2 * n ≤ 2 * (halfEven n den * den) + den ∧
      2 * (halfEven n den * den) ≤ 2 * n + den := by
  have split := Nat.div_add_mod n den
  have rem := Nat.mod_lt n pos
  generalize hq : n / den = q at split
  generalize hr : n % den = r at split rem
  simp only [halfEven, hq, hr]
  rw [Nat.mul_comm] at split
  split
  next => omega
  next =>
    split
    next => rw [Nat.add_mul]; omega
    next =>
      rcases Nat.mod_two_eq_zero_or_one q with even | odd
      · rw [even, Nat.add_zero]; omega
      · rw [odd, Nat.add_mul]; omega

/-! ## Doubles -/

/-- The least double is `2^-1074`. -/
@[irreducible] def precision : Nat := 1074

theorem precision_eq : precision = 1074 := by
  rw [precision]

/-- The units of one. -/
def unit : Nat := 2 ^ precision

/-- A finite double. -/
@[ext] structure F64 where
  negative : Bool
  units : Nat
  representable : quantum units ∣ units
  finite : units < 2 ^ 1024 * unit
deriving DecidableEq

/-- A double. -/
inductive Float64
  | finite (value : F64)
  | infinite (negative : Bool)
  | nan

namespace F64

/-- Whether the magnitude is at most a natural number. -/
def magnitudeAtMost (x : F64) (max : Nat) : Bool := x.units ≤ max * unit

/-- The nearest double to `m · 10^e`, unless it overflows. -/
def ofDecimal (negative : Bool) (m : Nat) (e : Int) : Option F64 :=
  let units := roundUnits (m * 10 ^ e.toNat * unit) (10 ^ (-e).toNat)
  if h : units < 2 ^ 1024 * unit then
    some ⟨negative, units, quantum_dvd_roundUnits .., h⟩
  else none

/-- `m · 10^j` reads back as the magnitude. -/
def Reads (x : F64) (m : Nat) (j : Int) : Prop :=
  roundUnits (m * 10 ^ j.toNat * unit) (10 ^ (-j).toNat) = x.units

instance (x : F64) (m : Nat) (j : Int) : Decidable (x.Reads m j) :=
  inferInstanceAs (Decidable (_ = _))

/-- The first of two multiples that reads back. -/
def firstReading (x : F64) (j : Int) (m n : Nat) : Option Nat :=
  if x.Reads m j then some m else if x.Reads n j then some n else none

/-- The multiple of `10^j` that reads back and is closest to the magnitude; of
the two multiples around it, the even one when they are equally close. -/
def candidate (x : F64) (j : Int) : Option Nat :=
  let num := x.units * 10 ^ (-j).toNat
  let den := unit * 10 ^ j.toNat
  let floor := num / den
  let nearest := halfEven num den
  firstReading x j nearest (if nearest = floor then floor + 1 else floor)

/-- The search from `10^j` down through `n` powers of ten; below them every
double is a multiple. -/
def shortestFrom (x : F64) : Nat → Int → Nat × Int
  | 0, _ => (x.units * 5 ^ precision, -precision)
  | n + 1, j =>
      ((x.candidate j).map (·, j)).getD (shortestFrom x n (j - 1))

/-- The shortest decimal that reads back, as a number of multiples of a power of
ten. -/
def shortest (x : F64) : Nat × Int := x.shortestFrom (precision + 308) 308

/-! ## Reading back -/

theorem unit_pos : 0 < unit := Nat.two_pow_pos _

theorem firstReading_eq_some {x : F64} {j : Int} {m n k : Nat}
    (h : x.firstReading j m n = some k) : x.Reads k j ∧ (k = m ∨ k = n) := by
  unfold firstReading at h
  by_cases first : x.Reads m j
  · rw [if_pos first] at h
    obtain rfl := Option.some.inj h
    exact ⟨first, .inl rfl⟩
  · rw [if_neg first] at h
    by_cases second : x.Reads n j
    · rw [if_pos second] at h
      obtain rfl := Option.some.inj h
      exact ⟨second, .inr rfl⟩
    · rw [if_neg second] at h
      cases h

theorem candidate_reads {x : F64} {j : Int} {m : Nat} (h : x.candidate j = some m) :
    x.Reads m j := by
  rw [candidate] at h
  exact (firstReading_eq_some h).1

/-- A candidate is one of the two multiples around the magnitude. -/
theorem candidate_le {x : F64} {j : Int} {m : Nat} (h : x.candidate j = some m) :
    m ≤ x.units * 10 ^ (-j).toNat / (unit * 10 ^ j.toNat) + 1 := by
  have bounds := halfEven_bounds (x.units * 10 ^ (-j).toNat) (unit * 10 ^ j.toNat)
  rw [candidate] at h
  obtain ⟨-, rfl | rfl⟩ := firstReading_eq_some h
  · exact bounds.2
  · split <;> omega

/-- A magnitude that is a multiple is a candidate. -/
theorem candidate_exact {x : F64} {j : Int} {m : Nat}
    (h : x.units * 10 ^ (-j).toNat = m * (unit * 10 ^ j.toNat)) : x.candidate j = some m := by
  have reads : x.Reads m j := by
    unfold Reads
    rw [show m * 10 ^ j.toNat * unit = x.units * 10 ^ (-j).toNat by rw [h]; ring]
    exact roundUnits_mul (by positivity) x.representable
  rw [candidate, h, halfEven_mul m (Nat.mul_pos unit_pos (by positivity)), firstReading,
    if_pos reads]

/-- A grid finer than half the spacing has a multiple that reads back. -/
theorem candidate_ne_none {x : F64} {j : Int} (pos : 0 < x.units)
    (h : 2 * (unit * 10 ^ j.toNat) < quantum x.units * 10 ^ (-j).toNat) :
    x.candidate j ≠ none := by
  have hden : 0 < unit * 10 ^ j.toNat := Nat.mul_pos unit_pos (by positivity)
  obtain ⟨low, high⟩ := halfEven_distance (n := x.units * 10 ^ (-j).toNat) hden
  have reads : x.Reads (halfEven (x.units * 10 ^ (-j).toNat) (unit * 10 ^ j.toNat)) j := by
    unfold Reads
    generalize halfEven (x.units * 10 ^ (-j).toNat) (unit * 10 ^ j.toNat) = m at low high
    refine roundUnits_of_close x.representable pos ?_ ?_
    · rw [show m * 10 ^ j.toNat * unit = m * (unit * 10 ^ j.toNat) by ring]
      rw [Nat.mul_comm (10 ^ _) (quantum _)]
      omega
    · rw [show m * 10 ^ j.toNat * unit = m * (unit * 10 ^ j.toNat) by ring]
      rw [Nat.mul_comm (10 ^ _) (quantum _)]
      omega
  rw [candidate, firstReading, if_pos reads]
  exact Option.some_ne_none _

/-- A decimal that reads back, from the coarsest grid at or below `10^start` that
has one. -/
structure Coarsest (x : F64) (start : Int) (m : Nat) (j : Int) : Prop where
  reads : x.Reads m j
  low : -(precision : Int) ≤ j
  high : j ≤ start
  none_above : ∀ i, j < i → i ≤ start → x.candidate i = none
  size : m ≤ x.units * 10 ^ (-j).toNat / (unit * 10 ^ j.toNat) + 1

theorem Coarsest.of_candidate {x : F64} {j : Int} {m : Nat} (h : x.candidate j = some m)
    (low : -(precision : Int) ≤ j) : Coarsest x j m j where
  reads := candidate_reads h
  low := low
  high := le_refl j
  none_above _ above below := absurd below (by omega)
  size := candidate_le h

theorem Coarsest.step {x : F64} {j k : Int} {m : Nat} (h : Coarsest x (j - 1) m k)
    (missing : x.candidate j = none) : Coarsest x j m k where
  reads := h.reads
  low := h.low
  high := by have := h.high; omega
  none_above i above below := by
    rcases eq_or_ne i j with rfl | ne
    · exact missing
    · exact h.none_above i above (by omega)
  size := h.size

theorem shortestFrom_succ (x : F64) (n : Nat) (j : Int) :
    x.shortestFrom (n + 1) j = ((x.candidate j).map (·, j)).getD (x.shortestFrom n (j - 1)) := by
  rfl

theorem coarsest_shortestFrom (x : F64) : ∀ (n : Nat) (j : Int), j = n - precision →
    Coarsest x j (x.shortestFrom n j).1 (x.shortestFrom n j).2
  | 0, j, h => by
      have exact : x.candidate (-precision) = some (x.units * 5 ^ precision) := by
        apply candidate_exact
        rw [neg_neg, Int.toNat_natCast, Int.toNat_neg_natCast, unit,
          show (10 : Nat) = 5 * 2 by rfl, mul_pow]
        ring
      obtain rfl : j = -precision := by omega
      exact .of_candidate exact (le_refl _)
  | n + 1, j, h => by
      cases found : x.candidate j with
      | some m =>
          rw [shortestFrom_succ, found]
          exact .of_candidate found (by omega)
      | none =>
          rw [shortestFrom_succ, found]
          exact (coarsest_shortestFrom x n (j - 1) (by omega)).step found

theorem shortest_eq (x : F64) : x.shortest = x.shortestFrom (precision + 308) 308 := rfl

theorem coarsest_shortest (x : F64) : Coarsest x 308 x.shortest.1 x.shortest.2 := by
  rw [shortest_eq]
  exact coarsest_shortestFrom x (precision + 308) 308 (by push_cast; ring)

/-- The shortest decimal reads back. -/
theorem shortest_reads (x : F64) : x.Reads x.shortest.1 x.shortest.2 := (coarsest_shortest x).reads

/-- A magnitude other than zero has a decimal other than zero. -/
theorem shortest_pos {x : F64} (pos : 0 < x.units) : 0 < x.shortest.1 := by
  rcases Nat.eq_zero_or_pos x.shortest.1 with zero | positive
  · have reads := shortest_reads x
    have zeroUnits := roundUnits_mul (x := 0) (d := 10 ^ (-x.shortest.2).toNat)
      (by positivity) (Nat.dvd_zero _)
    rw [Reads, zero] at reads
    simp only [Nat.zero_mul] at reads zeroUnits
    omega
  · exact positive

/-- A decimal and its value on the next coarser grid. -/
theorem pow_succ_grid (j : Int) :
    10 ^ (j + 1).toNat * 10 ^ (-j).toNat = 10 * 10 ^ j.toNat * 10 ^ (-(j + 1)).toNat := by
  rcases lt_or_ge j 0 with neg | nonneg
  · obtain ⟨k, hk⟩ : ∃ k : Nat, (-(j + 1)).toNat = k := ⟨_, rfl⟩
    rw [show (j + 1).toNat = 0 by omega, show (-j).toNat = k + 1 by omega,
      show j.toNat = 0 by omega, hk]
    ring
  · rw [show (j + 1).toNat = j.toNat + 1 by omega, show (-j).toNat = 0 by omega,
      show (-(j + 1)).toNat = 0 by omega]
    ring

/-- Eighteen digits suffice: the grid above was too coarse for the spacing, so the
grid found is at most twenty times finer than it. -/
theorem shortest_lt (x : F64) : x.shortest.1 < 10 ^ 18 := by
  have h := coarsest_shortest x
  generalize x.shortest.1 = m at h
  generalize x.shortest.2 = j at h
  suffices x.units * 10 ^ (-j).toNat ≤ 2 ^ 53 * 20 * (unit * 10 ^ j.toNat) by
    have bound := Nat.div_le_of_le_mul (Nat.le_trans this (Nat.le_of_eq (Nat.mul_comm ..)))
    have := h.size
    omega
  rcases Nat.eq_zero_or_pos x.units with zero | pos
  · rw [zero, Nat.zero_mul]
    exact Nat.zero_le _
  rcases lt_or_ge j 308 with below | top
  · have coarse : quantum x.units * 10 ^ (-(j + 1)).toNat ≤ 2 * (unit * 10 ^ (j + 1).toNat) := by
      refine Nat.le_of_not_lt fun fine => ?_
      exact candidate_ne_none pos fine (h.none_above (j + 1) (by omega) (by omega))
    have small := (lt_quantum_mul x.units).le
    have grid := pow_succ_grid j
    refine Nat.le_of_mul_le_mul_right (c := 10 ^ (-(j + 1)).toNat) ?_ (by positivity)
    calc x.units * 10 ^ (-j).toNat * 10 ^ (-(j + 1)).toNat
        ≤ 2 ^ 53 * quantum x.units * 10 ^ (-j).toNat * 10 ^ (-(j + 1)).toNat := by gcongr
      _ = 2 ^ 53 * 10 ^ (-j).toNat * (quantum x.units * 10 ^ (-(j + 1)).toNat) := by ring
      _ ≤ 2 ^ 53 * 10 ^ (-j).toNat * (2 * (unit * 10 ^ (j + 1).toNat)) := by gcongr
      _ = 2 ^ 53 * 2 * unit * (10 ^ (j + 1).toNat * 10 ^ (-j).toNat) := by ring
      _ = 2 ^ 53 * 20 * (unit * 10 ^ j.toNat) * 10 ^ (-(j + 1)).toNat := by rw [grid]; ring
  · obtain rfl : j = 308 := by have := h.high; omega
    have power : (2 : Nat) ^ 1024 ≤ 2 ^ 53 * 20 * 10 ^ 308 := by decide +kernel
    calc x.units * 10 ^ (-308 : Int).toNat
        = x.units := by simp
      _ ≤ 2 ^ 1024 * unit := x.finite.le
      _ ≤ 2 ^ 53 * 20 * 10 ^ 308 * unit := Nat.mul_le_mul_right _ power
      _ = 2 ^ 53 * 20 * (unit * 10 ^ (308 : Int).toNat) := by
          rw [show (308 : Int).toNat = 308 by rfl, Nat.mul_assoc, Nat.mul_comm unit]

/-! ## Natural numbers -/

/-- A natural number below `2^53` is a double. -/
theorem quantum_dvd_natural {k : Nat} (h : k < 2 ^ 53) : quantum (k * unit) ∣ k * unit := by
  refine Nat.dvd_trans (Nat.pow_dvd_pow 2 ?_) (Nat.dvd_mul_left unit k)
  rcases Nat.eq_zero_or_pos k with rfl | pos
  · simp
  · have : k * unit < 2 ^ (53 + precision) := by
      rw [pow_add]
      exact Nat.mul_lt_mul_of_pos_right h unit_pos
    have := (Nat.log2_lt (Nat.ne_of_gt (Nat.mul_pos pos unit_pos))).mpr this
    omega

/-- Below `2^53` only the number itself reads back as a natural number. -/
theorem units_of_reads {x : F64} {m k : Nat} {j : Int} (small : x.units < 2 ^ 53 * unit)
    (reads : x.Reads m j) (same : m * 10 ^ j.toNat = k * 10 ^ (-j).toNat) :
    x.units = k * unit := by
  have hden : 0 < 10 ^ (-j).toNat := by positivity
  rw [Reads, show m * 10 ^ j.toNat * unit = k * unit * 10 ^ (-j).toNat by rw [same]; ring] at reads
  by_cases large : k < 2 ^ 53
  · rw [← reads, roundUnits_mul hden (quantum_dvd_natural large)]
  · exfalso
    have quotient : k * unit * 10 ^ (-j).toNat / 10 ^ (-j).toNat = k * unit :=
      Nat.mul_div_cancel _ hden
    have atLeast : 2 ^ (53 + precision) ≤ k * unit * 10 ^ (-j).toNat / 10 ^ (-j).toNat := by
      rw [quotient, pow_add]
      exact Nat.mul_le_mul_right _ (by omega)
    have := le_roundUnits atLeast
    rw [reads, pow_add] at this
    exact absurd small (Nat.not_lt.mpr this)

/-- The shortest decimal of a double below a power of two is below it. -/
theorem shortest_below {x : F64} {p : Nat} (small : x.units < 2 ^ p * unit) :
    x.shortest.1 * 10 ^ x.shortest.2.toNat < 2 ^ p * 10 ^ (-x.shortest.2).toNat := by
  by_contra large
  have reads := shortest_reads x
  have hden : 0 < 10 ^ (-x.shortest.2).toNat := by positivity
  obtain ⟨k, hk⟩ : ∃ k, p + precision = 53 + k :=
    ⟨p + precision - 53, by rw [precision_eq]; omega⟩
  have power : 2 ^ p * unit = 2 ^ (53 + k) := by rw [← hk, pow_add, unit]
  have atLeast : 2 ^ (53 + k) ≤
      x.shortest.1 * 10 ^ x.shortest.2.toNat * unit / 10 ^ (-x.shortest.2).toNat := by
    rw [Nat.le_div_iff_mul_le hden, ← power]
    calc 2 ^ p * unit * 10 ^ (-x.shortest.2).toNat
        = 2 ^ p * 10 ^ (-x.shortest.2).toNat * unit := by ring
      _ ≤ _ := Nat.mul_le_mul_right _ (by omega)
  have := le_roundUnits atLeast
  rw [reads, ← power] at this
  exact absurd small (Nat.not_lt.mpr this)

/-- From `2^52` on every double is a natural number. -/
theorem unit_dvd_of_large {x : F64} (large : 2 ^ 52 * unit ≤ x.units) : unit ∣ x.units := by
  refine Nat.dvd_trans ?_ x.representable
  refine Nat.pow_dvd_pow 2 ?_
  rw [unit, ← pow_add] at large
  have := Nat.two_pow_pos (52 + precision)
  have := (Nat.le_log2 (n := x.units) (by omega)).mpr large
  omega

/-- Below `2^53` the shortest decimal of a natural number is that number, and no
other double has a natural number for its shortest decimal. -/
theorem shortest_natural {x : F64} (small : x.units < 2 ^ 53 * unit) (k : Nat) :
    x.shortest.1 * 10 ^ x.shortest.2.toNat = k * 10 ^ (-x.shortest.2).toNat ↔
      x.units = k * unit := by
  constructor
  · exact units_of_reads small (shortest_reads x)
  · intro h
    have nonneg : 0 ≤ x.shortest.2 := by
      by_contra neg
      have exact : x.candidate 0 = some k := candidate_exact (by simpa using h)
      rw [(coarsest_shortest x).none_above 0 (by omega) (by decide)] at exact
      cases exact
    have zero : (-x.shortest.2).toNat = 0 := by omega
    have same := units_of_reads (k := x.shortest.1 * 10 ^ x.shortest.2.toNat) small
      (shortest_reads x) (by rw [zero, pow_zero, Nat.mul_one])
    rw [zero, pow_zero, Nat.mul_one]
    exact Nat.eq_of_mul_eq_mul_right unit_pos (same.symm.trans h)

/-! ## Decimals -/

theorem roundUnits_scale (num den : Nat) {c : Nat} (pos : 0 < c) :
    roundUnits (num * c) (den * c) = roundUnits num den := by
  have half : ∀ den, halfEven (num * c) (den * c) = halfEven num den := by
    intro den
    simp only [halfEven, Nat.mul_div_mul_right _ _ pos, Nat.mul_mod_mul_right, ← Nat.mul_assoc,
      Nat.mul_lt_mul_right pos]
  simp only [roundUnits, Nat.mul_div_mul_right _ _ pos]
  rw [Nat.mul_right_comm, half]

/-- Equal decimals are read as the same double. -/
theorem ofDecimal_congr (negative : Bool) {m m' : Nat} {e e' : Int}
    (h : Decimal.Same m e m' e') : ofDecimal negative m e = ofDecimal negative m' e' := by
  have left := roundUnits_scale (m * 10 ^ e.toNat * unit) (10 ^ (-e).toNat)
    (c := 10 ^ (-e').toNat) (by positivity)
  have right := roundUnits_scale (m' * 10 ^ e'.toNat * unit) (10 ^ (-e').toNat)
    (c := 10 ^ (-e).toNat) (by positivity)
  have same : m * 10 ^ e.toNat * unit * 10 ^ (-e').toNat =
      m' * 10 ^ e'.toNat * unit * 10 ^ (-e).toNat := by
    rw [Nat.mul_right_comm, h, Nat.mul_right_comm]
  rw [same, Nat.mul_comm (10 ^ (-e).toNat), right] at left
  simp only [ofDecimal, left]

theorem ofDecimal_of_reads {x : F64} {m : Nat} {j : Int} (h : x.Reads m j) :
    ofDecimal x.negative m j = some x := by
  have same : roundUnits (m * 10 ^ j.toNat * unit) (10 ^ (-j).toNat) = x.units := h
  simp only [ofDecimal, same, x.finite, dif_pos]

/-- A decimal that does not exceed a natural number does not overflow. -/
theorem ofDecimal_isSome {negative : Bool} {m max : Nat} {e : Int} (h : Decimal.AtMost m e max)
    (bound : max < 2 ^ 1000) : (ofDecimal negative m e).isSome = true := by
  have quotient : m * 10 ^ e.toNat * unit / 10 ^ (-e).toNat ≤ max * unit := by
    refine Nat.div_le_of_le_mul ?_
    calc m * 10 ^ e.toNat * unit ≤ max * 10 ^ (-e).toNat * unit := Nat.mul_le_mul_right _ h
      _ = 10 ^ (-e).toNat * (max * unit) := by ring
  have size := roundUnits_le (m * 10 ^ e.toNat * unit) (10 ^ (-e).toNat)
  have room : max * unit < 2 ^ 1000 * unit := Nat.mul_lt_mul_of_pos_right bound unit_pos
  have power : 2 * (2 ^ 1000 * unit) + 1 ≤ 2 ^ 1024 * unit := by
    have : 2 ^ 1024 * unit = 2 ^ 24 * (2 ^ 1000 * unit) := by rw [← Nat.mul_assoc, ← pow_add]
    have := Nat.mul_pos (Nat.two_pow_pos 1000) unit_pos
    omega
  have finite : roundUnits (m * 10 ^ e.toNat * unit) (10 ^ (-e).toNat) < 2 ^ 1024 * unit := by omega
  simp only [ofDecimal, finite, dif_pos, Option.isSome_some]

end F64

end Wire
