import Mathlib.Data.ZMod.Basic
import Mathlib.NumberTheory.LucasPrimality

/-!
# Certified primes

Modular powers by the octets of the exponent, and the test of Lucas over a factorization of the
predecessor.  A ladder certifies a large prime by smaller ones, each from the rungs below it.
-/

namespace Wire

/-- `base ^ exponent` modulo `modulus`, by the octets of the exponent, as many as the fuel. -/
def powMod (modulus : Nat) : Nat → Nat → Nat → Nat
  | 0, _, _ => 1 % modulus
  | fuel + 1, base, exponent =>
      base ^ (exponent % 256) % modulus *
        powMod modulus fuel (base ^ 256 % modulus) (exponent / 256) % modulus

theorem powMod_eq (modulus : Nat) (fuel base exponent : Nat) (fits : exponent < 256 ^ fuel) :
    powMod modulus fuel base exponent = base ^ exponent % modulus := by
  induction fuel generalizing base exponent with
  | zero =>
    have zero : exponent = 0 := by omega
    rw [zero, powMod, pow_zero]
  | succ fuel ih =>
    have high : exponent / 256 < 256 ^ fuel := by
      rw [pow_succ] at fits
      omega
    have octets : exponent % 256 + 256 * (exponent / 256) = exponent := Nat.mod_add_div _ _
    calc powMod modulus (fuel + 1) base exponent
        = base ^ (exponent % 256) % modulus *
            ((base ^ 256 % modulus) ^ (exponent / 256) % modulus) % modulus := by
          rw [powMod, ih _ _ high]
      _ = base ^ (exponent % 256) * (base ^ 256) ^ (exponent / 256) % modulus := by
          rw [← Nat.pow_mod, ← Nat.mul_mod]
      _ = base ^ exponent % modulus := by
          rw [← pow_mul, ← pow_add, octets]

/-- A number, a residue whose order is to be its predecessor, and the factors of that. -/
structure Rung where
  p : Nat
  a : Nat
  factors : List Nat

/-- The residue has the order, as the factors show it. -/
def Rung.certifies (rung : Rung) : Bool :=
  1 < rung.p && rung.p ≤ 256 ^ 32 && rung.factors.prod = rung.p - 1 &&
    powMod rung.p 32 rung.a (rung.p - 1) = 1 &&
    rung.factors.all fun q => powMod rung.p 32 rung.a ((rung.p - 1) / q) != 1

/-- A residue of order `p - 1` makes `p` prime. -/
theorem Rung.prime {rung : Rung} (certified : rung.certifies = true)
    (primes : ∀ q ∈ rung.factors, q.Prime) : rung.p.Prime := by
  simp only [certifies, Bool.and_eq_true, decide_eq_true_eq, List.all_eq_true, bne_iff_ne]
    at certified
  obtain ⟨⟨⟨⟨big, fits⟩, product⟩, order⟩, proper⟩ := certified
  have power : ∀ n < 256 ^ 32, (rung.a : ZMod rung.p) ^ n = 1 ↔ powMod rung.p 32 rung.a n = 1 := by
    intro n bound
    have cast : (rung.a : ZMod rung.p) ^ n = ((rung.a ^ n : Nat) : ZMod rung.p) := by
      rw [Nat.cast_pow]
    rw [powMod_eq _ 32 _ n bound, cast, ← Nat.cast_one, ZMod.natCast_eq_natCast_iff',
      Nat.mod_eq_of_lt big]
  refine lucas_primality rung.p rung.a ((power (rung.p - 1) (by omega)).mpr order) ?_
  intro q prime divides one
  rw [← product, Prime.dvd_prod_iff prime.prime] at divides
  obtain ⟨factor, listed, divides⟩ := divides
  have same : q = factor := (Nat.prime_dvd_prime_iff_eq prime (primes factor listed)).mp divides
  have bound : (rung.p - 1) / q < 256 ^ 32 :=
    lt_of_le_of_lt (Nat.div_le_self (rung.p - 1) q) (by omega)
  refine proper factor listed ?_
  rw [← same]
  exact (power _ bound).mp one

/-- Every rung holds when its factors are found below it or by trial. -/
def ladder (known : List Nat) : List Rung → Bool
  | [] => true
  | rung :: rest =>
      rung.certifies && (rung.factors.all fun q => known.contains q || decide q.Prime) &&
        ladder (rung.p :: known) rest

theorem prime_of_ladder {known : List Nat} {rungs : List Rung} (primes : ∀ q ∈ known, q.Prime)
    (climbs : ladder known rungs = true) : ∀ rung ∈ rungs, rung.p.Prime := by
  induction rungs generalizing known with
  | nil =>
    intro rung member
    cases member
  | cons first rest ih =>
    simp only [ladder, Bool.and_eq_true, List.all_eq_true, Bool.or_eq_true, List.contains_iff_mem,
      decide_eq_true_eq] at climbs
    obtain ⟨⟨certified, found⟩, above⟩ := climbs
    have prime : first.p.Prime := by
      refine Rung.prime certified ?_
      intro q factor
      cases found q factor with
      | inl below => exact primes q below
      | inr trial => exact trial
    intro rung member
    cases member with
    | head => exact prime
    | tail _ later =>
      refine ih ?_ above rung later
      intro q listed
      cases listed with
      | head => exact prime
      | tail _ below => exact primes q below

/-- The top of a ladder is prime. -/
theorem prime_of_top (rungs : List Rung) (top : Rung)
    (climbs : ladder [] (rungs ++ [top]) = true) : top.p.Prime := by
  refine prime_of_ladder ?_ climbs top ?_
  · intro q none
    cases none
  · exact List.mem_append_right rungs (List.mem_singleton_self top)

end Wire
