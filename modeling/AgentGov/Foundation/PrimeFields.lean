import Mathlib.NumberTheory.LegendreSymbol.Basic
import Mathlib.NumberTheory.LucasPrimality
import Mathlib.Tactic.NormNum.Prime

/-!
# Computing in prime fields

Powers modulo a number by squaring, primality by Lucas's test from the primes of the predecessor,
and square roots modulo a prime that is five more than a multiple of eight.

## Main definitions

* `Foundation.powMod`: a power modulo a number.
* `Foundation.LucasStep`, `Foundation.lucasChain`: a number with what shows it prime, and a list of
  them in which each rests on the ones after it.

## Main results

* `Foundation.powMod_eq`: the power that is computed.
* `Foundation.prime_of_lucasChain`: every number of a chain is prime.
* `Foundation.candidate_sq`: a number is a square where one of two candidates is its root.
-/

namespace Foundation

/-! ### Powers -/

/-- The power by squaring, the exponent's bits taken from the highest on. -/
def powBits (modulus base : ℕ) : ℕ → ℕ → ℕ
  | 0, _ => 1 % modulus
  | bits + 1, exponent =>
    let half := powBits modulus base bits (exponent / 2)
    if exponent % 2 = 0 then half * half % modulus else half * half % modulus * base % modulus

theorem powBits_eq (modulus base : ℕ) {bits exponent : ℕ} (h : exponent < 2 ^ bits) :
    powBits modulus base bits exponent = base ^ exponent % modulus := by
  induction bits generalizing exponent with
  | zero => rw [powBits, Nat.lt_one_iff.mp h, pow_zero]
  | succ bits ih =>
    have hhalf : exponent / 2 < 2 ^ bits := by
      rw [pow_succ] at h
      omega
    have hsquare : base ^ (exponent / 2) % modulus * (base ^ (exponent / 2) % modulus) % modulus =
        base ^ (2 * (exponent / 2)) % modulus := by
      rw [← Nat.mul_mod, ← pow_add, two_mul]
    simp only [powBits, ih hhalf, hsquare]
    split_ifs with hpar
    · rw [Nat.mul_div_cancel' (Nat.dvd_of_mod_eq_zero hpar)]
    · rw [Nat.mod_mul_mod, ← pow_succ]
      congr 2
      omega

/-- A power modulo a number. -/
def powMod (base exponent modulus : ℕ) : ℕ := powBits modulus base (exponent.log2 + 1) exponent

theorem powMod_eq (base exponent modulus : ℕ) :
    powMod base exponent modulus = base ^ exponent % modulus :=
  powBits_eq modulus base Nat.lt_log2_self

theorem powMod_cast {p : ℕ} (base exponent : ℕ) :
    ((powMod base exponent p : ℕ) : ZMod p) = (base : ZMod p) ^ exponent := by
  rw [powMod_eq, ZMod.natCast_mod, Nat.cast_pow]

/-! ### Primes -/

/-- A number, a primitive root of it, and the primes of its predecessor, each as often as it
divides it. -/
structure LucasStep where
  number : ℕ
  root : ℕ
  primes : List ℕ

/-- Whether a step shows its number to be prime, its primes being so. -/
def LucasStep.holds (s : LucasStep) : Bool :=
  2 ≤ s.number && s.primes.prod = s.number - 1 &&
    powMod s.root (s.number - 1) s.number = 1 &&
    s.primes.all fun q => powMod s.root ((s.number - 1) / q) s.number ≠ 1

/-- Whether every step rests on numbers that are known or shown later in the list. -/
def lucasChain (known : List ℕ) : List LucasStep → Bool
  | [] => true
  | s :: steps =>
    s.holds && (s.primes.all fun q => decide (q ∈ known ++ steps.map LucasStep.number)) &&
      lucasChain known steps

theorem LucasStep.prime {s : LucasStep} (h : s.holds = true) (hprimes : ∀ q ∈ s.primes, q.Prime) :
    s.number.Prime := by
  simp only [holds, Bool.and_eq_true, decide_eq_true_eq, List.all_eq_true] at h
  obtain ⟨⟨⟨htwo, hprod⟩, hone⟩, hne⟩ := h
  have hpow (n : ℕ) : powMod s.root n s.number = 1 ↔ (s.root : ZMod s.number) ^ n = 1 := by
    rw [powMod_eq, ← Nat.cast_pow, ← Nat.cast_one (R := ZMod s.number),
      ZMod.natCast_eq_natCast_iff', Nat.mod_eq_of_lt (show 1 < s.number by omega)]
  refine lucas_primality s.number s.root ((hpow _).mp hone) fun q hq hdvd => ?_
  rw [← hprod, hq.prime.dvd_prod_iff] at hdvd
  obtain ⟨r, hr, hdvd⟩ := hdvd
  rw [(Nat.prime_dvd_prime_iff_eq hq (hprimes r hr)).mp hdvd, ne_eq, ← hpow]
  exact hne r hr

/-- Every number of a chain is prime. -/
theorem prime_of_lucasChain {known : List ℕ} (hknown : ∀ q ∈ known, q.Prime)
    {steps : List LucasStep}
    (h : lucasChain known steps = true) : ∀ s ∈ steps, s.number.Prime := by
  induction steps with
  | nil => simp
  | cons s steps ih =>
    simp only [lucasChain, Bool.and_eq_true, List.all_eq_true, decide_eq_true_eq] at h
    obtain ⟨⟨hs, hprimes⟩, hsteps⟩ := h
    refine List.forall_mem_cons.mpr ⟨LucasStep.prime hs fun q hq => ?_, ih hsteps⟩
    rcases List.mem_append.mp (hprimes q hq) with hq | hq
    · exact hknown q hq
    · obtain ⟨t, ht, rfl⟩ := List.mem_map.mp hq
      exact ih hsteps t ht

/-! ### Square roots -/

section SquareRoots

variable {p : ℕ} [Fact p.Prime]

/-- The fourth power of the candidate is the square of the number, if the number is a square. -/
theorem candidate_sq {u : ZMod p} (hp : p % 8 = 5) (hu : IsSquare u) (hne : u ≠ 0) :
    (u ^ ((p + 3) / 8)) ^ 2 = u ∨ (u ^ ((p + 3) / 8)) ^ 2 = -u := by
  have heuler : u ^ (p / 2) = 1 := (ZMod.euler_criterion p hne).mp hu
  have hhalf : (u ^ ((p - 1) / 4)) ^ 2 = 1 := by
    rw [← pow_mul, show (p - 1) / 4 * 2 = p / 2 by omega, heuler]
  have hcandidate : (u ^ ((p + 3) / 8)) ^ 2 = u ^ ((p - 1) / 4) * u := by
    rw [← pow_mul, ← pow_succ]
    congr 1
    omega
  rw [hcandidate]
  rcases mul_self_eq_one_iff.mp ((sq _).symm.trans hhalf) with h | h
  · exact Or.inl (by rw [h, one_mul])
  · exact Or.inr (by rw [h, neg_one_mul])

end SquareRoots

end Foundation
