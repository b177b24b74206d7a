import AgentGov.Foundation.PrimeFields
import AgentGov.Foundation.TwistedEdwards
import Mathlib.Tactic.Abel

/-!
# The curve of Ed25519

The field, the curve and the point arithmetic of the signature check
(`src/src/agentgov/receipts/_ed25519.py`, lines 25–51 and 79–80). Points are computed with in
extended coordinates, as integers modulo the prime.

## Main definitions

* `AgentGov.Receipts.Ed25519.add`, `AgentGov.Receipts.Ed25519.multiply`: the arithmetic.
* `AgentGov.Receipts.Ed25519.equal`: whether two triples of coordinates are of one point.
* `AgentGov.Receipts.Ed25519.curve`: the twisted Edwards curve the coordinates are of.

## Main results

* `AgentGov.Receipts.Ed25519.prime_fieldPrime`, `AgentGov.Receipts.Ed25519.prime_groupOrder`.
* `AgentGov.Receipts.Ed25519.OfPoint.add`: `_add` is the group law.
* `AgentGov.Receipts.Ed25519.OfPoint.multiply`: `_multiply` is scalar multiplication.
-/

open Foundation

namespace AgentGov.Receipts.Ed25519

/-! ### The constants -/

/-- `_P`. -/
def fieldPrime : ℕ := 2 ^ 255 - 19

/-- `_L`. -/
def groupOrder : ℕ := 2 ^ 252 + 27742317777372353535851937790883648493

/-- `pow(base, exponent, modulus)`. -/
def pow (base : ℤ) (exponent modulus : ℕ) : ℤ :=
  powMod (base % modulus).toNat exponent modulus

/-- `_D`. -/
def coefficientD : ℤ := -121665 * pow 121666 (fieldPrime - 2) fieldPrime % fieldPrime

/-- `_SQRT_M1`. -/
def sqrtM1 : ℤ := pow 2 ((fieldPrime - 1) / 4) fieldPrime

/-- `_IDENTITY`. -/
def identity : Extended ℤ := ⟨0, 1, 1, 0⟩

/-! ### The arithmetic of points -/

/-- `_add`. -/
def add (p q : Extended ℤ) : Extended ℤ :=
  let a := (p.y - p.x) * (q.y - q.x) % fieldPrime
  let b := (p.y + p.x) * (q.y + q.x) % fieldPrime
  let c := 2 * p.t * q.t * coefficientD % fieldPrime
  let d := 2 * p.z * q.z % fieldPrime
  let e := b - a
  let f := d - c
  let g := d + c
  let h := b + a
  ⟨e * f % fieldPrime, g * h % fieldPrime, f * g % fieldPrime, e * h % fieldPrime⟩

/-- The loop of `_multiply`, which ends when the scalar is shifted to nothing. -/
def multiplyLoop : ℕ → ℕ → Extended ℤ → Extended ℤ → Extended ℤ
  | 0, _, result, _ => result
  | turns + 1, scalar, result, point =>
    if scalar = 0 then result
    else multiplyLoop turns (scalar / 2) (if scalar % 2 = 1 then add result point else result)
      (add point point)

/-- `_multiply`. The scalar is shifted to nothing in no more turns than it is long. -/
def multiply (scalar : ℕ) (point : Extended ℤ) : Extended ℤ :=
  multiplyLoop (scalar.log2 + 1) scalar identity point

/-- `_equal`. -/
def equal (p q : Extended ℤ) : Bool :=
  (p.x * q.z - q.x * p.z) % fieldPrime = 0 && (p.y * q.z - q.y * p.z) % fieldPrime = 0

/-! ### The primes -/

/-- The primes below a hundred thousand that the chain rests on. -/
def knownPrimes : List ℕ :=
  [2, 3, 5, 7, 11, 13, 19, 23, 31, 41, 43, 47, 73, 97, 103, 107, 127, 131, 223, 269, 307, 353,
   419, 991, 1361, 1723, 2437, 2551, 2851, 3727, 3797, 4153, 5879, 17231, 22111, 30703, 34123,
   57467, 65147, 75707, 82163]

/-- The group order and the field's prime, with the numbers that show them prime. -/
def chain : List LucasStep :=
  [⟨7237005577332262213973186563042994240857116359379907606001950938285454250989, 2,
     [2, 2, 3, 11, 198211423230930754013084525763697, 276602624281642239937218680557139826668747]⟩,
   ⟨276602624281642239937218680557139826668747, 2,
     [2, 7, 19757330305831588566944191468367130476339]⟩,
   ⟨19757330305831588566944191468367130476339, 2,
     [2, 269, 213441916511, 172054593956031949258510691]⟩,
   ⟨172054593956031949258510691, 2, [2, 5, 1361, 2851, 4434155615661930479]⟩,
   ⟨4434155615661930479, 17, [2, 41, 43, 1257559732178653]⟩,
   ⟨1257559732178653, 2, [2, 2, 3, 7, 23, 531581, 1224481]⟩,
   ⟨1224481, 13, [2, 2, 2, 2, 2, 3, 5, 2551]⟩,
   ⟨531581, 2, [2, 2, 5, 7, 3797]⟩,
   ⟨213441916511, 13, [2, 5, 73, 292386187]⟩,
   ⟨292386187, 2, [2, 3, 3, 3, 3, 307, 5879]⟩,
   ⟨198211423230930754013084525763697, 5, [2, 2, 2, 2, 3, 23, 58964693, 3044861653679985063343]⟩,
   ⟨3044861653679985063343, 5, [2, 3, 11, 30703, 82163, 132667, 137849]⟩,
   ⟨137849, 3, [2, 2, 2, 17231]⟩,
   ⟨132667, 5, [2, 3, 22111]⟩,
   ⟨58964693, 2, [2, 2, 14741173]⟩,
   ⟨14741173, 2, [2, 2, 3, 3, 409477]⟩,
   ⟨409477, 2, [2, 2, 3, 34123]⟩,
   ⟨57896044618658097711785492504343953926634992332820282019728792003956564819949, 2,
     [2, 2, 3, 65147, 74058212732561358302231226437062788676166966415465897661863160754340907]⟩,
   ⟨74058212732561358302231226437062788676166966415465897661863160754340907, 2,
     [2, 3, 353, 57467, 132049, 1923133, 31757755568855353, 75445702479781427272750846543864801]⟩,
   ⟨75445702479781427272750846543864801, 7,
     [2, 2, 2, 2, 2, 3, 3, 5, 5, 75707, 72106336199, 1919519569386763]⟩,
   ⟨1919519569386763, 2, [2, 3, 7, 19, 47, 47, 127, 8574133]⟩,
   ⟨8574133, 2, [2, 2, 3, 7, 103, 991]⟩,
   ⟨72106336199, 7, [2, 13, 2773320623]⟩,
   ⟨2773320623, 5, [2, 2437, 569003]⟩,
   ⟨569003, 2, [2, 7, 97, 419]⟩,
   ⟨31757755568855353, 10, [2, 2, 2, 3, 31, 107, 223, 4153, 430751]⟩,
   ⟨430751, 17, [2, 5, 5, 5, 1723]⟩,
   ⟨1923133, 2, [2, 2, 3, 43, 3727]⟩,
   ⟨132049, 26, [2, 2, 2, 2, 3, 3, 7, 131]⟩]

theorem chain_prime : ∀ s ∈ chain, s.number.Prime := by
  have hknown : ∀ q ∈ knownPrimes, q.Prime := by
    simp only [knownPrimes, List.forall_mem_cons]
    norm_num
  exact prime_of_lucasChain hknown (by decide +kernel)

theorem prime_fieldPrime : fieldPrime.Prime := by
  obtain ⟨s, hs, hnumber⟩ : ∃ s ∈ chain, s.number = fieldPrime := by
    simp [chain, fieldPrime]
  exact hnumber ▸ chain_prime s hs

theorem prime_groupOrder : groupOrder.Prime := by
  obtain ⟨s, hs, hnumber⟩ : ∃ s ∈ chain, s.number = groupOrder := by
    simp [chain, groupOrder]
  exact hnumber ▸ chain_prime s hs

instance : Fact fieldPrime.Prime := ⟨prime_fieldPrime⟩

instance : Fact groupOrder.Prime := ⟨prime_groupOrder⟩

/-! ### The curve -/

/-- The integers modulo the prime. -/
abbrev Field25519 : Type := ZMod fieldPrime

/-- A power that is computed is the power of the field. -/
theorem pow_cast (base : ℤ) (exponent : ℕ) :
    ((pow base exponent fieldPrime : ℤ) : Field25519) = (base : Field25519) ^ exponent := by
  have hbase : 0 ≤ base % (fieldPrime : ℤ) := Int.emod_nonneg _ (by simp [fieldPrime])
  rw [pow, Int.cast_natCast, powMod_cast, ← Int.cast_natCast, Int.toNat_of_nonneg hbase,
    ZMod.intCast_mod]

/-- A number is zero in the field where the prime divides it. -/
theorem cast_eq_zero_iff (n : ℤ) : (n : Field25519) = 0 ↔ n % fieldPrime = 0 := by
  rw [ZMod.intCast_zmod_eq_zero_iff_dvd, Int.dvd_iff_emod_eq_zero]

/-- The power to the prime less two is the inverse. -/
theorem pow_inverse (base : ℤ) :
    ((pow base (fieldPrime - 2) fieldPrime : ℤ) : Field25519) = (base : Field25519)⁻¹ := by
  rw [pow_cast]
  by_cases hzero : (base : Field25519) = 0
  · rw [hzero, inv_zero, zero_pow (by simp [fieldPrime])]
  · apply eq_inv_of_mul_eq_one_left
    rw [← pow_succ, show fieldPrime - 2 + 1 = fieldPrime - 1 by simp [fieldPrime]]
    exact ZMod.pow_card_sub_one_eq_one hzero

theorem sqrtM1_sq : (sqrtM1 : Field25519) * sqrtM1 = -1 := by
  have hsq : (sqrtM1 * sqrtM1 + 1) % (fieldPrime : ℤ) = 0 := by decide +kernel
  rw [← cast_eq_zero_iff] at hsq
  push_cast at hsq
  exact eq_neg_of_add_eq_zero_left hsq

theorem two_ne_zero : (2 : Field25519) ≠ 0 := by
  have htwo : (2 : ℤ) % fieldPrime ≠ 0 := by decide
  rw [ne_eq, ← cast_eq_zero_iff] at htwo
  exact_mod_cast htwo

theorem not_isSquare_d : ¬IsSquare (coefficientD : Field25519) := by
  have hne : (coefficientD : Field25519) ≠ 0 := by
    rw [ne_eq, cast_eq_zero_iff]
    decide +kernel
  have hpow : (pow coefficientD (fieldPrime / 2) fieldPrime + 1) % (fieldPrime : ℤ) = 0 := by
    decide +kernel
  rw [← cast_eq_zero_iff] at hpow
  push_cast at hpow
  rw [pow_cast] at hpow
  rw [ZMod.euler_criterion fieldPrime hne, eq_neg_of_add_eq_zero_left hpow]
  intro hone
  exact two_ne_zero (by linear_combination -hone)

/-- The twisted Edwards curve `-x² + y² = 1 - (121665/121666) x² y²`. -/
def curve : TwistedEdwards Field25519 where
  a := -1
  d := coefficientD
  two_ne := two_ne_zero
  a_ne := neg_ne_zero.mpr one_ne_zero
  isSquare_a := ⟨sqrtM1, sqrtM1_sq.symm⟩
  not_isSquare_d := not_isSquare_d

/-! ### The arithmetic is that of the group -/

/-- Whether the coordinates are those of a point. -/
def OfPoint (p : Extended ℤ) (P : curve.Point) : Prop :=
  (p.map (Int.cast : ℤ → Field25519)).Represents P

theorem map_add (p q : Extended ℤ) : (add p q).map (Int.cast : ℤ → Field25519) =
    (p.map Int.cast).sum curve.d (q.map Int.cast) := by
  ext <;> simp [add, Extended.map, Extended.sum, curve]

namespace OfPoint

variable {p q : Extended ℤ} {P Q : curve.Point}

theorem identity : OfPoint identity 0 := by
  have hzero : Ed25519.identity.map (Int.cast : ℤ → Field25519) = ⟨0, 1, 1, 0⟩ := by
    ext <;> simp [Ed25519.identity, Extended.map]
  rw [OfPoint, hzero]
  exact Extended.represents_zero

/-- `_add` is the group law, for every pair of points. -/
theorem add (hp : OfPoint p P) (hq : OfPoint q Q) : OfPoint (add p q) (P + Q) := by
  rw [OfPoint, map_add]
  exact Extended.Represents.add rfl hp hq

/-- What is left of the scalar is added to the result. -/
theorem multiplyLoop (turns : ℕ) {scalar : ℕ} (h : scalar < 2 ^ turns) (hp : OfPoint p P)
    (hq : OfPoint q Q) : OfPoint (multiplyLoop turns scalar p q) (P + scalar • Q) := by
  induction turns generalizing scalar p q P Q with
  | zero =>
    rw [Ed25519.multiplyLoop, Nat.lt_one_iff.mp h, zero_smul, add_zero]
    exact hp
  | succ turns ih =>
    rw [Ed25519.multiplyLoop]
    split_ifs with hzero hodd
    · rw [hzero, zero_smul, add_zero]
      exact hp
    · have hsum : P + scalar • Q = P + Q + (scalar / 2) • (Q + Q) := by
        conv_lhs => rw [← Nat.div_add_mod scalar 2, hodd]
        rw [add_smul, one_smul, mul_comm, mul_smul, two_smul]
        abel
      rw [hsum]
      exact ih (by rw [pow_succ] at h; omega) (hp.add hq) (hq.add hq)
    · have hsum : P + scalar • Q = P + (scalar / 2) • (Q + Q) := by
        conv_lhs => rw [← Nat.div_add_mod scalar 2, Nat.mod_two_ne_one.mp hodd]
        rw [add_zero, mul_comm, mul_smul, two_smul]
      rw [hsum]
      exact ih (by rw [pow_succ] at h; omega) hp (hq.add hq)

/-- `_multiply` is scalar multiplication. -/
theorem multiply (scalar : ℕ) (hp : OfPoint p P) : OfPoint (multiply scalar p) (scalar • P) := by
  have hloop := identity.multiplyLoop (scalar.log2 + 1) Nat.lt_log2_self hp
  rwa [zero_add] at hloop

/-- `_equal` is the equality of points. -/
theorem equal_iff (hp : OfPoint p P) (hq : OfPoint q Q) : equal p q = true ↔ P = Q := by
  rw [Extended.Represents.eq_iff hp hq, equal, Bool.and_eq_true, decide_eq_true_eq,
    decide_eq_true_eq, ← cast_eq_zero_iff, ← cast_eq_zero_iff]
  push_cast
  rw [sub_eq_zero, sub_eq_zero]
  rfl

end OfPoint

end AgentGov.Receipts.Ed25519
