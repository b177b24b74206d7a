import AgentGov.Foundation.Decimal

/-!
# Decimal arithmetic that rounds

The sum, the product and the quotient of two values in a context that rounds half to even. What is
computed is a rational, so a zero has no sign here.

## Main definitions

* `Foundation.DecimalContext.rounded`: a rational at the context's precision.
* `Foundation.DecimalContext.plus`, `Foundation.DecimalContext.times`,
  `Foundation.DecimalContext.dividedBy`: the rounded operations.

## Main results

* `Foundation.DecimalContext.rounded_places`: what is rounded of a whole number of a decimal place.
-/

namespace Foundation

namespace DecimalContext

variable (c : DecimalContext)

/-- The rational rounded half to even to the context's digits, or nothing where it overflows. -/
def rounded (q : ℚ) : Option Value :=
  if q = 0 then some 0
  else
    let e := max (Int.log 10 |q| - c.prec + 1) c.etiny
    let r := Rounding.halfEven.round (q / 10 ^ e) * (10 : ℚ) ^ e
    if c.emax < Int.log 10 |r| then none else some (.finite r)

/-- The rounded sum. Opposite infinities have none. -/
def plus (a b : Value) : Option Value :=
  match a.plus b with
  | some (.finite q) => c.rounded q
  | sum => sum

/-- The rounded product. An infinity times zero has none. -/
def times (a b : Value) : Option Value :=
  match a, b with
  | .finite p, .finite q => c.rounded (p * q)
  | .infinite s, .finite q => if q = 0 then none else some (.infinite (s != decide (q < 0)))
  | .finite p, .infinite s => if p = 0 then none else some (.infinite (s != decide (p < 0)))
  | .infinite s, .infinite t => some (.infinite (s != t))

/-- The rounded quotient by a positive rational. -/
def dividedBy (a : Value) (q : ℚ) : Option Value :=
  match a with
  | .finite p => c.rounded (p / q)
  | .infinite s => some (.infinite s)

end DecimalContext

/-! ### What is not rounded -/

namespace Rounding

/-- What is not below an integer does not round below it. -/
theorem le_round {r : Rounding} {n : ℤ} {q : ℚ} (h : (n : ℚ) ≤ q) : n ≤ r.round q := by
  have hfloor : n ≤ ⌊q⌋ := Int.le_floor.mpr h
  cases r with
  | floor => exact hfloor
  | ceiling => exact Int.cast_le.mp (h.trans (Int.le_ceil q))
  | halfEven =>
    simp only [round]
    split_ifs <;> omega

/-- What is not above an integer is not rounded above it, unless to the nearest. -/
theorem round_le {r : Rounding} (hr : r ≠ .halfEven) {n : ℤ} {q : ℚ} (h : q ≤ n) :
    r.round q ≤ n := by
  cases r with
  | floor => exact Int.cast_le.mp ((Int.floor_le q).trans h)
  | ceiling => exact Int.ceil_le.mpr h
  | halfEven => exact absurd rfl hr

end Rounding

namespace DecimalContext

variable {c : DecimalContext}

/-- The exponent a rational is rounded at. -/
def exponent (c : DecimalContext) (q : ℚ) : ℤ := max (Int.log 10 |q| - c.prec + 1) c.etiny

theorem log_lt {m : ℕ} (places : ℕ) (hm : 0 < m) (hfits : m < 10 ^ c.prec) :
    Int.log 10 |(m / 10 ^ places : ℚ)| < c.prec - places := by
  have h10 : (0 : ℚ) < 10 ^ places := by positivity
  have hpos : (0 : ℚ) < m / 10 ^ places := by positivity
  have hlt : (m / 10 ^ places : ℚ) < (10 : ℚ) ^ ((c.prec : ℤ) - places) := by
    rw [zpow_sub₀ (by norm_num), zpow_natCast, zpow_natCast]
    exact div_lt_div_of_pos_right (by exact_mod_cast hfits) h10
  rw [abs_of_pos hpos]
  exact (Int.lt_zpow_iff_log_lt (by norm_num) hpos).mp (by exact_mod_cast hlt)

/-- A whole number of a decimal place is a whole number of any finer one. -/
theorem exists_scaled (n : ℤ) (places : ℕ) {e : ℤ} (hle : e ≤ -places) :
    ∃ m : ℤ, (n / 10 ^ places : ℚ) / 10 ^ e = m := by
  obtain ⟨k, hk⟩ : ∃ k : ℕ, -(places : ℤ) = e + k := ⟨(-(places : ℤ) - e).toNat, by omega⟩
  refine ⟨n * 10 ^ k, ?_⟩
  rw [div_eq_iff (zpow_ne_zero _ (by norm_num)), div_eq_mul_inv, ← zpow_natCast,
    ← zpow_neg, hk, zpow_add₀ (by norm_num)]
  push_cast
  rw [zpow_natCast]
  ring

/-- A whole number of a decimal place whose digits fit is whole at the exponent it is rounded at. -/
theorem round_fits {m places : ℕ} (hetiny : c.etiny ≤ -places) (hm : 0 < m)
    (hfits : m < 10 ^ c.prec) :
    Rounding.halfEven.round ((m / 10 ^ places : ℚ) / 10 ^ c.exponent (m / 10 ^ places)) *
      (10 : ℚ) ^ c.exponent (m / 10 ^ places) = m / 10 ^ places := by
  have hlog := log_lt (c := c) places hm hfits
  have hle : c.exponent (m / 10 ^ places) ≤ -places := by
    rw [exponent]
    omega
  obtain ⟨k, hk⟩ := exists_scaled m places hle
  rw [Int.cast_natCast] at hk
  rw [hk, Rounding.round_intCast, ← hk, div_mul_cancel₀ _ (zpow_ne_zero _ (by norm_num))]

/-- A whole number of a decimal place whose digits fit is not rounded. -/
theorem rounded_fits {m places : ℕ} (hetiny : c.etiny ≤ -places)
    (hemax : (c.prec : ℤ) - places ≤ c.emax) (hfits : m < 10 ^ c.prec) :
    c.rounded (m / 10 ^ places) = some (.finite (m / 10 ^ places)) := by
  rcases Nat.eq_zero_or_pos m with rfl | hm
  · rw [rounded, if_pos (by simp)]
    simp [Value.zero_def]
  have hne : (m / 10 ^ places : ℚ) ≠ 0 := by positivity
  have hround := round_fits (c := c) hetiny hm hfits
  have hlog := log_lt (c := c) places hm hfits
  unfold exponent at hround
  rw [rounded, if_neg hne]
  dsimp only
  rw [hround, if_neg (by omega)]

/-- A whole number of a decimal place whose digits fit is representable. -/
theorem representable_places {n : ℤ} {places : ℕ} (hetiny : c.etiny ≤ -places)
    (hemax : (c.prec : ℤ) - places ≤ c.emax) (hfits : n.natAbs < 10 ^ c.prec) :
    c.Representable (n / 10 ^ places) := by
  rcases eq_or_ne n 0 with rfl | hn
  · exact Or.inl (by simp)
  have habs : |(n / 10 ^ places : ℚ)| = |(n.natAbs / 10 ^ places : ℚ)| := by
    rw [abs_div, abs_div, Nat.cast_natAbs, Int.cast_abs, abs_abs]
  have hlog := log_lt (c := c) places (Int.natAbs_pos.mpr hn) hfits
  rw [← habs] at hlog
  obtain ⟨m, hm⟩ := exists_scaled n places (e := c.exponent (n / 10 ^ places)) <| by
    rw [exponent]
    omega
  unfold exponent at hm
  exact Or.inr ⟨by omega, by rw [hm, Rat.den_intCast]⟩

/-- A whole number of a decimal place is rounded to one: to itself, if its digits fit, and else to
one whose digits do not fit either. -/
theorem rounded_places {m places : ℕ} (hprec : 0 < c.prec) (hetiny : c.etiny ≤ -places) {v : Value}
    (h : c.rounded (m / 10 ^ places) = some v) :
    ∃ n : ℕ, v = .finite (n / 10 ^ places) ∧ (m < 10 ^ c.prec → n = m) ∧
      (10 ^ c.prec ≤ m → 10 ^ c.prec ≤ n) := by
  have h10 : (0 : ℚ) < 10 ^ places := by positivity
  rcases Nat.eq_zero_or_pos m with rfl | hm
  · rw [rounded, if_pos (by simp)] at h
    refine ⟨0, ?_, fun _ => rfl, id⟩
    rw [← Option.some.inj h]
    simp [Value.zero_def]
  set q : ℚ := m / 10 ^ places with hq
  have hpos : 0 < q := by positivity
  have hlog : (10 : ℚ) ^ Int.log 10 q ≤ q := by
    exact_mod_cast Int.zpow_log_le_self (by norm_num) hpos
  set e : ℤ := c.exponent q with he
  have hr : v = .finite (Rounding.halfEven.round (q / 10 ^ e) * (10 : ℚ) ^ e) := by
    rw [rounded, if_neg hpos.ne'] at h
    dsimp only at h
    split_ifs at h
    exact (Option.some.inj h).symm
  by_cases hfits : m < 10 ^ c.prec
  · refine ⟨m, ?_, fun _ => rfl, fun hbig => hbig⟩
    rw [hr, he, hq, round_fits hetiny hm hfits]
  · -- the exponent is above that of the place, and the coefficient keeps its digits
    have hge : (10 : ℚ) ^ ((c.prec : ℤ) - places) ≤ q := by
      rw [zpow_sub₀ (by norm_num), zpow_natCast, zpow_natCast, hq]
      exact div_le_div_of_nonneg_right (by exact_mod_cast not_lt.mp hfits) h10.le
    have hlarge : (c.prec : ℤ) - places ≤ Int.log 10 q :=
      (Int.zpow_le_iff_le_log (by norm_num) hpos).mp (by exact_mod_cast hge)
    rw [exponent, abs_of_pos hpos] at he
    have hexp : e = Int.log 10 q - c.prec + 1 := by omega
    obtain ⟨k, hk⟩ : ∃ k : ℕ, e = -places + (k + 1 : ℕ) := ⟨(e + places - 1).toNat, by omega⟩
    set r := Rounding.halfEven.round (q / 10 ^ e) with hround
    have hcoefficient : ((10 ^ (c.prec - 1) : ℕ) : ℤ) ≤ r := by
      refine Rounding.le_round ((le_div_iff₀ (zpow_pos (by norm_num) _)).mpr ?_)
      calc (((10 ^ (c.prec - 1) : ℕ) : ℤ) : ℚ) * 10 ^ e
          = 10 ^ ((c.prec - 1 : ℕ) + e : ℤ) := by
            rw [zpow_add₀ (by norm_num)]
            push_cast
            rw [zpow_natCast]
        _ = 10 ^ Int.log 10 q := by
            congr 1
            omega
        _ ≤ q := hlog
    lift r to ℕ using (Int.natCast_nonneg _).trans hcoefficient with n hn
    refine ⟨n * 10 ^ (k + 1), ?_, fun h => absurd h hfits, fun _ => ?_⟩
    · rw [hr, hk, zpow_add₀ (by norm_num), zpow_neg, zpow_natCast, zpow_natCast]
      push_cast
      congr 1
      ring
    · have hpow : 10 ^ c.prec = 10 ^ (c.prec - 1) * 10 := by
        rw [← pow_succ, Nat.sub_add_cancel hprec]
      calc 10 ^ c.prec = 10 ^ (c.prec - 1) * 10 := hpow
        _ ≤ n * 10 ^ (k + 1) :=
          Nat.mul_le_mul (by exact_mod_cast hcoefficient) (Nat.le_self_pow (by omega) 10)

end DecimalContext

end Foundation
