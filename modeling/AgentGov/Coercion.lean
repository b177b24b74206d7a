import AgentGov.Money
import AgentGov.Foundation.Checked
import AgentGov.Foundation.Rounding

/-!
# What amounts are coerced to

An amount a caller gives is rounded to the quantum of the ledger's unit, costs up and credits down
(`src/src/agentgov/core.py`, lines 344–394): to whole quanta, by less than one, and for every finite
amount that is no greater than the greatest.

## Main results

* `AgentGov.coerce_worth`: what an amount is coerced to.
* `AgentGov.coerce_iff`: the amounts that are coerced.
* `AgentGov.cost_bounds`, `AgentGov.credit_bounds`: costs are rounded up, and credits down.
-/

open Foundation

namespace AgentGov

theorem rat_natAbs {s : Bool} {n : ℤ} (h : if s then n ≤ 0 else 0 ≤ n) (places : ℕ) :
    Decimal.rat s n.natAbs (-places) = n / 10 ^ places := by
  rw [rat_places]
  have hn : (if s then -(n.natAbs : ℤ) else n.natAbs) = n := by
    cases s
    · have hpos : 0 ≤ n := h
      simp only [Bool.false_eq_true, if_false]
      omega
    · have hneg : n ≤ 0 := h
      simp only [if_true]
      omega
  rw [hn]

/-- The sign of a datum is that of the integer it is rounded to. -/
theorem sign_round {s : Bool} {c : ℕ} {e : ℤ} {r : Rounding} (hr : r ≠ .halfEven) (places : ℕ) :
    if s then r.round (Decimal.rat s c e * 10 ^ places) ≤ 0
    else 0 ≤ r.round (Decimal.rat s c e * 10 ^ places) := by
  have hc : (0 : ℚ) ≤ c * 10 ^ e * 10 ^ places :=
    mul_nonneg (mul_nonneg (Nat.cast_nonneg c) (zpow_nonneg (by norm_num) e)) (by positivity)
  cases s with
  | false =>
    cases r with
    | floor => simpa [Rounding.round, Decimal.rat] using Int.floor_nonneg.mpr hc
    | ceiling => simpa [Rounding.round, Decimal.rat] using Int.ceil_nonneg hc
    | halfEven => exact absurd rfl hr
  | true =>
    have hneg : -((c : ℚ)) * 10 ^ e * 10 ^ places ≤ 0 := by linarith
    cases r with
    | floor =>
      have hfloor := Int.floor_le_floor hneg
      simpa [Rounding.round, Decimal.rat] using hfloor
    | ceiling =>
      have hceil := Int.ceil_le_ceil hneg
      simpa [Rounding.round, Decimal.rat] using hceil
    | halfEven => exact absurd rfl hr

/-- What a datum is quantized to is worth the integer it rounds to. -/
theorem quantizeTo_worth {s : Bool} {c : ℕ} {e : ℤ} {r : Rounding} (hr : r ≠ .halfEven)
    {places : ℕ} {d : Decimal} (h : quantizeTo places r (.finite s c e) = .ok d) :
    ∃ n, d = .finite s n (-places) ∧
      Decimal.rat s n (-places) = r.round (Decimal.rat s c e * 10 ^ places) / 10 ^ places := by
  unfold quantizeTo quantizeUnder at h
  split at h
  · rename_i q hq
    cases h
    obtain ⟨rfl, -⟩ := Decimal.quantize_finite_eq_some hq
    exact ⟨_, rfl, rat_natAbs (sign_round hr places) places⟩
  · cases h

theorem worth_finite {d : Decimal} {q : ℚ} (h : d.value? = some (.finite q)) :
    d.worth = .finite q := by
  rw [Decimal.worth, h, Option.getD_some]

/-- What an amount is coerced to is a whole number of the unit's quanta: the amount, rounded. -/
theorem coerce_worth {d x : Decimal} {r : Rounding} (hr : r ≠ .halfEven) {places : ℕ}
    (hplaces : places ≤ quantumPlaces) (h : coerce (.number (some d)) r places = .ok x) :
    ∃ q, d.value? = some (.finite q) ∧
      x.value? = some (.finite (r.round (q * 10 ^ places) / 10 ^ places)) := by
  unfold coerce coerceBy at h
  split at h
  · cases h
  · cases h
  · rename_i s c e hd
    cases hd
    refine ⟨_, rfl, ?_⟩
    split_ifs at h with hlarge hcoarse
    · obtain ⟨y, hy, h⟩ := bind_eq_ok.mp h
      obtain ⟨n, rfl, hworth⟩ := quantizeTo_worth hr hy
      obtain ⟨m, rfl, hworth'⟩ := quantizeTo_worth hr h
      rw [Decimal.value?, hworth', hworth]
      congr 2
      -- the coarser quantum is a whole number of the finer ones
      obtain ⟨k, hk⟩ := Nat.exists_eq_add_of_le hplaces
      have hwhole : (r.round (Decimal.rat s c e * 10 ^ places) / 10 ^ places : ℚ) *
          10 ^ quantumPlaces = ((r.round (Decimal.rat s c e * 10 ^ places) * 10 ^ k : ℤ) : ℚ) := by
        rw [hk, pow_add]
        push_cast
        field_simp
      rw [hwhole, Rounding.round_intCast, ← hwhole, mul_div_cancel_right₀ _ (by positivity)]
    · obtain ⟨n, rfl, hworth⟩ := quantizeTo_worth hr h
      rw [Decimal.value?, hworth]
      rw [not_not.mp hcoarse]
  · cases h

/-- A cost is rounded up, by less than a quantum, to whole quanta. -/
theorem cost_bounds {d x : Decimal} {unit : Unit} (h : cost (.number (some d)) unit = .ok x) :
    ∃ q p : ℚ, d.value? = some (.finite q) ∧ x.value? = some (.finite p) ∧
      q ≤ p ∧ p < q + 1 / 10 ^ unit.places ∧ ∃ k : ℤ, p = k / 10 ^ unit.places := by
  obtain ⟨q, hq, hx⟩ := coerce_worth (by decide) unit.places_le h
  have h10 : (0 : ℚ) < 10 ^ unit.places := by positivity
  refine ⟨q, _, hq, hx, ?_, ?_, _, rfl⟩
  · rw [le_div_iff₀ h10]
    exact Int.le_ceil _
  · rw [div_lt_iff₀ h10, add_mul, one_div, inv_mul_cancel₀ h10.ne']
    exact Int.ceil_lt_add_one _

/-- A credit is rounded down, by less than a quantum, to whole quanta. -/
theorem credit_bounds {d x : Decimal} {unit : Unit} (h : credit (.number (some d)) unit = .ok x) :
    ∃ q p : ℚ, d.value? = some (.finite q) ∧ x.value? = some (.finite p) ∧
      p ≤ q ∧ q < p + 1 / 10 ^ unit.places ∧ ∃ k : ℤ, p = k / 10 ^ unit.places := by
  obtain ⟨q, hq, hx⟩ := coerce_worth (by decide) unit.places_le h
  have h10 : (0 : ℚ) < 10 ^ unit.places := by positivity
  refine ⟨q, _, hq, hx, ?_, ?_, _, rfl⟩
  · rw [div_le_iff₀ h10]
    exact Int.floor_le _
  · rw [← add_div, lt_div_iff₀ h10]
    exact Int.lt_floor_add_one _

/-- A datum of no more than the greatest amount can be quantized, to one of no more than it. -/
theorem quantizeTo_small {s : Bool} {c : ℕ} {e : ℤ} {r : Rounding} (hr : r ≠ .halfEven)
    {places : ℕ} (hplaces : places ≤ quantumPlaces) (h : |Decimal.rat s c e| ≤ maxAmount) :
    ∃ n, quantizeTo places r (.finite s c e) = .ok (.finite s n (-places)) ∧
      |Decimal.rat s n (-places)| ≤ maxAmount := by
  set q := Decimal.rat s c e with hq
  have h10 : (0 : ℚ) < 10 ^ places := by positivity
  obtain ⟨hlow, hhigh⟩ := abs_le.mp h
  -- the greatest amount is a whole number of quanta
  have hmax : maxAmount * 10 ^ places = ((10 ^ 12 * 10 ^ places : ℤ) : ℚ) := by
    rw [maxAmount]
    push_cast
    norm_num
  have hbelow : -(10 ^ 12 * 10 ^ places : ℤ) ≤ r.round (q * 10 ^ places) := by
    refine Rounding.le_round ?_
    rw [Int.cast_neg, ← hmax, ← neg_mul]
    exact mul_le_mul_of_nonneg_right hlow h10.le
  have habove : r.round (q * 10 ^ places) ≤ (10 ^ 12 * 10 ^ places : ℤ) := by
    refine Rounding.round_le hr ?_
    rw [← hmax]
    exact mul_le_mul_of_nonneg_right hhigh h10.le
  have hpow : (10 : ℤ) ^ places ≤ 10 ^ 8 := pow_le_pow_right₀ (by norm_num) hplaces
  have hfits : (r.round (q * 10 ^ places)).natAbs < 10 ^ precision := by
    have hbound : (10 ^ 12 * 10 ^ places : ℤ) ≤ 10 ^ 20 := by linarith
    have hlarge : 10 ^ 20 < 10 ^ precision := by norm_num [precision]
    omega
  have hquantized : quantizeTo places r (.finite s c e) =
      .ok (.finite s (r.round (q * 10 ^ places)).natAbs (-places)) := by
    simp only [quantizeTo, quantizeUnder, arithmetic_prec, Decimal.quantize, ← hq, if_pos hfits]
  obtain ⟨n, hn, hworth⟩ := quantizeTo_worth hr hquantized
  cases hn
  refine ⟨_, hquantized, ?_⟩
  rw [hworth, ← hq, abs_div, abs_of_pos h10, div_le_iff₀ h10, hmax]
  exact_mod_cast abs_le.mpr ⟨hbelow, habove⟩

/-- Exactly the amounts that are no greater than the greatest are coerced. -/
theorem coerce_iff {d : Decimal} {r : Rounding} (hr : r ≠ .halfEven) {places : ℕ}
    (hplaces : places ≤ quantumPlaces) :
    (∃ x, coerce (.number (some d)) r places = .ok x) ↔
      ∃ q, d.value? = some (.finite q) ∧ |q| ≤ maxAmount := by
  cases d with
  | finite s c e =>
    simp only [Decimal.value?, Option.some.injEq, Value.finite.injEq, exists_eq_left', coerce, coerceBy]
    by_cases hlarge : maxAmount < |Decimal.rat s c e|
    · simp [if_pos hlarge, not_le.mpr hlarge]
    · obtain ⟨m, hm, hsmall⟩ := quantizeTo_small hr hplaces (not_lt.mp hlarge)
      obtain ⟨n, hn, -⟩ := quantizeTo_small hr le_rfl (not_lt.mp hlarge)
      obtain ⟨k, hk, -⟩ := quantizeTo_small hr le_rfl hsmall
      rw [if_neg hlarge]
      refine iff_of_true ?_ (not_lt.mp hlarge)
      split_ifs
      · exact ⟨_, (congrArg (· >>= quantizeTo quantumPlaces r) hm).trans hk⟩
      · exact ⟨_, hn⟩
  | infinity s => simp [coerce, coerceBy, Decimal.value?]
  | nan s signaling p => simp [coerce, coerceBy, Decimal.value?]

/-- A cost is whole quanta of the unit, and no greater than the greatest amount. -/
theorem cost_le {d x : Decimal} {unit : Unit} (h : cost (.number (some d)) unit = .ok x) :
    ∃ k : ℤ, x.value? = some (.finite (k / 10 ^ unit.places)) ∧
      (k / 10 ^ unit.places : ℚ) ≤ maxAmount := by
  obtain ⟨q, hq, hsmall⟩ := (coerce_iff (by decide) unit.places_le).mp ⟨x, h⟩
  obtain ⟨q', hq', hx⟩ := coerce_worth (by decide) unit.places_le h
  obtain rfl : q = q' := by simpa using hq.symm.trans hq'
  refine ⟨_, hx, ?_⟩
  have hmax : maxAmount * 10 ^ unit.places = ((10 ^ 12 * 10 ^ unit.places : ℤ) : ℚ) := by
    rw [maxAmount]
    push_cast
    norm_num
  have hround : Rounding.ceiling.round (q * 10 ^ unit.places) ≤ 10 ^ 12 * 10 ^ unit.places := by
    refine Rounding.round_le (by decide) ?_
    rw [← hmax]
    exact mul_le_mul_of_nonneg_right (le_of_abs_le hsmall) (by positivity)
  rw [div_le_iff₀ (by positivity), hmax]
  exact_mod_cast hround

end AgentGov
