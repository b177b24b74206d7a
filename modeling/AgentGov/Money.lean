import AgentGov.Errors

/-!
# Money

Amounts are decimal data; the arithmetic of balances and totals never rounds, and the deliberate
rounding of an amount to the ledger's quantum goes up for costs and down for credits
(`src/src/agentgov/core.py`, lines 156–202, 314–394 and 697–714).

## Main definitions

* `AgentGov.add`, `AgentGov.subtract`: the arithmetic of the ledger.
* `AgentGov.coerce`, `AgentGov.cost`, `AgentGov.credit`: amounts a caller gives.
* `AgentGov.counted`: whether an amount is a whole number of a unit's quantum.
* `AgentGov.fixed`: an amount as AGOV3 writes it.

## Main results

* `AgentGov.add_ok`: a sum that is given is the exact one.
* `AgentGov.coerce_ok`: a coerced amount is a signed whole number of hundred-millionths.
-/

open Foundation

namespace AgentGov

/-- The decimal places of `QUANTUM`. -/
def quantumPlaces : ℕ := 8

/-- The digits both contexts hold. -/
def precision : ℕ := 50

/-- `MAX_AMOUNT`. -/
def maxAmount : ℚ := 1000000000000

/-- `_ARITHMETIC`: a result that would be rounded is refused. -/
def arithmetic : DecimalContext := ⟨precision, -999999, 999999⟩

@[simp] theorem arithmetic_prec : arithmetic.prec = precision := rfl

/-- `_add`. -/
def add (a b : Value) : Except Error Value :=
  match arithmetic.add a b with
  | some v => .ok v
  | none => .error .arithmetic

/-- `_subtract`. -/
def subtract (a b : Value) : Except Error Value := add a (-b)

/-- A sum that is given is the exact one. -/
theorem add_ok {a b r : Value} (h : add a b = .ok r) : a.plus b = some r := by
  unfold add at h
  split at h
  · rename_i v hv
    cases h
    exact DecimalContext.add_eq_some hv
  · cases h

/-! ### Texts of amounts -/

/-- The sign of a decimal text. -/
def signText (negative : Bool) : Text := if negative then txt "-" else []

/-- `str(amount)`: fixed notation down to six leading zeros, scientific otherwise. -/
def decimalText : Decimal → Text
  | .finite s c e =>
    let digits := decimalDigits c
    let left := e + digits.length
    signText s ++
      if e ≤ 0 ∧ -6 < left then
        if e = 0 then digits
        else if left ≤ 0 then txt "0." ++ List.replicate left.natAbs (digit 0) ++ digits
        else digits.take left.toNat ++ txt "." ++ digits.drop left.toNat
      else
        digits.take 1 ++ (if digits.length ≤ 1 then [] else txt "." ++ digits.drop 1) ++ txt "E" ++
          (if left - 1 < 0 then txt "-" else txt "+") ++ decimalDigits (left - 1).natAbs
  | .infinity s => signText s ++ txt "Infinity"
  | .nan s signaling p =>
    signText s ++ (if signaling then txt "sNaN" else txt "NaN") ++
      if p = 0 then [] else decimalDigits p

/-- The fixed-point text of a signed number of hundred-millionths. -/
def fixedText (negative : Bool) (n : ℕ) : Text :=
  signText negative ++ decimalDigits (n / 10 ^ quantumPlaces) ++ txt "." ++
    paddedDigits quantumPlaces (n % 10 ^ quantumPlaces)

/-- `_fixed`: an amount as AGOV3 writes it, with exactly eight decimals. A quiet NaN passes
through the quantization and is written as it is. -/
def fixed (d : Decimal) : Except Error Text :=
  match d.quantize precision quantumPlaces .halfEven with
  | none => .error .arithmetic
  | some q =>
    -- the context traps `Inexact`
    if d.value? ≠ q.value? then .error .arithmetic
    else
      match q with
      | .finite s n _ => .ok (if n = 0 then fixedText false 0 else fixedText s n)
      | q => .ok (decimalText q)

/-! ### Amounts a caller gives -/

/-- An amount argument: a float, or what `Decimal(value)` makes of any other one, nothing where
it is not a decimal. -/
inductive AmountArg
  | float
  | number (parsed : Option Decimal)
deriving DecidableEq

/-- A rounding to a number of places under a context. -/
def quantizeUnder (c : DecimalContext) (places : ℕ) (r : Rounding) (d : Decimal) :
    Except Error Decimal :=
  match d.quantize c.prec places r with
  | some q => .ok q
  | none => .error .arithmetic

/-- A rounding to a number of places under `_ROUNDING`. -/
def quantizeTo : ℕ → Rounding → Decimal → Except Error Decimal := quantizeUnder arithmetic

/-- `_coerce`, given how it quantizes. A coarser quantum rounds first, then the result is written
at eight places. -/
def coerceBy (quantize : ℕ → Rounding → Decimal → Except Error Decimal) (value : AmountArg)
    (r : Rounding) (places : ℕ) : Except Error Decimal :=
  match value with
  | .float => .error .type
  | .number none => .error (.value .notADecimal)
  | .number (some (.finite s c e)) =>
    if maxAmount < |Decimal.rat s c e| then .error (.value .exceedsMaximum)
    else if places ≠ quantumPlaces then do
      quantize quantumPlaces r (← quantize places r (.finite s c e))
    else quantize quantumPlaces r (.finite s c e)
  | .number (some _) => .error (.value .notFinite)

/-- `_coerce`: an amount quantized with the given rounding. -/
def coerce : AmountArg → Rounding → ℕ → Except Error Decimal := coerceBy quantizeTo

/-- `_cost`: an amount the governor pays out, rounded up. -/
def cost (value : AmountArg) (unit : Unit) : Except Error Decimal :=
  coerce value .ceiling unit.places

/-- `_credit`: an amount the governor grants, rounded down. -/
def credit (value : AmountArg) (unit : Unit) : Except Error Decimal :=
  coerce value .floor unit.places

/-- `_counted`: whether an amount is a whole number of the unit's quantum. Quantizing raises
where the amount is infinite or has too many digits. -/
def counted (amount : Decimal) (unit : Unit) : Except Error Bool :=
  if unit.places = 8 then .ok true
  else do
    let q ← quantizeTo unit.places .halfEven amount
    match amount.eq? q with
    | some b => .ok b
    | none => .error .arithmetic

theorem quantizeTo_ok {places : ℕ} {r : Rounding} {s : Bool} {c : ℕ} {e : ℤ} {d : Decimal}
    (h : quantizeTo places r (.finite s c e) = .ok d) :
    ∃ n, d = .finite s n (-places) := by
  unfold quantizeTo quantizeUnder at h
  split at h
  · rename_i q hq
    cases h
    exact ⟨_, (Decimal.quantize_finite_eq_some hq).1⟩
  · cases h

/-- A coerced amount is a signed whole number of hundred-millionths. -/
theorem coerce_ok {v : AmountArg} {r : Rounding} {places : ℕ} {d : Decimal}
    (h : coerce v r places = .ok d) : ∃ s n, d = .finite s n (-quantumPlaces) := by
  unfold coerce coerceBy at h
  split at h
  · cases h
  · cases h
  · rename_i s c e
    split at h
    · cases h
    · split at h
      · cases hq : quantizeTo places r (.finite s c e) with
        | error err => simp [hq, bind, Except.bind] at h
        | ok q =>
          obtain ⟨m, rfl⟩ := quantizeTo_ok hq
          simp only [hq, bind, Except.bind] at h
          obtain ⟨n, rfl⟩ := quantizeTo_ok h
          exact ⟨s, n, rfl⟩
      · obtain ⟨n, rfl⟩ := quantizeTo_ok h
        exact ⟨s, n, rfl⟩
  · cases h

theorem rat_places (s : Bool) (n places : ℕ) :
    Decimal.rat s n (-places) = ((if s then -(n : ℤ) else n : ℤ) : ℚ) / 10 ^ places := by
  rw [Decimal.rat, zpow_neg, zpow_natCast, div_eq_mul_inv]
  cases s <;> simp

/-- An amount AGOV3 can write is a whole number of hundred-millionths. -/
theorem fixed_ok {d : Decimal} {t : Text} {v : Value} (h : fixed d = .ok t)
    (hv : d.value? = some v) : ∃ n : ℤ, v = .finite (n / 10 ^ 8) := by
  unfold fixed at h
  split at h
  · cases h
  · rename_i q hq
    split_ifs at h with hne
    have heq := (not_not.mp hne).symm.trans hv
    cases d with
    | finite s c e =>
      obtain ⟨rfl, -⟩ := Decimal.quantize_finite_eq_some hq
      simp only [Decimal.value?, Option.some.injEq] at heq
      rw [← heq, show (quantumPlaces : ℤ) = ((8 : ℕ) : ℤ) from rfl, rat_places]
      exact ⟨_, rfl⟩
    | infinity s => cases hq
    | nan s b p => cases hv

/-- An amount that is counted in a unit is a whole number of its quantum. -/
theorem counted_ok {d : Decimal} {unit : Unit} {q : ℚ} (h : counted d unit = .ok true)
    (hplaces : unit.places ≠ 8) (hv : d.value? = some (.finite q)) :
    ∃ n : ℤ, q = n / 10 ^ unit.places := by
  unfold counted at h
  rw [if_neg hplaces] at h
  cases d with
  | finite s c e =>
    cases hq : quantizeTo unit.places .halfEven (.finite s c e) with
    | error err =>
      rw [hq] at h
      cases h
    | ok r =>
      obtain ⟨n, rfl⟩ := quantizeTo_ok hq
      rw [hq] at h
      change (match Decimal.eq? (.finite s c e) (.finite s n (-unit.places)) with
        | some b => Except.ok b
        | none => .error .arithmetic : Except Error Bool) = .ok true at h
      simp only [Decimal.eq?, Decimal.value?, Except.ok.injEq, decide_eq_true_eq] at h
      simp only [Decimal.value?, Option.some.injEq] at hv
      rw [hv] at h
      simp only [Value.finite.injEq] at h
      exact ⟨_, h.trans (rat_places s n unit.places)⟩
  | infinity s => cases hv
  | nan s b p => cases hv

end AgentGov
