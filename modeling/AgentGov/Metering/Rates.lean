import AgentGov.Metering.Interceptor

/-!
# Published rates, and which way a price is rounded

The rates that come with the interceptor are whole cents for a million tokens, so a price is a whole
number of quanta, and nothing in its computation is rounded unless its digits do not fit, where it
is refused. What is settled of it is rounded up to the quantum of the ledger's unit
(`src/src/agentgov/interceptor.py`, lines 221–275 and 519–568, and `src/src/agentgov/core.py`, lines
314–394).

## Main definitions

* `AgentGov.Metering.published`: the published rates.
* `AgentGov.Metering.ModelPricing.exact`: the exact price of a usage.
* `AgentGov.Metering.ModelPricing.costOfIn`, `AgentGov.Metering.coerceIn`: the computations in a
  thread with a decimal context of its own.

## Main results

* `AgentGov.Metering.costOf_published`: a price at published rates is the exact one.
* `AgentGov.Metering.rounds_against_spender`: no rounding is in the spender's favour.
-/

open Foundation

namespace AgentGov.Metering

/-! ### Published rates -/

/-- The datum of a result of `_ROUNDING`, written out to every digit of its precision: nothing but
its value is read. -/
def roundedDatum (q : ℚ) : Decimal :=
  let e := Int.log 10 |q| - precision + 1
  .finite (decide (q < 0)) (Rounding.halfEven.round (|q| / 10 ^ e)).natAbs e

/-- A rate times a factor, under `_ROUNDING`. -/
def scaledRate (rate : Decimal) (factor : ℚ) : Decimal :=
  match rate with
  | .finite s c e => roundedDatum (Decimal.rat s c e * factor)
  | rate => rate

/-- `_rates`: cache reads at a tenth of the input rate unless they are published, and cache writes
at five quarters of it. -/
def rates (modelId : Text) (inputRate outputRate : Decimal) (cacheRead : Option Decimal) :
    ModelPricing where
  modelId := modelId
  inputUsdPerMtok := inputRate
  outputUsdPerMtok := outputRate
  cacheReadUsdPerMtok := cacheRead.getD (scaledRate inputRate (1 / 10))
  cacheWriteUsdPerMtok := scaledRate inputRate (5 / 4)

/-- A rate of some cents, as `Decimal("5.00")` is. -/
def cents (n : ℕ) : Decimal := .finite false n (-2)

/-- `PRICING`. -/
def published : List ModelPricing :=
  [rates (txt "claude-fable-5-1") (cents 1000) (cents 5000) (some (cents 25)),
    rates (txt "claude-fable-5") (cents 1000) (cents 5000) none,
    rates (txt "claude-opus-5") (cents 500) (cents 2500) none,
    rates (txt "claude-opus-4-8") (cents 500) (cents 2500) none,
    rates (txt "claude-opus-4-7") (cents 500) (cents 2500) none,
    rates (txt "claude-opus-4-6") (cents 500) (cents 2500) none,
    rates (txt "claude-sonnet-5") (cents 200) (cents 1000) none,
    rates (txt "claude-sonnet-4-6") (cents 300) (cents 1500) none,
    rates (txt "claude-haiku-4-5") (cents 100) (cents 500) none]

/-- The cents a rate is, if it is a whole number of them. -/
def centsOf (rate : Decimal) : Option ℕ :=
  match rate.value? with
  | some (.finite q) => if (q * 100).den = 1 ∧ 0 ≤ q then some (q * 100).num.natAbs else none
  | _ => none

theorem centsOf_eq_some {rate : Decimal} {n : ℕ} (h : centsOf rate = some n) :
    rate.value? = some (.finite (n / 10 ^ 2)) := by
  unfold centsOf at h
  split at h
  · rename_i q hq
    split_ifs at h with hwhole
    obtain ⟨hden, hpos⟩ := hwhole
    obtain rfl := Option.some.inj h
    rw [hq]
    have hnum : (0 : ℤ) ≤ (q * 100).num := Rat.num_nonneg.mpr (by positivity)
    have hcast : (((q * 100).num.natAbs : ℕ) : ℚ) = q * 100 := by
      rw [← Int.cast_natCast, Int.natAbs_of_nonneg hnum]
      exact Rat.den_eq_one_iff _ |>.mp hden
    rw [hcast]
    norm_num
  · cases h

/-- Rates of whole cents for a million tokens. -/
structure WholeCents (p : ModelPricing) where
  input : ℕ
  output : ℕ
  cacheRead : ℕ
  cacheWrite : ℕ
  input_eq : centsOf p.inputUsdPerMtok = some input
  output_eq : centsOf p.outputUsdPerMtok = some output
  cacheRead_eq : centsOf p.cacheReadUsdPerMtok = some cacheRead
  cacheWrite_eq : centsOf p.cacheWriteUsdPerMtok = some cacheWrite

/-- The quanta a usage costs at rates of whole cents for a million tokens. -/
def WholeCents.quanta {p : ModelPricing} (c : WholeCents p) (u : TokenUsage) : ℕ :=
  c.input * u.inputTokens + c.output * u.outputTokens + c.cacheRead * u.cacheReadInputTokens +
    c.cacheWrite * u.cacheCreationInputTokens

/-- The published rates are whole cents. -/
theorem wholeCents_published {p : ModelPricing} (hp : p ∈ published) : Nonempty (WholeCents p) := by
  have hall : ∀ p ∈ published, (centsOf p.inputUsdPerMtok).isSome ∧
      (centsOf p.outputUsdPerMtok).isSome ∧ (centsOf p.cacheReadUsdPerMtok).isSome ∧
        (centsOf p.cacheWriteUsdPerMtok).isSome := by
    decide +kernel
  obtain ⟨hi, ho, hr, hw⟩ := hall p hp
  exact ⟨⟨_, _, _, _, (Option.some_get hi).symm, (Option.some_get ho).symm,
    (Option.some_get hr).symm, (Option.some_get hw).symm⟩⟩

/-! ### Prices at whole cents -/

/-- `cost_of` with nothing rounded. -/
def ModelPricing.exact (p : ModelPricing) (u : TokenUsage) : ℚ :=
  (p.inputUsdPerMtok.worth.toRat * u.inputTokens + p.outputUsdPerMtok.worth.toRat * u.outputTokens +
    p.cacheReadUsdPerMtok.worth.toRat * u.cacheReadInputTokens +
    p.cacheWriteUsdPerMtok.worth.toRat * u.cacheCreationInputTokens) / 1000000

/-- Whether a result of `_ROUNDING` stands for a number of cents: it is that number, or both have
too many digits. -/
def Tracks (m : ℕ) (v : Option Value) : Prop :=
  ∃ n : ℕ, v = some (.finite (n / 10 ^ 2)) ∧ (m < 10 ^ precision → n = m) ∧
    (10 ^ precision ≤ m → 10 ^ precision ≤ n)

theorem etiny_le {places : ℕ} (h : places ≤ 8) : arithmetic.etiny ≤ -places := by
  simp only [DecimalContext.etiny, arithmetic, precision]
  omega

theorem tracks_rounded {m : ℕ} {v : Value} (h : arithmetic.rounded (m / 10 ^ 2) = some v) :
    Tracks m (some v) := by
  obtain ⟨n, hv, hexact, hlarge⟩ :=
    DecimalContext.rounded_places (by decide) (etiny_le (by norm_num)) h
  exact ⟨n, congrArg some hv, hexact, hlarge⟩

/-- Some tokens at whole cents are charged whole cents. -/
theorem tracks_charge {rate : Decimal} {n tokens : ℕ} {v : Option Value}
    (hrate : centsOf rate = some n) (h : ModelPricing.charge arithmetic rate tokens = .ok v) :
    Tracks (n * tokens) v := by
  have hvalue := centsOf_eq_some hrate
  unfold ModelPricing.charge at h
  obtain ⟨r, hr, h⟩ := bind_eq_ok.mp h
  obtain rfl : r = some (.finite (n / 10 ^ 2)) := by
    unfold operand at hr
    split at hr
    · cases hr
    · exact (Except.ok.inj hr).symm.trans hvalue
  simp only [operate, DecimalContext.times] at h
  split at h
  · rename_i x hx
    cases h
    refine tracks_rounded (m := n * tokens) ?_
    rw [← hx]
    congr 1
    push_cast
    ring
  · cases h

/-- Cents add up to cents. -/
theorem tracks_plus {m n : ℕ} {x y v : Option Value} (hx : Tracks m x) (hy : Tracks n y)
    (h : operate arithmetic.plus x y = .ok v) : Tracks (m + n) v := by
  obtain ⟨j, rfl, hj, hj'⟩ := hx
  obtain ⟨k, rfl, hk, hk'⟩ := hy
  simp only [operate, DecimalContext.plus, Value.plus_finite] at h
  split at h
  · rename_i a ha
    cases h
    have hsum : Tracks (j + k) (some a) := by
      refine tracks_rounded ?_
      rw [← ha]
      congr 1
      push_cast
      ring
    obtain ⟨i, hi, hexact, hlarge⟩ := hsum
    exact ⟨i, hi, fun hlt => by rw [hexact (by omega), hj (by omega), hk (by omega)],
      fun hle => hlarge (by omega)⟩
  · cases h

/-- Cents for a million tokens are a whole number of quanta, which has to fit. -/
theorem quanta_of_cents {m : ℕ} {v raw : Option Value} {price : Decimal} (hv : Tracks m v)
    (hraw : operate (fun a _ => arithmetic.dividedBy a 1000000) v (some 0) = .ok raw)
    (h : ceilingQuantum arithmetic raw = .ok price) :
    m < 10 ^ precision ∧ price = .finite false m (-quantumPlaces) := by
  obtain ⟨n, rfl, hexact, hlarge⟩ := hv
  simp only [operate, DecimalContext.dividedBy] at hraw
  split at hraw
  · rename_i x hx
    cases hraw
    have hplaces : arithmetic.rounded (n / 10 ^ 8) = some x := by
      rw [← hx]
      congr 1
      rw [div_div]
      norm_num
    obtain ⟨k, rfl, hexact', hlarge'⟩ :=
      DecimalContext.rounded_places (by decide) (etiny_le le_rfl) hplaces
    have hceil : ⌈(k / 10 ^ 8 : ℚ) * 10 ^ quantumPlaces⌉ = k := by
      rw [quantumPlaces, div_mul_cancel₀ _ (by norm_num), Int.ceil_natCast]
    simp only [ceilingQuantum, hceil, Int.natAbs_natCast] at h
    split_ifs at h with hfits
    · have hm : m < 10 ^ precision := by
        by_contra hlt
        exact absurd (hlarge' (hlarge (not_lt.mp hlt))) (not_le.mpr hfits)
      have hn : n = m := hexact hm
      rw [hexact' (hn ▸ hm), hn, decide_eq_false (by omega)] at h
      exact ⟨hm, (Except.ok.inj h).symm⟩
  · cases hraw

/-- A price at rates of whole cents is the exact one, a whole number of quanta that fits. -/
theorem costOf_cents {p : ModelPricing} (c : WholeCents p) {u : TokenUsage} {price : Decimal}
    (h : p.costOf u = .ok price) :
    c.quanta u < 10 ^ precision ∧ price = .finite false (c.quanta u) (-quantumPlaces) := by
  unfold ModelPricing.costOf ModelPricing.costUnder at h
  obtain ⟨input, hinput, h⟩ := bind_eq_ok.mp h
  obtain ⟨output, houtput, h⟩ := bind_eq_ok.mp h
  obtain ⟨sum₁, hsum₁, h⟩ := bind_eq_ok.mp h
  obtain ⟨read, hread, h⟩ := bind_eq_ok.mp h
  obtain ⟨sum₂, hsum₂, h⟩ := bind_eq_ok.mp h
  obtain ⟨write, hwrite, h⟩ := bind_eq_ok.mp h
  obtain ⟨sum₃, hsum₃, h⟩ := bind_eq_ok.mp h
  obtain ⟨raw, hraw, h⟩ := bind_eq_ok.mp h
  have htwo := tracks_plus (tracks_charge c.input_eq hinput) (tracks_charge c.output_eq houtput)
    hsum₁
  have hthree := tracks_plus htwo (tracks_charge c.cacheRead_eq hread) hsum₂
  exact quanta_of_cents (tracks_plus hthree (tracks_charge c.cacheWrite_eq hwrite) hsum₃) hraw h

/-! ### Prices whose digits fit -/

section Fits

variable {p : ModelPricing} {u : TokenUsage}

/-- Cents whose digits fit are not rounded. -/
theorem rounded_cents {m : ℕ} (hfits : m < 10 ^ precision) :
    arithmetic.rounded (m / 10 ^ 2) = some (.finite (m / 10 ^ 2)) :=
  DecimalContext.rounded_fits (etiny_le (by norm_num)) (by simp [precision, arithmetic]) hfits

theorem charge_fits {rate : Decimal} {n tokens : ℕ} (hrate : centsOf rate = some n)
    (hfits : n * tokens < 10 ^ precision) : ModelPricing.charge arithmetic rate tokens =
      .ok (some (.finite ((n * tokens : ℕ) / 10 ^ 2))) := by
  have hvalue := centsOf_eq_some hrate
  have hoperand : operand rate = .ok (some (.finite (n / 10 ^ 2))) := by
    unfold operand
    split
    · cases hvalue
    · rw [hvalue]
  have hproduct : (n / 10 ^ 2 * tokens : ℚ) = (n * tokens : ℕ) / 10 ^ 2 := by
    push_cast
    ring
  rw [ModelPricing.charge, hoperand, ok_bind]
  simp only [operate, DecimalContext.times, hproduct, rounded_cents hfits]

theorem plus_fits {j k : ℕ} (hfits : j + k < 10 ^ precision) :
    operate arithmetic.plus (some (.finite (j / 10 ^ 2))) (some (.finite (k / 10 ^ 2))) =
      .ok (some (.finite ((j + k : ℕ) / 10 ^ 2))) := by
  have hsum : (j / 10 ^ 2 + k / 10 ^ 2 : ℚ) = (j + k : ℕ) / 10 ^ 2 := by
    push_cast
    ring
  simp only [operate, DecimalContext.plus, Value.plus_finite, hsum, rounded_cents hfits]

/-- A usage whose quanta fit has a price. -/
theorem costOf_fits (c : WholeCents p) (hfits : c.quanta u < 10 ^ precision) :
    p.costOf u = .ok (.finite false (c.quanta u) (-quantumPlaces)) := by
  have hquotient : (c.quanta u / 10 ^ 2 / 1000000 : ℚ) = c.quanta u / 10 ^ 8 := by
    rw [div_div]
    norm_num
  have hrounded : arithmetic.rounded (c.quanta u / 10 ^ 8 : ℚ) =
      some (.finite (c.quanta u / 10 ^ 8)) :=
    DecimalContext.rounded_fits (etiny_le le_rfl) (by simp [precision, arithmetic]) hfits
  have hceil : ⌈(c.quanta u / 10 ^ 8 : ℚ) * 10 ^ quantumPlaces⌉ = c.quanta u := by
    rw [quantumPlaces, div_mul_cancel₀ _ (by norm_num), Int.ceil_natCast]
  have hparts := hfits
  unfold WholeCents.quanta at hparts
  have hsum₁ : c.input * u.inputTokens + c.output * u.outputTokens < 10 ^ precision := by omega
  have hsum₂ : c.input * u.inputTokens + c.output * u.outputTokens +
    c.cacheRead * u.cacheReadInputTokens < 10 ^ precision := by omega
  rw [ModelPricing.costOf, ModelPricing.costUnder, charge_fits c.input_eq (by omega), ok_bind,
    charge_fits c.output_eq (by omega), ok_bind, plus_fits hsum₁, ok_bind,
    charge_fits c.cacheRead_eq (by omega), ok_bind, plus_fits hsum₂, ok_bind,
    charge_fits c.cacheWrite_eq (by omega), ok_bind, plus_fits hparts, ok_bind]
  change operate _ (some (.finite (c.quanta u / 10 ^ 2))) _ >>= _ = _
  simp only [operate, DecimalContext.dividedBy, hquotient, hrounded, ok_bind, ceilingQuantum, hceil,
    Int.natAbs_natCast, arithmetic_prec]
  rw [if_pos hfits, decide_eq_false (by omega)]

end Fits

theorem exact_cents {p : ModelPricing} (c : WholeCents p) (u : TokenUsage) :
    p.exact u = (c.quanta u : ℚ) / 10 ^ quantumPlaces := by
  have hrate {rate : Decimal} {n : ℕ} (h : centsOf rate = some n) :
      rate.worth.toRat = n / 10 ^ 2 := by
    rw [worth_finite (centsOf_eq_some h), Value.toRat_finite]
  rw [ModelPricing.exact, hrate c.input_eq, hrate c.output_eq, hrate c.cacheRead_eq,
    hrate c.cacheWrite_eq, quantumPlaces, WholeCents.quanta]
  push_cast
  ring

/-- A price at published rates is the exact one. -/
theorem costOf_published {p : ModelPricing} (hp : p ∈ published) {u : TokenUsage} {price : Decimal}
    (h : p.costOf u = .ok price) :
    price.value? = some (.finite (p.exact u)) ∧ ∃ n : ℕ, p.exact u = n / 10 ^ quantumPlaces := by
  obtain ⟨c⟩ := wholeCents_published hp
  rw [(costOf_cents c h).2, exact_cents c u]
  refine ⟨?_, _, rfl⟩
  rw [Decimal.value?, show (-(quantumPlaces : ℤ)) = -((quantumPlaces : ℕ) : ℤ) from rfl, rat_places]
  simp

/-- A usage has a price at published rates exactly where the digits of that price fit. -/
theorem costOf_published_iff {p : ModelPricing} (hp : p ∈ published) {u : TokenUsage} :
    (∃ price, p.costOf u = .ok price) ↔ p.exact u < 10 ^ 42 := by
  obtain ⟨c⟩ := wholeCents_published hp
  have hfits : p.exact u < 10 ^ 42 ↔ c.quanta u < 10 ^ precision := by
    rw [exact_cents c u, div_lt_iff₀ (by positivity), ← pow_add]
    exact_mod_cast Iff.rfl
  rw [hfits]
  exact ⟨fun ⟨price, h⟩ => (costOf_cents c h).1, fun h => ⟨_, costOf_fits c h⟩⟩

theorem exact_mono {p : ModelPricing} (hp : p ∈ published) {u v : TokenUsage} (h : u ≤ v) :
    p.exact u ≤ p.exact v := by
  obtain ⟨c⟩ := wholeCents_published hp
  rw [exact_cents c, exact_cents c]
  refine div_le_div_of_nonneg_right ?_ (by positivity)
  exact_mod_cast Nat.add_le_add (Nat.add_le_add (Nat.add_le_add
    (Nat.mul_le_mul_left _ h.inputTokens) (Nat.mul_le_mul_left _ h.outputTokens))
    (Nat.mul_le_mul_left _ h.cacheReadInputTokens))
    (Nat.mul_le_mul_left _ h.cacheCreationInputTokens)

theorem exact_plus (p : ModelPricing) (u v : TokenUsage) :
    p.exact (u.plus v) = p.exact u + p.exact v := by
  simp only [ModelPricing.exact, TokenUsage.plus]
  push_cast
  ring

theorem exact_sum (p : ModelPricing) (parts : List TokenUsage) :
    p.exact (TokenUsage.sum parts) = (parts.map p.exact).sum := by
  induction parts using List.reverseRecOn with
  | nil => simp [ModelPricing.exact, TokenUsage.none]
  | append_singleton parts u ih => simp [exact_plus, ih]

/-! ### The thread's decimal context -/

/-- What is computed in a thread, which has a decimal context of its own. -/
abbrev Threaded (α : Type) := ReaderT DecimalContext (Except Error) α

/-- `with localcontext(own)`, and `context=own`. -/
def localContext {α : Type} (own : DecimalContext) (body : Threaded α) : Threaded α :=
  fun _ => body own

/-- `value.quantize`, in the context in force. -/
def quantizing (places : ℕ) (r : Rounding) (d : Decimal) : Threaded Decimal := fun c =>
  quantizeUnder c places r d

/-- `cost_of`, in a thread. -/
def ModelPricing.costOfIn (p : ModelPricing) (u : TokenUsage) : Threaded Decimal :=
  localContext arithmetic fun c => p.costUnder c u

/-- `_coerce`, in a thread: every quantization is under a context of its own. -/
def coerceIn (value : AmountArg) (r : Rounding) (places : ℕ) : Threaded Decimal := fun thread =>
  coerceBy (fun places r d => localContext arithmetic (quantizing places r d) thread) value r places

/-- `_cost`, in a thread. -/
def costIn (value : AmountArg) (unit : Unit) : Threaded Decimal :=
  coerceIn value .ceiling unit.places

/-- `_credit`, in a thread. -/
def creditIn (value : AmountArg) (unit : Unit) : Threaded Decimal :=
  coerceIn value .floor unit.places

section Threads

variable (thread : DecimalContext)

/-- The thread's context has no part in a price. -/
theorem costOfIn_eq (p : ModelPricing) (u : TokenUsage) : p.costOfIn u thread = p.costOf u := rfl

/-- The thread's context has no part in what is coerced. -/
theorem coerceIn_eq (value : AmountArg) (r : Rounding) (places : ℕ) :
    coerceIn value r places thread = coerce value r places := rfl

theorem costIn_eq (value : AmountArg) (unit : Unit) : costIn value unit thread = cost value unit :=
  coerceIn_eq thread value _ _

theorem creditIn_eq (value : AmountArg) (unit : Unit) :
    creditIn value unit thread = credit value unit :=
  coerceIn_eq thread value _ _

end Threads

/-! ### What is settled of a price -/

/-- Whether a hold is captured at an amount of its unit that is not below an exact price, and less
than a quantum above it: where the capture is carried out, that amount is spent. It is carried out
where the hold is still open and the memo can be written. -/
def Deed.CapturesAbove (w : World) (x : Deed) (exact : ℚ) : Prop :=
  (∃ settled : Decimal, ∃ q : ℚ, settled.value? = some (.finite q) ∧ exact ≤ q ∧
    q < exact + 1 / 10 ^ x.before.ledger.state.unit.places ∧
    (∃ k : ℤ, q = k / 10 ^ x.before.ledger.state.unit.places) ∧ (x.Carried → x.Settles settled)) ∧
  (x.Open w → checkText x.ask.memo .memo maxMemoBytes false = none → x.Carried)

/-- A whole number of quanta is the amount of money it is. -/
theorem money_quanta {price owed : Decimal} {n : ℕ}
    (hprice : price.value? = some (.finite (n / 10 ^ quantumPlaces)))
    (h : money price = .ok owed) : owed.value? = some (.finite (n / 10 ^ quantumPlaces)) := by
  obtain ⟨q, hq, howed⟩ := coerce_worth (by decide) le_rfl h
  obtain rfl : n / 10 ^ quantumPlaces = q := by
    simpa using hprice.symm.trans hq
  rw [howed, div_mul_cancel₀ _ (by positivity), ← Int.cast_natCast, Rounding.round_intCast]

/-- A guard takes a price at published rates exactly where it is no greater than the greatest
amount. -/
theorem settle_published {p : ModelPricing} (hp : p ∈ published) {u : TokenUsage} {price : Decimal}
    (hprice : p.costOf u = .ok price) (s : SpendGuard) :
    (∃ s', s.settle price = .ok s') ↔ p.exact u ≤ maxAmount := by
  obtain ⟨hexact, n, hn⟩ := costOf_published hp hprice
  have hpos : 0 ≤ p.exact u := by
    rw [hn]
    positivity
  have hmoney : (∃ owed, money price = .ok owed) ↔ p.exact u ≤ maxAmount := by
    rw [show (∃ owed, money price = .ok owed) ↔ _ from coerce_iff (by decide) le_rfl, hexact]
    simp [abs_of_nonneg hpos]
  rw [← hmoney]
  constructor
  · rintro ⟨s', hs'⟩
    obtain ⟨owed, howed, -⟩ := bind_eq_ok.mp hs'
    exact ⟨owed, howed⟩
  · rintro ⟨owed, howed⟩
    exact ⟨_, bind_eq_ok.mpr ⟨owed, howed, rfl⟩⟩

/-- The capture of a price at published rates is not below it. -/
theorem capturesAbove_published {w : World} {p : ModelPricing} (hp : p ∈ published)
    {u : TokenUsage} {price owed : Decimal} (hprice : p.costOf u = .ok price)
    (howed : money price = .ok owed) (d : Desk) (a : Authorization) (memo : Text) :
    (d.deed w (.capture a owed memo)).CapturesAbove w (p.exact u) := by
  obtain ⟨hexact, n, hn⟩ := costOf_published hp hprice
  rw [hn] at hexact ⊢
  have hvalue := money_quanta hexact howed
  have hpos : 0 ≤ owed.worth := by
    rw [worth_finite hvalue]
    exact Value.finite_le_finite.mpr (by positivity)
  obtain ⟨settled, taken, -⟩ := cost_of_money howed hpos d.governor.ledger.state.unit
  obtain ⟨q, q', hq, hsettled, hle, hlt, hwhole⟩ := cost_bounds taken
  obtain rfl : n / 10 ^ quantumPlaces = q := by
    simpa using hvalue.symm.trans hq
  refine ⟨⟨settled, q', hsettled, hle, hlt, hwhole, fun carried => ?_⟩, fun opened hmemo =>
    money_carried d a howed hpos hmemo opened⟩
  obtain ⟨settled', taken', hdone⟩ := capture_settles d carried
  cases taken.symm.trans taken'
  exact hdone

/-- Whether a usage is priced at an amount, in a thread. -/
def ModelPricing.PricedAt (p : ModelPricing) (thread : DecimalContext) (u : TokenUsage) (q : ℚ) :
    Prop :=
  ∃ price, p.costOfIn u thread = .ok price ∧ price.value? = some (.finite q)

theorem pricedAt_eq {p : ModelPricing} (hp : p ∈ published) {thread : DecimalContext}
    {u : TokenUsage} {q : ℚ} (h : p.PricedAt thread u q) : q = p.exact u := by
  obtain ⟨price, hprice, hq⟩ := h
  rw [costOfIn_eq] at hprice
  simpa using hq.symm.trans (costOf_published hp hprice).1

/-- A usage whose price fits is priced at it. -/
theorem pricedAt_exact {p : ModelPricing} (hp : p ∈ published) (thread : DecimalContext)
    {u : TokenUsage} (h : p.exact u < 10 ^ 42) : p.PricedAt thread u (p.exact u) := by
  obtain ⟨price, hprice⟩ := (costOf_published_iff hp).mpr h
  exact ⟨price, hprice, (costOf_published hp hprice).1⟩

theorem prices_eq {p : ModelPricing} (hp : p ∈ published) {thread : DecimalContext}
    {parts : List TokenUsage} {prices : List ℚ}
    (h : List.Forall₂ (p.PricedAt thread) parts prices) : prices = parts.map p.exact := by
  induction h with
  | nil => rfl
  | cons hpart _ ih => rw [List.map_cons, ← ih, pricedAt_eq hp hpart]

/-- No rounding is in the spender's favour, whatever the decimal context of the thread. At published
rates a usage is priced at its exact price, where the digits of that fit, and a guard takes it
where it is no greater than the greatest amount: what it captures then is not below the exact
price, and less than a quantum of the unit above it. Prices grow with every count, and the prices of
the parts of a usage add up to no less than its own. Costs are rounded up and credits down, each by
less than a quantum and to whole quanta. -/
theorem rounds_against_spender (w : World) (thread : DecimalContext) :
    (∀ p ∈ published, ∀ u : TokenUsage,
      ((∃ price, p.costOfIn u thread = .ok price) ↔ p.exact u < 10 ^ 42) ∧
      ∀ price, p.costOfIn u thread = .ok price →
        price.value? = some (.finite (p.exact u)) ∧
        ∀ s : SpendGuard, ((∃ s', s.settle price = .ok s') ↔ p.exact u ≤ maxAmount) ∧
          ∀ (s' : SpendGuard) (a : Authorization) (d : Desk), s.auth = some a →
            s.settle price = .ok s' →
              ∃ x, (s'.exit w d false).2.deeds = d.deeds ++ [x] ∧ x.ask.hold = a ∧
                x.before = d.governor ∧
                x.ask.memo = orElse s'.memo (txt "settled call cost") ∧
                x.CapturesAbove w (p.exact u)) ∧
    (∀ p ∈ published, ∀ (u v : TokenUsage) (q r : ℚ), u ≤ v → p.PricedAt thread u q →
      p.PricedAt thread v r → q ≤ r) ∧
    (∀ p ∈ published, ∀ (parts : List TokenUsage) (prices : List ℚ) (whole : ℚ),
      List.Forall₂ (p.PricedAt thread) parts prices →
        p.PricedAt thread (TokenUsage.sum parts) whole → whole ≤ prices.sum) ∧
    ∀ (amount : Decimal) (unit : Unit),
      ((∃ x, costIn (.number (some amount)) unit thread = .ok x) ↔
        ∃ q, amount.value? = some (.finite q) ∧ |q| ≤ maxAmount) ∧
      ((∃ x, creditIn (.number (some amount)) unit thread = .ok x) ↔
        ∃ q, amount.value? = some (.finite q) ∧ |q| ≤ maxAmount) ∧
      (∀ x, costIn (.number (some amount)) unit thread = .ok x →
        ∃ q r : ℚ, amount.value? = some (.finite q) ∧ x.value? = some (.finite r) ∧
          q ≤ r ∧ r < q + 1 / 10 ^ unit.places ∧ ∃ k : ℤ, r = k / 10 ^ unit.places) ∧
      ∀ x, creditIn (.number (some amount)) unit thread = .ok x →
        ∃ q r : ℚ, amount.value? = some (.finite q) ∧ x.value? = some (.finite r) ∧
          r ≤ q ∧ q < r + 1 / 10 ^ unit.places ∧ ∃ k : ℤ, r = k / 10 ^ unit.places := by
  refine ⟨?_, ?_, ?_, fun amount unit => ?_⟩
  · intro p hp u
    simp only [costOfIn_eq]
    refine ⟨costOf_published_iff hp, fun price hprice => ?_⟩
    refine ⟨(costOf_published hp hprice).1, fun s => ⟨settle_published hp hprice s, ?_⟩⟩
    intro s' a d hauth hsettle
    obtain ⟨owed, howed, hs'⟩ := bind_eq_ok.mp hsettle
    cases hs'
    exact ⟨_, SpendGuard.exit_settled (s := { s with settled := some owed }) d hauth, rfl, rfl,
      rfl, capturesAbove_published hp hprice howed d a _⟩
  · intro p hp u v q r hle hq hr
    rw [pricedAt_eq hp hq, pricedAt_eq hp hr]
    exact exact_mono hp hle
  · intro p hp parts prices whole hparts hwhole
    rw [pricedAt_eq hp hwhole, exact_sum, prices_eq hp hparts]
  · simp only [costIn_eq, creditIn_eq]
    exact ⟨coerce_iff (by decide) unit.places_le, coerce_iff (by decide) unit.places_le,
      fun _ h => cost_bounds h, fun _ h => credit_bounds h⟩

/-! ### A price settled in cents -/

/-- Euros, counted to two places. -/
def sampleUnit : Unit := ⟨txt "eur", 2, by decide, by decide⟩

/-- A decimal context of one digit. -/
def sampleThread : DecimalContext := { prec := 1, emin := -9, emax := 9 }

/-- A governor of a ledger of euros, with a hold of one of them. -/
def sampleHeld : Except Exception Answer × Desk :=
  Desk.authorize sampleWorld
    { governor := (Governor.new sampleUnit samplePolicy false).run sampleWorld
        [.call (.openRoot (txt "a") (wholeAmount 10) [])] }
    (txt "a") (Decimal.ofInt 1) (txt "call authorization")

/-- Twenty-five input tokens and eight output tokens. -/
def sampleUsage : TokenUsage := { inputTokens := 25, outputTokens := 8 }

/-- The sixth of the published rates, five dollars and twenty-five. -/
def sampleModel : ModelPricing := rates (txt "claude-opus-4-6") (cents 500) (cents 2500) none

theorem sampleModel_published : sampleModel ∈ published := by
  simp [published, sampleModel]

theorem exact_sampleUsage : sampleModel.exact sampleUsage = 325 / 10 ^ 6 := by
  decide +kernel

/-- A guard of the hold that is settled. -/
def sampleGuard (a : Authorization) : SpendGuard where
  scopeId := txt "a"
  hold := Decimal.ofInt 1
  auth := some a

/-- A hold placed with the governor of euros is open until it is settled. -/
theorem sampleHeld_open {a : Authorization} (h : sampleHeld.1 = .ok (.authorization a)) :
    sampleHeld.2.governor.Open sampleWorld a := by
  have hserves : ((heldIn sampleHeld.1).all (servesOpen sampleHeld.2.governor)) = true := by
    decide +kernel
  rw [h, heldIn, List.all_cons, Bool.and_eq_true] at hserves
  refine open_of_run sampleUnit
    [.call (.openRoot (txt "a") (wholeAmount 10) []),
      .call (.authorize (txt "a") (wholeAmount 1) (txt "call authorization") none)] rfl ?_ hserves.1
  decide +kernel

/-- The price of the sample usage is settled, carried out, in euros; it is not below that of its
input tokens, nor above those of its parts; and a tenth of a cent costs one and credits none. -/
theorem rounds_against_spender_sampleUsage : (∃ a price s' x,
    sampleHeld.1 = .ok (.authorization a) ∧
    sampleModel.costOfIn sampleUsage sampleThread = .ok price ∧
    price.value? = some (.finite (325 / 10 ^ 6)) ∧ (sampleGuard a).settle price = .ok s' ∧
    (s'.exit sampleWorld sampleHeld.2 false).2.deeds = sampleHeld.2.deeds ++ [x] ∧
    x.CapturesAbove sampleWorld (325 / 10 ^ 6) ∧ x.Carried) ∧
    (125 / 10 ^ 6 : ℚ) ≤ 325 / 10 ^ 6 ∧ (325 / 10 ^ 6 : ℚ) ≤ [125 / 10 ^ 6, 200 / 10 ^ 6].sum ∧
    ∃ up down, costIn (.number (some (.finite false 1 (-3)))) sampleUnit sampleThread = .ok up ∧
      creditIn (.number (some (.finite false 1 (-3)))) sampleUnit sampleThread = .ok down ∧
      down.worth ≤ up.worth := by
  obtain ⟨hprices, hmono, hparts, hmoney⟩ := rounds_against_spender sampleWorld sampleThread
  have priced (u : TokenUsage) (q : ℚ) (h : sampleModel.exact u = q) (hq : q < 10 ^ 42) :
      sampleModel.PricedAt sampleThread u q :=
    h ▸ pricedAt_exact sampleModel_published sampleThread (h ▸ hq)
  have hinput := priced { inputTokens := 25 } (125 / 10 ^ 6)
    (by decide +kernel) (by norm_num)
  have houtput := priced { outputTokens := 8 } (200 / 10 ^ 6)
    (by decide +kernel) (by norm_num)
  have hwhole := priced sampleUsage _ exact_sampleUsage (by norm_num)
  refine ⟨?_, hmono _ sampleModel_published { inputTokens := 25 } sampleUsage _ _
    ⟨le_rfl, Nat.zero_le _, le_rfl, le_rfl⟩ hinput hwhole, hparts _ sampleModel_published
      [{ inputTokens := 25 }, { outputTokens := 8 }] _ _
      (.cons hinput (.cons houtput .nil)) hwhole, ?_⟩
  · obtain ⟨a, ha⟩ : ∃ a, sampleHeld.1 = .ok (.authorization a) := by
      have hplaced : (heldIn sampleHeld.1).isEmpty = false := by decide +kernel
      refine exists_of_heldIn fun hnil => ?_
      rw [hnil] at hplaced
      cases hplaced
    obtain ⟨hpriced, hsettled⟩ := hprices sampleModel sampleModel_published sampleUsage
    rw [exact_sampleUsage] at hpriced hsettled
    obtain ⟨price, hprice⟩ := hpriced.mpr (by norm_num)
    obtain ⟨hexact, hguard⟩ := hsettled price hprice
    obtain ⟨htaken, hexit⟩ := hguard (sampleGuard a)
    obtain ⟨s', hs'⟩ := htaken.mpr (by norm_num [maxAmount])
    obtain ⟨x, hdeeds, hhold, hbefore, hmemo, hcaptures⟩ := hexit s' a sampleHeld.2 rfl hs'
    refine ⟨a, price, s', x, ha, hprice, hexact, hs', hdeeds, hcaptures, hcaptures.2 ?_ ?_⟩
    · rw [Deed.Open, hbefore, hhold]
      exact sampleHeld_open ha
    · obtain ⟨owed, -, hsettled'⟩ := bind_eq_ok.mp hs'
      cases hsettled'
      rw [hmemo]
      exact checkText_settled
  · obtain ⟨hcost, hcredit, hup, hdown⟩ := hmoney (.finite false 1 (-3)) sampleUnit
    have hsmall : ∃ q, (Decimal.finite false 1 (-3)).value? = some (.finite q) ∧ |q| ≤ maxAmount :=
      ⟨_, rfl, by norm_num [Decimal.rat, maxAmount]⟩
    obtain ⟨up, hcosts⟩ := hcost.mpr hsmall
    obtain ⟨down, hcredits⟩ := hcredit.mpr hsmall
    obtain ⟨q, r, hq, hr, hle, -⟩ := hup up hcosts
    obtain ⟨q', r', hq', hr', hle', -⟩ := hdown down hcredits
    obtain rfl : q = q' := by simpa using hq.symm.trans hq'
    refine ⟨up, down, hcosts, hcredits, ?_⟩
    rw [worth_finite hr, worth_finite hr']
    exact Value.finite_le_finite.mpr (hle'.trans hle)

end AgentGov.Metering
