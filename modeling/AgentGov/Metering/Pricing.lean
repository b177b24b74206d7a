import AgentGov.Coercion

/-!
# Token usage and its price

The token counts of a model call, how they are read off a response, and what they cost
(`src/src/agentgov/interceptor.py`, lines 80–146, 207–287, 351–414, 1022–1066 and 1080–1084).

A response is a Python value as far as it is read: its items or its attributes. The rates published
for a model id are a table that comes with the interceptor.

## Main definitions

* `AgentGov.Metering.TokenUsage`: token counts, with `TokenUsage.merged`.
* `AgentGov.Metering.Reply`: a response.
* `AgentGov.Metering.defaultUsageExtractor`: the usage a response reports.
* `AgentGov.Metering.ModelPricing.costOf`: what a usage costs.
* `AgentGov.Metering.Tariff.price`: usage and cost of a response, at the rates of what served.

## Main results

* `AgentGov.Metering.TokenUsage.le_merged`, `AgentGov.Metering.TokenUsage.merged_le`: the merged
  usage is the least that is not below either report.
-/

open Foundation

namespace AgentGov.Metering

/-! ### Token counts -/

/-- `TokenUsage`: the token counts of a single model call, none of them negative. -/
@[ext] structure TokenUsage where
  inputTokens : ℕ := 0
  outputTokens : ℕ := 0
  cacheReadInputTokens : ℕ := 0
  cacheCreationInputTokens : ℕ := 0
deriving DecidableEq

namespace TokenUsage

/-- `TokenUsage()`: no tokens. -/
def none : TokenUsage := {}

/-- `merged`: two partial usage reports combined, the larger of each field. -/
def merged (u v : TokenUsage) : TokenUsage where
  inputTokens := max u.inputTokens v.inputTokens
  outputTokens := max u.outputTokens v.outputTokens
  cacheReadInputTokens := max u.cacheReadInputTokens v.cacheReadInputTokens
  cacheCreationInputTokens := max u.cacheCreationInputTokens v.cacheCreationInputTokens

/-- The sum of two usages, field by field. -/
def plus (u v : TokenUsage) : TokenUsage where
  inputTokens := u.inputTokens + v.inputTokens
  outputTokens := u.outputTokens + v.outputTokens
  cacheReadInputTokens := u.cacheReadInputTokens + v.cacheReadInputTokens
  cacheCreationInputTokens := u.cacheCreationInputTokens + v.cacheCreationInputTokens

/-- The sum of usages, field by field. -/
def sum : List TokenUsage → TokenUsage := List.foldl plus none

/-- Whether no field of a report is above the other's. -/
structure Le (u v : TokenUsage) : Prop where
  inputTokens : u.inputTokens ≤ v.inputTokens
  outputTokens : u.outputTokens ≤ v.outputTokens
  cacheReadInputTokens : u.cacheReadInputTokens ≤ v.cacheReadInputTokens
  cacheCreationInputTokens : u.cacheCreationInputTokens ≤ v.cacheCreationInputTokens

instance : LE TokenUsage := ⟨Le⟩

instance : PartialOrder TokenUsage where
  le_refl _ := ⟨le_rfl, le_rfl, le_rfl, le_rfl⟩
  le_trans _ _ _ h h' := ⟨h.1.trans h'.1, h.2.trans h'.2, h.3.trans h'.3, h.4.trans h'.4⟩
  le_antisymm _ _ h h' := TokenUsage.ext (h.1.antisymm h'.1) (h.2.antisymm h'.2)
    (h.3.antisymm h'.3) (h.4.antisymm h'.4)

theorem none_le (u : TokenUsage) : none ≤ u :=
  ⟨Nat.zero_le _, Nat.zero_le _, Nat.zero_le _, Nat.zero_le _⟩

/-- Neither report is above the merged one. -/
theorem le_merged (u v : TokenUsage) : u ≤ u.merged v ∧ v ≤ u.merged v :=
  ⟨⟨le_max_left _ _, le_max_left _ _, le_max_left _ _, le_max_left _ _⟩,
    ⟨le_max_right _ _, le_max_right _ _, le_max_right _ _, le_max_right _ _⟩⟩

/-- The merged report is below every one that is above both. -/
theorem merged_le {u v t : TokenUsage} (hu : u ≤ t) (hv : v ≤ t) : u.merged v ≤ t :=
  ⟨max_le hu.1 hv.1, max_le hu.2 hv.2, max_le hu.3 hv.3, max_le hu.4 hv.4⟩

@[simp] theorem sum_nil : sum [] = none := rfl

@[simp] theorem sum_concat (l : List TokenUsage) (u : TokenUsage) :
    sum (l ++ [u]) = (sum l).plus u := by
  simp [sum]

end TokenUsage

/-! ### Reading a response -/

/-- A Python value, as far as token counts are read off it. -/
inductive Reply
  | usage (u : TokenUsage)
  | int (n : ℤ)
  | str (t : Text)
  /-- `None` -/
  | none
  /-- A value with no token counts: a boolean, a float, a list. -/
  | opaqueValue
  /-- A mapping, by its text keys. -/
  | mapping (items : List (Text × Reply))
  /-- Any other object, by its attributes. -/
  | object (attributes : List (Text × Reply))
  /-- What an attribute is whose reading raises something other than `AttributeError`. -/
  | faulty

/-- What reading a usage can raise. -/
inductive ReadFault
  | typeError
  | attributeError
  | keyError
  | valueError
  /-- Any other exception. -/
  | other
deriving DecidableEq

namespace Reply

/-- The value under a name in a list of items or attributes. -/
def lookup (name : Text) : List (Text × Reply) → Option Reply
  | [] => Option.none
  | p :: rest => if p.1 = name then some p.2 else lookup name rest

/-- An attribute, if the value has it. -/
def getattr (name : Text) : Reply → Except ReadFault (Option Reply)
  | object attributes =>
    match lookup name attributes with
    | some faulty => .error .other
    | found => .ok found
  | _ => .ok Option.none

/-- `_read_count`: one token count of a mapping or an object, if present. -/
def readCount (name : Text) (source : Reply) : Except ReadFault (Option ℤ) := do
  let raw ←
    match source with
    | mapping items => .ok (lookup name items)
    | source =>
      match ← getattr name source with
      | some none => .ok Option.none
      | found => .ok found
  match raw with
  | Option.none => .ok Option.none
  | some (int n) => .ok (some n)
  | some _ => .error .typeError

end Reply

/-- A count as a field of a usage: a missing one is zero, a negative one is refused. -/
def countField (n : Option ℤ) : Except ReadFault ℕ :=
  if n.getD 0 < 0 then .error .valueError else .ok (n.getD 0).toNat

/-- What a response's usage is read from: its `usage` member, or itself. -/
def usageSource (response : Reply) : Except ReadFault Reply :=
  match response with
  | .mapping items => .ok ((Reply.lookup (txt "usage") items).getD response)
  | response => do .ok ((← response.getattr (txt "usage")).getD response)

/-- `default_usage_extractor`: the usage a response reports. -/
def defaultUsageExtractor (response : Reply) : Except ReadFault TokenUsage :=
  match response with
  | .usage u => .ok u
  | response => do
    match ← usageSource response with
    | .usage u => .ok u
    | source => do
      let input ← source.readCount (txt "input_tokens")
      let output ← source.readCount (txt "output_tokens")
      let cacheRead ← source.readCount (txt "cache_read_input_tokens")
      let cacheCreation ← source.readCount (txt "cache_creation_input_tokens")
      if [input, output, cacheRead, cacheCreation].all Option.isNone then .error .typeError
      else
        .ok {
          inputTokens := ← countField input
          outputTokens := ← countField output
          cacheReadInputTokens := ← countField cacheRead
          cacheCreationInputTokens := ← countField cacheCreation }

/-! ### Rates -/

/-- `ModelPricing`: the rates of one model, per million tokens. -/
structure ModelPricing where
  modelId : Text
  inputUsdPerMtok : Decimal
  outputUsdPerMtok : Decimal
  cacheReadUsdPerMtok : Decimal
  cacheWriteUsdPerMtok : Decimal
deriving DecidableEq

/-- A decimal that is computed with: a value, or a quiet NaN. A signalling NaN raises. -/
def operand : Decimal → Except Error (Option Value)
  | .nan _ true _ => .error .arithmetic
  | d => .ok d.value?

/-- An operation of `_ROUNDING`: a quiet NaN is handed on, what is trapped raises. -/
def operate (f : Value → Value → Option Value) (a b : Option Value) :
    Except Error (Option Value) :=
  match a, b with
  | some a, some b =>
    match f a b with
    | some v => .ok (some v)
    | none => .error .arithmetic
  | _, _ => .ok none

/-- `raw.quantize(QUANTUM, rounding=ROUND_CEILING)`, under a context. -/
def ceilingQuantum (c : DecimalContext) : Option Value → Except Error Decimal
  | none => .ok (.nan false false 0)
  | some (.infinite _) => .error .arithmetic
  | some (.finite q) =>
    let n := ⌈q * 10 ^ quantumPlaces⌉
    if n.natAbs < 10 ^ c.prec then .ok (.finite (decide (n < 0)) n.natAbs (-quantumPlaces))
    else .error .arithmetic

namespace ModelPricing

/-- A rate times a count, under a context. -/
def charge (c : DecimalContext) (rate : Decimal) (tokens : ℕ) : Except Error (Option Value) := do
  operate c.times (← operand rate) (some (.finite tokens))

/-- What `cost_of` computes under a context. -/
def costUnder (c : DecimalContext) (p : ModelPricing) (u : TokenUsage) : Except Error Decimal := do
  let input ← charge c p.inputUsdPerMtok u.inputTokens
  let output ← charge c p.outputUsdPerMtok u.outputTokens
  let sum ← operate c.plus input output
  let cacheRead ← charge c p.cacheReadUsdPerMtok u.cacheReadInputTokens
  let sum ← operate c.plus sum cacheRead
  let cacheWrite ← charge c p.cacheWriteUsdPerMtok u.cacheCreationInputTokens
  let sum ← operate c.plus sum cacheWrite
  ceilingQuantum c (← operate (fun a _ => c.dividedBy a 1000000) sum (some 0))

/-- `cost_of`: the cost of a usage under these rates, rounded up to the quantum. -/
def costOf (p : ModelPricing) (u : TokenUsage) : Except Error Decimal := p.costUnder arithmetic u

end ModelPricing

/-- `money`: an amount rounded down to the quantum. -/
def money (d : Decimal) : Except Error Decimal := coerce (.number (some d)) .floor quantumPlaces

/-! ### What is settled of a cost -/

/-- A cost that is not above the greatest amount is rounded up to one that is not either, and to
nothing only where it is nothing. -/
theorem quantizeTo_ceiling {s : Bool} {c : ℕ} {e : ℤ} {places : ℕ} (hplaces : places ≤ 8)
    (hpos : 0 ≤ Decimal.rat s c e) (hmax : Decimal.rat s c e ≤ maxAmount) :
    ∃ n, quantizeTo places .ceiling (.finite s c e) = .ok (.finite s n (-places)) ∧
      0 ≤ Decimal.rat s n (-places) ∧ Decimal.rat s n (-places) ≤ maxAmount ∧
      (Decimal.rat s n (-places) = 0 ↔ Decimal.rat s c e = 0) := by
  set q := Decimal.rat s c e with hq
  have h10 : (0 : ℚ) < 10 ^ places := by positivity
  have hround : Rounding.ceiling.round (q * 10 ^ places) = ⌈q * 10 ^ places⌉ := rfl
  have hlow : 0 ≤ ⌈q * 10 ^ places⌉ := Int.ceil_nonneg (by positivity)
  have hhigh : ⌈q * 10 ^ places⌉ ≤ 1000000000000 * 10 ^ places := by
    refine Int.ceil_le.mpr ?_
    push_cast
    exact mul_le_mul_of_nonneg_right hmax h10.le
  have hpow : (10 : ℤ) ^ places ≤ 10 ^ 8 := pow_le_pow_right₀ (by norm_num) hplaces
  have hlt : ⌈q * 10 ^ places⌉.natAbs < 10 ^ precision := by
    have hbound : ⌈q * 10 ^ places⌉ ≤ 10 ^ 20 := by
      calc ⌈q * 10 ^ places⌉ ≤ 1000000000000 * 10 ^ places := hhigh
        _ ≤ 1000000000000 * 10 ^ 8 := by linarith
        _ = 10 ^ 20 := by norm_num
    have hcast : (⌈q * 10 ^ places⌉.natAbs : ℤ) = ⌈q * 10 ^ places⌉ := Int.natAbs_of_nonneg hlow
    have hnat : ⌈q * 10 ^ places⌉.natAbs ≤ 10 ^ 20 := by exact_mod_cast hcast ▸ hbound
    exact hnat.trans_lt (by norm_num [precision])
  have hquantized : quantizeTo places .ceiling (.finite s c e) =
      .ok (.finite s ⌈q * 10 ^ places⌉.natAbs (-places)) := by
    simp only [quantizeTo, quantizeUnder, arithmetic_prec, Decimal.quantize, ← hq, hround, if_pos hlt]
  obtain ⟨n, hn, hworth⟩ := quantizeTo_worth (by decide) hquantized
  cases hn
  refine ⟨_, hquantized, ?_⟩
  rw [hworth, ← hq, hround]
  refine ⟨by positivity, ?_, ?_⟩
  · rw [div_le_iff₀ h10, maxAmount]
    exact_mod_cast hhigh
  · constructor
    · intro hzero
      have hnone : ⌈q * 10 ^ places⌉ = 0 := by
        rcases div_eq_zero_iff.mp hzero with h | h
        · exact_mod_cast h
        · exact absurd h h10.ne'
      have hle := Int.ceil_le.mp hnone.le
      have hprod : q * 10 ^ places = 0 := le_antisymm (by exact_mod_cast hle) (by positivity)
      rcases mul_eq_zero.mp hprod with h | h
      · exact h
      · exact absurd h h10.ne'
    · intro hzero
      simp [hzero]

/-- What is charged of an amount that is neither negative nor above the greatest is an amount of
the unit, and nothing only where it is nothing. -/
theorem cost_finite {s : Bool} {c : ℕ} {e : ℤ} (hpos : 0 ≤ Decimal.rat s c e)
    (hmax : Decimal.rat s c e ≤ maxAmount) (unit : Unit) :
    ∃ settled, cost (.number (some (.finite s c e))) unit = .ok settled ∧
      (settled.worth = 0 ↔ (Decimal.finite s c e).worth = 0) := by
  have hsmall : ¬maxAmount < |Decimal.rat s c e| := by
    rw [abs_of_nonneg hpos]
    exact not_lt.mpr hmax
  have hzero (v : ℚ) : (Value.finite v = 0) ↔ v = 0 := by
    rw [Value.zero_def, Value.finite.injEq]
  obtain ⟨k, hk, hk0, hkmax, hkzero⟩ := quantizeTo_ceiling unit.places_le hpos hmax
  by_cases hunit : unit.places = quantumPlaces
  · refine ⟨.finite s k (-unit.places), ?_, ?_⟩
    · simp only [cost, coerce, coerceBy, if_neg hsmall, hunit, ne_eq, not_true_eq_false, if_false]
      rw [← hunit]
      simpa only [hunit] using hk
    · rw [worth_finite rfl, worth_finite rfl, hzero, hzero]
      exact hkzero
  · obtain ⟨j, hj, -, -, hjzero⟩ := quantizeTo_ceiling (le_refl 8) hk0 hkmax
    refine ⟨.finite s j (-quantumPlaces), ?_, ?_⟩
    · simp only [cost, coerce, coerceBy, if_neg hsmall, ne_eq, hunit, not_false_eq_true, if_true]
      rw [hk]
      exact hj
    · rw [worth_finite rfl, worth_finite rfl, hzero, hzero]
      exact hjzero.trans hkzero

/-- What is charged of an amount of money that is not negative is an amount of the unit, and
nothing only where it is nothing. -/
theorem cost_of_money {c owed : Decimal} (h : money c = .ok owed) (hpos : 0 ≤ owed.worth)
    (unit : Unit) : ∃ settled, cost (.number (some owed)) unit = .ok settled ∧
      (settled.worth = 0 ↔ owed.worth = 0) := by
  unfold money coerce coerceBy at h
  split at h
  · cases h
  · cases h
  · rename_i s n e hc
    split_ifs at h with hlarge hplaces
    · exact absurd rfl hplaces
    · obtain ⟨m, rfl, hworth⟩ := quantizeTo_worth (by decide) h
      refine cost_finite (Value.finite_le_finite.mp hpos) ?_ unit
      rw [hworth, div_le_iff₀ (by positivity)]
      have hfloor := Int.floor_le (Decimal.rat s n e * 10 ^ quantumPlaces)
      have hle : Decimal.rat s n e ≤ maxAmount := (le_abs_self _).trans (not_lt.mp hlarge)
      exact hfloor.trans (mul_le_mul_of_nonneg_right hle (by positivity))
  · cases h

/-! ### Pricing a response -/

/-- How an interceptor prices a response. -/
structure Tariff where
  /-- `_extract_usage`: reads the usage off a response. -/
  extractUsage : Reply → Except ReadFault TokenUsage
  pricing : ModelPricing
  /-- Whether the rates were given, rather than looked up for the configured model. -/
  pricingIsExplicit : Bool
  /-- `pricing_for`: the rates published for a model, if there are any. -/
  pricingFor : Text → Option ModelPricing

/-- What pricing a response can raise. -/
inductive PriceFault
  | read (fault : ReadFault)
  | decimal (e : Error)
deriving DecidableEq

namespace Tariff

variable (t : Tariff)

/-- `pricing_for_response`: the rates of the model that served, where it is reported and
published. No rates are published for a blank name. -/
def pricingForResponse (response : Reply) : Except ReadFault ModelPricing :=
  if t.pricingIsExplicit then .ok t.pricing
  else do
    match ← response.getattr (txt "model") with
    | some (.str served) => .ok ((t.pricingFor served).getD t.pricing)
    | _ => .ok t.pricing

/-- `_price`: the usage a response reports, priced at what served. -/
def price (response : Reply) : Except PriceFault (TokenUsage × Decimal) := do
  let usage ← (t.extractUsage response).mapError .read
  let pricing ← (t.pricingForResponse response).mapError .read
  let cost ← (pricing.costOf usage).mapError .decimal
  .ok (usage, cost)

end Tariff

end AgentGov.Metering
