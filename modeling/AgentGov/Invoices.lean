import AgentGov.Foundation.GreedyPairing
import AgentGov.Foundation.RadixFormat
import AgentGov.Metering.Pricing
import Mathlib.Data.Prod.Lex
import Mathlib.Data.Sum.Basic

/-!
# Reconciling an invoice

The billed lines of a provider's export matched against the settled calls of a ledger
(`src/src/agentgov/reconciliation.py`, lines 99–192, 596–652, 693–766 and 769–920). The code keeps
drifts as floats. What is read of one is up to the reader: the float that is computed, or the exact
number it stands in for; either way the code raises where one of its own operations does. How a
model id is folded onto the rate card is up to `normalizeModelId`; the words of a discrepancy and of
the notes, the totals and their variance are left out.

Which order `list.sort` leaves tuples in among which one holds a NaN is not told by its
documentation, so a sorting is anything that permutes and that sorts where every score is a number.

## Main definitions

* `AgentGov.Invoices.ProviderUsageRecord`, `AgentGov.Invoices.MeteredRecord`: both sides.
* `AgentGov.Invoices.Reading`: how a float is read.
* `AgentGov.Invoices.Sorting`: what sorts the candidates.
* `AgentGov.Invoices.reconcile`: the report.
* `AgentGov.Invoices.Within`, `AgentGov.Invoices.CostAgrees`: what the tolerances ask of a pair.
* `AgentGov.Invoices.TokensInRange`, `AgentGov.Invoices.CostInRange`: what does not overflow.

## Main results

* `AgentGov.Invoices.exists_tokenDeltaPercent_iff`, `AgentGov.Invoices.exists_costDeltaPercent_iff`:
  the drifts that are computed are those that do not overflow.
-/

open Foundation

namespace AgentGov.Invoices

open Metering (operand operate)

/-! ### Numbers -/

/-- A float, as the number it stands for; nothing where it is NaN. -/
abbrev Number := Option Value

/-- `a > b`: false where one of them is NaN. -/
def Number.exceeds (a b : Number) : Bool :=
  match a, b with
  | some x, some y => decide (y < x)
  | _, _ => false

/-- Whether a number is at most a tolerance. A tolerance that is NaN bounds no number. -/
def Number.AtMost (drift tolerance : Number) : Prop :=
  drift ≠ none ∧ drift.exceeds tolerance = false

/-- `abs` -/
def magnitude : Value → Value
  | .finite q => .finite |q|
  | .infinite _ => .infinite false

/-- The nearest float, infinite where that is out of range. -/
def toFloat : Value → Value
  | .finite q =>
    match binary64.nearest q with
    | some r => .finite r
    | none => .infinite (decide (q < 0))
  | .infinite negative => .infinite negative

/-- How a number that is kept as a float is read. -/
inductive Reading
  /-- As the float that is computed. -/
  | floats
  /-- As the exact number. -/
  | rationals

/-- What is read of a float that stands in for an exact number. -/
def Reading.read (reading : Reading) (computed exact : Value) : Value :=
  match reading with
  | .floats => computed
  | .rationals => exact

/-- `a + b` -/
def Number.plus (reading : Reading) (a b : Number) : Number :=
  (a.bind fun x => b.bind x.plus).map fun sum => reading.read (toFloat sum) sum

/-- An integer of few digits is read as it is. -/
theorem read_whole (reading : Reading) {n : ℤ} (hn : n.natAbs < 2 ^ 53) :
    reading.read (toFloat (.finite n)) (.finite n) = .finite n := by
  have hwhole : binary64.nearest (n.natAbs : ℚ) = some (n.natAbs : ℚ) :=
    binary64.nearest_whole (by decide) (by decide) hn
  have hnearest : binary64.nearest (n : ℚ) = some (n : ℚ) := by
    rcases Int.natAbs_eq n with h | h
    · rw [h, Int.cast_natCast, hwhole]
    · rw [h, Int.cast_neg, Int.cast_natCast, RadixFormat.nearest_neg, hwhole, Option.map_some]
  cases reading with
  | floats => rw [Reading.read, toFloat, hnearest]
  | rationals => rfl

/-- What `_ROUNDING` holds. -/
def ledgerFormat : RadixFormat := ⟨10, precision, arithmetic.etiny, arithmetic.emax, by decide,
  by decide, by decide, by decide, by decide⟩

theorem rounded_eq (q : ℚ) : arithmetic.rounded q = (ledgerFormat.nearest q).map .finite := by
  have hbase : (ledgerFormat.base : ℚ) = 10 := Nat.cast_ofNat
  rw [DecimalContext.rounded, RadixFormat.nearest, RadixFormat.exponent, hbase]
  split_ifs with hzero
  · rfl
  · change (if _ then none else some _) = Option.map Value.finite (if _ then none else some _)
    rw [apply_ite (Option.map Value.finite)]
    rfl

/-! ### Records -/

/-- `ProviderUsageRecord`: one billed line of a provider's export. -/
structure ProviderUsageRecord where
  recordId : Text
  timestamp : Instant
  model : Text
  inputTokens : ℤ
  outputTokens : ℤ
  totalCost : Decimal

/-- `total_tokens` of a billed line. -/
def ProviderUsageRecord.totalTokens (r : ProviderUsageRecord) : ℤ := r.inputTokens + r.outputTokens

/-- `MeteredRecord`: one settled call, of a SPEND entry, whose amount is positive. -/
structure MeteredRecord where
  transactionId : UUID
  timestamp : Instant
  model : Text
  inputTokens : Option ℤ
  outputTokens : Option ℤ
  settledCost : Decimal
  settled : ∃ q : ℚ, 0 < q ∧ settledCost.value? = some (.finite q)

/-- `total_tokens` of a settled call, where a journal recorded them. -/
def MeteredRecord.totalTokens (r : MeteredRecord) : Option ℤ :=
  r.inputTokens.bind fun input => r.outputTokens.map fun output => input + output

/-- `ReconciliationPolicy`. -/
structure ReconciliationPolicy where
  timeToleranceSeconds : Number := some (.finite 5)
  tokenTolerancePercent : Number := some (.finite 2)
  costTolerancePercent : Number := some (.finite 1)
  requireModelMatch : Bool := true

/-! ### Drifts -/

/-- `abs((billed.timestamp - settled.timestamp).total_seconds())` -/
def gap (reading : Reading) (billed : ProviderUsageRecord) (settled : MeteredRecord) : Value :=
  let seconds := .finite (((billed.timestamp.micros : ℚ) - settled.timestamp.micros) / 1000000)
  magnitude (reading.read (toFloat seconds) seconds)

/-- `_models_agree`. -/
def modelsAgree (normalizeModelId : Text → Text) (left right : Text) (required : Bool) : Bool :=
  let a := normalizeModelId left
  let b := normalizeModelId right
  if a = [] ∨ b = [] then true
  else if a = b then true
  else if !required then true
  else b.isPrefixOf a || a.isPrefixOf b

/-- How far the tokens of a line are from those of a call, in percent of these, where they were
counted. -/
def tokenDrift (provider : ProviderUsageRecord) (metered : MeteredRecord) : Option ℚ :=
  metered.totalTokens.map fun total : ℤ =>
    if total = 0 then if provider.totalTokens = 0 then 0 else 100
    else |(provider.totalTokens : ℚ) - total| / total * 100

/-- `_token_delta_percent`. A quotient of integers that no float is near enough to is an
`OverflowError`; the product is a float again. -/
def tokenDeltaPercent (reading : Reading) (provider : ProviderUsageRecord)
    (metered : MeteredRecord) : Except Error (Option Value) :=
  match metered.totalTokens with
  | none => .ok none
  | some total =>
    if total = 0 then .ok (some (.finite (if provider.totalTokens = 0 then 0 else 100)))
    else
      let quotient := |(provider.totalTokens : ℚ) - total| / total
      match binary64.nearest quotient with
      | none => .error .arithmetic
      | some float =>
        .ok (some (reading.read (toFloat (.finite (float * 100))) (.finite (quotient * 100))))

/-- `billed.total_cost - settled.settled_cost` -/
def costDelta (provider : ProviderUsageRecord) (metered : MeteredRecord) : Except Error Number := do
  let billed ← operand provider.totalCost
  let settled ← operand metered.settledCost
  operate (fun a b => arithmetic.plus a (-b)) billed settled

/-- How far a billed amount is from a settled one, in percent of it. -/
def drift (billed : Value) (settled : ℚ) : Value :=
  match billed with
  | .finite q => .finite (|q - settled| / settled * 100)
  | .infinite _ => .infinite false

/-- `_cost_delta_percent`. -/
def costDeltaPercent (reading : Reading) (provider : ProviderUsageRecord)
    (metered : MeteredRecord) : Except Error Number :=
  let settled := metered.settledCost.worth.toRat
  if settled = 0 then
    match provider.totalCost.eq? (Decimal.ofInt 0) with
    | none => .error .arithmetic
    | some zero => .ok (some (.finite (if zero then 0 else 100)))
  else do
    let delta ← costDelta provider metered
    let quotient ← operate (fun a _ => arithmetic.dividedBy a settled) (delta.map magnitude)
      metered.settledCost.value?
    let percent ← operate arithmetic.times quotient (some (.finite 100))
    .ok (percent.map fun computed =>
      reading.read (toFloat computed) (drift provider.totalCost.worth settled))

/-! ### Candidates -/

/-- A candidate pair: its score, and where its line and its call stand. -/
structure Candidate where
  score : Number
  provider : ℕ
  metered : ℕ

/-- Where the line and the call of a candidate stand. -/
def Candidate.places (c : Candidate) : ℕ × ℕ := (c.provider, c.metered)

/-- What candidates are sorted by. -/
def Candidate.key (c : Candidate) : Lex (WithBot Value × Lex (ℕ × ℕ)) :=
  toLex (c.score, toLex (c.provider, c.metered))

/-- `candidates.sort`: the candidates best first. Where a score is NaN, in some order. -/
structure Sorting where
  sort : List Candidate → List Candidate
  perm : ∀ l, (sort l).Perm l
  sorted : ∀ l, (∀ c ∈ l, c.score ≠ none) → (sort l).Pairwise fun a b => a.key ≤ b.key

theorem pairwise_mergeSort_key (l : List Candidate) :
    (l.mergeSort fun a b => decide (a.key ≤ b.key)).Pairwise fun a b => a.key ≤ b.key := by
  have hsorted := @List.pairwise_mergeSort Candidate (fun a b => decide (a.key ≤ b.key))
    (fun a b c hab hbc => by
      simp only [decide_eq_true_eq] at hab hbc ⊢
      exact hab.trans hbc)
    (fun a b => by simpa using le_total a.key b.key) l
  exact hsorted.imp fun h => by simpa using h

/-- The sorting that has the candidates of no number first. -/
def bestFirst : Sorting where
  sort l := l.mergeSort fun a b => decide (a.key ≤ b.key)
  perm l := List.mergeSort_perm l _
  sorted l _ := pairwise_mergeSort_key l

/-- The sorting that has some candidates first, where a score is no number. -/
def favouring (p : Candidate → Bool) : Sorting where
  sort l :=
    if ∀ c ∈ l, c.score ≠ none then bestFirst.sort l else l.filter p ++ l.filter fun c => !p c
  perm l := by
    split_ifs
    · exact bestFirst.perm l
    · exact List.filter_append_perm p l
  sorted l numbers := by
    rw [if_pos numbers]
    exact bestFirst.sorted l numbers

section Reconciling

variable (reading : Reading) (normalizeModelId : Text → Text) (rules : ReconciliationPolicy)

/-- The score of a pair, nothing where it is passed over. -/
def score (billed : ProviderUsageRecord) (settled : MeteredRecord) :
    Except Error (Option Number) :=
  let gap := gap reading billed settled
  if Number.exceeds (some gap) rules.timeToleranceSeconds then .ok none
  else if !modelsAgree normalizeModelId billed.model settled.model rules.requireModelMatch then
    .ok none
  else do
    let tokens ← tokenDeltaPercent reading billed settled
    if tokens.any fun drift => Number.exceeds (some drift) rules.tokenTolerancePercent then
      .ok none
    else do
      let cost ← costDeltaPercent reading billed settled
      .ok (some ((Number.plus reading (some (tokens.getD 0)) cost).plus reading (some gap)))

/-- The candidate that a line and a call with their places are, if they are one. -/
def candidate (r : (ProviderUsageRecord × ℕ) × MeteredRecord × ℕ) :
    Except Error (Option Candidate) := do
  let found ← score reading normalizeModelId rules r.1.1 r.2.1
  .ok (found.map fun score => { score := score, provider := r.1.2, metered := r.2.2 })

/-- Every line with every call, with their places. -/
def crossed (metered : List MeteredRecord) (provider : List ProviderUsageRecord) :
    List ((ProviderUsageRecord × ℕ) × MeteredRecord × ℕ) :=
  provider.zipIdx.flatMap fun billed => metered.zipIdx.map fun settled => (billed, settled)

/-- The candidates, scored. -/
def candidates (metered : List MeteredRecord) (provider : List ProviderUsageRecord) :
    Except Error (List Candidate) := do
  let found ← (crossed metered provider).mapM (candidate reading normalizeModelId rules)
  .ok found.reduceOption

/-! ### The report -/

/-- `MatchedCall`. -/
structure MatchedCall where
  provider : ProviderUsageRecord
  metered : MeteredRecord
  costDelta : Number
  timeDeltaSeconds : Value
  tokenDeltaPercent : Option Value
  exact : Bool

/-- `Discrepancy`, without its words. -/
structure Discrepancy where
  provider : ProviderUsageRecord
  metered : MeteredRecord
  costDelta : Number
  costDeltaPercent : Number

/-- `ReconciliationReport`. -/
structure ReconciliationReport where
  matched : List MatchedCall
  discrepant : List Discrepancy
  phantom : List ProviderUsageRecord
  unsettled : List MeteredRecord
  tokenMatching : Bool

/-- `passed`. -/
def ReconciliationReport.passed (r : ReconciliationReport) : Bool :=
  r.phantom.isEmpty && r.discrepant.isEmpty

/-- What a line and its call come to: a discrepancy where the costs drift too far. -/
def assess (pair : ProviderUsageRecord × MeteredRecord) :
    Except Error (MatchedCall ⊕ Discrepancy) := do
  let delta ← costDelta pair.1 pair.2
  let drift ← costDeltaPercent reading pair.1 pair.2
  let tokens ← tokenDeltaPercent reading pair.1 pair.2
  if drift.exceeds rules.costTolerancePercent then
    .ok (.inr
      { provider := pair.1, metered := pair.2, costDelta := delta, costDeltaPercent := drift })
  else
    .ok (.inl
      { provider := pair.1
        metered := pair.2
        costDelta := delta
        timeDeltaSeconds := gap reading pair.1 pair.2
        tokenDeltaPercent := tokens
        exact := decide (delta = some 0) && decide (tokens.getD 0 = 0) })

/-- The records at some places. -/
def recordsAt (metered : List MeteredRecord) (provider : List ProviderUsageRecord)
    (places : List (ℕ × ℕ)) : List (ProviderUsageRecord × MeteredRecord) :=
  places.filterMap fun p =>
    provider[p.1]?.bind fun billed => metered[p.2]?.map fun settled => (billed, settled)

/-- The records at no place of a list. -/
def leftOut {α : Type} (records : List α) (claimed : List ℕ) : List α :=
  (records.zipIdx.filter fun r => r.2 ∉ claimed).map Prod.fst

/-- `reconcile`. -/
def reconcile (sorting : Sorting) (metered : List MeteredRecord)
    (provider : List ProviderUsageRecord) : Except Error ReconciliationReport := do
  let found ← candidates reading normalizeModelId rules metered provider
  let claimed := greedy [] [] ((sorting.sort found).map Candidate.places)
  let assessed ← (recordsAt metered provider claimed).mapM (assess reading rules)
  .ok
    { matched := assessed.filterMap Sum.getLeft?
      discrepant := assessed.filterMap Sum.getRight?
      phantom := leftOut provider (claimed.map Prod.fst)
      unsettled := leftOut metered (claimed.map Prod.snd)
      tokenMatching := metered.any fun record => record.totalTokens.isSome }

/-! ### What the tolerances ask -/

/-- Whether a line and a call are within the time window and could name the same model. -/
structure Plausible (billed : ProviderUsageRecord) (settled : MeteredRecord) : Prop where
  time : Number.AtMost (some (gap reading billed settled)) rules.timeToleranceSeconds
  model : modelsAgree normalizeModelId billed.model settled.model rules.requireModelMatch = true

/-- Whether the tokens of a line and a call, where they were counted, differ by at most the token
tolerance. -/
def TokensAgree (billed : ProviderUsageRecord) (settled : MeteredRecord) : Prop :=
  match reading with
  | .floats => ∃ tokens, tokenDeltaPercent .floats billed settled = .ok tokens ∧
      ∀ drift ∈ tokens, Number.AtMost (some drift) rules.tokenTolerancePercent
  | .rationals => ∀ drift ∈ tokenDrift billed settled,
      Number.AtMost (some (.finite drift)) rules.tokenTolerancePercent

/-- Whether a line and a call are within the time, model and token tolerances. -/
structure Within (billed : ProviderUsageRecord) (settled : MeteredRecord) : Prop
    extends Plausible reading normalizeModelId rules billed settled where
  tokens : TokensAgree reading rules billed settled

/-- Whether the costs of a line and a call differ by at most the cost tolerance: the line's is a
number, and its drift is at most the tolerance. -/
def CostAgrees (billed : ProviderUsageRecord) (settled : MeteredRecord) : Prop :=
  ∃ v, billed.totalCost.value? = some v ∧
    match reading with
    | .floats => ∃ percent, costDeltaPercent .floats billed settled = .ok percent ∧
        percent.AtMost rules.costTolerancePercent
    | .rationals =>
      Number.AtMost (some (drift v settled.settledCost.worth.toRat)) rules.costTolerancePercent

end Reconciling

/-! ### What does not overflow -/

/-- Whether the tokens of a line, as a multiple of those of a call, are in the range of floats. -/
def TokensInRange (billed : ProviderUsageRecord) (settled : MeteredRecord) : Prop :=
  ∀ total ∈ settled.totalTokens, total ≠ 0 →
    |(billed.totalTokens : ℚ) - total| < binary64.limit * |(total : ℚ)|

/-- Whether a cost that is a number, its difference from a settled one and what that is in percent
are in the range of the ledger's decimals. -/
def CostInRange (cost : Value) (settled : ℚ) : Prop :=
  ∀ q, cost = .finite q → |q - settled| < ledgerFormat.limit ∧
    ∀ delta ∈ ledgerFormat.nearest |q - settled|, 100 * delta < ledgerFormat.limit * settled

section Ranges

variable {reading : Reading} {billed : ProviderUsageRecord} {settled : MeteredRecord}

theorem Number.atMost_some {v : Value} {tolerance : Number} :
    Number.AtMost (some v) tolerance ↔ Number.exceeds (some v) tolerance = false :=
  and_iff_right (Option.some_ne_none v)

theorem MeteredRecord.pos (m : MeteredRecord) : 0 < m.settledCost.worth.toRat := by
  obtain ⟨q, hq, hvalue⟩ := m.settled
  rwa [Decimal.worth, hvalue, Option.getD_some, Value.toRat_finite]

theorem MeteredRecord.value (m : MeteredRecord) :
    m.settledCost.value? = some (.finite m.settledCost.worth.toRat) := by
  obtain ⟨q, -, hvalue⟩ := m.settled
  rw [Decimal.worth, hvalue, Option.getD_some, Value.toRat_finite]

/-- The token drift that is computed, read as the exact one, is the exact one. -/
theorem tokenDeltaPercent_rationals {tokens : Option Value}
    (h : tokenDeltaPercent .rationals billed settled = .ok tokens) :
    tokens = (tokenDrift billed settled).map .finite := by
  unfold tokenDeltaPercent at h
  unfold tokenDrift
  cases htotal : settled.totalTokens with
  | none =>
    rw [htotal] at h
    exact (Except.ok.inj h).symm
  | some total =>
    rw [htotal] at h
    dsimp only at h
    rw [Option.map_some, Option.map_some]
    by_cases hzero : total = 0
    · rw [if_pos hzero] at h ⊢
      exact (Except.ok.inj h).symm
    · rw [if_neg hzero] at h ⊢
      split at h
      · cases h
      · exact (Except.ok.inj h).symm

/-- The token drifts that are computed are those in range. -/
theorem exists_tokenDeltaPercent_iff :
    (∃ tokens, tokenDeltaPercent reading billed settled = .ok tokens) ↔
      TokensInRange billed settled := by
  rw [TokensInRange, tokenDeltaPercent]
  cases htotal : settled.totalTokens with
  | none => simp
  | some total =>
    rcases eq_or_ne total 0 with rfl | hne
    · simp
    · have hpos : (0 : ℚ) < |(total : ℚ)| := abs_pos.mpr (Int.cast_ne_zero.mpr hne)
      have hrange := RadixFormat.exists_nearest_iff (f := binary64)
        (q := |(billed.totalTokens : ℚ) - total| / total)
      rw [abs_div, abs_abs, div_lt_iff₀ hpos] at hrange
      dsimp only
      rw [if_neg hne]
      simp only [Option.mem_def, Option.some.injEq, forall_eq', ne_eq, hne, not_false_eq_true,
        forall_const, ← hrange]
      split
      · rename_i hnone
        simp [hnone]
      · rename_i float hfloat
        exact iff_of_true ⟨_, rfl⟩ ⟨float, hfloat⟩

theorem operand_of_value {d : Decimal} {v : Value} (h : d.value? = some v) :
    operand d = .ok (some v) := by
  unfold operand
  split
  · cases h
  · rw [h]

/-- An operation of `_ROUNDING` on what is a number. -/
theorem operate_rounded (f : Value → Value → Option Value) {a b : Value} {q : ℚ}
    (h : f a b = arithmetic.rounded q) :
    operate f (some a) (some b) =
      match ledgerFormat.nearest q with
      | some r => .ok (some (.finite r))
      | none => .error .arithmetic := by
  rw [operate, h, rounded_eq]
  cases ledgerFormat.nearest q <;> rfl

/-- The difference of costs that are numbers. -/
theorem costDelta_of_finite {q : ℚ} (hq : billed.totalCost.value? = some (.finite q)) :
    costDelta billed settled =
      match ledgerFormat.nearest (q - settled.settledCost.worth.toRat) with
      | some r => .ok (some (.finite r))
      | none => .error .arithmetic := by
  rw [costDelta, operand_of_value hq, operand_of_value settled.value, ok_bind, ok_bind]
  exact operate_rounded _ (by rw [DecimalContext.plus, Value.neg_finite, Value.plus_finite,
    sub_eq_add_neg])

/-- A multiple is computed and taken in percent just where it is in range in percent. -/
theorem exists_percent_iff {x : ℚ} (hx : 0 ≤ x) :
    (∃ e, ledgerFormat.nearest x = some e ∧ ∃ r, ledgerFormat.nearest (e * 100) = some r) ↔
      100 * x < ledgerFormat.limit := by
  rcases hx.eq_or_lt with rfl | hpos
  · rw [mul_zero]
    exact iff_of_true ⟨0, RadixFormat.nearest_zero _, 0, by rw [zero_mul, RadixFormat.nearest_zero]⟩
      RadixFormat.limit_pos
  · have hscaled := RadixFormat.exists_nearest_scaled (f := ledgerFormat) (k := 2)
      (by decide) (by decide) hpos
    have hbase : (ledgerFormat.base : ℚ) ^ 2 = 100 := by
      rw [show (ledgerFormat.base : ℚ) = 10 from Nat.cast_ofNat]
      norm_num
    rw [hbase] at hscaled
    rw [← hscaled]
    refine exists_congr fun e => and_congr_right fun he => ?_
    rw [RadixFormat.exists_nearest_iff, mul_comm,
      abs_of_nonneg (mul_nonneg (by norm_num) (RadixFormat.nearest_nonneg hx he))]

/-- The drift of a cost that is a rational is computed just where it is in range. -/
theorem costDeltaPercent_of_finite {q : ℚ} (hq : billed.totalCost.value? = some (.finite q)) :
    (∃ percent, costDeltaPercent reading billed settled = .ok percent) ↔
      CostInRange (.finite q) settled.settledCost.worth.toRat := by
  set s := settled.settledCost.worth.toRat with hs
  have hpos : 0 < s := settled.pos
  have hrange : CostInRange (.finite q) s ↔ ∃ d, ledgerFormat.nearest (q - s) = some d ∧
      100 * (|d| / s) < ledgerFormat.limit := by
    simp only [CostInRange, Value.finite.injEq, forall_eq', ← RadixFormat.exists_nearest_iff,
      RadixFormat.nearest_abs, Option.mem_def]
    cases ledgerFormat.nearest (q - s) with
    | none => simp
    | some d =>
      simp only [Option.map_some, Option.some.injEq, exists_eq', forall_eq', true_and,
        exists_eq_left']
      rw [← mul_div_assoc, div_lt_iff₀ hpos]
  rw [hrange, costDeltaPercent]
  rw [← hs, if_neg hpos.ne', costDelta_of_finite hq, ← hs]
  cases hd : ledgerFormat.nearest (q - s) with
  | none => simp
  | some d =>
    simp only [ok_bind, Option.some.injEq, exists_eq_left']
    rw [← exists_percent_iff (div_nonneg (abs_nonneg d) hpos.le), settled.value, Option.map_some,
      operate_rounded (fun a _ => arithmetic.dividedBy a s) (q := |d| / s) rfl]
    cases he : ledgerFormat.nearest (|d| / s) with
    | none => simp
    | some e =>
      simp only [ok_bind, Option.some.injEq, exists_eq_left']
      rw [operate_rounded arithmetic.times (q := e * 100) rfl]
      cases ledgerFormat.nearest (e * 100) with
      | none => simp
      | some r => simp

theorem exists_of_operate {f : Value → Value → Option Value} {a b : Value} {r : Option Value}
    (h : operate f (some a) (some b) = .ok r) : ∃ x, r = some x := by
  unfold operate at h
  dsimp only at h
  split at h
  · exact ⟨_, (Except.ok.inj h).symm⟩
  · cases h

/-- What is computed of a pair: the difference first. -/
theorem costDeltaPercent_eq_ok {percent : Number} :
    costDeltaPercent reading billed settled = .ok percent ↔
      ∃ delta, costDelta billed settled = .ok delta ∧ ∃ quotient,
        operate (fun a _ => arithmetic.dividedBy a settled.settledCost.worth.toRat)
          (delta.map magnitude) settled.settledCost.value? = .ok quotient ∧ ∃ computed,
            operate arithmetic.times quotient (some (.finite 100)) = .ok computed ∧
              percent = computed.map fun c => reading.read (toFloat c)
                (drift billed.totalCost.worth settled.settledCost.worth.toRat) := by
  rw [costDeltaPercent]
  rw [if_neg settled.pos.ne']
  simp only [bind_eq_ok, Except.ok.injEq, eq_comm (a := percent)]

/-- The drift that is computed of a cost that is a number. -/
theorem costDeltaPercent_of_value {v : Value} {percent : Number}
    (hv : billed.totalCost.value? = some v)
    (h : costDeltaPercent reading billed settled = .ok percent) :
    ∃ c, percent = some (reading.read (toFloat c) (drift v settled.settledCost.worth.toRat)) := by
  obtain ⟨delta, hdelta, quotient, hquotient, computed, hcomputed, rfl⟩ :=
    costDeltaPercent_eq_ok.mp h
  rw [costDelta, operand_of_value hv, operand_of_value settled.value, ok_bind, ok_bind] at hdelta
  obtain ⟨d, rfl⟩ := exists_of_operate hdelta
  rw [settled.value, Option.map_some] at hquotient
  obtain ⟨e, rfl⟩ := exists_of_operate hquotient
  obtain ⟨c, rfl⟩ := exists_of_operate hcomputed
  exact ⟨c, by rw [Option.map_some, Decimal.worth, hv, Option.getD_some]⟩

/-- A cost that is NaN has no drift that is a number. -/
theorem costDeltaPercent_of_nan {percent : Number} (hv : billed.totalCost.value? = none)
    (h : costDeltaPercent reading billed settled = .ok percent) : percent = none := by
  obtain ⟨delta, hdelta, quotient, hquotient, computed, hcomputed, rfl⟩ :=
    costDeltaPercent_eq_ok.mp h
  obtain ⟨x, hx, hdelta⟩ := bind_eq_ok.mp hdelta
  obtain rfl : x = none := by
    unfold operand at hx
    split at hx
    · cases hx
    · exact (Except.ok.inj hx).symm.trans hv
  rw [operand_of_value settled.value, ok_bind] at hdelta
  cases hdelta
  cases hquotient
  cases hcomputed
  rfl

/-- The drifts that are numbers are computed of the costs that are, in range. -/
theorem exists_costDeltaPercent_iff :
    (∃ x, costDeltaPercent reading billed settled = .ok (some x)) ↔
      ∃ v, billed.totalCost.value? = some v ∧
        CostInRange v settled.settledCost.worth.toRat := by
  constructor
  · rintro ⟨x, hx⟩
    cases hv : billed.totalCost.value? with
    | none => cases costDeltaPercent_of_nan hv hx
    | some v =>
      refine ⟨v, rfl, ?_⟩
      cases v with
      | finite q => exact (costDeltaPercent_of_finite hv).mp ⟨_, hx⟩
      | infinite negative => intro q hq; cases hq
  · rintro ⟨v, hv, hrange⟩
    have hok : ∃ percent, costDeltaPercent reading billed settled = .ok percent := by
      cases v with
      | finite q => exact (costDeltaPercent_of_finite hv).mpr hrange
      | infinite negative =>
        refine ⟨_, costDeltaPercent_eq_ok.mpr ⟨some (.infinite negative), ?_,
          some (.infinite false), ?_, some (.infinite false), ?_, rfl⟩⟩
        · rw [costDelta, operand_of_value hv, operand_of_value settled.value]
          rfl
        · rw [settled.value]
          rfl
        · simp [operate, DecimalContext.times]
    obtain ⟨percent, hpercent⟩ := hok
    obtain ⟨c, rfl⟩ := costDeltaPercent_of_value hv hpercent
    exact ⟨_, hpercent⟩

end Ranges

/-! ### Scores -/

section Scores

variable {reading : Reading} {normalizeModelId : Text → Text} {rules : ReconciliationPolicy}
  {billed : ProviderUsageRecord} {settled : MeteredRecord}

/-- The tokens agree where their drift is computed and exceeds no tolerance. -/
theorem tokensAgree_iff {tokens : Option Value}
    (h : tokenDeltaPercent reading billed settled = .ok tokens) :
    TokensAgree reading rules billed settled ↔
      (tokens.any fun drift => Number.exceeds (some drift) rules.tokenTolerancePercent) = false := by
  have hall : (∀ drift ∈ tokens, Number.AtMost (some drift) rules.tokenTolerancePercent) ↔
      (tokens.any fun drift => Number.exceeds (some drift) rules.tokenTolerancePercent) =
        false := by
    cases tokens with
    | none => simp
    | some d => simp [Number.atMost_some]
  rw [← hall]
  cases reading with
  | floats =>
    constructor
    · rintro ⟨tokens', htokens', hmost⟩
      rw [h, Except.ok.injEq] at htokens'
      exact htokens' ▸ hmost
    · exact fun hmost => ⟨tokens, h, hmost⟩
  | rationals =>
    rw [tokenDeltaPercent_rationals h]
    cases htokens : tokenDrift billed settled with
    | none => simp [TokensAgree, htokens]
    | some d => simp [TokensAgree, htokens]

/-- A pair is not scored where it is out of the time window or of another model. -/
theorem score_of_apart (h : ¬Plausible reading normalizeModelId rules billed settled) :
    score reading normalizeModelId rules billed settled = .ok none := by
  rw [score]
  split_ifs with htime hmodel
  · rfl
  · rfl
  · refine absurd ⟨Number.atMost_some.mpr ?_, ?_⟩ h
    · exact Bool.eq_false_iff.mpr htime
    · simpa using hmodel

/-- A pair that could be the same call is scored where its tokens agree. -/
theorem score_of_near (h : Plausible reading normalizeModelId rules billed settled) :
    score reading normalizeModelId rules billed settled = (do
      let tokens ← tokenDeltaPercent reading billed settled
      if tokens.any fun drift => Number.exceeds (some drift) rules.tokenTolerancePercent then
        .ok none
      else do
        let cost ← costDeltaPercent reading billed settled
        .ok (some ((Number.plus reading (some (tokens.getD 0)) cost).plus reading
          (some (gap reading billed settled))))) := by
  have htime : ¬Number.exceeds (some (gap reading billed settled)) rules.timeToleranceSeconds =
      true := by
    rw [Number.atMost_some.mp h.time]
    exact Bool.false_ne_true
  rw [score, if_neg htime, if_neg (by rw [h.model]; decide)]

/-- What a pair is scored. -/
theorem score_eq_ok {found : Option Number}
    (h : score reading normalizeModelId rules billed settled = .ok found) :
    (found = none ∧ ¬Within reading normalizeModelId rules billed settled) ∨
      ∃ tokens cost, Within reading normalizeModelId rules billed settled ∧
        costDeltaPercent reading billed settled = .ok cost ∧
        found = some ((Number.plus reading (some tokens) cost).plus reading
          (some (gap reading billed settled))) := by
  by_cases hp : Plausible reading normalizeModelId rules billed settled
  · rw [score_of_near hp] at h
    obtain ⟨tokens, htokens, h⟩ := bind_eq_ok.mp h
    by_cases hover : (tokens.any fun drift =>
        Number.exceeds (some drift) rules.tokenTolerancePercent) = true
    · rw [if_pos hover] at h
      refine Or.inl ⟨(Except.ok.inj h).symm, fun hwithin => ?_⟩
      rw [(tokensAgree_iff htokens).mp hwithin.tokens] at hover
      cases hover
    · rw [if_neg hover] at h
      obtain ⟨cost, hcost, h⟩ := bind_eq_ok.mp h
      exact Or.inr ⟨tokens.getD 0, cost,
        ⟨hp, (tokensAgree_iff htokens).mpr (Bool.eq_false_iff.mpr hover)⟩, hcost,
        (Except.ok.inj h).symm⟩
  · rw [score_of_apart hp] at h
    exact Or.inl ⟨(Except.ok.inj h).symm, fun hwithin => hp hwithin.toPlausible⟩

/-- Just the pairs are looked at without an error whose tokens are in range, if the pair could be
the same call, and whose costs have a drift, if it is within the tolerances. -/
theorem exists_score_iff :
    (∃ found, score reading normalizeModelId rules billed settled = .ok found) ↔
      (Plausible reading normalizeModelId rules billed settled → TokensInRange billed settled) ∧
        (Within reading normalizeModelId rules billed settled →
          ∃ cost, costDeltaPercent reading billed settled = .ok cost) := by
  constructor
  · rintro ⟨found, hfound⟩
    refine ⟨fun hp => ?_, fun hwithin => ?_⟩
    · rw [score_of_near hp] at hfound
      obtain ⟨tokens, htokens, -⟩ := bind_eq_ok.mp hfound
      exact exists_tokenDeltaPercent_iff.mp ⟨tokens, htokens⟩
    · rcases score_eq_ok hfound with ⟨-, hnot⟩ | ⟨-, cost, -, hcost, -⟩
      · exact absurd hwithin hnot
      · exact ⟨cost, hcost⟩
  · rintro ⟨tokens, costs⟩
    by_cases hp : Plausible reading normalizeModelId rules billed settled
    · rw [score_of_near hp]
      obtain ⟨drift, hdrift⟩ := exists_tokenDeltaPercent_iff.mpr (tokens hp)
      rw [hdrift, ok_bind]
      split_ifs with hover
      · exact ⟨none, rfl⟩
      · have hagree : TokensAgree reading rules billed settled :=
          (tokensAgree_iff hdrift).mpr (Bool.eq_false_iff.mpr hover)
        obtain ⟨cost, hcost⟩ := costs ⟨hp, hagree⟩
        exact ⟨_, bind_eq_ok.mpr ⟨cost, hcost, rfl⟩⟩
    · exact ⟨none, score_of_apart hp⟩

end Scores

end AgentGov.Invoices
