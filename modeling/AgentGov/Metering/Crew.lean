import AgentGov.Metering.Interceptor
import AgentGov.Metering.Overruns
import AgentGov.Metering.Reports

/-!
# Crews billed by what they report

A crew reports the usage of all its runs together, so a run is billed for what was reported beyond
what is settled already (`src/src/agentgov/adapters/crewai.py`, lines 208–307). Runs may overlap:
each places its hold, runs, and is settled or released in one go on the event loop.

What is settled is advanced once a capture has returned. A capture that overdraws its scope is
carried out and raises, so what it was priced from is billed again with the next run.

## Main definitions

* `AgentGov.Metering.GovernedCrew`: the runs of a crew, with what they were billed for.
* `AgentGov.Metering.GovernedCrew.settle`: the end of a run.
* `AgentGov.Metering.GovernedCrew.BilledOnce`: holds are resolved once, and tokens billed once.

## Main results

* `AgentGov.Metering.GovernedCrew.billed_once`: runs that overdraw nothing are billed once.
* `AgentGov.Metering.GovernedCrew.overdraft_billed_twice`: tokens of an overdraft are billed twice.
-/

open Foundation

namespace AgentGov.Metering

instance (x : Deed) : Decidable x.Carried :=
  decidable_of_iff (x.answer.isOk = true ∨ x.after.ledger.entries ≠ x.before.ledger.entries) <| by
    rw [Deed.Carried]
    cases x.answer <;> simp [Except.isOk, Except.toBool]

/-! ### Usages -/

namespace TokenUsage

/-- What a cumulative usage has beyond what is settled. Crews report no cache writes. -/
def since (cumulative settled : TokenUsage) : TokenUsage where
  inputTokens := cumulative.inputTokens - settled.inputTokens
  outputTokens := cumulative.outputTokens - settled.outputTokens
  cacheReadInputTokens := cumulative.cacheReadInputTokens - settled.cacheReadInputTokens

/-- What was settled and what is reported beyond it are what is reported. -/
theorem plus_since {settled cumulative : TokenUsage} (h : settled ≤ cumulative)
    (hw : cumulative.cacheCreationInputTokens = 0) :
    settled.plus (cumulative.since settled) = cumulative := by
  ext
  · exact Nat.add_sub_cancel' h.inputTokens
  · exact Nat.add_sub_cancel' h.outputTokens
  · exact Nat.add_sub_cancel' h.cacheReadInputTokens
  · have hle := h.cacheCreationInputTokens
    simp only [plus, since]
    omega

/-- Nothing is reported beyond what is settled by a report of no tokens. -/
theorem since_of_totalTokens {settled cumulative : TokenUsage} (h : cumulative.totalTokens = 0) :
    cumulative.since settled = none := by
  simp only [totalTokens] at h
  ext <;> simp only [since, none] <;> omega

end TokenUsage

/-- Counts are read as they stand. -/
theorem usageOf_ok {input output cacheRead cacheCreation : ℤ} {u : TokenUsage}
    (h : usageOf input output cacheRead cacheCreation = .ok u) :
    (u.cacheCreationInputTokens : ℤ) = cacheCreation := by
  unfold usageOf at h
  obtain ⟨_, -, h⟩ := bind_eq_ok.mp h
  obtain ⟨_, -, h⟩ := bind_eq_ok.mp h
  obtain ⟨_, -, h⟩ := bind_eq_ok.mp h
  obtain ⟨n, hn, h⟩ := bind_eq_ok.mp h
  cases h
  unfold countField at hn
  split_ifs at hn with hneg
  cases hn
  simpa using hneg

/-- Crews report no cache writes. -/
theorem cacheCreation_crewUsage {result : Report} {u : TokenUsage}
    (h : extractCrewUsage result = .ok u) : u.cacheCreationInputTokens = 0 := by
  have hcounts {holder : Report} {u : TokenUsage} (h : Crew.counts holder = .ok u) :
      u.cacheCreationInputTokens = 0 := by
    unfold Crew.counts at h
    obtain ⟨_, -, h⟩ := bind_eq_ok.mp h
    obtain ⟨_, -, h⟩ := bind_eq_ok.mp h
    obtain ⟨_, -, h⟩ := bind_eq_ok.mp h
    exact_mod_cast usageOf_ok h
  rw [extractCrewUsage] at h
  generalize Crew.usageContainers = containers at h
  induction containers with
  | nil => exact hcounts h
  | cons container rest ih =>
    rw [Crew.countsIn] at h
    obtain ⟨holder, -, h⟩ := bind_eq_ok.mp h
    split at h
    · exact ih h
    · obtain ⟨usage, husage, h⟩ := bind_eq_ok.mp h
      split_ifs at h
      · cases h
        exact hcounts husage
      · exact ih h

/-! ### The price of nothing -/

/-- No tokens are charged nothing, if anything is made of their rate. -/
theorem charge_zero {rate : Decimal} {v : Option Value} (h : ModelPricing.charge arithmetic rate 0 = .ok v) :
    ∀ x ∈ v, x = 0 := by
  unfold ModelPricing.charge at h
  obtain ⟨r, -, h⟩ := bind_eq_ok.mp h
  cases r with
  | none =>
    cases h
    simp
  | some r =>
    cases r with
    | infinite s => cases h
    | finite q =>
      simp only [operate, DecimalContext.times, Nat.cast_zero, mul_zero, DecimalContext.rounded,
        if_true, Except.ok.injEq] at h
      simp [← h]

theorem plus_zeros {x y v : Option Value} (hx : ∀ a ∈ x, a = 0) (hy : ∀ a ∈ y, a = 0)
    (h : operate arithmetic.plus x y = .ok v) : ∀ a ∈ v, a = 0 := by
  cases x with
  | none =>
    cases h
    simp
  | some x =>
    cases y with
    | none =>
      cases h
      simp
    | some y =>
      obtain rfl := hx x rfl
      obtain rfl := hy y rfl
      have hsum : arithmetic.plus 0 0 = some 0 := by
        rw [DecimalContext.plus, Value.plus_zero]
        exact if_pos rfl
      simp only [operate, hsum, Except.ok.injEq] at h
      simp [← h]

/-- No tokens cost nothing. -/
theorem costOf_none {p : ModelPricing} {price : Decimal} {v : Value}
    (h : p.costOf .none = .ok price) (hv : price.value? = some v) : v = 0 := by
  unfold ModelPricing.costOf ModelPricing.costUnder at h
  obtain ⟨input, hinput, h⟩ := bind_eq_ok.mp h
  obtain ⟨output, houtput, h⟩ := bind_eq_ok.mp h
  obtain ⟨sum₁, hsum₁, h⟩ := bind_eq_ok.mp h
  obtain ⟨read, hread, h⟩ := bind_eq_ok.mp h
  obtain ⟨sum₂, hsum₂, h⟩ := bind_eq_ok.mp h
  obtain ⟨write, hwrite, h⟩ := bind_eq_ok.mp h
  obtain ⟨sum₃, hsum₃, h⟩ := bind_eq_ok.mp h
  obtain ⟨raw, hraw, h⟩ := bind_eq_ok.mp h
  have hzero := plus_zeros (plus_zeros (plus_zeros (charge_zero hinput) (charge_zero houtput)
    hsum₁) (charge_zero hread) hsum₂) (charge_zero hwrite) hsum₃
  cases sum₃ with
  | none =>
    cases hraw
    cases h
    cases hv
  | some x =>
    obtain rfl := hzero x rfl
    simp only [operate, DecimalContext.dividedBy, Value.zero_def, zero_div,
      DecimalContext.rounded, if_true, Except.ok.injEq] at hraw
    subst hraw
    simp only [ceilingQuantum, zero_mul, Int.ceil_zero, Int.natAbs_zero] at h
    split_ifs at h
    · cases h
      simpa [Decimal.value?, Decimal.rat, Value.zero_def, eq_comm] using hv

/-! ### Runs -/

/-- A capture a run was billed by. -/
structure Bill where
  /-- The tokens it was priced from. -/
  usage : TokenUsage
  /-- The cumulative usage that was reported. -/
  reported : TokenUsage
  deed : Deed

/-- `GovernedCrew`, with the runs in flight and what the settled ones were billed for. -/
structure GovernedCrew where
  desk : Desk
  /-- The holds of the runs in flight. -/
  running : List Authorization := []
  /-- `_settled_usage` -/
  settledUsage : TokenUsage := .none
  bills : List Bill := []
  /-- The tokens of runs that were released without a charge. -/
  waived : List TokenUsage := []

/-- What happens to a crew. -/
inductive CrewEvent
  /-- A run is started, with the size of its hold if the loop check and the sizing let it. -/
  | starts (hold : Option Decimal)
  /-- A run in flight raises. -/
  | fails (run : ℕ)
  /-- A run in flight returns a result, the crew being as it is then. -/
  | finishes (run : ℕ) (result crew : Report)
  /-- What others do with the governor. -/
  | others (commands : List Governor.Command)

/-- The cumulative usage a run reports, in its result or else on its crew. -/
def crewUsage (result crew : Report) : Except ReadFault TokenUsage := do
  let cumulative ← extractCrewUsage result
  if cumulative.totalTokens = 0 then extractCrewUsage crew else .ok cumulative

namespace GovernedCrew

variable (w : World) (i : Interceptor) (s : GovernedCrew)

/-- `_authorize`: place a hold for one whole run. -/
def authorize (hold : Decimal) : GovernedCrew :=
  match s.desk.authorize w i.scopeId hold (txt "crew run authorization") with
  | (.ok (.authorization a), d) => { s with desk := d, running := s.running ++ [a] }
  | (_, d) => { s with desk := d }

/-- `manager.void`, of a run that raised or reported no usage. -/
def void (a : Authorization) (memo : Text) : Except CallFault PUnit.{1} × GovernedCrew :=
  let r := s.desk.settle w (.void a memo)
  ((r.1.mapError .governor).map fun _ => ⟨⟩, { s with desk := r.2 })

/-- `manager.capture`, of the price of a usage. What is settled is advanced if it returns. -/
def capture (a : Authorization) (price : Decimal) (usage reported : TokenUsage) :
    Except CallFault PUnit.{1} × GovernedCrew :=
  let ask := .capture a price (txt "crew run")
  let r := s.desk.settle w ask
  let billed := { s with desk := r.2, bills := s.bills ++ [⟨usage, reported, s.desk.deed w ask⟩] }
  match r.1 with
  | .ok _ => (.ok ⟨⟩, { billed with settledUsage := reported })
  | .error e => (.error (.governor e), billed)

/-- `_settle`: bill only what a run added to the cumulative totals. -/
def settle (a : Authorization) (result crew : Report) :
    Except CallFault PUnit.{1} × GovernedCrew :=
  match crewUsage result crew with
  | .error fault => (.error (.price (.read fault)), s)
  | .ok cumulative =>
    let usage := cumulative.since s.settledUsage
    match i.tariff.pricing.costOf usage with
    | .error e => (.error (.price (.decimal e)), s)
    | .ok price =>
      match price.value? with
      -- a NaN is not compared
      | none => (.error (.price (.decimal .arithmetic)), s)
      | some v =>
        if v ≤ 0 then
          { s with waived := s.waived ++ [usage] }.void w a (txt "crew run reported no usage")
        else s.capture w a price usage cumulative

/-- A crew after an event. -/
def step : CrewEvent → GovernedCrew
  | .starts none => s
  | .starts (some hold) => s.authorize w i hold
  | .fails run =>
    match s.running[run]? with
    | none => s
    | some a => ({ s with running := s.running.eraseIdx run }.void w a (txt "crew run failed")).2
  | .finishes run result crew =>
    match s.running[run]? with
    | none => s
    | some a => ({ s with running := s.running.eraseIdx run }.settle w i a result crew).2
  | .others commands => { s with desk := s.desk.meanwhile w commands }

/-- A crew after any events. -/
def run : GovernedCrew → List CrewEvent → GovernedCrew := List.foldl (step w i)

/-- A crew that is governed from now on. -/
def new (g : Governor) : GovernedCrew where
  desk := { governor := g }

/-! ### What is claimed of a crew -/

/-- What is claimed of a crew: a hold is in flight, or resolved by exactly one void or capture; a
capture is of the price of the tokens it was billed for; the tokens of the captures that were
carried out sum to the usage the last of them was reported with; and what was released without a
charge costs nothing. -/
structure BilledOnce (i : Interceptor) (s : GovernedCrew) : Prop where
  once : (s.desk.deeds.map (fun x => x.ask.hold) ++ s.running).Perm s.desk.placed
  resolved : ∀ x ∈ s.desk.deeds, x.Frees ∨ ∃ b ∈ s.bills, b.deed = x
  priced : ∀ b ∈ s.bills, b.deed ∈ s.desk.deeds ∧
    ∃ price, i.tariff.pricing.costOf b.usage = .ok price ∧ b.deed.Charges price
  tokens : TokenUsage.sum ((s.bills.filter fun b => b.deed.Carried).map Bill.usage) =
    (((s.bills.filter fun b => b.deed.Carried).getLast?).map Bill.reported).getD .none
  free : ∀ usage ∈ s.waived, ∃ price, i.tariff.pricing.costOf usage = .ok price ∧ price.worth ≤ 0

/-- Whether a settlement bills a run: what is reported can be read, is no less than what is settled
or nothing at all, and its price is an amount that does not overdraw the scope. -/
def Bills (i : Interceptor) (s : GovernedCrew) (a : Authorization) (result crew : Report) : Prop :=
  ∃ reported price q, crewUsage result crew = .ok reported ∧
    (s.settledUsage ≤ reported ∨ reported.totalTokens = 0) ∧
    i.tariff.pricing.costOf (reported.since s.settledUsage) = .ok price ∧
    price.value? = some (.finite q) ∧ (0 < q → q ≤ maxAmount ∧
      ∀ settled, cost (.number (some price)) s.desk.governor.ledger.state.unit = .ok settled →
        ¬Overdraws s.desk.governor a settled)

/-- Whether an event goes as it should. -/
def Lawful (i : Interceptor) (s : GovernedCrew) : CrewEvent → Prop
  | .finishes run result crew => ∀ a, s.running[run]? = some a → Bills i s a result crew
  | _ => True

/-- Whether every event of a run goes as it should. -/
def AllLawful (w : World) (i : Interceptor) : GovernedCrew → List CrewEvent → Prop
  | _, [] => True
  | s, e :: events => s.Lawful i e ∧ AllLawful w i (s.step w i e) events

section Billing

variable {w : World} {i : Interceptor} {s : GovernedCrew} {a : Authorization}

/-- What holds of a crew whose settlements go as they should, some holds being taken in hand. -/
structure Sound (i : Interceptor) (s : GovernedCrew) (taken : List Authorization) : Prop where
  once : (s.desk.deeds.map (fun x => x.ask.hold) ++ (taken ++ s.running)).Perm s.desk.placed
  resolved : ∀ x ∈ s.desk.deeds, x.Frees ∨ ∃ b ∈ s.bills, b.deed = x
  priced : ∀ b ∈ s.bills, b.deed ∈ s.desk.deeds ∧
    ∃ price, i.tariff.pricing.costOf b.usage = .ok price ∧ b.deed.Charges price
  tokens : TokenUsage.sum ((s.bills.filter fun b => b.deed.Carried).map Bill.usage) =
    s.settledUsage
  last : (((s.bills.filter fun b => b.deed.Carried).getLast?).map Bill.reported).getD .none =
    s.settledUsage
  free : ∀ usage ∈ s.waived, ∃ price, i.tariff.pricing.costOf usage = .ok price ∧ price.worth ≤ 0

theorem Sound.billedOnce (h : Sound i s []) : BilledOnce i s where
  once := h.once
  resolved := h.resolved
  priced := h.priced
  tokens := h.tokens.trans h.last.symm
  free := h.free

theorem sound_new (i : Interceptor) (g : Governor) : Sound i (new g) [] := by
  constructor <;> simp [new, TokenUsage.sum]

/-- A hold is taken in hand as its run ends. -/
theorem Sound.take (h : Sound i s []) {run : ℕ} (hrun : s.running[run]? = some a) :
    Sound i { s with running := s.running.eraseIdx run } [a] where
  once := by
    obtain ⟨hlt, rfl⟩ := List.getElem?_eq_some_iff.mp hrun
    exact ((List.getElem_cons_eraseIdx_perm hlt).append_left _).trans h.once
  resolved := h.resolved
  priced := h.priced
  tokens := h.tokens
  last := h.last
  free := h.free

/-- A hold that is asked about is in hand no more. -/
theorem once_settle {d : Desk} (ask : Ask) {running : List Authorization}
    (h : (d.deeds.map (fun x => x.ask.hold) ++ ([ask.hold] ++ running)).Perm d.placed) :
    ((d.settle w ask).2.deeds.map (fun x => x.ask.hold) ++ running).Perm
      (d.settle w ask).2.placed := by
  simpa [Desk.deed] using h

/-- A void resolves the hold in hand. -/
theorem Sound.void (h : Sound i s [a]) (memo : Text) : Sound i (s.void w a memo).2 [] where
  once := once_settle (.void a memo) h.once
  resolved := by
    simp only [GovernedCrew.void, Desk.deeds_settle, List.forall_mem_append,
      List.forall_mem_singleton]
    exact ⟨h.resolved, Or.inl (frees_void s.desk a memo)⟩
  priced b hb := by
    obtain ⟨hdeed, hprice⟩ := h.priced b hb
    refine ⟨?_, hprice⟩
    simp only [GovernedCrew.void, Desk.deeds_settle]
    exact List.mem_append_left _ hdeed
  tokens := h.tokens
  last := h.last
  free := h.free

/-- A capture in hand is billed where it is carried out. -/
theorem Sound.bill (h : Sound i s [a]) {price : Decimal} {reported : TokenUsage}
    (hprice : i.tariff.pricing.costOf (reported.since s.settledUsage) = .ok price)
    (charges : (s.desk.deed w (.capture a price (txt "crew run"))).Charges price)
    {settledUsage : TokenUsage}
    (hsettled : settledUsage =
      if (s.desk.deed w (.capture a price (txt "crew run"))).Carried then reported
      else s.settledUsage)
    (increases : s.settledUsage ≤ reported) (hw : reported.cacheCreationInputTokens = 0) :
    Sound i { s with
      desk := (s.desk.settle w (.capture a price (txt "crew run"))).2
      bills := s.bills ++ [⟨reported.since s.settledUsage, reported,
        s.desk.deed w (.capture a price (txt "crew run"))⟩]
      settledUsage := settledUsage } [] where
  once := once_settle (.capture a price (txt "crew run")) h.once
  resolved := by
    simp only [Desk.deeds_settle, List.forall_mem_append, List.forall_mem_singleton]
    refine ⟨fun x hx => (h.resolved x hx).imp id ?_,
      Or.inr ⟨_, List.mem_append_right _ (List.mem_singleton.mpr rfl), rfl⟩⟩
    rintro ⟨b, hb, rfl⟩
    exact ⟨b, List.mem_append_left _ hb, rfl⟩
  priced := by
    simp only [Desk.deeds_settle, List.forall_mem_append, List.forall_mem_singleton]
    refine ⟨fun b hb => ?_, by simp, price, hprice, charges⟩
    exact ⟨List.mem_append_left _ (h.priced b hb).1, (h.priced b hb).2⟩
  tokens := by
    rw [hsettled, List.filter_append]
    split_ifs with hcarried
    · simp [hcarried, h.tokens, TokenUsage.plus_since increases hw]
    · simp [hcarried, h.tokens]
  last := by
    rw [hsettled, List.filter_append]
    split_ifs with hcarried
    · simp [hcarried]
    · simpa [hcarried] using h.last
  free := h.free

/-- A capture that overdraws nothing resolves the hold in hand. -/
theorem Sound.capture (h : Sound i s [a]) {price settled : Decimal} {reported : TokenUsage}
    (hprice : i.tariff.pricing.costOf (reported.since s.settledUsage) = .ok price)
    (increases : s.settledUsage ≤ reported) (hw : reported.cacheCreationInputTokens = 0)
    (hpos : 0 ≤ price.worth)
    (taken : cost (.number (some price)) s.desk.governor.ledger.state.unit = .ok settled)
    (hzero : settled.worth = 0 ↔ price.worth = 0)
    (covered : ¬Overdraws s.desk.governor a settled) :
    Sound i (s.capture w a price (reported.since s.settledUsage) reported).2 [] := by
  have charges := charges_taken (w := w) s.desk a (txt "crew run") hpos taken hzero
  have answered := capture_answered (w := w) s.desk (txt "crew run") taken covered
  unfold GovernedCrew.capture
  cases hr : (s.desk.settle w (.capture a price (txt "crew run"))).1 with
  | ok answer =>
    have hcarried : (s.desk.deed w (.capture a price (txt "crew run"))).Carried :=
      Or.inl ⟨answer, hr⟩
    simpa only [hr] using h.bill hprice charges (if_pos hcarried).symm increases hw
  | error e =>
    have hrefused : ¬(s.desk.deed w (.capture a price (txt "crew run"))).Carried := by
      refine answered.resolve_left ?_
      rintro ⟨answer, hanswer⟩
      cases hr.symm.trans hanswer
    simpa only [hr] using h.bill hprice charges (if_neg hrefused).symm increases hw

/-- A run that is settled as it should be leaves no hold in hand. -/
theorem Sound.settle (h : Sound i s [a]) {result crew : Report} (bills : Bills i s a result crew) :
    Sound i (s.settle w i a result crew).2 [] := by
  obtain ⟨reported, price, q, hreported, hincreases, hprice, hq, hbounds⟩ := bills
  have hsettle : s.settle w i a result crew =
      if Value.finite q ≤ 0 then
        { s with waived := s.waived ++ [reported.since s.settledUsage] }.void w a
          (txt "crew run reported no usage")
      else s.capture w a price (reported.since s.settledUsage) reported := by
    simp only [GovernedCrew.settle, hreported, hprice, hq]
  rw [hsettle]
  split_ifs with hfree
  · have hwaived :
        Sound i { s with waived := s.waived ++ [reported.since s.settledUsage] } [a] := by
      refine ⟨h.once, h.resolved, h.priced, h.tokens, h.last, ?_⟩
      simp only [List.forall_mem_append, List.forall_mem_singleton]
      exact ⟨h.free, price, hprice, by rwa [worth_finite hq]⟩
    exact hwaived.void _
  · have hpos : 0 < q := not_le.mp fun hle => hfree (Value.finite_le_zero.mpr hle)
    obtain ⟨hmax, hcovered⟩ := hbounds hpos
    have hle : s.settledUsage ≤ reported := by
      refine hincreases.resolve_right fun hnone => ?_
      rw [TokenUsage.since_of_totalTokens hnone] at hprice
      have hzero := costOf_none hprice hq
      rw [Value.zero_def, Value.finite.injEq] at hzero
      exact hpos.ne' hzero
    have hw : reported.cacheCreationInputTokens = 0 := by
      unfold crewUsage at hreported
      obtain ⟨cumulative, hcumulative, hrest⟩ := bind_eq_ok.mp hreported
      split_ifs at hrest
      · exact cacheCreation_crewUsage hrest
      · cases hrest
        exact cacheCreation_crewUsage hcumulative
    cases price with
    | infinity sign => cases hq
    | nan sign signaling payload => cases hq
    | finite sign c e =>
      obtain rfl : Decimal.rat sign c e = q := by simpa [Decimal.value?] using hq
      obtain ⟨settled, taken, hzero⟩ := cost_finite hpos.le hmax s.desk.governor.ledger.state.unit
      refine h.capture hprice hle hw ?_ taken hzero (hcovered settled taken)
      rw [worth_finite rfl]
      exact Value.finite_le_finite.mpr hpos.le

/-- A run that is started is in flight, if its hold is placed. -/
theorem Sound.authorize (h : Sound i s []) (hold : Decimal) :
    Sound i (s.authorize w i hold) [] := by
  have hdesk : (s.desk.authorize w i.scopeId hold (txt "crew run authorization")).2.placed =
      s.desk.placed ++
        heldIn (s.desk.authorize w i.scopeId hold (txt "crew run authorization")).1 := rfl
  have hdeeds := Desk.deeds_authorize w s.desk i.scopeId hold (txt "crew run authorization")
  unfold GovernedCrew.authorize
  split
  · rename_i a d hd
    rw [hd] at hdesk hdeeds
    replace hdeeds : d.deeds = s.desk.deeds := hdeeds
    refine ⟨?_, ?_, ?_, h.tokens, h.last, h.free⟩
    · rw [hdesk, hdeeds, List.nil_append, ← List.append_assoc]
      exact h.once.append_right _
    · simpa only [hdeeds] using h.resolved
    · simpa only [hdeeds] using h.priced
  · rename_i r d hnone hd
    rw [hd] at hdesk hdeeds
    have hheld : heldIn r = [] := heldIn_eq_nil hnone
    replace hdesk : d.placed = s.desk.placed := hdesk.trans (by rw [hheld, List.append_nil])
    replace hdeeds : d.deeds = s.desk.deeds := hdeeds
    refine ⟨?_, ?_, ?_, h.tokens, h.last, h.free⟩
    · simpa only [hdesk, hdeeds] using h.once
    · simpa only [hdeeds] using h.resolved
    · simpa only [hdeeds] using h.priced

/-- One more event that goes as it should. -/
theorem Sound.step (h : Sound i s []) {e : CrewEvent} (lawful : s.Lawful i e) :
    Sound i (s.step w i e) [] := by
  cases e with
  | others commands =>
    exact ⟨h.once, h.resolved, h.priced, h.tokens, h.last, h.free⟩
  | starts hold =>
    cases hold with
    | none => exact h
    | some hold => exact h.authorize hold
  | fails run =>
    simp only [GovernedCrew.step]
    split
    · exact h
    · rename_i a hrun
      exact (h.take hrun).void _
  | finishes run result crew =>
    simp only [GovernedCrew.step]
    split
    · exact h
    · rename_i a hrun
      exact (h.take hrun).settle (lawful a hrun)

theorem Sound.run (h : Sound i s []) {events : List CrewEvent} (lawful : AllLawful w i s events) :
    Sound i (s.run w i events) [] := by
  induction events generalizing s with
  | nil => exact h
  | cons e events ih => exact ih (h.step lawful.1) lawful.2

/-- A crew whose settlements read what is reported and overdraw nothing is billed once. -/
theorem billed_once (w : World) (i : Interceptor) (g : Governor) (events : List CrewEvent)
    (lawful : AllLawful w i (new g) events) : BilledOnce i ((new g).run w i events) :=
  ((sound_new i g).run lawful).billedOnce

end Billing

/-! ### Two runs -/

/-- A report of tokens that were read. -/
def sampleReport (n : ℤ) : Report := .object [] (some [(txt "prompt_tokens", .int n)]) none

/-- A crew with a run in flight that holds a dollar. -/
def sampleStarted : GovernedCrew :=
  (new sampleDesk.governor).step sampleWorld sampleInterceptor (.starts (some (Decimal.ofInt 1)))

/-- A crew with a second run in flight, the first being settled at a thousand tokens. -/
def sampleSettled : GovernedCrew :=
  (sampleStarted.step sampleWorld sampleInterceptor (.starts (some (Decimal.ofInt 1)))).step
    sampleWorld sampleInterceptor (.finishes 0 (sampleReport 1000) .none)

/-- A report is billed where the price of what it adds is an amount the scope has. -/
theorem bills_reported {s : GovernedCrew} {a : Authorization} {n : ℤ} (reported : TokenUsage)
    (price settled : Decimal) {q : ℚ} (reads : crewUsage (sampleReport n) .none = .ok reported)
    (increases : s.settledUsage ≤ reported)
    (hprice : sampleInterceptor.tariff.pricing.costOf (reported.since s.settledUsage) = .ok price)
    (hq : price.value? = some (.finite q)) (hmax : q ≤ maxAmount)
    (taken : cost (.number (some price)) s.desk.governor.ledger.state.unit = .ok settled)
    (covered : (s.running[0]?.any fun a => Overdraws s.desk.governor a settled) = false)
    (ha : s.running[0]? = some a) : Bills sampleInterceptor s a (sampleReport n) .none := by
  refine ⟨reported, price, q, reads, Or.inl increases, hprice, hq, fun _ => ⟨hmax, ?_⟩⟩
  intro settled' taken'
  cases taken.symm.trans taken'
  simpa [ha] using covered

theorem bills_sampleStarted {a : Authorization}
    (ha : (sampleStarted.step sampleWorld sampleInterceptor
      (.starts (some (Decimal.ofInt 1)))).running[0]? = some a) :
    Bills sampleInterceptor (sampleStarted.step sampleWorld sampleInterceptor
      (.starts (some (Decimal.ofInt 1)))) a (sampleReport 1000) .none := by
  generalize hs : sampleStarted.step sampleWorld sampleInterceptor
    (.starts (some (Decimal.ofInt 1))) = s at ha ⊢
  obtain ⟨hsettled, taken, covered⟩ : s.settledUsage = .none ∧
      cost (.number (some (.finite false 500000 (-8)))) s.desk.governor.ledger.state.unit =
        .ok (.finite false 500000 (-8)) ∧
      (s.running[0]?.any fun a => Overdraws s.desk.governor a (.finite false 500000 (-8))) =
        false := by
    subst hs
    decide +kernel
  refine bills_reported ⟨1000, 0, 0, 0⟩ (.finite false 500000 (-8))
    (.finite false 500000 (-8)) (q := 1 / 200) (by decide +kernel) ?_ ?_
    (by decide +kernel) (by decide +kernel) taken covered ha
  · rw [hsettled]
    exact TokenUsage.none_le _
  · rw [hsettled]
    decide +kernel

theorem bills_sampleSettled {a : Authorization} (ha : sampleSettled.running[0]? = some a) :
    Bills sampleInterceptor sampleSettled a (sampleReport 1500) .none := by
  obtain ⟨hsettled, taken, covered⟩ : sampleSettled.settledUsage = ⟨1000, 0, 0, 0⟩ ∧
      cost (.number (some (.finite false 250000 (-8))))
        sampleSettled.desk.governor.ledger.state.unit = .ok (.finite false 250000 (-8)) ∧
      (sampleSettled.running[0]?.any fun a =>
        Overdraws sampleSettled.desk.governor a (.finite false 250000 (-8))) = false := by
    decide +kernel
  refine bills_reported ⟨1500, 0, 0, 0⟩ (.finite false 250000 (-8))
    (.finite false 250000 (-8)) (q := 1 / 400) (by decide +kernel) ?_ ?_
    (by decide +kernel) (by decide +kernel) taken covered ha
  · rw [hsettled]
    exact ⟨by decide, le_rfl, le_rfl, le_rfl⟩
  · rw [hsettled]
    decide +kernel

/-- Two runs that overlap, the second billed for what it adds to the first. -/
def sampleRuns : List CrewEvent :=
  [.starts (some (Decimal.ofInt 1)), .starts (some (Decimal.ofInt 1)),
    .finishes 0 (sampleReport 1000) .none, .finishes 0 (sampleReport 1500) .none]

theorem billed_once_sampleRuns :
    BilledOnce sampleInterceptor ((new sampleDesk.governor).run sampleWorld sampleInterceptor
        sampleRuns) ∧
      ((new sampleDesk.governor).run sampleWorld sampleInterceptor sampleRuns).bills.map
        (fun b => b.usage.inputTokens) = [1000, 500] :=
  ⟨billed_once sampleWorld sampleInterceptor sampleDesk.governor sampleRuns
    ⟨trivial, trivial, fun _ ha => bills_sampleStarted ha, fun _ ha => bills_sampleSettled ha,
      trivial⟩, by decide +kernel⟩

/-- Two runs with a hold of a dollar each in a scope of ten, which both report three million
tokens, at fifteen dollars. -/
def sampleOverdraft : GovernedCrew :=
  (new sampleDesk.governor).run sampleWorld sampleInterceptor
    [.starts (some (Decimal.ofInt 1)), .starts (some (Decimal.ofInt 1)),
      .finishes 0 (sampleReport 3000000) .none, .finishes 0 (sampleReport 3000000) .none]

/-- The tokens of a capture that overdraws are billed again with the next run. -/
theorem overdraft_billed_twice : ¬BilledOnce sampleInterceptor sampleOverdraft := by
  have htwice : TokenUsage.sum ((sampleOverdraft.bills.filter fun b => b.deed.Carried).map
        Bill.usage) = ⟨6000000, 0, 0, 0⟩ ∧
      (((sampleOverdraft.bills.filter fun b => b.deed.Carried).getLast?).map
        Bill.reported).getD .none = ⟨3000000, 0, 0, 0⟩ := by
    decide +kernel
  intro h
  cases htwice.1.symm.trans (h.tokens.trans htwice.2)

end GovernedCrew

end AgentGov.Metering
