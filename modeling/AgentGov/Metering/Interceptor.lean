import AgentGov.Metering.Desk
import AgentGov.Metering.Pricing

/-!
# Metered calls

A call is made between a hold on its scope and the settlement of that hold
(`src/src/agentgov/interceptor.py`, lines 451–568 and 857–938). Its response is priced before the
hold is settled, and whatever raises until then takes the exit of a call that failed.

## Main definitions

* `AgentGov.Metering.SpendGuard`: the hold of one call, and what is to be settled of it.
* `AgentGov.Metering.Interceptor.invoke`, `AgentGov.Metering.Interceptor.ainvoke`: metered calls.
* `AgentGov.Metering.Charged`: the hold of a call is settled once, and on the right side.
* `AgentGov.Metering.Tariff.Payable`: a response can be priced, at a cost that is not negative.

## Main results

* `AgentGov.Metering.Interceptor.charged_iff`: a call is charged exactly where its response, if
  there was one, is payable.
* `AgentGov.Metering.unpriced_not_charged`: a response without token counts is served for nothing.
-/

open Foundation

namespace AgentGov.Metering

/-- `SpendGuard`: one call's hold, and what is to be settled of it. -/
structure SpendGuard where
  scopeId : Text
  hold : Decimal
  memo : Text := []
  auth : Option Authorization := none
  settled : Option Decimal := none
  entry : Option LedgerEntry := none

namespace SpendGuard

variable (w : World) (s : SpendGuard) (d : Desk)

/-- `settle`: the true cost of the call. The last one given wins. -/
def settle (cost : Decimal) : Except Error SpendGuard := do
  .ok { s with settled := some (← money cost) }

/-- `__enter__`: place the hold. Nothing is entered where the governor refuses it. -/
def enter : Option SpendGuard × Desk :=
  match d.authorize w s.scopeId s.hold (orElse s.memo (txt "call authorization")) with
  | (.ok (.authorization a), d) => (some { s with auth := some a }, d)
  | (_, d) => (none, d)

/-- `__exit__`: capture what was settled, or void the hold if the body raised. -/
def exit (raised : Bool) : Except Exception SpendGuard × Desk :=
  match s.auth with
  | none => (.ok s, d)
  | some a =>
    if raised then
      match d.settle w (.void a (txt "call failed; hold released")) with
      | (.ok _, d) => (.ok s, d)
      | (.error e, d) => (.error e, d)
    else
      let settled := s.settled.getD a.amount
      match d.settle w (.capture a settled (orElse s.memo (txt "settled call cost"))) with
      | (.ok (.entry e), d) => (.ok { s with settled := some settled, entry := some e }, d)
      | (.ok _, d) => (.ok { s with settled := some settled }, d)
      | (.error e, d) => (.error e, d)

end SpendGuard

/-- `MeteredCall`: a response, with its usage and what was settled of it. -/
structure MeteredCall where
  response : Reply
  usage : TokenUsage
  cost : Decimal
  hold : Decimal
  scopeId : Text
  entry : LedgerEntry

/-- What a metered call can raise. -/
inductive CallFault
  /-- The loop check or the sizing of the hold raised. -/
  | unsized
  /-- The hold was refused. -/
  | refused
  /-- The task was cancelled while the hold was being placed. -/
  | cancelled
  /-- The function raised. -/
  | function
  | price (fault : PriceFault)
  | money (e : Error)
  | governor (e : Exception)
  /-- "spend guard exited without settling" -/
  | unsettled

/-- What befalls a call. -/
structure Course where
  /-- The size of its hold, if it comes to be placed. -/
  hold : Option Decimal
  /-- Whether its task is cancelled while the hold is being placed. -/
  cancelled : Bool
  /-- What others do with the governor while the hold is placed and the function runs. -/
  meanwhile : List Governor.Command
  /-- What the function returns, if it does. -/
  response : Option Reply

/-- `Interceptor`, as far as it meters calls. -/
structure Interceptor where
  scopeId : Text
  tariff : Tariff

namespace Interceptor

variable (w : World) (i : Interceptor) (d : Desk) (c : Course)

/-- The body of a call's guard: the function, the price of its response and what is settled. -/
def body (s : SpendGuard) : Except CallFault (SpendGuard × Reply × TokenUsage × Decimal) := do
  match c.response with
  | none => .error .function
  | some response => do
    let priced ← (i.tariff.price response).mapError .price
    let s ← (s.settle priced.2).mapError .money
    .ok (s, response, priced)

/-- `_result`: the metered call, once its guard has settled. -/
def result (s : SpendGuard) (response : Reply) (usage : TokenUsage) (cost : Decimal) :
    Except CallFault MeteredCall :=
  match s.entry with
  | none => .error .unsettled
  | some entry => .ok ⟨response, usage, cost, s.hold, i.scopeId, entry⟩

/-- A call within its guard, which is left whichever way the body ends. -/
def guarded (s : SpendGuard) : Except CallFault MeteredCall × Desk :=
  match i.body c s with
  | .error fault =>
    match s.exit w d true with
    | (.ok _, d) => (.error fault, d)
    | (.error e, d) => (.error (.governor e), d)
  | .ok (s, response, usage, cost) =>
    match s.exit w d false with
    | (.ok s, d) => (i.result s response usage cost, d)
    | (.error e, d) => (.error (.governor e), d)

/-- `invoke`: a call under budget enforcement. -/
def invoke : Except CallFault MeteredCall × Desk :=
  match c.hold with
  | none => (.error .unsized, d)
  | some hold =>
    match SpendGuard.enter w { scopeId := i.scopeId, hold := hold } d with
    | (none, d) => (.error .refused, d)
    | (some s, d) => i.guarded w (d.meanwhile w c.meanwhile) c s

/-- `ainvoke`: a call that is awaited. Where its task is cancelled while the hold is being placed,
the hold is released, and the function is not called. -/
def ainvoke : Except CallFault MeteredCall × Desk :=
  match c.hold with
  | none => (.error .unsized, d)
  | some hold =>
    match SpendGuard.enter w { scopeId := i.scopeId, hold := hold } d with
    | (none, d) => (.error (if c.cancelled then .cancelled else .refused), d)
    | (some s, d) =>
      if c.cancelled then (.error .cancelled, (s.exit w (d.meanwhile w c.meanwhile) true).2)
      else i.guarded w (d.meanwhile w c.meanwhile) c s

/-- A call, awaited or not. -/
def metered (awaits : Bool) : Except CallFault MeteredCall × Desk :=
  if awaits then i.ainvoke w d c else i.invoke w d c

end Interceptor

/-- What a call's function served. -/
def Course.served (c : Course) (awaits : Bool) : Option Reply :=
  if awaits ∧ c.cancelled then none else c.response

/-! ### What is claimed of a call -/

/-- What is owed for a response: its priced usage, or the full hold where that is not known. -/
def Tariff.owed (t : Tariff) (response : Reply) (hold : Decimal) : Decimal :=
  match t.price response with
  | .error _ => hold
  | .ok (_, cost) =>
    match money cost with
    | .error _ => hold
    | .ok owed => owed

/-- Whether a hold is captured at what is owed, which is an amount the governor takes: where it
carries that out, it spends that amount, or releases the hold where nothing is owed. -/
def Deed.Charges (x : Deed) (owed : Decimal) : Prop :=
  (∃ memo, x.ask = .capture x.ask.hold owed memo) ∧ 0 ≤ owed.worth ∧
    ∃ settled, cost (.number (some owed)) x.before.ledger.state.unit = .ok settled ∧
      (settled.worth = 0 ↔ owed.worth = 0) ∧ (x.Carried → x.Settles settled)

/-- Whether a hold is voided, and where that is carried out, released without a spend. -/
def Deed.Frees (x : Deed) : Prop :=
  (∃ memo, x.ask = .void x.ask.hold memo) ∧ (x.Carried → x.Releases)

/-- Whether the hold of a call is settled by exactly one capture or void, which is carried out if
the hold is still open: a capture of what is owed where the function returned, a void where it did
not. -/
def Charged (w : World) (t : Tariff) (a : Authorization) (served : Option Reply) (d d' : Desk) :
    Prop :=
  ∃ x, d'.deeds = d.deeds ++ [x] ∧ x.ask.hold = a ∧ (x.Open w → x.Carried) ∧
    match served with
    | some response => x.Charges (t.owed response a.amount)
    | none => x.Frees

/-- Whether a usage and the rates of what served can be read off a response, and their cost is an
amount of money that is not negative. -/
def Tariff.Payable (t : Tariff) (response : Reply) : Prop :=
  ∃ usage rates cost owed, t.extractUsage response = .ok usage ∧
    t.pricingForResponse response = .ok rates ∧ rates.costOf usage = .ok cost ∧
    money cost = .ok owed ∧ 0 ≤ owed.worth

/-! ### How a guard is left -/

section Exits

variable {w : World} {s : SpendGuard} {a : Authorization} {t : Tariff} {response : Reply}

/-- A guard whose body raised voids its hold. -/
theorem SpendGuard.exit_raised (d : Desk) (h : s.auth = some a) :
    (s.exit w d true).2.deeds =
      d.deeds ++ [d.deed w (.void a (txt "call failed; hold released"))] := by
  simp only [exit, h, if_true]
  rw [← Desk.deeds_settle]
  rcases d.settle w (.void a (txt "call failed; hold released")) with ⟨_ | _, d'⟩ <;> rfl

/-- A guard whose body did not raise captures what was settled. -/
theorem SpendGuard.exit_settled (d : Desk) (h : s.auth = some a) :
    (s.exit w d false).2.deeds = d.deeds ++ [d.deed w
      (.capture a (s.settled.getD a.amount) (orElse s.memo (txt "settled call cost")))] := by
  simp only [exit, h, Bool.false_eq_true, if_false]
  rw [← Desk.deeds_settle]
  rcases d.settle w (.capture a (s.settled.getD a.amount)
    (orElse s.memo (txt "settled call cost"))) with ⟨_ | answer, d'⟩
  · rfl
  · cases answer <;> rfl

/-- What is voided as a call fails passes as a memo. -/
theorem checkText_failed :
    checkText (txt "call failed; hold released") .memo maxMemoBytes false = none := by
  decide

theorem checkText_settled :
    checkText (txt "settled call cost") .memo maxMemoBytes false = none := by
  decide

theorem frees_void (d : Desk) (a : Authorization) (memo : Text) :
    (d.deed w (.void a memo)).Frees :=
  ⟨⟨memo, rfl⟩, void_releases d⟩

/-- A void charges nothing. -/
theorem not_charges_void (d : Desk) (a : Authorization) (memo : Text) (owed : Decimal) :
    ¬(d.deed w (.void a memo)).Charges owed := by
  rintro ⟨⟨memo', hask⟩, -⟩
  cases hask

/-- A capture of an amount the governor takes charges it. -/
theorem charges_taken (d : Desk) (a : Authorization) (memo : Text) {owed settled : Decimal}
    (hpos : 0 ≤ owed.worth)
    (taken : cost (.number (some owed)) d.governor.ledger.state.unit = .ok settled)
    (hzero : settled.worth = 0 ↔ owed.worth = 0) :
    (d.deed w (.capture a owed memo)).Charges owed := by
  refine ⟨⟨memo, rfl⟩, hpos, settled, taken, hzero, fun carried => ?_⟩
  obtain ⟨settled', taken', hdone⟩ := capture_settles d carried
  cases taken.symm.trans taken'
  exact hdone

/-- A capture of an amount of money that is not negative is carried out, if its hold is still
open. -/
theorem money_carried (d : Desk) (a : Authorization) {memo : Text} {price owed : Decimal}
    (h : money price = .ok owed) (hpos : 0 ≤ owed.worth)
    (hmemo : checkText memo .memo maxMemoBytes false = none)
    (opened : (d.deed w (.capture a owed memo)).Open w) :
    (d.deed w (.capture a owed memo)).Carried := by
  obtain ⟨settled, taken, -⟩ := cost_of_money h hpos d.governor.ledger.state.unit
  obtain ⟨q, p, hq, hp, hle, -⟩ := cost_bounds taken
  refine capture_carried d opened hmemo taken (not_lt.mpr ?_)
  rw [worth_finite hq] at hpos
  rw [worth_finite hp]
  exact Value.finite_le_finite.mpr ((Value.finite_le_finite.mp hpos).trans hle)

/-- A capture of an amount of money charges it, if it is not negative. -/
theorem charges_capture (d : Desk) (a : Authorization) (memo : Text) {cost owed : Decimal}
    (h : money cost = .ok owed) :
    (d.deed w (.capture a owed memo)).Charges owed ↔ 0 ≤ owed.worth := by
  refine ⟨fun hx => hx.2.1, fun hpos => ?_⟩
  obtain ⟨settled, taken, hzero⟩ := cost_of_money h hpos d.governor.ledger.state.unit
  exact charges_taken d a memo hpos taken hzero

theorem payable_iff : t.Payable response ↔ ∃ priced owed, t.price response = .ok priced ∧
    money priced.2 = .ok owed ∧ 0 ≤ owed.worth := by
  unfold Tariff.Payable Tariff.price
  cases hu : t.extractUsage response with
  | error e => simp [Except.mapError, bind, Except.bind]
  | ok usage =>
    cases hp : t.pricingForResponse response with
    | error e => simp [Except.mapError, bind, Except.bind]
    | ok rates =>
      cases hc : rates.costOf usage with
      | error e => simp [hc, Except.mapError, bind, Except.bind]
      | ok cost => simp [hc, Except.mapError, bind, Except.bind]

/-- What is owed for a response that can be priced. -/
theorem owed_eq {priced : TokenUsage × Decimal} {owed hold : Decimal}
    (hp : t.price response = .ok priced) (ho : money priced.2 = .ok owed) :
    t.owed response hold = owed := by
  simp only [Tariff.owed, hp, ho]

end Exits

/-! ### Charging -/

section Charging

variable {w : World} {a : Authorization} (i : Interceptor) (d : Desk) (c : Course)

/-- A call left before anything was settled is not charged, unless nothing was served. -/
theorem charged_raised (t : Tariff) (served : Option Reply) {d' : Desk}
    (h : d'.deeds = d.deeds ++ [d.deed w (.void a (txt "call failed; hold released"))]) :
    Charged w t a served d d' ↔ served = none := by
  cases served with
  | none =>
    exact iff_of_true ⟨_, h, rfl, fun opened => void_carried d opened checkText_failed,
      frees_void d a _⟩ rfl
  | some response =>
    refine iff_of_false ?_ (by simp)
    rintro ⟨x, hx, -, -, hcharges⟩
    obtain rfl := List.cons.inj (List.append_cancel_left (h.symm.trans hx)) |>.1
    exact not_charges_void d a _ _ hcharges

/-- A call that captured what is owed is charged, if that is not negative. -/
theorem charged_captured {t : Tariff} {response : Reply} {priced : TokenUsage × Decimal}
    {owed : Decimal} (hp : t.price response = .ok priced) (ho : money priced.2 = .ok owed)
    {d' : Desk} {memo : Text} (hmemo : checkText memo .memo maxMemoBytes false = none)
    (h : d'.deeds = d.deeds ++ [d.deed w (.capture a owed memo)]) :
    Charged w t a (some response) d d' ↔ 0 ≤ owed.worth := by
  rw [← charges_capture d a memo ho]
  constructor
  · rintro ⟨x, hx, -, -, hcharges⟩
    obtain rfl := List.cons.inj (List.append_cancel_left (h.symm.trans hx)) |>.1
    dsimp only at hcharges
    rwa [owed_eq hp ho] at hcharges
  · intro hcharges
    refine ⟨_, h, rfl, fun opened => money_carried d a ho hcharges.2.1 hmemo opened, ?_⟩
    dsimp only
    rwa [owed_eq hp ho]

/-- A call in its guard is charged exactly where its response is payable. -/
theorem charged_guarded {s : SpendGuard} (hauth : s.auth = some a) (hmemo : s.memo = []) :
    Charged w i.tariff a c.response d (i.guarded w d c s).2 ↔
      ∀ response, c.response = some response → i.tariff.Payable response := by
  have left (fault : CallFault) (hbody : i.body c s = .error fault) :
      Charged w i.tariff a c.response d (i.guarded w d c s).2 ↔ c.response = none := by
    refine charged_raised (w := w) d i.tariff c.response ?_
    rw [← SpendGuard.exit_raised d hauth]
    simp only [Interceptor.guarded, hbody]
    rcases s.exit w d true with ⟨_ | _, d'⟩ <;> rfl
  cases hresponse : c.response with
  | none =>
    rw [hresponse] at left
    simpa using left .function (by rw [Interceptor.body, hresponse])
  | some response =>
    rw [hresponse] at left
    simp only [Option.some.injEq, forall_eq', payable_iff]
    cases hprice : i.tariff.price response with
    | error fault =>
      have hbody : i.body c s = .error (.price fault) := by
        simp only [Interceptor.body, hresponse, hprice]
        rfl
      simpa using left _ hbody
    | ok priced =>
      cases howed : money priced.2 with
      | error e =>
        have hbody : i.body c s = .error (.money e) := by
          simp only [Interceptor.body, hresponse, hprice, SpendGuard.settle, Except.mapError,
            bind, Except.bind, howed]
        simpa [howed] using left _ hbody
      | ok owed =>
        have hbody : i.body c s = .ok ({ s with settled := some owed }, response, priced) := by
          simp only [Interceptor.body, hresponse, hprice, SpendGuard.settle, Except.mapError,
            bind, Except.bind, howed]
        have hnote : checkText (orElse s.memo (txt "settled call cost")) .memo maxMemoBytes
            false = none := by
          rw [hmemo]
          exact checkText_settled
        refine (charged_captured (w := w) d hprice howed hnote ?_).trans (by simp [howed])
        refine Eq.trans ?_ (SpendGuard.exit_settled (s := { s with settled := some owed }) d hauth)
        simp only [Interceptor.guarded, hbody]
        rcases SpendGuard.exit w { s with settled := some owed } d false with ⟨_ | _, d'⟩ <;> rfl

/-- A call in its guard asks once about its hold. -/
theorem deeds_guarded {s : SpendGuard} (hauth : s.auth = some a) : ∃ ask, ask.hold = a ∧
    (i.guarded w d c s).2.deeds = d.deeds ++ [d.deed w ask] := by
  cases hbody : i.body c s with
  | error fault =>
    refine ⟨.void a (txt "call failed; hold released"), rfl, ?_⟩
    rw [← SpendGuard.exit_raised d hauth]
    simp only [Interceptor.guarded, hbody]
    rcases s.exit w d true with ⟨_ | _, d'⟩ <;> rfl
  | ok r =>
    have hkept : r.1.auth = some a := by
      unfold Interceptor.body at hbody
      cases hresponse : c.response with
      | none => simp [hresponse] at hbody
      | some response =>
        simp only [hresponse] at hbody
        obtain ⟨priced, -, hbody⟩ := bind_eq_ok.mp hbody
        obtain ⟨s', hs, hbody⟩ := bind_eq_ok.mp hbody
        cases hbody
        cases howed : money priced.2 with
        | error e => simp [SpendGuard.settle, howed, Except.mapError, bind, Except.bind] at hs
        | ok owed =>
          simp only [SpendGuard.settle, howed, Except.mapError, bind, Except.bind] at hs
          cases hs
          exact hauth
    refine ⟨.capture a (r.1.settled.getD a.amount) (orElse r.1.memo (txt "settled call cost")),
      rfl, ?_⟩
    rw [← SpendGuard.exit_settled d hkept]
    simp only [Interceptor.guarded, hbody]
    rcases r.1.exit w d false with ⟨_ | _, d'⟩ <;> rfl

namespace Interceptor

variable {i d c} {hold : Decimal} (sized : c.hold = some hold)
  (placed : (d.authorize w i.scopeId hold (txt "call authorization")).1 = .ok (.authorization a))

/-- The guard of a call, once its hold is placed. -/
def guardOf (i : Interceptor) (hold : Decimal) (a : Authorization) : SpendGuard where
  scopeId := i.scopeId
  hold := hold
  auth := some a

/-- The desk when the function of a call returns. -/
def returned (w : World) (i : Interceptor) (d : Desk) (c : Course) (hold : Decimal) : Desk :=
  (d.authorize w i.scopeId hold (txt "call authorization")).2.meanwhile w c.meanwhile

include placed in
theorem enter_placed : SpendGuard.enter w { scopeId := i.scopeId, hold := hold } d =
    (some (i.guardOf hold a), (d.authorize w i.scopeId hold (txt "call authorization")).2) := by
  rw [SpendGuard.enter, show orElse _ (txt "call authorization") = txt "call authorization" from
    rfl, show d.authorize w i.scopeId hold (txt "call authorization") =
      (.ok (.authorization a), _) from Prod.ext placed rfl]
  rfl

include sized placed

theorem invoke_placed :
    i.invoke w d c = i.guarded w (returned w i d c hold) c (i.guardOf hold a) := by
  simp only [invoke, sized, enter_placed placed, returned]

theorem ainvoke_placed : (i.ainvoke w d c).2 =
    if c.cancelled then ((i.guardOf hold a).exit w (returned w i d c hold) true).2
    else (i.guarded w (returned w i d c hold) c (i.guardOf hold a)).2 := by
  simp only [ainvoke, sized, enter_placed placed, returned]
  split_ifs <;> rfl

/-- A call whose hold is placed asks once about it, of the governor as it is then. -/
theorem deeds_metered (awaits : Bool) : ∃ ask, ask.hold = a ∧
    (i.metered w d c awaits).2.deeds = d.deeds ++ [(returned w i d c hold).deed w ask] := by
  have hguarded := deeds_guarded (w := w) i (returned w i d c hold) c (s := i.guardOf hold a) rfl
  cases awaits with
  | false => rwa [metered, if_neg Bool.false_ne_true, invoke_placed sized placed]
  | true =>
    rw [metered, if_pos rfl, ainvoke_placed sized placed]
    split_ifs
    · exact ⟨_, rfl, SpendGuard.exit_raised _ rfl⟩
    · exact hguarded

/-- A call is charged exactly where its response, if there was one, is payable. -/
theorem charged_iff (awaits : Bool) :
    Charged w i.tariff a (c.served awaits) d (i.metered w d c awaits).2 ↔
      ∀ response, c.served awaits = some response → i.tariff.Payable response := by
  -- nothing is asked about a hold while others are served
  have same (served : Option Reply) {d' : Desk} : Charged w i.tariff a served d d' ↔
      Charged w i.tariff a served (returned w i d c hold) d' := Iff.rfl
  rw [same]
  cases awaits with
  | false =>
    rw [metered, if_neg Bool.false_ne_true, invoke_placed sized placed]
    exact charged_guarded i _ c rfl rfl
  | true =>
    rw [metered, if_pos rfl, ainvoke_placed sized placed]
    cases hcancelled : c.cancelled with
    | false =>
      have hserved : c.served true = c.response := by simp [Course.served, hcancelled]
      rw [hserved, if_neg Bool.false_ne_true]
      exact charged_guarded i _ c rfl rfl
    | true =>
      have hserved : c.served true = none := by simp [Course.served, hcancelled]
      rw [hserved, if_pos rfl, charged_raised _ _ _ (SpendGuard.exit_raised _ rfl)]
      simp

end Interceptor

/-! ### A call -/

/-- A governor of one root of ten dollars. -/
def sampleDesk : Desk where
  governor := Governor.run sampleWorld (Governor.new USD samplePolicy false)
    [.call (.openRoot (txt "a") (wholeAmount 10) [])]

/-- Five dollars per million tokens read, twenty-five per million written. -/
def sampleRates : ModelPricing where
  modelId := txt "m"
  inputUsdPerMtok := Decimal.ofInt 5
  outputUsdPerMtok := Decimal.ofInt 25
  cacheReadUsdPerMtok := .finite false 5 (-1)
  cacheWriteUsdPerMtok := .finite false 625 (-2)

/-- An interceptor that reads the usage as it does by default. -/
def sampleInterceptor : Interceptor where
  scopeId := txt "a"
  tariff :=
    { extractUsage := defaultUsageExtractor
      pricing := sampleRates
      pricingIsExplicit := true
      pricingFor := fun _ => none }

/-- A call with a hold of a dollar. -/
def sampleCourse (response : Reply) : Course where
  hold := some (Decimal.ofInt 1)
  cancelled := false
  meanwhile := []
  response := some response

theorem sampleDesk_placed : ∃ a, (sampleDesk.authorize sampleWorld (txt "a") (Decimal.ofInt 1)
    (txt "call authorization")).1 = .ok (.authorization a) := by
  have hplaced : (heldIn (sampleDesk.authorize sampleWorld (txt "a") (Decimal.ofInt 1)
      (txt "call authorization")).1).isEmpty = false := by decide +kernel
  refine exists_of_heldIn fun hnil => ?_
  rw [hnil] at hplaced
  cases hplaced

/-- A response to a call that reads a thousand tokens. -/
def sampleResponse : Reply := .mapping [(txt "input_tokens", .int 1000)]

theorem sampleResponse_payable : sampleInterceptor.tariff.Payable sampleResponse := by
  have howed : (match sampleInterceptor.tariff.price sampleResponse with
      | .error _ => none
      | .ok priced => (money priced.2).toOption) = some (.finite false 500000 (-8)) := by
    decide +kernel
  refine payable_iff.mpr ?_
  split at howed
  · cases howed
  · rename_i priced hpriced
    cases hmoney : money priced.2 with
    | error e => simp [hmoney, Except.toOption] at howed
    | ok owed =>
      rw [hmoney, Except.toOption, Option.some.injEq] at howed
      subst howed
      exact ⟨priced, _, hpriced, hmoney, by decide +kernel⟩

/-- Whether a sum has room, decided. -/
def hasRoom : Value → Bool
  | .finite q => decide (|q| ≤ 10 ^ 40)
  | .infinite _ => false

theorem roomy_of_hasRoom {v : Value} (h : hasRoom v = true) : Roomy v := by
  cases v with
  | finite q => exact ⟨q, rfl, of_decide_eq_true h⟩
  | infinite s => cases h

/-- Whether a governor serves a hold as open and has room to settle it, decided. -/
def servesOpen (g : Governor) (a : Authorization) : Bool :=
  decide (g.ledger.openAuths.get? a.authorizationId = some a) && decide (a.scopeId ≠ []) &&
    (match a.amount with
      | .finite false n e => decide (n ≤ 10 ^ 20) && decide (e = -quantumPlaces)
      | _ => false) &&
    hasRoom (g.ledger.state.balance a.scopeId) && hasRoom (g.ledger.state.spentBy a.scopeId) &&
    hasRoom g.ledger.state.totals.spent && hasRoom g.ledger.state.totals.holdsOpen

/-- What a new governor serves as open after a run is open, if there is room to settle it. -/
theorem open_of_run (unit : Unit) {g : Governor} (commands : List Governor.Command)
    {a : Authorization}
    (hrun : (Governor.new unit samplePolicy false).run sampleWorld commands = g)
    (hdraws : g.draws ≤ 2 ^ 128) (h : servesOpen g a = true) : g.Open sampleWorld a := by
  simp only [servesOpen, Bool.and_eq_true, decide_eq_true_eq] at h
  obtain ⟨⟨⟨⟨⟨⟨hopened, hscope⟩, hamount⟩, hbalance⟩, hspentBy⟩, hspent⟩, hholds⟩ := h
  have hsound : ∃ c, g.Sound sampleWorld unit c := by
    rw [← hrun]
    exact Governor.run_sound samplePolicy commands (sampleWorld_distinct (hrun.symm ▸ hdraws))
  have hwhole : ∃ n ≤ 10 ^ 20, a.amount = .finite false n (-quantumPlaces) := by
    split at hamount
    · rename_i n e heq
      rw [Bool.and_eq_true, decide_eq_true_eq, decide_eq_true_eq] at hamount
      exact ⟨n, hamount.1, hamount.2 ▸ heq⟩
    · cases hamount
  exact ⟨⟨unit, hsound⟩, hopened, hscope, hwhole, roomy_of_hasRoom hbalance,
    roomy_of_hasRoom hspentBy, roomy_of_hasRoom hspent, roomy_of_hasRoom hholds⟩

/-- The hold the sample call places is open until it is settled. -/
theorem sampleDesk_open {a : Authorization} (h : (sampleDesk.authorize sampleWorld (txt "a")
    (Decimal.ofInt 1) (txt "call authorization")).1 = .ok (.authorization a)) :
    (sampleDesk.authorize sampleWorld (txt "a") (Decimal.ofInt 1)
      (txt "call authorization")).2.governor.Open sampleWorld a := by
  have hserves : ((heldIn (sampleDesk.authorize sampleWorld (txt "a") (Decimal.ofInt 1)
      (txt "call authorization")).1).all (servesOpen (sampleDesk.authorize sampleWorld (txt "a")
        (Decimal.ofInt 1) (txt "call authorization")).2.governor)) = true := by
    decide +kernel
  rw [h, heldIn, List.all_cons, Bool.and_eq_true] at hserves
  refine open_of_run USD [.call (.openRoot (txt "a") (wholeAmount 10) []),
    .call (.authorize (txt "a") (wholeAmount 1) (txt "call authorization") none)] rfl ?_ hserves.1
  decide +kernel

theorem charged_iff_sampleCourse : ∃ a x,
    (sampleInterceptor.metered sampleWorld sampleDesk (sampleCourse sampleResponse) true).2.deeds =
      [x] ∧ x.Open sampleWorld ∧
    Charged sampleWorld sampleInterceptor.tariff a (some sampleResponse) sampleDesk
      (sampleInterceptor.metered sampleWorld sampleDesk (sampleCourse sampleResponse) true).2 := by
  obtain ⟨a, ha⟩ := sampleDesk_placed
  obtain ⟨ask, rfl, hdeeds⟩ := Interceptor.deeds_metered (i := sampleInterceptor)
    (d := sampleDesk) (c := sampleCourse sampleResponse) rfl ha true
  refine ⟨ask.hold, _, hdeeds, sampleDesk_open ha, ?_⟩
  refine (Interceptor.charged_iff (i := sampleInterceptor) (d := sampleDesk)
    (c := sampleCourse sampleResponse) rfl ha true).mpr fun response hresponse => ?_
  cases hresponse
  exact sampleResponse_payable

/-- A response without token counts is served for nothing: the hold placed for it is voided. -/
theorem unpriced_not_charged : ∃ a, (sampleDesk.authorize sampleWorld (txt "a") (Decimal.ofInt 1)
    (txt "call authorization")).1 = .ok (.authorization a) ∧
      ¬Charged sampleWorld sampleInterceptor.tariff a (some (.object [])) sampleDesk
        (sampleInterceptor.metered sampleWorld sampleDesk (sampleCourse (.object [])) false).2 := by
  obtain ⟨a, ha⟩ := sampleDesk_placed
  refine ⟨a, ha, ?_⟩
  rw [Interceptor.metered, if_neg Bool.false_ne_true,
    Interceptor.invoke_placed (i := sampleInterceptor) (d := sampleDesk)
      (c := sampleCourse (.object [])) rfl ha]
  intro hcharged
  obtain ⟨usage, -, -, -, husage, -⟩ :=
    (charged_guarded sampleInterceptor _ (sampleCourse (.object [])) rfl rfl).mp hcharged
      _ rfl
  have herror : defaultUsageExtractor (.object []) = .error .typeError := rfl
  cases herror.symm.trans husage

end Charging

end AgentGov.Metering
