import AgentGov.Calls
import AgentGov.Metering.Interceptor
import AgentGov.Metering.Reports

/-!
# A callback handler

A handler places a hold as a model call starts, keeps it in a table under the call's run id, and
takes it out to settle it as the call ends, to void it as the call fails, or with all others to
release them (`src/src/agentgov/adapters/langchain.py`, lines 252–346). The table is changed under
a lock and the governor is called outside it, so the calls of a handler are taken in the steps
between.

A start under an id that is in the table drops the hold that was there, and an end that raises
before it captures drops the hold it took out.

## Main definitions

* `AgentGov.Metering.GovernedCallbackHandler`: the handler, with its calls in progress.
* `AgentGov.Metering.GovernedCallbackHandler.step`: the steps of its calls.
* `AgentGov.Metering.GovernedCallbackHandler.StrandsNone`: what is claimed of its holds.

## Main results

* `AgentGov.Metering.GovernedCallbackHandler.strands_none`: calls that go as they should strand no
  hold.
* `AgentGov.Metering.GovernedCallbackHandler.restarted_strands`: a run id started twice strands one.
-/

open Foundation

namespace AgentGov.Metering

/-- Whether an exception is an `AgentGovError`. -/
def isAgentGovError : Exception → Bool
  | .rule (.integrity _ _) => true
  | .rule _ | .value _ | .dateOverflow | .callers _ => false
  | _ => true

/-! ### The handler -/

/-- A call of the handler, between two of its steps. -/
inductive HandlerCall
  /-- A start has placed a hold, which is not in the table yet. -/
  | storing (run : UUID) (a : Authorization)
  /-- An end has taken a hold out of the table. -/
  | settling (a : Authorization) (response : Report)
  /-- An error has taken a hold out of the table. -/
  | failing (a : Authorization)
  /-- `release_all` has emptied the table, and some holds are left to void. -/
  | releasing (memo : Text) (rest : List Authorization)

/-- The holds a call of the handler has in hand. -/
def HandlerCall.holds : HandlerCall → List Authorization
  | storing _ a | settling a _ | failing a => [a]
  | releasing _ rest => rest

/-- The run a call of the handler is about to put in the table. -/
def HandlerCall.stores : HandlerCall → Option UUID
  | storing run _ => some run
  | _ => none

/-- Why a hold is resolved. -/
inductive Cause
  | ended (response : Report)
  | errored
  | released

/-- `GovernedCallbackHandler`, with its calls in progress. -/
structure GovernedCallbackHandler where
  desk : Desk
  /-- `_holds` -/
  holds : Dict UUID Authorization := ∅
  calls : List HandlerCall := []
  /-- Why each hold was resolved. -/
  causes : List Cause := []
  /-- The runs that have ended or errored since they were last started. -/
  done : List UUID := []

/-- What happens to a handler. -/
inductive HandlerEvent
  /-- `on_llm_start` or `on_chat_model_start`, with the size of the hold if the loop check and the
  sizing let it. -/
  | begins (run : UUID) (hold : Option Decimal)
  /-- `on_llm_end` -/
  | ends (run : UUID) (response : Report)
  /-- `on_llm_error` -/
  | errors (run : UUID)
  /-- `release_all` -/
  | releases (memo : Text)
  /-- A call in progress takes its next step. -/
  | proceeds (call : ℕ)
  /-- What others do with the governor. -/
  | others (commands : List Governor.Command)

namespace GovernedCallbackHandler

variable (w : World) (i : Interceptor) (s : GovernedCallbackHandler)

/-- Ask the governor about a hold. -/
def ask (ask : Ask) (cause : Cause) : Except Exception Answer × GovernedCallbackHandler :=
  let r := s.desk.settle w ask
  (r.1, { s with desk := r.2, causes := s.causes ++ [cause] })

/-- `_begin`, as far as the hold is placed. -/
def begin (run : UUID) (hold : Decimal) : GovernedCallbackHandler :=
  match s.desk.authorize w i.scopeId hold (txt "langchain call authorization") with
  | (.ok (.authorization a), d) =>
    { s with
      desk := d
      calls := s.calls ++ [.storing run a]
      done := s.done.filter (· ≠ run) }
  | (_, d) => { s with desk := d }

/-- `_claim`: take a hold out of the table for a call, if it is there. -/
def claim (run : UUID) (call : Authorization → HandlerCall) : GovernedCallbackHandler :=
  let s := { s with done := run :: s.done }
  match s.holds.get? run with
  | none => s
  | some a => { s with holds := s.holds.erase run, calls := s.calls ++ [call a] }

/-- `on_llm_end`, once it has claimed a hold: settle the call at its true cost. -/
def settle (a : Authorization) (response : Report) :
    Except CallFault PUnit.{1} × GovernedCallbackHandler :=
  let captured (cost : Decimal) (memo : Text) :=
    let r := s.ask w (.capture a cost memo) (.ended response)
    ((r.1.mapError CallFault.governor).map fun _ => PUnit.unit, r.2)
  match extractLangchainUsage response with
  | .error .typeError => captured a.amount (txt "langchain call, usage unavailable")
  | .error fault => (.error (.price (.read fault)), s)
  | .ok usage =>
    match i.tariff.pricing.costOf usage with
    | .error e => (.error (.price (.decimal e)), s)
    | .ok cost => captured cost (txt "langchain model call")

/-- The next step of a call in progress, which is no longer among the calls. -/
def proceed : HandlerCall → GovernedCallbackHandler
  | .storing run a => { s with holds := s.holds.set run a }
  | .settling a response => (s.settle w i a response).2
  | .failing a => (s.ask w (.void a (txt "langchain call failed")) .errored).2
  | .releasing _ [] => s
  | .releasing memo (a :: rest) =>
    match s.ask w (.void a memo) .released with
    | (.error e, s) =>
      -- another exception leaves the loop
      if isAgentGovError e then { s with calls := s.calls ++ [.releasing memo rest] } else s
    | (.ok _, s) => { s with calls := s.calls ++ [.releasing memo rest] }

/-- A handler after an event. -/
def step : HandlerEvent → GovernedCallbackHandler
  | .begins _ none => s
  | .begins run (some hold) => s.begin w i run hold
  | .ends run response => s.claim run (.settling · response)
  | .errors run => s.claim run .failing
  | .releases memo => { s with holds := ∅, calls := s.calls ++ [.releasing memo s.holds.values] }
  | .proceeds call =>
    match s.calls[call]? with
    | none => s
    | some c => { s with calls := s.calls.eraseIdx call }.proceed w i c
  | .others commands => { s with desk := s.desk.meanwhile w commands }

/-- A handler after any events. -/
def run : GovernedCallbackHandler → List HandlerEvent → GovernedCallbackHandler :=
  List.foldl (step w i)

/-- A handler of a governor. -/
def new (g : Governor) : GovernedCallbackHandler where
  desk := { governor := g }

/-! ### What is claimed of a handler -/

/-- Whether a hold was resolved as its cause says: captured at the price of the usage of a response,
or at its full amount where no usage is read, or voided. -/
def Fits (i : Interceptor) : Cause → Deed → Prop
  | .ended response, x =>
    match extractLangchainUsage response with
    | .ok usage => ∃ price, i.tariff.pricing.costOf usage = .ok price ∧ x.Charges price
    | .error _ => x.Charges x.ask.hold.amount
  | .errored, x | .released, x => x.Frees

/-- What is claimed of a handler: every hold it placed is in the table, in the hands of a call in
progress, or resolved by exactly one capture or void; no hold of a run that has ended or errored is
in the table; and every hold is resolved as its cause says. -/
structure StrandsNone (i : Interceptor) (s : GovernedCallbackHandler) : Prop where
  once : (s.desk.deeds.map (fun x => x.ask.hold) ++ s.calls.flatMap HandlerCall.holds ++
    s.holds.values).Perm s.desk.placed
  ended : ∀ run ∈ s.done, s.holds.get? run = none
  fits : List.Forall₂ (Fits i) s.causes s.desk.deeds

/-- Whether the end of a call is captured: its response reports a usage whose price is an amount the
governor takes, or no usage at all. -/
def Captures (i : Interceptor) (response : Report) : Prop :=
  extractLangchainUsage response = .error .typeError ∨
    ∃ usage price q, extractLangchainUsage response = .ok usage ∧
      i.tariff.pricing.costOf usage = .ok price ∧ price.value? = some (.finite q) ∧
      0 ≤ q ∧ q ≤ maxAmount

/-- Whether a response is one whose end is captured. -/
def captures (i : Interceptor) (response : Report) : Bool :=
  match extractLangchainUsage response with
  | .error .typeError => true
  | .error _ => false
  | .ok usage =>
    match i.tariff.pricing.costOf usage with
    | .error _ => false
    | .ok price =>
      match price.value? with
      | some (.finite q) => 0 ≤ q && q ≤ maxAmount
      | _ => false

theorem captures_iff {i : Interceptor} {response : Report} :
    captures i response = true ↔ Captures i response := by
  unfold captures Captures
  cases hread : extractLangchainUsage response with
  | error fault => cases fault <;> simp
  | ok usage =>
    cases hprice : i.tariff.pricing.costOf usage with
    | error e => simp [hprice]
    | ok price =>
      cases hvalue : price.value? with
      | none => simp [hprice, hvalue]
      | some value => cases value <;> simp [hprice, hvalue]

instance (i : Interceptor) (response : Report) : Decidable (Captures i response) :=
  decidable_of_iff _ captures_iff

/-- Whether a call in progress can take its next step: its run id is not in the table, its response
can be captured, or the governor raises nothing but its own errors. -/
def Proceeds (w : World) (i : Interceptor) (s : GovernedCallbackHandler) : HandlerCall → Prop
  | .storing run _ => s.holds.get? run = none
  | .settling _ response => Captures i response
  | .failing _ | .releasing _ [] => True
  | .releasing memo (a :: _) =>
    ∀ e, (s.desk.settle w (.void a memo)).1 = .error e → isAgentGovError e = true

instance (w : World) (i : Interceptor) (s : GovernedCallbackHandler) :
    ∀ c, Decidable (s.Proceeds w i c)
  | .storing run _ => inferInstanceAs (Decidable (s.holds.get? run = none))
  | .settling _ response => inferInstanceAs (Decidable (Captures i response))
  | .failing _ | .releasing _ [] => .isTrue trivial
  | .releasing memo (a :: _) =>
    match h : (s.desk.settle w (.void a memo)).1 with
    | .ok _ => .isTrue fun _ he => nomatch h.symm.trans he
    | .error e => decidable_of_iff (isAgentGovError e = true)
      ⟨fun hgov _ he => Except.error.inj (h.symm.trans he) ▸ hgov, fun hall => hall e h⟩

/-- Whether an event goes as it should. A run ends after its start has returned. -/
def Lawful (w : World) (i : Interceptor) (s : GovernedCallbackHandler) : HandlerEvent → Prop
  | .ends run _ | .errors run => ∀ c ∈ s.calls, c.stores ≠ some run
  | .proceeds call => ∀ c, s.calls[call]? = some c → s.Proceeds w i c
  | _ => True

/-- Whether every event of a run goes as it should. -/
def AllLawful (w : World) (i : Interceptor) : GovernedCallbackHandler → List HandlerEvent → Prop
  | _, [] => True
  | s, e :: events => s.Lawful w i e ∧ AllLawful w i (s.step w i e) events

instance (w : World) (i : Interceptor) (s : GovernedCallbackHandler) :
    ∀ e, Decidable (s.Lawful w i e)
  | .ends run _ | .errors run => inferInstanceAs (Decidable (∀ c ∈ s.calls, c.stores ≠ some run))
  | .proceeds call =>
    match h : s.calls[call]? with
    | none => .isTrue fun _ hc => nomatch h.symm.trans hc
    | some c => decidable_of_iff (s.Proceeds w i c)
      ⟨fun hp _ hc => Option.some.inj (h.symm.trans hc) ▸ hp, fun hall => hall c h⟩
  | .begins _ _ | .releases _ | .others _ => .isTrue trivial

instance decidableAllLawful (w : World) (i : Interceptor) :
    ∀ s events, Decidable (AllLawful w i s events)
  | _, [] => .isTrue trivial
  | s, e :: events =>
    have := decidableAllLawful w i (s.step w i e) events
    inferInstanceAs (Decidable (s.Lawful w i e ∧ AllLawful w i (s.step w i e) events))

/-! ### The amount of a hold -/

section Amounts

variable {w : World} {g : Governor}

/-- Whether the amount of a hold is one the governor takes as a cost. -/
def Capturable (a : Authorization) : Prop :=
  ∃ sign c e, a.amount = .finite sign c e ∧ 0 ≤ Decimal.rat sign c e ∧
    Decimal.rat sign c e ≤ maxAmount

/-- The amount of a line that moves money is positive, and at most the greatest. -/
theorem capturable_of_line {line : LedgerLine} {e : LedgerEntry} (h : e.Records line)
    (moves : line.entryType.isZeroValue = false) : Capturable (authorizationFor e) := by
  have hcheck := h.amount
  unfold checkLine at hcheck
  split_ifs at hcheck with hdir href
  · obtain ⟨amount, -, hcheck⟩ := bind_eq_ok.mp hcheck
    cases hcheck
  · obtain ⟨amount, hamount, hcheck⟩ := bind_eq_ok.mp hcheck
    have heq : amount = e.amount := by
      split at hcheck <;> cases hcheck
      rfl
    subst heq
    rw [lineAmount, if_neg (by simp [moves])] at hamount
    obtain ⟨coerced, hcoerced, hamount⟩ := bind_eq_ok.mp hamount
    split_ifs at hamount with hexact hpositive
    cases hamount
    replace hcoerced := lift_eq_ok.mp hcoerced
    unfold coerce coerceBy at hcoerced
    split at hcoerced
    · cases hcoerced
    · cases hcoerced
    · rename_i sign c e' hline
      split_ifs at hcoerced with hlarge hplaces
      · exact absurd rfl hplaces
      · obtain ⟨n, hn, hworth⟩ := quantizeTo_worth (by decide) hcoerced
        refine ⟨_, _, _, hn, ?_, ?_⟩
        · rw [hn, worth_finite rfl, not_le] at hpositive
          exact (Value.finite_lt_finite.mp hpositive).le
        · rw [hworth, div_le_iff₀ (by positivity)]
          have hfloor := Int.floor_le (Decimal.rat sign c e' * 10 ^ quantumPlaces)
          have hle : Decimal.rat sign c e' ≤ maxAmount := (le_abs_self _).trans (not_lt.mp hlarge)
          exact hfloor.trans (mul_le_mul_of_nonneg_right hle (by positivity))
    · cases hcoerced

/-- A hold that is placed has an amount the governor takes as a cost. -/
theorem meets_authorize (scope : Text) (hold : Decimal) (memo : Text) :
    Governor.Meets w Governor.Work (fun r _ => ∀ a ∈ heldIn r, Capturable a)
      (Mutation.authorize scope (.number (some hold)) memo none).program g := by
  have hraise (e : Exception) : ∀ a ∈ heldIn (.error e), Capturable a := by simp [heldIn]
  rw [show (Mutation.authorize scope (.number (some hold)) memo none).program =
    Op.authorize scope (.number (some hold)) memo none from rfl, ← bind_pure (Op.authorize _ _ _ _)]
  refine Governor.meets_authorize_bind scope _ memo hraise fun held => ?_
  rw [bind_pure, Op.placeHold, Governor.meets_requireNode_bind hraise]
  intro n known
  rw [Governor.meets_assertNotHalted_bind hraise]
  intro active
  refine Governor.meets_recordVelocity_bind known (fun e _ _ => hraise e) fun t hkeeps hidle => ?_
  rw [Governor.meets_served_bind]
  dsimp only
  split_ifs with hshort htrips
  · exact absurd htrips (by simp)
  · rw [Governor.meets_policy_bind]
    split_ifs
    · exact hraise _
    · exact Governor.meets_trip_bind (hkeeps.ledger ▸ known) (fun e _ _ => hraise e)
        fun _ _ => hraise _
  · refine Governor.meets_commitFor_bind (.hold scope held _ none n (hkeeps.ledger ▸ known) ?_ hshort
      (hidle.unused fun c hc => by cases hc)) (fun e _ => hraise e) fun e p hp => ?_
    · rw [Governor.Active, hkeeps.ledger]
      exact active
    · rw [Governor.meets_answered]
      intro a ha
      obtain rfl : a = authorizationFor e := by simpa [heldIn] using ha
      exact capturable_of_line (List.forall₂_cons.mp (Staging.post₁_ok hp).records).1 rfl

/-- A hold that is placed can be captured at its amount. -/
theorem capturable_placed (d : Desk) (scope : Text) (hold : Decimal) (memo : Text) :
    ∀ a ∈ heldIn (d.authorize w scope hold memo).1, Capturable a :=
  (meets_authorize (w := w) (g := d.governor) scope hold memo).run

/-- A capture of an amount the governor takes charges it. -/
theorem charges_amount (d : Desk) (a : Authorization) (memo : Text) {sign : Bool} {c : ℕ} {e : ℤ}
    (hpos : 0 ≤ Decimal.rat sign c e) (hmax : Decimal.rat sign c e ≤ maxAmount) :
    (d.deed w (.capture a (.finite sign c e) memo)).Charges (.finite sign c e) := by
  obtain ⟨settled, taken, hzero⟩ := cost_finite hpos hmax d.governor.ledger.state.unit
  refine charges_taken d a memo ?_ taken hzero
  rw [worth_finite rfl]
  exact Value.finite_le_finite.mpr hpos

end Amounts

/-! ### Steps that strand nothing -/

section Strands

variable {w : World} {i : Interceptor} {s : GovernedCallbackHandler} {a : Authorization}

/-- What holds of a handler whose calls go as they should, some holds being in hand. -/
structure Sound (i : Interceptor) (s : GovernedCallbackHandler) (taken : List Authorization) :
    Prop where
  once : (s.desk.deeds.map (fun x => x.ask.hold) ++ s.calls.flatMap HandlerCall.holds ++
    (taken ++ s.holds.values)).Perm s.desk.placed
  ended : ∀ run ∈ s.done, s.holds.get? run = none ∧ ∀ c ∈ s.calls, c.stores ≠ some run
  fits : List.Forall₂ (Fits i) s.causes s.desk.deeds
  amounts : ∀ a ∈ s.desk.placed, Capturable a

theorem Sound.strandsNone (h : Sound i s []) : StrandsNone i s where
  once := h.once
  ended run hrun := (h.ended run hrun).1
  fits := h.fits

theorem sound_new (i : Interceptor) (g : Governor) : Sound i (new g) [] := by
  constructor <;> simp [new, Dict.values]

/-- A hold in hand is asked about. -/
theorem Sound.ask {taken : List Authorization} (h : Sound i s (a :: taken)) {ask : Ask}
    (hold : ask.hold = a) (cause : Cause) (fits : Fits i cause (s.desk.deed w ask)) :
    Sound i (s.ask w ask cause).2 taken where
  once := by
    refine List.perm_iff_count.mpr fun x => ?_
    have hx := List.perm_iff_count.mp h.once x
    simp only [GovernedCallbackHandler.ask, Desk.deeds_settle, Desk.placed_settle, List.map_append,
      List.map_cons, List.map_nil, List.count_append, List.count_cons, List.count_nil, Desk.deed,
      hold] at hx ⊢
    omega
  ended := h.ended
  fits := List.rel_append h.fits (.cons fits .nil)
  amounts := h.amounts

/-- A call takes its next step with its holds in hand. -/
theorem Sound.take (h : Sound i s []) {call : ℕ} {c : HandlerCall} (hc : s.calls[call]? = some c) :
    Sound i { s with calls := s.calls.eraseIdx call } c.holds where
  once := by
    obtain ⟨hlt, rfl⟩ := List.getElem?_eq_some_iff.mp hc
    refine List.perm_iff_count.mpr fun x => ?_
    have hx := List.perm_iff_count.mp h.once x
    have hcalls := List.perm_iff_count.mp
      ((List.getElem_cons_eraseIdx_perm hlt).flatMap_right HandlerCall.holds) x
    simp only [List.flatMap_cons, List.count_append, List.count_nil] at hx hcalls ⊢
    omega
  ended run hrun :=
    ⟨(h.ended run hrun).1, fun c hc => (h.ended run hrun).2 c (List.mem_of_mem_eraseIdx hc)⟩
  fits := h.fits
  amounts := h.amounts

/-- A hold is put in the table under an id that is not in it. -/
theorem Sound.store (h : Sound i s [a]) {run : UUID} (hnone : s.holds.get? run = none)
    (hrun : run ∉ s.done) : Sound i { s with holds := s.holds.set run a } [] where
  once := by
    refine List.perm_iff_count.mpr fun x => ?_
    have hx := List.perm_iff_count.mp h.once x
    simp only [Dict.values, Dict.items_set_of_get?_eq_none hnone, List.map_append, List.map_cons,
      List.map_nil, List.count_append, List.count_nil] at hx ⊢
    omega
  ended other hover := by
    refine ⟨?_, (h.ended other hover).2⟩
    rw [Dict.get?_set, if_neg fun heq : other = run => hrun (heq ▸ hover)]
    exact (h.ended other hover).1
  fits := h.fits
  amounts := h.amounts

/-- A response that can be captured is. -/
theorem Sound.settle (h : Sound i s [a]) (response : Report) (captures : Captures i response) :
    Sound i (s.settle w i a response).2 [] := by
  have ha : a ∈ s.desk.placed := h.once.subset (by simp)
  rcases captures with hnone | ⟨usage, price, q, husage, hprice, hq, hpos, hmax⟩
  · simp only [GovernedCallbackHandler.settle, hnone]
    refine h.ask rfl _ ?_
    obtain ⟨sign, c, e, hamount, hpos, hmax⟩ := h.amounts a ha
    simp only [Fits, hnone]
    change Deed.Charges _ a.amount
    rw [hamount]
    exact charges_amount s.desk a _ hpos hmax
  · simp only [GovernedCallbackHandler.settle, husage, hprice]
    refine h.ask rfl _ ?_
    simp only [Fits, husage]
    refine ⟨price, hprice, ?_⟩
    cases price with
    | infinity sign => cases hq
    | nan sign signaling payload => cases hq
    | finite sign c e =>
      obtain rfl : Decimal.rat sign c e = q := by simpa [Decimal.value?] using hq
      exact charges_amount s.desk a _ hpos hmax

/-- The holds in hand are left to a call in progress that stores none. -/
theorem Sound.push {c : HandlerCall} (h : Sound i s c.holds) (hc : c.stores = none) :
    Sound i { s with calls := s.calls ++ [c] } [] where
  once := by
    refine List.perm_iff_count.mpr fun x => ?_
    have hx := List.perm_iff_count.mp h.once x
    simp only [List.flatMap_append, List.flatMap_cons, List.flatMap_nil, List.count_append,
      List.count_nil] at hx ⊢
    omega
  ended run hrun := by
    refine ⟨(h.ended run hrun).1, ?_⟩
    simp only [List.forall_mem_append, List.forall_mem_singleton, hc]
    exact ⟨(h.ended run hrun).2, by simp⟩
  fits := h.fits
  amounts := h.amounts

/-- The next step of a call that can take it. -/
theorem Sound.proceed {c : HandlerCall} (h : Sound i s c.holds) (proceeds : s.Proceeds w i c)
    (hstores : ∀ run ∈ s.done, c.stores ≠ some run) : Sound i (s.proceed w i c) [] := by
  cases c with
  | storing run a => exact h.store proceeds fun hover => hstores run hover rfl
  | settling a response => exact h.settle response proceeds
  | failing a => exact h.ask rfl .errored (frees_void s.desk a _)
  | releasing memo rest =>
    cases rest with
    | nil => exact h
    | cons a rest =>
      have hasked := h.ask (w := w) (show (Ask.void a memo).hold = a from rfl) .released
        (frees_void s.desk a memo)
      have hpush := hasked.push (c := .releasing memo rest) rfl
      simp only [GovernedCallbackHandler.proceed]
      split
      · rename_i e s' he
        have herror : isAgentGovError e = true := proceeds e (congrArg Prod.fst he)
        rw [if_pos herror]
        rw [he] at hpush
        exact hpush
      · rename_i answer s' hanswer
        rw [hanswer] at hpush
        exact hpush

/-- A start that places its hold is in progress, and its run is not over. -/
theorem Sound.begin (h : Sound i s []) (run : UUID) (hold : Decimal) :
    Sound i (s.begin w i run hold) [] := by
  have hplaced : (s.desk.authorize w i.scopeId hold (txt "langchain call authorization")).2.placed =
      s.desk.placed ++
        heldIn (s.desk.authorize w i.scopeId hold (txt "langchain call authorization")).1 := rfl
  have hdeeds := Desk.deeds_authorize w s.desk i.scopeId hold (txt "langchain call authorization")
  have hamounts : ∀ a ∈ (s.desk.authorize w i.scopeId hold
      (txt "langchain call authorization")).2.placed, Capturable a := by
    rw [hplaced, List.forall_mem_append]
    exact ⟨h.amounts, capturable_placed s.desk i.scopeId hold _⟩
  unfold GovernedCallbackHandler.begin
  split
  · rename_i a d hd
    rw [hd] at hplaced hdeeds hamounts
    replace hplaced : d.placed = s.desk.placed ++ [a] := hplaced
    replace hdeeds : d.deeds = s.desk.deeds := hdeeds
    refine ⟨?_, fun other hother => ?_, ?_, hamounts⟩
    · refine List.perm_iff_count.mpr fun x => ?_
      have hx := List.perm_iff_count.mp h.once x
      simp only [hplaced, hdeeds, List.flatMap_append, List.flatMap_cons, List.flatMap_nil,
        HandlerCall.holds, List.count_append, List.count_nil] at hx ⊢
      omega
    · obtain ⟨hover, hne⟩ := List.mem_filter.mp hother
      refine ⟨(h.ended other hover).1, ?_⟩
      simp only [List.forall_mem_append, List.forall_mem_singleton, HandlerCall.stores]
      exact ⟨(h.ended other hover).2, fun heq => by simp [Option.some.inj heq] at hne⟩
    · simpa only [hdeeds] using h.fits
  · rename_i r d hnone hd
    rw [hd] at hplaced hdeeds hamounts
    have hheld : heldIn r = [] := heldIn_eq_nil hnone
    replace hplaced : d.placed = s.desk.placed := hplaced.trans (by rw [hheld, List.append_nil])
    replace hdeeds : d.deeds = s.desk.deeds := hdeeds
    refine ⟨?_, h.ended, ?_, hamounts⟩
    · simpa only [hplaced, hdeeds] using h.once
    · simpa only [hdeeds] using h.fits

/-- An end or an error takes the hold of its run out of the table. -/
theorem Sound.claim (h : Sound i s []) (run : UUID) (call : Authorization → HandlerCall)
    (hholds : ∀ a, (call a).holds = [a]) (hstores : ∀ a, (call a).stores = none)
    (started : ∀ c ∈ s.calls, c.stores ≠ some run) : Sound i (s.claim run call) [] := by
  unfold GovernedCallbackHandler.claim
  dsimp only
  split
  · rename_i hnone
    exact ⟨h.once, List.forall_mem_cons.mpr ⟨⟨hnone, started⟩, h.ended⟩, h.fits, h.amounts⟩
  · rename_i a ha
    have hitems := (Dict.items_perm_of_get? ha).map Prod.snd
    refine Sound.push (s := { s with done := run :: s.done, holds := s.holds.erase run })
      (c := call a) ⟨?_, List.forall_mem_cons.mpr ⟨⟨by simp, started⟩, fun other hother => ?_⟩,
        h.fits, h.amounts⟩ (hstores a)
    · refine List.perm_iff_count.mpr fun x => ?_
      have hx := List.perm_iff_count.mp h.once x
      have hvalues := List.perm_iff_count.mp hitems x
      simp only [hholds, Dict.values, List.map_cons, List.count_append, List.count_cons,
        List.count_nil] at hx hvalues ⊢
      omega
    · refine ⟨?_, (h.ended other hother).2⟩
      rw [Dict.get?_erase]
      split_ifs
      · rfl
      · exact (h.ended other hother).1

/-- `release_all` takes every hold out of the table. -/
theorem Sound.release (h : Sound i s []) (memo : Text) :
    Sound i { s with holds := ∅, calls := s.calls ++ [.releasing memo s.holds.values] } [] := by
  refine Sound.push (s := { s with holds := ∅ }) (c := .releasing memo s.holds.values)
    ⟨?_, fun other hother => ⟨Dict.get?_empty other, (h.ended other hother).2⟩, h.fits,
      h.amounts⟩ rfl
  refine List.perm_iff_count.mpr fun x => ?_
  have hx := List.perm_iff_count.mp h.once x
  simp only [HandlerCall.holds, Dict.values, Dict.items_empty, List.map_nil, List.count_append,
    List.count_nil] at hx ⊢
  omega

/-- One more event that goes as it should. -/
theorem Sound.step (h : Sound i s []) {e : HandlerEvent} (lawful : s.Lawful w i e) :
    Sound i (s.step w i e) [] := by
  cases e with
  | others commands => exact ⟨h.once, h.ended, h.fits, h.amounts⟩
  | begins run hold =>
    cases hold with
    | none => exact h
    | some hold => exact h.begin run hold
  | ends run response => exact h.claim run _ (fun _ => rfl) (fun _ => rfl) lawful
  | errors run => exact h.claim run _ (fun _ => rfl) (fun _ => rfl) lawful
  | releases memo => exact h.release memo
  | proceeds call =>
    simp only [GovernedCallbackHandler.step]
    split
    · exact h
    · rename_i c hc
      exact (h.take hc).proceed (lawful c hc)
        fun run hrun => (h.ended run hrun).2 c (List.mem_of_getElem? hc)

theorem Sound.run (h : Sound i s []) {events : List HandlerEvent}
    (lawful : AllLawful w i s events) : Sound i (s.run w i events) [] := by
  induction events generalizing s with
  | nil => exact h
  | cons e events ih => exact ih (h.step lawful.1) lawful.2

/-- Whether no hold is in the table, nor about to be put there. -/
def Emptied (s : GovernedCallbackHandler) : Prop :=
  s.holds = ∅ ∧ ∀ c ∈ s.calls, c.stores = none

theorem emptied_claim (h : Emptied s) (run : UUID) (call : Authorization → HandlerCall) :
    Emptied (s.claim run call) := by
  have hnone : s.holds.get? run = none := by rw [h.1, Dict.get?_empty]
  simp only [GovernedCallbackHandler.claim, hnone]
  exact h

theorem emptied_settle (h : Emptied s) (a : Authorization) (response : Report) :
    Emptied (s.settle w i a response).2 := by
  unfold GovernedCallbackHandler.settle
  split
  · exact h
  · exact h
  · split
    · exact h
    · exact h

theorem emptied_push (h : Emptied s) {c : HandlerCall} (hc : c.stores = none) :
    Emptied { s with calls := s.calls ++ [c] } := by
  refine ⟨h.1, ?_⟩
  simp only [List.forall_mem_append, List.forall_mem_singleton]
  exact ⟨h.2, hc⟩

theorem emptied_proceed (h : Emptied s) {c : HandlerCall} (hc : c.stores = none) :
    Emptied (s.proceed w i c) := by
  cases c with
  | storing run a => cases hc
  | settling a response => exact emptied_settle h a response
  | failing a => exact h
  | releasing memo rest =>
    cases rest with
    | nil => exact h
    | cons a rest =>
      have hasked : Emptied (s.ask w (.void a memo) .released).2 := h
      have hpush := emptied_push (c := .releasing memo rest) hasked rfl
      simp only [GovernedCallbackHandler.proceed]
      split
      · rename_i e s' he
        rw [he] at hpush hasked
        split_ifs
        · exact hpush
        · exact hasked
      · rename_i answer s' hanswer
        rw [hanswer] at hpush
        exact hpush

/-- A table that is empty stays so while no run is started. -/
theorem emptied_run (h : Emptied s) {events : List HandlerEvent}
    (hnone : ∀ run hold, .begins run (some hold) ∉ events) : Emptied (s.run w i events) := by
  induction events generalizing s with
  | nil => exact h
  | cons e events ih =>
    refine ih ?_ fun run hold hmem => hnone run hold (List.mem_cons_of_mem _ hmem)
    cases e with
    | others commands => exact h
    | begins run hold =>
      cases hold with
      | none => exact h
      | some hold => exact absurd List.mem_cons_self (hnone run hold)
    | ends run response => exact emptied_claim h run _
    | errors run => exact emptied_claim h run _
    | releases memo =>
      exact emptied_push (s := { s with holds := ∅ }) (c := .releasing memo s.holds.values)
        ⟨rfl, h.2⟩ rfl
    | proceeds call =>
      simp only [GovernedCallbackHandler.step]
      split
      · exact h
      · rename_i c hc
        exact emptied_proceed (s := { s with calls := s.calls.eraseIdx call })
          ⟨h.1, fun c hc => h.2 c (List.mem_of_mem_eraseIdx hc)⟩ (h.2 c (List.mem_of_getElem? hc))

/-- A handler whose calls go as they should strands no hold; and once `release_all` was called
while no start was placing one, its table is empty until another run is started. -/
theorem strands_none (w : World) (i : Interceptor) (g : Governor) (events : List HandlerEvent)
    (lawful : AllLawful w i (new g) events) :
    StrandsNone i ((new g).run w i events) ∧
      ∀ before memo after, events = before ++ .releases memo :: after →
        (∀ c ∈ ((new g).run w i before).calls, c.stores = none) →
          (∀ run hold, .begins run (some hold) ∉ after) →
            ((new g).run w i events).holds = ∅ := by
  refine ⟨((sound_new i g).run lawful).strandsNone, ?_⟩
  rintro before memo after rfl hcalls hnone
  have hreleased : Emptied (((new g).run w i before).step w i (.releases memo)) :=
    emptied_push (s := { (new g).run w i before with holds := ∅ }) ⟨rfl, hcalls⟩ rfl
  have hrun : (new g).run w i (before ++ .releases memo :: after) =
      (((new g).run w i before).step w i (.releases memo)).run w i after := by
    simp [GovernedCallbackHandler.run]
  rw [hrun]
  exact (emptied_run hreleased hnone).1

end Strands

/-! ### Two runs -/

/-- A response of tokens that were read. -/
def sampleResponse (n : ℤ) : Report :=
  .object [(txt "usage_metadata", .object [] (some [(txt "input_tokens", .int n)]) none)] none none

/-- Two runs that start, the second before the first is in the table; one ends, and the other is
released while the one is settled. -/
def sampleRuns : List HandlerEvent :=
  [.begins 1 (some (Decimal.ofInt 1)), .begins 2 (some (Decimal.ofInt 2)), .proceeds 1, .proceeds 0,
    .ends 1 (sampleResponse 1000), .releases (txt "shut down"), .proceeds 1, .proceeds 0, .proceeds 0]

/-- A handler after any events, over a governor of one root of ten dollars. -/
def sampleHandler (events : List HandlerEvent) : GovernedCallbackHandler :=
  (new sampleDesk.governor).run sampleWorld sampleInterceptor events

theorem strands_none_sampleRuns : StrandsNone sampleInterceptor (sampleHandler sampleRuns) ∧
    (sampleHandler sampleRuns).holds = ∅ := by
  obtain ⟨hstrands, hreleased⟩ := strands_none sampleWorld sampleInterceptor sampleDesk.governor
    sampleRuns (by decide +kernel)
  refine ⟨hstrands, hreleased (sampleRuns.take 5) _ (sampleRuns.drop 6) rfl (by decide +kernel) ?_⟩
  simp [sampleRuns]

/-- A run that is started twice before it ends. -/
def sampleRestart : List HandlerEvent :=
  [.begins 1 (some (Decimal.ofInt 1)), .proceeds 0, .begins 1 (some (Decimal.ofInt 1)), .proceeds 0,
    .ends 1 (sampleResponse 1000), .proceeds 0]

/-- A run that ends with a response of a negative count. -/
def sampleNegative : List HandlerEvent :=
  [.begins 1 (some (Decimal.ofInt 1)), .proceeds 0, .ends 1 (sampleResponse (-1)), .proceeds 0]

/-- The first hold of a run id that is started twice is stranded, and so is the hold of a run whose
response has a negative count. -/
theorem restarted_strands :
    ¬StrandsNone sampleInterceptor (sampleHandler sampleRestart) ∧
      ¬StrandsNone sampleInterceptor (sampleHandler sampleNegative) := by
  have hlengths : (sampleHandler sampleRestart).desk.placed.length ≠
        ((sampleHandler sampleRestart).desk.deeds.map (fun x => x.ask.hold) ++
          (sampleHandler sampleRestart).calls.flatMap HandlerCall.holds ++
            (sampleHandler sampleRestart).holds.values).length ∧
      (sampleHandler sampleNegative).desk.placed.length ≠
        ((sampleHandler sampleNegative).desk.deeds.map (fun x => x.ask.hold) ++
          (sampleHandler sampleNegative).calls.flatMap HandlerCall.holds ++
            (sampleHandler sampleNegative).holds.values).length := by
    decide +kernel
  exact ⟨fun h => hlengths.1 h.once.length_eq.symm, fun h => hlengths.2 h.once.length_eq.symm⟩

end GovernedCallbackHandler

end AgentGov.Metering
