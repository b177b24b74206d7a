import AgentGov.Pending
import Mathlib.Data.List.Sort

/-!
# The operations of a governor

Each mutating method of the governor, as a program over what it asks of the governor that runs
it: to be inside a mutation, what is served now, whether its idempotency key was used, a unit of
work committed, a call counted for the velocity window (`src/src/agentgov/core.py`, lines
3459–3530, 3840–3864, 3912–4000, 5739–6630 and 6733–7024). Which store the governor writes to,
and whether the call shares its unit of work, is up to the governor.

## Main definitions

* `AgentGov.Ledger`: what a governor serves of its ledger.
* `AgentGov.Instr`: what an operation asks of its governor.
* `AgentGov.Mutation`, `AgentGov.Mutation.program`: the operations.
-/

open Foundation

namespace AgentGov

/-! ### What operations take and return -/

/-- `Authorization`: an outstanding hold. -/
structure Authorization where
  authorizationId : UUID
  scopeId : Text
  amount : Decimal
  openedAt : Instant
  entry : LedgerEntry
deriving DecidableEq

/-- `_authorization_for`: the authorization a HOLD entry places. -/
def authorizationFor (hold : LedgerEntry) : Authorization where
  authorizationId := hold.entryId
  scopeId := hold.scopeId
  amount := hold.amount
  openedAt := hold.timestamp
  entry := hold

/-- What a governor serves of its ledger: the entries it can read, the state they imply and the
holds that are open. -/
structure Ledger where
  entries : List LedgerEntry := []
  state : ChainState
  openAuths : Dict UUID Authorization := ∅

/-- `_resolve`: the newest committed entry with this id. -/
def Ledger.resolve (l : Ledger) (id : UUID) : Option LedgerEntry :=
  l.entries.reverse.find? fun e => e.entryId = id

/-- `entry`: the entry at a sequence. -/
def Ledger.entry (l : Ledger) (sequence : ℤ) : Option LedgerEntry :=
  if 0 < sequence then l.entries[sequence.toNat - 1]? else none

/-- The velocity window of a policy, a float of seconds: its text, whether it is positive, what a
float subtraction of it gives, and its `timedelta`, in microseconds. -/
structure Window where
  text : Text
  positive : Bool
  before : ℚ → ℚ
  micros : ℤ

/-- `GovernancePolicy`. -/
structure GovernancePolicy where
  maxCallsPerWindow : ℤ := 1000
  window : Window
  maxDepth : ℤ := 8
  tripOnOverdraft : Bool := true
  tripOnExhaustion : Bool := true
  fleetVelocity : Bool := false

/-- What a mutation returns. -/
inductive Answer
  | node (n : BudgetNode)
  | entry (e : LedgerEntry)
  | authorization (a : Authorization)
  /-- `None`, where a hold was refused quietly. -/
  | refused
  | returned (amount : Decimal)
  | voided (holds : List Authorization)
  | nothing
deriving DecidableEq

/-! ### Calls under a key -/

/-- What a call made under a key returns, read back from its entry. -/
inductive Outcome
  | authorization
  | entry
  | node
deriving DecidableEq

/-- An argument of a call, as its request records it. -/
inductive Argument
  | text (t : Text)
  | amount (d : Decimal)
  | id (u : UUID)
  | none
deriving DecidableEq

/-- A call: its operation, and its arguments as the call used them. -/
structure Request where
  operation : Text
  arguments : List (Text × Argument)
deriving DecidableEq

/-- The JSON of an argument. -/
def Argument.json : Argument → Except Error Json
  | text t => .ok (.str t)
  | amount d => do .ok (.str (← fixed d))
  | id u => .ok (.str u.text)
  | none => .ok .null

/-- Whether a field's name is written before another's. -/
def fieldLe (a b : Text × Json) : Bool := decide (a.1.map Fin.val ≤ b.1.map Fin.val)

/-- `_request_text`: canonical JSON of the operation and its arguments. -/
def Request.text (r : Request) : Except Error Text := do
  let fields ← r.arguments.mapM fun p => do .ok (p.1, ← p.2.json)
  .ok (Json.dump Json.quote
    (.obj (((txt "op", Json.str r.operation) :: fields).insertionSort (fieldLe · ·))))

/-- `IdempotencyRecord`: a call made under a key, and the entry its result is read back from. -/
structure IdempotencyRecord where
  key : Text
  request : Text
  outcome : Outcome
  sequence : ℤ
  createdAt : Instant
deriving DecidableEq

/-- `_Call`: a call under a key while it runs, with what it returned when it was first made. -/
structure Call where
  key : Text
  request : Text
  outcome : Outcome
  replayed : Option Answer := none

/-- A scope that was called too often in its window. -/
structure Runaway where
  count : ℕ
  fleetWide : Bool

/-! ### What an operation asks -/

/-- The instructions a governor takes from its operations. -/
inductive Instr : Type → Type 1
  /-- `with self._mutating()`, entered. -/
  | mutating : Instr PUnit
  /-- What is served now. -/
  | served : Instr Ledger
  | policy : Instr GovernancePolicy
  /-- `datetime.now(UTC)` -/
  | now : Instr Instant
  /-- `_called`: the call made under the key, if the call has one. -/
  | called (key : Option Text) (outcome : Outcome) (request : Request) : Instr (Option Call)
  /-- A unit of work begun, worked on and committed; with the call it is the work of, and the
  entry that call's result is read back from. -/
  | work {α : Type} (body : Staging α) (call : Option Call) (result : α → Option LedgerEntry) :
    Instr α
  /-- `_answered`: what the call made under its key returned. -/
  | answered (call : Option Call) (answer : Answer) : Instr PUnit
  /-- What the refunds naming a spend have returned of it. -/
  | refundedOfSpend (spend : UUID) : Instr Value
  /-- An authorization counted for the velocity window; whether it is one too many. -/
  | velocity (scope : Text) : Instr (Option Runaway)
  /-- A trip of the breaker's own noted by the transaction it was made in, if any. -/
  | noteTrip (scope reason : Text) : Instr PUnit
  /-- `call_times.clear()`, after a reset. -/
  | forgetVelocity (scope : Text) : Instr PUnit

/-- An operation of the governor. -/
abbrev Op := Program Instr Exception

/-- `memo or note` -/
def orElse (memo note : Text) : Text := if memo = [] then note else memo

/-- The text of an amount or a balance, as an f-string has it. -/
def valueText (v : Value) : Text := decimalText (balanceDatum v)

/-- `_halted_by`: the nearest tripped scope at or above a scope, found in no more steps than
there are scopes. -/
def ChainState.haltedBy (s : ChainState) : ℕ → Text → Option Text
  | 0, _ => none
  | fuel + 1, cursor =>
    if (s.tripped.get? cursor).isSome then some cursor
    else
      match (s.nodes.get? cursor).bind fun n => n.parentId with
      | none => none
      | some parent => haltedBy s fuel parent

namespace Op

/-- The computations of amounts, as steps of an operation. -/
instance : MonadLift (Except Error) Op := ⟨fun x => Program.ofExcept (x.mapError .rule)⟩

def served : Op Ledger := Program.instr .served

/-- `with self._mutating()` -/
def mutating : Op PUnit := Program.instr .mutating

/-- `_unit` -/
def unit : Op Unit := do pure (← served).state.unit

/-- `if problem: raise ValueError` -/
def argument (ok : Prop) [Decidable ok] (fault : ArgumentFault) : Op PUnit :=
  Program.check ok (.value fault)

/-- `_require_node`. -/
def requireNode (scope : Text) : Op BudgetNode := do
  match (← served).state.nodes.get? scope with
  | some n => pure n
  | none => Program.raise (.unknownScope scope)

/-- `_assert_not_halted`. -/
def assertNotHalted (scope : Text) : Op PUnit := do
  let s := (← served).state
  match s.haltedBy (s.nodes.items.length + 1) scope with
  | none => pure ⟨⟩
  | some tripped =>
    Program.raise (.circuitOpen scope tripped (((s.tripped.get? tripped).map Prod.snd).getD []))

/-- `_commit(pending)`, of the work of a call under no key. -/
def commit {α : Type} (body : Staging α) : Op α :=
  Program.instr (.work body none fun _ => none)

/-- `_commit(pending, call, entry)`, where the call's result is read back from the entry. -/
def commitFor (call : Option Call) (body : Staging LedgerEntry) : Op LedgerEntry :=
  Program.instr (.work body call some)

/-- `return self._answered(call, result)` -/
def answered (call : Option Call) (answer : Answer) : Op Answer := do
  let _ ← Program.instr (.answered call answer)
  pure answer

/-- A call under a key returns what it returned when it was first made, if it was. -/
def keyed (key : Option Text) (outcome : Outcome) (operation : Text)
    (arguments : List (Text × Argument)) (body : Option Call → Op Answer) : Op Answer := do
  let call ← Program.instr (.called key outcome ⟨operation, arguments⟩)
  match call.bind Call.replayed with
  | some answer => pure answer
  | none => body call

/-! ### The breaker -/

/-- `_trip`: latch the breaker of a scope in its own unit of work. -/
def trip (scope reason : Text) : Op PUnit := do
  if ((← served).state.tripped.get? scope).isSome then pure ⟨⟩
  else do
    let _ ← commit (Staging.trip scope reason)
    Program.instr (.noteTrip scope reason)

/-- The reason of a trip for a runaway loop. -/
def runawayReason (policy : GovernancePolicy) (r : Runaway) : Text :=
  txt "runaway loop: " ++ decimalDigits r.count ++ txt " authorizations in " ++
    policy.window.text ++ txt "s" ++ (if r.fleetWide then txt ", fleet-wide" else [])

/-- `_record_velocity`: record an authorization and trip on runaway loops. -/
def recordVelocity (scope : Text) : Op PUnit := do
  match ← Program.instr (.velocity scope) with
  | none => pure ⟨⟩
  | some r =>
    trip scope (runawayReason (← Program.instr .policy) r)
    Program.raise (.runawayLoopDetected scope r.count)

/-! ### Topology -/

/-- A line that moves money. -/
def line (kind : EntryType) (direction : Direction) (scope : Text) (amount : Decimal)
    (counterparty : Option Text) (memo : Text) (ref : Option UUID) : LedgerLine where
  entryType := kind
  direction := direction
  scopeId := scope
  amount := amount
  counterpartyId := counterparty
  memo := memo
  ref := ref

/-- What is served of a scope that was just created. -/
def createdNode (scope : Text) : Op Answer := do pure (.node (← requireNode scope))

/-- `open_root`. -/
def openRoot (scope : Text) (envelope : AmountArg) (memo : Text) : Op Answer := do
  let amount ← credit envelope (← unit)
  argument (¬amount.worth ≤ 0) (.envelopeNotPositive amount)
  argument (scope ≠ []) .emptyScopeId
  mutating
  Program.check (((← served).state.nodes.get? scope).isNone) (.duplicateScope scope)
  let _ ← commit (Staging.post₁
    (line .funding .credit scope amount none (orElse memo (txt "root envelope issued")) none))
  createdNode scope

/-- `fund`. -/
def fund (scope : Text) (amount : AmountArg) (memo : Text) (key : Option Text) : Op Answer := do
  let credited ← credit amount (← unit)
  argument (¬credited.worth ≤ 0) (.fundingNotPositive credited)
  mutating
  keyed key .entry (txt "fund")
    [(txt "scope_id", .text scope), (txt "amount", .amount credited), (txt "memo", .text memo)]
    fun call => do
      let node ← requireNode scope
      argument (node.parentId.isNone) (.notARoot scope)
      let entry ← commitFor call (Staging.post₁
        (line .funding .credit scope credited none (orElse memo (txt "envelope topped up")) none))
      answered call (.entry entry)

/-- The balanced pair of lines of a delegation. -/
def delegation (parent child : Text) (granted : Decimal) (memo : Text) : Staging LedgerEntry := do
  let note := orElse memo (txt "sub-budget delegated to " ++ child)
  let pair ← Staging.post₂ (line .allocation .debit parent granted (some child) note none)
    (line .allocation .credit child granted (some parent) note none)
  pure pair.2

/-- `delegate`. -/
def delegate (parent child : Text) (amount : AmountArg) (memo : Text) (key : Option Text) :
    Op Answer := do
  let granted ← credit amount (← unit)
  argument (¬granted.worth ≤ 0) (.delegatedNotPositive granted)
  argument (child ≠ []) .emptyScopeId
  mutating
  keyed key .node (txt "delegate")
    [(txt "parent_id", .text parent), (txt "child_id", .text child),
     (txt "amount", .amount granted), (txt "memo", .text memo)]
    fun call => do
      let node ← requireNode parent
      let ledger ← served
      Program.check ((ledger.state.nodes.get? child).isNone) (.duplicateScope child)
      assertNotHalted parent
      let available := ledger.state.balance parent
      let depth := node.depth + 1
      let maximum := (← Program.instr .policy).maxDepth
      Program.check (¬maximum < depth)
        (.subBudgetAllocation granted available parent (some (depth, maximum)))
      Program.check (¬available < granted.worth)
        (.subBudgetAllocation granted available parent none)
      let _ ← commitFor call (delegation parent child granted memo)
      let created ← requireNode child
      answered call (.node created)

/-- The balanced pair of lines of a release. -/
def releasing (scope parent : Text) (returned : Decimal) (memo : Text) : Staging PUnit := do
  let note := orElse memo (txt "unused budget returned to " ++ parent)
  let _ ← Staging.post₂ (line .release .debit scope returned (some parent) note none)
    (line .release .credit parent returned (some scope) note none)
  pure ⟨⟩

/-- `release`: to the parent, everything available where no amount is given. -/
def release (scope : Text) (amount : Option AmountArg) (memo : Text) : Op Answer := do
  mutating
  let node ← requireNode scope
  match node.parentId with
  | none => Program.raise (.value (.noParent scope))
  | some parent =>
    let ledger ← served
    let available := ledger.state.balance scope
    let returned ←
      match amount with
      | none => pure (balanceDatum available)
      | some amount => (credit amount ledger.state.unit : Except Error Decimal)
    if returned.worth ≤ 0 then pure (.returned (Decimal.ofInt 0))
    else do
      argument (¬available < returned.worth) (.releasesTooMuch returned scope available)
      commit (releasing scope parent returned memo)
      pure (.returned returned)

/-! ### Holds -/

/-- The reason of a trip for an overdraft attempt. -/
def overdraftReason (held : Decimal) (available : Value) : Text :=
  txt "overdraft attempt: requested " ++ decimalText held ++ txt ", available " ++
    valueText available

/-- What `_authorize` does of a call that was not made before. -/
def placeHold (scope : Text) (held : Decimal) (memo : Text) (trips : Bool) (call : Option Call) :
    Op Answer := do
  let _ ← requireNode scope
  assertNotHalted scope
  recordVelocity scope
  let available := (← served).state.balance scope
  if available < held.worth then
    if !trips then pure .refused
    else if !(← Program.instr .policy).tripOnOverdraft then
      Program.raise (.budgetExceeded held available scope)
    else do
      trip scope (overdraftReason held available)
      Program.raise (.denialOfWallet held available scope false)
  else do
    let entry ← commitFor call (Staging.post₁
      (line .hold .debit scope held none (orElse memo (txt "authorization hold")) none))
    answered call (.authorization (authorizationFor entry))

/-- `_authorize`, which `authorize` and `try_authorize` share under one key. -/
def authorizeAs (trips : Bool) (scope : Text) (amount : AmountArg) (memo : Text)
    (key : Option Text) : Op Answer := do
  let held ← cost amount (← unit)
  argument (¬held.worth ≤ 0) (.authorizationNotPositive held)
  mutating
  keyed key .authorization (txt "authorize")
    [(txt "scope_id", .text scope), (txt "amount", .amount held), (txt "memo", .text memo)]
    (placeHold scope held memo trips)

/-- `authorize`. -/
def authorize := authorizeAs true

/-- `try_authorize`. -/
def tryAuthorize := authorizeAs false

/-- `_require_open_authorization`. -/
def requireOpenAuthorization (a : Authorization) : Op PUnit := do
  Program.check (((← served).openAuths.get? a.authorizationId).isSome)
    (.doubleSpend a.scopeId a.authorizationId)

/-- The release of a hold. -/
def voiding (a : Authorization) (memo : Text) : LedgerLine :=
  line .holdVoid .credit a.scopeId a.amount none memo (some a.entry.entryId)

/-- `_void_locked`: release a hold and close its authorization in one unit of work. -/
def voidLocked (a : Authorization) (memo : Text) (call : Option Call) : Op Answer := do
  let entry ← commitFor call (Staging.post₁ (voiding a memo))
  answered call (.entry entry)

/-- The reason of a trip for a realized overdraft. -/
def overrunReason (settled : Decimal) (a : Authorization) (balance : Value) : Text :=
  txt "settled cost " ++ decimalText settled ++ txt " overran authorization " ++
    decimalText a.amount ++ txt "; overdrawn by " ++ valueText (-balance)

/-- The settlement of a hold: its release, the spend, and the trip of a scope it overdraws or
exhausts. -/
def settlement (tripOnExhaustion : Bool) (a : Authorization) (settled : Decimal) (memo : Text) :
    Staging LedgerEntry := do
  let pair ← Staging.post₂ (voiding a (txt "authorization captured"))
    (line .spend .debit a.scopeId settled none (orElse memo (txt "settled call cost"))
      (some a.entry.entryId))
  let balance := pair.2.balanceAfter.worth
  if balance < 0 then do
    let _ ← Staging.trip a.scopeId (overrunReason settled a balance)
    pure pair.2
  else do
    if ← Staging.exhausted tripOnExhaustion a.scopeId then do
      let _ ← Staging.trip a.scopeId (txt "spend envelope exhausted")
      pure pair.2
    else pure pair.2

/-- `_capture`: settle an authorization. -/
def settle (a : Authorization) (settled : Decimal) (memo : Text) (call : Option Call) :
    Op Answer := do
  requireOpenAuthorization a
  if settled.worth = 0 then
    voidLocked a (orElse memo (txt "captured at zero cost")) call
  else do
    let spend ← commitFor call
      (settlement (← Program.instr .policy).tripOnExhaustion a settled memo)
    let answer ← answered call (.entry spend)
    if spend.balanceAfter.worth < 0 then do
      -- the overage is recorded, and raised once
      let covered ← (subtract settled.worth (-spend.balanceAfter.worth) : Except Error Value)
      Program.raise (.denialOfWallet settled covered a.scopeId true)
    else pure answer

/-- `capture`. -/
def capture (a : Authorization) (actualCost : AmountArg) (memo : Text) (key : Option Text) :
    Op Answer := do
  let settled ← cost actualCost (← unit)
  argument (¬settled.worth < 0) (.costNegative settled)
  mutating
  keyed key .entry (txt "capture")
    [(txt "authorization_id", .id a.authorizationId), (txt "actual_cost", .amount settled),
     (txt "memo", .text memo)]
    (settle a settled memo)

/-- `void`. -/
def void (a : Authorization) (memo : Text) (key : Option Text) : Op Answer := do
  mutating
  keyed key .entry (txt "void")
    [(txt "authorization_id", .id a.authorizationId), (txt "memo", .text memo)]
    fun call => do
      requireOpenAuthorization a
      voidLocked a (orElse memo (txt "authorization voided")) call

/-- `spend`: authorize and capture a known cost in one step. -/
def spend (scope : Text) (amount : AmountArg) (memo : Text) (key : Option Text) : Op Answer := do
  let cost ← cost amount (← unit)
  mutating
  keyed key .entry (txt "spend")
    [(txt "scope_id", .text scope), (txt "amount", .amount cost), (txt "memo", .text memo)]
    fun call => do
      match ← authorize scope (.number (some cost)) memo none with
      | .authorization a => settle a cost memo call
      | answer => pure answer

/-! ### Refunds and records -/

/-- How much of a spend a refund that names it may return. -/
def checkReversed (scope : Text) (credited : Decimal) (ref : UUID) : Op PUnit := do
  match (← served).resolve ref with
  | none => Program.raise (.value (.notASpend ref))
  | some spend => do
    argument (spend.entryType = .spend) (.notASpend ref)
    argument (spend.scopeId = scope) (.spendOfAnother ref spend.scopeId scope)
    let refunded ← Program.instr (.refundedOfSpend ref)
    let left ← (subtract spend.amount.worth refunded : Except Error Value)
    argument (¬left < credited.worth) (.refundsTooMuchOfSpend credited ref left spend.amount)

/-- `refund`. -/
def refund (scope : Text) (amount : AmountArg) (memo : Text) (reverses : Option UUID)
    (key : Option Text) : Op Answer := do
  let credited ← credit amount (← unit)
  argument (¬credited.worth ≤ 0) (.refundNotPositive credited)
  mutating
  keyed key .entry (txt "refund")
    [(txt "scope_id", .text scope), (txt "amount", .amount credited), (txt "memo", .text memo),
     (txt "reverses", match reverses with | none => .none | some ref => .id ref)]
    fun call => do
      let _ ← requireNode scope
      match reverses with
      | none => pure ⟨⟩
      | some ref => checkReversed scope credited ref
      let s := (← served).state
      let refundable ← (subtract (s.spentBy scope) (s.refundedTo scope) : Except Error Value)
      argument (¬refundable < credited.worth)
        (.refundsTooMuch credited scope (s.spentBy scope) (s.refundedTo scope) refundable)
      let entry ← commitFor call (Staging.post₁
        (line .reversal .credit scope credited none (orElse memo (txt "vendor refund")) reverses))
      answered call (.entry entry)

/-- `anchor`: commit an external record into the chain. -/
def anchor (scope memo : Text) : Op Answer := do
  argument (memo ≠ []) .emptyAnchor
  mutating
  let _ ← requireNode scope
  let entry ← commit (Staging.post₁ (Staging.event .anchor scope memo))
  pure (.entry entry)

/-! ### Stale holds -/

/-- The microseconds of the last instant a `datetime` holds, and one. -/
def instantEnd : ℤ := 3652059 * 86400 * 1000000

/-- `datetime.now(UTC) - window`, in microseconds. -/
def cutoff (now : Instant) (window : Option ℤ) : Except Exception ℤ :=
  match window with
  | none => .error (.value .notADuration)
  | some w =>
    let t := (now.micros : ℤ) - w
    if 0 ≤ t ∧ t < instantEnd then .ok t else .error .dateOverflow

/-- The holds of a ledger open since a cutoff, oldest first. -/
def Ledger.staleSince (l : Ledger) (cutoff : ℤ) (scope : Option Text) : List Authorization :=
  (l.openAuths.values.filter fun a =>
    decide ((a.openedAt.micros : ℤ) ≤ cutoff) && (scope.isNone || scope = some a.scopeId)).insertionSort
    fun a b => a.openedAt.micros ≤ b.openedAt.micros

/-- `stale_authorizations`. -/
def staleAuthorizations (olderThan : Option ℤ) (scope : Option Text) :
    Op (List Authorization) := do
  let since ← Program.ofExcept (cutoff (← Program.instr .now) olderThan)
  match scope with
  | none => pure ⟨⟩
  | some s => do
    let _ ← requireNode s
    pure ⟨⟩
  pure (Ledger.staleSince (← served) since scope)

/-- Release each hold that is still open, in a unit of work of its own. -/
def voidEach (note : Text) : List Authorization → Op (List Authorization)
  | [] => pure []
  | a :: rest => do
    mutating
    if ((← served).openAuths.get? a.authorizationId).isNone then voidEach note rest
    else do
      let _ ← voidLocked a note none
      pure (a :: (← voidEach note rest))

/-- `void_stale`. -/
def voidStale (olderThan : Option ℤ) (scope : Option Text) (memo : Text) : Op Answer := do
  let stale ← staleAuthorizations olderThan scope
  let voided ← voidEach (orElse memo (txt "stale hold released by operator")) stale
  pure (.voided voided)

/-! ### Trips and resets -/

/-- `trip`: trip the breaker of a scope by hand. -/
def tripByHand (scope reason : Text) : Op Answer := do
  mutating
  let _ ← requireNode scope
  trip scope reason
  pure .nothing

/-- `reset`: clear a tripped breaker. -/
def reset (scope memo : Text) : Op Answer := do
  argument (memo ≠ []) .emptyReset
  mutating
  let _ ← requireNode scope
  if ((← served).state.tripped.get? scope).isNone then pure .nothing
  else do
    let _ ← commit (Staging.control .circuitReset scope memo)
    let _ ← Program.instr (.forgetVelocity scope)
    pure .nothing

end Op

/-- The mutating calls a governor takes. -/
inductive Mutation
  | openRoot (scope : Text) (envelope : AmountArg) (memo : Text)
  | fund (scope : Text) (amount : AmountArg) (memo : Text) (key : Option Text)
  | delegate (parent child : Text) (amount : AmountArg) (memo : Text) (key : Option Text)
  | release (scope : Text) (amount : Option AmountArg) (memo : Text)
  | authorize (scope : Text) (amount : AmountArg) (memo : Text) (key : Option Text)
  | tryAuthorize (scope : Text) (amount : AmountArg) (memo : Text) (key : Option Text)
  | capture (a : Authorization) (actualCost : AmountArg) (memo : Text) (key : Option Text)
  | void (a : Authorization) (memo : Text) (key : Option Text)
  | spend (scope : Text) (amount : AmountArg) (memo : Text) (key : Option Text)
  | refund (scope : Text) (amount : AmountArg) (memo : Text) (reverses : Option UUID)
      (key : Option Text)
  | anchor (scope memo : Text)
  | voidStale (olderThan : Option ℤ) (scope : Option Text) (memo : Text)
  | trip (scope reason : Text)
  | reset (scope memo : Text)

/-- The program of a call. -/
def Mutation.program : Mutation → Op Answer
  | openRoot scope envelope memo => Op.openRoot scope envelope memo
  | fund scope amount memo key => Op.fund scope amount memo key
  | delegate parent child amount memo key => Op.delegate parent child amount memo key
  | release scope amount memo => Op.release scope amount memo
  | authorize scope amount memo key => Op.authorize scope amount memo key
  | tryAuthorize scope amount memo key => Op.tryAuthorize scope amount memo key
  | capture a actualCost memo key => Op.capture a actualCost memo key
  | void a memo key => Op.void a memo key
  | spend scope amount memo key => Op.spend scope amount memo key
  | refund scope amount memo reverses key => Op.refund scope amount memo reverses key
  | anchor scope memo => Op.anchor scope memo
  | voidStale olderThan scope memo => Op.voidStale olderThan scope memo
  | trip scope reason => Op.tripByHand scope reason
  | reset scope memo => Op.reset scope memo

end AgentGov
