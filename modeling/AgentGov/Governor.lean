import AgentGov.Operations

/-!
# A governor

A governor keeps the ledger it serves, the calls made under idempotency keys, its velocity windows
and, inside a transaction, the trips made in it (`src/src/agentgov/core.py`, lines 2724–3230,
4000–4140, 4796–4832, 5098–5205 and 6733–6917). Without a store its memory is the ledger; over a
single-writer store it reads the entries and the recorded calls from the store's connection, which
sees what an open unit of work has written.

## Main definitions

* `AgentGov.Governor`: the governor, with `Governor.handle`, what its operations' instructions do.
* `AgentGov.Governor.call`, `AgentGov.Governor.transaction`: a call on its own, and a block.
* `AgentGov.Governor.run`: a run of calls and blocks.
-/

open Foundation

namespace AgentGov

/-- `_refunds_in`: what the refunds naming a spend among a store's first entries add up to. -/
def refundsIn (entries : List LedgerEntry) (spend : UUID) (through : ℕ) : Except Error Value :=
  (entries.filter fun e => e.entryType = .reversal ∧ e.ref = some spend ∧
      e.sequence ≤ (through : ℤ)).foldlM (fun total e => add total e.amount.worth) 0

/-- `BudgetManager`: a governor without a store, or over a single-writer store. -/
structure Governor where
  ledger : Ledger
  policy : GovernancePolicy
  /-- Whether its history and the calls under keys are in a store. -/
  store : Bool := false
  /-- The recorded calls: in memory, or in the store's table. -/
  keys : Dict Text IdempotencyRecord := ∅
  /-- The monotonic instants of each scope's recent authorizations. -/
  velocity : Dict Text (List ℚ) := ∅
  /-- Every scope's recent holds, where the velocity is counted across the fleet. -/
  fleetHolds : Dict Text (List Instant) := ∅
  /-- The calls made under a key within one unit of work, and what each returned. -/
  unitCalls : Dict Text (IdempotencyRecord × Answer) := ∅
  /-- The keys looked up in the store within one unit of work. -/
  keyCache : Dict Text (Option IdempotencyRecord) := ∅
  /-- The breaker trips recorded inside the transaction that is open, if one is. -/
  trips : Option (List (Text × Text)) := none
  draws : ℕ := 0

/-- A governor of a new ledger. -/
def Governor.new (unit : Unit) (policy : GovernancePolicy) (store : Bool) : Governor where
  ledger := { state := ChainState.empty unit [] }
  policy := policy
  store := store

namespace Governor

variable (w : World) (g : Governor)

/-! ### Units of work -/

/-- `_refund_lookup`: the refunds of a spend are counted in a store that keeps history, and
remembered by the state otherwise. -/
def refundLookup : Option (UUID → ℕ → Except Error Value) :=
  if g.store then some (refundsIn g.ledger.entries) else none

/-- `_begin`: a unit of work over what is served. -/
def begin : Pending where
  view := Overlay.staging g.ledger.state g.ledger.resolve g.refundLookup none
  draws := g.draws

/-- `_follow_holds`: open and close authorizations as a merged view's holds did. -/
def followHolds (auths : Dict UUID Authorization) (view : Overlay) : Dict UUID Authorization :=
  (auths.eraseAll view.closed).setAll
    (view.opened.values.map fun hold => (hold.entryId, authorizationFor hold))

/-- `_remember`: note the holds among new entries, where the velocity is counted fleet-wide. -/
def remember (entries : List LedgerEntry) : Dict Text (List Instant) :=
  if g.policy.fleetVelocity then
    (entries.filter fun e => e.entryType = .hold).foldl
      (fun d e => d.set e.scopeId ((d.get? e.scopeId).getD [] ++ [e.timestamp])) g.fleetHolds
  else g.fleetHolds

/-- The record of a call, whose result is read back from an entry. -/
def record (call : Call) (result : LedgerEntry) : IdempotencyRecord where
  key := call.key
  request := call.request
  outcome := call.outcome
  sequence := result.sequence
  createdAt := result.timestamp

/-- `_commit`: a unit of work made durable and visible, with the call it is the work of. The
governor's lock is held since it began, so the head it was built against is the ledger's. -/
def commit (p : Pending) (call : Option (Call × LedgerEntry)) : Governor :=
  if p.entries = [] ∧ call.isNone then { g with draws := p.draws }
  else
    { g with
      ledger :=
        { entries := g.ledger.entries ++ p.entries
          state := p.view.merge
          openAuths := followHolds g.ledger.openAuths p.view }
      keys := match call with
        | none => g.keys
        | some (call, result) => g.keys.set call.key (record call result)
      fleetHolds := g.remember p.entries
      draws := p.draws }

/-- A unit of work: begun, worked on, and committed unless something raised. -/
def work {α : Type} (body : Staging α) (call : Option Call) (result : α → Option LedgerEntry) :
    Except Exception α × Governor :=
  match body.run (stage w) g.begin with
  | (.error e, p) => (.error e, { g with draws := p.draws })
  | (.ok a, p) => (.ok a, g.commit p (call.bind fun c => (result a).map fun e => (c, e)))

/-! ### Calls under a key -/

/-- The most UTF-8 bytes an idempotency key may hold. -/
def keyBytes : ℕ := 255

/-- `_require_key`. -/
def requireKey (key : Text) : Except Exception PUnit :=
  if key = [] then .error (.value .emptyKey)
  else
    match checkText key .idempotencyKey keyBytes true with
    | some problem => .error (.value (.badText problem))
    | none => .ok ⟨⟩

/-- `_match`: a key is used for one call. -/
def sameCall (call : Call) (record : IdempotencyRecord) : Except Exception PUnit :=
  if record.request = call.request then .ok ⟨⟩
  else .error (.idempotencyConflict call.key record.request)

/-- What the entry of a record holds of its outcome. -/
def answerIn (record : IdempotencyRecord) (e : LedgerEntry) : Option Answer :=
  match record.outcome with
  | .entry => some (.entry e)
  | .authorization =>
    if e.entryType = .hold then some (.authorization (authorizationFor e)) else none
  | .node =>
    if e.entryType = .allocation then (g.ledger.state.nodes.get? e.scopeId).map .node else none

/-- `_result_of`: what the call recorded under a key returned, read back from its entry. -/
def resultOf (record : IdempotencyRecord) : Except Exception Answer :=
  match (g.ledger.entry record.sequence).bind (g.answerIn record) with
  | some answer => .ok answer
  | none => .error (.recordNamesNothing record.key record.sequence)

/-- `_recorded`: the call recorded under a key. Over a store, what was looked up is kept for the
unit of work. -/
def recorded (key : Text) : Option IdempotencyRecord × Governor :=
  if g.store then
    match g.keyCache.get? key with
    | some found => (found, g)
    | none => (g.keys.get? key, { g with keyCache := g.keyCache.set key (g.keys.get? key) })
  else (g.keys.get? key, g)

/-- What a call returned, as it stands: a node a caller holds stays current, changed in place by
every merge. -/
def current : Answer → Answer
  | .node n => .node ((g.ledger.state.nodes.get? n.scopeId).getD n)
  | answer => answer

/-- `_called`: the call being made under `key`, with what it returned when it was first made. -/
def called (key : Option Text) (outcome : Outcome) (request : Request) :
    Except Exception (Option Call) × Governor :=
  match key with
  | none => (.ok none, g)
  | some key =>
    match (do requireKey key; request.text : Except Exception Text) with
    | .error e => (.error e, g)
    | .ok text =>
      let call : Call := { key := key, request := text, outcome := outcome }
      match g.unitCalls.get? key with
      | some (made, answer) =>
        (do sameCall call made; .ok (some { call with replayed := some (g.current answer) }), g)
      | none =>
        match g.recorded key with
        | (none, g) => (.ok (some call), g)
        | (some record, g) =>
          (do sameCall call record
              .ok (some { call with replayed := some (← g.resultOf record) }), g)

/-- `_answered`: what the call made under its key returned, for a retry within the same unit of
work. Its record is the one its work was committed with. -/
def answered (call : Option Call) (answer : Answer) : Governor :=
  match call with
  | none => g
  | some call =>
    match g.keys.get? call.key with
    | none => g
    | some record => { g with unitCalls := g.unitCalls.set call.key (record, answer) }

/-! ### Velocity -/

/-- The authorizations of a scope in the window, by the chain's timestamps. -/
def countFleet (scope : Text) : Except Exception (Option Runaway) × Governor :=
  let held := (g.fleetHolds.get? scope).getD []
  let later := { g with fleetHolds := g.fleetHolds.set scope held, draws := g.draws + 1 }
  match Op.cutoff (w.now g.draws) (some g.policy.window.micros) with
  | .error e => (.error e, later)
  | .ok since =>
    let held := held.dropWhile fun t => (t.micros : ℤ) < since
    let later := { later with fleetHolds := g.fleetHolds.set scope held }
    if g.policy.maxCallsPerWindow < held.length + 1 then
      (.ok (some { count := held.length + 1, fleetWide := true }), later)
    else (.ok none, later)

/-- The authorizations of a scope in the window, by this governor's own clock. -/
def countOwn (scope : Text) : Option Runaway × Governor :=
  let now := w.monotonic g.draws
  let times := (g.velocity.get? scope).getD [] ++ [now]
  let times := times.dropWhile fun t => t < g.policy.window.before now
  let later := { g with velocity := g.velocity.set scope times, draws := g.draws + 1 }
  if g.policy.maxCallsPerWindow < times.length then
    (some { count := times.length, fleetWide := false }, later)
  else (none, later)

/-- `_record_velocity`, as far as the count. -/
def countCall (scope : Text) : Except Exception (Option Runaway) × Governor :=
  if g.policy.maxCallsPerWindow ≤ 0 ∨ ¬g.policy.window.positive then (.ok none, g)
  else if g.policy.fleetVelocity then g.countFleet w scope
  else (.ok (g.countOwn w scope).1, (g.countOwn w scope).2)

/-! ### Instructions -/

/-- `_refunded_of_spend`. -/
def refundedOfSpend (spend : UUID) : Except Exception Value :=
  match g.refundLookup with
  | none => .ok (g.ledger.state.refundedOfSpend spend)
  | some refunds => (refunds spend g.ledger.state.length).mapError .rule

/-- What the instructions of an operation do. -/
def handle : Handler Instr Exception Governor
  | _, .mutating, g => (.ok ⟨⟩, g)
  | _, .served, g => (.ok g.ledger, g)
  | _, .policy, g => (.ok g.policy, g)
  | _, .now, g => (.ok (w.now g.draws), { g with draws := g.draws + 1 })
  | _, .called key outcome request, g => g.called key outcome request
  | _, .work body call result, g => g.work w body call result
  | _, .answered call answer, g => (.ok ⟨⟩, g.answered call answer)
  | _, .refundedOfSpend spend, g => (g.refundedOfSpend spend, g)
  | _, .velocity scope, g => g.countCall w scope
  | _, .noteTrip scope reason, g =>
    (.ok ⟨⟩, { g with trips := g.trips.map fun l => l ++ [(scope, reason)] })
  | _, .forgetVelocity scope, g =>
    (.ok ⟨⟩, { g with
      velocity := if (g.velocity.get? scope).isSome then g.velocity.set scope [] else g.velocity })

/-- The end of the outermost mutation. -/
def leave : Governor := { g with unitCalls := ∅, keyCache := ∅ }

/-- A call, in the mutation or the transaction it is made in. -/
def perform (m : Mutation) : Except Exception Answer × Governor := m.program.run (handle w) g

/-- A call on its own. -/
def call (m : Mutation) : Except Exception Answer × Governor :=
  ((g.perform w m).1, (g.perform w m).2.leave)

/-! ### Transactions -/

/-- A call in a block, and whether the block catches what it raises. -/
structure Step where
  call : Mutation
  caught : Bool

/-- A `with governor.transaction()` block: the calls it makes, and what it raises of its own at
their end, if anything. -/
structure Block where
  calls : List Step
  raises : Option Exception := none

/-- The calls of a block, up to the one whose exception ends it; and what the block raises. -/
def runBlock : Governor → List Step → Option Exception → Option Exception × Governor
  | g, [], raises => (raises, g)
  | g, step :: rest, raises =>
    match g.perform w step.call with
    | (.ok _, g) => runBlock g rest raises
    | (.error e, g) => if step.caught then runBlock g rest raises else (some e, g)

/-- `_adopt`: the ledger of entries replayed as an open would. -/
def adopt (entries : List LedgerEntry) : Except Error Ledger := do
  let state ← replay entries [] false none g.refundLookup g.ledger.state.unit
  .ok { entries := entries, state := state, openAuths := state.holds.mapValues authorizationFor }

/-- `_roll_back` and `_rewind` of a ledger with no store: back to its first entries, and to the
calls recorded among them. -/
def rollBack (mark : ℕ) : Except Error Governor :=
  if mark < g.ledger.entries.length then do
    let ledger ← g.adopt (g.ledger.entries.take mark)
    .ok { g with ledger := ledger, keys := g.keys.filterValues fun r => decide (r.sequence ≤ mark) }
  else .ok g

/-- `_retrip`: write the breaker trips of a transaction that did not commit, each in its own unit
of work. One that cannot be written is left out. -/
def retrip : Governor → List (Text × Text) → Governor
  | g, [] => g
  | g, (scope, reason) :: rest =>
    retrip ((do Op.mutating; Op.trip scope reason : Op PUnit).run (handle w) g).2.leave rest

/-- `transaction`: a block on a governor with no store. Where it raises, nothing it did is
written, and the trips recorded on the way are written on their own. -/
def transaction (b : Block) : Except Exception PUnit.{1} × Governor :=
  match runBlock w { g with trips := some [] } b.calls b.raises with
  | (none, g') => (.ok ⟨⟩, { g'.leave with trips := none })
  | (some e, g') =>
    match { g'.leave with trips := none }.rollBack g.ledger.entries.length with
    | .error err => (.error (.rule err), { g'.leave with trips := none })
    | .ok g'' => (.error e, g''.retrip w (g'.trips.getD []))

/-- What is asked of a governor. -/
inductive Command
  | call (m : Mutation)
  | transaction (b : Block)

/-- A command carried out. -/
def obey : Command → Governor
  | .call m => (g.call w m).2
  | .transaction b => (g.transaction w b).2

/-- A run of commands. -/
def run : Governor → List Command → Governor := List.foldl (obey w)

end Governor

end AgentGov
