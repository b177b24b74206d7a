import AgentGov.Overlay

/-!
# The rule engine

Every entry is verified against a view of the chain and folded into it, by one set of rules for
writes, catch-ups and replays (`src/src/agentgov/core.py`, lines 1286–1380 and 1427–1903). The
rules are stated for any `View`.

## Main definitions

* `AgentGov.Rules.apply`: verify an entry as the next link of the chain, then fold it in.
* `AgentGov.Rules.endTransaction`, `AgentGov.Rules.finish`: the ends of a transaction and of a
  replay.
-/

open Foundation

namespace AgentGov

/-- `_apply_totals`, of one entry. -/
def applyTotals (t : Totals) (kind : EntryType) (amount : Value) : Except Error Totals :=
  match kind with
  | .funding => do .ok { t with funded := ← add t.funded amount }
  | .spend => do .ok { t with spent := ← add t.spent amount }
  | .reversal => do .ok { t with reversed := ← add t.reversed amount }
  | .hold => do .ok { t with holdsOpen := ← add t.holdsOpen amount }
  | .holdVoid => do .ok { t with holdsOpen := ← subtract t.holdsOpen amount }
  | _ => .ok t

/-- Whether an entry's amount or balance is a given value, by `==`. -/
def equals (d : Decimal) (v : Value) : Except Error Bool :=
  match d with
  | .nan _ true _ => .error .arithmetic
  | d => .ok (decide (d.value? = some v))

namespace Rules

variable {σ : Type} [View σ]

open View

/-! ### Ledger rules -/

/-- `_check_version`. -/
def checkVersion (v : σ) (e : LedgerEntry) : Except Error σ :=
  let c := core v
  if e.version = auditV1 then
    if c.sawV2 then refuse (.oldEntryAfterNewer e.sequence) none
    else if e.ref.isSome then refuse (.oldEntryReference e.sequence) none
    else if e.entryType.isZeroValue then refuse (.oldEntryKind e.sequence e.entryType) none
    else .ok (setCore v { c with sawV1 := true })
  else if c.sawV1 ∧ ¬c.sawV2 ∧ e.entryType ≠ .migrationSeal then
    refuse (.notSealed e.sequence) none
  else if e.version = auditV3 then .ok (setCore v { c with sawV3 := true, sawV2 := true })
  else if c.sawV3 then refuse (.formatGoesBack e.sequence) none
  else .ok (setCore v { c with sawV2 := true })

/-- `_check_v3`: text a canonical encoding and both stores can hold, and time that never runs
backwards. -/
def checkV3 (v : σ) (e : LedgerEntry) : Except Error PUnit :=
  match checkTexts e.scopeId e.counterpartyId e.memo with
  | some problem => refuse (.badText e.sequence problem) (some e.scopeId)
  | none =>
    match (core v).lastTimestamp with
    | none => .ok ⟨⟩
    | some last =>
      if e.timestamp < last then
        refuse (.timeGoesBack e.sequence e.timestamp last) (some e.scopeId)
      else .ok ⟨⟩

/-- `_check_checkpoint`. -/
def checkCheckpoint (v : σ) (e : LedgerEntry) : Except Error σ :=
  match checkpointMemo? e.memo with
  | none => refuse (.malformedCheckpoint e.sequence) none
  | some (digits, digest) => do
    let sequence ← readInt digits
    if e.sequence ≤ sequence then refuse (.checkpointNotBefore e.sequence sequence) none
    else
      let c := core v
      match c.lastCheckpoint with
      | none => .ok (setCore v { c with lastCheckpoint := some (sequence, digest) })
      | some (previous, _) =>
        if sequence ≤ previous then
          refuse (.checkpointNotAfter e.sequence sequence previous) none
        else .ok (setCore v { c with lastCheckpoint := some (sequence, digest) })

/-- The amount of an entry that moves money: a number, positive and counted in the ledger's unit.
Comparing a NaN raises. -/
def checkAmount (unit : Unit) (e : LedgerEntry) : Except Error Value :=
  match e.amount.value? with
  | none => .error .arithmetic
  | some amount =>
    if amount ≤ 0 then
      refuse (.amountNotPositive e.sequence e.amount) (some e.scopeId)
    else do
      let whole ← counted e.amount unit
      if whole then .ok amount
      else refuse (.amountTooFine e.sequence e.amount unit) (some e.scopeId)

/-- The shape of an entry that moves no money. -/
def checkZeroValue (v : σ) (e : LedgerEntry) : Except Error σ := do
  let zero ← equals e.amount 0
  if ¬zero then refuse (.movesNoMoney e.sequence e.entryType e.amount) (some e.scopeId)
  else if ¬e.entryType.isScopeless then
    if e.scopeId = [] then refuse (.needsScope e.sequence e.entryType) none else .ok v
  else if e.scopeId ≠ [] then refuse (.belongsToNoScope e.sequence e.entryType) none
  else if e.entryType = .checkpoint then checkCheckpoint v e
  else if isSealed v then refuse (.secondSeal e.sequence) none
  else if ¬(core v).sawV1 then refuse (.nothingToSeal e.sequence) none
  else .ok v

/-- What `_check_shape` requires of an entry of each format. -/
def checkFormat (v : σ) (e : LedgerEntry) : Except Error PUnit :=
  if e.version = auditV3 then checkV3 v e
  else if e.entryType = .checkpoint then refuse (.oldCheckpoint e.sequence e.version) none
  else .ok ⟨⟩

/-- `_check_shape`, with what the amount it has checked stands for. -/
def checkShape (v : σ) (e : LedgerEntry) : Except Error (σ × Value) :=
  if e.direction ∉ e.entryType.legalDirections then
    refuse (.illegalDirection e.sequence e.entryType e.direction) (some e.scopeId)
  else do
    checkFormat v e
    if e.entryType.isZeroValue then .ok (← checkZeroValue v e, 0)
    else .ok (v, ← checkAmount (unit v) e)

/-- `end_transaction`. -/
def endTransaction (v : σ) : Except Error σ :=
  let f := frame v
  if f.net ≠ 0 then refuse (.unbalanced f.txn f.net) none
  else .ok (setFrame v { f with txn := none, settleable := [] })

/-- The end of the transaction before the entry's, where there is one. -/
def leaveTransaction (v : σ) : Except Error σ :=
  if (frame v).txn.isSome then endTransaction v else .ok v

/-- `_begin_transaction`. -/
def beginTransaction (v : σ) (e : LedgerEntry) : Except Error σ :=
  if (frame v).txn = some e.transactionId then .ok v
  else do
    let v ← leaveTransaction v
    .ok (setFrame v { frame v with txn := some e.transactionId })

/-- `_close`. -/
def close (v : σ) (hold : UUID) (scope : Text) : σ :=
  let v := dropHold v hold
  setCount v scope (holdsOpenIn v scope - 1)

/-- How the release of a hold that is not open is reported. -/
def notOpenFault (released : Option (List UUID)) (sequence : ℤ) (ref : UUID) : IntegrityFault :=
  if ref ∈ released.getD [] then .releasedTwice sequence ref else .notAnOpenHold sequence ref

/-- `_release_named`. -/
def releaseNamed (v : σ) (e : LedgerEntry) (amount : Value) : Except Error σ :=
  match e.ref with
  | none => refuse (.releaseUnnamed e.sequence) (some e.scopeId)
  | some ref =>
    match openHold v ref with
    | none => refuse (notOpenFault (released v) e.sequence ref) (some e.scopeId)
    | some (scope, held) =>
      if scope ≠ e.scopeId then
        refuse (.releasesOtherScope e.sequence ref scope e.scopeId) (some e.scopeId)
      else if held ≠ some amount then
        refuse (.releasesOtherAmount e.sequence ref e.amount held) (some e.scopeId)
      else
        let v := close v ref scope
        let f := frame v
        .ok (noteReleased (setFrame v { f with settleable := ref :: f.settleable }) ref)

/-- `_release_unnamed`: a pre-0.1.2 release closes the first open hold of its scope and
amount. -/
def releaseUnnamed (v : σ) (e : LedgerEntry) (amount : Value) : Except Error σ :=
  match (iterHolds v).find? fun p => decide (p.2 = (e.scopeId, some amount)) with
  | some (hold, scope, _) => .ok (markAmbiguous (close v hold scope) (e.scopeId, e.amount))
  | none => refuse (.noSuchHoldRemains e.sequence e.amount) (some e.scopeId)

/-- `_reverse_named`: a refund that names its spend gives back no more than that spend, in that
spend's scope, across every refund naming it. -/
def reverseNamed (v : σ) (e : LedgerEntry) (ref : UUID) (amount : Value) : Except Error σ :=
  match resolve v ref with
  | none => refuse (.reversesNoSpend e.sequence ref) (some e.scopeId)
  | some spend =>
    if spend.entryType ≠ .spend then refuse (.reversesNoSpend e.sequence ref) (some e.scopeId)
    else if spend.scopeId ≠ e.scopeId then
      refuse (.reversesOtherScope e.sequence ref spend.scopeId e.scopeId) (some e.scopeId)
    else do
      let refunded ← add (← refundedOfSpend v ref) amount
      match spend.amount.value? with
      | none => .error .arithmetic
      | some spent =>
        if spent < refunded then
          refuse (.refundsMoreThanSpend e.sequence ref amount refunded spend.amount)
            (some e.scopeId)
        else .ok (setSpendRefunds v ref refunded)

/-- `_check_holds`. -/
def checkHolds (v : σ) (e : LedgerEntry) (amount : Value) : Except Error σ :=
  let referencing :=
    if e.version = auditV3 then e.entryType.isV3Referencing else e.entryType.isReferencing
  if e.ref.isSome ∧ ¬referencing then
    refuse (.namesNoHold e.sequence e.entryType) (some e.scopeId)
  else
    match e.entryType with
    | .hold =>
      let v := placeHold v e
      .ok (setCount v e.scopeId (holdsOpenIn v e.scopeId + 1))
    | .holdVoid =>
      if e.version = auditV1 then releaseUnnamed v e amount else releaseNamed v e amount
    | .spend =>
      match e.ref with
      | none => .ok v
      | some ref =>
        if ref ∈ (frame v).settleable then .ok v
        else refuse (.settlesUnreleased e.sequence ref) (some e.scopeId)
    | .reversal =>
      match e.ref with
      | none => .ok v
      | some ref => reverseNamed v e ref amount
    | _ => .ok v

/-- `_check_flows`: each scope's lifetime spend and refunds, and the refund bound, which binds
every write and every AGOV3 entry. -/
def checkFlows (v : σ) (e : LedgerEntry) (amount : Value) (writing : Bool) : Except Error σ :=
  match e.entryType with
  | .spend => do .ok (setSpent v e.scopeId (← add (spentBy v e.scopeId) amount))
  | .reversal => do
    let refunded ← add (refundedTo v e.scopeId) amount
    let spent := spentBy v e.scopeId
    if (writing ∨ e.version = auditV3) ∧ spent < refunded then
      refuse (.refundsMoreThanSpent e.sequence e.scopeId amount refunded spent) (some e.scopeId)
    else .ok (setRefunded v e.scopeId refunded)
  | _ => .ok v

/-! ### Governance rules -/

/-- `_control`. -/
def control (v : σ) (eventType scope : Text) (timestamp : Instant) (reason : Text) :
    Except Error σ :=
  if (node v scope).isNone then refuse (.unregisteredScope scope) none
  else if eventType = EntryType.circuitTripped.text then
    .ok (setTrip v scope (some (timestamp, reason)))
  else if eventType = EntryType.circuitReset.text then .ok (setTrip v scope none)
  else .ok v

/-- `_apply_legacy`: fold in the control events kept outside the chain. -/
def applyLegacy (v : σ) : Except Error σ :=
  let c := core v
  runAll (fun v event => control v event.eventType event.scopeId event.timestamp event.reason)
    (setCore v { c with legacyApplied := true }) c.legacy

/-- `_check_seal`. -/
def checkSeal (v : σ) (e : LedgerEntry) : Except Error PUnit :=
  match sealMemo? e.memo with
  | none => refuse (.malformedSeal e.sequence) none
  | some (digits, digest) => do
    let count ← readInt digits
    if count ≠ (core v).legacy.length ∨ digest ≠ legacyDigest (core v).legacy then
      refuse (.sealMismatch e.sequence) none
    else .ok ⟨⟩

/-- What vouches for the older control events: the seal, where there are any. -/
def vouch (v : σ) (e : LedgerEntry) : Except Error PUnit :=
  if e.entryType = .migrationSeal then checkSeal v e
  else if (core v).legacy ≠ [] then refuse .unsealedEvents none
  else .ok ⟨⟩

/-- The first entry written from v0.1.2 on folds in every older control event. -/
def foldLegacy (v : σ) (e : LedgerEntry) : Except Error σ :=
  if e.version ≠ auditV1 ∧ ¬(core v).legacyApplied then do
    vouch v e
    applyLegacy v
  else .ok v

/-- `_require`. -/
def require (v : σ) (scope : Text) (e : LedgerEntry) : Except Error Node :=
  match node v scope with
  | none => refuse (.neverCreated e.sequence e.entryType) (some scope)
  | some n => .ok n

/-- What a FUNDING entry does: a root is created, or its allocation raised. -/
def fund (v : σ) (e : LedgerEntry) (amount : Value) : Except Error σ :=
  match node v e.scopeId with
  | none =>
    let created : Node :=
      { scopeId := e.scopeId, parentId := none, depth := 0, allocated := amount,
        createdAt := e.timestamp }
    .ok (createRoot v created)
  | some n =>
    if n.parentId.isSome then refuse (.fundsNonRoot e.sequence) (some e.scopeId)
    else do
      .ok (setAllocated v e.scopeId (← add n.allocated amount))

/-- `_allocate`: the credit of an allocation creates a scope under its counterparty. -/
def allocate (v : σ) (e : LedgerEntry) (amount : Value) : Except Error σ :=
  if e.direction = .debit then do
    let _ ← require v e.scopeId e
    .ok v
  else if (node v e.scopeId).isSome then
    refuse (.allocatesTwice e.sequence e.scopeId) (some e.scopeId)
  else
    match node v (e.counterpartyId.getD []) with
    | none => refuse (.delegatesFromUnknown e.sequence e.counterpartyId) (some e.scopeId)
    | some parent =>
      let created : Node :=
        { scopeId := e.scopeId, parentId := some parent.scopeId, depth := parent.depth + 1,
          allocated := amount, createdAt := e.timestamp }
      .ok (createChild v parent.scopeId created)

/-- `_release_between`: a release moves money between a child and its parent. -/
def releaseBetween (v : σ) (e : LedgerEntry) : Except Error σ := do
  let scope := e.scopeId
  let other := e.counterpartyId.getD []
  let n ← require v scope e
  let child := if e.direction = .debit then some n else node v other
  let parent := if e.direction = .debit then other else scope
  match child with
  | none => refuse (.notChildAndParent e.sequence scope other) (some scope)
  | some c =>
    if c.parentId = some parent then .ok v
    else refuse (.notChildAndParent e.sequence scope other) (some scope)

/-- `_check_governance`. -/
def checkGovernance (v : σ) (e : LedgerEntry) (amount : Value) : Except Error σ := do
  let v ← foldLegacy v e
  match e.entryType with
  | .funding => fund v e amount
  | .allocation => allocate v e amount
  | .release => releaseBetween v e
  | .circuitTripped | .circuitReset => do
    let v ← control v e.entryType.text e.scopeId e.timestamp e.memo
    .ok (noteEvent v (eventFor e))
  | .migrationSeal | .checkpoint => .ok v
  | .hold | .holdVoid | .spend | .reversal | .anchor => do
    let _ ← require v e.scopeId e
    .ok v

/-! ### An entry -/

/-- The position of an entry, and its hash. `checkHash` is off only for entries built a moment
ago. -/
def checkLink (v : σ) (e : LedgerEntry) (checkHash : Bool) : Except Error PUnit :=
  let c := core v
  if e.sequence ≠ (c.length + 1 : ℕ) then
    refuse (.sequenceGap (c.length + 1) e.sequence) (some e.scopeId)
  else if e.prevHash ≠ c.head then refuse (.brokenLink e.sequence) (some e.scopeId)
  else if e.version ∉ knownVersions then
    refuse (.unknownVersion e.sequence e.version) (some e.scopeId)
  else if checkHash then
    match e.recomputeHash with
    | .error (.value _) | .error .arithmetic =>
      refuse (.cannotBeHashed e.sequence) (some e.scopeId)
    | .error err => .error err
    | .ok digest =>
      if digest ≠ e.entryHash then refuse (.hashMismatch e.sequence) (some e.scopeId)
      else .ok ⟨⟩
  else .ok ⟨⟩

/-- The balance an entry leaves its scope with, and the net of the transfers around it. -/
def moveMoney (v : σ) (e : LedgerEntry) (amount : Value) : Except Error σ := do
  let expected ← add (balance v e.scopeId) (e.signedAmount amount)
  let agrees ← equals e.balanceAfter expected
  if ¬agrees then
    refuse (.balanceMismatch e.sequence e.balanceAfter expected) (some e.scopeId)
  else
    let v := if e.entryType.isZeroValue then v else setBalance v e.scopeId expected
    if e.entryType.isBalanced then do
      let net ← add (frame v).net (e.signedAmount amount)
      .ok (setFrame v { frame v with net := net })
    else .ok v

/-- The totals, the frontier and the position after an entry. -/
def advance (v : σ) (e : LedgerEntry) (amount : Value) : Except Error σ := do
  let c := core v
  let totals ← applyTotals c.totals e.entryType amount
  let frontier ← frontierAppend c.frontier c.length e.entryHash
  let v := if e.entryType = .migrationSeal then placeSeal v e else v
  .ok (setCore v { c with
    totals := totals
    frontier := frontier
    head := e.entryHash
    length := c.length + 1
    lastTimestamp := some e.timestamp })

/-- `apply`: verify an entry as the next link of the chain, then fold it in. -/
def apply (checkHash writing : Bool) (v : σ) (e : LedgerEntry) : Except Error σ := do
  checkLink v e checkHash
  let v ← checkVersion v e
  let (v, amount) ← checkShape v e
  let v ← beginTransaction v e
  let v ← moveMoney v e amount
  let v ← checkHolds v e amount
  let v ← checkFlows v e amount writing
  let v ← checkGovernance v e amount
  advance v e amount

/-- `finish`: close the last transaction, and fold in the control events a chain with no newer
entry never folded in. -/
def finish (v : σ) : Except Error σ := do
  let v ← endTransaction v
  if (core v).legacyApplied then .ok v else applyLegacy v

/-- `apply_legacy_event`: a control event a pre-0.1.2 writer added after the view was built. -/
def applyLegacyEvent (v : σ) (event : ControlEvent) : Except Error σ :=
  let c := core v
  control (setCore v { c with legacy := c.legacy ++ [event] }) event.eventType event.scopeId
    event.timestamp event.reason

end Rules

end AgentGov
