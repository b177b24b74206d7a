import AgentGov.Exceptions
import AgentGov.Foundation.Program
import AgentGov.Replay

/-!
# Units of work

A unit of work builds its entries against a view of the chain, checks them by the rules of a
replay, and is abandoned whole where anything raises (`src/src/agentgov/core.py`, lines
2578–2716). The ids and instants it needs are drawn from the world around the program.

## Main definitions

* `AgentGov.World`: the ids and instants the world answers with.
* `AgentGov.Pending`: a unit of work, and `Pending.post`.
* `AgentGov.Staging`: what an operation does with its unit of work.
-/

open Foundation

namespace AgentGov

/-- What the world outside the program answers, draw by draw. -/
structure World where
  /-- `uuid.uuid4()`. -/
  uuid : ℕ → UUID
  /-- `datetime.now(UTC)`. -/
  now : ℕ → Instant
  /-- `time.monotonic()`. -/
  monotonic : ℕ → ℚ

/-- `_Pending`: one unit of work, its view of the chain and the entries of its batch. -/
structure Pending where
  view : Overlay
  entries : List LedgerEntry := []
  /-- How many answers of the world have been drawn. -/
  draws : ℕ

/-! ### Building entries -/

/-- The amount a line posts. -/
def lineAmount (line : LedgerLine) : Except Exception Decimal :=
  if line.entryType.isZeroValue then do
    let zero ← equals line.amount 0
    if zero then .ok (Decimal.ofInt 0)
    else .error (.value (.lineMovesNoMoney line.entryType line.amount))
  else do
    let amount ← coerce (.number (some line.amount)) .floor quantumPlaces
    if amount.value? ≠ line.amount.value? then .error (.value (.lineNotQuantized line.amount))
    else if amount.worth ≤ 0 then .error (.value (.lineNotPositive amount))
    else .ok amount

/-- The checks of a line, and the amount it posts. -/
def checkLine (line : LedgerLine) : Except Exception Decimal :=
  if line.direction ∉ line.entryType.legalDirections then
    .error (.value (.illegalLine line.entryType line.direction))
  else do
    let amount ← lineAmount line
    if line.ref.isSome ∧ ¬line.entryType.isV3Referencing then
      .error (.value (.lineNamesNoHold line.entryType))
    else
      match checkTexts line.scopeId line.counterpartyId line.memo with
      | some problem => .error (.value (.badText problem))
      | none => .ok amount

/-- The datum of a balance, a sum of amounts of eight places. -/
def balanceDatum : Value → Decimal
  | .finite q => .finite (decide (q < 0)) (q * 10 ^ quantumPlaces).floor.natAbs (-quantumPlaces)
  | .infinite s => .infinity s

/-- What a transaction has built of its entries. -/
structure Built where
  running : Dict Text Value := ∅
  prevHash : Text
  sequence : ℕ
  entries : List LedgerEntry := []

/-- The entry of a line, before it is hashed. -/
def LedgerLine.entry (line : LedgerLine) (txn id : UUID) (now : Instant) (sequence : ℕ)
    (prevHash : Text) (amount balanceAfter : Decimal) : LedgerEntry where
  sequence := sequence
  entryId := id
  transactionId := txn
  timestamp := now
  entryType := line.entryType
  direction := line.direction
  scopeId := line.scopeId
  counterpartyId := line.counterpartyId
  amount := amount
  balanceAfter := balanceAfter
  prevHash := prevHash
  entryHash := []
  memo := line.memo
  ref := line.ref
  version := auditV3

/-- One more line of a transaction, its entry's id drawn. -/
def Built.line (view : Overlay) (txn : UUID) (now : Instant) (b : Built) (p : LedgerLine × UUID) :
    Except Exception Built := do
  let line := p.1
  let amount ← checkLine line
  let current := (b.running.get? line.scopeId).getD (view.balance line.scopeId)
  let draft := line.entry txn p.2 now (b.sequence + 1) b.prevHash amount (Decimal.ofInt 0)
  let after ← add current (draft.signedAmount amount.worth)
  -- the balance of no scope is the literal `ZERO`
  let balanceAfter :=
    if line.entryType.isScopeless ∧ after = 0 then Decimal.ofInt 0 else balanceDatum after
  let entry := { draft with balanceAfter := balanceAfter }
  let entryHash ← hashEntry entry
  .ok
    { running := if line.entryType.isZeroValue then b.running else b.running.set line.scopeId after
      prevHash := entryHash
      sequence := b.sequence + 1
      entries := b.entries ++ [{ entry with entryHash := entryHash }] }

namespace Pending

variable (w : World) (p : Pending)

/-- The instant of a transaction: the later of the clock and the newest entry. -/
def instant : Instant :=
  match p.view.lastTimestamp with
  | none => w.now p.draws
  | some last => if w.now p.draws < last then last else w.now p.draws

/-- A transaction's lines, each with the id drawn for its entry. -/
def drawn (lines : List LedgerLine) : List (LedgerLine × UUID) :=
  lines.zipIdx.map fun q => (q.1, w.uuid (p.draws + 1 + q.2))

/-- The entries of a transaction of `lines`, whose own id is drawn first. -/
def build (lines : List LedgerLine) : Except Exception Built :=
  runAll (Built.line p.view (w.uuid p.draws) (p.instant w))
    { prevHash := p.view.head, sequence := p.view.length } (p.drawn w lines)

/-- Skip the draws of a transaction of `lines`. -/
def skip (lines : List LedgerLine) : Pending := { p with draws := p.draws + 1 + lines.length }

/-- `post`: validate `lines` as one ledger transaction and add it to the work. Every rule a
replay would enforce is enforced by the same engine. -/
def post (lines : List LedgerLine) : Except Exception (List LedgerEntry × Pending) :=
  if lines = [] then .error (.value .noLines)
  else do
    let built ← p.build w lines
    let view ← (runAll (Rules.apply false true) p.view built.entries : Except Error Overlay)
    let view ← (Rules.endTransaction view : Except Error Overlay)
    .ok (built.entries, { p.skip lines with view := view, entries := p.entries ++ built.entries })

end Pending

/-! ### What an operation does with its unit of work -/

/-- The instructions a unit of work takes. -/
inductive Stage : Type → Type 1
  /-- `pending.post(lines)` -/
  | post (lines : List LedgerLine) : Stage (List LedgerEntry)
  /-- `pending.view` -/
  | view : Stage Overlay

/-- What an operation does with its unit of work. -/
abbrev Staging := Program Stage Exception

/-- A unit of work takes an instruction. What a refused transaction has drawn is drawn. -/
def stage (w : World) : Handler Stage Exception Pending
  | _, .post lines, p =>
    match p.post w lines with
    | .ok (entries, p) => (.ok entries, p)
    | .error e => (.error e, p.skip lines)
  | _, .view, p => (.ok p.view, p)

namespace Staging

/-- `(entry,) = pending.post([line])` -/
def post₁ (line : LedgerLine) : Staging LedgerEntry := do
  match ← Program.instr (.post [line]) with
  | [entry] => pure entry
  | _ => Program.raise (.value .noLines)

/-- `first, second = pending.post([line, other])` -/
def post₂ (line other : LedgerLine) : Staging (LedgerEntry × LedgerEntry) := do
  match ← Program.instr (.post [line, other]) with
  | [first, second] => pure (first, second)
  | _ => Program.raise (.value .noLines)

/-- A line that moves no money. -/
def event (kind : EntryType) (scope memo : Text) : LedgerLine where
  entryType := kind
  direction := .none
  scopeId := scope
  amount := Decimal.ofInt 0
  memo := memo

/-- `_stage_control`. -/
def control (kind : EntryType) (scope reason : Text) : Staging LedgerEntry :=
  post₁ (event kind scope reason)

/-- `_stage_trip`: add a trip to a unit of work, unless the scope is already latched. -/
def trip (scope reason : Text) : Staging (Option LedgerEntry) := do
  let view ← Program.instr .view
  if (view.tripOf scope).isSome then pure none
  else pure (some (← control .circuitTripped scope reason))

/-- `_exhausted`: whether the work leaves the scope spent out, with every hold on it settled. -/
def exhausted (tripOnExhaustion : Bool) (scope : Text) : Staging Bool := do
  let view ← Program.instr .view
  pure (tripOnExhaustion && decide (view.balance scope ≤ 0) && decide (view.holdsOpenIn scope = 0))

end Staging

end AgentGov
