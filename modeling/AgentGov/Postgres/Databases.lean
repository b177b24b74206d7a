import AgentGov.Foundation.SqlTables
import AgentGov.Postgres.Messages
import AgentGov.Postgres.Tables

/-!
# What a message does to a database

The tables of a store as they are installed, the statements that write a batch on its own, and
what those and the statements of messages do to the rows of a database
(`src/src/agentgov/postgres.py`, lines 867–905, 1881–1972, 1977–2013 and 2062–2070). The rows of a
store are those of the entries, scopes, events, authorizations and calls that its tables hold, and
statements change the ones as writes change the others.

## Main definitions

* `AgentGov.Postgres.catalog`: the tables a session writes.
* `AgentGov.Postgres.WriteBatch.statements`: a batch written on its own.
* `AgentGov.Postgres.Holds`, `AgentGov.Postgres.Serves`: the rows of some tables, and a database
  that serves a governor.

## Main results

* `AgentGov.Postgres.rel_send`, `AgentGov.Postgres.rel_write`: a rendering and a batch, as rows.
* `AgentGov.Postgres.Holds.same`: databases that hold the same have the same rows.
-/

open Foundation Foundation.Sql

namespace AgentGov.Postgres

/-! ### The tables that are installed -/

/-- A table of a schema. -/
def tableOf (schema : Schema) (name : String) : Table := ⟨schema.val, txt name⟩

/-- The columns of `entries`. -/
def entryDefs : List Column :=
  [⟨txt "sequence", .bigint, false, true⟩, ⟨txt "entry_id", .uuid, false, true⟩,
    ⟨txt "transaction_id", .uuid, false, false⟩, ⟨txt "timestamp", .text, false, false⟩,
    ⟨txt "entry_type", .text, false, false⟩, ⟨txt "direction", .text, false, false⟩,
    ⟨txt "scope_id", .text, false, false⟩, ⟨txt "counterparty_id", .text, true, false⟩,
    ⟨txt "amount", .text, false, false⟩, ⟨txt "balance_after", .text, false, false⟩,
    ⟨txt "prev_hash", .text, false, false⟩, ⟨txt "entry_hash", .text, false, false⟩,
    ⟨txt "memo", .text, false, false⟩, ⟨txt "version", .text, false, false⟩,
    ⟨txt "ref", .uuid, true, false⟩]

/-- What a row of `entries` holds in a column. -/
def entryCell (row : Row) (name : String) : Option Constant := cellOf entryDefs row (txt name)

/-- The check of `sequence`, and the trigger `extend_chain`: whether an entry links to the one
before it, and the first to the genesis hash. -/
def extendChain (genesis : Text) (rows : List Row) (row : Row) : Bool :=
  match (entryCell row "sequence").bind Constant.int? with
  | none => false
  | some n => 0 < n &&
    if n = 1 then entryCell row "prev_hash" = some (.string genesis)
    else rows.any fun r => (entryCell r "sequence").bind Constant.int? = some (n - 1) &&
      entryCell r "entry_hash" = entryCell row "prev_hash"

def entriesTable (genesis : Text) : TableDef := ⟨entryDefs, false, extendChain genesis⟩

def nodesTable : TableDef where
  columns := [⟨txt "scope_id", .text, false, true⟩, ⟨txt "parent_id", .text, true, false⟩,
    ⟨txt "depth", .integer, false, false⟩, ⟨txt "allocated", .text, false, false⟩,
    ⟨txt "created_at", .text, false, false⟩]
  numbered := false
  admits _ _ := true

/-- The rows of `control_events` are numbered in `id`. -/
def controlTable : TableDef where
  columns := [⟨txt "event_id", .uuid, false, true⟩, ⟨txt "timestamp", .text, false, false⟩,
    ⟨txt "event_type", .text, false, false⟩, ⟨txt "scope_id", .text, false, false⟩,
    ⟨txt "reason", .text, false, false⟩, ⟨txt "ledger_head_hash", .text, false, false⟩,
    ⟨txt "entry_id", .uuid, true, false⟩]
  numbered := true
  admits _ _ := true

def authorizationsTable : TableDef where
  columns := [⟨txt "authorization_id", .uuid, false, true⟩, ⟨txt "scope_id", .text, false, false⟩,
    ⟨txt "amount", .text, false, false⟩, ⟨txt "opened_at", .text, false, false⟩,
    ⟨txt "entry_id", .uuid, false, false⟩]
  numbered := false
  admits _ _ := true

def idempotencyTable : TableDef where
  columns := [⟨txt "key", .text, false, true⟩, ⟨txt "request", .text, false, false⟩,
    ⟨txt "outcome", .text, false, false⟩, ⟨txt "sequence", .bigint, false, false⟩,
    ⟨txt "created_at", .text, false, false⟩]
  numbered := false
  admits _ _ := true

/-- The tables a session writes. -/
def catalog (schema : Schema) (genesis : Text) (table : Table) : Option TableDef :=
  if table = tableOf schema "entries" then some (entriesTable genesis)
  else if table = tableOf schema "nodes" then some nodesTable
  else if table = tableOf schema "control_events" then some controlTable
  else if table = tableOf schema "open_authorizations" then some authorizationsTable
  else if table = tableOf schema "idempotency" then some idempotencyTable
  else none

/-! ### A batch on its own -/

/-- The statement that inserts one row. -/
def inserting (schema : Schema) (table : String) (columns : List String) (upsert : Option Upsert)
    (row : List SqlValue) : Statement :=
  .insert (tableOf schema table) (columns.map txt) [row.map constant] upsert

/-- The statement that closes one hold. -/
def closing (schema : Schema) (id : UUID) : Statement :=
  .delete (tableOf schema "open_authorizations") (txt "authorization_id") [constant (.uuid id)]

/-- `commit`: the statements that write a batch on its own. -/
def WriteBatch.statements (schema : Schema) (b : WriteBatch) :
    Except RenderError (List Statement) := do
  let entries ← b.entries.mapM entryRow
  .ok (insertion schema "entries" entryColumns none entries ++
    b.nodes.map (inserting schema "nodes" nodeColumns (some nodesUpsert) ∘ nodeRow) ++
    b.controlEvents.map (inserting schema "control_events" controlColumns none ∘ controlRow) ++
    b.opened.map
      (inserting schema "open_authorizations" authorizationColumns none ∘ authorizationRow) ++
    b.closed.map (closing schema) ++
    b.idempotency.map (inserting schema "idempotency" idempotencyColumns none ∘ idempotencyRow))

/-! ### Rows -/

/-- A row of some values. -/
def cells (row : List SqlValue) : Row := row.map constant

/-- A row of an entry. -/
def IsEntryRow (e : LedgerEntry) (r : Row) : Prop := ∃ row, entryRow e = .ok row ∧ r = cells row

/-- The rows of some entries. -/
def ShowsEntries (next : ℕ) (es : List LedgerEntry) (c : Contents) : Prop :=
  List.Forall₂ IsEntryRow es c.rows ∧ c.next = next

/-- The rows of some events and their numbers. -/
def ShowsControls (events : List (ℕ × ControlEvent) × ℕ) (c : Contents) : Prop :=
  c.rows = events.1.map (fun p => cells (controlRow p.2) ++ [.number p.1]) ∧ c.next = events.2

abbrev ShowsNodes := Shows NodeRow.scopeId (cells ∘ nodeRow)

abbrev ShowsAuthorizations := Shows Authorization.authorizationId (cells ∘ authorizationRow)

abbrev ShowsKeys := Shows IdempotencyRecord.key (cells ∘ idempotencyRow)

/-- The tables of a schema that a session writes. -/
def written (schema : Schema) : List Table :=
  [tableOf schema "entries", tableOf schema "nodes", tableOf schema "control_events",
    tableOf schema "open_authorizations", tableOf schema "idempotency"]

/-- Whether a database has the rows of some tables, and otherwise what another has. -/
structure Holds (schema : Schema) (base : Database) (t : Tables) (db : Database) : Prop where
  entries : ShowsEntries (base (tableOf schema "entries")).next t.entries
    (db (tableOf schema "entries"))
  nodes : ShowsNodes (base (tableOf schema "nodes")).next t.nodes (db (tableOf schema "nodes"))
  controls : ShowsControls (t.controls, t.nextControl) (db (tableOf schema "control_events"))
  authorizations : ShowsAuthorizations (base (tableOf schema "open_authorizations")).next
    t.authorizations (db (tableOf schema "open_authorizations"))
  keys : ShowsKeys (base (tableOf schema "idempotency")).next t.keys
    (db (tableOf schema "idempotency"))
  others : ∀ table, table ∉ written schema → db table = base table

/-- Whether a database holds some entries, and no authorization but of an entry. -/
def Serves (schema : Schema) (db : Database) (before : List LedgerEntry) : Prop :=
  ∃ t : Tables, t.Serves before ∧ Holds schema db t db

/-- Whether databases have the same rows in every table, and number the next alike. -/
def Same (db db' : Database) : Prop :=
  ∀ table, (db table).rows.Perm (db' table).rows ∧ (db table).next = (db' table).next

/-! ### Constants -/

theorem constant_injective : Function.Injective constant := by
  intro v w h
  exact (denotes_constant w v).mp (h ▸ (denotes_constant v v).mpr rfl)

@[simp] theorem int?_constant (n : ℤ) : (constant (.int n)).int? = some n := by
  rw [constant]
  split_ifs with hn
  · simp only [Constant.int?, Option.some.injEq]
    omega
  · simp only [Constant.int?, Option.some.injEq]
    omega

@[simp] theorem bigint_holds (n : ℤ) : SqlType.bigint.holds (constant (.int n)) = isBigint n := by
  rw [SqlType.holds.eq_def]
  simp [isBigint]

@[simp] theorem integer_holds (n : ℤ) :
    SqlType.integer.holds (constant (.int n)) = isInteger n := by
  rw [SqlType.holds.eq_def]
  simp [isInteger]

@[simp] theorem text_holds (t : Text) : SqlType.text.holds (constant (.text t)) = true := rfl

@[simp] theorem uuid_holds (u : UUID) : SqlType.uuid.holds (constant (.uuid u)) = true := by
  simp [constant, SqlType.holds]

@[simp] theorem text?_holds (t : Option Text) :
    (SqlType.text.holds (constant (.ofText? t)) || constant (.ofText? t) = .null) = true := by
  cases t <;> rfl

@[simp] theorem uuid?_holds (u : Option UUID) :
    (SqlType.uuid.holds (constant (.ofUuid? u)) || constant (.ofUuid? u) = .null) = true := by
  cases u with
  | none => rfl
  | some u => simp [SqlValue.ofUuid?]

/-! ### What rows hold -/

variable {genesis : Text}

theorem entry_positions : (entryDefs.findIdx fun c => c.name = txt "sequence") = 0 ∧
    (entryDefs.findIdx fun c => c.name = txt "entry_id") = 1 ∧
    (entryDefs.findIdx fun c => c.name = txt "prev_hash") = 10 ∧
    (entryDefs.findIdx fun c => c.name = txt "entry_hash") = 11 := by
  decide +kernel

/-- What the row of an entry holds where the constraints look. -/
theorem IsEntryRow.spec (genesis : Text) {e : LedgerEntry} {r : Row} (h : IsEntryRow e r) :
    entryCell r "sequence" = some (constant (.int e.sequence)) ∧
      entryCell r "entry_id" = some (constant (.uuid e.entryId)) ∧
      entryCell r "prev_hash" = some (constant (.text e.prevHash)) ∧
      entryCell r "entry_hash" = some (constant (.text e.entryHash)) ∧
      (entriesTable genesis).fits r = isBigint e.sequence := by
  obtain ⟨row, hrow, rfl⟩ := h
  obtain ⟨amount, -, hrow⟩ := bind_eq_ok.mp hrow
  obtain ⟨balance, -, hrow⟩ := bind_eq_ok.mp hrow
  obtain rfl := Except.ok.inj hrow
  obtain ⟨hsequence, hid, hprev, hhash⟩ := entry_positions
  simp only [entryCell, cellOf, hsequence, hid, hprev, hhash]
  refine ⟨rfl, rfl, rfl, rfl, ?_⟩
  simp [TableDef.fits, entriesTable, entryDefs, cells]

theorem conflicts_entries (rows : List Row) (r : Row) :
    (entriesTable genesis).conflicts rows r =
      (rows.any (fun s => entryCell s "sequence" = entryCell r "sequence") ||
        rows.any fun s => entryCell s "entry_id" = entryCell r "entry_id") := by
  have hunique : ((entriesTable genesis).columns.filter Column.unique).map Column.name =
      [txt "sequence", txt "entry_id"] := rfl
  rw [TableDef.conflicts_eq _ hunique]
  simp only [List.any_cons, List.any_nil, Bool.or_false]
  rfl

/-- An entry's row is inserted or refused as the entry is. -/
theorem rel_insertEntry {next : ℕ} {es : List LedgerEntry} {c : Contents} {e : LedgerEntry}
    {r : Row} (h : ShowsEntries next es c) (hr : IsEntryRow e r) :
    Option.Rel (ShowsEntries next) (insertEntry genesis es e)
      ((entriesTable genesis).insertRow c r) := by
  obtain ⟨hsequence, hid, hprev, -, hfits⟩ := hr.spec genesis
  have hmatch : ∀ {α : Type} [DecidableEq α] {name : String} (value : LedgerEntry → α)
      (v : α → SqlValue), Function.Injective v →
      (∀ d s, IsEntryRow d s → entryCell s name = some (constant (v (value d)))) →
      es.any (fun d => value d = value e) =
        c.rows.any fun s => entryCell s name = entryCell r name := by
    intro α _ name value v hv hcell
    refine any_eq_of_forall₂ h.1 fun d s hs => decide_eq_decide.mpr ?_
    rw [hcell d s hs, hcell e r hr, Option.some.injEq, constant_injective.eq_iff, hv.eq_iff]
  have hsequences := hmatch LedgerEntry.sequence SqlValue.int (fun _ _ h => by injection h)
    fun d s hs => (hs.spec genesis).1
  have hids := hmatch LedgerEntry.entryId SqlValue.uuid (fun _ _ h => by injection h)
    fun d s hs => (hs.spec genesis).2.1
  have hlinks : c.rows.any (fun s => (entryCell s "sequence").bind Constant.int? =
        some (e.sequence - 1) && entryCell s "entry_hash" = entryCell r "prev_hash") =
      es.any fun d => d.sequence = e.sequence - 1 && d.entryHash = e.prevHash := by
    refine (any_eq_of_forall₂ h.1 fun d s hs => ?_).symm
    obtain ⟨hseq, -, -, hhash, -⟩ := hs.spec genesis
    rw [hseq, hhash, hprev, Option.bind_some, int?_constant]
    simp [constant_injective.eq_iff]
  have hadmits : (entriesTable genesis).admits c.rows r =
      (decide (0 < e.sequence) && extendsChain genesis es e) := by
    change extendChain genesis c.rows r = _
    rw [extendChain, hsequence, Option.bind_some, int?_constant]
    dsimp only
    rw [hlinks, extendsChain, hprev]
    split_ifs <;> simp [constant]
  have hgood : (extendsChain genesis es e ∧ isBigint e.sequence ∧ 0 < e.sequence ∧
      es.all fun r => r.sequence ≠ e.sequence ∧ r.entryId ≠ e.entryId) ↔
      ((entriesTable genesis).admits c.rows r && (entriesTable genesis).fits r &&
        !(entriesTable genesis).conflicts c.rows r) = true := by
    rw [hadmits, hfits, conflicts_entries, ← hsequences, ← hids]
    simp only [Bool.and_eq_true, Bool.not_eq_true', Bool.or_eq_false_iff, decide_eq_true_eq,
      List.all_eq_true, List.any_eq_false]
    constructor
    · rintro ⟨hextends, hbig, hpos, hall⟩
      exact ⟨⟨⟨hpos, hextends⟩, hbig⟩, fun d hd => (hall d hd).1, fun d hd => (hall d hd).2⟩
    · rintro ⟨⟨⟨hpos, hextends⟩, hbig⟩, hseq, hids⟩
      exact ⟨hextends, hbig, hpos, fun d hd => ⟨hseq d hd, hids d hd⟩⟩
  rw [insertEntry, TableDef.insertRow]
  by_cases hcond : extendsChain genesis es e ∧ isBigint e.sequence ∧ 0 < e.sequence ∧
      es.all fun r => r.sequence ≠ e.sequence ∧ r.entryId ≠ e.entryId
  · rw [if_pos hcond, if_pos (hgood.mp hcond)]
    exact .some ⟨List.rel_append h.1 (.cons hr .nil), h.2⟩
  · rw [if_neg hcond, if_neg fun hc => hcond (hgood.mpr hc)]
    exact .none

theorem nodes_positions :
    (nodesTable.columns.findIdx fun c => c.name = txt "scope_id") = 0 ∧
    (nodesTable.columns.findIdx fun c => c.name = txt "parent_id") = 1 ∧
    (nodesTable.columns.findIdx fun c => c.name = txt "depth") = 2 ∧
    (nodesTable.columns.findIdx fun c => c.name = txt "allocated") = 3 := by
  decide +kernel

theorem cell_nodeRow (n : NodeRow) :
    nodesTable.cell (cells (nodeRow n)) (txt "scope_id") = some (constant (.text n.scopeId)) := by
  rw [TableDef.cell, cellOf, nodes_positions.1]
  rfl

theorem fits_nodeRow (n : NodeRow) : nodesTable.fits (cells (nodeRow n)) = isInteger n.depth := by
  simp [TableDef.fits, nodesTable, cells, nodeRow]

theorem agrees_nodeRow (n m : NodeRow) :
    nodesTable.agrees nodesUpsert.target (cells (nodeRow n)) (cells (nodeRow m)) =
      decide (n.scopeId = m.scopeId) := by
  simp [TableDef.agrees, nodesUpsert, cell_nodeRow, constant_injective.eq_iff]

theorem updated_nodeRow (n m : NodeRow) :
    nodesTable.updated nodesUpsert (cells (nodeRow m)) (cells (nodeRow n)) =
      cells (nodeRow { m with scopeId := n.scopeId, createdAt := n.createdAt }) := by
  obtain ⟨-, hparent, hdepth, hallocated⟩ := nodes_positions
  simp only [TableDef.updated, nodesUpsert, List.foldl_cons, List.foldl_nil, TableDef.cell,
    TableDef.position, cellOf, hparent, hdepth, hallocated]
  simp [cells, nodeRow]

theorem key_nodeRow {n m : NodeRow} (h : cells (nodeRow n) = cells (nodeRow m)) :
    n.scopeId = m.scopeId := by
  have hcell := cell_nodeRow n
  rw [h, cell_nodeRow, Option.some.injEq, constant_injective.eq_iff] at hcell
  exact (SqlValue.text.inj hcell).symm

/-- A scope's row is inserted, set or refused as the scope is. -/
theorem rel_upsertNode {next : ℕ} {f : Text → Option NodeRow} {c : Contents} (m : NodeRow)
    (h : ShowsNodes next f c) :
    Option.Rel (ShowsNodes next) (upsertNode f m)
      (nodesTable.upsertRow nodesUpsert c (cells (nodeRow m))) := by
  have hp : ∀ n, nodesTable.agrees nodesUpsert.target ((cells ∘ nodeRow) n) (cells (nodeRow m)) =
      true ↔ n.scopeId = m.scopeId := by
    intro n
    rw [Function.comp_apply, agrees_nodeRow, decide_eq_true_eq]
  have hany := h.1.any_iff (p := fun r => nodesTable.agrees nodesUpsert.target r
    (cells (nodeRow m))) hp
  rw [TableDef.upsertRow]
  cases hf : f m.scopeId with
  | none =>
    rw [hf] at hany
    rw [if_neg (by rw [hany]; exact Bool.false_ne_true)]
    have hrel := h.insertRow (a := m) (d := nodesTable) rfl rfl rfl fun a b => by
      simp [cell_nodeRow, constant_injective.eq_iff]
    rw [hf, Function.comp_apply, fits_nodeRow] at hrel
    simpa [upsertNode, hf] using hrel
  | some a =>
    rw [hf] at hany
    have hkey : a.scopeId = m.scopeId := h.1.keyed _ _ hf
    rw [if_pos (hany.mpr rfl)]
    have hfits : (c.rows.all fun r => !nodesTable.agrees nodesUpsert.target r (cells (nodeRow m)) ||
        nodesTable.fits (nodesTable.updated nodesUpsert (cells (nodeRow m)) r)) = true ∨
        isInteger m.depth = false := by
      by_cases hdepth : isInteger m.depth = true
      · refine Or.inl (List.all_eq_true.mpr fun r hr => ?_)
        obtain ⟨n, -, rfl⟩ := (h.1.mem r).mp hr
        rw [Function.comp_apply, updated_nodeRow, fits_nodeRow, hdepth, Bool.or_true]
      · exact Or.inr (Bool.eq_false_iff.mpr hdepth)
    rw [fits_nodeRow, upsertNode, hf]
    rcases hfits with hfits | hdepth
    · rw [hfits, Bool.and_true]
      by_cases hdepth : isInteger m.depth = true
      · rw [if_pos hdepth, if_pos hdepth]
        have hset : ∀ n, f n.scopeId = some n →
            (if nodesTable.agrees nodesUpsert.target ((cells ∘ nodeRow) n) (cells (nodeRow m)) then
              nodesTable.updated nodesUpsert (cells (nodeRow m)) ((cells ∘ nodeRow) n)
            else (cells ∘ nodeRow) n) =
              (cells ∘ nodeRow) (if n.scopeId = a.scopeId then
                { m with createdAt := a.createdAt } else n) := by
          intro n hn
          rw [Function.comp_apply, agrees_nodeRow, updated_nodeRow, hkey]
          by_cases hsame : n.scopeId = m.scopeId
          · have hna : n = a := by
              rw [hsame, hf] at hn
              exact (Option.some.inj hn).symm
            rw [if_pos (decide_eq_true hsame), if_pos hsame, hna, hkey]
            rfl
          · rw [if_neg (by simpa using hsame), if_neg hsame]
            rfl
        have hreplace := h.1.replace (fun n m => key_nodeRow)
          (b := { m with createdAt := a.createdAt }) (by rw [hkey, hf]) hkey.symm (fun r =>
            if nodesTable.agrees nodesUpsert.target r (cells (nodeRow m)) then
              nodesTable.updated nodesUpsert (cells (nodeRow m)) r
            else r) hset
        rw [hkey] at hreplace
        exact .some ⟨hreplace, h.2⟩
      · rw [if_neg hdepth, if_neg hdepth]
        exact .none
    · rw [hdepth]
      exact .none

theorem controls_positions :
    (controlTable.columns.findIdx fun c => c.name = txt "event_id") = 0 := by
  decide +kernel

/-- An event's row is numbered, or refused as the event is. -/
theorem rel_insertControl {events : List (ℕ × ControlEvent) × ℕ} {c : Contents}
    (e : ControlEvent) (h : ShowsControls events c) :
    Option.Rel ShowsControls (insertControl events e)
      (controlTable.insertRow c (cells (controlRow e))) := by
  have hfits : controlTable.fits (cells (controlRow e)) = true := by
    simp [TableDef.fits, controlTable, cells, controlRow]
  have hunique : (controlTable.columns.filter Column.unique).map Column.name =
      [txt "event_id"] := rfl
  have hcell : ∀ (d : ControlEvent) (more : Row),
      controlTable.cell (cells (controlRow d) ++ more) (txt "event_id") =
        some (constant (.uuid d.eventId)) := by
    intro d more
    rw [TableDef.cell, cellOf, controls_positions]
    rfl
  have hconflicts : (!controlTable.conflicts c.rows (cells (controlRow e))) =
      events.1.all fun r => r.2.eventId ≠ e.eventId := by
    have hself := hcell e []
    rw [List.append_nil] at hself
    rw [TableDef.conflicts_eq _ hunique, h.1]
    simp [hself, hcell, List.all_eq_not_any_not, constant_injective.eq_iff, Function.comp_def]
  rw [insertControl, TableDef.insertRow, hfits, hconflicts]
  change Option.Rel _ _ (if (true && true && _) = true then _ else _)
  rw [Bool.true_and, Bool.true_and]
  by_cases hall : (events.1.all fun r => r.2.eventId ≠ e.eventId) = true
  · rw [if_pos hall, if_pos hall]
    refine .some ⟨?_, congrArg (· + 1) h.2⟩
    simp [h.1, h.2, controlTable]
  · rw [if_neg hall, if_neg hall]
    exact .none

theorem authorizations_positions :
    (authorizationsTable.columns.findIdx fun c => c.name = txt "authorization_id") = 0 := by
  decide +kernel

theorem cell_authorizationRow (a : Authorization) :
    authorizationsTable.cell (cells (authorizationRow a)) (txt "authorization_id") =
      some (constant (.uuid a.authorizationId)) := by
  rw [TableDef.cell, cellOf, authorizations_positions]
  rfl

/-- A hold's row is inserted or refused as the hold is. -/
theorem rel_insertAuthorization {next : ℕ} {f : UUID → Option Authorization} {c : Contents}
    (a : Authorization) (h : ShowsAuthorizations next f c) :
    Option.Rel (ShowsAuthorizations next) (insertAuthorization f a)
      (authorizationsTable.insertRow c (cells (authorizationRow a))) := by
  have hrel := h.insertRow (a := a) (d := authorizationsTable) rfl rfl rfl fun a b => by
    simp [cell_authorizationRow, constant_injective.eq_iff]
  have hfits : authorizationsTable.fits (cells (authorizationRow a)) = true := by
    simp [TableDef.fits, authorizationsTable, cells, authorizationRow]
  simpa [insertAuthorization, hfits] using hrel

/-- The rows of some holds are deleted as the holds are. -/
theorem shows_deleteAuthorizations {next : ℕ} {f : UUID → Option Authorization} {c : Contents}
    (h : ShowsAuthorizations next f c) (ids : List UUID) :
    ShowsAuthorizations next (ids.foldl deleteAuthorization f)
      (authorizationsTable.without (txt "authorization_id")
        (ids.map fun id => constant (.uuid id)) c) := by
  rw [deleteAuthorizations_eq]
  refine ⟨h.1.delete fun a => ?_, h.2⟩
  simp only [Function.comp_apply, cell_authorizationRow, List.all_map, List.all_eq_true, ne_eq,
    decide_not, Bool.not_eq_true', decide_eq_false_iff_not, Option.some.injEq,
    constant_injective.eq_iff, SqlValue.uuid.injEq]
  exact ⟨fun hall hmem => hall _ hmem rfl, fun hnot id hid heq => hnot (heq ▸ hid)⟩

theorem keys_positions : (idempotencyTable.columns.findIdx fun c => c.name = txt "key") = 0 := by
  decide +kernel

theorem cell_idempotencyRow (r : IdempotencyRecord) :
    idempotencyTable.cell (cells (idempotencyRow r)) (txt "key") = some (constant (.text r.key)) := by
  rw [TableDef.cell, cellOf, keys_positions]
  rfl

/-- A call's row is inserted or refused as the call is. -/
theorem rel_insertKey {next : ℕ} {f : Text → Option IdempotencyRecord} {c : Contents}
    (r : IdempotencyRecord) (h : ShowsKeys next f c) :
    Option.Rel (ShowsKeys next) (insertKey f r)
      (idempotencyTable.insertRow c (cells (idempotencyRow r))) := by
  have hrel := h.insertRow (a := r) (d := idempotencyTable) rfl rfl rfl fun a b => by
    simp [cell_idempotencyRow, constant_injective.eq_iff]
  have hfits : idempotencyTable.fits (cells (idempotencyRow r)) = isBigint r.sequence := by
    simp [TableDef.fits, idempotencyTable, cells, idempotencyRow]
  rw [Function.comp_apply, hfits] at hrel
  exact hrel

/-! ### Statements of one table -/

variable {schema : Schema}

/-- The tables a session writes differ. -/
theorem written_nodup (schema : Schema) : (written schema).Nodup := by
  have hnames : ((["entries", "nodes", "control_events", "open_authorizations",
      "idempotency"] : List String).map txt).Nodup := by decide +kernel
  have htables := hnames.map (f := Table.mk schema.val) fun _ _ h => by injection h
  rwa [List.map_map] at htables

theorem catalog_written (schema : Schema) (genesis : Text) : catalog schema genesis (tableOf schema "entries") =
      some (entriesTable genesis) ∧
    catalog schema genesis (tableOf schema "nodes") = some nodesTable ∧
    catalog schema genesis (tableOf schema "control_events") = some controlTable ∧
    catalog schema genesis (tableOf schema "open_authorizations") = some authorizationsTable ∧
    catalog schema genesis (tableOf schema "idempotency") = some idempotencyTable := by
  have hnodup := written_nodup schema
  simp only [written, List.nodup_cons, List.mem_cons, List.not_mem_nil, or_false, not_or] at hnodup
  obtain ⟨⟨h₁, h₂, h₃, h₄⟩, ⟨h₅, h₆, h₇⟩, ⟨h₈, h₉⟩, h₁₀, -⟩ := hnodup
  simp [catalog, Ne.symm h₁, Ne.symm h₂, Ne.symm h₃, Ne.symm h₄, Ne.symm h₅, Ne.symm h₆,
    Ne.symm h₇, Ne.symm h₈, Ne.symm h₉, Ne.symm h₁₀]

section OneTable

variable {table : String} {d : TableDef} {columns : List String} {upsert : Option Upsert}

/-- The statement of a rendering inserts its rows. -/
theorem does_insertion (columns : List String) (hd : catalog schema genesis (tableOf schema table) = some d)
    (hcolumns : d.columns.map Column.name = columns.map txt) {rows : List (List SqlValue)}
    (hrows : d.apart upsert (rows.map cells)) :
    Does (catalog schema genesis) (tableOf schema table)
      (fun c => (rows.map cells).foldlM (d.place upsert) c)
      (insertion schema table columns upsert rows) := by
  rw [insertion]
  split_ifs with hnil
  · subst hnil
    exact .nil
  · rw [← hcolumns]
    exact does_insert hd hrows

/-- The statements of a batch insert its rows one by one. -/
theorem does_inserting (hd : catalog schema genesis (tableOf schema table) = some d)
    (hcolumns : d.columns.map Column.name = columns.map txt) {α : Type}
    (row : α → List SqlValue) (l : List α) :
    Does (catalog schema genesis) (tableOf schema table)
      (fun c => (l.map (cells ∘ row)).foldlM (d.place upsert) c)
      (l.map (inserting schema table columns upsert ∘ row)) := by
  have hdoes := does_inserts hd upsert (l.map (cells ∘ row))
  rw [hcolumns, List.map_map] at hdoes
  exact hdoes

theorem does_deletion (ids : List UUID) :
    Does (catalog schema genesis) (tableOf schema "open_authorizations")
      (fun c => some (authorizationsTable.without (txt "authorization_id")
        (ids.map fun id => constant (.uuid id)) c)) (deletion schema ids) := by
  obtain ⟨-, -, -, hd, -⟩ := catalog_written schema genesis
  rw [deletion]
  split_ifs with hnil
  · have hnone : (fun c => some (authorizationsTable.without (txt "authorization_id")
        (ids.map fun id => constant (.uuid id)) c)) = some :=
      funext fun c => by simp [TableDef.without, hnil]
    rw [hnone]
    exact .nil
  · exact does_delete hd _ _

theorem does_closing (ids : List UUID) :
    Does (catalog schema genesis) (tableOf schema "open_authorizations")
      (fun c => some (authorizationsTable.without (txt "authorization_id")
        (ids.map fun id => constant (.uuid id)) c)) (ids.map (closing schema)) := by
  obtain ⟨-, -, -, hd, -⟩ := catalog_written schema genesis
  have hdoes := does_deletes hd (txt "authorization_id") (ids.map fun id => constant (.uuid id))
  rw [List.map_map] at hdoes
  exact hdoes

end OneTable

/-! ### Tables and their rows -/

section Relating

variable {next : ℕ} {c : Contents}

/-- Values and the rows made of them. -/
theorem forall₂_cells {α : Type} (row : α → List SqlValue) (l : List α) :
    List.Forall₂ (fun a r => r = cells (row a)) l (l.map (cells ∘ row)) :=
  List.forall₂_map_right_iff.mpr (List.forall₂_same.mpr fun _ _ => rfl)

theorem rel_insertEntries {es rows : List LedgerEntry} {made : List (List SqlValue)}
    (h : ShowsEntries next rows c) (hmade : es.mapM entryRow = .ok made) :
    Option.Rel (ShowsEntries next) (es.foldlM (insertEntry genesis) rows)
      ((made.map cells).foldlM ((entriesTable genesis).place none) c) := by
  refine rel_foldlM (Q := IsEntryRow) (fun _ _ _ _ hs hr => rel_insertEntry hs hr) h ?_
  rw [List.forall₂_map_right_iff]
  exact (mapM_eq_ok.mp hmade).imp fun e row hrow => ⟨row, hrow, rfl⟩

theorem rel_upsertNodes {rows : Text → Option NodeRow} (h : ShowsNodes next rows c)
    (ns : List NodeRow) :
    Option.Rel (ShowsNodes next) (ns.foldlM upsertNode rows)
      ((ns.map (cells ∘ nodeRow)).foldlM (nodesTable.place (some nodesUpsert)) c) := by
  refine rel_foldlM (fun f c n r hs hr => ?_) h (forall₂_cells nodeRow ns)
  subst hr
  exact rel_upsertNode n hs

theorem rel_insertControls {rows : List (ℕ × ControlEvent) × ℕ} (h : ShowsControls rows c)
    (es : List ControlEvent) :
    Option.Rel ShowsControls (es.foldlM insertControl rows)
      ((es.map (cells ∘ controlRow)).foldlM (controlTable.place none) c) := by
  refine rel_foldlM (fun events c e r hs hr => ?_) h (forall₂_cells controlRow es)
  subst hr
  exact rel_insertControl e hs

/-- Holds opened and closed, and their rows. -/
theorem rel_turnOver {rows : UUID → Option Authorization} (h : ShowsAuthorizations next rows c)
    (opened : List Authorization) (closed : List UUID) :
    Option.Rel (ShowsAuthorizations next) (turnOver rows opened closed)
      ((opened.map (cells ∘ authorizationRow)).foldlM (authorizationsTable.place none) c >>=
        fun c => some (authorizationsTable.without (txt "authorization_id")
          (closed.map fun id => constant (.uuid id)) c)) := by
  refine rel_bind (rel_foldlM (fun f c a r hs hr => ?_) h (forall₂_cells authorizationRow opened))
    fun f c hs => .some (shows_deleteAuthorizations hs closed)
  subst hr
  exact rel_insertAuthorization a hs

theorem rel_insertKeys {rows : Text → Option IdempotencyRecord} (h : ShowsKeys next rows c)
    (rs : List IdempotencyRecord) :
    Option.Rel (ShowsKeys next) (rs.foldlM insertKey rows)
      ((rs.map (cells ∘ idempotencyRow)).foldlM (idempotencyTable.place none) c) := by
  refine rel_foldlM (fun f c a r hs hr => ?_) h (forall₂_cells idempotencyRow rs)
  subst hr
  exact rel_insertKey a hs

end Relating

/-- Statements of one table after the other change rows as the tables are changed. -/
theorem Holds.assemble {base db : Database} {t : Tables} (h : Holds schema base t db)
    {ss₁ ss₂ ss₃ ss₄ ss₅ : List Statement} {f₁ f₂ f₃ f₄ f₅ : Contents → Option Contents}
    (does₁ : Does (catalog schema genesis) (tableOf schema "entries") f₁ ss₁)
    (does₂ : Does (catalog schema genesis) (tableOf schema "nodes") f₂ ss₂)
    (does₃ : Does (catalog schema genesis) (tableOf schema "control_events") f₃ ss₃)
    (does₄ : Does (catalog schema genesis) (tableOf schema "open_authorizations") f₄ ss₄)
    (does₅ : Does (catalog schema genesis) (tableOf schema "idempotency") f₅ ss₅)
    {entries : Option (List LedgerEntry)} {nodes : Option (Text → Option NodeRow)}
    {controls : Option (List (ℕ × ControlEvent) × ℕ)}
    {authorizations : Option (UUID → Option Authorization)}
    {keys : Option (Text → Option IdempotencyRecord)}
    (rel₁ : Option.Rel (ShowsEntries (base (tableOf schema "entries")).next) entries
      (f₁ (db (tableOf schema "entries"))))
    (rel₂ : Option.Rel (ShowsNodes (base (tableOf schema "nodes")).next) nodes
      (f₂ (db (tableOf schema "nodes"))))
    (rel₃ : Option.Rel ShowsControls controls (f₃ (db (tableOf schema "control_events"))))
    (rel₄ : Option.Rel (ShowsAuthorizations (base (tableOf schema "open_authorizations")).next)
      authorizations (f₄ (db (tableOf schema "open_authorizations"))))
    (rel₅ : Option.Rel (ShowsKeys (base (tableOf schema "idempotency")).next) keys
      (f₅ (db (tableOf schema "idempotency")))) :
    Option.Rel (Holds schema base) (assemble entries nodes controls authorizations keys)
      (execAll (catalog schema genesis) db (ss₁ ++ (ss₂ ++ (ss₃ ++ (ss₄ ++ ss₅))))) := by
  have hnodup := written_nodup schema
  simp only [written, List.nodup_cons, List.mem_cons, List.not_mem_nil, or_false, not_or] at hnodup
  obtain ⟨⟨h₁, h₂, h₃, h₄⟩, ⟨h₅, h₆, h₇⟩, ⟨h₈, h₉⟩, h₁₀, -⟩ := hnodup
  rw [execAll_append, does₁, Option.bind_map]
  refine rel_bind rel₁ fun es c₁ hc₁ => ?_
  rw [Function.comp_apply, execAll_append, does₂, Option.bind_map,
    Function.update_of_ne (Ne.symm h₁)]
  refine rel_bind rel₂ fun ns c₂ hc₂ => ?_
  rw [Function.comp_apply, execAll_append, does₃, Option.bind_map,
    Function.update_of_ne (Ne.symm h₅), Function.update_of_ne (Ne.symm h₂)]
  refine rel_bind rel₃ fun cs c₃ hc₃ => ?_
  rw [Function.comp_apply, execAll_append, does₄, Option.bind_map,
    Function.update_of_ne (Ne.symm h₈), Function.update_of_ne (Ne.symm h₆),
    Function.update_of_ne (Ne.symm h₃)]
  refine rel_bind rel₄ fun as c₄ hc₄ => ?_
  rw [Function.comp_apply, does₅, Option.map_eq_bind,
    Function.update_of_ne (Ne.symm h₁₀), Function.update_of_ne (Ne.symm h₉),
    Function.update_of_ne (Ne.symm h₇), Function.update_of_ne (Ne.symm h₄)]
  refine rel_bind rel₅ fun ks c₅ hc₅ => .some ?_
  refine ⟨?_, ?_, ?_, ?_, ?_, fun table htable => ?_⟩
  · simpa [Function.update_apply, h₁, h₂, h₃, h₄] using hc₁
  · simpa [Function.update_apply, h₅, h₆, h₇] using hc₂
  · simpa [Function.update_apply, h₈, h₉] using hc₃
  · simpa [Function.update_apply, h₁₀] using hc₄
  · simpa [Function.update_apply] using hc₅
  · simp only [written, List.mem_cons, List.not_mem_nil, or_false, not_or] at htable
    rw [← h.others table (by simpa [written] using htable)]
    simp [htable]

/-! ### Sessions and their rows -/

variable {base db : Database} {t : Tables}

/-- What is left of the scopes of some batches holds each of them once. -/
theorem Writes.keyed_of (batches : List WriteBatch) :
    ∀ scope n, (Writes.of batches).nodes.get? scope = some n → n.scopeId = scope := by
  have hadd : ∀ w : Writes, (∀ scope n, w.nodes.get? scope = some n → n.scopeId = scope) →
      ∀ scope n, (batches.foldl Writes.add w).nodes.get? scope = some n → n.scopeId = scope := by
    induction batches with
    | nil => exact fun w hw => hw
    | cons b batches ih =>
      refine fun w hw => ih (w.add b) fun scope n hn => ?_
      rw [Writes.add_eq, (Writes.closeAll_spec (w.take b) b.closed).1.2.1] at hn
      exact Dict.keyed_setAll hw b.nodes scope n hn
  exact hadd {} fun _ _ h => nomatch h

/-- What is left of the entries of some batches is all of them. -/
theorem Writes.entries_of (batches : List WriteBatch) :
    (Writes.of batches).entries = batches.flatMap WriteBatch.entries := by
  have hadd : ∀ w : Writes, (batches.foldl Writes.add w).entries =
      w.entries ++ batches.flatMap WriteBatch.entries := by
    induction batches with
    | nil => exact fun w => (List.append_nil _).symm
    | cons b batches ih =>
      intro w
      rw [List.foldl_cons, ih, Writes.add_eq, (Writes.closeAll_spec (w.take b) b.closed).1.1,
        List.flatMap_cons, Writes.take, List.append_assoc]
  exact hadd {}

/-- The statements of a rendering change rows as what is left to send changes tables. -/
theorem rel_send (h : Holds schema base t db) {batches : List WriteBatch} {ss : List Statement}
    (hss : intended schema batches = .ok ss) :
    Option.Rel (Holds schema base) (t.send genesis (Writes.of batches))
      (execAll (catalog schema genesis) db ss) := by
  obtain ⟨entries, hentries, hss⟩ := bind_eq_ok.mp hss
  obtain rfl := Except.ok.inj hss
  obtain ⟨hc₁, hc₂, hc₃, hc₄, hc₅⟩ := catalog_written schema genesis
  have hapart : nodesTable.apart (some nodesUpsert)
      (((Writes.of batches).nodes.values.map nodeRow).map cells) := by
    intro u hu
    obtain rfl := Option.some.inj hu
    rw [List.map_map, List.pairwise_map]
    have hnodup := Dict.nodup_values_map (Writes.keyed_of batches)
    refine (List.pairwise_map.mp hnodup).imp fun {m n} hne => ?_
    rw [Function.comp_apply, Function.comp_apply, agrees_nodeRow, decide_eq_false hne]
  have hentriesDoes := does_insertion entryColumns hc₁ rfl
    ((entriesTable genesis).apart_none (entries.map cells))
  have hnodesDoes := does_insertion nodeColumns hc₂ rfl hapart
  have hcontrolsDoes := does_insertion controlColumns hc₃ rfl
    (controlTable.apart_none (((Writes.of batches).controls.map controlRow).map cells))
  have hopenedDoes := does_insertion authorizationColumns hc₄ rfl
    (authorizationsTable.apart_none
      (((Writes.of batches).opened.values.map authorizationRow).map cells))
  have hkeysDoes := does_insertion idempotencyColumns hc₅ rfl
    (idempotencyTable.apart_none (((Writes.of batches).calls.map idempotencyRow).map cells))
  simp only [List.append_assoc, Tables.send]
  rw [← List.append_assoc (insertion schema "open_authorizations" _ _ _)]
  refine h.assemble hentriesDoes hnodesDoes hcontrolsDoes
    (hopenedDoes.append (does_deletion (Writes.of batches).closed)) hkeysDoes
    (rel_insertEntries h.entries hentries) ?_ ?_ ?_ ?_
  · simp only [List.map_map]
    exact rel_upsertNodes h.nodes _
  · simp only [List.map_map]
    exact rel_insertControls h.controls _
  · simp only [List.map_map]
    exact rel_turnOver h.authorizations _ _
  · simp only [List.map_map]
    exact rel_insertKeys h.keys _

/-- The statements of a batch change rows as writing it changes tables. -/
theorem rel_write (h : Holds schema base t db) {b : WriteBatch} {ss : List Statement}
    (hss : b.statements schema = .ok ss) :
    Option.Rel (Holds schema base) (t.write genesis b)
      (execAll (catalog schema genesis) db ss) := by
  obtain ⟨entries, hentries, hss⟩ := bind_eq_ok.mp hss
  obtain rfl := Except.ok.inj hss
  obtain ⟨hc₁, hc₂, hc₃, hc₄, hc₅⟩ := catalog_written schema genesis
  have hentriesDoes := does_insertion entryColumns hc₁ rfl
    ((entriesTable genesis).apart_none (entries.map cells))
  simp only [List.append_assoc, Tables.write]
  rw [← List.append_assoc (b.opened.map _)]
  exact h.assemble hentriesDoes (does_inserting hc₂ rfl nodeRow b.nodes)
    (does_inserting hc₃ rfl controlRow b.controlEvents)
    ((does_inserting hc₄ rfl authorizationRow b.opened).append (does_closing b.closed))
    (does_inserting hc₅ rfl idempotencyRow b.idempotency)
    (rel_insertEntries h.entries hentries) (rel_upsertNodes h.nodes _)
    (rel_insertControls h.controls _) (rel_turnOver h.authorizations _ _)
    (rel_insertKeys h.keys _)

/-- Batches written one after the other. -/
theorem rel_writeAll (genesis : Text) (h : Holds schema base t db) {batches : List WriteBatch}
    {sss : List (List Statement)}
    (hsss : batches.mapM (WriteBatch.statements schema) = .ok sss) :
    Option.Rel (Holds schema base) (t.writeAll genesis batches)
      (execAll (catalog schema genesis) db sss.flatten) := by
  have hall := mapM_eq_ok.mp hsss
  clear hsss
  induction hall generalizing t db with
  | nil => exact .some h
  | @cons b ss batches sss hb _ ih =>
    rw [Tables.writeAll, List.foldlM_cons, List.flatten_cons, execAll_append]
    exact rel_bind (rel_write h hb) fun t db h => ih h

/-- The messages of some flushes are read as statements, which change rows as the flushes change
tables. -/
theorem rel_flushAll (genesis : Text) (base : Database) {windows : List (List WriteBatch × Bool)} {messages : List Text}
    (hmessages : windows.mapM (fun p => message schema p.1 p.2) = .ok messages)
    (conforming : Bool) :
    ∃ sss, messages.mapM (parse conforming) = some sss ∧
      ∀ {t : Tables} {db : Database}, Holds schema base t db →
        Option.Rel (Holds schema base) (t.flushAll genesis (windows.map Prod.fst))
          (execAll (catalog schema genesis) db sss.flatten) := by
  have hall := mapM_eq_ok.mp hmessages
  clear hmessages
  induction hall with
  | nil => exact ⟨[], rfl, fun h => .some h⟩
  | @cons p text windows texts hp _ ih =>
    obtain ⟨ss, hss, hparse⟩ := parse_message hp
    obtain ⟨sss, hsss, hrel⟩ := ih
    refine ⟨(ss ++ ending p.2) :: sss, ?_, fun {t db} h => ?_⟩
    · rw [List.mapM_cons, hparse, hsss]
      rfl
    · have hending : ∀ db, execAll (catalog schema genesis) db (ending p.2) = some db := by
        intro db
        cases p.2 <;> rfl
      rw [List.map_cons, Tables.flushAll, List.foldlM_cons, List.flatten_cons, execAll_append,
        execAll_append]
      refine rel_bind ?_ fun t db h => hrel h
      rw [funext hending, Option.bind_fun_some]
      exact rel_send h hss

/-- What can be sent can be written batch by batch. -/
theorem exists_statements {windows : List (List WriteBatch × Bool)} {messages : List Text}
    (hmessages : windows.mapM (fun p => message schema p.1 p.2) = .ok messages) :
    ∃ sss, (windows.map Prod.fst).flatten.mapM (WriteBatch.statements schema) = .ok sss := by
  refine exists_mapM_eq_ok fun b hb => ?_
  obtain ⟨batches, hbatches, hb⟩ := List.mem_flatten.mp hb
  obtain ⟨p, hp, rfl⟩ := List.mem_map.mp hbatches
  obtain ⟨text, -, htext⟩ := exists_mem_mapM hmessages hp
  obtain ⟨ss, hss, -⟩ := parse_message htext
  obtain ⟨rows, hrows, -⟩ := bind_eq_ok.mp hss
  rw [Writes.entries_of] at hrows
  obtain ⟨entries, hentries⟩ : ∃ rows, b.entries.mapM entryRow = .ok rows := by
    refine exists_mapM_eq_ok fun e he => ?_
    obtain ⟨row, -, hrow⟩ := exists_mem_mapM hrows (List.mem_flatMap.mpr ⟨b, hb, he⟩)
    exact ⟨row, hrow⟩
  exact ⟨_, bind_eq_ok.mpr ⟨entries, hentries, rfl⟩⟩

/-- What a database holds, it holds beside its own other tables. -/
theorem Holds.rebase (h : Holds schema base t db) : Holds schema db t db where
  entries := ⟨h.entries.1, rfl⟩
  nodes := ⟨h.nodes.1, rfl⟩
  controls := h.controls
  authorizations := ⟨h.authorizations.1, rfl⟩
  keys := ⟨h.keys.1, rfl⟩
  others _ _ := rfl

/-- A database that is empty serves a governor that is new. -/
theorem serves_empty (schema : Schema) : Serves schema (fun _ => {}) [] := by
  refine ⟨{}, ⟨fun _ h => (nomatch h), fun id h => (nomatch h)⟩, ?_⟩
  have hnone : ∀ {κ α : Type} (key : α → κ) (make : α → Row),
      Represents key make (fun _ => none) [] := fun key make =>
    ⟨fun row => ⟨fun h => (nomatch h), fun ⟨_, h, _⟩ => (nomatch h)⟩, fun _ _ h => (nomatch h),
      List.nodup_nil⟩
  exact ⟨⟨.nil, rfl⟩, ⟨hnone _ _, rfl⟩, ⟨rfl, rfl⟩, ⟨hnone _ _, rfl⟩, ⟨hnone _ _, rfl⟩,
    fun _ _ => rfl⟩

/-- Databases that hold the same tables have the same rows. -/
theorem Holds.same {db' : Database} (h : Holds schema base t db) (h' : Holds schema base t db') :
    Same db db' := by
  intro table
  by_cases htable : table ∈ written schema
  · simp only [written, List.mem_cons, List.not_mem_nil, or_false] at htable
    rcases htable with rfl | rfl | rfl | rfl | rfl
    · have hunique : Relator.RightUnique IsEntryRow := by
        rintro e r r' ⟨row, hrow, rfl⟩ ⟨row', hrow', rfl⟩
        rw [hrow, Except.ok.injEq] at hrow'
        rw [hrow']
      have hrows := hunique.forall₂ h.entries.1 h'.entries.1
      exact ⟨by rw [hrows], h.entries.2.trans h'.entries.2.symm⟩
    · exact ⟨h.nodes.1.perm h'.nodes.1, h.nodes.2.trans h'.nodes.2.symm⟩
    · exact ⟨by rw [h.controls.1, h'.controls.1], h.controls.2.trans h'.controls.2.symm⟩
    · exact ⟨h.authorizations.1.perm h'.authorizations.1,
        h.authorizations.2.trans h'.authorizations.2.symm⟩
    · exact ⟨h.keys.1.perm h'.keys.1, h.keys.2.trans h'.keys.2.symm⟩
  · rw [h.others table htable, h'.others table htable]
    exact ⟨.rfl, rfl⟩

end AgentGov.Postgres
