import AgentGov.Foundation.SqlStatements
import Mathlib.Data.Option.Basic
import Mathlib.Logic.Function.Basic

/-!
# What SQL statements do

A database is the rows of its tables. An insertion inserts its rows one by one, each beside those
before it: a row that does not fit its columns, that holds in a unique column what another row
holds, or that a trigger refuses, refuses the statement; and an insertion that updates a row that
is there may not update it twice. A deletion deletes the rows that hold one of its values.

A table that is the image of a partial function, each row made of a value and found by its key,
stays one when a row is inserted, set or deleted.

## Main definitions

* `Foundation.Sql.TableDef`: the columns and the constraints of a table.
* `Foundation.Sql.exec`, `Foundation.Sql.execAll`: what statements do, where none is refused.
* `Foundation.Sql.Represents`: the rows of a partial function.

## Main results

* `Foundation.Sql.does_insert`, `Foundation.Sql.does_inserts`, `Foundation.Sql.does_deletes`: a
  statement of all rows does what statements of one row each do.
* `Foundation.Sql.rel_foldlM`: folds whose steps stay related.
* `Foundation.Sql.Represents.insert`, `Foundation.Sql.Represents.replace`,
  `Foundation.Sql.Represents.delete`, `Foundation.Sql.Shows.insertRow`.
-/

namespace Foundation.Sql

/-! ### Tables -/

/-- A row: a constant for every column of its table, and its number where the table has numbers. -/
abbrev Row := List Constant

/-- The integer of a constant. -/
def Constant.int? : Constant → Option ℤ
  | .number n => some n
  | .negative n => some (-n)
  | _ => none

/-- The types of columns. -/
inductive SqlType
  | text
  | uuid
  | integer
  | bigint
deriving DecidableEq

/-- Whether a constant is one of a type. -/
def SqlType.holds : SqlType → Constant → Bool
  | text, .string _ => true
  | uuid, .cast _ type => type = Text.ofString "uuid"
  | integer, c => c.int?.any fun n => -2 ^ 31 ≤ n && n < 2 ^ 31
  | bigint, c => c.int?.any fun n => -2 ^ 63 ≤ n && n < 2 ^ 63
  | _, _ => false

/-- A column. -/
structure Column where
  name : Text
  type : SqlType
  nullable : Bool
  /-- Whether no two rows hold the same. Such a column is not nullable. -/
  unique : Bool

/-- What a row of some columns holds in one of them. -/
def cellOf (columns : List Column) (row : Row) (name : Text) : Option Constant :=
  row[columns.findIdx fun c => c.name = name]?

/-- A table, as it was created. -/
structure TableDef where
  columns : List Column
  /-- Whether rows are numbered as they are inserted. -/
  numbered : Bool
  /-- Whether the triggers and checks of the table let a row in beside others. -/
  admits : List Row → Row → Bool

/-- What a table holds. -/
structure Contents where
  rows : List Row := []
  /-- The number of the next row, where rows are numbered. -/
  next : ℕ := 1

/-- The tables of a database. -/
abbrev Database := Table → Contents

namespace TableDef

variable (d : TableDef)

/-- Where a column stands in a row. -/
def position (name : Text) : ℕ := d.columns.findIdx fun c => c.name = name

/-- What a row holds in a column. -/
def cell (row : Row) (name : Text) : Option Constant := cellOf d.columns row name

/-- Whether a row has a constant of its type, or a null where there may be one, for every
column. -/
def fits (row : Row) : Bool :=
  row.length = d.columns.length &&
    (d.columns.zip row).all fun p => p.1.type.holds p.2 || (p.1.nullable && p.2 = .null)

/-- Whether a row holds in a unique column what another does. -/
def conflicts (rows : List Row) (row : Row) : Bool :=
  d.columns.any fun c => c.unique && rows.any fun r => d.cell r c.name = d.cell row c.name

/-- Rows conflict in the unique columns. -/
theorem conflicts_eq {names : List Text}
    (h : (d.columns.filter Column.unique).map Column.name = names) (rows : List Row) (row : Row) :
    d.conflicts rows row = names.any fun name =>
      rows.any fun r => d.cell r name = d.cell row name := by
  rw [← h, List.any_map, List.any_filter]
  rfl

/-- One row inserted. -/
def insertRow (c : Contents) (row : Row) : Option Contents :=
  if d.admits c.rows row && d.fits row && !d.conflicts c.rows row then
    some (if d.numbered then ⟨c.rows ++ [row ++ [.number c.next]], c.next + 1⟩
      else { c with rows := c.rows ++ [row] })
  else none

/-- Whether a row holds what another does in some columns. -/
def agrees (names : List Text) (row other : Row) : Bool :=
  names.all fun name => d.cell row name = d.cell other name

/-- A row with some columns set to what the one that was to be inserted holds. -/
def updated (u : Upsert) (excluded row : Row) : Row :=
  u.updates.foldl (fun row p =>
    match d.cell excluded p.2 with
    | some v => row.set (d.position p.1) v
    | none => row) row

/-- One row inserted, or what is updated of the one that is there. -/
def upsertRow (u : Upsert) (c : Contents) (row : Row) : Option Contents :=
  if c.rows.any fun r => d.agrees u.target r row then
    if d.fits row &&
        c.rows.all fun r => !d.agrees u.target r row || d.fits (d.updated u row r) then
      some { c with
        rows := c.rows.map fun r => if d.agrees u.target r row then d.updated u row r else r }
    else none
  else d.insertRow c row

/-- One row of an insertion. -/
def place (upsert : Option Upsert) (c : Contents) (row : Row) : Option Contents :=
  match upsert with
  | none => d.insertRow c row
  | some u => d.upsertRow u c row

/-- Whether no row of an insertion would update what another has inserted or updated. -/
def apart (upsert : Option Upsert) (rows : List Row) : Prop :=
  ∀ u ∈ upsert, rows.Pairwise fun r s => d.agrees u.target r s = false

instance (upsert : Option Upsert) (rows : List Row) : Decidable (d.apart upsert rows) :=
  match upsert with
  | none => .isTrue fun _ h => nomatch h
  | some u => decidable_of_iff (rows.Pairwise fun r s => d.agrees u.target r s = false)
      ⟨fun h _ hu => Option.some.inj hu ▸ h, fun h => h u rfl⟩

/-- The rows that hold none of some constants in a column. -/
def without (column : Text) (values : List Constant) (c : Contents) : Contents :=
  { c with rows := c.rows.filter fun r => values.all fun v => d.cell r column ≠ some v }

end TableDef

/-! ### Statements -/

section Statements

variable (catalog : Table → Option TableDef)

/-- What a statement does, unless it is refused. An insertion names all columns of its table in
their order. -/
def exec (db : Database) : Statement → Option Database
  | .insert table columns rows upsert => do
    let d ← catalog table
    if columns = d.columns.map Column.name ∧ d.apart upsert rows then
      let c ← rows.foldlM (d.place upsert) (db table)
      some (Function.update db table c)
    else none
  | .delete table column values => do
    let d ← catalog table
    some (Function.update db table (d.without column values (db table)))
  | .commit => some db

/-- What statements do, unless one is refused. -/
def execAll (db : Database) (ss : List Statement) : Option Database := ss.foldlM (exec catalog) db

/-- Whether statements do something to one table, and nothing to the others. -/
def Does (table : Table) (f : Contents → Option Contents) (ss : List Statement) : Prop :=
  ∀ db, execAll catalog db ss = (f (db table)).map (Function.update db table)

variable {catalog} {table : Table} {d : TableDef} {f f' : Contents → Option Contents}
  {ss ss' : List Statement}

theorem execAll_append (db : Database) (ss ss' : List Statement) :
    execAll catalog db (ss ++ ss') = (execAll catalog db ss).bind (execAll catalog · ss') :=
  List.foldlM_append ..

theorem Does.nil : Does catalog table some [] := by
  intro db
  rw [Option.map_some, Function.update_eq_self]
  rfl

theorem Does.append (h : Does catalog table f ss) (h' : Does catalog table f' ss') :
    Does catalog table (fun c => f c >>= f') (ss ++ ss') := by
  intro db
  rw [execAll_append, h db]
  cases hc : f (db table) with
  | none => simp [hc]
  | some c =>
    have hupdate : Function.update (Function.update db table c) table =
        Function.update db table := funext fun c' => Function.update_idem c c' db
    simp [hc, h' _, hupdate]

/-- Rows inserted by one statement. -/
theorem does_insert (hd : catalog table = some d) {upsert : Option Upsert} {rows : List Row}
    (hrows : d.apart upsert rows) :
    Does catalog table (fun c => rows.foldlM (d.place upsert) c)
      [.insert table (d.columns.map Column.name) rows upsert] := by
  intro db
  have hexec : exec catalog db (.insert table (d.columns.map Column.name) rows upsert) =
      (rows.foldlM (d.place upsert) (db table)).map (Function.update db table) := by
    rw [exec, hd]
    change (if _ then _ else _) = _
    rw [if_pos ⟨rfl, hrows⟩]
    cases rows.foldlM (d.place upsert) (db table) <;> rfl
  rw [execAll, List.foldlM_cons, hexec]
  exact bind_pure _

theorem TableDef.apart_none (d : TableDef) (rows : List Row) : d.apart none rows :=
  fun _ h => nomatch h

theorem TableDef.apart_singleton (d : TableDef) (upsert : Option Upsert) (row : Row) :
    d.apart upsert [row] := fun _ _ => List.pairwise_singleton ..

/-- Rows inserted by a statement each. -/
theorem does_inserts (hd : catalog table = some d) (upsert : Option Upsert) (rows : List Row) :
    Does catalog table (fun c => rows.foldlM (d.place upsert) c)
      (rows.map fun row => .insert table (d.columns.map Column.name) [row] upsert) := by
  induction rows with
  | nil => exact .nil
  | cons row rows ih =>
    have hone := does_insert hd (d.apart_singleton upsert row)
    simp only [List.foldlM_cons, List.foldlM_nil, bind_pure] at hone
    simp only [List.foldlM_cons]
    exact hone.append ih

/-- Rows deleted by one statement. -/
theorem does_delete (hd : catalog table = some d) (column : Text) (values : List Constant) :
    Does catalog table (fun c => some (d.without column values c))
      [.delete table column values] := by
  intro db
  change (exec catalog db _ >>= some) = _
  rw [exec, hd]
  rfl

/-- Rows deleted by a statement for each constant. -/
theorem does_deletes (hd : catalog table = some d) (column : Text) (values : List Constant) :
    Does catalog table (fun c => some (d.without column values c))
      (values.map fun v => .delete table column [v]) := by
  induction values with
  | nil =>
    have hnone : (fun c => some (d.without column [] c)) = some :=
      funext fun c => by simp [TableDef.without]
    rw [hnone]
    exact .nil
  | cons v values ih =>
    have hboth : (fun c => some (d.without column (v :: values) c)) = fun c =>
        some (d.without column [v] c) >>= fun c => some (d.without column values c) := by
      funext c
      simp only [TableDef.without, Option.bind_eq_bind, Option.bind_some, List.filter_filter,
        List.all_cons, List.all_nil, Bool.and_true]
      simp only [Bool.and_comm]
    rw [hboth]
    exact (does_delete hd column [v]).append ih

end Statements

/-! ### Related folds -/

section Folds

variable {σ σ' τ τ' α β : Type} {R : σ → τ → Prop} {R' : σ' → τ' → Prop} {Q : α → β → Prop}

/-- What is done next to what is related is related. -/
theorem rel_bind {o : Option σ} {o' : Option τ} (h : Option.Rel R o o') {f : σ → Option σ'}
    {g : τ → Option τ'} (hnext : ∀ s t, R s t → Option.Rel R' (f s) (g t)) :
    Option.Rel R' (o >>= f) (o' >>= g) := by
  cases h with
  | none => exact .none
  | some h => exact hnext _ _ h

/-- Folds whose steps stay related are refused together, or end related. -/
theorem rel_foldlM {f : σ → α → Option σ} {g : τ → β → Option τ}
    (hstep : ∀ s t a b, R s t → Q a b → Option.Rel R (f s a) (g t b)) {s : σ} {t : τ}
    (h : R s t) {as : List α} {bs : List β} (hall : List.Forall₂ Q as bs) :
    Option.Rel R (as.foldlM f s) (bs.foldlM g t) := by
  induction hall generalizing s t with
  | nil => exact .some h
  | @cons a b as bs hfirst _ ih =>
    rw [List.foldlM_cons, List.foldlM_cons]
    exact rel_bind (hstep s t a b h hfirst) fun _ _ hnext => ih hnext

/-- Related lists have something together. -/
theorem any_eq_of_forall₂ {as : List α} {bs : List β} (h : List.Forall₂ Q as bs)
    {p : α → Bool} {q : β → Bool} (hpq : ∀ a b, Q a b → p a = q b) : as.any p = bs.any q := by
  induction h with
  | nil => rfl
  | cons hfirst _ ih => rw [List.any_cons, List.any_cons, hpq _ _ hfirst, ih]

end Folds

/-! ### Rows of a partial function -/

section Representing

variable {κ α : Type*}

/-- Whether rows are those of the values of a partial function, each found by its key. -/
structure Represents (key : α → κ) (make : α → Row) (f : κ → Option α) (rows : List Row) :
    Prop where
  mem : ∀ row, row ∈ rows ↔ ∃ a, f (key a) = some a ∧ row = make a
  keyed : ∀ k a, f k = some a → key a = k
  nodup : rows.Nodup

namespace Represents

variable {key : α → κ} {make : α → Row} {f : κ → Option α} {rows : List Row}

/-- Whether a row holds what the row of a value would: whether its key has a value. -/
theorem any_iff (h : Represents key make f rows) {p : Row → Bool} {a : α}
    (hp : ∀ b, p (make b) = true ↔ key b = key a) :
    rows.any p = true ↔ (f (key a)).isSome = true := by
  rw [List.any_eq_true, Option.isSome_iff_exists]
  constructor
  · rintro ⟨row, hrow, hmatch⟩
    obtain ⟨b, hb, rfl⟩ := (h.mem row).mp hrow
    exact ⟨b, (hp b).mp hmatch ▸ hb⟩
  · rintro ⟨b, hb⟩
    have hkey := h.keyed _ _ hb
    exact ⟨make b, (h.mem _).mpr ⟨b, hkey ▸ hb, rfl⟩, (hp b).mpr hkey⟩

/-- Two tables of the rows of one function have the same rows. -/
theorem perm {rows' : List Row} (h : Represents key make f rows)
    (h' : Represents key make f rows') : rows.Perm rows' :=
  (List.perm_ext_iff_of_nodup h.nodup h'.nodup).mpr fun row => by rw [h.mem, h'.mem]

variable [DecidableEq κ]

/-- A row of a new key is inserted. -/
theorem insert (h : Represents key make f rows) (inj : ∀ a b, make a = make b → key a = key b)
    {a : α} (hfree : f (key a) = none) :
    Represents key make (Function.update f (key a) (some a)) (rows ++ [make a]) := by
  refine ⟨fun row => ?_, fun k b hb => ?_, ?_⟩
  · rw [List.mem_append, h.mem, List.mem_singleton]
    constructor
    · rintro (⟨b, hb, rfl⟩ | rfl)
      · have hne : key b ≠ key a := by
          intro heq
          rw [heq, hfree] at hb
          cases hb
        exact ⟨b, by rw [Function.update_of_ne hne, hb], rfl⟩
      · exact ⟨a, Function.update_self .., rfl⟩
    · rintro ⟨b, hb, rfl⟩
      by_cases heq : key b = key a
      · rw [heq, Function.update_self, Option.some.injEq] at hb
        exact Or.inr (by rw [hb])
      · rw [Function.update_of_ne heq] at hb
        exact Or.inl ⟨b, hb, rfl⟩
  · by_cases hk : k = key a
    · rw [hk, Function.update_self, Option.some.injEq] at hb
      rw [hk, hb]
    · rw [Function.update_of_ne hk] at hb
      exact h.keyed k b hb
  · refine List.nodup_append.mpr ⟨h.nodup, List.nodup_singleton _, ?_⟩
    rintro row hrow _ hmem rfl
    obtain ⟨b, hb, heq⟩ := (h.mem row).mp hrow
    rw [List.mem_singleton.mp hmem] at heq
    rw [← inj a b heq, hfree] at hb
    cases hb

/-- The row of a key is set, and the others stay. -/
theorem replace (h : Represents key make f rows) (inj : ∀ a b, make a = make b → key a = key b)
    {a b : α} (ha : f (key a) = some a) (hb : key b = key a) (set : Row → Row)
    (hset : ∀ c, f (key c) = some c → set (make c) = make (if key c = key a then b else c)) :
    Represents key make (Function.update f (key a) (some b)) (rows.map set) := by
  have hvalue : ∀ c, f (key c) = some c → key c = key a → c = a := by
    intro c hc heq
    rw [heq, ha] at hc
    exact (Option.some.inj hc).symm
  refine ⟨fun row => ?_, fun k c hc => ?_, ?_⟩
  · rw [List.mem_map]
    constructor
    · rintro ⟨r, hr, rfl⟩
      obtain ⟨c, hc, rfl⟩ := (h.mem r).mp hr
      rw [hset c hc]
      split_ifs with heq
      · exact ⟨b, by rw [hb, Function.update_self], rfl⟩
      · exact ⟨c, by rw [Function.update_of_ne heq, hc], rfl⟩
    · rintro ⟨c, hc, rfl⟩
      by_cases heq : key c = key a
      · rw [heq, Function.update_self, Option.some.injEq] at hc
        subst hc
        exact ⟨make a, (h.mem _).mpr ⟨a, ha, rfl⟩, by rw [hset a ha, if_pos rfl]⟩
      · rw [Function.update_of_ne heq] at hc
        exact ⟨make c, (h.mem _).mpr ⟨c, hc, rfl⟩, by rw [hset c hc, if_neg heq]⟩
  · by_cases hk : k = key a
    · rw [hk, Function.update_self, Option.some.injEq] at hc
      rw [hk, ← hc, hb]
    · rw [Function.update_of_ne hk] at hc
      exact h.keyed k c hc
  · refine h.nodup.map_on fun r hr s hs heq => ?_
    obtain ⟨c, hc, rfl⟩ := (h.mem r).mp hr
    obtain ⟨e, he, rfl⟩ := (h.mem s).mp hs
    rw [hset c hc, hset e he] at heq
    have hkey := inj _ _ heq
    by_cases hca : key c = key a
    · by_cases hea : key e = key a
      · rw [hvalue c hc hca, hvalue e he hea]
      · rw [if_pos hca, if_neg hea, hb] at hkey
        exact absurd hkey.symm hea
    · by_cases hea : key e = key a
      · rw [if_neg hca, if_pos hea, hb] at hkey
        exact absurd hkey hca
      · rw [if_neg hca, if_neg hea] at hkey
        rw [hkey, he, Option.some.injEq] at hc
        rw [hc]

/-- The rows of some keys are deleted. -/
theorem delete (h : Represents key make f rows) {keys : List κ} {keep : Row → Bool}
    (hkeep : ∀ a, keep (make a) = true ↔ key a ∉ keys) :
    Represents key make (fun k => if k ∈ keys then none else f k) (rows.filter keep) := by
  refine ⟨fun row => ?_, fun k a ha => ?_, h.nodup.filter _⟩
  · rw [List.mem_filter, h.mem]
    constructor
    · rintro ⟨⟨a, ha, rfl⟩, hkept⟩
      exact ⟨a, by rw [if_neg ((hkeep a).mp hkept), ha], rfl⟩
    · rintro ⟨a, ha, rfl⟩
      split_ifs at ha with hmem
      exact ⟨⟨a, ha, rfl⟩, (hkeep a).mpr hmem⟩
  · split_ifs at ha
    exact h.keyed k a ha

end Represents

/-- The rows of a partial function in a table, whose rows are not numbered. -/
def Shows (key : α → κ) (make : α → Row) (next : ℕ) (f : κ → Option α) (c : Contents) : Prop :=
  Represents key make f c.rows ∧ c.next = next

/-- A row is inserted where its key, which is what a unique column holds, has none. -/
theorem Shows.insertRow [DecidableEq κ] {key : α → κ} {make : α → Row} {f : κ → Option α}
    {d : TableDef} {next : ℕ} {c : Contents} {a : α} {name : Text}
    (h : Shows key make next f c) (hnumbered : d.numbered = false)
    (hadmits : d.admits c.rows (make a) = true)
    (hname : (d.columns.filter Column.unique).map Column.name = [name])
    (hcell : ∀ a b, d.cell (make a) name = d.cell (make b) name ↔ key a = key b) :
    Option.Rel (Shows key make next)
      (if (f (key a)).isNone ∧ d.fits (make a) then some (Function.update f (key a) (some a))
        else none)
      (d.insertRow c (make a)) := by
  have hconflicts : d.conflicts c.rows (make a) =
      c.rows.any fun r => d.cell r name = d.cell (make a) name := by
    rw [d.conflicts_eq hname, List.any_cons, List.any_nil, Bool.or_false]
  have hany := h.1.any_iff (a := a) (p := fun r => d.cell r name = d.cell (make a) name)
    fun b => decide_eq_true_iff.trans (hcell b a)
  rw [← hconflicts] at hany
  rw [TableDef.insertRow, hadmits, hnumbered, Bool.true_and]
  by_cases hfits : d.fits (make a) = true
  · by_cases hfree : f (key a) = none
    · have hno : d.conflicts c.rows (make a) = false := by
        rw [Bool.eq_false_iff, ne_eq, hany, hfree]
        exact Bool.false_ne_true
      rw [if_pos ⟨by rw [hfree]; rfl, hfits⟩, if_pos (by rw [hfits, hno]; rfl)]
      refine .some ⟨h.1.insert (fun a b hab => ?_) hfree, h.2⟩
      exact (hcell a b).mp (by rw [hab])
    · have hyes : d.conflicts c.rows (make a) = true :=
        hany.mpr (Option.isSome_iff_ne_none.mpr hfree)
      rw [if_neg fun hgood => hfree (Option.isNone_iff_eq_none.mp hgood.1),
        if_neg (by rw [hyes, Bool.not_true, Bool.and_false]; exact Bool.false_ne_true)]
      exact .none
  · rw [if_neg fun hgood => hfits hgood.2,
      if_neg (by rw [Bool.eq_false_iff.mpr hfits]; exact Bool.false_ne_true)]
    exact .none

end Representing

end Foundation.Sql
