import AgentGov.Foundation.SqlLexer

/-!
# SQL statements

The statements of a message, read from its tokens: rows of constants inserted into a table, with
or without an update where a row is there already, rows deleted by the constants in a column, and
the end of a transaction.

## Main definitions

* `Foundation.Sql.Constant`, `Foundation.Sql.Statement`: constants and statements.
* `Foundation.Sql.Statement.tokens`: the tokens of a statement.
* `Foundation.Sql.parse`: the statements of a text.

## Main results

* `Foundation.Sql.readStatements_tokens`: statements are read back from their tokens.
-/

namespace Foundation.Sql

/-! ### Statements -/

/-- A constant, as a statement writes it. -/
inductive Constant
  | null
  | string (text : Text)
  /-- A string with a type. -/
  | cast (text type : Text)
  | number (n : ℕ)
  /-- The minus operator and a number. -/
  | negative (n : ℕ)
deriving DecidableEq

/-- A table of a schema. -/
structure Table where
  schema : Text
  name : Text
deriving DecidableEq

/-- `ON CONFLICT`: the columns of the row that is there, and what is set to which of the row that
was to be inserted. -/
structure Upsert where
  target : List Text
  updates : List (Text × Text)
deriving DecidableEq

/-- A statement. -/
inductive Statement
  | insert (table : Table) (columns : List Text) (rows : List (List Constant))
    (upsert : Option Upsert)
  | delete (table : Table) (column : Text) (values : List Constant)
  | commit
deriving DecidableEq

/-! ### Their tokens -/

/-- Key words. -/
def keywords (words : List String) : List Token := words.map fun w => .word (Text.ofString w)

/-- Groups of tokens with a token between them. -/
def joined (sep : Token) (groups : List (List Token)) : List Token :=
  List.intercalate [sep] groups

/-- `,`. -/
def comma : Token := .symbol 44

/-- `;`. -/
def semicolon : Token := .symbol 59

/-- Groups of tokens in parentheses, with commas between them. -/
def parenthesized (groups : List (List Token)) : List Token :=
  .symbol 40 :: (joined comma groups ++ [.symbol 41])

def Constant.tokens : Constant → List Token
  | null => keywords ["null"]
  | string t => [.string t]
  | cast t type => [.string t, .typecast, .word type]
  | number n => [.number n]
  | negative n => [.symbol 45, .number n]

def Table.tokens (t : Table) : List Token := [.name t.schema, .symbol 46, .name t.name]

/-- The tokens of a list of names in parentheses. -/
def columnTokens (columns : List Text) : List Token :=
  parenthesized (columns.map fun c => [.word c])

/-- The tokens of a row. -/
def rowTokens (row : List Constant) : List Token := parenthesized (row.map Constant.tokens)

/-- The tokens of `column = excluded.other`. -/
def updateTokens (u : Text × Text) : List Token :=
  .word u.1 :: .symbol 61 :: (keywords ["excluded"] ++ [.symbol 46, .word u.2])

def Upsert.tokens (u : Upsert) : List Token :=
  keywords ["on", "conflict"] ++ (columnTokens u.target ++ (keywords ["do", "update", "set"] ++
    joined comma (u.updates.map updateTokens)))

/-- The tokens of an `ON CONFLICT`, where there is one. -/
def upsertTokens : Option Upsert → List Token
  | none => []
  | some u => u.tokens

def Statement.tokens : Statement → List Token
  | insert table columns rows upsert =>
    keywords ["insert", "into"] ++ (table.tokens ++ (columnTokens columns ++
      (keywords ["values"] ++ (joined comma (rows.map rowTokens) ++ upsertTokens upsert))))
  | delete table column values =>
    keywords ["delete", "from"] ++ (table.tokens ++ (keywords ["where"] ++
      (.word column :: (keywords ["in"] ++ rowTokens values))))
  | commit => keywords ["commit"]

/-! ### Reading them -/

/-- What follows a run of tokens. -/
def skip : List Token → List Token → Option (List Token)
  | [], tokens => some tokens
  | _ :: _, [] => none
  | t :: ts, u :: tokens => if t = u then skip ts tokens else none

/-- What `item` reads, and again after each separator. -/
def readList {α : Type} (sep : Token) (item : List Token → Option (α × List Token)) :
    ℕ → List Token → Option (List α × List Token)
  | 0, _ => none
  | n + 1, tokens =>
    match item tokens with
    | none => none
    | some (a, rest) =>
      match skip [sep] rest with
      | none => some ([a], rest)
      | some more => (fun r => (a :: r.1, r.2)) <$> readList sep item n more

/-- A list in parentheses. -/
def readGroup {α : Type} (item : List Token → Option (α × List Token)) (tokens : List Token) :
    Option (List α × List Token) := do
  let tokens ← skip [.symbol 40] tokens
  let (values, tokens) ← readList comma item (tokens.length + 1) tokens
  let tokens ← skip [.symbol 41] tokens
  some (values, tokens)

/-- A name without quotes. -/
def readWord : List Token → Option (Text × List Token)
  | .word w :: rest => some (w, rest)
  | _ => none

def readConstant : List Token → Option (Constant × List Token)
  | .word w :: rest => if w = Text.ofString "null" then some (.null, rest) else none
  | .string t :: .typecast :: .word w :: rest => some (.cast t w, rest)
  | .string t :: rest => some (.string t, rest)
  | .number n :: rest => some (.number n, rest)
  | .symbol c :: .number n :: rest => if c = 45 then some (.negative n, rest) else none
  | _ => none

def readTable : List Token → Option (Table × List Token)
  | .name schema :: .symbol c :: .name table :: rest =>
    if c = 46 then some (⟨schema, table⟩, rest) else none
  | _ => none

/-- `column = excluded.other`. -/
def readUpdate : List Token → Option ((Text × Text) × List Token)
  | .word column :: .symbol c :: rest => do
    if c ≠ 61 then none
    let rest ← skip (keywords ["excluded"] ++ [.symbol 46]) rest
    let (other, rest) ← readWord rest
    some ((column, other), rest)
  | _ => none

/-- An `ON CONFLICT`, where there is one. -/
def readUpsert (tokens : List Token) : Option (Option Upsert × List Token) :=
  match skip (keywords ["on", "conflict"]) tokens with
  | none => some (none, tokens)
  | some tokens => do
    let (target, tokens) ← readGroup readWord tokens
    let tokens ← skip (keywords ["do", "update", "set"]) tokens
    let (updates, tokens) ← readList comma readUpdate (tokens.length + 1) tokens
    some (some ⟨target, updates⟩, tokens)

/-- What follows `INSERT INTO`. -/
def readInsert (tokens : List Token) : Option (Statement × List Token) := do
  let (table, tokens) ← readTable tokens
  let (columns, tokens) ← readGroup readWord tokens
  let tokens ← skip (keywords ["values"]) tokens
  let (rows, tokens) ← readList comma (readGroup readConstant) (tokens.length + 1) tokens
  let (upsert, tokens) ← readUpsert tokens
  some (.insert table columns rows upsert, tokens)

/-- What follows `DELETE FROM`. -/
def readDelete (tokens : List Token) : Option (Statement × List Token) := do
  let (table, tokens) ← readTable tokens
  let tokens ← skip (keywords ["where"]) tokens
  let (column, tokens) ← readWord tokens
  let tokens ← skip (keywords ["in"]) tokens
  let (values, tokens) ← readGroup readConstant tokens
  some (.delete table column values, tokens)

def readStatement (tokens : List Token) : Option (Statement × List Token) :=
  match skip (keywords ["insert", "into"]) tokens with
  | some tokens => readInsert tokens
  | none =>
    match skip (keywords ["delete", "from"]) tokens with
    | some tokens => readDelete tokens
    | none => (fun tokens => (.commit, tokens)) <$> skip (keywords ["commit"]) tokens

/-- The statements of a message, with semicolons between them. -/
def readStatements (tokens : List Token) : Option (List Statement) :=
  if tokens = [] then some []
  else
    match readList semicolon readStatement (tokens.length + 1) tokens with
    | some (statements, []) => some statements
    | _ => none

/-- The statements of a text. -/
def parse (conforming : Bool) (text : Text) : Option (List Statement) :=
  lex conforming text >>= readStatements

/-! ### Statements read back -/

variable {α : Type} {rest : List Token}

@[simp] theorem skip_append (ts rest : List Token) : skip ts (ts ++ rest) = some rest := by
  induction ts with
  | nil => rfl
  | cons t ts ih => rw [List.cons_append, skip, if_pos rfl, ih]

/-- A separator is not skipped where there is none. -/
theorem skip_eq_none {t : Token} (ts : List Token) (h : ∀ u ∈ rest.head?, u ≠ t) :
    skip (t :: ts) rest = none := by
  match rest with
  | [] => rfl
  | u :: rest => rw [skip, if_neg (h u rfl).symm]

theorem joined_cons_cons (sep : Token) (g g' : List Token) (gs : List (List Token)) :
    joined sep (g :: g' :: gs) = g ++ sep :: joined sep (g' :: gs) := by
  simp [joined, List.intercalate_cons_cons]

theorem length_le_joined (sep : Token) (gs : List (List Token)) :
    gs.length ≤ (joined sep gs).length + 1 := by
  induction gs with
  | nil => simp
  | cons g gs ih =>
    match gs with
    | [] => simp
    | g' :: gs =>
      simp only [joined_cons_cons, List.length_append, List.length_cons] at ih ⊢
      omega

/-- A list is read back where each of its items is, before what may follow it. -/
theorem readList_joined {sep : Token} {item : List Token → Option (α × List Token)}
    {print : α → List Token} (May : List Token → Prop) {l : List α} {n : ℕ}
    (hitem : ∀ a ∈ l, ∀ rest, May rest → item (print a ++ rest) = some (a, rest))
    (hsep : ∀ rest, May (sep :: rest)) (hne : l ≠ []) (hn : l.length ≤ n)
    (hrest : May rest) (hstop : ∀ t ∈ rest.head?, t ≠ sep) :
    readList sep item n (joined sep (l.map print) ++ rest) = some (l, rest) := by
  induction l generalizing n with
  | nil => exact absurd rfl hne
  | cons a l ih =>
    obtain ⟨n, rfl⟩ : ∃ m, n = m + 1 := ⟨n - 1, by rw [List.length_cons] at hn; omega⟩
    have ha := hitem a List.mem_cons_self
    match l with
    | [] =>
      have hone : joined sep ([a].map print) = print a := by simp [joined]
      rw [hone, readList, ha rest hrest]
      simp only [skip_eq_none [] hstop]
    | b :: l =>
      have hmore := ih (n := n) (fun c hc => hitem c (List.mem_cons_of_mem a hc))
        (List.cons_ne_nil b l) (by rw [List.length_cons] at hn; omega)
      have hskip (t : List Token) : skip [sep] (sep :: t) = some t := skip_append [sep] t
      rw [List.map_cons, List.map_cons, joined_cons_cons, ← List.map_cons, List.append_assoc,
        List.cons_append, readList, ha _ (hsep _)]
      simp only [hskip, hmore]
      rfl

theorem length_le_readable (sep : Token) {print : α → List Token} (rest : List Token)
    (l : List α) : l.length ≤ (joined sep (l.map print) ++ rest).length + 1 := by
  have hle := length_le_joined sep (l.map print)
  rw [List.length_map] at hle
  rw [List.length_append]
  omega

theorem readGroup_parenthesized {item : List Token → Option (α × List Token)}
    {print : α → List Token} (May : List Token → Prop) {l : List α}
    (hitem : ∀ a ∈ l, ∀ rest, May rest → item (print a ++ rest) = some (a, rest))
    (hmay : ∀ c rest, May (.symbol c :: rest)) (hne : l ≠ []) :
    readGroup item (parenthesized (l.map print) ++ rest) = some (l, rest) := by
  have hlist : readList comma item
      ((joined comma (l.map print) ++ .symbol 41 :: rest).length + 1)
      (joined comma (l.map print) ++ .symbol 41 :: rest) = some (l, .symbol 41 :: rest) :=
    readList_joined May hitem (hmay 44) hne (length_le_readable comma _ l) (hmay 41 rest) (by
      rintro t ht rfl
      cases ht)
  have hskip (t : Token) (ts : List Token) : skip [t] (t :: ts) = some ts := skip_append [t] ts
  rw [readGroup, parenthesized, List.cons_append, List.append_assoc, List.singleton_append]
  simp only [hskip, Option.bind_eq_bind, Option.bind_some, hlist]

theorem readConstant_tokens (c : Constant) (h : ∀ t ∈ rest.head?, t ≠ .typecast) :
    readConstant (c.tokens ++ rest) = some (c, rest) := by
  cases c with
  | null => rfl
  | string t =>
    match rest with
    | [] => rfl
    | u :: rest =>
      have hu := h u rfl
      cases u <;> first | rfl | exact absurd rfl hu
  | cast t type => rfl
  | number n => rfl
  | negative n => rfl

theorem readColumns_tokens {columns : List Text} (h : columns ≠ []) :
    readGroup readWord (columnTokens columns ++ rest) = some (columns, rest) :=
  readGroup_parenthesized (fun _ => True) (fun _ _ _ _ => rfl) (fun _ _ => trivial) h

/-- A row is read back. -/
theorem readRow_tokens {row : List Constant} (h : row ≠ []) :
    readGroup readConstant (rowTokens row ++ rest) = some (row, rest) := by
  refine readGroup_parenthesized (fun rest => ∀ t ∈ rest.head?, t ≠ .typecast)
    (fun c _ rest hrest => readConstant_tokens c hrest) (fun c rest t ht => ?_) h
  obtain rfl := Option.some.inj ht
  exact Token.noConfusion

/-- Whether none of the lists of a statement is empty. -/
def Statement.Formed : Statement → Prop
  | insert _ columns rows upsert =>
    columns ≠ [] ∧ rows ≠ [] ∧ (∀ row ∈ rows, row ≠ []) ∧
      ∀ u ∈ upsert, u.target ≠ [] ∧ u.updates ≠ []
  | delete _ _ values => values ≠ []
  | commit => True

/-- Whether a statement is over. -/
def Over (rest : List Token) : Prop := ∀ t ∈ rest.head?, t = semicolon

theorem readUpsert_tokens {upsert : Option Upsert}
    (h : ∀ u ∈ upsert, u.target ≠ [] ∧ u.updates ≠ []) (hrest : Over rest) :
    readUpsert (upsertTokens upsert ++ rest) = some (upsert, rest) := by
  match upsert with
  | none =>
    have hnone : skip (keywords ["on", "conflict"]) rest = none := by
      refine skip_eq_none _ fun t ht => ?_
      rw [hrest t ht]
      exact Token.noConfusion
    rw [upsertTokens, List.nil_append, readUpsert, hnone]
  | some u =>
    obtain ⟨htarget, hupdates⟩ := h u rfl
    have hlist : readList comma readUpdate
        ((joined comma (u.updates.map updateTokens) ++ rest).length + 1)
        (joined comma (u.updates.map updateTokens) ++ rest) = some (u.updates, rest) :=
      readList_joined (fun _ => True) (fun _ _ _ _ => rfl) (fun _ => trivial) hupdates
        (length_le_readable comma rest u.updates) trivial (by
          rintro t ht rfl
          cases hrest _ ht)
    rw [upsertTokens, Upsert.tokens, readUpsert, List.append_assoc, skip_append]
    simp only [List.append_assoc, readColumns_tokens htarget, Option.bind_eq_bind, Option.bind_some,
      skip_append, hlist]

theorem readStatement_tokens {s : Statement} (h : s.Formed) (hrest : Over rest) :
    readStatement (s.tokens ++ rest) = some (s, rest) := by
  match s with
  | .insert table columns rows upsert =>
    obtain ⟨hcolumns, hrows, hrow, hupsert⟩ := h
    have hlist : readList comma (readGroup readConstant)
        ((joined comma (rows.map rowTokens) ++ (upsertTokens upsert ++ rest)).length + 1)
        (joined comma (rows.map rowTokens) ++ (upsertTokens upsert ++ rest)) =
          some (rows, upsertTokens upsert ++ rest) :=
      readList_joined (fun _ => True) (fun row hmem _ _ => readRow_tokens (hrow row hmem))
        (fun _ => trivial) hrows (length_le_readable comma _ rows) trivial (by
          rintro t ht rfl
          match upsert with
          | none => cases hrest _ ht
          | some u => cases ht)
    rw [Statement.tokens, readStatement, List.append_assoc, skip_append]
    have htable (t : List Token) : readTable (table.tokens ++ t) = some (table, t) := rfl
    simp only [readInsert, List.append_assoc, htable, Option.bind_eq_bind, Option.bind_some,
      readColumns_tokens hcolumns, skip_append, hlist, readUpsert_tokens hupsert hrest]
  | .delete table column values =>
    have htable (t : List Token) : readTable (table.tokens ++ t) = some (table, t) := rfl
    have hword (t : List Token) : readWord (.word column :: t) = some (column, t) := rfl
    have hinsert (t : List Token) :
        skip (keywords ["insert", "into"]) (keywords ["delete", "from"] ++ t) = none := rfl
    rw [Statement.tokens, readStatement, List.append_assoc, hinsert]
    simp only [skip_append, readDelete, List.append_assoc, List.cons_append, htable, hword,
      Option.bind_eq_bind, Option.bind_some, readRow_tokens h]
  | .commit =>
    have hinsert (t : List Token) :
        skip (keywords ["insert", "into"]) (keywords ["commit"] ++ t) = none := rfl
    have hdelete (t : List Token) :
        skip (keywords ["delete", "from"]) (keywords ["commit"] ++ t) = none := rfl
    rw [Statement.tokens, readStatement, hinsert]
    simp only [hdelete, skip_append]
    rfl

/-- Statements are read back from their tokens. -/
theorem readStatements_tokens {ss : List Statement} (h : ∀ s ∈ ss, s.Formed) :
    readStatements (joined semicolon (ss.map Statement.tokens)) = some ss := by
  rcases eq_or_ne ss [] with rfl | hne
  · rfl
  have hlist : readList semicolon readStatement
      ((joined semicolon (ss.map Statement.tokens) ++ []).length + 1)
      (joined semicolon (ss.map Statement.tokens) ++ []) = some (ss, []) :=
    readList_joined Over (fun s hs _ hrest => readStatement_tokens (h s hs) hrest)
      (fun rest t ht => (Option.some.inj ht).symm) hne (length_le_readable semicolon [] ss)
      (by rintro t ⟨⟩) (by rintro t ⟨⟩)
  rw [List.append_nil] at hlist
  have htokens : joined semicolon (ss.map Statement.tokens) ≠ [] := by
    intro hnil
    have hread : readStatement [] = none := rfl
    rw [hnil, List.length_nil, readList, hread] at hlist
    cases hlist
  rw [readStatements, if_neg htokens, hlist]

end Foundation.Sql
