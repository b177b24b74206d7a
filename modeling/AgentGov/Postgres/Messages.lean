import AgentGov.Postgres.Rendering

/-!
# Messages are read as they are meant

Every literal is read as one constant of its value whatever follows it in a row, with plain
backslashes or with escapes, so that a message is read as the statements its writes are meant as
and no others.

## Main definitions

* `AgentGov.Postgres.constant`, `AgentGov.Postgres.Denotes`: the constant of a value, and what a
  constant is read as.
* `AgentGov.Postgres.intended`: the statements some batches are meant as.

## Main results

* `AgentGov.Postgres.reads_literal`, `AgentGov.Postgres.reads_values`: literals and rows.
* `AgentGov.Postgres.message_parses`.
-/

open Foundation Foundation.Sql

namespace AgentGov.Postgres

/-! ### What is meant -/

/-- The constant of a value. -/
def constant : SqlValue → Constant
  | .null => .null
  | .text t => .string t
  | .uuid u => .cast u.text (txt "uuid")
  | .int n => if n < 0 then .negative n.natAbs else .number n.natAbs

/-- Whether a constant is read as the value. -/
def Denotes : Constant → SqlValue → Prop
  | .null, .null => True
  | .string t, .text u => t = u
  | .cast t type, .uuid u => type = txt "uuid" ∧ t = u.text
  | .number n, .int m => m = n
  | .negative n, .int m => m = -n
  | _, _ => False

/-- The statement that inserts some rows, if there are any. -/
def insertion (schema : Schema) (table : String) (columns : List String) (upsert : Option Upsert)
    (rows : List (List SqlValue)) : List Statement :=
  if rows = [] then []
  else [.insert ⟨schema.val, txt table⟩ (columns.map txt) (rows.map (List.map constant)) upsert]

/-- A scope's row is there already: its parent, depth and allocation are set. -/
def nodesUpsert : Upsert :=
  ⟨[txt "scope_id"], [(txt "parent_id", txt "parent_id"), (txt "depth", txt "depth"),
    (txt "allocated", txt "allocated")]⟩

/-- The statement that closes some holds, if there are any. -/
def deletion (schema : Schema) (ids : List UUID) : List Statement :=
  if ids = [] then []
  else [.delete ⟨schema.val, txt "open_authorizations"⟩ (txt "authorization_id")
    (ids.map fun id => constant (.uuid id))]

/-- The statements that write some batches. -/
def intended (schema : Schema) (batches : List WriteBatch) :
    Except RenderError (List Statement) := do
  let w := Writes.of batches
  let entries ← w.entries.mapM entryRow
  .ok (insertion schema "entries" entryColumns none entries ++
    insertion schema "nodes" nodeColumns (some nodesUpsert) (w.nodes.values.map nodeRow) ++
    insertion schema "control_events" controlColumns none (w.controls.map controlRow) ++
    insertion schema "open_authorizations" authorizationColumns none
      (w.opened.values.map authorizationRow) ++
    deletion schema w.closed ++
    insertion schema "idempotency" idempotencyColumns none (w.calls.map idempotencyRow))

/-- The constant of a value is read as that value and no other. -/
theorem denotes_constant (v w : SqlValue) : Denotes (constant v) w ↔ w = v := by
  cases v with
  | null => cases w <;> simp [constant, Denotes]
  | text t => cases w <;> simp [constant, Denotes, eq_comm]
  | uuid u =>
    cases w with
    | uuid v =>
      simp only [constant, Denotes, true_and, SqlValue.uuid.injEq]
      exact ⟨fun h => (UUID.text_injective h).symm, fun h => by rw [h]⟩
    | _ => simp [constant, Denotes]
  | int n =>
    by_cases hn : n < 0
    · cases w with
      | int m =>
        simp only [constant, if_pos hn, Denotes, SqlValue.int.injEq]
        omega
      | _ => simp [constant, hn, Denotes]
    · cases w with
      | int m =>
        simp only [constant, if_neg hn, Denotes, SqlValue.int.injEq]
        omega
      | _ => simp [constant, hn, Denotes]

/-! ### Literals -/

variable {conforming : Bool} {text : Text}

/-- What every hexadecimal digit and a dash is, every character of an id is. -/
theorem all_uuidText {p : CodePoint → Bool} (hdash : p 45 = true)
    (hhex : ∀ c, isHexDigit c = true → p c = true) (u : UUID) : u.text.all p = true := by
  have hdigits : ∀ width n, ∀ c ∈ hexDigits width n, p c = true := by
    intro width
    induction width with
    | zero => exact fun n c hc => absurd hc List.not_mem_nil
    | succ width ih =>
      intro n c hc
      rw [hexDigits] at hc
      rcases List.mem_append.mp hc with hc | hc
      · exact ih _ c hc
      · rw [List.mem_singleton.mp hc]
        exact hhex _ (isHexDigit_hexDigit _)
  have hone : (txt "-").all p = true := by
    have htxt : txt "-" = [45] := by decide
    rw [htxt, List.all_cons, hdash]
    rfl
  have hsub : ∀ l : Text, l ⊆ hexDigits 32 u.val → l.all p = true :=
    fun l hl => List.all_eq_true.mpr fun c hc => hdigits 32 u.val c (hl hc)
  have hslice : ∀ i j : ℕ, (((hexDigits 32 u.val).drop i).take j).all p = true :=
    fun i j => hsub _ fun c hc => List.mem_of_mem_drop (List.mem_of_mem_take hc)
  have htake := hsub ((hexDigits 32 u.val).take 8) fun c hc => List.mem_of_mem_take hc
  have hdrop := hsub ((hexDigits 32 u.val).drop 20) fun c hc => List.mem_of_mem_drop hc
  simp only [UUID.text, List.all_append, hone, hslice, htake, hdrop, Bool.and_self]

theorem not_mem_uuidText {c : CodePoint} (hdash : c ≠ 45) (hhex : isHexDigit c = false)
    (u : UUID) : c ∉ u.text := by
  intro hc
  have hall := all_uuidText (p := fun d => d != c) (by simpa using hdash.symm) (fun d hd => by
    simp only [bne_iff_ne]
    rintro rfl
    rw [hhex] at hd
    cases hd) u
  simpa using List.all_eq_true.mp hall c hc

/-- A literal is read as the constant of its value. -/
theorem reads_literal {v : SqlValue} (h : literal v = .ok text) :
    Reads conforming text (constant v).tokens Separated := by
  cases v with
  | null =>
    obtain rfl := Except.ok.inj h
    exact reads_word (by decide)
  | text t =>
    rw [literal] at h
    split_ifs at h with hnul hback
    · obtain rfl := Except.ok.inj h
      exact reads_escaped.mono fun _ hrest => hrest.closes
    · obtain rfl := Except.ok.inj h
      exact (reads_plain (Or.inr hback)).mono fun _ hrest => hrest.closes
  | uuid u =>
    obtain rfl := Except.ok.inj h
    have hquote := doubled_of_not_mem (not_mem_uuidText (c := quote) (by decide) (by decide) u)
    have hstring : Reads conforming (quote :: (doubled quote u.text ++ [quote]))
        [.string u.text] Closes :=
      reads_plain (Or.inr (not_mem_uuidText (by decide) (by decide) u))
    rw [hquote] at hstring
    have hword : Reads conforming (txt "uuid") [.word (txt "uuid")] Separated :=
      reads_word (by decide)
    have htype : txt "::uuid" = [58, 58] ++ txt "uuid" := by decide
    rw [htype]
    have hcast : Reads conforming [58, 58] [.typecast] fun _ => True := reads_typecast
    refine hstring.append (hcast.append hword fun _ _ => trivial) fun rest _ d hd => ?_
    obtain rfl := Option.some.inj hd
    decide
  | int n =>
    rw [literal] at h
    split_ifs at h
    obtain rfl := Except.ok.inj h
    by_cases hn : n < 0
    · have hsign : Text.ofString "-" = [45] := by decide
      rw [intText, if_pos hn, hsign, constant, if_pos hn]
      refine reads_minus.append (reads_number _) fun rest _ d hd => ?_
      obtain ⟨c, ds, hcons, -⟩ := Json.decimalDigits_eq_cons n.natAbs
      have hc : isDigit c = true := Json.isDigit_of_mem (n := n.natAbs) (hcons ▸ List.mem_cons_self)
      rw [hcons] at hd
      obtain rfl := Option.some.inj hd
      simp only [isDigit, Bool.and_eq_true, decide_eq_true_eq] at hc
      simp only [isOperator, decide_eq_false_iff_not, List.mem_cons, List.not_mem_nil, or_false]
      omega
    · rw [intText, if_neg hn, constant, if_neg hn]
      exact reads_number _

theorem separated_cons {c : CodePoint} (hc : isSeparator c = true) (rest : Text) :
    Separated (c :: rest) := by
  intro d hd
  obtain rfl := Option.some.inj hd
  exact hc

/-- Literals one after the other are read as the constants of their values. -/
theorem reads_literals {row : List SqlValue} {literals : List Text}
    (h : row.mapM literal = .ok literals) :
    Reads conforming (List.intercalate (txt ", ") literals)
      (joined comma (row.map fun v => (constant v).tokens)) Separated := by
  have hcomma : Reads conforming (txt ", ") [comma] fun _ => True :=
    reads_fixed (by decide) (by cases conforming <;> decide)
  refine Reads.intercalate ?_ hcomma fun rest => separated_cons (by decide) _
  rw [List.forall₂_map_left_iff]
  exact (mapM_eq_ok.mp h).imp fun v t hv => reads_literal hv

/-- A row is read as the constants of its values, whatever follows it. -/
theorem reads_values {row : List SqlValue} (h : values row = .ok text) {P : Text → Prop} :
    Reads conforming text (rowTokens (row.map constant)) P := by
  obtain ⟨literals, hliterals, htext⟩ := bind_eq_ok.mp h
  obtain rfl := Except.ok.inj htext
  have hopen : Reads conforming (txt "(") [.symbol 40] fun _ => True :=
    reads_fixed (by decide) (by cases conforming <;> decide)
  have hclose : Reads conforming (txt ")") [.symbol 41] P :=
    reads_fixed (by decide) (by cases conforming <;> decide)
  have hrow := (hopen.append (reads_literals hliterals) fun _ _ => trivial).append hclose
    fun rest _ => separated_cons (by decide) rest
  rw [rowTokens, parenthesized, List.map_map]
  exact hrow

/-! ### Statements -/

/-- A schema's name is a name for quotes. -/
theorem schema_spec (schema : Schema) : doubleQuote ∉ schema.val ∧ schema.val ≠ [] ∧
    schema.val.length ≤ 63 ∧ schema.val.all Text.isAscii = true := by
  obtain ⟨name, hname⟩ := schema
  match name with
  | [] => cases hname
  | c :: rest =>
    simp only [isSchemaName, isDigit, Bool.and_eq_true, Bool.or_eq_true, decide_eq_true_eq,
      beq_iff_eq, List.all_eq_true] at hname
    obtain ⟨⟨hc, hlen⟩, hrest⟩ := hname
    have hmem : ∀ d ∈ c :: rest, (97 ≤ d.val ∧ d.val ≤ 122) ∨ d.val = 95 ∨
        (48 ≤ d.val ∧ d.val ≤ 57) := by
      intro d hd
      rcases List.mem_cons.mp hd with rfl | hd
      · exact hc.imp_right Or.inl
      · rcases hrest d hd with h | h
        · exact h.imp_right Or.inl
        · exact Or.inr (Or.inr h)
    refine ⟨fun hd => ?_, List.cons_ne_nil _ _, by rw [List.length_cons]; omega, ?_⟩
    · have h34 : doubleQuote.val = 34 := rfl
      have := hmem _ hd
      omega
    · refine List.all_eq_true.mpr fun d hd => ?_
      have := hmem d hd
      simp only [Text.isAscii, decide_eq_true_eq]
      omega

/-- Whether a text is a name for quotes. -/
def isQuotable (name : Text) : Bool :=
  name != [] && name.length ≤ 63 && name.all fun c => Text.isAscii c && c != doubleQuote

theorem reads_qualified (schema : Schema) {table : String} (h : isQuotable (txt table) = true) :
    Reads conforming (qualified schema table) (Table.tokens ⟨schema.val, txt table⟩)
      fun rest => ∀ d ∈ rest.head?, d ≠ doubleQuote := by
  obtain ⟨hmem, hne, hlen, hascii⟩ := schema_spec schema
  simp only [isQuotable, Bool.and_eq_true, bne_iff_ne, decide_eq_true_eq, List.all_eq_true] at h
  obtain ⟨⟨htable, htlen⟩, hall⟩ := h
  have htmem : doubleQuote ∉ txt table := fun hd => (hall _ hd).2 rfl
  have hdot : txt "." = [46] := by decide
  rw [qualified, doubled_of_not_mem hmem, doubled_of_not_mem htmem, hdot]
  refine ((reads_name hmem hne hlen hascii).append reads_dot fun rest _ d hd => ?_).append
    (reads_name htmem htable htlen (List.all_eq_true.mpr fun c hc => (hall c hc).1))
    fun rest _ d hd => (Option.some.inj hd).symm
  obtain rfl := Option.some.inj hd
  decide

/-- Whether the columns can be written without quotes. -/
def areColumns (columns : List String) : Bool :=
  columns != [] && columns.all fun c => isWord (txt c) && (txt c).map fold == txt c

theorem reads_columns {columns : List String} (h : areColumns columns = true) :
    Reads conforming (List.intercalate (txt ", ") (columns.map txt))
      (joined comma ((columns.map txt).map fun c => [.word c])) Separated := by
  have hcomma : Reads conforming (txt ", ") [comma] fun _ => True :=
    reads_fixed (by decide) (by cases conforming <;> decide)
  refine Reads.intercalate ?_ hcomma fun rest => separated_cons (by decide) _
  rw [List.map_map, List.forall₂_map_left_iff, List.forall₂_map_right_iff, List.forall₂_same]
  intro c hc
  obtain ⟨hword, hfold⟩ := Bool.and_eq_true_iff.mp
    (List.all_eq_true.mp (Bool.and_eq_true_iff.mp h).2 c hc)
  have hread : Reads conforming (txt c) [.word ((txt c).map fold)] Separated :=
    reads_word hword
  rw [beq_iff_eq.mp hfold] at hread
  exact hread

/-- What an insertion starts with. -/
theorem reads_insertInto (schema : Schema) {table : String} {columns : List String}
    (htable : isQuotable (txt table) = true) (hcolumns : areColumns columns = true)
    {P : Text → Prop} : Reads conforming (insertInto schema table columns)
      (keywords ["insert", "into"] ++ Table.tokens ⟨schema.val, txt table⟩ ++
        columnTokens (columns.map txt) ++ keywords ["values"]) P := by
  have hinsert : Reads conforming (txt "INSERT INTO ") (keywords ["insert", "into"])
      fun _ => True := reads_fixed (by decide) (by cases conforming <;> decide +kernel)
  have hopen : Reads conforming (txt " (") [.symbol 40] fun _ => True :=
    reads_fixed (by decide) (by cases conforming <;> decide)
  have hclose : Reads conforming (txt ") VALUES ") ([.symbol 41] ++ keywords ["values"]) P :=
    reads_fixed (by decide) (by cases conforming <;> decide +kernel)
  have hwhole := (((hinsert.append (reads_qualified schema htable) fun _ _ => trivial).append
    hopen fun rest _ d hd => by
      obtain rfl := Option.some.inj hd
      decide).append (reads_columns hcolumns) fun _ _ => trivial).append hclose
    fun rest _ => separated_cons (by decide) _
  rw [columnTokens, parenthesized]
  simpa [insertInto] using hwhole

/-- Statements are read as they are meant, if none has an empty list. -/
def ReadAs (conforming : Bool) (statements : List Statement) (texts : List Text) : Prop :=
  List.Forall₂ (fun s t => s.Formed ∧ Reads conforming t s.tokens Ended) statements texts

/-- An insertion is read as it is meant. -/
theorem readAs_insertion {α : Type} (schema : Schema) {table : String} {columns : List String}
    {upsert : Option Upsert} {final : Text} {cells : α → Except RenderError (List SqlValue)}
    {rows : List α} {texts : List Text} (htable : isQuotable (txt table) = true)
    (hcolumns : areColumns columns = true)
    (hcells : ∀ a row, cells a = .ok row → row ≠ [])
    (hupsert : ∀ u ∈ upsert, u.target ≠ [] ∧ u.updates ≠ [])
    (hfinal : Reads conforming final (upsertTokens upsert) Ended)
    (h : statement (insertInto schema table columns) (fun a => cells a >>= values) final rows =
      .ok texts) :
    ∃ made, rows.mapM cells = .ok made ∧
      ReadAs conforming (insertion schema table columns upsert made) texts := by
  rw [statement] at h
  split_ifs at h with hrows
  · obtain rfl := Except.ok.inj h
    subst hrows
    exact ⟨[], rfl, .nil⟩
  · obtain ⟨rowTexts, hmap, htexts⟩ := bind_eq_ok.mp h
    obtain rfl := Except.ok.inj htexts
    have hboth : List.Forall₂ (fun a t => ∃ row, cells a = .ok row ∧ values row = .ok t) rows
        rowTexts := (mapM_eq_ok.mp hmap).imp fun a t ha => bind_eq_ok.mp ha
    obtain ⟨made, hmade, hvalues⟩ : ∃ made, rows.mapM cells = .ok made ∧
        List.Forall₂ (fun row t => values row = .ok t) made rowTexts := by
      clear h hmap hrows htexts
      induction hboth with
      | nil => exact ⟨[], rfl, .nil⟩
      | cons hfirst _ ih =>
        obtain ⟨row, hrow, htext⟩ := hfirst
        obtain ⟨made, hmade, hrest⟩ := ih
        exact ⟨row :: made, mapM_eq_ok.mpr (.cons hrow (mapM_eq_ok.mp hmade)),
          .cons htext hrest⟩
    refine ⟨made, hmade, ?_⟩
    have hne : made ≠ [] := by
      rintro rfl
      have := (mapM_eq_ok.mp hmade).length_eq
      exact hrows (List.eq_nil_of_length_eq_zero this)
    have hcomma : Reads conforming (txt ", ") [comma] fun _ => True :=
      reads_fixed (by decide) (by cases conforming <;> decide)
    have hrowTexts : Reads conforming (List.intercalate (txt ", ") rowTexts)
        (joined comma ((made.map (List.map constant)).map rowTokens)) fun _ => True := by
      refine Reads.intercalate ?_ hcomma fun _ => trivial
      rw [List.map_map, List.forall₂_map_left_iff]
      exact hvalues.imp fun row t hrow => reads_values hrow
    have hwhole := ((reads_insertInto schema htable hcolumns (P := fun _ => True)).append hrowTexts
      fun _ _ => trivial).append hfinal fun _ _ => trivial
    rw [insertion, if_neg hne]
    refine .cons ⟨⟨?_, ?_, ?_, hupsert⟩, ?_⟩ .nil
    · intro hnil
      rw [List.map_eq_nil_iff.mp hnil] at hcolumns
      cases hcolumns
    · exact fun hnil => hne (List.map_eq_nil_iff.mp hnil)
    · intro row hrow
      obtain ⟨cells', hmem, rfl⟩ := List.mem_map.mp hrow
      obtain ⟨a, -, ha⟩ := exists_of_mem_mapM hmade hmem
      exact fun hnil => hcells a cells' ha (List.map_eq_nil_iff.mp hnil)
    · simpa [Statement.tokens] using hwhole

/-- Rows that are always made are read as they are meant. -/
theorem readAs_rows {α : Type} (schema : Schema) {table : String} {columns : List String}
    {upsert : Option Upsert} {final : Text} {cells : α → List SqlValue} {rows : List α}
    {texts : List Text} (htable : isQuotable (txt table) = true)
    (hcolumns : areColumns columns = true) (hcells : ∀ a, cells a ≠ [])
    (hupsert : ∀ u ∈ upsert, u.target ≠ [] ∧ u.updates ≠ [])
    (hfinal : Reads conforming final (upsertTokens upsert) Ended)
    (h : statement (insertInto schema table columns) (fun a => values (cells a)) final rows =
      .ok texts) :
    ReadAs conforming (insertion schema table columns upsert (rows.map cells)) texts := by
  have h' : statement (insertInto schema table columns)
      (fun a => (Except.ok (cells a) : Except RenderError (List SqlValue)) >>= values) final rows =
        .ok texts := h
  obtain ⟨made, hmade, hread⟩ := readAs_insertion schema htable hcolumns
    (fun a row hrow => Except.ok.inj hrow ▸ hcells a) hupsert hfinal h'
  have heq : made = rows.map cells := by
    have hboth := mapM_eq_ok.mp hmade
    clear hmade hread h h'
    induction hboth with
    | nil => rfl
    | cons hfirst _ ih => rw [List.map_cons, ← ih, Except.ok.inj hfirst]
  exact heq ▸ hread

/-- A deletion is read as it is meant. -/
theorem readAs_deletion (schema : Schema) {ids : List UUID} {texts : List Text}
    (h : statement (close schema) (fun id => literal (.uuid id)) (txt ")") ids = .ok texts) :
    ReadAs conforming (deletion schema ids) texts := by
  rw [statement] at h
  split_ifs at h with hids
  · obtain rfl := Except.ok.inj h
    rw [deletion, if_pos hids]
    exact .nil
  · obtain ⟨literals, hmap, htexts⟩ := bind_eq_ok.mp h
    obtain rfl := Except.ok.inj htexts
    have hdelete : Reads conforming (txt "DELETE FROM ") (keywords ["delete", "from"])
        fun _ => True := reads_fixed (by decide) (by cases conforming <;> decide +kernel)
    have hwhere : Reads conforming (txt " WHERE authorization_id IN (")
        (keywords ["where", "authorization_id", "in"] ++ [.symbol 40]) fun _ => True :=
      reads_fixed (by decide) (by cases conforming <;> decide +kernel)
    have hclose : Reads conforming (txt ")") [.symbol 41] Ended :=
      reads_fixed (by decide) (by cases conforming <;> decide)
    have hcomma : Reads conforming (txt ", ") [comma] fun _ => True :=
      reads_fixed (by decide) (by cases conforming <;> decide)
    have hliterals : Reads conforming (List.intercalate (txt ", ") literals)
        (joined comma (ids.map fun id => (constant (.uuid id)).tokens)) Separated := by
      refine Reads.intercalate ?_ hcomma fun rest => separated_cons (by decide) _
      rw [List.forall₂_map_left_iff]
      exact (mapM_eq_ok.mp hmap).imp fun id t hid => reads_literal hid
    have htable : Reads conforming (qualified schema "open_authorizations")
        (Table.tokens ⟨schema.val, txt "open_authorizations"⟩)
        fun rest => ∀ d ∈ rest.head?, d ≠ doubleQuote := reads_qualified schema (by decide)
    have hwhole := (((hdelete.append htable fun _ _ => trivial).append hwhere
      fun rest _ d hd => by
        obtain rfl := Option.some.inj hd
        decide).append hliterals fun _ _ => trivial).append hclose
      fun rest _ => separated_cons (by decide) _
    rw [deletion, if_neg hids]
    refine .cons ⟨fun hnil => hids (List.map_eq_nil_iff.mp hnil), ?_⟩ .nil
    rw [Statement.tokens, rowTokens, parenthesized, List.map_map]
    simpa [Postgres.close, keywords, txt, Function.comp_def] using hwhole

theorem reads_nodesConflict :
    Reads conforming nodesConflict (upsertTokens (some nodesUpsert)) Ended :=
  reads_fixed_ended (by decide +kernel) (by cases conforming <;> decide +kernel)
    (by cases conforming <;> decide +kernel)

/-- The statements of a rendering are read as they are meant. -/
theorem readAs_render {schema : Schema} {batches : List WriteBatch} {texts : List Text}
    (h : render schema batches = .ok texts) :
    ∃ ss, intended schema batches = .ok ss ∧ ∀ conforming, ReadAs conforming ss texts := by
  obtain ⟨entries, hentries, h⟩ := bind_eq_ok.mp h
  obtain ⟨nodes, hnodes, h⟩ := bind_eq_ok.mp h
  obtain ⟨controls, hcontrols, h⟩ := bind_eq_ok.mp h
  obtain ⟨opened, hopened, h⟩ := bind_eq_ok.mp h
  obtain ⟨closed, hclosed, h⟩ := bind_eq_ok.mp h
  obtain ⟨calls, hcalls, h⟩ := bind_eq_ok.mp h
  obtain rfl := Except.ok.inj h
  have hnone (conforming : Bool) : Reads conforming [] (upsertTokens none) Ended := .nil
  have hentryRow : ∀ e row, entryRow e = .ok row → row ≠ [] := by
    intro e row hrow
    obtain ⟨amount, -, hrow⟩ := bind_eq_ok.mp hrow
    obtain ⟨balance, -, hrow⟩ := bind_eq_ok.mp hrow
    exact Except.ok.inj hrow ▸ List.cons_ne_nil _ _
  obtain ⟨made, hmade, -⟩ := readAs_insertion schema (by decide) (by decide)
    hentryRow (by rintro u ⟨⟩) (hnone true) hentries
  refine ⟨_, bind_eq_ok.mpr ⟨made, hmade, rfl⟩, fun conforming => ?_⟩
  obtain ⟨made', hmade', hread⟩ := readAs_insertion schema (by decide) (by decide)
    hentryRow (by rintro u ⟨⟩) (hnone conforming) hentries
  rw [hmade, Except.ok.injEq] at hmade'
  subst hmade'
  have hupsert : ∀ u ∈ some nodesUpsert, u.target ≠ [] ∧ u.updates ≠ [] := by
    intro u hu
    obtain rfl := Option.some.inj hu
    exact ⟨List.cons_ne_nil _ _, List.cons_ne_nil _ _⟩
  have happend {ss ss' : List Statement} {ts ts' : List Text} (hs : ReadAs conforming ss ts)
      (hs' : ReadAs conforming ss' ts') : ReadAs conforming (ss ++ ss') (ts ++ ts') :=
    List.rel_append hs hs'
  refine happend (happend (happend (happend (happend hread ?_) ?_) ?_) ?_) ?_
  · exact readAs_rows schema (by decide) (by decide) (fun n => List.cons_ne_nil _ _) hupsert
      reads_nodesConflict hnodes
  · exact readAs_rows schema (by decide) (by decide) (fun n => List.cons_ne_nil _ _)
      (by rintro u ⟨⟩) (hnone conforming) hcontrols
  · exact readAs_rows schema (by decide) (by decide) (fun n => List.cons_ne_nil _ _)
      (by rintro u ⟨⟩) (hnone conforming) hopened
  · exact readAs_deletion schema hclosed
  · exact readAs_rows schema (by decide) (by decide) (fun n => List.cons_ne_nil _ _)
      (by rintro u ⟨⟩) (hnone conforming) hcalls

theorem ReadAs.formed {ss : List Statement} {texts : List Text} (h : ReadAs conforming ss texts) :
    ∀ s ∈ ss, s.Formed := by
  induction h with
  | nil => exact fun s hs => absurd hs List.not_mem_nil
  | cons hfirst _ ih =>
    intro s hs
    rcases List.mem_cons.mp hs with rfl | hs
    · exact hfirst.1
    · exact ih s hs

/-- Statements with semicolons between them are parsed. -/
theorem ReadAs.parse_eq {ss : List Statement} {texts : List Text}
    (h : ReadAs conforming ss texts) :
    parse conforming (List.intercalate (txt "; ") texts) = some ss := by
  have hsemicolon : Reads conforming (txt "; ") [semicolon] fun _ => True :=
    reads_fixed (by decide) (by cases conforming <;> decide)
  have hwhole : Reads conforming (List.intercalate (txt "; ") texts)
      (joined semicolon (ss.map Statement.tokens)) Ended := by
    refine Reads.intercalate ?_ hsemicolon fun rest d hd => ?_
    · rw [List.forall₂_map_left_iff]
      exact List.Forall₂.imp (fun s t hst => hst.2) h
    · obtain rfl := Option.some.inj hd
      decide
  rw [parse, hwhole.lex_eq (by rintro d ⟨⟩)]
  exact readStatements_tokens h.formed

/-- The end of a message. -/
def ending (final : Bool) : List Statement := if final then [.commit] else []

/-- A message is read as the statements it is meant as, and its `COMMIT`. -/
theorem parse_message {schema : Schema} {batches : List WriteBatch} {final : Bool}
    (h : message schema batches final = .ok text) :
    ∃ ss, intended schema batches = .ok ss ∧
      ∀ conforming, parse conforming text = some (ss ++ ending final) := by
  obtain ⟨texts, htexts, h⟩ := bind_eq_ok.mp h
  obtain rfl := Except.ok.inj h
  obtain ⟨ss, hss, hread⟩ := readAs_render htexts
  refine ⟨ss, hss, fun conforming => ReadAs.parse_eq (List.rel_append (hread conforming) ?_)⟩
  cases final with
  | false => exact .nil
  | true =>
    have hword : Reads conforming (txt "COMMIT") (keywords ["commit"]) Separated :=
      reads_word (by decide)
    exact .cons ⟨trivial, hword.mono fun _ hrest => hrest.separated⟩ .nil

/-- Whether a text is read as one constant, of the value and of no other, before whatever goes on
with its row. -/
def ReadsOne (text : Text) (v : SqlValue) : Prop :=
  ∃ c : Constant, (∀ w, Denotes c w ↔ w = v) ∧ ∀ conforming rest, Separated rest →
    lex conforming (text ++ rest) = (c.tokens ++ ·) <$> lex conforming rest

/-- Literals cannot be broken out of: each is read as one constant of its value, a row as the
constants of its values, and a message as the statements it is meant as, whatever texts they hold
and whether or not backslashes are escapes in plain strings. -/
theorem literals_contained :
    (∀ v text, literal v = .ok text → ReadsOne text v) ∧
    (∀ row text, row ≠ [] → values row = .ok text → ∀ conforming rest tokens,
      lex conforming (text ++ rest) =
          (rowTokens (row.map constant) ++ ·) <$> lex conforming rest ∧
        readGroup readConstant (rowTokens (row.map constant) ++ tokens) =
          some (row.map constant, tokens)) ∧
    ∀ schema batches final text, message schema batches final = .ok text →
      ∃ ss, intended schema batches = .ok ss ∧
        ∀ conforming, parse conforming text = some (ss ++ ending final) := by
  refine ⟨fun v text h => ?_, fun row text hne h conforming rest tokens => ?_, ?_⟩
  · exact ⟨constant v, denotes_constant v, fun conforming rest hrest => reads_literal h rest hrest⟩
  · refine ⟨reads_values h (P := fun _ => True) rest trivial, readRow_tokens ?_⟩
    exact fun hnil => hne (List.map_eq_nil_iff.mp hnil)
  · exact fun schema batches final text h => parse_message h

/-- A trip whose scope and reason hold quotes and a backslash. -/
def sampleTrip : ControlEvent where
  eventId := 7
  timestamp := newYear
  eventType := txt "circuit_tripped"
  scopeId := txt "a', 'b\\"
  reason := txt "'); DELETE FROM x; --"
  ledgerHeadHash := []

/-- Its message. -/
def sampleMessage : Text :=
  txt "INSERT INTO \"agentgov\".\"control_events\" (event_id, timestamp, event_type, scope_id, " ++
    txt "reason, ledger_head_hash, entry_id) VALUES " ++
    txt "('00000000-0000-0000-0000-000000000007'::uuid, '2026-01-01T00:00:00.000000Z', " ++
    txt "'circuit_tripped', E'a'', ''b\\\\', '''); DELETE FROM x; --', '', NULL); COMMIT"

/-- The message is read as it is meant. -/
theorem literals_contained_trip :
    ∃ ss, intended ⟨txt "agentgov", by decide⟩ [{ controlEvents := [sampleTrip] }] = .ok ss ∧
      ∀ conforming, parse conforming sampleMessage = some (ss ++ ending true) :=
  literals_contained.2.2 _ _ true _ (by decide +kernel)

end AgentGov.Postgres
