import AgentGov.Postgres.Databases
import AgentGov.Runs
import AgentGov.Tree

/-!
# The sessions of a governor

The batches a governor makes in a session, one of each unit of work it commits
(`src/src/agentgov/core.py`, lines 1278–1282, 2539–2553 and 3180–3208), may be kept and sent
together: with flushes wherever they are, the statements of the messages leave the rows of a
database as the statements of every batch on its own do, and a constraint refuses the session in
the same cases.

## Main definitions

* `AgentGov.Pending.batch`: the batch of a unit of work.
* `AgentGov.Governor.makes`, `AgentGov.Governor.after`: a session's batches, and the governor
  after it.

## Main results

* `AgentGov.Governor.makes_made`: a session's batches are made one after the other.
* `AgentGov.Governor.serves_after`: a store that serves a governor serves it after a session.
* `AgentGov.Governor.coalesced_eq_separate`.
-/

open Foundation

namespace AgentGov

open Postgres

/-! ### Batches -/

/-- The topology row of a scope. -/
def BudgetNode.row (n : BudgetNode) : NodeRow where
  scopeId := n.scopeId
  parentId := n.parentId
  depth := n.depth
  allocated := balanceDatum n.allocated
  createdAt := n.createdAt

/-- `_commit`: the batch of a unit of work, its cache rows those its view implies. -/
def Pending.batch (p : Pending) (call : Option (Call × LedgerEntry)) : WriteBatch where
  entries := p.entries
  nodes := (p.view.rowScopes.filterMap p.view.nodes.get?).map BudgetNode.row
  controlEvents := p.view.events
  opened := p.view.opened.values.map authorizationFor
  closed := p.view.closed
  idempotency := call.toList.map fun c => Governor.record c.1 c.2

/-- `bool(batch)`: whether there is anything to write. -/
def Postgres.WriteBatch.isEmpty (b : WriteBatch) : Bool :=
  b.entries.isEmpty && b.nodes.isEmpty && b.controlEvents.isEmpty && b.opened.isEmpty &&
    b.closed.isEmpty && b.redeemed.isEmpty && b.idempotency.isEmpty

namespace Governor

variable (w : World)

/-- The batch a unit of work sends the store, if it commits and has anything to write. -/
def workBatches {α : Type} (g : Governor) (body : Staging α) (call : Option Call)
    (result : α → Option LedgerEntry) : List WriteBatch :=
  match body.run (stage w) g.begin with
  | (.error _, _) => []
  | (.ok a, p) =>
    let b := p.batch (call.bind fun c => (result a).map fun e => (c, e))
    if b.isEmpty then [] else [b]

/-- The batches an instruction sends the store. -/
def batches {β : Type} (g : Governor) : Instr β → List WriteBatch
  | .work body call result => workBatches w g body call result
  | _ => []

/-- The governor after the instructions of a session. -/
def after (g : Governor) : List (Σ β : Type, Instr β) → Governor
  | [] => g
  | i :: rest => after (handle w i.1 i.2 g).2 rest

/-- The batches of a session, in order. -/
def makes (g : Governor) : List (Σ β : Type, Instr β) → List WriteBatch
  | [] => []
  | i :: rest => g.batches w i.2 ++ makes (handle w i.1 i.2 g).2 rest

end Governor

/-! ### What a chain keeps of its scopes -/

/-- The depth and the instant a scope was created with. -/
def Chain.born (c : Chain) (scope : Text) : Option (ℤ × Instant) :=
  (c.nodes.get? scope).map fun n => ((n.depth : ℤ), n.createdAt)

/-- A scope keeps the depth and the instant it was created with. -/
theorem Applied.born {checkHash writing : Bool} {c c' : Chain} {e : LedgerEntry}
    (h : Applied checkHash writing c e c') {scope : Text} {b : ℤ × Instant}
    (hb : c.born scope = some b) : c'.born scope = some b := by
  have hset : ∀ {n : BudgetNode} {v : Value}, c.nodes.get? e.scopeId = some n →
      c'.nodes = c.nodes.set e.scopeId { n with allocated := v } → c'.born scope = some b := by
    intro n v hn hnodes
    rw [Chain.born, hnodes, Dict.get?_set]
    by_cases hs : scope = e.scopeId
    · rw [Chain.born, hs, hn] at hb
      rw [if_pos hs]
      exact hb
    · rw [if_neg hs]
      exact hb
  have hnew : ∀ {n : Node}, c.nodes.get? n.scopeId = none →
      ((c.nodes.set n.scopeId { toNode := n }).get? scope).map
        (fun n => ((n.depth : ℤ), n.createdAt)) = some b := by
    intro n hn
    have hne : scope ≠ n.scopeId := by
      rintro rfl
      rw [Chain.born, hn] at hb
      cases hb
    rw [Dict.get?_set, if_neg hne]
    exact hb
  cases h.governance with
  | root kind new nodes roots =>
    rw [Chain.born, nodes]
    exact hnew (n := e.created none 0) new
  | raise n allocated kind known isRoot sum nodes roots => exact hset known nodes
  | child parent kind direction new known nodes roots =>
    have hcreated := hnew (n := e.created (some parent.scopeId) (parent.depth + 1)) new
    rw [Chain.born, nodes, Chain.nodesWithChild]
    -- the parent's row only lists one more child
    split
    · exact hcreated
    · rename_i p hp
      rw [Dict.get?_set]
      split_ifs with hs
      · rw [hs, hp] at hcreated
        exact hcreated
      · exact hcreated
  | release n child kind known between nodes roots => rw [Chain.born, nodes]; exact hb
  | other n kind credit inScope known nodes roots => rw [Chain.born, nodes]; exact hb
  | scopeless kind nodes roots => rw [Chain.born, nodes]; exact hb

section Runs

variable {checkHash writing : Bool} {c c' : Chain} {es : List LedgerEntry}

/-- And so along a run. -/
theorem born_run (h : runAll (Rules.apply checkHash writing) c es = .ok c') {scope : Text}
    {b : ℤ × Instant} (hb : c.born scope = some b) : c'.born scope = some b :=
  Chain.run_induction (motive := fun _ c => c.born scope = some b) hb
    (fun _ _ _ _ _ ih ha => ha.born ih) h

/-- A hold that is open after a run was open before it, or is one of its entries. -/
theorem holds_run (h : runAll (Rules.apply checkHash writing) c es = .ok c') {id : UUID}
    {hold : LedgerEntry} (hid : c'.holds.get? id = some hold) :
    c.holds.get? id = some hold ∨ hold ∈ es ∧ hold.entryId = id := by
  refine Chain.run_induction (motive := fun es c' => c'.holds.get? id = some hold →
    c.holds.get? id = some hold ∨ hold ∈ es ∧ hold.entryId = id) Or.inl ?_ h hid
  intro l e d d' _ ih ha hid
  have hearlier : d.holds.get? id = some hold →
      c.holds.get? id = some hold ∨ hold ∈ l ++ [e] ∧ hold.entryId = id :=
    fun h => (ih h).imp_right fun h => ⟨List.mem_append_left _ h.1, h.2⟩
  have herased : ∀ id', (d.holds.erase id').get? id = some hold → d.holds.get? id = some hold := by
    intro id' h
    rw [Dict.get?_erase] at h
    split_ifs at h
    exact h
  cases ha.holds with
  | place kind _ holds =>
    rw [holds, Dict.get?_set] at hid
    split_ifs at hid with he
    · obtain rfl := Option.some.inj hid
      exact Or.inr ⟨by simp, he.symm⟩
    · exact hearlier hid
  | release _ _ _ _ _ _ _ _ holds => exact hearlier (herased _ (holds ▸ hid))
  | releaseUnnamed _ _ _ _ _ _ _ holds => exact hearlier (herased _ (holds ▸ hid))
  | spend _ _ holds => exact hearlier (holds ▸ hid)
  | reverse _ _ _ _ _ _ _ _ _ _ _ _ holds => exact hearlier (holds ▸ hid)
  | keep _ _ holds => exact hearlier (holds ▸ hid)

end Runs

/-! ### Sessions -/

namespace Governor

variable {w : World} {unit : Unit} {g : Governor} {c : Chain}

/-- The batch of a unit of work follows the entries before it. -/
theorem follows_batch {p : Pending} {c' : Chain} (h : g.Sound w unit c)
    (hp : p.Follows w unit g.ledger.resolve g.ledger.state g.refundLookup g.ledger.entries c')
    (call : Option (Call × LedgerEntry)) :
    (p.batch call).Follows c'.born g.ledger.entries := by
  obtain ⟨m, hover, halike, -, -⟩ := hp.reads
  have hshows := hover.shows
  obtain ⟨c₁, hfirst, hrest⟩ := runAll_append_eq_ok.mp hp.run
  rw [h.run, Except.ok.injEq] at hfirst
  subst hfirst
  have hholds : m.holds = c'.holds := by
    have heq := halike.holds
    rwa [Dict.mapValues_id, Dict.mapValues_id] at heq
  have hmerge : p.view.merge.holds = m.holds := by
    have heq := hshows.holds
    rwa [Dict.mapValues_id, Dict.mapValues_id] at heq
  -- an open hold of the view is one of the work's own entries
  have hopened : ∀ id hold, p.view.opened.get? id = some hold →
      hold ∈ p.entries ∧ hold.entryId = id := by
    intro id hold hid
    have hmem : id ∈ p.view.opened.keys := Dict.mem_keys_iff.mpr ⟨hold, hid⟩
    have hbase : id ∉ p.view.base.holds.keys := hshows.opened id hmem
    have hopen : c'.holds.get? id = some hold := by
      rw [← hholds, ← hmerge, hshows.get?_merge_holds, Overlay.openHold,
        if_neg fun hc => hbase (hshows.closed id hc), hid]
      rfl
    refine (holds_run hrest hopen).resolve_left fun hold => hbase ?_
    rw [hover.base, h.holds_eq]
    exact Dict.mem_keys_iff.mpr ⟨_, hold⟩
  have hvalues : ∀ hold ∈ p.view.opened.values,
      hold ∈ p.entries ∧ p.view.opened.get? hold.entryId = some hold := by
    intro hold hmem
    obtain ⟨id, hid⟩ := Dict.mem_values_iff.mp hmem
    obtain ⟨he, rfl⟩ := hopened id hold hid
    exact ⟨he, hid⟩
  refine ⟨?_, ?_, ?_, ?_⟩
  · intro a ha
    obtain ⟨hold, hmem, rfl⟩ := List.mem_map.mp ha
    exact ⟨hold, (hvalues hold hmem).1, rfl⟩
  · have hids : (p.batch call).opened.map Authorization.authorizationId =
        p.view.opened.keys := by
      rw [Pending.batch, List.map_map, Dict.values, Dict.keys, List.map_map]
      exact List.map_congr_left fun q hq =>
        (hopened q.1 q.2 (Dict.get?_eq_some_iff.mpr hq)).2
    rw [hids]
    exact p.view.opened.nodup_keys
  · intro id hid
    have hbase := hshows.closed id hid
    obtain ⟨hold, hhold⟩ := Dict.mem_keys_iff.mp hbase
    rw [hover.base] at hhold
    exact hp.known id hold hhold
  · intro n hn
    obtain ⟨node, hnode, rfl⟩ := List.mem_map.mp hn
    obtain ⟨scope, -, hscope⟩ := List.mem_filterMap.mp hnode
    have hshown := hshows.node scope
    have hview : p.view.node scope = some node := by rw [Overlay.node, hscope]; rfl
    rw [hview, Option.map_some, eq_comm, Option.map_eq_some_iff] at hshown
    obtain ⟨known, hknown, hsame⟩ := hshown
    have hnodes : c'.nodes.get? scope = some known := by rw [← halike.nodes]; exact hknown
    have hkeyed : known.scopeId = scope := halike.keyed scope known hnodes
    have hid : node.scopeId = scope := by
      rw [show node.scopeId = node.toNode.scopeId from rfl, ← hsame]
      exact hkeyed
    change c'.born node.scopeId = some ((node.depth : ℤ), node.createdAt)
    rw [hid, Chain.born, hnodes, Option.map_some,
      show known.depth = node.depth from congrArg Node.depth hsame,
      show known.createdAt = node.createdAt from congrArg Node.createdAt hsame]

/-- An instruction leaves the ledger as it is and makes no batch, or it commits a unit of work. -/
theorem keeps_or_works (w : World) {β : Type} (i : Instr β) (g : Governor) :
    (g.Keeps (handle w β i g).2 ∧ g.batches w i = []) ∨
      ∃ (α : Type) (body : Staging α) (a : α) (p : Pending) (call : Option (Call × LedgerEntry)),
        body.run (stage w) g.begin = (.ok a, p) ∧ (handle w β i g).2 = g.commit p call ∧
          g.batches w i = if (p.batch call).isEmpty then [] else [p.batch call] := by
  cases i with
  | mutating => exact Or.inl ⟨.refl g, rfl⟩
  | served => exact Or.inl ⟨.refl g, rfl⟩
  | policy => exact Or.inl ⟨.refl g, rfl⟩
  | now => exact Or.inl ⟨⟨rfl, rfl, rfl, rfl, Nat.le_succ _⟩, rfl⟩
  | called key outcome request => exact Or.inl ⟨called_keeps g key outcome request, rfl⟩
  | answered call answer => exact Or.inl ⟨answered_keeps g call answer, rfl⟩
  | refundedOfSpend spend => exact Or.inl ⟨.refl g, rfl⟩
  | velocity scope => exact Or.inl ⟨countCall_keeps w g scope, rfl⟩
  | noteTrip scope reason => exact Or.inl ⟨⟨rfl, rfl, rfl, rfl, Nat.le_refl _⟩, rfl⟩
  | forgetVelocity scope => exact Or.inl ⟨⟨rfl, rfl, rfl, rfl, Nat.le_refl _⟩, rfl⟩
  | work body call result =>
    simp only [batches, workBatches, handle, work]
    have hdraws := Staging.run_draws w body g.begin
    rcases hrun : body.run (stage w) g.begin with ⟨_ | a, p⟩
    · rw [hrun] at hdraws
      exact Or.inl ⟨⟨rfl, rfl, rfl, rfl, hdraws⟩, rfl⟩
    · exact Or.inr ⟨_, body, a, p, _, hrun, rfl, rfl⟩

/-- A batch with nothing to write has no entries, and is of no call. -/
theorem entries_eq_nil_of_isEmpty {p : Pending} {call : Option (Call × LedgerEntry)}
    (h : (p.batch call).isEmpty = true) : p.entries = [] := by
  simp only [Postgres.WriteBatch.isEmpty, Bool.and_eq_true, List.isEmpty_iff] at h
  exact h.1.1.1.1.1.1

theorem entries_commit (g : Governor) (p : Pending) (call : Option (Call × LedgerEntry)) :
    (g.commit p call).ledger.entries = g.ledger.entries ++ p.entries := by
  rw [ledger_commit]
  split_ifs with hnone
  · rw [hnone.1, List.append_nil]
  · rfl

/-- An instruction's batches follow the entries before it, which it adds theirs to; and scopes
keep what they were created with. -/
theorem batches_spec (h : g.Sound w unit c) {β : Type} (i : Instr β)
    (distinct : w.Distinct (handle w β i g).2.draws) :
    ∃ c', (handle w β i g).2.Sound w unit c' ∧
      (∀ scope b, c.born scope = some b → c'.born scope = some b) ∧
      Made c'.born g.ledger.entries (g.batches w i) ∧
      (handle w β i g).2.ledger.entries =
        g.ledger.entries ++ (g.batches w i).flatMap WriteBatch.entries := by
  rcases keeps_or_works w i g with ⟨hkeeps, hnone⟩ | ⟨α, body, a, p, call, hrun, heq, hbatch⟩
  · refine ⟨c, h.keep hkeeps, fun _ _ hb => hb, ?_, ?_⟩
    · rw [hnone]
      trivial
    · rw [hnone, hkeeps.ledger]
      simp
  · rw [heq, draws_commit] at distinct
    obtain ⟨c', hfollows⟩ : ∃ c', p.Follows w unit g.ledger.resolve g.ledger.state g.refundLookup
        g.ledger.entries c' := by
      have hfollows := Staging.run_follows h.begin body
      rw [hrun] at hfollows
      exact hfollows distinct
    obtain ⟨c₁, hfirst, hrest⟩ := runAll_append_eq_ok.mp hfollows.run
    rw [h.run, Except.ok.injEq] at hfirst
    subst hfirst
    have hsound := h.commit hfollows call
    rw [← heq] at hsound
    refine ⟨_, hsound, fun scope b hb => born_run hrest hb, ?_, ?_⟩
    · rw [hbatch]
      split_ifs
      · trivial
      · exact ⟨follows_batch h hfollows call, trivial⟩
    · rw [heq, entries_commit, hbatch]
      split_ifs with hempty
      · rw [entries_eq_nil_of_isEmpty hempty]
        rfl
      · simp [Pending.batch]

theorem Follows.mono {born born' : Text → Option (ℤ × Instant)} {before : List LedgerEntry}
    {b : WriteBatch} (hborn : ∀ scope x, born scope = some x → born' scope = some x)
    (h : b.Follows born before) : b.Follows born' before :=
  { h with born := fun n hn => hborn _ _ (h.born n hn) }

theorem made_mono {born born' : Text → Option (ℤ × Instant)}
    (hborn : ∀ scope x, born scope = some x → born' scope = some x) {before : List LedgerEntry}
    {batches : List WriteBatch} (h : Made born before batches) : Made born' before batches := by
  induction batches generalizing before with
  | nil => trivial
  | cons b batches ih => exact ⟨Follows.mono hborn h.1, ih h.2⟩

theorem made_append {born : Text → Option (ℤ × Instant)} {before : List LedgerEntry}
    {batches rest : List WriteBatch} (h : Made born before batches)
    (hrest : Made born (before ++ batches.flatMap WriteBatch.entries) rest) :
    Made born before (batches ++ rest) := by
  induction batches generalizing before with
  | nil => simpa using hrest
  | cons b batches ih =>
    refine ⟨h.1, ih h.2 ?_⟩
    rwa [List.append_assoc]

/-- Instructions only draw on. -/
theorem draws_after (w : World) (g : Governor) (is : List (Σ β : Type, Instr β)) :
    g.draws ≤ (g.after w is).draws := by
  induction is generalizing g with
  | nil => exact Nat.le_refl _
  | cons i is ih => exact Nat.le_trans (handled w i.2 g).draws (ih _)

/-- A session leaves a sound governor, and its batches are made one after the other. -/
theorem makes_made (h : g.Sound w unit c) (is : List (Σ β : Type, Instr β))
    (distinct : w.Distinct (g.after w is).draws) :
    ∃ c', (g.after w is).Sound w unit c' ∧
      (∀ scope b, c.born scope = some b → c'.born scope = some b) ∧
      Made c'.born g.ledger.entries (g.makes w is) ∧
      (g.after w is).ledger.entries =
        g.ledger.entries ++ (g.makes w is).flatMap WriteBatch.entries := by
  induction is generalizing g c with
  | nil => exact ⟨c, h, fun _ _ hb => hb, trivial, by simp [after, makes]⟩
  | cons i is ih =>
    obtain ⟨c₁, hsound, hborn, hmade, hentries⟩ :=
      batches_spec h i.2 (distinct.mono (draws_after w _ is))
    obtain ⟨c', hsound', hborn', hmade', hentries'⟩ := ih hsound distinct
    refine ⟨c', hsound', fun scope b hb => hborn' scope b (hborn scope b hb), ?_, ?_⟩
    · rw [hentries] at hmade'
      exact made_append (made_mono hborn' hmade) hmade'
    · rw [after, hentries', hentries, makes, List.flatMap_append, List.append_assoc]

section Statements

variable {schema : Schema} {genesis : Text} {db : Sql.Database}

/-- A store that serves a governor serves it after the session it has written. -/
theorem serves_after {db' : Sql.Database} (h : g.Sound w unit c)
    (hdb : Serves schema db g.ledger.entries) (is : List (Σ β : Type, Instr β))
    (distinct : w.Distinct (g.after w is).draws) {separate : List (List Sql.Statement)}
    (hseparate : (g.makes w is).mapM (WriteBatch.statements schema) = .ok separate)
    (hwrite : Sql.execAll (catalog schema genesis) db separate.flatten = some db') :
    Serves schema db' (g.after w is).ledger.entries := by
  obtain ⟨c', -, -, hmade, hentries⟩ := makes_made h is distinct
  obtain ⟨t, ht, hholds⟩ := hdb
  have hrel := rel_writeAll genesis hholds hseparate
  rw [hwrite] at hrel
  cases hall : t.writeAll genesis (g.makes w is) with
  | none => rw [hall] at hrel; cases hrel
  | some t' =>
    rw [hall] at hrel
    cases hrel with
    | some hholds' => exact ⟨t', hentries ▸ ht.writeAll hmade hall, hholds'.rebase⟩

/-- Coalesced writes equal separate writes: the statements of the messages that a session's
batches are sent with, at flushes wherever they are and at its end, leave the rows of every table
as the statements that write each batch on its own do, and are refused where those are. -/
theorem coalesced_eq_separate (h : g.Sound w unit c) (hdb : Serves schema db g.ledger.entries)
    (is : List (Σ β : Type, Instr β)) (distinct : w.Distinct (g.after w is).draws)
    {windows : List (List WriteBatch × Bool)}
    (hwindows : (windows.map Prod.fst).flatten = g.makes w is) {messages : List Text}
    (hmessages : windows.mapM (fun p => message schema p.1 p.2) = .ok messages)
    (conforming : Bool) :
    ∃ coalesced separate, messages.mapM (Sql.parse conforming) = some coalesced ∧
      (g.makes w is).mapM (WriteBatch.statements schema) = .ok separate ∧
      Option.Rel Same (Sql.execAll (catalog schema genesis) db coalesced.flatten)
        (Sql.execAll (catalog schema genesis) db separate.flatten) := by
  obtain ⟨c', -, -, hmade, -⟩ := makes_made h is distinct
  obtain ⟨t, ht, hholds⟩ := hdb
  obtain ⟨separate, hseparate⟩ := exists_statements hmessages
  rw [hwindows] at hseparate
  obtain ⟨coalesced, hcoalesced, hsent⟩ :=
    rel_flushAll genesis db hmessages conforming
  refine ⟨coalesced, separate, hcoalesced, hseparate, ?_⟩
  have hleft := hsent hholds
  have hright := rel_writeAll genesis hholds hseparate
  -- both change rows as they change the tables the database holds
  rw [← hwindows] at hmade hright
  rw [ht.flushAll_eq_writeAll hmade] at hleft
  cases hall : t.writeAll genesis (windows.map Prod.fst).flatten with
  | none =>
    rw [hall] at hleft hright
    generalize Sql.execAll (catalog schema genesis) db coalesced.flatten = left at hleft ⊢
    generalize Sql.execAll (catalog schema genesis) db separate.flatten = right at hright ⊢
    cases hleft
    cases hright
    exact .none
  | some t' =>
    rw [hall] at hleft hright
    generalize Sql.execAll (catalog schema genesis) db coalesced.flatten = left at hleft ⊢
    generalize Sql.execAll (catalog schema genesis) db separate.flatten = right at hright ⊢
    cases hleft with
    | some hleft =>
      cases hright with
      | some hright => exact .some (hleft.same hright)

end Statements

/-! ### A sample session -/

/-- A root opened and raised, and two holds that are released. -/
def sampleLines : List LedgerLine :=
  [Op.line .funding .credit (txt "a") (Decimal.ofInt 10) none [] none,
    Op.line .hold .debit (txt "a") (Decimal.ofInt 4) none [] none,
    Op.line .funding .credit (txt "a") (Decimal.ofInt 10) none [] none,
    Op.line .holdVoid .credit (txt "a") (Decimal.ofInt 4) none [] (some (sampleWorld.uuid 3)),
    Op.line .hold .debit (txt "a") (Decimal.ofInt 3) none [] none,
    Op.line .holdVoid .credit (txt "a") (Decimal.ofInt 3) none [] (some (sampleWorld.uuid 9))]

/-- A unit of work each. -/
def sampleSession : List (Σ β : Type, Instr β) :=
  sampleLines.map fun line => ⟨_, .work (Staging.post₁ line) none fun _ => none⟩

theorem sampleSession_draws :
    ((Governor.new USD samplePolicy true).after sampleWorld sampleSession).draws ≤ 2 ^ 128 := by
  decide +kernel

def sampleSchema : Schema := ⟨txt "agentgov", by decide⟩

/-- A flush while the first hold is open, and the session's end. -/
def sampleWindows : List (List WriteBatch × Bool) :=
  let batches := (Governor.new USD samplePolicy true).makes sampleWorld sampleSession
  [(batches.take 3, false), (batches.drop 3, true)]

/-- The messages of the session. -/
def sampleMessages : List Text :=
  (sampleWindows.mapM fun p => message sampleSchema p.1 p.2).toOption.getD []

theorem sampleMessages_eq :
    (sampleWindows.mapM fun p => message sampleSchema p.1 p.2) = .ok sampleMessages := by
  have hok : (sampleWindows.mapM fun p => message sampleSchema p.1 p.2).isOk = true := by
    decide +kernel
  rw [sampleMessages]
  cases hall : sampleWindows.mapM fun p => message sampleSchema p.1 p.2 with
  | error e => rw [hall] at hok; cases hok
  | ok messages => rfl

theorem coalesced_eq_separate_sampleSession : ∃ coalesced separate,
    sampleMessages.mapM (Sql.parse true) = some coalesced ∧
      ((Governor.new USD samplePolicy true).makes sampleWorld sampleSession).mapM
        (WriteBatch.statements sampleSchema) = .ok separate ∧
      Option.Rel Same
        (Sql.execAll (catalog sampleSchema genesisHash) (fun _ => {}) coalesced.flatten)
        (Sql.execAll (catalog sampleSchema genesisHash) (fun _ => {}) separate.flatten) :=
  coalesced_eq_separate (.new sampleWorld USD samplePolicy true) (serves_empty sampleSchema)
    sampleSession (sampleWorld_distinct sampleSession_draws)
    (by simp [sampleWindows]) sampleMessages_eq true

end Governor

end AgentGov
