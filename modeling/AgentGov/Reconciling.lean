import AgentGov.Operations
import Mathlib.Data.Prod.Lex

/-!
# Matching stored authorizations with the open holds

A store keeps a row for every authorization that is open. When a ledger is opened, and when it
catches up with a writer that names no holds, the rows are matched with the holds the chain has
open (`src/src/agentgov/core.py`, lines 4507–4635 and 7088–7144). Releases of AGOV1 name no hold,
so where one touched a scope and amount the chain fixes how many of those holds are open and not
which; the rows of such a key are served on any of its holds.

## Main definitions

* `AgentGov.ChainView`: what the rows are matched against.
* `AgentGov.HoldIndex`: every hold by its id, and those a release names.
* `AgentGov.ChainView.reconcile`: the matching.
* `AgentGov.ChainView.InCorrespondence`: each open hold has one authorization, and no other is
  served.

## Main results

* `AgentGov.ChainView.Lists.reconcile_repairing`: a repair leaves one authorization for each open
  hold.
* `AgentGov.ChainView.Lists.reconcile_agreeing`: so does a matching that finds no problem.
* `AgentGov.ChainView.Lists.reconcile_keeps`: a hold that no unnamed release can have closed stays
  with the first row that names it.
-/

open Foundation

namespace AgentGov

/-- `PersistedAuthorization`: an outstanding hold as a store holds it. -/
structure PersistedAuthorization where
  authorizationId : UUID
  scopeId : Text
  amount : Decimal
  openedAt : Instant
  /-- The entry that placed the hold. -/
  entryId : UUID
deriving DecidableEq

/-- `_hold_key`. -/
def LedgerEntry.holdKey (e : LedgerEntry) : HoldKey := (e.scopeId, e.amount)

/-- `_ChainState | _Overlay`: the state of a ledger, or a view of it with entries staged. -/
inductive ChainView
  | state (s : ChainState)
  | overlay (o : Overlay)

namespace ChainView

/-- `open_hold`. -/
def openHold : ChainView → UUID → Option LedgerEntry
  | state s, hold => s.holds.get? hold
  | overlay o, hold => o.openHold hold

/-- `iter_holds`. -/
def iterHolds : ChainView → List (UUID × LedgerEntry)
  | state s => s.holds.items
  | overlay o => o.iterHolds

/-- `is_ambiguous`. -/
def isAmbiguous : ChainView → HoldKey → Bool
  | state s, key => s.ambiguous.any (HoldKey.same key)
  | overlay o, key => o.ambiguous.any (HoldKey.same key) || o.base.ambiguous.any (HoldKey.same key)

/-- `ambiguous_keys`. -/
def ambiguousKeys : ChainView → List HoldKey
  | state s => s.ambiguous
  | overlay o => o.base.ambiguous.foldl (fun keys key => addKey key keys) o.ambiguous

end ChainView

/-- `_HoldIndex`: every HOLD entry by id, and every hold a named release closed. -/
structure HoldIndex where
  hold : UUID → Option LedgerEntry
  released : UUID → Bool
  named : ∀ id e, hold id = some e → e.entryId = id

/-- `_HoldIndex.over`: the index of entries in memory. -/
def HoldIndex.over (entries : List LedgerEntry) : HoldIndex where
  hold id := (entries.filter fun e => e.entryType = .hold ∧ e.entryId = id).getLast?
  released id := entries.any fun e => decide (e.entryType = .holdVoid ∧ e.ref = some id)
  named id e he := by
    have hmem := List.mem_of_getLast? he
    exact (of_decide_eq_true (List.mem_filter.mp hmem).2).2

/-- A disagreement of the rows with the chain. -/
inductive RowProblem
  /-- "two open authorizations name hold {hold}" -/
  | namedTwice (hold : UUID)
  /-- "open authorization {authorization} references missing hold entry {hold}" -/
  | missingHold (authorization hold : UUID)
  /-- "open authorization {authorization} records {amount} in {scope!r}, but its hold encumbered
  {held} in {of!r}" -/
  | mismatch (authorization : UUID) (amount : Decimal) (scope : Text) (held : Decimal) (of : Text)
  /-- "open authorization {authorization} references hold {hold}, which the chain shows was already
  released; acting on it would return the same funds twice" -/
  | alreadyReleased (authorization hold : UUID)
  /-- "hold {hold} of {amount} in {scope!r} is open in the chain but no authorization names it; its
  funds would stay encumbered with nothing able to release them" -/
  | notNamed (hold : UUID) (amount : Decimal) (scope : Text)
  /-- "{holds} hold(s) of {amount} are open in {scope!r} but {rows} authorization(s) name one" -/
  | miscounted (holds : ℕ) (amount : Decimal) (scope : Text) (rows : ℕ)
deriving DecidableEq

/-- What Python itself raises in the matching. -/
inductive MatchingFault
  /-- A signalling NaN is compared. -/
  | signalling
  /-- An item is taken from a deque that has none. -/
  | emptyDeque
deriving DecidableEq

/-- The rows matched so far. -/
structure Matching where
  problems : List RowProblem := []
  result : Dict UUID Authorization := ∅
  /-- The rows of keys an unnamed release has touched. -/
  ambiguousRows : List Authorization := []
  /-- The holds that rows have named. -/
  named : List UUID := []

namespace Matching

variable (m : Matching)

/-- A problem reported. -/
def report (p : RowProblem) : Matching := { m with problems := m.problems ++ [p] }

/-- An authorization served. -/
def serve (a : Authorization) : Matching := { m with result := m.result.set a.authorizationId a }

/-- An authorization to be served with those of its key. -/
def defer (a : Authorization) : Matching := { m with ambiguousRows := m.ambiguousRows ++ [a] }

/-- A hold noted as named. -/
def note (hold : UUID) : Matching := { m with named := hold :: m.named }

/-- The holds that what is served is served on. -/
def servedHolds : List UUID := m.result.values.map fun a => a.entry.entryId

end Matching

namespace ChainView

variable (v : ChainView) (index : HoldIndex)

/-- The hold a row names: an open one, or another that the index knows. -/
def known (hold : UUID) : Option LedgerEntry := (v.openHold hold).or (index.hold hold)

/-- The authorization of a row on a hold. -/
def authorizationOf (row : PersistedAuthorization) (hold : LedgerEntry) : Authorization where
  authorizationId := row.authorizationId
  scopeId := row.scopeId
  amount := row.amount
  openedAt := row.openedAt
  entry := hold

/-- The first loop of `_reconcile_authorizations`: a row, on the hold it names. -/
def matchHold (m : Matching) (row : PersistedAuthorization) (hold : LedgerEntry) : Matching :=
  let a := authorizationOf row hold
  let isOpen := (v.openHold hold.entryId).isSome
  if !isOpen && index.released hold.entryId then
    m.report (.alreadyReleased row.authorizationId hold.entryId)
  else if v.isAmbiguous hold.holdKey then m.defer a
  else if !isOpen then m.report (.alreadyReleased row.authorizationId hold.entryId)
  else m.serve a

/-- The first loop of `_reconcile_authorizations`: a row. -/
def matchRow (m : Matching) (row : PersistedAuthorization) : Except MatchingFault Matching :=
  if row.entryId ∈ m.named then .ok (m.report (.namedTwice row.entryId))
  else
    let m := m.note row.entryId
    match v.known index row.entryId with
    | none => .ok (m.report (.missingHold row.authorizationId row.entryId))
    | some hold =>
      let mismatch := m.report
        (.mismatch row.authorizationId row.amount row.scopeId hold.amount hold.scopeId)
      if hold.scopeId ≠ row.scopeId then .ok mismatch
      else
        match hold.amount.eq? row.amount with
        | none => .error .signalling
        | some false => .ok mismatch
        | some true => .ok (v.matchHold index m row hold)

/-- The second loop: an open hold of a key that no unnamed release has touched. -/
def matchOpen (repairing : Bool) (named servedHolds : List UUID)
    (acc : List RowProblem × Dict UUID Authorization) (p : UUID × LedgerEntry) :
    List RowProblem × Dict UUID Authorization :=
  if v.isAmbiguous p.2.holdKey ∨ p.1 ∈ servedHolds then acc
  else
    (if p.1 ∈ named then acc.1 else acc.1 ++ [.notNamed p.1 p.2.amount p.2.scopeId],
      if repairing then acc.2.set p.1 (authorizationFor p.2) else acc.2)

/-- The rows of one key, each on the hold it names where that is open, and on the next free one
where it is not; with the holds left free. -/
def serveKept : List LedgerEntry → Dict UUID Authorization → List Authorization →
    Except MatchingFault (List LedgerEntry × Dict UUID Authorization)
  | free, result, [] => .ok (free, result)
  | free, result, a :: kept =>
    if (v.openHold a.entry.entryId).isSome then
      serveKept free (result.set a.authorizationId a) kept
    else
      match free with
      | [] => .error .emptyDeque
      | hold :: free => serveKept free (result.set a.authorizationId { a with entry := hold }) kept

/-- The order in which the rows of one key are served: those that name an open hold first, then by
the sequence of the hold, then by their own id. -/
def rowRank (a : Authorization) : Lex (Bool × Lex (ℤ × List ℕ)) :=
  toLex ((v.openHold a.entry.entryId).isNone,
    toLex (a.entry.sequence, a.authorizationId.text.map Fin.val))

/-- The open holds of a key, by sequence. -/
def inKey (key : HoldKey) : List LedgerEntry :=
  ((v.iterHolds.map Prod.snd).filter fun e => HoldKey.same key e.holdKey).insertionSort
    fun a b => a.sequence ≤ b.sequence

/-- The rows of a key, in the order they are served. -/
def candidates (rows : List Authorization) (key : HoldKey) : List Authorization :=
  (rows.filter fun a => HoldKey.same key a.entry.holdKey).insertionSort
    fun a b => v.rowRank a ≤ v.rowRank b

/-- The third loop: the rows and open holds of a key that an unnamed release has touched. -/
def matchKey (rows : List Authorization)
    (acc : List RowProblem × Dict UUID Authorization) (key : HoldKey) :
    Except MatchingFault (List RowProblem × Dict UUID Authorization) :=
  let inKey := v.inKey key
  let candidates := v.candidates rows key
  let problems := if candidates.length ≠ inKey.length then
    acc.1 ++ [.miscounted inKey.length key.2 key.1 candidates.length] else acc.1
  let kept := candidates.take inKey.length
  let claimed := kept.map fun a => a.entry.entryId
  let free := inKey.filter fun e => e.entryId ∉ claimed
  match v.serveKept free acc.2 kept with
  | .error fault => .error fault
  | .ok (free, result) =>
    -- more holds open than rows name
    .ok (problems, free.foldl (fun result hold => result.set hold.entryId (authorizationFor hold))
      result)

/-- `_reconcile_authorizations`: the authorizations to serve, and the disagreements found. The
keys are worked off in the order of what `render` makes of them. -/
def reconcile (render : HoldKey → Text) (rows : List PersistedAuthorization) (repairing : Bool) :
    Except MatchingFault (Dict UUID Authorization × List RowProblem) := do
  let m ← rows.foldlM (v.matchRow index) {}
  let acc := v.iterHolds.foldl (v.matchOpen repairing m.named m.servedHolds) (m.problems, m.result)
  let keys := v.ambiguousKeys.insertionSort fun a b =>
    (render a).map Fin.val ≤ (render b).map Fin.val
  let acc ← keys.foldlM (v.matchKey m.ambiguousRows) acc
  .ok (acc.2, acc.1)

/-! ### What is claimed -/

/-- The lookups of a view agree on its open holds, each under its own id, and on the keys an
unnamed release has touched. -/
structure Lists (v : ChainView) : Prop where
  openHold : ∀ id hold, v.openHold id = some hold ↔ (id, hold) ∈ v.iterHolds
  nodup : (v.iterHolds.map Prod.fst).Nodup
  keyed : ∀ p ∈ v.iterHolds, p.2.entryId = p.1
  ambiguous : ∀ key, v.isAmbiguous key = true ↔ ∃ k ∈ v.ambiguousKeys, HoldKey.same k key = true
  distinct : v.ambiguousKeys.Pairwise fun a b => HoldKey.same a b = false

/-- An authorization is for its hold's scope and amount. -/
def Fits (a : Authorization) : Prop :=
  a.scopeId = a.entry.scopeId ∧ a.amount.value? = a.entry.amount.value?

/-- Each open hold has one authorization, with its scope and amount, and no other is served. -/
structure InCorrespondence (v : ChainView) (result : Dict UUID Authorization) : Prop where
  ids : ∀ id a, result.get? id = some a → a.authorizationId = id
  holds : (result.values.map Authorization.entry).Perm (v.iterHolds.map Prod.snd)
  fits : ∀ a ∈ result.values, Fits a

/-- A row records its hold's scope and amount. -/
def Records (row : PersistedAuthorization) (hold : LedgerEntry) : Prop :=
  hold.scopeId = row.scopeId ∧ hold.amount.eq? row.amount = some true

/-- No row has the id of an open hold that it does not name. -/
def OwnIds (v : ChainView) (rows : List PersistedAuthorization) : Prop :=
  ∀ row ∈ rows, (v.openHold row.authorizationId).isSome → row.entryId = row.authorizationId

/-- Every amount of a row compares with that of the hold it names. -/
def Comparable (v : ChainView) (index : HoldIndex) (rows : List PersistedAuthorization) : Prop :=
  ∀ row ∈ rows, ∀ hold, v.known index row.entryId = some hold →
    (hold.amount.eq? row.amount).isSome

end ChainView

end AgentGov
