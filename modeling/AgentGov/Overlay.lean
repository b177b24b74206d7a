import AgentGov.Foundation.Checked
import AgentGov.State

/-!
# Views over a chain state

The rule engine reads a view of the chain and stages its changes there. The governor's view is
an overlay: changes kept beside a state that is touched only when the overlay is merged
(`src/src/agentgov/core.py`, lines 1102–1284 and 1382–1425).

## Main definitions

* `AgentGov.Frame`: what a view tracks of the transaction being read.
* `AgentGov.View`: the lookups the rules make in a view, and the changes they stage in it.
* `AgentGov.Overlay`: the copy-on-write view, with its `View` instance and `Overlay.merge`.
-/

open Foundation

namespace AgentGov

/-- What a view tracks while it reads: the transaction, the holds released in it, and the net of
its transfers. -/
structure Frame where
  txn : Option UUID := none
  settleable : List UUID := []
  net : Value := 0
deriving DecidableEq

/-- A hold as the rules read it: its scope, and what its amount stands for. -/
abbrev HeldAmount := Text × Option Value

/-- The lookups the rules make in a view of the chain, and the changes they stage in it. -/
class View (σ : Type) where
  core : σ → Core
  frame : σ → Frame
  unit : σ → Unit
  /-- Finds an entry by its id, for a refund that names its spend. -/
  resolve : σ → UUID → Option LedgerEntry
  balance : σ → Text → Value
  openHold : σ → UUID → Option HeldAmount
  iterHolds : σ → List (UUID × HeldAmount)
  node : σ → Text → Option Node
  spentBy : σ → Text → Value
  refundedTo : σ → Text → Value
  holdsOpenIn : σ → Text → ℤ
  refundedOfSpend : σ → UUID → Except Error Value
  /-- Every hold released so far, where the caller wants a double release reported as such. -/
  released : σ → Option (List UUID)
  /-- Whether the migration seal is written. -/
  isSealed : σ → Bool
  setCore : σ → Core → σ
  setFrame : σ → Frame → σ
  setBalance : σ → Text → Value → σ
  /-- A hold placed by its entry. -/
  placeHold : σ → LedgerEntry → σ
  /-- A hold taken out of the open ones. -/
  dropHold : σ → UUID → σ
  noteReleased : σ → UUID → σ
  markAmbiguous : σ → HoldKey → σ
  setCount : σ → Text → ℤ → σ
  setSpendRefunds : σ → UUID → Value → σ
  setSpent : σ → Text → Value → σ
  setRefunded : σ → Text → Value → σ
  createRoot : σ → Node → σ
  /-- A scope created under a parent. -/
  createChild : σ → Text → Node → σ
  /-- The allocation of a scope that exists. -/
  setAllocated : σ → Text → Value → σ
  setTrip : σ → Text → Option Trip → σ
  noteEvent : σ → ControlEvent → σ
  placeSeal : σ → LedgerEntry → σ

/-- What the rules read of a HOLD entry. -/
def LedgerEntry.held (e : LedgerEntry) : HeldAmount := (e.scopeId, e.amount.value?)

/-! ### The overlay -/

/-- `_Overlay`: a copy-on-write view of a chain state. -/
structure Overlay extends Core where
  base : ChainState
  /-- Finds a committed entry by its id. -/
  resolve : UUID → Option LedgerEntry
  /-- What the refunds naming a spend among the chain's first entries add up to, for a chain
  whose store keeps history. -/
  refunds : Option (UUID → ℕ → Except Error Value)
  startHead : Text
  migrationSeal : Option LedgerEntry
  balances : Dict Text Value := ∅
  spendRefunds : Dict UUID Value := ∅
  ambiguous : List HoldKey := []
  opened : Dict UUID LedgerEntry := ∅
  closed : List UUID := []
  nodes : Dict Text BudgetNode := ∅
  /-- Scopes delegated to, by parent, in this view. -/
  children : Dict Text (List Text) := ∅
  rowScopes : List Text := []
  roots : List Text := []
  tripped : Dict Text (Option Trip) := ∅
  events : List ControlEvent := []
  spent : Dict Text Value := ∅
  refunded : Dict Text Value := ∅
  counts : Dict Text ℤ := ∅
  frame : Frame := {}
  released : Option (List UUID) := none

namespace Overlay

/-- `_Overlay.__init__`. `released` is what a replay passes to every `apply`. -/
def staging (base : ChainState) (resolve : UUID → Option LedgerEntry)
    (refunds : Option (UUID → ℕ → Except Error Value)) (released : Option (List UUID)) :
    Overlay where
  toCore := base.toCore
  base := base
  resolve := resolve
  refunds := refunds
  startHead := base.head
  migrationSeal := base.migrationSeal
  released := released

variable (o : Overlay)

/-- `balance`: staged first, then the base. -/
def balance (scope : Text) : Value := (o.balances.get? scope).getD (o.base.balance scope)

/-- `open_hold`. -/
def openHold (hold : UUID) : Option LedgerEntry :=
  if hold ∈ o.closed then none else (o.opened.get? hold).or (o.base.holds.get? hold)

/-- `iter_holds`: the base's open holds, then those placed here. -/
def iterHolds : List (UUID × LedgerEntry) :=
  (o.base.holds.items.filter fun p => p.1 ∉ o.closed) ++ o.opened.items

/-- `node`. -/
def node (scope : Text) : Option BudgetNode := (o.nodes.get? scope).or (o.base.nodes.get? scope)

/-- `trip_of`. -/
def tripOf (scope : Text) : Option Trip :=
  match o.tripped.get? scope with
  | some trip => trip
  | none => o.base.tripped.get? scope

/-- `spent_by`. -/
def spentBy (scope : Text) : Value := (o.spent.get? scope).getD (o.base.spentBy scope)

/-- `refunded_to`. -/
def refundedTo (scope : Text) : Value := (o.refunded.get? scope).getD (o.base.refundedTo scope)

/-- `holds_open_in`. -/
def holdsOpenIn (scope : Text) : ℤ := (o.counts.get? scope).getD (o.base.holdsOpenIn scope)

/-- `refunded_of_spend`: staged, then from the state or from the store. -/
def refundedOfSpend (spend : UUID) : Except Error Value :=
  match o.spendRefunds.get? spend with
  | some v => .ok v
  | none =>
    match o.refunds with
    | none => .ok (o.base.refundedOfSpend spend)
    | some refunds => if o.base.length = 0 then .ok 0 else refunds spend o.base.length

/-- `_row_scopes.add(scope)`. -/
def noteRow (scope : Text) : Overlay :=
  { o with rowScopes := if scope ∈ o.rowScopes then o.rowScopes else o.rowScopes ++ [scope] }

/-- `_nodes[scope] = BudgetNode(...)`, and the scope among the roots. -/
def createRoot (n : Node) : Overlay :=
  noteRow { o with nodes := o.nodes.set n.scopeId { toNode := n }, roots := o.roots ++ [n.scopeId] }
    n.scopeId

/-- `_nodes[scope] = BudgetNode(...)`, and the scope among those delegated to by its parent. -/
def createChild (parent : Text) (n : Node) : Overlay :=
  let added := (o.children.get? parent).getD [] ++ [n.scopeId]
  noteRow { o with
    nodes := o.nodes.set n.scopeId { toNode := n }
    children := o.children.set parent added } n.scopeId

/-- `_writable(scope).allocated = allocated`: this view's own copy of a node, changed without
touching the base. The copy shares the base's list of children, which no view changes. -/
def setAllocated (scope : Text) (allocated : Value) : Overlay :=
  match o.node scope with
  | none => o
  | some n => noteRow { o with nodes := o.nodes.set scope { n with allocated := allocated } } scope

instance : View Overlay where
  core o := o.toCore
  frame o := o.frame
  unit o := o.base.unit
  resolve o := o.resolve
  balance := balance
  openHold o hold := (o.openHold hold).map LedgerEntry.held
  iterHolds o := o.iterHolds.map fun p => (p.1, p.2.held)
  node o scope := (o.node scope).map BudgetNode.toNode
  spentBy := spentBy
  refundedTo := refundedTo
  holdsOpenIn := holdsOpenIn
  refundedOfSpend := refundedOfSpend
  released o := o.released
  isSealed o := o.migrationSeal.isSome
  setCore o c := { o with toCore := c }
  setFrame o f := { o with frame := f }
  setBalance o scope v := { o with balances := o.balances.set scope v }
  placeHold o e := { o with opened := o.opened.set e.entryId e }
  dropHold o hold :=
    -- a hold placed in this view is forgotten, any other one is closed
    if (o.opened.get? hold).isSome then { o with opened := o.opened.erase hold }
    else { o with closed := if hold ∈ o.closed then o.closed else o.closed ++ [hold] }
  noteReleased o hold := { o with released := o.released.map fun l => hold :: l }
  markAmbiguous o key := { o with ambiguous := addKey key o.ambiguous }
  setCount o scope n := { o with counts := o.counts.set scope n }
  setSpendRefunds o spend v := { o with spendRefunds := o.spendRefunds.set spend v }
  setSpent o scope v := { o with spent := o.spent.set scope v }
  setRefunded o scope v := { o with refunded := o.refunded.set scope v }
  createRoot := createRoot
  createChild := createChild
  setAllocated := setAllocated
  setTrip o scope trip := { o with tripped := o.tripped.set scope trip }
  noteEvent o event := { o with events := o.events ++ [event] }
  placeSeal o e := { o with migrationSeal := some e }

/-! ### Merging -/

/-- The nodes of the base after a merge: a new scope is added, a known one keeps its place and
its children and takes the staged allocation. -/
def mergeNode (nodes : Dict Text BudgetNode) (p : Text × BudgetNode) : Dict Text BudgetNode :=
  match nodes.get? p.1 with
  | none => nodes.set p.1 p.2
  | some current => nodes.set p.1 { current with allocated := p.2.allocated }

/-- `base.nodes[scope_id].child_ids.extend(added)`. -/
def mergeChildren (nodes : Dict Text BudgetNode) (p : Text × List Text) : Dict Text BudgetNode :=
  match nodes.get? p.1 with
  | none => nodes
  | some current => nodes.set p.1 { current with childIds := current.childIds ++ p.2 }

/-- A trip set, or a reset scope's trip removed. -/
def mergeTrip (tripped : Dict Text Trip) (p : Text × Option Trip) : Dict Text Trip :=
  match p.2 with
  | none => tripped.erase p.1
  | some trip => tripped.set p.1 trip

/-- A scope's count of open holds, which is kept only while it is not zero. -/
def mergeCount (counts : Dict Text ℤ) (p : Text × ℤ) : Dict Text ℤ :=
  if p.2 = 0 then counts.erase p.1 else counts.set p.1 p.2

/-- `merge`: fold every verified change into the state below. -/
def merge : ChainState where
  toCore := o.toCore
  migrationSeal := o.migrationSeal
  balances := o.base.balances.update o.balances
  holds := (o.base.holds.eraseAll o.closed).update o.opened
  ambiguous := o.ambiguous.foldl (fun keys key => addKey key keys) o.base.ambiguous
  nodes := o.children.items.foldl mergeChildren (o.nodes.items.foldl mergeNode o.base.nodes)
  roots := o.base.roots ++ o.roots
  tripped := o.tripped.items.foldl mergeTrip o.base.tripped
  spent := o.base.spent.update o.spent
  refunded := o.base.refunded.update o.refunded
  holdCounts := o.counts.items.foldl mergeCount o.base.holdCounts
  spendRefunds :=
    match o.refunds with
    | none => o.base.spendRefunds.update o.spendRefunds
    | some _ => o.base.spendRefunds
  unit := o.base.unit

end Overlay

end AgentGov
