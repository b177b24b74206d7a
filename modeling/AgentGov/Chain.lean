import AgentGov.Simulation

/-!
# The chain itself, as a view

The abstract view has no base and stages nothing: every change is made at once. Scopes halted
and holds counted are functions, so it does not matter in what order a dictionary met its keys.
An overlay shows the chain it would leave behind if it were merged, and the rules treat the two
alike.

## Main definitions

* `AgentGov.Chain`: the chain as one flat view.
* `AgentGov.Overlay.Shows`: an overlay shows a chain.

## Main results

* `AgentGov.Overlay.shows_simulation`: the rules respect what an overlay shows.
* `AgentGov.Overlay.shows_staging`: a new overlay shows what the state below it shows.
-/

open Foundation

namespace AgentGov

/-- The chain as one flat view. -/
structure Chain where
  core : Core
  frame : Frame
  unit : Unit
  resolve : UUID → Option LedgerEntry
  migrationSeal : Option LedgerEntry
  balances : Dict Text Value
  holds : Dict UUID LedgerEntry
  ambiguous : List HoldKey
  nodes : Dict Text BudgetNode
  roots : List Text
  tripped : Text → Option Trip
  spent : Dict Text Value
  refunded : Dict Text Value
  holdCounts : Text → ℤ
  spendRefunds : Dict UUID Value

namespace Chain

variable (c : Chain)

/-- A scope's balance. -/
def balance (scope : Text) : Value := (c.balances.get? scope).getD 0

/-- A scope's lifetime spend. -/
def spentBy (scope : Text) : Value := (c.spent.get? scope).getD 0

/-- A scope's lifetime refunds. -/
def refundedTo (scope : Text) : Value := (c.refunded.get? scope).getD 0

/-- What refunds naming a spend add up to. -/
def refundedOfSpend (spend : UUID) : Value := (c.spendRefunds.get? spend).getD 0

/-- The scopes after one more is created under a parent. -/
def nodesWithChild (parent : Text) (n : Node) : Dict Text BudgetNode :=
  let nodes := c.nodes.set n.scopeId { toNode := n }
  match nodes.get? parent with
  | none => nodes
  | some p => nodes.set parent { p with childIds := p.childIds ++ [n.scopeId] }

instance : View Chain where
  core c := c.core
  frame c := c.frame
  unit c := c.unit
  resolve c := c.resolve
  balance := balance
  openHold c hold := (c.holds.get? hold).map LedgerEntry.held
  iterHolds c := c.holds.items.map fun p => (p.1, p.2.held)
  node c scope := (c.nodes.get? scope).map BudgetNode.toNode
  spentBy := spentBy
  refundedTo := refundedTo
  holdsOpenIn c := c.holdCounts
  refundedOfSpend c spend := .ok (c.refundedOfSpend spend)
  released _ := none
  isSealed c := c.migrationSeal.isSome
  setCore c core := { c with core := core }
  setFrame c frame := { c with frame := frame }
  setBalance c scope v := { c with balances := c.balances.set scope v }
  placeHold c e := { c with holds := c.holds.set e.entryId e }
  dropHold c hold := { c with holds := c.holds.erase hold }
  noteReleased c _ := c
  markAmbiguous c key := { c with ambiguous := addKey key c.ambiguous }
  setCount c scope n := { c with holdCounts := Function.update c.holdCounts scope n }
  setSpendRefunds c spend v := { c with spendRefunds := c.spendRefunds.set spend v }
  setSpent c scope v := { c with spent := c.spent.set scope v }
  setRefunded c scope v := { c with refunded := c.refunded.set scope v }
  createRoot c n := { c with
    nodes := c.nodes.set n.scopeId { toNode := n }
    roots := c.roots ++ [n.scopeId] }
  createChild c parent n := { c with nodes := c.nodesWithChild parent n }
  setAllocated c scope v := { c with
    nodes := match c.nodes.get? scope with
      | none => c.nodes
      | some n => c.nodes.set scope { n with allocated := v } }
  setTrip c scope trip := { c with tripped := Function.update c.tripped scope trip }
  noteEvent c _ := c
  placeSeal c e := { c with migrationSeal := some e }

theorem nodes_setAllocated (c : Chain) (scope : Text) (v : Value) :
    (View.setAllocated c scope v).nodes =
      ((c.nodes.get? scope).map fun n => c.nodes.set scope { n with allocated := v }).getD
        c.nodes := by
  simp only [View.setAllocated]
  cases c.nodes.get? scope <;> rfl

end Chain

/-- The chain a state is of, with a way to find its entries. -/
def ChainState.chain (s : ChainState) (resolve : UUID → Option LedgerEntry) : Chain where
  core := s.toCore
  frame := {}
  unit := s.unit
  resolve := resolve
  migrationSeal := s.migrationSeal
  balances := s.balances
  holds := s.holds
  ambiguous := s.ambiguous
  nodes := s.nodes
  roots := s.roots
  tripped := s.tripped.get?
  spent := s.spent
  refunded := s.refunded
  holdCounts := s.holdsOpenIn
  spendRefunds := s.spendRefunds

/-- Whether a state keeps no count of zero open holds. -/
def ChainState.Tidy (s : ChainState) : Prop := ∀ scope, s.holdCounts.get? scope ≠ some 0

/-! ### Sets of hold keys -/

theorem HoldKey.same_iff {a b : HoldKey} :
    HoldKey.same a b = true ↔ a.1 = b.1 ∧ a.2.value? = b.2.value? := by
  simp [HoldKey.same]

theorem HoldKey.same_comm (a b : HoldKey) : HoldKey.same a b = HoldKey.same b a := by
  simp only [HoldKey.same, eq_comm]

theorem any_addKey (k key : HoldKey) (keys : List HoldKey) :
    (addKey key keys).any (HoldKey.same k) = (HoldKey.same k key || keys.any (HoldKey.same k)) := by
  unfold addKey
  split
  · rename_i h
    by_cases hk : HoldKey.same k key = true
    · obtain ⟨x, hx, hs⟩ := List.any_eq_true.mp h
      have hkx : HoldKey.same k x = true := by
        rw [HoldKey.same_iff] at hk hs ⊢
        exact ⟨hk.1.trans hs.1, hk.2.trans hs.2⟩
      rw [hk, List.any_eq_true.mpr ⟨x, hx, hkx⟩]
      rfl
    · simp [hk]
  · simp [List.any_append, Bool.or_comm]

theorem any_foldl_addKey (k : HoldKey) (keys base : List HoldKey) :
    (keys.foldl (fun ks key => addKey key ks) base).any (HoldKey.same k) =
      (keys.any (HoldKey.same k) || base.any (HoldKey.same k)) := by
  induction keys generalizing base with
  | nil => simp
  | cons x xs ih =>
    rw [List.foldl_cons, ih, any_addKey, List.any_cons]
    cases HoldKey.same k x <;> cases xs.any (HoldKey.same k) <;> simp

/-- Adding a key to a staged set of keys is adding it to the set it is merged into. -/
theorem foldl_addKey (key : HoldKey) (keys base : List HoldKey) :
    (addKey key keys).foldl (fun ks key => addKey key ks) base =
      addKey key (keys.foldl (fun ks key => addKey key ks) base) := by
  by_cases h : keys.any (HoldKey.same key) = true
  · have hbase : (keys.foldl (fun ks key => addKey key ks) base).any (HoldKey.same key) = true := by
      rw [any_foldl_addKey, h]
      rfl
    have hkeys : addKey key keys = keys := if_pos h
    rw [hkeys, addKey, if_pos hbase]
  · have hkeys : addKey key keys = keys ++ [key] := if_neg h
    rw [hkeys, List.foldl_append]
    rfl

/-! ### What an overlay shows -/

namespace Overlay

/-- The scope with more children. -/
def extend (l : List Text) (n : BudgetNode) : BudgetNode :=
  { n with childIds := n.childIds ++ l }

/-- A scope after a merge, from its staged and its base copy and the children added. -/
def mergedNode (staged base : Option BudgetNode) (added : List Text) : Option BudgetNode :=
  match staged, base with
  | none, none => none
  | some n, none => some (extend added n)
  | none, some b => some (extend added b)
  | some n, some b => some (extend added { b with allocated := n.allocated })

theorem mergedNode_append (staged base : Option BudgetNode) (l m : List Text) :
    mergedNode staged base (l ++ m) = (mergedNode staged base l).map (extend m) := by
  cases staged <;> cases base <;> simp [mergedNode, extend]

/-- The lookups of the scopes after a merge. -/
theorem get?_merge_nodes (o : Overlay) (scope : Text) :
    o.merge.nodes.get? scope = mergedNode (o.nodes.get? scope) (o.base.nodes.get? scope)
      ((o.children.get? scope).getD []) := by
  have hn : ∀ (d : Dict Text BudgetNode) (p : Text × BudgetNode) (k : Text),
      (mergeNode d p).get? k = if k = p.1 then
        (match d.get? k with
          | none => some p.2
          | some current => some { current with allocated := p.2.allocated })
        else d.get? k := by
    intro d p k
    unfold mergeNode
    cases h : d.get? p.1 <;> by_cases hk : k = p.1 <;> simp [hk, h]
  have hc : ∀ (d : Dict Text BudgetNode) (p : Text × List Text) (k : Text),
      (mergeChildren d p).get? k = if k = p.1 then
        (d.get? k).map fun current => { current with childIds := current.childIds ++ p.2 }
        else d.get? k := by
    intro d p k
    unfold mergeChildren
    cases h : d.get? p.1 <;> by_cases hk : k = p.1 <;> simp [hk, h]
  have hn' := Dict.get?_foldl (h := fun (n : BudgetNode) (cur : Option BudgetNode) =>
      match cur with
      | none => some n
      | some current => some { current with allocated := n.allocated })
    hn o.base.nodes o.nodes.items o.nodes.nodup scope
  have hc' := Dict.get?_foldl (h := fun (l : List Text) (cur : Option BudgetNode) =>
      cur.map fun current => { current with childIds := current.childIds ++ l })
    hc (o.nodes.items.foldl mergeNode o.base.nodes) o.children.items o.children.nodup scope
  change (o.children.items.foldl mergeChildren
    (o.nodes.items.foldl mergeNode o.base.nodes)).get? scope = _
  rw [hc', hn']
  simp only [Dict.get?]
  cases Dict.assoc o.children.items scope <;> cases Dict.assoc o.nodes.items scope <;>
    cases Dict.assoc o.base.nodes.items scope <;> simp [mergedNode, extend]

/-- The scopes after a merge: those of the base, then those created in the view. -/
theorem keys_merge_nodes (o : Overlay) :
    o.merge.nodes.keys = o.base.nodes.keys ++ o.base.nodes.newKeys o.nodes.keys := by
  have hc : ∀ (l : List (Text × List Text)) (d : Dict Text BudgetNode),
      (l.foldl mergeChildren d).keys = d.keys := by
    intro l
    induction l with
    | nil => intro d; rfl
    | cons p l ih =>
      intro d
      rw [List.foldl_cons, ih]
      unfold mergeChildren
      split
      · rfl
      · rename_i current h
        rw [Dict.keys_set, if_pos (Dict.mem_keys_iff.mpr ⟨current, h⟩)]
  simp only [merge, hc]
  refine Dict.keys_foldl (fun d p => ?_) _ _ o.nodes.nodup
  unfold mergeNode
  split <;> exact Dict.keys_set _ _ _

/-- A trip after a merge is the one the view sees. -/
theorem get?_merge_tripped (o : Overlay) (scope : Text) :
    o.merge.tripped.get? scope = o.tripOf scope := by
  have h : ∀ (d : Dict Text Trip) (p : Text × Option Trip) (k : Text),
      (mergeTrip d p).get? k = if k = p.1 then p.2 else d.get? k := by
    intro d p k
    unfold mergeTrip
    cases hp : p.2 <;> simp
  have h' := Dict.get?_foldl (h := fun (t : Option Trip) (_ : Option Trip) => t) h
    o.base.tripped o.tripped.items o.tripped.nodup scope
  change (o.tripped.items.foldl mergeTrip o.base.tripped).get? scope = _
  rw [h', tripOf]
  simp only [Dict.get?]
  cases Dict.assoc o.tripped.items scope <;> rfl

/-- The counts of open holds after a merge, which are kept only while they are not zero. -/
theorem get?_merge_holdCounts (o : Overlay) (scope : Text) :
    o.merge.holdCounts.get? scope = match o.counts.get? scope with
      | none => o.base.holdCounts.get? scope
      | some n => if n = 0 then none else some n := by
  have h : ∀ (d : Dict Text ℤ) (p : Text × ℤ) (k : Text),
      (mergeCount d p).get? k = if k = p.1 then (if p.2 = 0 then none else some p.2)
        else d.get? k := by
    intro d p k
    unfold mergeCount
    by_cases hp : p.2 = 0 <;> simp [hp]
  have h' := Dict.get?_foldl (h := fun (n : ℤ) (_ : Option ℤ) => if n = 0 then none else some n) h
    o.base.holdCounts o.counts.items o.counts.nodup scope
  change (o.counts.items.foldl mergeCount o.base.holdCounts).get? scope = _
  rw [h']
  simp only [Dict.get?]
  cases Dict.assoc o.counts.items scope <;> rfl

/-- A count after a merge is the one the view sees. -/
theorem holdsOpenIn_merge (o : Overlay) (scope : Text) :
    o.merge.holdsOpenIn scope = o.holdsOpenIn scope := by
  rw [ChainState.holdsOpenIn, get?_merge_holdCounts, holdsOpenIn]
  cases o.counts.get? scope with
  | none => rfl
  | some n => by_cases hn : n = 0 <;> simp [hn]

/-- A merge into a state that keeps no count of zero keeps none. -/
theorem tidy_merge {o : Overlay} (h : o.base.Tidy) : o.merge.Tidy := by
  intro scope
  rw [get?_merge_holdCounts]
  cases o.counts.get? scope with
  | none => exact h scope
  | some n =>
    by_cases hn : n = 0
    · simp [hn]
    · simp [hn]

/-- An overlay shows a chain: what it would leave behind if it were merged. Entries kept whole
may differ in how `f` writes them. -/
structure Shows (f : LedgerEntry → LedgerEntry) (o : Overlay) (c : Chain) : Prop where
  core : o.toCore = c.core
  frame : o.frame = c.frame
  unit : o.base.unit = c.unit
  migrationSeal : o.migrationSeal.map f = c.migrationSeal.map f
  balances : o.merge.balances = c.balances
  holds : o.merge.holds.mapValues f = c.holds.mapValues f
  ambiguous : o.merge.ambiguous = c.ambiguous
  nodes : o.merge.nodes = c.nodes
  roots : o.merge.roots = c.roots
  tripped : ∀ scope, o.tripOf scope = c.tripped scope
  spent : o.merge.spent = c.spent
  refunded : o.merge.refunded = c.refunded
  holdCounts : ∀ scope, o.holdsOpenIn scope = c.holdCounts scope
  refundedOfSpend : ∀ spend, o.refundedOfSpend spend = .ok (c.refundedOfSpend spend)
  spendRefunds : o.refunds = none → o.merge.spendRefunds = c.spendRefunds
  opened : ∀ hold ∈ o.opened.keys, hold ∉ o.base.holds.keys
  closed : ∀ hold ∈ o.closed, hold ∈ o.base.holds.keys
  keyed : ∀ scope n, c.nodes.get? scope = some n → n.scopeId = scope
  children : ∀ scope ∈ o.children.keys, scope ∈ c.nodes.keys
  staged : ∀ scope n b, o.nodes.get? scope = some n → o.base.nodes.get? scope = some b →
    n.toNode = { b.toNode with allocated := n.allocated }

namespace Shows

variable {f : LedgerEntry → LedgerEntry} {o : Overlay} {c : Chain}

theorem get?_merge_holds (h : Shows f o c) (hold : UUID) :
    o.merge.holds.get? hold = o.openHold hold := by
  simp only [merge, Dict.get?_update, Dict.get?_eraseAll, openHold]
  by_cases hc : hold ∈ o.closed
  · have ho : o.opened.get? hold = none := by
      rw [Dict.get?_eq_none_iff]
      exact fun hm => h.opened hold hm (h.closed hold hc)
    simp [hc, ho]
  · simp [hc]

theorem items_merge_holds (h : Shows f o c) : o.merge.holds.items = o.iterHolds := by
  simp only [merge, iterHolds, Dict.update]
  rw [Dict.items_setAll_of_disjoint _ _ o.opened.nodup, Dict.items_eraseAll]
  intro p hp hk
  rw [Dict.keys_eraseAll, List.mem_filter] at hk
  exact h.opened p.1 (List.mem_map_of_mem hp) hk.1

theorem openHold (h : Shows f o c) (hf : ∀ e, (f e).held = e.held) (hold : UUID) :
    (o.openHold hold).map LedgerEntry.held = (c.holds.get? hold).map LedgerEntry.held := by
  have hh := congrArg (fun d => (Dict.get? d hold).map LedgerEntry.held) h.holds
  simpa [Function.comp_def, hf, h.get?_merge_holds] using hh

theorem iterHolds (h : Shows f o c) (hf : ∀ e, (f e).held = e.held) :
    (o.iterHolds.map fun p => (p.1, p.2.held)) = c.holds.items.map fun p => (p.1, p.2.held) := by
  have hh := congrArg (fun d => (Dict.items d).map fun p => (p.1, p.2.held)) h.holds
  simpa [Function.comp_def, hf, h.items_merge_holds] using hh

theorem node (h : Shows f o c) (scope : Text) :
    (o.node scope).map BudgetNode.toNode = (c.nodes.get? scope).map BudgetNode.toNode := by
  rw [← h.nodes, get?_merge_nodes, Overlay.node]
  cases hn : o.nodes.get? scope with
  | none => cases hb : o.base.nodes.get? scope <;> simp [mergedNode, extend]
  | some n => cases hb : o.base.nodes.get? scope with
    | none => simp [mergedNode, extend]
    | some b => simpa [mergedNode, extend] using h.staged scope n b hn hb

theorem balance (h : Shows f o c) (scope : Text) : o.balance scope = c.balance scope := by
  rw [Chain.balance, ← h.balances, Overlay.balance, ChainState.balance]
  simp only [merge, Dict.get?_update]
  cases o.balances.get? scope <;> rfl

theorem spentBy (h : Shows f o c) (scope : Text) : o.spentBy scope = c.spentBy scope := by
  rw [Chain.spentBy, ← h.spent, Overlay.spentBy, ChainState.spentBy]
  simp only [merge, Dict.get?_update]
  cases o.spent.get? scope <;> rfl

theorem refundedTo (h : Shows f o c) (scope : Text) :
    o.refundedTo scope = c.refundedTo scope := by
  rw [Chain.refundedTo, ← h.refunded, Overlay.refundedTo, ChainState.refundedTo]
  simp only [merge, Dict.get?_update]
  cases o.refunded.get? scope <;> rfl

theorem contains_node (h : Shows f o c) (scope : Text) :
    (o.node scope).isSome = (c.nodes.get? scope).isSome := by
  have hn := congrArg Option.isSome (h.node scope)
  simpa using hn

theorem setBalance (h : Shows f o c) (scope : Text) (v : Value) :
    Shows f (View.setBalance o scope v) (View.setBalance c scope v) :=
  { h with
    balances := by
      change o.base.balances.update (o.balances.set scope v) = c.balances.set scope v
      rw [Dict.update_set, ← h.balances]
      rfl }

theorem placeHold (h : Shows f o c) (e : LedgerEntry)
    (he : o.base.holds.get? e.entryId = none) :
    Shows f (View.placeHold o e) (View.placeHold c e) :=
  { h with
    holds := by
      change ((o.base.holds.eraseAll o.closed).update (o.opened.set e.entryId e)).mapValues f =
        (c.holds.set e.entryId e).mapValues f
      rw [Dict.update_set, Dict.mapValues_set, Dict.mapValues_set, ← h.holds]
      rfl
    opened := by
      intro hold hm
      rcases Dict.mem_keys_set.mp hm with rfl | hm
      · exact Dict.get?_eq_none_iff.mp he
      · exact h.opened hold hm }

theorem dropHold (h : Shows f o c) (hold : UUID) (ho : (o.openHold hold).isSome) :
    Shows f (View.dropHold o hold) (View.dropHold c hold) := by
  have hc : (View.dropHold c hold).holds.mapValues f = (c.holds.mapValues f).erase hold :=
    Dict.mapValues_erase f c.holds hold
  by_cases hm : (o.opened.get? hold).isSome
  · have hkey : hold ∈ o.opened.keys := Dict.mem_keys_iff.mpr (Option.isSome_iff_exists.mp hm)
    have hdrop : View.dropHold o hold = { o with opened := o.opened.erase hold } := if_pos hm
    rw [hdrop]
    refine { h with holds := ?_, opened := ?_ }
    · rw [hc, ← h.holds, ← Dict.mapValues_erase]
      congr 1
      refine Dict.update_erase ?_
      rw [Dict.keys_eraseAll, List.mem_filter]
      exact fun hb => h.opened hold hkey hb.1
    · intro j hj
      rw [Dict.keys_erase] at hj
      exact h.opened j (List.mem_filter.mp hj).1
  · have hnone : o.opened.get? hold = none := by simpa using hm
    have hopen : hold ∉ o.closed := by
      intro hcl
      simp [Overlay.openHold, hcl] at ho
    have hbase : hold ∈ o.base.holds.keys := by
      simp only [Overlay.openHold, hopen, ↓reduceIte, hnone, Option.none_or] at ho
      exact Dict.mem_keys_iff.mpr (Option.isSome_iff_exists.mp ho)
    have hdrop : View.dropHold o hold = { o with closed := o.closed ++ [hold] } := by
      change (if _ then _ else _) = _
      rw [if_neg hm, if_neg hopen]
    rw [hdrop]
    refine { h with holds := ?_, closed := ?_ }
    · rw [hc, ← h.holds, ← Dict.mapValues_erase]
      congr 1
      exact Dict.update_eraseAll_append (Dict.get?_eq_none_iff.mp hnone)
    · intro j hj
      rcases List.mem_append.mp hj with hj | hj
      · exact h.closed j hj
      · rw [List.mem_singleton.mp hj]
        exact hbase

theorem markAmbiguous (h : Shows f o c) (key : HoldKey) :
    Shows f (View.markAmbiguous o key) (View.markAmbiguous c key) :=
  { h with
    ambiguous := by
      change (addKey key o.ambiguous).foldl _ o.base.ambiguous = addKey key c.ambiguous
      rw [foldl_addKey, ← h.ambiguous]
      rfl }

theorem setCount (h : Shows f o c) (scope : Text) (n : ℤ) :
    Shows f (View.setCount o scope n) (View.setCount c scope n) :=
  { h with
    holdCounts := by
      intro s
      change ((o.counts.set scope n).get? s).getD _ = Function.update c.holdCounts scope n s
      rw [Dict.get?_set, Function.update_apply]
      split
      · rfl
      · exact h.holdCounts s }

theorem setSpendRefunds (h : Shows f o c) (spend : UUID) (v : Value) :
    Shows f (View.setSpendRefunds o spend v) (View.setSpendRefunds c spend v) :=
  { h with
    refundedOfSpend := by
      intro s
      have hs := h.refundedOfSpend s
      simp only [Overlay.refundedOfSpend, Chain.refundedOfSpend] at hs ⊢
      simp only [View.setSpendRefunds]
      rw [Dict.get?_set, Dict.get?_set]
      by_cases he : s = spend
      · rw [if_pos he, if_pos he]
        rfl
      · rw [if_neg he, if_neg he]
        exact hs
    spendRefunds := by
      intro hr
      have hm := h.spendRefunds hr
      have hr' : o.refunds = none := hr
      simp only [merge, hr'] at hm
      simp only [View.setSpendRefunds, merge, hr']
      rw [Dict.update_set, hm] }

theorem setSpent (h : Shows f o c) (scope : Text) (v : Value) :
    Shows f (View.setSpent o scope v) (View.setSpent c scope v) :=
  { h with
    spent := by
      change o.base.spent.update (o.spent.set scope v) = c.spent.set scope v
      rw [Dict.update_set, ← h.spent]
      rfl }

theorem setRefunded (h : Shows f o c) (scope : Text) (v : Value) :
    Shows f (View.setRefunded o scope v) (View.setRefunded c scope v) :=
  { h with
    refunded := by
      change o.base.refunded.update (o.refunded.set scope v) = c.refunded.set scope v
      rw [Dict.update_set, ← h.refunded]
      rfl }

theorem setTrip (h : Shows f o c) (scope : Text) (trip : Option Trip) :
    Shows f (View.setTrip o scope trip) (View.setTrip c scope trip) :=
  { h with
    tripped := by
      intro s
      have hs := h.tripped s
      simp only [tripOf] at hs
      simp only [tripOf, View.setTrip]
      rw [Dict.get?_set, Function.update_apply]
      split_ifs
      · rfl
      · exact hs }

theorem node_eq_none (h : Shows f o c) {scope : Text} (hn : View.node o scope = none) :
    o.nodes.get? scope = none ∧ o.base.nodes.get? scope = none ∧ c.nodes.get? scope = none := by
  have ho : o.node scope = none := Option.map_eq_none_iff.mp hn
  have hc : (c.nodes.get? scope).isSome = false := by
    rw [← h.contains_node, ho]
    rfl
  rw [Overlay.node, Option.or_eq_none_iff] at ho
  exact ⟨ho.1, ho.2, by simpa using hc⟩

theorem children_eq_none (h : Shows f o c) {scope : Text} (hc : c.nodes.get? scope = none) :
    o.children.get? scope = none := by
  rw [Dict.get?_eq_none_iff]
  intro hm
  exact Dict.get?_eq_none_iff.mp hc (h.children scope hm)

/-- The scopes after one more is created, before its parent lists it. -/
theorem merge_nodes_set (h : Shows f o c) (n : Node) (hn : View.node o n.scopeId = none)
    (o' : Overlay) (hnodes : o'.nodes = o.nodes.set n.scopeId { toNode := n })
    (hbase : o'.base = o.base) (hchildren : o'.children = o.children) :
    o'.merge.nodes = c.nodes.set n.scopeId { toNode := n } := by
  obtain ⟨hstaged, hb, hc⟩ := h.node_eq_none hn
  refine Dict.ext_keys ?_ fun s => ?_
  · have hk : n.scopeId ∉ o.base.nodes.keys := Dict.get?_eq_none_iff.mp hb
    rw [keys_merge_nodes, hnodes, hbase, Dict.keys_set, Dict.keys_set, ← h.nodes,
      keys_merge_nodes, if_neg (Dict.get?_eq_none_iff.mp hstaged), if_neg]
    · simp [Dict.newKeys, Dict.contains_eq_false_iff.mpr hk]
    · rw [← keys_merge_nodes, h.nodes]
      exact Dict.get?_eq_none_iff.mp hc
  · rw [get?_merge_nodes, hnodes, hbase, hchildren, Dict.get?_set, Dict.get?_set, ← h.nodes,
      get?_merge_nodes]
    split_ifs with hs
    · subst hs
      simp [hb, h.children_eq_none hc, mergedNode, extend]
    · rfl

theorem keyed_set (h : Shows f o c) {scope : Text} {n : BudgetNode} (hn : n.scopeId = scope)
    (s : Text) (m : BudgetNode) (hm : (c.nodes.set scope n).get? s = some m) : m.scopeId = s := by
  rw [Dict.get?_set] at hm
  split_ifs at hm with hs
  · cases hm
    rw [hn, hs]
  · exact h.keyed s m hm

theorem staged_set (h : Shows f o c) {scope : Text} {n : BudgetNode}
    (hn : ∀ b, o.base.nodes.get? scope = some b →
      n.toNode = { b.toNode with allocated := n.allocated })
    (s : Text) (m b : BudgetNode) (hm : (o.nodes.set scope n).get? s = some m)
    (hb : o.base.nodes.get? s = some b) : m.toNode = { b.toNode with allocated := m.allocated } := by
  rw [Dict.get?_set] at hm
  split_ifs at hm with hs
  · cases hm
    exact hn b (hs ▸ hb)
  · exact h.staged s m b hm hb

theorem createRoot (h : Shows f o c) (n : Node) (hn : View.node o n.scopeId = none) :
    Shows f (View.createRoot o n) (View.createRoot c n) := by
  obtain ⟨-, hb, -⟩ := h.node_eq_none hn
  exact { h with
    nodes := h.merge_nodes_set n hn _ rfl rfl rfl
    roots := by
      change o.base.roots ++ (o.roots ++ [n.scopeId]) = c.roots ++ [n.scopeId]
      rw [← List.append_assoc, ← h.roots]
      rfl
    keyed := h.keyed_set rfl
    children := fun s hs => Dict.mem_keys_set.mpr (Or.inr (h.children s hs))
    staged := h.staged_set fun b hb' => by rw [hb] at hb'; cases hb' }

theorem createChild (h : Shows f o c) (parent : Text) (n : Node)
    (hp : (View.node o parent).isSome) (hn : View.node o n.scopeId = none) :
    Shows f (View.createChild o parent n) (View.createChild c parent n) := by
  obtain ⟨hstaged, hb, hc⟩ := h.node_eq_none hn
  obtain ⟨p, hpc⟩ : ∃ p, c.nodes.get? parent = some p := by
    rw [← Option.isSome_iff_exists, ← h.contains_node]
    change ((o.node parent).map _).isSome at hp
    simpa using hp
  have hne : parent ≠ n.scopeId := fun he => by rw [he, hc] at hpc; cases hpc
  have hpar : (c.nodes.set n.scopeId { toNode := n }).get? parent = some p := by
    rw [Dict.get?_set, if_neg hne, hpc]
  have hchain : (View.createChild c parent n).nodes = (c.nodes.set n.scopeId { toNode := n }).set
      parent { p with childIds := p.childIds ++ [n.scopeId] } := by
    change c.nodesWithChild parent n = _
    simp only [Chain.nodesWithChild, hpar]
  -- the scope before its parent lists it
  let o₁ : Overlay := { o with nodes := o.nodes.set n.scopeId { toNode := n } }
  have h₁ : o₁.merge.nodes = c.nodes.set n.scopeId { toNode := n } :=
    h.merge_nodes_set n hn o₁ rfl rfl rfl
  refine { h with nodes := ?_, keyed := ?_, children := ?_, staged := ?_ }
  · rw [hchain]
    refine Dict.ext_keys ?_ fun s => ?_
    · rw [Dict.keys_set, if_pos (Dict.mem_keys_iff.mpr ⟨p, hpar⟩), ← h₁, keys_merge_nodes,
        keys_merge_nodes]
      rfl
    · have hs₁ := congrArg (fun d => Dict.get? d s) h₁
      simp only [get?_merge_nodes] at hs₁
      rw [get?_merge_nodes, Dict.get?_set, ← hs₁]
      change mergedNode (o₁.nodes.get? s) (o.base.nodes.get? s) (((o.children.set parent
        ((o.children.get? parent).getD [] ++ [n.scopeId])).get? s).getD []) = _
      rw [Dict.get?_set o.children parent s]
      by_cases hsp : s = parent
      · subst hsp
        rw [hpar] at hs₁
        rw [if_pos rfl, if_pos rfl, Option.getD_some, mergedNode_append]
        exact congrArg (Option.map (extend [n.scopeId])) hs₁
      · rw [if_neg hsp, if_neg hsp]
  · rw [hchain]
    intro s m hm
    rw [Dict.get?_set] at hm
    split_ifs at hm with hs
    · cases hm
      exact hs ▸ h.keyed parent p hpc
    · exact h.keyed_set (n := { toNode := n }) rfl s m hm
  · intro s hs
    rw [hchain, Dict.mem_keys_set, Dict.mem_keys_set]
    rcases Dict.mem_keys_set.mp hs with rfl | hs
    · exact Or.inl rfl
    · exact Or.inr (Or.inr (h.children s hs))
  · exact h.staged_set fun b hb' => by rw [hb] at hb'; cases hb'

theorem setAllocated (h : Shows f o c) (scope : Text) (v : Value)
    (hs : (View.node o scope).isSome) :
    Shows f (View.setAllocated o scope v) (View.setAllocated c scope v) := by
  obtain ⟨n, hn⟩ : ∃ n, o.node scope = some n := by
    rw [← Option.isSome_iff_exists]
    change ((o.node scope).map _).isSome at hs
    simpa using hs
  obtain ⟨m, hm⟩ : ∃ m, c.nodes.get? scope = some m := by
    rw [← Option.isSome_iff_exists, ← h.contains_node, hn]
    rfl
  have ho : View.setAllocated o scope v =
      noteRow { o with nodes := o.nodes.set scope { n with allocated := v } } scope := by
    change Overlay.setAllocated o scope v = _
    simp only [Overlay.setAllocated, hn]
  have hc : (View.setAllocated c scope v).nodes = c.nodes.set scope { m with allocated := v } := by
    change (match c.nodes.get? scope with | none => _ | some n => _) = _
    rw [hm]
  have hkey : n.scopeId = scope := by
    have := h.node scope
    rw [hn, hm] at this
    simp only [Option.map_some, Option.some.injEq] at this
    rw [this]
    exact h.keyed scope m hm
  rw [ho]
  refine { h with nodes := ?_, keyed := ?_, children := ?_, staged := ?_ }
  · rw [hc]
    refine Dict.ext_keys ?_ fun s => ?_
    · have hmem : scope ∈ c.nodes.keys := Dict.mem_keys_iff.mpr ⟨m, hm⟩
      rw [Dict.keys_set, if_pos hmem, ← h.nodes, keys_merge_nodes, keys_merge_nodes]
      change o.base.nodes.keys ++ o.base.nodes.newKeys (o.nodes.set scope _).keys = _
      rw [Dict.keys_set]
      split_ifs with hk
      · rfl
      · have hb : o.base.nodes.contains scope = true := by
          rw [Overlay.node, Dict.get?_eq_none_iff.mpr hk, Option.none_or] at hn
          rw [Dict.contains, hn]
          rfl
        simp [Dict.newKeys, hb]
    · have hms := h.nodes
      have hs₁ := congrArg (fun d => Dict.get? d s) hms
      simp only [get?_merge_nodes] at hs₁
      rw [get?_merge_nodes, Dict.get?_set, ← hs₁]
      change mergedNode ((o.nodes.set scope _).get? s) (o.base.nodes.get? s)
        ((o.children.get? s).getD []) = _
      rw [Dict.get?_set]
      split_ifs with hsp
      · subst hsp
        rw [hm] at hs₁
        rw [Overlay.node] at hn
        cases hst : o.nodes.get? s with
        | none =>
          rw [hst, Option.none_or] at hn
          rw [hst, hn] at hs₁
          rw [hn]
          simp only [mergedNode, Option.some.injEq] at hs₁ ⊢
          rw [← hs₁]
          rfl
        | some n' =>
          rw [hst, Option.some_or, Option.some.injEq] at hn
          subst hn
          rw [hst] at hs₁
          cases hb : o.base.nodes.get? s with
          | none =>
            rw [hb] at hs₁
            simp only [mergedNode, Option.some.injEq] at hs₁ ⊢
            rw [← hs₁]
            rfl
          | some b =>
            rw [hb] at hs₁
            simp only [mergedNode, Option.some.injEq] at hs₁ ⊢
            rw [← hs₁]
            rfl
      · rfl
  · rw [hc]
    exact h.keyed_set (n := { m with allocated := v }) (h.keyed scope m hm)
  · intro s hs'
    rw [hc, Dict.mem_keys_set]
    exact Or.inr (h.children s hs')
  · refine h.staged_set fun b hb => ?_
    rw [Overlay.node] at hn
    cases hst : o.nodes.get? scope with
    | none =>
      rw [hst, Option.none_or, hb, Option.some.injEq] at hn
      rw [hn]
    | some n' =>
      rw [hst, Option.some_or, Option.some.injEq] at hn
      subst hn
      rw [h.staged scope n' b hst hb]

end Shows

/-- An overlay over a base shows a chain. -/
structure ShowsOver (f : LedgerEntry → LedgerEntry) (base : ChainState)
    (refunds : Option (UUID → ℕ → Except Error Value)) (find find' : UUID → Option LedgerEntry)
    (o : Overlay) (c : Chain) : Prop where
  base : o.base = base
  refunds : o.refunds = refunds
  resolve : o.resolve = find
  resolve' : c.resolve = find'
  shows : Shows f o c

/-- The rules respect what an overlay shows, for holds placed under ids the base has not open and
refunds whose spends are found alike. -/
theorem shows_simulation {f : LedgerEntry → LedgerEntry} (hf : ∀ e, (f e).held = e.held)
    (base : ChainState) (refunds : Option (UUID → ℕ → Except Error Value))
    (find find' : UUID → Option LedgerEntry) :
    Simulation (ShowsOver f base refunds find find')
      (fun e => (e.entryType = .hold → base.holds.get? e.entryId = none) ∧
        (e.entryType = .reversal → ∀ ref, e.ref = some ref → find ref = find' ref)) where
  core h := h.shows.core
  frame h := h.shows.frame
  unit h := h.shows.unit
  balance h := h.shows.balance
  openHold h := h.shows.openHold hf
  iterHolds h := h.shows.iterHolds hf
  node h := h.shows.node
  scopeId_node {o c scope n} h hn := by
    have hn' := h.shows.node scope
    rw [show (o.node scope).map BudgetNode.toNode = some n from hn, eq_comm,
      Option.map_eq_some_iff] at hn'
    obtain ⟨m, hm, rfl⟩ := hn'
    exact h.shows.keyed scope m hm
  openHold_of_mem {o c hold x} h hx := by
    change ((o.openHold hold).map LedgerEntry.held).isSome
    obtain ⟨p, hp, hpx⟩ := List.mem_map.mp hx
    cases hpx
    rw [← h.shows.items_merge_holds] at hp
    rw [← h.shows.get?_merge_holds, Dict.get?_eq_some_iff.mpr hp]
    rfl
  spentBy h := h.shows.spentBy
  refundedTo h := h.shows.refundedTo
  holdsOpenIn h := h.shows.holdCounts
  refundedOfSpend h := h.shows.refundedOfSpend
  isSealed {o c} h := by
    have := congrArg Option.isSome h.shows.migrationSeal
    change o.migrationSeal.isSome = c.migrationSeal.isSome
    simpa using this
  resolve {o c e ref} h hP he hr := by
    change o.resolve ref = c.resolve ref
    rw [h.resolve, h.resolve']
    exact hP.2 he ref hr
  setCore h core := { h with shows := { h.shows with core := rfl } }
  setFrame h frame := { h with shows := { h.shows with frame := rfl } }
  setBalance h scope v := { h with shows := h.shows.setBalance scope v }
  placeHold {o c e} h hP he :=
    { h with shows := h.shows.placeHold e (by rw [h.base]; exact hP.1 he) }
  dropHold {o c} h hold ho := by
    have ho' : (o.openHold hold).isSome := by
      change ((o.openHold hold).map LedgerEntry.held).isSome at ho
      simpa using ho
    refine { base := ?_, refunds := ?_, resolve := ?_, resolve' := h.resolve',
             shows := h.shows.dropHold hold ho' }
    · change (ite _ _ _ : Overlay).base = base
      split <;> exact h.base
    · change (ite _ _ _ : Overlay).refunds = refunds
      split <;> exact h.refunds
    · change (ite _ _ _ : Overlay).resolve = find
      split <;> exact h.resolve
  noteReleased h hold := { h with shows := { h.shows with } }
  markAmbiguous h key := { h with shows := h.shows.markAmbiguous key }
  setCount h scope n := { h with shows := h.shows.setCount scope n }
  setSpendRefunds h spend v := { h with shows := h.shows.setSpendRefunds spend v }
  setSpent h scope v := { h with shows := h.shows.setSpent scope v }
  setRefunded h scope v := { h with shows := h.shows.setRefunded scope v }
  createRoot h n hn := { h with shows := h.shows.createRoot n hn }
  createChild h parent n hp hn := { h with shows := h.shows.createChild parent n hp hn }
  setAllocated {o c} h scope v hs := by
    refine { base := ?_, refunds := ?_, resolve := ?_, resolve' := h.resolve',
             shows := h.shows.setAllocated scope v hs }
    · change (Overlay.setAllocated o scope v).base = base
      unfold Overlay.setAllocated
      split <;> exact h.base
    · change (Overlay.setAllocated o scope v).refunds = refunds
      unfold Overlay.setAllocated
      split <;> exact h.refunds
    · change (Overlay.setAllocated o scope v).resolve = find
      unfold Overlay.setAllocated
      split <;> exact h.resolve
  setTrip h scope trip := { h with shows := h.shows.setTrip scope trip }
  noteEvent h event := { h with shows := { h.shows with } }
  placeSeal h e := { h with shows := { h.shows with migrationSeal := rfl } }

/-- A new overlay shows what the state below it holds, and the refunds it counts. -/
theorem shows_staging_counting (s : ChainState) (resolve find : UUID → Option LedgerEntry)
    {refunds : Option (UUID → ℕ → Except Error Value)} (released : Option (List UUID))
    {spendRefunds : Dict UUID Value}
    (keyed : ∀ scope n, s.nodes.get? scope = some n → n.scopeId = scope)
    (counted : ∀ spend, (staging s resolve refunds released).refundedOfSpend spend =
      .ok ((spendRefunds.get? spend).getD 0))
    (kept : refunds = none → s.spendRefunds = spendRefunds) :
    Shows id (staging s resolve refunds released)
      { s.chain find with spendRefunds := spendRefunds } where
  core := rfl
  frame := rfl
  unit := rfl
  migrationSeal := rfl
  balances := rfl
  holds := rfl
  ambiguous := rfl
  nodes := rfl
  roots := List.append_nil _
  tripped _ := rfl
  spent := rfl
  refunded := rfl
  holdCounts _ := rfl
  refundedOfSpend := counted
  spendRefunds h := by
    change refunds = none at h
    subst h
    exact kept rfl
  opened hold h := absurd h (by simp [staging])
  closed hold h := absurd h (by simp [staging])
  keyed := keyed
  children scope h := absurd h (by simp [staging])
  staged scope n b h := by simp [staging] at h

/-- A new overlay over a state that remembers its refunds shows what the state holds. -/
theorem shows_staging (s : ChainState) (resolve find : UUID → Option LedgerEntry)
    (released : Option (List UUID))
    (keyed : ∀ scope n, s.nodes.get? scope = some n → n.scopeId = scope) :
    Shows id (staging s resolve none released) (s.chain find) :=
  shows_staging_counting s resolve find released keyed (fun _ => rfl) (fun _ => rfl)

end Overlay

end AgentGov
