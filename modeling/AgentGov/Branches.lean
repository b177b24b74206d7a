import AgentGov.Delegation
import AgentGov.Foundation.Tallies
import AgentGov.Overdrafts

/-!
# Branches

What a scope was granted, less what it gave back, is spread over its branch: it is what the scope
and everything below it have available, hold, and have spent less what came back
(`src/src/agentgov/core.py`, lines 3608–3690, 5624–5655 and 5836–5987). The engine asks this of the
ledger as a whole only; of a branch it follows from the pairs a governor writes, the debit of one
scope and the credit of the other.

## Main definitions

* `AgentGov.Chain.standing`: what a scope has of its own.
* `AgentGov.Paired`: what a scope has passed to another is what the other was allotted by it.
* `AgentGov.ChainState.subtreeAvailable`: what a branch has available.

## Main results

* `AgentGov.Governor.paired_maintained`: every unit of work writes both sides of a pair.
* `AgentGov.branches_conserve`: the books of every branch balance, at every commit of every run.
-/

open Foundation

namespace AgentGov

variable {checkHash writing : Bool} {c c' : Chain} {e : LedgerEntry} {l m : List LedgerEntry}

/-! ### What is granted, and what is passed on -/

namespace LedgerEntry

/-- What an entry allots to its scope by its parent: its allocation, less what it gives back. -/
def allotted (e : LedgerEntry) : ℚ :=
  if e.entryType = .allocation ∧ e.direction = .credit then e.worth.toRat
  else if e.entryType = .release ∧ e.direction = .debit then -e.worth.toRat
  else 0

/-- What an entry grants its scope: its funding, or what it is allotted. -/
def granted (e : LedgerEntry) : ℚ :=
  (if e.entryType = .funding then e.worth.toRat else 0) + e.allotted

/-- What an entry passes from its scope to a child, less what the child gives back. -/
def passed (e : LedgerEntry) : ℚ :=
  if e.entryType = .allocation ∧ e.direction = .debit then e.worth.toRat
  else if e.entryType = .release ∧ e.direction = .credit then -e.worth.toRat
  else 0

/-- What an entry gives back to the parent of its scope. -/
def returned (e : LedgerEntry) : ℚ :=
  if e.entryType = .release ∧ e.direction = .debit then e.worth.toRat else 0

/-- Whether an entry is between its scope and its parent, on the side of its scope. -/
def FromParent (e : LedgerEntry) : Prop :=
  e.delegates = true ∨ e.entryType = .release ∧ e.direction = .debit

theorem fromParent_of_allotted {e : LedgerEntry} (h : e.allotted ≠ 0) : e.FromParent := by
  unfold allotted at h
  split_ifs at h with halloc hrelease
  · exact Or.inl (by simp [delegates, halloc])
  · exact Or.inr hrelease
  · exact absurd rfl h

/-- The other scope of an entry. -/
def other (e : LedgerEntry) : Text := e.counterpartyId.getD []

end LedgerEntry

/-- What a scope was granted, less what it gave back. -/
def grantedTo : List LedgerEntry → Text → ℚ := tally LedgerEntry.granted LedgerEntry.scopeId

/-- What a scope gave back to its parent. -/
def returnedBy : List LedgerEntry → Text → ℚ := tally LedgerEntry.returned LedgerEntry.scopeId

/-- What a scope passed to its children, less what they gave back. -/
def passedBy : List LedgerEntry → Text → ℚ := tally LedgerEntry.passed LedgerEntry.scopeId

/-- Whether what each scope has passed to another is what the other was allotted by it. -/
def Paired (l : List LedgerEntry) : Prop :=
  ∀ p, tally LedgerEntry.passed (fun e => (e.scopeId, e.other)) l p =
    tally LedgerEntry.allotted (fun e => (e.other, e.scopeId)) l p

theorem Paired.append (h : Paired l) (h' : Paired m) : Paired (l ++ m) := by
  intro p
  rw [tally_append, tally_append, h p, h' p]

/-- Entries that move no money between scopes are paired. -/
theorem paired_of_unbalanced (h : ∀ e ∈ l, e.entryType.isBalanced = false) : Paired l := by
  intro p
  rw [tally_eq_zero fun e he _ => ?_, tally_eq_zero fun e he _ => ?_]
  · have := h e he
    unfold LedgerEntry.allotted
    rw [if_neg (fun hk => by simp [hk.1, EntryType.isBalanced] at this),
      if_neg (fun hk => by simp [hk.1, EntryType.isBalanced] at this)]
  · have := h e he
    unfold LedgerEntry.passed
    rw [if_neg (fun hk => by simp [hk.1, EntryType.isBalanced] at this),
      if_neg (fun hk => by simp [hk.1, EntryType.isBalanced] at this)]

/-- A debit and a credit of one amount between two scopes are paired. -/
theorem paired_pair {debit credit : LedgerEntry} (hworth : debit.worth = credit.worth)
    (hdebit : debit.direction = .debit) (hcredit : credit.direction = .credit)
    (hscope : debit.scopeId = credit.other) (hother : debit.other = credit.scopeId)
    (hkind : debit.entryType = credit.entryType) : Paired [debit, credit] := by
  intro p
  simp only [tally_cons, tally_nil, add_zero, LedgerEntry.passed, LedgerEntry.allotted, hdebit,
    hcredit, hscope, hother, hkind, hworth]
  by_cases halloc : credit.entryType = .allocation
  · simp [halloc]
  · by_cases hrelease : credit.entryType = .release
    · simp [hrelease]
    · simp [halloc, hrelease]

/-! ### What a scope has -/

namespace Chain

/-- What the open holds of a scope keep back. -/
def held (c : Chain) (scope : Text) : ℚ :=
  tally (fun h => h.worth.toRat) LedgerEntry.scopeId c.holds.values scope

/-- What a scope has of its own: what is available, held, and spent less what came back. -/
def standing (c : Chain) (scope : Text) : ℚ :=
  (c.balance scope).toRat + c.held scope + (c.spentBy scope).toRat - (c.refundedTo scope).toRat

/-- Whether everything a scope has is finite. -/
structure Whole (c : Chain) : Prop where
  balance : ∀ scope, (c.balance scope).IsFinite
  spent : ∀ scope, (c.spentBy scope).IsFinite
  refunded : ∀ scope, (c.refundedTo scope).IsFinite

end Chain

namespace Applied

/-- An entry moves the balance of its scope alone. -/
theorem balance_toRat (ha : Applied checkHash writing c e c') (hc : c.Whole)
    (hw : e.worth.IsFinite) (scope : Text) : (c'.balance scope).IsFinite ∧
      (c'.balance scope).toRat =
        (c.balance scope).toRat + if e.scopeId = scope then e.movement.toRat else 0 := by
  split_ifs with hs
  · subst hs
    exact Value.plus_toRat (hc.balance _) (ha.movement.2.2 hw) ha.balance_plus
  · rw [ha.balance_other (Ne.symm hs), add_zero]
    exact ⟨hc.balance scope, rfl⟩

/-- An entry moves the lifetime totals of its scope alone. -/
theorem flows_toRat (ha : Applied checkHash writing c e c') (hc : c.Whole)
    (hw : e.worth.IsFinite) (scope : Text) :
    ((c'.spentBy scope).IsFinite ∧ (c'.spentBy scope).toRat = (c.spentBy scope).toRat +
      if e.scopeId = scope then if e.entryType = .spend then e.worth.toRat else 0 else 0) ∧
    ((c'.refundedTo scope).IsFinite ∧ (c'.refundedTo scope).toRat = (c.refundedTo scope).toRat +
      if e.scopeId = scope then if e.entryType = .reversal then e.worth.toRat else 0 else 0) := by
  have hspent := hc.spent scope
  have hrefunded := hc.refunded scope
  have same : ∀ {v v' : Value}, v' = v → v.IsFinite → v'.IsFinite ∧ v'.toRat = v.toRat + 0 :=
    fun h hv => ⟨h.symm ▸ hv, by rw [h, add_zero]⟩
  cases ha.flows with
  | spend spent kind sum after keep =>
    refine ⟨?_, ?_⟩
    · rw [if_pos kind]
      split_ifs with hs
      · subst hs
        rw [Chain.spentBy, after, Dict.get?_set_self]
        exact add_toRat hspent hw sum
      · refine same ?_ hspent
        rw [Chain.spentBy, after, Dict.get?_set, if_neg (Ne.symm hs)]
        rfl
    · rw [if_neg (show e.entryType ≠ .reversal by simp [kind]), ite_self]
      exact same (by rw [Chain.refundedTo, keep]; rfl) hrefunded
  | reversal refunded kind sum _ after keep =>
    refine ⟨?_, ?_⟩
    · rw [if_neg (show e.entryType ≠ .spend by simp [kind]), ite_self]
      exact same (by rw [Chain.spentBy, keep]; rfl) hspent
    · rw [if_pos kind]
      split_ifs with hs
      · subst hs
        rw [Chain.refundedTo, after, Dict.get?_set_self]
        exact add_toRat hrefunded hw sum
      · refine same ?_ hrefunded
        rw [Chain.refundedTo, after, Dict.get?_set, if_neg (Ne.symm hs)]
        rfl
  | keep kind keep keep' =>
    rw [if_neg kind.1, if_neg kind.2, ite_self]
    exact ⟨same (by rw [Chain.spentBy, keep]; rfl) hspent,
      same (by rw [Chain.refundedTo, keep']; rfl) hrefunded⟩

/-- An entry moves what the holds of its scope keep back, and no other's. -/
theorem held_toRat (ha : Applied checkHash writing c e c')
    (new : e.entryType = .hold → c.holds.get? e.entryId = none) (scope : Text) :
    c'.held scope = c.held scope + if e.scopeId = scope then
      (if e.entryType = .hold then e.worth.toRat else 0) -
        (if e.entryType = .holdVoid then e.worth.toRat else 0) else 0 := by
  have released : ∀ {id : UUID} {hold : LedgerEntry}, e.entryType = .holdVoid →
      c.holds.get? id = some hold → hold.scopeId = e.scopeId →
      hold.amount.value? = some e.worth → c'.holds = c.holds.erase id →
      c'.held scope = c.held scope + if e.scopeId = scope then
        (if e.entryType = .hold then e.worth.toRat else 0) -
          (if e.entryType = .holdVoid then e.worth.toRat else 0) else 0 := by
    intro id hold kind opened hscope amount holds
    have hsame := @tally_perm _ _ _ _ _ (fun h => h.worth.toRat) LedgerEntry.scopeId _ _
      (Dict.values_perm_of_get? opened) scope
    rw [tally_cons, hscope, Rules.worth_eq amount, ← holds] at hsame
    rw [Chain.held, Chain.held, hsame]
    simp only [kind, reduceCtorEq, if_true, if_false]
    split_ifs <;> ring
  have keep : e.entryType ≠ .hold → e.entryType ≠ .holdVoid → c'.holds = c.holds →
      c'.held scope = c.held scope + if e.scopeId = scope then
        (if e.entryType = .hold then e.worth.toRat else 0) -
          (if e.entryType = .holdVoid then e.worth.toRat else 0) else 0 := by
    intro hhold hvoid holds
    rw [if_neg hhold, if_neg hvoid, sub_zero, ite_self, add_zero, Chain.held, holds, Chain.held]
  cases ha.holds with
  | place kind _ holds =>
    have hvalues := Dict.values_set_perm c.holds e.entryId e
    rw [← holds, Dict.erase_of_not_mem (Dict.get?_eq_none_iff.mp (new kind))] at hvalues
    rw [Chain.held, tally_perm hvalues, tally_cons, Chain.held, add_comm]
    simp [kind]
  | release hold ref kind _ _ opened hscope amount holds =>
    exact released kind opened hscope amount holds
  | releaseUnnamed hold id kind _ opened hscope amount holds =>
    exact released kind opened hscope amount holds
  | spend kind _ holds => exact keep (by simp [kind]) (by simp [kind]) holds
  | reverse _ _ _ _ kind _ _ _ _ _ _ _ holds => exact keep (by simp [kind]) (by simp [kind]) holds
  | keep kind _ holds => exact keep kind.1 kind.2.1 holds

/-- What an entry moves into a scope's balance, its holds and its spend is what the scope is granted
less what it passes on. -/
theorem moved (ha : Applied checkHash writing c e c') :
    e.movement.toRat + ((if e.entryType = .hold then e.worth.toRat else 0) -
        (if e.entryType = .holdVoid then e.worth.toRat else 0)) +
      (if e.entryType = .spend then e.worth.toRat else 0) -
        (if e.entryType = .reversal then e.worth.toRat else 0) = e.granted - e.passed := by
  have hdir := ha.direction
  rw [LedgerEntry.movement, LedgerEntry.signedAmount, LedgerEntry.granted, LedgerEntry.allotted,
    LedgerEntry.passed]
  cases kind : e.entryType <;> rw [kind] at hdir <;>
    simp only [EntryType.legalDirections, List.mem_cons, List.not_mem_nil, or_false] at hdir <;>
    (try rcases hdir with hdir | hdir) <;> simp [hdir]

/-- An entry changes what its scope has by what it is granted less what it passes on. -/
theorem standing_toRat (ha : Applied checkHash writing c e c') (hc : c.Whole)
    (hw : e.worth.IsFinite) (new : e.entryType = .hold → c.holds.get? e.entryId = none) :
    c'.Whole ∧ ∀ scope, c'.standing scope =
      c.standing scope + if e.scopeId = scope then e.granted - e.passed else 0 := by
  refine ⟨⟨fun scope => (ha.balance_toRat hc hw scope).1,
    fun scope => (ha.flows_toRat hc hw scope).1.1,
    fun scope => (ha.flows_toRat hc hw scope).2.1⟩, fun scope => ?_⟩
  obtain ⟨⟨-, hspent⟩, -, hrefunded⟩ := ha.flows_toRat hc hw scope
  rw [Chain.standing, Chain.standing, (ha.balance_toRat hc hw scope).2, ha.held_toRat new, hspent,
    hrefunded, ← ha.moved]
  by_cases hs : e.scopeId = scope
  · simp only [hs, if_true]
    ring
  · simp only [hs, if_false]
    ring

end Applied

/-! ### The tree -/

/-- The children a scope lists. -/
def Chain.kids (c : Chain) (scope : Text) : Option (List Text) :=
  (c.nodes.get? scope).map BudgetNode.childIds

/-- What an entry does to the tree: nothing, or it creates its scope, as a root or as the last child
of the scope it names. -/
inductive Grows (c : Chain) (e : LedgerEntry) (c' : Chain) : Prop
  | same (kids : ∀ x, c'.kids x = c.kids x) (place : ∀ x, c'.place x = c.place x)
  | root (kind : e.entryType = .funding) (new : c.place e.scopeId = none)
      (kids : ∀ x, c'.kids x = if x = e.scopeId then some [] else c.kids x)
      (place : ∀ x, c'.place x = if x = e.scopeId then some (none, 0) else c.place x)
  | child (cs : List Text) (depth : ℕ) (credit : e.delegates = true)
      (new : c.place e.scopeId = none) (known : c.kids e.other = some cs)
      (kids : ∀ x, c'.kids x = if x = e.other then some (cs ++ [e.scopeId])
        else if x = e.scopeId then some [] else c.kids x)
      (place : ∀ x, c'.place x = if x = e.scopeId then some (some e.other, depth) else c.place x)

theorem GovernanceStep.grows (hk : c.Keyed) (h : GovernanceStep c e c') : Grows c e c' := by
  have keep : c'.nodes = c.nodes → Grows c e c' := by
    intro nodes
    refine .same (fun x => ?_) fun x => ?_
    · rw [Chain.kids, nodes, Chain.kids]
    · rw [Chain.place, nodes, Chain.place]
  cases h with
  | root kind new nodes =>
    refine .root kind (by rw [Chain.place, new]; rfl) (fun x => ?_) fun x => ?_
    · rw [Chain.kids, nodes, Dict.get?_set]
      split_ifs <;> rfl
    · rw [Chain.place, nodes, Dict.get?_set]
      split_ifs <;> rfl
  | raise n allocated kind known _ _ nodes =>
    refine .same (fun x => ?_) fun x => ?_
    · rw [Chain.kids, nodes, Dict.get?_set, Chain.kids]
      split_ifs with hx
      · rw [hx, known]
        rfl
      · rfl
    · rw [Chain.place, nodes, Dict.get?_set, Chain.place]
      split_ifs with hx
      · rw [hx, known]
        rfl
      · rfl
  | child parent kind direction new known nodes =>
    change c.nodes.get? e.other = some parent at known
    have hkey : parent.scopeId = e.other := hk _ parent known
    rw [hkey] at nodes
    have hget := Chain.get?_nodesWithChild (n := e.created (some e.other) (parent.depth + 1))
      (c := c) known new
    have hne : e.scopeId ≠ e.other := by
      intro he
      rw [he] at new
      cases new.symm.trans known
    refine .child parent.childIds (parent.depth + 1) (by simp [LedgerEntry.delegates, kind, direction])
      (by rw [Chain.place, new]; rfl) (by rw [Chain.kids, known]; rfl)
      (fun x => ?_) fun x => ?_
    · rw [Chain.kids, nodes, hget]
      by_cases h₁ : x = e.other
      · rw [if_pos h₁, if_pos h₁]
        rfl
      · rw [if_neg h₁, if_neg h₁]
        change (if x = e.scopeId then _ else _ : Option BudgetNode).map _ = _
        split_ifs <;> rfl
    · rw [Chain.place, nodes, hget]
      by_cases h₁ : x = e.other
      · rw [if_pos h₁, if_neg (h₁ ▸ Ne.symm hne), h₁]
        rw [Chain.place, known]
        rfl
      · rw [if_neg h₁]
        change (if x = e.scopeId then _ else _ : Option BudgetNode).map _ = _
        split_ifs <;> rfl
  | release _ _ _ _ _ nodes => exact keep nodes
  | other _ _ _ _ _ nodes => exact keep nodes
  | scopeless _ nodes => exact keep nodes

/-- A scope stays where it is. -/
theorem Grows.keeps (h : Grows c e c') {x : Text} {p : Option Text × ℕ}
    (hx : c.place x = some p) : c'.place x = some p := by
  cases h with
  | same _ place => rw [place, hx]
  | root _ new _ place =>
    rw [place, if_neg, hx]
    rintro rfl
    cases hx.symm.trans new
  | child _ _ _ new _ _ place =>
    rw [place, if_neg, hx]
    rintro rfl
    cases hx.symm.trans new

/-- Whether the lists of children are those of the places of a tree, and what was granted went to
the scopes in their places. -/
structure Tended (l : List LedgerEntry) (c : Chain) : Prop where
  nodup : ∀ x cs, c.kids x = some cs → cs.Nodup
  listed : ∀ x cs, c.kids x = some cs → ∀ y, y ∈ cs ↔ ∃ d, c.place y = some (some x, d)
  funded : ∀ e ∈ l, e.entryType = .funding → ∃ d, c.place e.scopeId = some (none, d)
  allotted : ∀ e ∈ l, e.FromParent → ∃ d, c.place e.scopeId = some (some e.other, d)

/-- A new scope has no children, and nobody lists it but its parent. -/
theorem Tended.lists (h : Tended l c) (ht : TreeKept l c) (hg : Grows c e c') :
    (∀ x cs, c'.kids x = some cs → cs.Nodup) ∧
      ∀ x cs, c'.kids x = some cs → ∀ y, y ∈ cs ↔ ∃ d, c'.place y = some (some x, d) := by
  have childless : c.place e.scopeId = none → ∀ y d, c.place y ≠ some (some e.scopeId, d) := by
    intro new y d hy
    obtain ⟨-, -, q, d', hq, -⟩ := ht.child y e.scopeId d hy
    cases new.symm.trans hq
  have unlisted : c.place e.scopeId = none → ∀ x cs, c.kids x = some cs → e.scopeId ∉ cs := by
    intro new x cs hx hmem
    obtain ⟨d, hd⟩ := (h.listed x cs hx _).mp hmem
    cases new.symm.trans hd
  cases hg with
  | same kids place =>
    exact ⟨fun x cs hx => h.nodup x cs (kids x ▸ hx), fun x cs hx y => by
      rw [place]
      exact h.listed x cs (kids x ▸ hx) y⟩
  | root kind new kids place =>
    refine ⟨fun x cs hx => ?_, fun x cs hx y => ?_⟩
    · rw [kids] at hx
      split_ifs at hx
      · cases hx
        exact List.nodup_nil
      · exact h.nodup x cs hx
    · rw [kids] at hx
      rw [place]
      split_ifs at hx with h₁
      · cases hx
        subst h₁
        split_ifs with h₂
        · simp
        · simp [childless new]
      · split_ifs with h₂
        · subst h₂
          simp [unlisted new x cs hx]
        · exact h.listed x cs hx y
  | child cs depth credit new known kids place =>
    refine ⟨fun x cs' hx => ?_, fun x cs' hx y => ?_⟩
    · rw [kids] at hx
      split_ifs at hx
      · cases hx
        exact List.nodup_append.mpr ⟨h.nodup _ _ known, List.nodup_singleton _,
          fun a ha b hb hab => unlisted new _ _ known (List.mem_singleton.mp hb ▸ hab ▸ ha)⟩
      · cases hx
        exact List.nodup_nil
      · exact h.nodup x cs' hx
    · rw [kids] at hx
      rw [place]
      split_ifs at hx with h₁ h₂
      · cases hx
        subst h₁
        rw [List.mem_append, List.mem_singleton]
        split_ifs with h₃
        · simp [h₃]
        · simp only [h₃, or_false]
          exact h.listed _ cs known y
      · cases hx
        subst h₂
        split_ifs with h₃
        · simp [Ne.symm h₁]
        · simp [childless new]
      · split_ifs with h₃
        · subst h₃
          simp [unlisted new x cs' hx, Ne.symm h₁]
        · exact h.listed x cs' hx y

/-- Every entry keeps the tree tended. -/
theorem Tended.applied (h : Tended l c) (ht : TreeKept l c)
    (ha : Applied checkHash writing c e c') : Tended (l ++ [e]) c' := by
  have hgrows := ha.governance.grows ht.keyed
  obtain ⟨hnodup, hlisted⟩ := h.lists ht hgrows
  obtain ⟨-, hplace⟩ := ha.governance.place ht.keyed
  refine ⟨hnodup, hlisted, fun x hx kind => ?_, fun x hx hallotted => ?_⟩
  · rcases List.mem_append.mp hx with hx | hx
    · obtain ⟨d, hd⟩ := h.funded x hx kind
      exact ⟨d, hgrows.keeps hd⟩
    · obtain rfl := List.mem_singleton.mp hx
      rcases hplace with ⟨-, new, hnew | ⟨hdelegates, -⟩, hafter⟩ | ⟨-, -, hroot⟩
      · exact ⟨0, by rw [hafter, if_pos rfl, hnew.2]⟩
      · simp [LedgerEntry.delegates, kind] at hdelegates
      · obtain ⟨d, hd⟩ := hroot kind
        exact ⟨d, hgrows.keeps hd⟩
  · rcases List.mem_append.mp hx with hx | hx
    · obtain ⟨d, hd⟩ := h.allotted x hx hallotted
      exact ⟨d, hgrows.keeps hd⟩
    · obtain rfl := List.mem_singleton.mp hx
      rcases hallotted with hdelegates | hrelease
      · rcases hplace with ⟨-, new, ⟨hkind, -⟩ | ⟨-, p, -, hnew⟩, hafter⟩ | ⟨-, hnone, -⟩
        · simp [LedgerEntry.delegates, hkind] at hdelegates
        · exact ⟨p.2 + 1, by rw [hafter, if_pos rfl, hnew]; rfl⟩
        · rw [hdelegates] at hnone
          cases hnone
      · cases ha.governance with
        | root kind => simp [hrelease.1] at kind
        | raise _ _ kind => simp [hrelease.1] at kind
        | child _ kind => simp [hrelease.1] at kind
        | release n child kind known between =>
          rcases between with ⟨-, rfl, hparent⟩ | ⟨hcredit, -⟩
          · exact ⟨child.depth, hgrows.keeps (Chain.place_eq_some.mpr ⟨child, known, hparent, rfl⟩)⟩
          · rw [hrelease.2] at hcredit
            cases hcredit
        | other _ kind => exact absurd hrelease.1 kind.2
        | scopeless kind => simp [hrelease.1, EntryType.isScopeless] at kind

/-! ### What a scope was allocated -/

/-- Whether what each scope is allocated is what it was granted. -/
def Allocated (l : List LedgerEntry) (c : Chain) : Prop :=
  ∀ x n, c.nodes.get? x = some n →
    n.allocated.IsFinite ∧ n.allocated.toRat = grantedTo l x + returnedBy l x

/-- What an entry adds to what its scope was ever granted. -/
theorem LedgerEntry.granted_add_returned (e : LedgerEntry) : e.granted + e.returned =
    if e.entryType = .funding ∨ e.delegates = true then e.worth.toRat else 0 := by
  unfold granted allotted returned delegates
  by_cases hf : e.entryType = .funding
  · simp [hf]
  · by_cases ha : e.entryType = .allocation
    · simp [ha]
    · by_cases hr : e.entryType = .release ∧ e.direction = .debit
      · simp [hr]
      · simp [hf, ha, hr]

/-- What a scope was ever granted, after another entry. -/
theorem granted_concat (x : Text) : grantedTo (l ++ [e]) x + returnedBy (l ++ [e]) x =
    grantedTo l x + returnedBy l x + if e.scopeId = x then e.granted + e.returned else 0 := by
  rw [grantedTo, returnedBy, tally_concat, tally_concat]
  split_ifs <;> ring

/-- Nothing was granted to a scope that does not exist. -/
theorem Tended.untouched (h : Tended l c) {x : Text} (new : c.place x = none) :
    grantedTo l x + returnedBy l x = 0 := by
  rw [grantedTo, returnedBy, ← tally_add]
  refine tally_eq_zero fun e he hx => ?_
  rw [e.granted_add_returned, if_neg]
  rintro (kind | hdelegates)
  · obtain ⟨d, hd⟩ := h.funded e he kind
    rw [hx, new] at hd
    cases hd
  · obtain ⟨d, hd⟩ := h.allotted e he (Or.inl hdelegates)
    rw [hx, new] at hd
    cases hd

/-- Every entry keeps what scopes are allocated. -/
theorem Allocated.applied (h : Allocated l c) (hl : Tended l c) (hk : c.Keyed)
    (ha : Applied checkHash writing c e c') (hw : e.worth.IsFinite) : Allocated (l ++ [e]) c' := by
  intro x n hn
  rw [granted_concat, e.granted_add_returned]
  have keep : c'.nodes = c.nodes → e.entryType ≠ .funding → e.delegates = false →
      n.allocated.IsFinite ∧ n.allocated.toRat = grantedTo l x + returnedBy l x +
        if e.scopeId = x then if e.entryType = .funding ∨ e.delegates = true then e.worth.toRat
          else 0 else 0 := by
    intro nodes kind hdelegates
    rw [if_neg (show ¬(e.entryType = .funding ∨ e.delegates = true) by simp [kind, hdelegates]),
      ite_self, add_zero]
    exact h x n (nodes ▸ hn)
  cases ha.governance with
  | root kind new nodes =>
    rw [if_pos (show e.entryType = .funding ∨ e.delegates = true from Or.inl kind)]
    rw [nodes, Dict.get?_set] at hn
    split_ifs at hn with hx
    · cases hn
      rw [if_pos hx.symm, hx, hl.untouched (by rw [Chain.place, new]; rfl), zero_add]
      exact ⟨hw, rfl⟩
    · rw [if_neg (Ne.symm hx), add_zero]
      exact h x n hn
  | raise m allocated kind known _ sum nodes =>
    rw [if_pos (show e.entryType = .funding ∨ e.delegates = true from Or.inl kind)]
    rw [nodes, Dict.get?_set] at hn
    split_ifs at hn with hx
    · cases hn
      obtain ⟨hfinite, hallocated⟩ := h _ m known
      rw [if_pos hx.symm, hx, ← hallocated]
      exact add_toRat hfinite hw sum
    · rw [if_neg (Ne.symm hx), add_zero]
      exact h x n hn
  | child parent kind direction new known nodes =>
    have hdelegates : e.delegates = true := by simp [LedgerEntry.delegates, kind, direction]
    rw [if_pos (show e.entryType = .funding ∨ e.delegates = true from Or.inr hdelegates)]
    change c.nodes.get? e.other = some parent at known
    rw [nodes, hk _ parent known, Chain.get?_nodesWithChild known new] at hn
    split_ifs at hn with h₁ h₂
    · cases hn
      have hne : e.scopeId ≠ x := by
        rintro rfl
        rw [h₁] at new
        cases new.symm.trans known
      rw [if_neg hne, add_zero, h₁]
      exact h _ parent known
    · cases hn
      change x = e.scopeId at h₂
      rw [if_pos h₂.symm, h₂, hl.untouched (by rw [Chain.place, new]; rfl), zero_add]
      exact ⟨hw, rfl⟩
    · change ¬x = e.scopeId at h₂
      rw [if_neg (Ne.symm h₂), add_zero]
      exact h x n hn
  | release _ _ kind _ _ nodes =>
    exact keep nodes (by simp [kind]) (by simp [LedgerEntry.delegates, kind])
  | other _ kind credit _ _ nodes =>
    refine keep nodes kind.1 ?_
    by_cases halloc : e.entryType = .allocation
    · simp [LedgerEntry.delegates, credit halloc]
    · simp [LedgerEntry.delegates, halloc]
  | scopeless kind nodes =>
    refine keep nodes (fun hf => ?_) ?_
    · simp [hf, EntryType.isScopeless] at kind
    · by_cases halloc : e.entryType = .allocation
      · simp [halloc, EntryType.isScopeless] at kind
      · simp [LedgerEntry.delegates, halloc]

/-! ### Chains -/

/-- What the accounts of a chain are made of. -/
structure Accounts (l : List LedgerEntry) (c : Chain) : Prop where
  whole : c.Whole
  standing : ∀ x, c.standing x = grantedTo l x - passedBy l x
  tended : Tended l c
  allocated : Allocated l c

/-- The accounts of a chain of the newest format whose ids are distinct. -/
theorem run_accounts {unit : Unit} {legacy : List ControlEvent} {find : UUID → Option LedgerEntry}
    (h : runAll (Rules.apply true writing) (Chain.empty unit legacy find) l = .ok c)
    (hversions : ∀ e ∈ l, e.version = auditV3) (hids : (l.map LedgerEntry.entryId).Nodup) :
    Accounts l c := by
  refine Chain.run_induction (motive := fun l c => (∀ e ∈ l, e.version = auditV3) →
    (l.map LedgerEntry.entryId).Nodup → Accounts l c) ?_ ?_ h hversions hids
  · intro _ _
    refine ⟨⟨fun _ => trivial, fun _ => trivial, fun _ => trivial⟩, fun x => ?_,
      ⟨(fun x cs hx => by cases hx), (fun x cs hx => by cases hx), fun e he => ?_, fun e he => ?_⟩,
      fun x n hn => by cases hn⟩
    · change (0 : ℚ) + 0 + 0 - 0 = 0 - 0
      norm_num
    · exact (List.not_mem_nil he).elim
    · exact (List.not_mem_nil he).elim
  · intro l e c c' hl ih ha hversions hids
    rw [List.map_append, List.nodup_append] at hids
    obtain ⟨hwhole, hstanding, htended, hallocated⟩ :=
      ih (fun x hx => hversions x (List.mem_append_left _ hx)) hids.1
    have hw := ha.worth_finite (hversions e (by simp))
    have ht := run_treeKept hl
    have new : e.entryType = .hold → c.holds.get? e.entryId = none := by
      intro _
      cases hk : c.holds.get? e.entryId with
      | none => rfl
      | some hold =>
        obtain ⟨hm, -, hid⟩ := run_holds_known hl _ _ hk
        exact absurd rfl (hids.2.2 _ (hid ▸ List.mem_map_of_mem hm) e.entryId (by simp))
    obtain ⟨hwhole', hstep⟩ := ha.standing_toRat hwhole hw new
    refine ⟨hwhole', fun x => ?_, htended.applied ht ha, hallocated.applied htended ht.keyed ha hw⟩
    rw [hstep, hstanding, grantedTo, passedBy, tally_concat, tally_concat]
    split_ifs <;> ring

/-- What a scope has passed on is what its children were granted. -/
theorem passedBy_eq (hpaired : Paired l) (h : Tended l c) {x : Text} {cs : List Text}
    (hx : c.kids x = some cs) : passedBy l x = (cs.map (grantedTo l)).sum := by
  have hlisted := h.listed x cs hx
  -- the entries of a child that grant it anything name this scope
  have hchild : ∀ y ∈ cs, tally LedgerEntry.allotted (fun e => (e.other, e.scopeId)) l (x, y) =
      grantedTo l y := by
    intro y hy
    obtain ⟨d, hd⟩ := (hlisted y).mp hy
    refine congrArg List.sum (List.map_congr_left fun e he => ?_)
    by_cases hscope : e.scopeId = y
    · have hfunding : e.entryType ≠ .funding := by
        intro kind
        obtain ⟨d', hd'⟩ := h.funded e he kind
        rw [hscope, hd] at hd'
        cases hd'
      rw [if_pos hscope, LedgerEntry.granted, if_neg hfunding, zero_add]
      by_cases hallotted : e.allotted = 0
      · rw [hallotted, ite_self]
      · obtain ⟨d', hd'⟩ := h.allotted e he (LedgerEntry.fromParent_of_allotted hallotted)
        rw [hscope, hd] at hd'
        cases hd'
        have hkey : (e.other, e.scopeId) = (e.other, y) := by rw [hscope]
        exact if_pos hkey
    · rw [if_neg hscope, if_neg fun hp => hscope (Prod.mk.inj hp).2]
  have hnone : ∀ y, y ∉ cs →
      tally LedgerEntry.allotted (fun e => (e.other, e.scopeId)) l (x, y) = 0 := by
    intro y hy
    refine tally_eq_zero fun e he hp => ?_
    by_contra hallotted
    obtain ⟨d, hd⟩ := h.allotted e he (LedgerEntry.fromParent_of_allotted hallotted)
    obtain ⟨rfl, rfl⟩ := Prod.mk.inj hp
    exact hy ((hlisted _).mpr ⟨d, hd⟩)
  rw [passedBy, sum_tally LedgerEntry.other ((l.map LedgerEntry.other).toFinset ∪ cs.toFinset)
    fun e he _ _ => Finset.mem_union_left _ (List.mem_toFinset.mpr (List.mem_map_of_mem he))]
  rw [Finset.sum_congr rfl fun y _ => hpaired (x, y), ← List.sum_toFinset _ (h.nodup x cs hx)]
  rw [← Finset.sum_congr rfl fun y hy => hchild y (List.mem_toFinset.mp hy)]
  refine (Finset.sum_subset Finset.subset_union_right fun y _ hy => ?_).symm
  exact hnone y fun hm => hy (List.mem_toFinset.mpr hm)

/-! ### Units of work -/

namespace Governor

variable {w : World} {unit : Unit} {g t : Governor} {p : Pending}

/-- What a transaction has posted of lines that move no money between scopes is paired. -/
theorem paired_of_posted {q q' : Pending} {lines : List LedgerLine} {es : List LedgerEntry}
    (posted : Posted w q lines es q')
    (hlines : ∀ line ∈ lines, line.entryType.isBalanced = false) : Paired es := by
  refine paired_of_unbalanced fun e he => ?_
  obtain ⟨line, hl, hr⟩ := posted.exists_line he
  rw [hr.kind]
  exact hlines line hl

/-- What a transaction has posted of a debit and a credit of one amount is paired. -/
theorem paired_of_lines {q q' : Pending} {kind : EntryType} {scope other note : Text}
    {amount : Decimal} {debit credit : LedgerEntry} (hkind : kind.isZeroValue = false)
    (posted : Posted w q [Op.line kind .debit scope amount (some other) note none,
      Op.line kind .credit other amount (some scope) note none] [debit, credit] q') :
    Paired [debit, credit] := by
  obtain ⟨hdebit, hcredits⟩ := List.forall₂_cons.mp posted.records
  have hcredit := (List.forall₂_cons.mp hcredits).1
  refine paired_pair ?_ hdebit.direction hcredit.direction ?_ ?_
    (hdebit.kind.trans hcredit.kind.symm)
  · rw [hdebit.worth hkind, hcredit.worth hkind]
    rfl
  · rw [hdebit.scope, LedgerEntry.other, hcredit.counterparty]
    rfl
  · rw [hcredit.scope, LedgerEntry.other, hdebit.counterparty]
    rfl

/-- A claim's lines move no money between scopes. -/
theorem unbalanced_claimLines {claim : SettlementClaim} {hold : Option Authorization}
    {line : LedgerLine} (h : line ∈ Op.claimLines claim hold) :
    line.entryType.isBalanced = false := by
  rcases (Op.mem_claimLines h).2 with ⟨kind, -⟩ | ⟨kind, -⟩ <;> rw [kind] <;> rfl

/-- Every unit of work writes both sides of what it moves between scopes. -/
theorem paired_maintained : Maintained w unit Paired := by
  intro g c c' p hg hwrote hp hP
  refine hP.append ?_
  cases hwrote with
  | nothing => exact paired_of_unbalanced fun e he => (List.not_mem_nil he).elim
  | funding posted =>
    rw [posted.entries_begin]
    exact paired_of_posted posted (by simp [Op.line, EntryType.isBalanced])
  | delegation n known active covered posted =>
    rw [posted.entries_begin]
    exact paired_of_lines rfl posted
  | release n known child covered posted =>
    rw [posted.entries_begin]
    exact paired_of_lines rfl posted
  | hold n known active covered posted =>
    rw [posted.entries_begin]
    exact paired_of_posted posted (by simp [Op.line, EntryType.isBalanced])
  | settlement opened settles =>
    cases settles with
    | settled release note pair latched =>
      rw [pair.entries_begin]
      exact paired_of_posted pair (by simp [Op.voiding, Op.line, EntryType.isBalanced])
    | tripped release trip note reason p₁ pair trips reasons =>
      rw [trips.entries, pair.entries_begin]
      exact (paired_of_posted pair (by simp [Op.voiding, Op.line, EntryType.isBalanced])).append
        (paired_of_posted trips (by simp [Staging.event, EntryType.isBalanced]))
  | void opened posted =>
    rw [posted.entries_begin]
    exact paired_of_posted posted (by simp [Op.voiding, Op.line, EntryType.isBalanced])
  | refund posted =>
    rw [posted.entries_begin]
    exact paired_of_posted posted (by simp [Op.line, EntryType.isBalanced])
  | anchor posted =>
    rw [posted.entries_begin]
    exact paired_of_posted posted (by simp [Staging.event, EntryType.isBalanced])
  | trip untripped posted =>
    rw [posted.entries_begin]
    exact paired_of_posted posted (by simp [Staging.event, EntryType.isBalanced])
  | reset tripped posted =>
    rw [posted.entries_begin]
    exact paired_of_posted posted (by simp [Staging.event, EntryType.isBalanced])
  | redemption books =>
    cases books with
    | anchored posted =>
      rw [posted.entries_begin]
      exact paired_of_posted posted (by simp [Staging.event, EntryType.isBalanced])
    | settled es posted last latched =>
      rw [posted.entries_begin]
      exact paired_of_posted posted fun line hl => unbalanced_claimLines hl
    | tripped es trip reason p₁ posted last trips =>
      rw [trips.entries, posted.entries_begin]
      exact (paired_of_posted posted fun line hl => unbalanced_claimLines hl).append
        (paired_of_posted trips (by simp [Staging.event, EntryType.isBalanced]))

end Governor

/-! ### What a state says of a branch -/

namespace ChainState

/-- The tree of a state. -/
def tree (s : ChainState) : Delegation.Tree where
  nodes := s.nodes.mapValues fun n => ⟨n.parentId, n.depth, n.childIds⟩
  roots := s.roots

/-- What the open holds of a scope keep back. -/
def held (s : ChainState) (scope : Text) : ℚ :=
  tally (fun h => h.worth.toRat) LedgerEntry.scopeId s.holds.values scope

/-- What a scope has spent, less what came back. -/
def netSpent (s : ChainState) (scope : Text) : ℚ :=
  (s.spentBy scope).toRat - (s.refundedTo scope).toRat

/-- `subtree_available`: what a scope and everything below it have available, over no more than
`fuel` scopes. -/
def subtreeAvailable (s : ChainState) (fuel : ℕ) (scope : Text) :
    Option (Except Exception Value) :=
  match s.tree.descendants fuel scope with
  | none => none
  | some (.error unknown) => some (.error (.unknownScope unknown))
  | some (.ok order) => some
      ((order.foldlM (fun total x => add total (s.balance x)) (s.balance scope)).mapError .rule)

theorem kids_tree (s : ChainState) (x : Text) :
    s.tree.kids x = (s.nodes.get? x).map BudgetNode.childIds := by
  rw [Delegation.Tree.kids, tree, Dict.get?_mapValues, Option.map_map]
  rfl

theorem parent_tree (s : ChainState) (x : Text) :
    s.tree.parent x = (s.nodes.get? x).bind fun n => n.parentId := by
  rw [Delegation.Tree.parent, tree, Dict.get?_mapValues, Option.bind_map]
  rfl

theorem depth_tree (s : ChainState) (x : Text) :
    s.tree.depth x = ((s.nodes.get? x).map fun n => (n.depth : ℤ)).getD 0 := by
  rw [Delegation.Tree.depth, tree, Dict.get?_mapValues, Option.map_map]
  rfl

end ChainState

/-- A state whose tree is that of a chain is a forest. -/
theorem forest_of_tended {s : ChainState} (hnodes : s.nodes = c.nodes) (h : Tended l c)
    (ht : TreeKept l c) : Forest s.tree.kids s.tree.parent s.tree.depth := by
  have hkids : ∀ x, s.tree.kids x = c.kids x := by
    intro x
    rw [s.kids_tree, hnodes, Chain.kids]
  have hplace : ∀ x p, (s.tree.kids x).isSome ∧ s.tree.parent x = some p ↔
      ∃ d, c.place x = some (some p, d) := by
    intro x p
    rw [hkids, s.parent_tree, hnodes, Chain.kids, Chain.place]
    cases c.nodes.get? x <;> simp
  refine ⟨fun p cs hp => h.nodup p cs (hkids p ▸ hp), fun p cs y hp => ?_, fun y p hy hp => ?_⟩
  · rw [hplace]
    exact h.listed p cs (hkids p ▸ hp) y
  · obtain ⟨d, hd⟩ := (hplace y p).mp ⟨hy, hp⟩
    obtain ⟨-, -, q, d', hq, rfl⟩ := ht.child y p d hd
    have hdepth : ∀ {x : Text} {r : Option Text × ℕ}, c.place x = some r →
        s.tree.depth x = r.2 := by
      intro x r hr
      obtain ⟨n, hn, -, hd⟩ := Chain.place_eq_some.mp hr
      rw [s.depth_tree, hnodes, hn, ← hd]
      rfl
    rw [hdepth hd, hdepth hq]
    push_cast
    rfl

/-- What finite amounts add up to, where they do. -/
theorem foldlM_add_toRat {f : Text → Value} {order : List Text} {a v : Value} (ha : a.IsFinite)
    (hf : ∀ x, (f x).IsFinite)
    (h : order.foldlM (fun total x => add total (f x)) a = .ok v) :
    v.toRat = a.toRat + (order.map fun x => (f x).toRat).sum := by
  induction order generalizing a with
  | nil =>
    cases h
    simp
  | cons x order ih =>
    rw [List.foldlM_cons] at h
    obtain ⟨b, hb, h⟩ := bind_eq_ok.mp h
    obtain ⟨hfinite, hsum⟩ := add_toRat ha (hf x) hb
    rw [ih hfinite h, hsum, List.map_cons, List.sum_cons, add_assoc]

/-- The books of a branch: of a scope of a governor, and of the scopes below it in breadth-first
order. -/
structure Governor.BranchBalances (g : Governor) (scope : Text) (n : BudgetNode)
    (order : List Text) : Prop where
  /-- The order is the one `descendants` gives. -/
  descends : g.ledger.state.tree.descendants g.ledger.state.nodes.keys.length scope =
    some (.ok order)
  /-- It is of the scopes below, each once. -/
  nodup : (scope :: order).Nodup
  below : ∀ x, x ∈ order ↔ g.ledger.state.tree.Under scope x
  /-- What the scope was granted and has not given back is what the branch has available, holds,
  and has spent. -/
  conserves : ((scope :: order).map fun x => (g.ledger.state.balance x).toRat +
    g.ledger.state.held x + g.ledger.state.netSpent x).sum =
      n.allocated.toRat - returnedBy g.ledger.entries scope
  /-- Where `subtree_available` returns, it returns the rest of that. -/
  available : ∀ v,
    g.ledger.state.subtreeAvailable g.ledger.state.nodes.keys.length scope = some (.ok v) →
      v.toRat = n.allocated.toRat - returnedBy g.ledger.entries scope -
        ((scope :: order).map fun x => g.ledger.state.held x + g.ledger.state.netSpent x).sum
  /-- Where no settlement has overdrawn its scope, the branch has spent no more than the scope was
  allocated. -/
  bounded : (∀ e ∈ g.ledger.entries, e.entryType = .spend → 0 ≤ e.balanceAfter.worth) →
    (∀ x, 0 ≤ g.ledger.state.balance x) ∧
      ((scope :: order).map g.ledger.state.netSpent).sum ≤ n.allocated.toRat

theorem toRat_nonneg {v : Value} (h : 0 ≤ v) : 0 ≤ v.toRat := by
  cases v with
  | finite q => exact Value.finite_le_finite.mp h
  | infinite s => exact le_rfl

/-- What a run's entries are worth is not negative. -/
theorem worth_nonneg_of_run {unit : Unit} {legacy : List ControlEvent}
    {find : UUID → Option LedgerEntry}
    (h : runAll (Rules.apply checkHash writing) (Chain.empty unit legacy find) l = .ok c) :
    ∀ e ∈ l, 0 ≤ e.worth := by
  intro e he
  obtain ⟨before, after, rfl⟩ := List.append_of_mem he
  obtain ⟨c₁, c₂, -, ha, -⟩ := Chain.run_split h
  exact ha.worth_nonneg

namespace Governor

variable {w : World} {unit : Unit} {g t : Governor}

/-- What a scope has of its own, as it is served. -/
theorem Sound.standing_eq (h : g.Sound w unit c) (x : Text) :
    (g.ledger.state.balance x).toRat + g.ledger.state.held x + g.ledger.state.netSpent x =
      c.standing x := by
  have hspent : g.ledger.state.spentBy x = c.spentBy x := by
    rw [ChainState.spentBy, Chain.spentBy, ← h.stands.alike.spent x]
    rfl
  have hrefunded : g.ledger.state.refundedTo x = c.refundedTo x := by
    rw [ChainState.refundedTo, Chain.refundedTo, ← h.stands.alike.refunded x]
    rfl
  rw [ChainState.held, ChainState.netSpent, h.holds_eq, h.balance_eq, hspent, hrefunded,
    Chain.standing, Chain.held]
  ring

/-- The balances of a governor are at or above zero where no settlement has overdrawn a scope. -/
theorem Sound.balance_nonneg (h : g.Sound w unit c) (hhalts : AllHalt g.ledger.entries)
    (hcovered : ∀ e ∈ g.ledger.entries, e.entryType = .spend → 0 ≤ e.balanceAfter.worth)
    (x : Text) : 0 ≤ g.ledger.state.balance x := by
  rw [h.balance_eq, ← not_lt, run_overdrawn h.run]
  intro hdrawn
  obtain ⟨e, he, kind, -, hbelow⟩ := exists_settlement h.run hhalts x hdrawn
  exact absurd hbelow (not_lt.mpr (hcovered e he kind))

/-- What is held of a scope is not negative. -/
theorem Sound.held_nonneg (h : g.Sound w unit c) (x : Text) : 0 ≤ g.ledger.state.held x := by
  refine List.sum_nonneg fun q hq => ?_
  obtain ⟨hold, hmem, rfl⟩ := List.mem_map.mp hq
  split_ifs
  · rw [h.holds_eq, Dict.mem_values_iff] at hmem
    obtain ⟨id, hid⟩ := hmem
    exact toRat_nonneg (worth_nonneg_of_run h.run hold (run_holds_known h.run id hold hid).1)
  · exact le_rfl

theorem Sound.returnedBy_nonneg (h : g.Sound w unit c) (scope : Text) :
    0 ≤ returnedBy g.ledger.entries scope := by
  refine List.sum_nonneg fun q hq => ?_
  obtain ⟨e, hmem, rfl⟩ := List.mem_map.mp hq
  split_ifs
  · unfold LedgerEntry.returned
    split_ifs
    · exact toRat_nonneg (worth_nonneg_of_run h.run e hmem)
    · exact le_rfl
  · exact le_rfl

/-- The books of every branch of a sound history balance. -/
theorem Sound.branchBalances (h : g.Sound w unit c) (hpaired : Paired g.ledger.entries)
    (hhalts : AllHalt g.ledger.entries) {scope : Text} {n : BudgetNode}
    (hn : g.ledger.state.nodes.get? scope = some n) : ∃ order, g.BranchBalances scope n order := by
  obtain ⟨hwhole, hstanding, htended, hallocated⟩ :=
    run_accounts h.run h.drawn.versions h.drawn.distinct
  have hforest := forest_of_tended h.nodes_eq htended (run_treeKept h.run)
  have hkids : ∀ x, g.ledger.state.tree.kids x = c.kids x := by
    intro x
    rw [ChainState.kids_tree, h.nodes_eq, Chain.kids]
  have hscope : g.ledger.state.tree.kids scope = some n.childIds := by
    rw [ChainState.kids_tree, hn]
    rfl
  obtain ⟨order, horder, hnodup, hbelow⟩ := hforest.breadthFirst_below
    g.ledger.state.nodes.keys (fun x hx => by
      rw [ChainState.kids_tree, Option.isSome_map] at hx
      exact Dict.mem_keys_iff.mpr (Option.isSome_iff_exists.mp hx)) hscope
  have hdescends : g.ledger.state.tree.descendants g.ledger.state.nodes.keys.length scope =
      some (.ok order) := by
    rw [Delegation.Tree.descendants, hscope]
    exact horder
  obtain ⟨-, hgranted⟩ := hallocated scope n (h.nodes_eq ▸ hn)
  have hconserves : ((scope :: order).map fun x => (g.ledger.state.balance x).toRat +
      g.ledger.state.held x + g.ledger.state.netSpent x).sum =
        n.allocated.toRat - returnedBy g.ledger.entries scope := by
    rw [sum_shares _ (grantedTo g.ledger.entries) hscope horder fun x hx => ?_]
    · rw [hgranted]
      ring
    · have hknown : (g.ledger.state.tree.kids x).isSome := by
        rcases List.mem_cons.mp hx with rfl | hx
        · rw [hscope]
          rfl
        · exact known_of_mem horder x hx
      obtain ⟨cs, hcs⟩ := Option.isSome_iff_exists.mp hknown
      rw [hcs, Option.getD_some, ← passedBy_eq hpaired htended (hkids x ▸ hcs), h.standing_eq,
        hstanding]
      ring
  have hsplit : ((scope :: order).map fun x => (g.ledger.state.balance x).toRat +
      g.ledger.state.held x + g.ledger.state.netSpent x).sum =
        ((scope :: order).map fun x => (g.ledger.state.balance x).toRat).sum +
          ((scope :: order).map fun x => g.ledger.state.held x +
            g.ledger.state.netSpent x).sum := by
    rw [← List.sum_map_add]
    exact congrArg List.sum (List.map_congr_left fun x _ => add_assoc _ _ _)
  refine ⟨order, hdescends, List.nodup_cons.mpr ⟨fun hmem => ?_, hnodup⟩, hbelow, hconserves,
    fun v hv => ?_, fun hcovered => ?_⟩
  · exact absurd (hforest.rank_lt ((hbelow scope).mp hmem)) (lt_irrefl _)
  · rw [ChainState.subtreeAvailable, hdescends] at hv
    have hfold := mapError_eq_ok.mp (Option.some.inj hv)
    have hsum := foldlM_add_toRat (f := g.ledger.state.balance)
      (by rw [h.balance_eq]; exact hwhole.balance scope)
      (fun x => by rw [h.balance_eq]; exact hwhole.balance x) hfold
    rw [← hconserves, hsplit, hsum, List.map_cons, List.sum_cons]
    ring
  · have hbalance := h.balance_nonneg hhalts hcovered
    refine ⟨hbalance, ?_⟩
    calc ((scope :: order).map g.ledger.state.netSpent).sum
        ≤ ((scope :: order).map fun x => (g.ledger.state.balance x).toRat +
            g.ledger.state.held x + g.ledger.state.netSpent x).sum := by
          refine List.sum_le_sum fun x _ => ?_
          have := toRat_nonneg (hbalance x)
          have := h.held_nonneg x
          linarith
      _ = n.allocated.toRat - returnedBy g.ledger.entries scope := hconserves
      _ ≤ n.allocated.toRat := sub_le_self _ (h.returnedBy_nonneg scope)

end Governor

/-! ### Runs -/

/-- The books of every branch balance, at every commit of every run of errands and at its end. -/
theorem branches_conserve (w : World) (unit : Unit) (policy : GovernancePolicy) (store : Bool)
    (errands : List Errand) (t : Governor)
    (served : (Governor.new unit policy store).attendAll w errands = .ok t)
    (distinct : w.Distinct t.draws) (u : Governor)
    (committed : u = t ∨ u ∈ (Governor.new unit policy store).commitsAll w errands) (scope : Text)
    (n : BudgetNode) (known : u.ledger.state.nodes.get? scope = some n) :
    ∃ order, u.BranchBalances scope n order := by
  have hg := Governor.Orderly.new w unit policy store
  have hm : Governor.Maintained w unit fun l => Paired l ∧ AllHalt l :=
    fun g c c' p hs hwrote hp hP => ⟨Governor.paired_maintained g c c' p hs hwrote hp hP.1,
      Governor.halts_maintained g c c' p hs hwrote hp hP.2⟩
  have hnew : (Governor.new unit policy store).Upholds w unit fun l => Paired l ∧ AllHalt l :=
    fun _ => ⟨⟨_, .new w unit policy store⟩, fun _ => rfl, along_nil _⟩
  obtain ⟨ht, hcommits⟩ := hnew.attendAll hm hg served
  have hu : u.Upholds w unit (fun l => Paired l ∧ AllHalt l) ∧ u.draws ≤ t.draws := by
    rcases committed with rfl | hmem
    · exact ⟨ht, Nat.le_refl _⟩
    · exact hcommits u hmem
  obtain ⟨⟨c, hc⟩, hpaired, hhalts⟩ := hu.1 (distinct.mono hu.2)
  exact hc.branchBalances hpaired hhalts known

/-- A root, a scope below it that holds some of what it was given, and one below that, which has
spent some. -/
def sampleBranch : List Errand :=
  [.alone (.call (.openRoot (txt "a") (wholeAmount 100) [])),
   .alone (.call (.delegate (txt "a") (txt "b") (wholeAmount 60) [] none)),
   .alone (.call (.delegate (txt "b") (txt "c") (wholeAmount 20) [] none)),
   .alone (.call (.spend (txt "c") (wholeAmount 5) [] none)),
   .alone (.call (.authorize (txt "b") (wholeAmount 10) [] none))]

theorem sampleBranch_serves : (((Governor.new USD samplePolicy true).attendAll sampleWorld
    sampleBranch).toOption.any fun t => decide (t.draws ≤ 2 ^ 128) &&
      (t.ledger.state.nodes.get? (txt "a")).any fun n => n.childIds = [txt "b"]) = true := by
  decide +kernel

theorem branches_conserve_sampleBranch : ∃ t n order,
    (Governor.new USD samplePolicy true).attendAll sampleWorld sampleBranch = .ok t ∧
      t.ledger.state.nodes.get? (txt "a") = some n ∧ n.childIds = [txt "b"] ∧
      t.BranchBalances (txt "a") n order := by
  obtain ⟨t, hserved, ht⟩ := (Option.any_eq_true _ _).mp sampleBranch_serves
  rw [Bool.and_eq_true, decide_eq_true_eq] at ht
  obtain ⟨n, hn, hchild⟩ := (Option.any_eq_true _ _).mp ht.2
  have hs := toOption_eq_some.mp hserved
  obtain ⟨order, horder⟩ := branches_conserve sampleWorld USD samplePolicy true sampleBranch t hs
    (sampleWorld_distinct ht.1) t (Or.inl rfl) (txt "a") n hn
  exact ⟨t, n, order, hs, hn, of_decide_eq_true hchild, horder⟩

end AgentGov
