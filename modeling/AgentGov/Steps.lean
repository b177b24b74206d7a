import AgentGov.Replay

/-!
# What an entry does

An entry the rules accept is taken apart once: `Chain.Applied` says everything that holds of the
entry and everything it changes in the flat view of the chain. Every invariant of a chain is
derived from it.

## Main definitions

* `AgentGov.HoldsStep`, `AgentGov.FlowsStep`, `AgentGov.GovernanceStep`: what an entry does to the
  holds, to a scope's lifetime totals, and to the delegation tree.
* `AgentGov.Applied`: everything an accepted entry does.

## Main results

* `AgentGov.applied_of_apply`: the rules accept an entry only in these ways.
* `AgentGov.Chain.replay_ok`: the run behind an accepted replay.
-/

open Foundation

namespace AgentGov

/-- What an entry's amount stands for, zero where it stands for nothing. -/
def LedgerEntry.worth (e : LedgerEntry) : Value := e.amount.value?.getD 0

/-- The amount an entry moves its scope's balance by. -/
def LedgerEntry.movement (e : LedgerEntry) : Value := e.signedAmount e.worth

/-- The frame after the transaction of an entry has begun. -/
def Frame.begin (f : Frame) (txn : UUID) : Frame :=
  if f.txn = some txn then f
  else if f.txn.isSome then { f with txn := some txn, settleable := [] }
  else { f with txn := some txn }

@[simp] theorem Frame.begin_txn (f : Frame) (txn : UUID) : (f.begin txn).txn = some txn := by
  unfold Frame.begin
  split_ifs with h
  · exact h
  · rfl
  · rfl

@[simp] theorem Frame.begin_net (f : Frame) (txn : UUID) : (f.begin txn).net = f.net := by
  unfold Frame.begin
  split_ifs <;> rfl

/-! ### The steps -/

/-- What an entry does to the holds of a chain, and to what refunds of a spend add up to.
`settleable` is what may be settled once the entry's transaction has begun. -/
inductive HoldsStep (c : Chain) (settleable : List UUID) (e : LedgerEntry) (c' : Chain) : Prop
  /-- A hold is placed. -/
  | place (kind : e.entryType = .hold)
      (unnamed : e.ref = none)
      (holds : c'.holds = c.holds.set e.entryId e)
      (counts : c'.holdCounts =
        Function.update c.holdCounts e.scopeId (c.holdCounts e.scopeId + 1))
      (settle : c'.frame.settleable = settleable)
      (refunds : c'.spendRefunds = c.spendRefunds)
  /-- The hold the entry names is released. -/
  | release (hold : LedgerEntry) (ref : UUID) (kind : e.entryType = .holdVoid)
      (version : e.version ≠ auditV1)
      (named : e.ref = some ref)
      (opened : c.holds.get? ref = some hold)
      (scope : hold.scopeId = e.scopeId)
      (amount : hold.amount.value? = some e.worth)
      (holds : c'.holds = c.holds.erase ref)
      (counts : c'.holdCounts =
        Function.update c.holdCounts e.scopeId (c.holdCounts e.scopeId - 1))
      (settle : c'.frame.settleable = ref :: settleable)
      (refunds : c'.spendRefunds = c.spendRefunds)
  /-- The first open hold of the entry's scope and amount is released. -/
  | releaseUnnamed (hold : LedgerEntry) (id : UUID) (kind : e.entryType = .holdVoid)
      (version : e.version = auditV1)
      (opened : c.holds.get? id = some hold)
      (scope : hold.scopeId = e.scopeId)
      (amount : hold.amount.value? = some e.worth)
      (holds : c'.holds = c.holds.erase id)
      (counts : c'.holdCounts =
        Function.update c.holdCounts e.scopeId (c.holdCounts e.scopeId - 1))
      (settle : c'.frame.settleable = settleable)
      (refunds : c'.spendRefunds = c.spendRefunds)
  /-- A spend, which settles no hold its transaction has not released. -/
  | spend (kind : e.entryType = .spend)
      (settles : ∀ ref, e.ref = some ref → ref ∈ settleable)
      (holds : c'.holds = c.holds)
      (counts : c'.holdCounts = c.holdCounts)
      (settle : c'.frame.settleable = settleable)
      (refunds : c'.spendRefunds = c.spendRefunds)
  /-- A refund of the spend the entry names. -/
  | reverse (spend : LedgerEntry) (ref : UUID) (spent refunded : Value)
      (kind : e.entryType = .reversal)
      (named : e.ref = some ref)
      (found : c.resolve ref = some spend)
      (ofSpend : spend.entryType = .spend)
      (scope : spend.scopeId = e.scopeId)
      (amount : spend.amount.value? = some spent)
      (sum : add (c.refundedOfSpend ref) e.worth = .ok refunded)
      (bound : refunded ≤ spent)
      (holds : c'.holds = c.holds)
      (counts : c'.holdCounts = c.holdCounts)
      (settle : c'.frame.settleable = settleable)
      (refunds : c'.spendRefunds = c.spendRefunds.set ref refunded)
  /-- An entry that concerns no hold and names nothing. -/
  | keep (kind : e.entryType ≠ .hold ∧ e.entryType ≠ .holdVoid ∧ e.entryType ≠ .spend)
      (unnamed : e.ref = none)
      (holds : c'.holds = c.holds)
      (counts : c'.holdCounts = c.holdCounts)
      (settle : c'.frame.settleable = settleable)
      (refunds : c'.spendRefunds = c.spendRefunds)

/-- What an entry does to the lifetime spend and refunds of its scope. -/
inductive FlowsStep (c : Chain) (e : LedgerEntry) (writing : Bool) (c' : Chain) : Prop
  | spend (spent : Value) (kind : e.entryType = .spend)
      (sum : add (c.spentBy e.scopeId) e.worth = .ok spent)
      (after : c'.spent = c.spent.set e.scopeId spent)
      (same : c'.refunded = c.refunded)
  | reversal (refunded : Value) (kind : e.entryType = .reversal)
      (sum : add (c.refundedTo e.scopeId) e.worth = .ok refunded)
      (bound : writing ∨ e.version = auditV3 → refunded ≤ c.spentBy e.scopeId)
      (after : c'.refunded = c.refunded.set e.scopeId refunded)
      (same : c'.spent = c.spent)
  | keep (kind : e.entryType ≠ .spend ∧ e.entryType ≠ .reversal)
      (spent : c'.spent = c.spent)
      (refunded : c'.refunded = c.refunded)

/-- The scope a funding or an allocation creates. -/
def LedgerEntry.created (e : LedgerEntry) (parentId : Option Text) (depth : ℕ) : Node where
  scopeId := e.scopeId
  parentId := parentId
  depth := depth
  allocated := e.worth
  createdAt := e.timestamp

/-- What an entry does to the delegation tree. -/
inductive GovernanceStep (c : Chain) (e : LedgerEntry) (c' : Chain) : Prop
  /-- A root is created. -/
  | root (kind : e.entryType = .funding)
      (new : c.nodes.get? e.scopeId = none)
      (nodes : c'.nodes = c.nodes.set e.scopeId { toNode := e.created none 0 })
      (roots : c'.roots = c.roots ++ [e.scopeId])
  /-- A root's allocation is raised. -/
  | raise (n : BudgetNode) (allocated : Value) (kind : e.entryType = .funding)
      (known : c.nodes.get? e.scopeId = some n)
      (isRoot : n.parentId = none)
      (sum : add n.allocated e.worth = .ok allocated)
      (nodes : c'.nodes = c.nodes.set e.scopeId { n with allocated := allocated })
      (roots : c'.roots = c.roots)
  /-- A scope is created under its counterparty. -/
  | child (parent : BudgetNode) (kind : e.entryType = .allocation)
      (direction : e.direction = .credit)
      (new : c.nodes.get? e.scopeId = none)
      (known : c.nodes.get? (e.counterpartyId.getD []) = some parent)
      (nodes : c'.nodes = c.nodesWithChild parent.scopeId
        (e.created (some parent.scopeId) (parent.depth + 1)))
      (roots : c'.roots = c.roots)
  /-- Money is released between a child and its parent: by the child, or to the parent. -/
  | release (n child : BudgetNode) (kind : e.entryType = .release)
      (known : c.nodes.get? e.scopeId = some n)
      (between : (e.direction = .debit ∧ child = n ∧
          child.parentId = some (e.counterpartyId.getD [])) ∨
        (e.direction = .credit ∧ c.nodes.get? (e.counterpartyId.getD []) = some child ∧
          child.parentId = some e.scopeId))
      (nodes : c'.nodes = c.nodes)
      (roots : c'.roots = c.roots)
  /-- Any other entry that belongs to a scope, which the chain must have created. -/
  | other (n : BudgetNode) (kind : e.entryType ≠ .funding ∧ e.entryType ≠ .release)
      (credit : e.entryType = .allocation → e.direction = .debit)
      (inScope : e.entryType.isScopeless = false)
      (known : c.nodes.get? e.scopeId = some n)
      (nodes : c'.nodes = c.nodes)
      (roots : c'.roots = c.roots)
  /-- A seal or a checkpoint. -/
  | scopeless (kind : e.entryType.isScopeless = true)
      (nodes : c'.nodes = c.nodes)
      (roots : c'.roots = c.roots)

/-- A step is about the scopes and the roots alone. -/
theorem GovernanceStep.transfer {c d c' d' : Chain} {e : LedgerEntry} (h : GovernanceStep c e c')
    (hn : c.nodes = d.nodes) (hr : c.roots = d.roots) (hn' : c'.nodes = d'.nodes)
    (hr' : c'.roots = d'.roots) : GovernanceStep d e d' := by
  have hchild : ∀ parent n, c.nodesWithChild parent n = d.nodesWithChild parent n := by
    intro parent n
    simp only [Chain.nodesWithChild, hn]
  cases h with
  | root kind new nodes roots =>
    exact .root kind (hn ▸ new) (by rw [← hn', nodes, hn]) (by rw [← hr', roots, hr])
  | raise n allocated kind known isRoot sum nodes roots =>
    exact .raise n allocated kind (hn ▸ known) isRoot sum (by rw [← hn', nodes, hn])
      (by rw [← hr', roots, hr])
  | child parent kind direction new known nodes roots =>
    exact .child parent kind direction (hn ▸ new) (hn ▸ known) (by rw [← hn', nodes, hchild])
      (by rw [← hr', roots, hr])
  | release n child kind known between nodes roots =>
    exact .release n child kind (hn ▸ known) (hn ▸ between) (by rw [← hn', nodes, hn])
      (by rw [← hr', roots, hr])
  | other n kind credit inScope known nodes roots =>
    exact .other n kind credit inScope (hn ▸ known) (by rw [← hn', nodes, hn])
      (by rw [← hr', roots, hr])
  | scopeless kind nodes roots =>
    exact .scopeless kind (by rw [← hn', nodes, hn]) (by rw [← hr', roots, hr])

/-- What an entry of a kind does to the boundary totals. -/
structure TotalsStep (t : Totals) (kind : EntryType) (amount : Value) (t' : Totals) : Prop where
  funded : if kind = .funding then add t.funded amount = .ok t'.funded else t'.funded = t.funded
  spent : if kind = .spend then add t.spent amount = .ok t'.spent else t'.spent = t.spent
  reversed : if kind = .reversal then add t.reversed amount = .ok t'.reversed
    else t'.reversed = t.reversed
  holdsOpen : if kind = .hold then add t.holdsOpen amount = .ok t'.holdsOpen
    else if kind = .holdVoid then subtract t.holdsOpen amount = .ok t'.holdsOpen
    else t'.holdsOpen = t.holdsOpen

/-- The trips after an entry, where no control events are kept outside the chain. -/
def tripsAfter (tripped : Text → Option Trip) (e : LedgerEntry) : Text → Option Trip :=
  match e.entryType with
  | .circuitTripped => Function.update tripped e.scopeId (some (e.timestamp, e.memo))
  | .circuitReset => Function.update tripped e.scopeId none
  | _ => tripped

/-- Everything that holds of an entry the rules accept, and everything it changes. -/
structure Applied (checkHash writing : Bool) (c : Chain) (e : LedgerEntry) (c' : Chain) :
    Prop where
  sequence : e.sequence = (c.core.length + 1 : ℕ)
  prevHash : e.prevHash = c.core.head
  known : e.version ∈ knownVersions
  hash : checkHash = true → e.recomputeHash = .ok e.entryHash
  oldVersion : e.version = auditV1 → e.ref = none ∧ e.entryType.isZeroValue = false
  newVersion : e.version ≠ auditV1 → c'.core.sawV2 = true
  direction : e.direction ∈ e.entryType.legalDirections
  texts : e.version = auditV3 → checkTexts e.scopeId e.counterpartyId e.memo = none
  time : e.version = auditV3 → ∀ last, c.core.lastTimestamp = some last → last ≤ e.timestamp
  amount : e.amount.value? = some e.worth
  amount_pos : e.entryType.isZeroValue = false → 0 < e.worth
  amount_zero : e.entryType.isZeroValue = true → e.worth = 0
  whole : e.entryType.isZeroValue = false → counted e.amount c.unit = .ok true
  inScope : e.entryType.isZeroValue = true → (e.scopeId = [] ↔ e.entryType.isScopeless = true)
  balanced : c.frame.txn.isSome → c.frame.txn ≠ some e.transactionId → c.frame.net = 0
  txn : c'.frame.txn = some e.transactionId
  balance : ∃ after, add (c.balance e.scopeId) e.movement = .ok after ∧
    e.balanceAfter.value? = some after ∧
    c'.balances = if e.entryType.isZeroValue then c.balances else c.balances.set e.scopeId after
  net : if e.entryType.isBalanced then add c.frame.net e.movement = .ok c'.frame.net
    else c'.frame.net = c.frame.net
  holds : HoldsStep c (c.frame.begin e.transactionId).settleable e c'
  flows : FlowsStep c e writing c'
  governance : GovernanceStep c e c'
  tripped : c.core.legacy = [] → c'.tripped = tripsAfter c.tripped e
  totals : TotalsStep c.core.totals e.entryType e.worth c'.core.totals
  frontier : frontierAppend c.core.frontier c.core.length e.entryHash = .ok c'.core.frontier
  head : c'.core.head = e.entryHash
  length : c'.core.length = c.core.length + 1
  lastTimestamp : c'.core.lastTimestamp = some e.timestamp
  unit : c'.unit = c.unit
  resolve : c'.resolve = c.resolve
  legacy : c'.core.legacy = c.core.legacy

/-! ### The rules, taken apart -/

namespace Rules

variable {c c' : Chain} {e : LedgerEntry} {amount : Value}

theorem checkLink_ok {checkHash : Bool} {u : PUnit} (h : checkLink c e checkHash = .ok u) :
    e.sequence = (c.core.length + 1 : ℕ) ∧ e.prevHash = c.core.head ∧
      e.version ∈ knownVersions ∧ (checkHash = true → e.recomputeHash = .ok e.entryHash) := by
  simp only [checkLink, View.core, refuse] at h
  split_ifs at h with h₁ h₂ h₃ h₄
  · refine ⟨not_not.mp h₁, not_not.mp h₂, h₃, fun _ => ?_⟩
    split at h
    · cases h
    · cases h
    · cases h
    · rename_i digest hd
      split_ifs at h with hne
      rw [hd, not_not.mp hne]
  · exact ⟨not_not.mp h₁, not_not.mp h₂, h₃, fun hc => absurd hc h₄⟩

theorem checkVersion_ok (h : checkVersion c e = .ok c') :
    ∃ v₁ v₂ v₃, c' = { c with core := { c.core with sawV1 := v₁, sawV2 := v₂, sawV3 := v₃ } } ∧
      (e.version = auditV1 → e.ref = none ∧ e.entryType.isZeroValue = false) ∧
      (e.version ≠ auditV1 → v₂ = true) := by
  simp only [checkVersion, View.core, View.setCore, refuse] at h
  split_ifs at h with h₁ h₂ h₃ h₄ h₅ h₆ h₇
  · cases h
    exact ⟨true, _, _, rfl, fun _ => ⟨by simpa using h₃, by simpa using h₄⟩,
      fun hv => absurd h₁ hv⟩
  · cases h
    exact ⟨_, true, true, rfl, fun hv => absurd hv h₁, fun _ => rfl⟩
  · cases h
    exact ⟨_, true, _, rfl, fun hv => absurd hv h₁, fun _ => rfl⟩

theorem checkCheckpoint_ok (h : checkCheckpoint c e = .ok c') :
    ∃ cp, c' = { c with core := { c.core with lastCheckpoint := cp } } := by
  simp only [checkCheckpoint, View.core, View.setCore, refuse] at h
  split at h
  · cases h
  · obtain ⟨n, -, h⟩ := bind_eq_ok.mp h
    split_ifs at h
    split at h
    · cases h
      exact ⟨_, rfl⟩
    · split_ifs at h
      cases h
      exact ⟨_, rfl⟩

theorem checkAmount_ok {unit : Unit} (h : checkAmount unit e = .ok amount) :
    e.amount.value? = some amount ∧ 0 < amount ∧ counted e.amount unit = .ok true := by
  unfold checkAmount at h
  split at h
  · cases h
  · rename_i v hv
    split_ifs at h with hpos
    obtain ⟨whole, hw, h⟩ := bind_eq_ok.mp h
    split_ifs at h with hwhole
    · cases h
      subst hwhole
      exact ⟨hv, not_le.mp hpos, hw⟩

theorem equals_ok {d : Decimal} {v : Value} (h : equals d v = .ok true) : d.value? = some v := by
  unfold equals at h
  split at h
  · cases h
  · simpa using h

theorem checkZeroValue_ok (h : checkZeroValue c e = .ok c') :
    (∃ cp, c' = { c with core := { c.core with lastCheckpoint := cp } }) ∧
      e.amount.value? = some 0 ∧ (e.scopeId = [] ↔ e.entryType.isScopeless = true) := by
  simp only [checkZeroValue, refuse] at h
  obtain ⟨zero, hz, h⟩ := bind_eq_ok.mp h
  have hsame : ∃ cp, c = { c with core := { c.core with lastCheckpoint := cp } } :=
    ⟨c.core.lastCheckpoint, rfl⟩
  cases zero with
  | false => simp at h
  | true =>
    refine ⟨?_, equals_ok hz, ?_⟩
    · split_ifs at h <;> first | (cases h; exact hsame) | exact checkCheckpoint_ok h
    · split_ifs at h <;> simp_all

theorem worth_eq {v : Value} (h : e.amount.value? = some v) : e.worth = v := by
  rw [LedgerEntry.worth, h]
  rfl

theorem checkV3_ok {u : PUnit} (h : checkV3 c e = .ok u) :
    checkTexts e.scopeId e.counterpartyId e.memo = none ∧
      ∀ last, c.core.lastTimestamp = some last → last ≤ e.timestamp := by
  simp only [checkV3, View.core, refuse] at h
  split at h
  · cases h
  · rename_i ht
    refine ⟨ht, fun last hl => ?_⟩
    rw [hl] at h
    dsimp only at h
    split_ifs at h with hlt
    exact Instant.not_lt.mp hlt

theorem checkShape_ok (h : checkShape c e = .ok (c', amount)) :
    (∃ cp, c' = { c with core := { c.core with lastCheckpoint := cp } }) ∧ amount = e.worth ∧
      e.direction ∈ e.entryType.legalDirections ∧
      (e.version = auditV3 → checkTexts e.scopeId e.counterpartyId e.memo = none ∧
        ∀ last, c.core.lastTimestamp = some last → last ≤ e.timestamp) ∧
      e.amount.value? = some e.worth ∧
      (e.entryType.isZeroValue = false → 0 < e.worth ∧ counted e.amount c.unit = .ok true) ∧
      (e.entryType.isZeroValue = true →
        e.worth = 0 ∧ (e.scopeId = [] ↔ e.entryType.isScopeless = true)) := by
  unfold checkShape at h
  split at h
  · cases h
  · rename_i hd
    obtain ⟨u, hu, h⟩ := bind_eq_ok.mp h
    have h₃ : e.version = auditV3 → checkV3 c e = .ok ⟨⟩ := by
      intro hv
      rwa [checkFormat, if_pos hv] at hu
    split_ifs at h with hz
    · obtain ⟨c₁, hc, h⟩ := bind_eq_ok.mp h
      cases h
      obtain ⟨hcore, hv, hs⟩ := checkZeroValue_ok hc
      have hw := worth_eq hv
      refine ⟨hcore, hw.symm, by simpa using hd, fun hv => checkV3_ok (h₃ hv), ?_, ?_, ?_⟩
      · rw [hw, hv]
      · simp [hz]
      · exact fun _ => ⟨hw, hs⟩
    · obtain ⟨v, hv, h⟩ := bind_eq_ok.mp h
      cases h
      obtain ⟨ha, hpos, hc⟩ := checkAmount_ok hv
      have hw := worth_eq ha
      refine ⟨⟨c.core.lastCheckpoint, rfl⟩, hw.symm, by simpa using hd,
        fun hv => checkV3_ok (h₃ hv), ?_, ?_, ?_⟩
      · rw [hw, ha]
      · exact fun _ => ⟨by rw [hw]; exact hpos, hc⟩
      · exact fun hz' => absurd hz' hz

theorem endTransaction_ok (h : endTransaction c = .ok c') :
    c.frame.net = 0 ∧ c' = { c with frame := { c.frame with txn := none, settleable := [] } } := by
  simp only [endTransaction, View.frame, View.setFrame, refuse] at h
  split_ifs at h with hn
  cases h
  exact ⟨not_not.mp hn, rfl⟩

theorem beginTransaction_ok (h : beginTransaction c e = .ok c') :
    c' = { c with frame := c.frame.begin e.transactionId } ∧
      (c.frame.txn.isSome → c.frame.txn ≠ some e.transactionId → c.frame.net = 0) := by
  simp only [beginTransaction, leaveTransaction, View.frame, View.setFrame] at h
  by_cases ht : c.frame.txn = some e.transactionId
  · rw [if_pos ht] at h
    cases h
    exact ⟨by rw [Frame.begin, if_pos ht], fun _ hne => absurd ht hne⟩
  · rw [if_neg ht] at h
    obtain ⟨c₁, h₁, h⟩ := bind_eq_ok.mp h
    cases h
    by_cases hs : c.frame.txn.isSome = true
    · rw [if_pos hs] at h₁
      obtain ⟨hn, rfl⟩ := endTransaction_ok h₁
      exact ⟨by rw [Frame.begin, if_neg ht, if_pos hs], fun _ _ => hn⟩
    · rw [if_neg hs] at h₁
      cases h₁
      exact ⟨by rw [Frame.begin, if_neg ht, if_neg hs], fun hs' => absurd hs' hs⟩

theorem moveMoney_ok (h : moveMoney c e amount = .ok c') :
    ∃ after net, add (c.balance e.scopeId) (e.signedAmount amount) = .ok after ∧
      e.balanceAfter.value? = some after ∧
      (if e.entryType.isBalanced then add c.frame.net (e.signedAmount amount) = .ok net
        else net = c.frame.net) ∧
      c' = { c with
        balances := if e.entryType.isZeroValue then c.balances else
          c.balances.set e.scopeId after
        frame := { c.frame with net := net } } := by
  unfold moveMoney at h
  obtain ⟨after, hadd, h⟩ := bind_eq_ok.mp h
  obtain ⟨agrees, heq, h⟩ := bind_eq_ok.mp h
  cases agrees with
  | false => simp at h
  | true =>
    simp only [not_true_eq_false, if_false] at h
    by_cases hz : e.entryType.isZeroValue = true
    · have hb : e.entryType.isBalanced = false := by
        revert hz
        cases e.entryType <;> simp [EntryType.isZeroValue, EntryType.isBalanced]
      simp only [hz, hb, if_true, Bool.false_eq_true, if_false] at h
      cases h
      exact ⟨after, c.frame.net, hadd, equals_ok heq, by simp [hb], by simp [hz]⟩
    · by_cases hb : e.entryType.isBalanced = true
      · simp only [hz, hb, if_true, Bool.false_eq_true, if_false] at h
        obtain ⟨net, hnet, h⟩ := bind_eq_ok.mp h
        cases h
        exact ⟨after, net, hadd, equals_ok heq, by rw [if_pos hb]; exact hnet,
          by simp [hz]; rfl⟩
      · simp only [hz, hb, Bool.false_eq_true, if_false] at h
        cases h
        exact ⟨after, c.frame.net, hadd, equals_ok heq, by simp [hb], by simp [hz]; rfl⟩

theorem releaseNamed_ok (kind : e.entryType = .holdVoid) (version : e.version ≠ auditV1)
    (h : releaseNamed c e e.worth = .ok c') :
    ∃ holds counts settleable, c' = { c with
        holds := holds, holdCounts := counts,
        frame := { c.frame with settleable := settleable } } ∧
      HoldsStep c c.frame.settleable e c' := by
  unfold releaseNamed at h
  split at h
  · cases h
  · rename_i ref hr
    cases ho : c.holds.get? ref with
    | none =>
      have hv : View.openHold c ref = none := by
        change (c.holds.get? ref).map _ = none
        rw [ho]
        rfl
      simp only [hv] at h
      cases h
    | some hold =>
      have hv : View.openHold c ref = some hold.held := by
        change (c.holds.get? ref).map _ = _
        rw [ho]
        rfl
      simp only [hv, LedgerEntry.held, refuse] at h
      split_ifs at h with hs ha
      cases h
      refine ⟨_, _, _, rfl, .release hold ref kind version hr ho ?_ ?_ rfl ?_ rfl rfl⟩
      · exact not_not.mp hs
      · exact not_not.mp ha
      · rw [← not_not.mp hs]
        rfl

theorem releaseUnnamed_ok (kind : e.entryType = .holdVoid) (version : e.version = auditV1)
    (h : releaseUnnamed c e e.worth = .ok c') :
    ∃ holds counts ambiguous, c' = { c with
        holds := holds, holdCounts := counts, ambiguous := ambiguous } ∧
      HoldsStep c c.frame.settleable e c' := by
  unfold releaseUnnamed at h
  split at h
  · rename_i id scope x hf
    cases h
    have hmem := List.mem_of_find?_eq_some hf
    have hkey := List.find?_some hf
    simp only [decide_eq_true_eq, Prod.mk.injEq] at hkey
    obtain ⟨rfl, rfl⟩ := hkey
    obtain ⟨⟨id', hold⟩, hp, heq⟩ := List.mem_map.mp hmem
    simp only [LedgerEntry.held, Prod.mk.injEq] at heq
    obtain ⟨rfl, hs, ha⟩ := heq
    exact ⟨_, _, _, rfl, .releaseUnnamed hold id' kind version (Dict.get?_eq_some_iff.mpr hp) hs ha
      rfl rfl rfl rfl⟩
  · cases h

theorem reverseNamed_ok {ref : UUID} (kind : e.entryType = .reversal) (named : e.ref = some ref)
    (h : reverseNamed c e ref e.worth = .ok c') :
    ∃ refunds, c' = { c with spendRefunds := refunds } ∧
      HoldsStep c c.frame.settleable e c' := by
  unfold reverseNamed at h
  split at h
  · cases h
  · rename_i spend hf
    simp only [refuse] at h
    split_ifs at h with hk hs
    obtain ⟨before, hb, h⟩ := bind_eq_ok.mp h
    cases hb
    obtain ⟨refunded, hr, h⟩ := bind_eq_ok.mp h
    split at h
    · cases h
    · rename_i spent hv
      split_ifs at h with hle
      cases h
      exact ⟨_, rfl, .reverse spend ref spent refunded kind named hf (not_not.mp hk)
        (not_not.mp hs) hv hr (not_lt.mp hle) rfl rfl rfl rfl⟩

theorem checkHolds_ok (h : checkHolds c e e.worth = .ok c') :
    ∃ holds counts ambiguous settleable refunds, c' = { c with
        holds := holds, holdCounts := counts, ambiguous := ambiguous,
        frame := { c.frame with settleable := settleable }, spendRefunds := refunds } ∧
      HoldsStep c c.frame.settleable e c' := by
  unfold checkHolds at h
  by_cases hnamed : e.ref.isSome = true ∧ ¬(if e.version = auditV3 then
      e.entryType.isV3Referencing else e.entryType.isReferencing) = true
  · rw [if_pos hnamed] at h
    cases h
  · rw [if_neg hnamed] at h
    have unnamed : e.entryType.isV3Referencing = false → e.ref = none := by
      intro hk
      by_contra hne
      refine hnamed ⟨Option.isSome_iff_ne_none.mpr hne, ?_⟩
      split
      · simp [hk]
      · revert hk
        cases e.entryType <;> simp [EntryType.isV3Referencing, EntryType.isReferencing]
    split at h
    · rename_i kind
      cases h
      refine ⟨_, _, _, _, _, rfl, .place kind (unnamed (by rw [kind]; rfl)) rfl ?_ rfl rfl⟩
      rfl
    · rename_i kind
      split at h
      · rename_i version
        obtain ⟨holds, counts, amb, rfl, hstep⟩ := releaseUnnamed_ok kind version h
        exact ⟨_, _, _, _, _, rfl, hstep⟩
      · rename_i version
        obtain ⟨holds, counts, settleable, rfl, hstep⟩ := releaseNamed_ok kind version h
        exact ⟨_, _, _, _, _, rfl, hstep⟩
    · rename_i kind
      split at h
      · rename_i hr
        cases h
        exact ⟨_, _, _, _, _, rfl, .spend kind (fun ref hr' => by rw [hr] at hr'; cases hr')
          rfl rfl rfl rfl⟩
      · rename_i ref hr
        split at h
        · rename_i hm
          cases h
          refine ⟨_, _, _, _, _, rfl, .spend kind (fun ref' hr' => ?_) rfl rfl rfl rfl⟩
          rw [hr] at hr'
          cases hr'
          exact hm
        · cases h
    · rename_i kind
      split at h
      · rename_i hr
        cases h
        exact ⟨_, _, _, _, _, rfl, .keep (by simp [kind]) hr rfl rfl rfl rfl⟩
      · rename_i ref hr
        obtain ⟨refunds, rfl, hstep⟩ := reverseNamed_ok kind hr h
        exact ⟨_, _, _, _, _, rfl, hstep⟩
    · rename_i k₁ k₂ k₃ k₄
      cases h
      refine ⟨_, _, _, _, _, rfl, .keep ⟨k₁, k₂, k₃⟩ (unnamed ?_) rfl rfl rfl rfl⟩
      revert k₂ k₃ k₄
      cases e.entryType <;> simp [EntryType.isV3Referencing]

theorem checkFlows_ok {writing : Bool} (h : checkFlows c e e.worth writing = .ok c') :
    ∃ spent refunded, c' = { c with spent := spent, refunded := refunded } ∧
      FlowsStep c e writing c' := by
  unfold checkFlows at h
  split at h
  · rename_i kind
    obtain ⟨spent, hs, h⟩ := bind_eq_ok.mp h
    cases h
    exact ⟨_, _, rfl, .spend spent kind hs rfl rfl⟩
  · rename_i kind
    obtain ⟨refunded, hr, h⟩ := bind_eq_ok.mp h
    simp only [refuse] at h
    split_ifs at h with hb
    cases h
    refine ⟨_, _, rfl, .reversal refunded kind hr (fun hv => ?_) rfl rfl⟩
    exact not_lt.mp fun hlt => hb ⟨by simpa using hv, hlt⟩
  · rename_i k₁ k₂
    cases h
    exact ⟨_, _, rfl, .keep ⟨k₁, k₂⟩ rfl rfl⟩

theorem node_eq (c : Chain) (scope : Text) :
    View.node c scope = (c.nodes.get? scope).map BudgetNode.toNode := rfl

theorem control_ok {eventType scope reason : Text} {timestamp : Instant}
    (h : control c eventType scope timestamp reason = .ok c') :
    (∃ n, c.nodes.get? scope = some n) ∧ c' = { c with
      tripped := if eventType = EntryType.circuitTripped.text then
          Function.update c.tripped scope (some (timestamp, reason))
        else if eventType = EntryType.circuitReset.text then
          Function.update c.tripped scope none
        else c.tripped } := by
  unfold control at h
  split at h
  · cases h
  · rename_i hn
    refine ⟨?_, ?_⟩
    · rw [← Option.isSome_iff_exists]
      simpa [node_eq, Option.isSome_iff_ne_none] using hn
    · split_ifs at h ⊢ <;> (cases h; rfl)

theorem applyLegacy_ok (h : applyLegacy c = .ok c') :
    ∃ tripped, c' = { c with core := { c.core with legacyApplied := true }, tripped := tripped } ∧
      (c.core.legacy = [] → tripped = c.tripped) := by
  unfold applyLegacy at h
  refine ⟨c'.tripped, ?_, fun hl => ?_⟩
  · refine runAll_induction (motive := fun (_ : List ControlEvent) (c' : Chain) =>
      c' = { c with core := { c.core with legacyApplied := true }, tripped := c'.tripped })
      rfl ?_ h
    intro l event t r _ ht hr
    obtain ⟨-, rfl⟩ := control_ok hr
    rw [ht]
  · simp only [View.core, hl, runAll_nil, Except.ok.injEq] at h
    rw [← h]
    rfl

theorem foldLegacy_ok (h : foldLegacy c e = .ok c') :
    ∃ applied tripped,
      c' = { c with core := { c.core with legacyApplied := applied }, tripped := tripped } ∧
        (c.core.legacy = [] → tripped = c.tripped) := by
  unfold foldLegacy at h
  split at h
  · obtain ⟨u, -, h⟩ := bind_eq_ok.mp h
    obtain ⟨tripped, hc, ht⟩ := applyLegacy_ok h
    exact ⟨true, tripped, hc, ht⟩
  · cases h
    exact ⟨c.core.legacyApplied, c.tripped, rfl, fun _ => rfl⟩

theorem require_ok {scope : Text} {n : Node} (h : require c scope e = .ok n) :
    ∃ m, c.nodes.get? scope = some m ∧ m.toNode = n := by
  unfold require at h
  split at h
  · cases h
  · rename_i m hm
    cases h
    simpa [node_eq] using hm

theorem fund_ok (kind : e.entryType = .funding) (h : fund c e e.worth = .ok c') :
    ∃ nodes roots, c' = { c with nodes := nodes, roots := roots } ∧ GovernanceStep c e c' := by
  unfold fund at h
  split at h
  · rename_i hn
    cases h
    exact ⟨_, _, rfl, .root kind (by simpa [node_eq] using hn) rfl rfl⟩
  · rename_i n hn
    obtain ⟨m, hm, rfl⟩ : ∃ m, c.nodes.get? e.scopeId = some m ∧ m.toNode = n := by
      simpa [node_eq] using hn
    split at h
    · cases h
    · rename_i hroot
      obtain ⟨allocated, ha, h⟩ := bind_eq_ok.mp h
      cases h
      refine ⟨(c.nodes.set e.scopeId { m with allocated := allocated }), c.roots, ?_, ?_⟩
      · simp only [View.setAllocated, hm]
      · refine .raise m allocated kind hm (by simpa using hroot) ha ?_ rfl
        simp only [View.setAllocated, hm]

theorem allocate_ok (kind : e.entryType = .allocation)
    (direction : e.direction ∈ e.entryType.legalDirections) (h : allocate c e e.worth = .ok c') :
    ∃ nodes, c' = { c with nodes := nodes } ∧ GovernanceStep c e c' := by
  unfold allocate at h
  split at h
  · rename_i hd
    obtain ⟨n, hn, h⟩ := bind_eq_ok.mp h
    cases h
    obtain ⟨m, hm, -⟩ := require_ok hn
    exact ⟨_, rfl, .other m (by simp [kind]) (fun _ => hd) (by rw [kind]; rfl) hm rfl rfl⟩
  · rename_i hd
    have hcredit : e.direction = .credit := by
      rw [kind] at direction
      simpa [EntryType.legalDirections, hd] using direction
    split at h
    · cases h
    · rename_i hnew
      split at h
      · cases h
      · rename_i parent hp
        cases h
        obtain ⟨m, hm, rfl⟩ : ∃ m, c.nodes.get? (e.counterpartyId.getD []) = some m ∧
            m.toNode = parent := by simpa [node_eq] using hp
        exact ⟨_, rfl, .child m kind hcredit (by simpa [node_eq] using hnew) hm rfl rfl⟩

theorem releaseBetween_ok (kind : e.entryType = .release)
    (direction : e.direction ∈ e.entryType.legalDirections) (h : releaseBetween c e = .ok c') :
    c' = c ∧ GovernanceStep c e c' := by
  unfold releaseBetween at h
  obtain ⟨n, hn, h⟩ := bind_eq_ok.mp h
  obtain ⟨m, hm, rfl⟩ := require_ok hn
  dsimp only at h
  rw [kind] at direction
  by_cases hd : e.direction = .debit
  · simp only [hd, if_true] at h
    split at h
    · rename_i hp
      cases h
      exact ⟨rfl, .release m m kind hm (Or.inl ⟨hd, rfl, hp⟩) rfl rfl⟩
    · cases h
  · have hcredit : e.direction = .credit := by
      simpa [EntryType.legalDirections, hd] using direction
    simp only [hd, if_false] at h
    split at h
    · cases h
    · rename_i child hc
      split at h
      · rename_i hp
        cases h
        obtain ⟨k, hk, rfl⟩ : ∃ k, c.nodes.get? (e.counterpartyId.getD []) = some k ∧
            k.toNode = child := by simpa [node_eq] using hc
        exact ⟨rfl, .release m k kind hm (Or.inr ⟨hcredit, hk, hp⟩) rfl rfl⟩
      · cases h

theorem checkGovernance_ok (direction : e.direction ∈ e.entryType.legalDirections)
    (h : checkGovernance c e e.worth = .ok c') :
    ∃ applied tripped nodes roots, c' = { c with
        core := { c.core with legacyApplied := applied },
        tripped := tripped, nodes := nodes, roots := roots } ∧
      GovernanceStep c e c' ∧ (c.core.legacy = [] → tripped = tripsAfter c.tripped e) := by
  unfold checkGovernance at h
  obtain ⟨c₁, hf, h⟩ := bind_eq_ok.mp h
  obtain ⟨applied, tripped, rfl, ht⟩ := foldLegacy_ok hf
  have hother : ∀ n : Node, require { c with
      core := { c.core with legacyApplied := applied }, tripped := tripped } e.scopeId e = .ok n →
      ∃ m, c.nodes.get? e.scopeId = some m := by
    intro n hn
    obtain ⟨m, hm, -⟩ := require_ok hn
    exact ⟨m, hm⟩
  cases kind : e.entryType with
  | funding =>
    rw [kind] at h
    obtain ⟨nodes, roots, rfl, hg⟩ := fund_ok kind h
    exact ⟨_, _, _, _, rfl, hg.transfer rfl rfl rfl rfl, fun hl => by
      simp only [tripsAfter, kind]; exact ht hl⟩
  | allocation =>
    rw [kind] at h
    obtain ⟨nodes, rfl, hg⟩ := allocate_ok kind direction h
    exact ⟨_, _, _, _, rfl, hg.transfer rfl rfl rfl rfl, fun hl => by
      simp only [tripsAfter, kind]; exact ht hl⟩
  | release =>
    rw [kind] at h
    obtain ⟨rfl, hg⟩ := releaseBetween_ok kind direction h
    exact ⟨_, _, _, _, rfl, hg.transfer rfl rfl rfl rfl, fun hl => by
      simp only [tripsAfter, kind]; exact ht hl⟩
  | circuitTripped =>
    rw [kind] at h
    obtain ⟨c₂, hc, h⟩ := bind_eq_ok.mp h
    obtain ⟨⟨n, hn⟩, rfl⟩ := control_ok hc
    cases h
    refine ⟨_, _, _, _, rfl, .other n (by simp [kind]) (by simp [kind]) (by simp [kind,
      EntryType.isScopeless]) hn rfl rfl, fun hl => ?_⟩
    simp only [tripsAfter, kind, ht hl, if_true]
  | circuitReset =>
    rw [kind] at h
    obtain ⟨c₂, hc, h⟩ := bind_eq_ok.mp h
    obtain ⟨⟨n, hn⟩, rfl⟩ := control_ok hc
    cases h
    have hne : EntryType.circuitReset.text ≠ EntryType.circuitTripped.text :=
      fun h => EntryType.noConfusion (EntryType.text_injective h)
    refine ⟨_, _, _, _, rfl, .other n (by simp [kind]) (by simp [kind]) (by simp [kind,
      EntryType.isScopeless]) hn rfl rfl, fun hl => ?_⟩
    simp only [tripsAfter, kind, ht hl, if_neg hne, if_true]
  | migrationSeal | checkpoint =>
    rw [kind] at h
    cases h
    exact ⟨_, _, _, _, rfl, .scopeless (by rw [kind]; rfl) rfl rfl, fun hl => by
      simp only [tripsAfter, kind]; exact ht hl⟩
  | hold | holdVoid | spend | reversal | anchor =>
    rw [kind] at h
    obtain ⟨n, hn, h⟩ := bind_eq_ok.mp h
    cases h
    obtain ⟨m, hm⟩ := hother n hn
    exact ⟨_, _, _, _, rfl, .other m (by simp [kind]) (by simp [kind]) (by rw [kind]; rfl) hm
      rfl rfl, fun hl => by simp only [tripsAfter, kind]; exact ht hl⟩

theorem applyTotals_ok {t t' : Totals} {kind : EntryType} (h : applyTotals t kind amount = .ok t') :
    TotalsStep t kind amount t' := by
  cases kind <;> simp only [applyTotals, bind_eq_ok] at h <;>
    first
      | (obtain ⟨v, hv, h⟩ := h; cases h; constructor <;> simp [hv])
      | (cases h; constructor <;> simp)

theorem advance_ok (h : advance c e amount = .ok c') :
    ∃ totals frontier migrationSeal, TotalsStep c.core.totals e.entryType amount totals ∧
      frontierAppend c.core.frontier c.core.length e.entryHash = .ok frontier ∧
      c' = { c with
        migrationSeal := migrationSeal
        core := { c.core with
          totals := totals
          frontier := frontier
          head := e.entryHash
          length := c.core.length + 1
          lastTimestamp := some e.timestamp } } := by
  unfold advance at h
  obtain ⟨totals, ht, h⟩ := bind_eq_ok.mp h
  obtain ⟨frontier, hf, h⟩ := bind_eq_ok.mp h
  split at h
  · cases h
    exact ⟨totals, frontier, _, applyTotals_ok ht, hf, rfl⟩
  · cases h
    exact ⟨totals, frontier, _, applyTotals_ok ht, hf, rfl⟩

end Rules

/-- A step is about the holds alone. -/
theorem HoldsStep.transfer {c d c' d' : Chain} {s : List UUID} {e : LedgerEntry}
    (h : HoldsStep c s e c') (hd : d.holds = c.holds ∧ d.holdCounts = c.holdCounts ∧
      d.spendRefunds = c.spendRefunds ∧ d.resolve = c.resolve)
    (hd' : d'.holds = c'.holds ∧ d'.holdCounts = c'.holdCounts ∧
      d'.spendRefunds = c'.spendRefunds ∧ d'.frame.settleable = c'.frame.settleable) :
    HoldsStep d s e d' := by
  obtain ⟨h₁, h₂, h₃, h₄⟩ := hd
  obtain ⟨h₁', h₂', h₃', h₄'⟩ := hd'
  cases h with
  | place kind unnamed holds counts settle refunds =>
    refine .place kind unnamed ?_ ?_ ?_ ?_ <;> simp_all
  | release hold ref kind version named opened scope amount holds counts settle refunds =>
    refine .release hold ref kind version named ?_ scope amount ?_ ?_ ?_ ?_ <;> simp_all
  | releaseUnnamed hold id kind version opened scope amount holds counts settle refunds =>
    refine .releaseUnnamed hold id kind version ?_ scope amount ?_ ?_ ?_ ?_ <;> simp_all
  | spend kind settles holds counts settle refunds =>
    refine .spend kind settles ?_ ?_ ?_ ?_ <;> simp_all
  | reverse spend ref spent refunded kind named found ofSpend scope amount sum bound holds counts
      settle refunds =>
    have hr : d.refundedOfSpend ref = c.refundedOfSpend ref := by
      simp only [Chain.refundedOfSpend, h₃]
    exact .reverse spend ref spent refunded kind named (h₄ ▸ found) ofSpend scope amount
      (hr ▸ sum) bound (by rw [h₁', holds, h₁]) (by rw [h₂', counts, h₂]) (by rw [h₄', settle])
      (by rw [h₃', refunds, h₃])
  | keep kind unnamed holds counts settle refunds =>
    refine .keep kind unnamed ?_ ?_ ?_ ?_ <;> simp_all

/-- A step is about the lifetime totals alone. -/
theorem FlowsStep.transfer {c d c' d' : Chain} {e : LedgerEntry} {writing : Bool}
    (h : FlowsStep c e writing c') (hs : d.spent = c.spent) (hr : d.refunded = c.refunded)
    (hs' : d'.spent = c'.spent) (hr' : d'.refunded = c'.refunded) : FlowsStep d e writing d' := by
  have hspent : d.spentBy e.scopeId = c.spentBy e.scopeId := by
    simp only [Chain.spentBy, hs]
  have hrefunded : d.refundedTo e.scopeId = c.refundedTo e.scopeId := by
    simp only [Chain.refundedTo, hr]
  cases h with
  | spend spent kind sum after same =>
    exact .spend spent kind (hspent ▸ sum) (by rw [hs', after, hs]) (by rw [hr', same, hr])
  | reversal refunded kind sum bound after same =>
    exact .reversal refunded kind (hrefunded ▸ sum) (hspent ▸ bound) (by rw [hr', after, hr])
      (by rw [hs', same, hs])
  | keep kind spent refunded =>
    exact .keep kind (by rw [hs', spent, hs]) (by rw [hr', refunded, hr])

/-- The rules accept an entry only in these ways. -/
theorem applied_of_apply {checkHash writing : Bool} {c c' : Chain} {e : LedgerEntry}
    (h : Rules.apply checkHash writing c e = .ok c') : Applied checkHash writing c e c' := by
  unfold Rules.apply at h
  obtain ⟨_, hlink, h⟩ := bind_eq_ok.mp h
  obtain ⟨c₁, hversion, h⟩ := bind_eq_ok.mp h
  obtain ⟨⟨c₂, amount⟩, hshape, h⟩ := bind_eq_ok.mp h
  obtain ⟨c₃, hbegin, h⟩ := bind_eq_ok.mp h
  obtain ⟨c₄, hmoney, h⟩ := bind_eq_ok.mp h
  obtain ⟨c₅, hholds, h⟩ := bind_eq_ok.mp h
  obtain ⟨c₆, hflows, h⟩ := bind_eq_ok.mp h
  obtain ⟨c₇, hgov, h⟩ := bind_eq_ok.mp h
  obtain ⟨sequence, prevHash, known, hash⟩ := Rules.checkLink_ok hlink
  obtain ⟨v₁, v₂, v₃, rfl, oldVersion, newVersion⟩ := Rules.checkVersion_ok hversion
  obtain ⟨⟨cp, rfl⟩, rfl, direction, v3, amount, money, zero⟩ := Rules.checkShape_ok hshape
  obtain ⟨rfl, balanced⟩ := Rules.beginTransaction_ok hbegin
  obtain ⟨after, net, hadd, hafter, hnet, rfl⟩ := Rules.moveMoney_ok hmoney
  obtain ⟨holds, counts, ambiguous, settleable, refunds, rfl, hstep⟩ := Rules.checkHolds_ok hholds
  obtain ⟨spent, refunded, rfl, fstep⟩ := Rules.checkFlows_ok hflows
  obtain ⟨applied, tripped, nodes, roots, rfl, gstep, trips⟩ :=
    Rules.checkGovernance_ok direction hgov
  obtain ⟨totals, frontier, migrationSeal, htotals, hfrontier, rfl⟩ := Rules.advance_ok h
  exact {
    sequence, prevHash, known, hash, oldVersion, newVersion, direction, amount, balanced
    texts := fun hv => (v3 hv).1
    time := fun hv => (v3 hv).2
    amount_pos := fun hz => (money hz).1
    whole := fun hz => (money hz).2
    amount_zero := fun hz => (zero hz).1
    inScope := fun hz => (zero hz).2
    txn := Frame.begin_txn _ _
    balance := ⟨after, hadd, hafter, rfl⟩
    net := by
      rw [Frame.begin_net] at hnet
      exact hnet
    holds := hstep.transfer ⟨rfl, rfl, rfl, rfl⟩ ⟨rfl, rfl, rfl, rfl⟩
    flows := fstep.transfer rfl rfl rfl rfl
    governance := gstep.transfer rfl rfl rfl rfl
    tripped := trips
    totals := htotals
    frontier := hfrontier
    head := rfl
    length := rfl
    lastTimestamp := rfl
    unit := rfl
    resolve := rfl
    legacy := rfl }

/-! ### Runs -/

namespace Chain

variable {checkHash writing : Bool} {c₀ c : Chain}

/-- An invariant of the entries read so far and of the chain, kept by every entry the rules
accept, holds where a run ends. -/
theorem run_induction {motive : List LedgerEntry → Chain → Prop} (nil : motive [] c₀)
    (snoc : ∀ (l : List LedgerEntry) (e : LedgerEntry) (c c' : Chain),
      runAll (Rules.apply checkHash writing) c₀ l = .ok c → motive l c →
      Applied checkHash writing c e c' → motive (l ++ [e]) c')
    {l : List LedgerEntry} (h : runAll (Rules.apply checkHash writing) c₀ l = .ok c) :
    motive l c :=
  runAll_induction nil (fun l e c c' hl hm he => snoc l e c c' hl hm (applied_of_apply he)) h

/-- The run up to an entry, the entry, and the run after it. -/
theorem run_split {before after : List LedgerEntry} {e : LedgerEntry}
    (h : runAll (Rules.apply checkHash writing) c₀ (before ++ e :: after) = .ok c) :
    ∃ c₁ c₂, runAll (Rules.apply checkHash writing) c₀ before = .ok c₁ ∧
      Applied checkHash writing c₁ e c₂ ∧
      runAll (Rules.apply checkHash writing) c₂ after = .ok c := by
  obtain ⟨c₁, h₁, h⟩ := runAll_append_eq_ok.mp h
  obtain ⟨c₂, h₂, h⟩ := runAll_cons_eq_ok.mp h
  exact ⟨c₁, c₂, h₁, applied_of_apply h₂, h⟩

theorem run_resolve {l : List LedgerEntry}
    (h : runAll (Rules.apply checkHash writing) c₀ l = .ok c) : c.resolve = c₀.resolve :=
  run_induction (motive := fun _ c => c.resolve = c₀.resolve) rfl
    (fun _ _ _ _ _ hr ha => ha.resolve.trans hr) h

theorem run_unit {l : List LedgerEntry}
    (h : runAll (Rules.apply checkHash writing) c₀ l = .ok c) : c.unit = c₀.unit :=
  run_induction (motive := fun _ c => c.unit = c₀.unit) rfl
    (fun _ _ _ _ _ hr ha => ha.unit.trans hr) h

theorem run_length {l : List LedgerEntry}
    (h : runAll (Rules.apply checkHash writing) c₀ l = .ok c) :
    c.core.length = c₀.core.length + l.length := by
  refine run_induction (motive := fun l c => c.core.length = c₀.core.length + l.length) rfl ?_ h
  intro l e c c' _ hl ha
  rw [ha.length, hl, List.length_append, List.length_singleton, Nat.add_assoc]

/-- The last timestamp of a chain is that of its last entry. -/
theorem run_lastTimestamp {unit : Unit} {legacy : List ControlEvent}
    {find : UUID → Option LedgerEntry} {l : List LedgerEntry}
    (h : runAll (Rules.apply checkHash writing) (Chain.empty unit legacy find) l = .ok c) :
    c.core.lastTimestamp = l.getLast?.map LedgerEntry.timestamp := by
  refine run_induction (motive := fun l c => c.core.lastTimestamp = l.getLast?.map
    LedgerEntry.timestamp) rfl ?_ h
  intro l e c c' _ _ ha
  rw [ha.lastTimestamp, List.getLast?_append]
  rfl

/-- A chain is in the transaction of its last entry. -/
theorem run_txn {unit : Unit} {legacy : List ControlEvent} {find : UUID → Option LedgerEntry}
    {l : List LedgerEntry}
    (h : runAll (Rules.apply checkHash writing) (Chain.empty unit legacy find) l = .ok c) :
    c.frame.txn = l.getLast?.map LedgerEntry.transactionId := by
  refine run_induction (motive := fun l c => c.frame.txn = l.getLast?.map
    LedgerEntry.transactionId) rfl ?_ h
  intro l e c c' _ _ ha
  rw [ha.txn, List.getLast?_append]
  rfl

end Chain

/-- Whether a transaction ends between the entries read and those to come. -/
def EndsTransaction (read rest : List LedgerEntry) : Prop :=
  ∀ x ∈ read.getLast?, ∀ y ∈ rest.head?, x.transactionId ≠ y.transactionId

/-- Where a transaction ends, its transfers balance. -/
theorem net_eq_zero_of_endsTransaction {checkHash writing : Bool} {unit : Unit}
    {legacy : List ControlEvent} {find : UUID → Option LedgerEntry} {read rest : List LedgerEntry}
    {c c' : Chain} (hends : EndsTransaction read rest)
    (hread : runAll (Rules.apply checkHash writing) (Chain.empty unit legacy find) read = .ok c)
    (hrest : runAll (Rules.apply checkHash writing) c rest = .ok c') (hnet : c'.frame.net = 0) :
    c.frame.net = 0 := by
  cases rest with
  | nil =>
    cases hrest
    exact hnet
  | cons y rest =>
    obtain ⟨c₁, h₁, -⟩ := runAll_cons_eq_ok.mp hrest
    have htxn := Chain.run_txn hread
    cases hlast : read.getLast? with
    | none =>
      rw [List.getLast?_eq_none_iff] at hlast
      subst hlast
      cases hread
      rfl
    | some x =>
      rw [hlast] at htxn
      refine (applied_of_apply h₁).balanced (by rw [htxn]; rfl) fun h => ?_
      rw [htxn, Option.map_some, Option.some.injEq] at h
      exact hends x hlast y rfl h

/-- The run behind an accepted replay, and the state the replay ends in. -/
theorem replay_ok {entries : List LedgerEntry} {legacy : List ControlEvent} {fin : Bool}
    {resolve : Option (UUID → Option LedgerEntry)} {unit : Unit} {s : ChainState}
    (h : replay entries legacy fin resolve none unit = .ok s) :
    ∃ c applied tripped,
      runAll (Rules.apply true false)
        (Chain.empty unit legacy (resolve.getD (spendIndex entries))) entries = .ok c ∧
      c.frame.net = 0 ∧ s.Tidy ∧
      s.chain (resolve.getD (spendIndex entries)) = { c with
        frame := {}, core := { c.core with legacyApplied := applied }, tripped := tripped } := by
  obtain ⟨d, hd, htidy, hs⟩ := (replay_together entries legacy fin resolve unit).exists_ok h
  unfold Chain.replay replayView at hd
  obtain ⟨c, hc, hd⟩ := bind_eq_ok.mp hd
  refine ⟨c, ?_⟩
  cases fin with
  | false =>
    obtain ⟨hn, rfl⟩ := Rules.endTransaction_ok hd
    exact ⟨c.core.legacyApplied, c.tripped, hc, hn, htidy, hs⟩
  | true =>
    obtain ⟨c₁, h₁, hd⟩ := bind_eq_ok.mp hd
    obtain ⟨hn, rfl⟩ := Rules.endTransaction_ok h₁
    split at hd
    · cases hd
      exact ⟨c.core.legacyApplied, c.tripped, hc, hn, htidy, hs⟩
    · obtain ⟨tripped, rfl, -⟩ := Rules.applyLegacy_ok hd
      exact ⟨true, tripped, hc, hn, htidy, hs⟩

end AgentGov
