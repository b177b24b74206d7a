import AgentGov.Conservation

/-!
# The published shape of a chain

What LEDGER_FORMAT requires of the shape of an entry and of the delegation tree
(`src/docs/LEDGER_FORMAT.md`, sections 3.2 and 3.5), stated of the entries alone, and what the rule
engine makes of it. The engine asks everything the document asks, but for one thing: a scope may
be created without a name.

## Main definitions

* `AgentGov.Shaped`, `AgentGov.Governed`: the rules of sections 3.2 and 3.5 for an entry after
  the ones before it.
* `AgentGov.TreeKept`: the tree of a chain is the one its entries create.
* `AgentGov.ObeysFormat`: what the document requires of a whole chain and of its tree.

## Main results

* `AgentGov.TreeKept.applied`: every entry keeps the tree.
* `AgentGov.obeysFormat_iff_named`: an accepted AGOV3 chain obeys the document exactly when every
  scope it creates has a name.
-/

open Foundation

namespace AgentGov

variable {checkHash writing : Bool} {c c' : Chain} {e : LedgerEntry}

/-! ### Creation -/

/-- Whether an entry is the credit of an allocation, which creates a child. -/
def LedgerEntry.delegates (e : LedgerEntry) : Bool :=
  decide (e.entryType = .allocation) && decide (e.direction = .credit)

/-- The credits of allocations to a scope. -/
def allocationsTo (l : List LedgerEntry) (scope : Text) : List LedgerEntry :=
  l.filter fun e => e.delegates && decide (e.scopeId = scope)

/-- The fundings of a scope. -/
def fundingsOf (l : List LedgerEntry) (scope : Text) : List LedgerEntry :=
  l.filter fun e => e.entryType = .funding ∧ e.scopeId = scope

/-- Whether the entries create a scope. -/
def Created (l : List LedgerEntry) (scope : Text) : Prop :=
  fundingsOf l scope ≠ [] ∨ allocationsTo l scope ≠ []

/-- Where a scope stands in the tree: its parent and its depth. -/
def Chain.place (c : Chain) (scope : Text) : Option (Option Text × ℕ) :=
  (c.nodes.get? scope).map fun n => (n.parentId, n.depth)

/-- Whether every scope is kept under its own name. -/
def Chain.Keyed (c : Chain) : Prop := ∀ scope n, c.nodes.get? scope = some n → n.scopeId = scope

theorem Chain.place_eq_some {scope : Text} {p : Option Text × ℕ} :
    c.place scope = some p ↔
      ∃ n, c.nodes.get? scope = some n ∧ n.parentId = p.1 ∧ n.depth = p.2 := by
  unfold Chain.place
  cases c.nodes.get? scope <;> simp [Prod.ext_iff]

/-- The scopes after a child is created. -/
theorem Chain.get?_nodesWithChild {parent : Text} {n : Node} {p : BudgetNode}
    (hp : c.nodes.get? parent = some p) (hn : c.nodes.get? n.scopeId = none) (k : Text) :
    (c.nodesWithChild parent n).get? k =
      if k = parent then some { p with childIds := p.childIds ++ [n.scopeId] }
      else if k = n.scopeId then some { toNode := n } else c.nodes.get? k := by
  have hne : parent ≠ n.scopeId := fun he => by rw [he, hn] at hp; cases hp
  have hset : (c.nodes.set n.scopeId { toNode := n }).get? parent = some p := by
    rw [Dict.get?_set, if_neg hne, hp]
  simp only [Chain.nodesWithChild, hset, Dict.get?_set]

/-- What an entry does to the places of the tree: it creates its scope, as a root or as a child of
its counterparty, or leaves every scope where it is. -/
theorem GovernanceStep.place (hk : c.Keyed) (h : GovernanceStep c e c') :
    c'.Keyed ∧
    ((c.place e.scopeId = none ∧ ∃ new : Option Text × ℕ,
        ((e.entryType = .funding ∧ new = (none, 0)) ∨ (e.delegates = true ∧
          ∃ p, c.place (e.counterpartyId.getD []) = some p ∧
            new = (some (e.counterpartyId.getD []), p.2 + 1))) ∧
        ∀ k, c'.place k = if k = e.scopeId then some new else c.place k) ∨
      ((∀ k, c'.place k = c.place k) ∧ e.delegates = false ∧
        (e.entryType = .funding → ∃ d, c.place e.scopeId = some (none, d)))) := by
  cases h with
  | root kind new nodes =>
    refine ⟨fun k n hn => ?_, Or.inl ⟨by rw [Chain.place, new]; rfl, (none, 0), Or.inl ⟨kind, rfl⟩,
      fun k => ?_⟩⟩
    · rw [nodes, Dict.get?_set] at hn
      split_ifs at hn with he
      · cases hn
        exact he.symm
      · exact hk k n hn
    · rw [Chain.place, nodes, Dict.get?_set]
      split_ifs <;> rfl
  | raise n allocated kind known isRoot _ nodes =>
    refine ⟨fun k m hm => ?_, Or.inr ⟨fun k => ?_, by simp [LedgerEntry.delegates, kind],
      fun _ => ⟨n.depth, ?_⟩⟩⟩
    · rw [nodes, Dict.get?_set] at hm
      split_ifs at hm with he
      · cases hm
        exact (hk _ n known).trans he.symm
      · exact hk k m hm
    · rw [Chain.place, nodes, Dict.get?_set, Chain.place]
      split_ifs with he
      · rw [he, known]
        rfl
      · rfl
    · rw [Chain.place_eq_some]
      exact ⟨n, known, isRoot, rfl⟩
  | child parent kind direction new known nodes =>
    have hkey := hk _ parent known
    rw [hkey] at nodes
    have hget := Chain.get?_nodesWithChild (n := e.created (some (e.counterpartyId.getD []))
      (parent.depth + 1)) known new
    have hne : e.counterpartyId.getD [] ≠ e.scopeId := fun he => by
      rw [he, new] at known
      cases known
    refine ⟨fun k n hn => ?_, Or.inl ⟨by rw [Chain.place, new]; rfl,
      (some (e.counterpartyId.getD []), parent.depth + 1),
      Or.inr ⟨by simp [LedgerEntry.delegates, kind, direction], (parent.parentId, parent.depth),
        Chain.place_eq_some.mpr ⟨parent, known, rfl, rfl⟩, rfl⟩, fun k => ?_⟩⟩
    · rw [nodes, hget] at hn
      split_ifs at hn with h₁ h₂
      · cases hn
        exact hkey.trans h₁.symm
      · cases hn
        exact h₂.symm
      · exact hk k n hn
    · rw [Chain.place, nodes, hget]
      by_cases h₁ : k = e.counterpartyId.getD []
      · rw [if_pos h₁, if_neg (h₁ ▸ hne), Chain.place, h₁, known]
        rfl
      · rw [if_neg h₁]
        change (if k = e.scopeId then _ else _ : Option BudgetNode).map _ = _
        split_ifs <;> rfl
  | release n child kind _ _ nodes =>
    refine ⟨fun k n hn => hk k n (nodes ▸ hn), Or.inr ⟨fun k => by rw [Chain.place, nodes]; rfl,
      by simp [LedgerEntry.delegates, kind], fun h => by simp [kind] at h⟩⟩
  | other n kind credit _ _ nodes =>
    refine ⟨fun k n hn => hk k n (nodes ▸ hn), Or.inr ⟨fun k => by rw [Chain.place, nodes]; rfl,
      ?_, fun h => absurd h kind.1⟩⟩
    by_cases h : e.entryType = .allocation
    · simp [LedgerEntry.delegates, credit h]
    · simp [LedgerEntry.delegates, h]
  | scopeless kind nodes =>
    refine ⟨fun k n hn => hk k n (nodes ▸ hn), Or.inr ⟨fun k => by rw [Chain.place, nodes]; rfl,
      ?_, fun h => by rw [h] at kind; cases kind⟩⟩
    have h : e.entryType ≠ .allocation := by
      intro h
      rw [h] at kind
      cases kind
    simp [LedgerEntry.delegates, h]

theorem allocationsTo_append {l : List LedgerEntry} {scope : Text} :
    allocationsTo (l ++ [e]) scope =
      if e.delegates = true ∧ e.scopeId = scope then allocationsTo l scope ++ [e]
      else allocationsTo l scope := by
  unfold allocationsTo
  rw [List.filter_append, List.filter_singleton]
  by_cases h₁ : e.delegates = true <;> by_cases h₂ : e.scopeId = scope <;> simp [h₁, h₂]

theorem fundingsOf_append {l : List LedgerEntry} {scope : Text} :
    fundingsOf (l ++ [e]) scope =
      if e.entryType = .funding ∧ e.scopeId = scope then fundingsOf l scope ++ [e]
      else fundingsOf l scope := by
  unfold fundingsOf
  rw [List.filter_append, List.filter_singleton]
  by_cases h₁ : e.entryType = .funding <;> by_cases h₂ : e.scopeId = scope <;> simp [h₁, h₂]

/-- The tree of a chain is the one its entries create: each scope once, one deeper than its
parent. -/
structure TreeKept (l : List LedgerEntry) (c : Chain) : Prop where
  keyed : c.Keyed
  created : ∀ scope, c.place scope ≠ none ↔ Created l scope
  root : ∀ scope d, c.place scope = some (none, d) → d = 0 ∧ allocationsTo l scope = []
  child : ∀ scope p d, c.place scope = some (some p, d) → fundingsOf l scope = [] ∧
    (∃ x, allocationsTo l scope = [x] ∧ x.counterpartyId.getD [] = p) ∧
    ∃ q d', c.place p = some (q, d') ∧ d = d' + 1

/-- An entry that creates no scope keeps the tree. -/
theorem TreeKept.same {l : List LedgerEntry} (h : TreeKept l c) (keyed : c'.Keyed)
    (place : ∀ k, c'.place k = c.place k) (delegates : e.delegates = false)
    (funding : e.entryType = .funding → ∃ d, c.place e.scopeId = some (none, d)) :
    TreeKept (l ++ [e]) c' := by
  have halloc : ∀ scope, allocationsTo (l ++ [e]) scope = allocationsTo l scope := by
    intro scope
    rw [allocationsTo_append, delegates, if_neg (by simp)]
  refine ⟨keyed, fun scope => ?_, fun scope d hp => ?_, fun scope p d hp => ?_⟩
  · rw [place, h.created, Created, Created, halloc, fundingsOf_append]
    by_cases hf : e.entryType = .funding ∧ e.scopeId = scope
    · obtain ⟨d, hd⟩ := funding hf.1
      have hc := (h.created scope).mp (by rw [← hf.2, hd]; simp)
      rw [if_pos hf]
      exact ⟨fun _ => Or.inl (by simp), fun _ => hc⟩
    · rw [if_neg hf]
  · rw [halloc]
    exact h.root scope d (place scope ▸ hp)
  · rw [place] at hp
    rw [halloc, fundingsOf_append, if_neg, place]
    · exact h.child scope p d hp
    · rintro ⟨hf, rfl⟩
      obtain ⟨d', hd⟩ := funding hf
      rw [hp] at hd
      cases hd

/-- An entry that creates a scope adds it to the tree. -/
theorem TreeKept.grow {l : List LedgerEntry} (h : TreeKept l c) (keyed : c'.Keyed)
    (fresh : c.place e.scopeId = none) {new : Option Text × ℕ}
    (kind : (e.entryType = .funding ∧ new = (none, 0)) ∨ (e.delegates = true ∧
      ∃ p, c.place (e.counterpartyId.getD []) = some p ∧
        new = (some (e.counterpartyId.getD []), p.2 + 1)))
    (place : ∀ k, c'.place k = if k = e.scopeId then some new else c.place k) :
    TreeKept (l ++ [e]) c' := by
  have hnone : fundingsOf l e.scopeId = [] ∧ allocationsTo l e.scopeId = [] := by
    have hc := (h.created e.scopeId).not.mp (by simp [fresh])
    simpa [Created, not_or] using hc
  have others : ∀ {scope}, scope ≠ e.scopeId → fundingsOf (l ++ [e]) scope = fundingsOf l scope ∧
      allocationsTo (l ++ [e]) scope = allocationsTo l scope := by
    intro scope hne
    rw [fundingsOf_append, allocationsTo_append, if_neg fun hk => hne hk.2.symm,
      if_neg fun hk => hne hk.2.symm]
    exact ⟨rfl, rfl⟩
  have hfund : e.delegates = true → e.entryType ≠ .funding := by
    intro hd hk
    simp [LedgerEntry.delegates, hk] at hd
  have parent : ∀ {p q}, c.place p = some q → c'.place p = some q := by
    intro p q hq
    have hne : p ≠ e.scopeId := fun he => by rw [he, fresh] at hq; cases hq
    rw [place, if_neg hne, hq]
  refine ⟨keyed, fun scope => ?_, fun scope d hp => ?_, fun scope p d hp => ?_⟩
  · by_cases hs : scope = e.scopeId
    · subst hs
      rw [place, if_pos rfl, Created, fundingsOf_append, allocationsTo_append, hnone.1, hnone.2]
      rcases kind with ⟨hk, -⟩ | ⟨hk, -⟩ <;> simp [hk]
    · rw [place, if_neg hs, h.created, Created, Created, (others hs).1, (others hs).2]
  · rw [place] at hp
    split_ifs at hp with hs
    · cases hp
      subst hs
      rcases kind with ⟨hk, hn⟩ | ⟨-, p, -, hn⟩
      · simp only [Prod.mk.injEq, true_and] at hn
        refine ⟨hn, ?_⟩
        rw [allocationsTo_append, if_neg fun hd => hfund hd.1 hk, hnone.2]
      · simp at hn
    · rw [(others hs).2]
      exact h.root scope d hp
  · rw [place] at hp
    split_ifs at hp with hs
    · cases hp
      subst hs
      rcases kind with ⟨-, hn⟩ | ⟨hd, q, hq, hn⟩
      · simp at hn
      · simp only [Prod.mk.injEq, Option.some.injEq] at hn
        obtain ⟨rfl, rfl⟩ := hn
        refine ⟨?_, ⟨e, ?_, rfl⟩, q.1, q.2, parent hq, rfl⟩
        · rw [fundingsOf_append, if_neg fun hk => hfund hd hk.1, hnone.1]
        · rw [allocationsTo_append, if_pos ⟨hd, rfl⟩, hnone.2]
          rfl
    · obtain ⟨h₁, h₂, q, d', hq, hd⟩ := h.child scope p d hp
      rw [(others hs).1, (others hs).2]
      exact ⟨h₁, h₂, q, d', parent hq, hd⟩

/-- Every entry keeps the tree. -/
theorem TreeKept.applied {l : List LedgerEntry} (h : TreeKept l c)
    (ha : Applied checkHash writing c e c') : TreeKept (l ++ [e]) c' := by
  obtain ⟨keyed, ⟨fresh, new, kind, place⟩ | ⟨place, delegates, funding⟩⟩ :=
    ha.governance.place h.keyed
  · exact h.grow keyed fresh kind place
  · exact h.same keyed place delegates funding

theorem run_treeKept {unit : Unit} {legacy : List ControlEvent}
    {resolve : UUID → Option LedgerEntry} {l : List LedgerEntry}
    (h : runAll (Rules.apply checkHash writing) (Chain.empty unit legacy resolve) l = .ok c) :
    TreeKept l c := by
  refine Chain.run_induction (motive := TreeKept) ?_ (fun _ _ _ _ _ ih ha => ih.applied ha) h
  refine ⟨by rintro scope n ⟨⟩, fun scope => ?_, by rintro scope d ⟨⟩, by rintro scope p d ⟨⟩⟩
  simp [Created, fundingsOf, allocationsTo, Chain.place, Chain.empty, ChainState.chain,
    ChainState.empty]

/-! ### The document -/

/-- Section 3.2: the shape of an AGOV3 entry. -/
structure Shaped (unit : Unit) (before : List LedgerEntry) (e : LedgerEntry) : Prop where
  direction : e.direction ∈ e.entryType.legalDirections
  amount : e.entryType.isZeroValue = false →
    ∃ n : ℕ, 0 < n ∧ e.amount.value? = some (.finite (n / 10 ^ unit.places))
  zero : e.entryType.isZeroValue = true → e.amount.value? = some 0
  scope : e.scopeId = [] ↔ e.entryType.isScopeless = true
  ref : e.ref.isSome → e.entryType.isV3Referencing = true
  texts : checkTexts e.scopeId e.counterpartyId e.memo = none
  time : ∀ x ∈ before.getLast?, x.timestamp ≤ e.timestamp

/-- Section 3.5: what an entry may do to the tree the ones before it have created. -/
structure Governed (before : List LedgerEntry) (e : LedgerEntry) : Prop where
  funding : e.entryType = .funding → allocationsTo before e.scopeId = []
  allocation : e.delegates = true → ¬Created before e.scopeId ∧
    ∃ p, e.counterpartyId = some p ∧ p ≠ [] ∧ Created before p
  release : e.entryType = .release →
    (e.direction = .debit ∧
      ∃ x ∈ allocationsTo before e.scopeId, x.counterpartyId = e.counterpartyId) ∨
    (e.direction = .credit ∧ ∃ p, e.counterpartyId = some p ∧
      ∃ x ∈ allocationsTo before p, x.counterpartyId = some e.scopeId)
  names : e.entryType ≠ .funding → e.delegates = false → e.entryType.isScopeless = false →
    Created before e.scopeId

/-- Whether the allocations and releases among entries sum to zero. -/
def NetsToZero (l : List LedgerEntry) : Prop :=
  ((l.filter fun e => e.entryType.isBalanced).map fun e => e.movement.toRat).sum = 0

/-- What the document requires of a chain of AGOV3 entries, and of the tree it ends in. -/
structure ObeysFormat (unit : Unit) (entries : List LedgerEntry) (s : ChainState) : Prop where
  shaped : ∀ before e after, entries = before ++ e :: after → Shaped unit before e
  governed : ∀ before e after, entries = before ++ e :: after → Governed before e
  netted : ∀ before txn after, entries = before ++ (txn ++ after) →
    EndsTransaction before (txn ++ after) → EndsTransaction (before ++ txn) after → NetsToZero txn
  created : ∀ scope, scope ∈ s.nodes.keys ↔ Created entries scope
  root : ∀ scope n, s.nodes.get? scope = some n → n.parentId = none →
    n.depth = 0 ∧ allocationsTo entries scope = []
  child : ∀ scope n p, s.nodes.get? scope = some n → n.parentId = some p →
    fundingsOf entries scope = [] ∧ (allocationsTo entries scope).length = 1 ∧
      ∃ m, s.nodes.get? p = some m ∧ n.depth = m.depth + 1

/-! ### Accepted chains -/

/-- The amount of an AGOV3 entry is a whole number of the unit's quantum. -/
theorem Applied.whole_amount (ha : Applied true writing c e c') (hv : e.version = auditV3) :
    ∃ n : ℤ, e.worth = .finite (n / 10 ^ c.unit.places) ∨
      e.entryType.isZeroValue = true := by
  cases hz : e.entryType.isZeroValue with
  | true => exact ⟨0, Or.inr rfl⟩
  | false =>
    have hash := ha.hash rfl
    unfold LedgerEntry.recomputeHash hashEntry at hash
    rw [if_pos hv] at hash
    obtain ⟨t, ht, -⟩ := bind_eq_ok.mp hash
    obtain ⟨n, hn⟩ := fixed_ok ht ha.amount
    by_cases hplaces : c.unit.places = 8
    · exact ⟨n, Or.inl (by rw [hplaces, hn])⟩
    · have hvalue := ha.amount
      rw [hn] at hvalue
      obtain ⟨m, hm⟩ := counted_ok (ha.whole hz) hplaces hvalue
      exact ⟨m, Or.inl (by rw [hn, hm])⟩

theorem Applied.worth_finite (ha : Applied true writing c e c') (hv : e.version = auditV3) :
    e.worth.IsFinite := by
  obtain ⟨n, hn | hz⟩ := ha.whole_amount hv
  · rw [hn]
    trivial
  · rw [ha.amount_zero hz]
    trivial

/-- Only what may name something names it. -/
theorem Applied.named (ha : Applied checkHash writing c e c') (h : e.ref.isSome) :
    e.entryType.isV3Referencing = true := by
  cases ha.holds with
  | place _ unnamed => simp [unnamed] at h
  | release _ _ kind => rw [kind]; rfl
  | releaseUnnamed _ _ kind => rw [kind]; rfl
  | spend kind => rw [kind]; rfl
  | reverse _ _ _ _ kind => rw [kind]; rfl
  | keep _ unnamed => simp [unnamed] at h

/-- Everything but what creates a scope, a seal or a checkpoint names a scope of the tree. -/
theorem Applied.place_ne_none (ha : Applied checkHash writing c e c')
    (hf : e.entryType ≠ .funding) (hd : e.delegates = false)
    (hs : e.entryType.isScopeless = false) : c.place e.scopeId ≠ none := by
  cases ha.governance with
  | root kind => exact absurd kind hf
  | raise _ _ kind => exact absurd kind hf
  | child _ kind direction => simp [LedgerEntry.delegates, kind, direction] at hd
  | release n _ _ known => simp [Chain.place, known]
  | other n _ _ _ known => simp [Chain.place, known]
  | scopeless kind => simp [hs] at kind

/-- The transfers of a run add to what is owed. -/
theorem run_net {l : List LedgerEntry} (hv : ∀ e ∈ l, e.version = auditV3)
    (hnet : c.frame.net.IsFinite) (h : runAll (Rules.apply true writing) c l = .ok c') :
    c'.frame.net.IsFinite ∧ c'.frame.net.toRat = c.frame.net.toRat +
      ((l.filter fun e => e.entryType.isBalanced).map fun e => e.movement.toRat).sum := by
  refine Chain.run_induction (motive := fun l c' => (∀ e ∈ l, e.version = auditV3) →
    c'.frame.net.IsFinite ∧ c'.frame.net.toRat = c.frame.net.toRat +
      ((l.filter fun e => e.entryType.isBalanced).map fun e => e.movement.toRat).sum)
    (fun _ => ⟨hnet, by simp⟩) ?_ h hv
  intro l e c₁ c₂ _ ih ha hv
  obtain ⟨hfin, heq⟩ := ih fun x hx => hv x (List.mem_append_left _ hx)
  have hn := ha.net
  rw [List.filter_append, List.filter_singleton]
  split_ifs at hn with hb
  · have hm := ha.movement.2.2 (ha.worth_finite (hv e (by simp)))
    obtain ⟨hfin', heq'⟩ := add_toRat hfin hm hn
    refine ⟨hfin', ?_⟩
    rw [heq', heq, hb]
    simp [add_assoc]
  · have hb' : e.entryType.isBalanced = false := by simpa using hb
    rw [hn, hb']
    exact ⟨hfin, by simpa using heq⟩

section Entries

variable {unit : Unit} {legacy : List ControlEvent} {resolve : UUID → Option LedgerEntry}
  {before : List LedgerEntry}

/-- An accepted AGOV3 entry has the shape the document asks for, where it has a scope. -/
theorem shaped_of_applied (hunit : c.unit = unit)
    (h : runAll (Rules.apply true writing) (Chain.empty unit legacy resolve) before = .ok c)
    (ha : Applied true writing c e c') (hv : e.version = auditV3)
    (named : e.entryType.isScopeless = false → e.scopeId ≠ []) : Shaped unit before e where
  direction := ha.direction
  amount hz := by
    obtain ⟨n, hn | hz'⟩ := ha.whole_amount hv
    · have hpos := ha.amount_pos hz
      have hp : (0 : ℚ) < 10 ^ unit.places := by positivity
      rw [hunit] at hn
      rw [hn, Value.zero_lt_finite, div_pos_iff_of_pos_right hp, Int.cast_pos] at hpos
      refine ⟨n.natAbs, Int.natAbs_pos.mpr hpos.ne', ?_⟩
      rw [ha.amount, hn, Nat.cast_natAbs, abs_of_pos hpos]
    · simp [hz] at hz'
  zero hz := by rw [ha.amount, ha.amount_zero hz]
  scope := by
    cases hz : e.entryType.isZeroValue with
    | true => exact ha.inScope hz
    | false =>
      have hs : e.entryType.isScopeless = false := by
        revert hz
        cases e.entryType <;> simp [EntryType.isZeroValue, EntryType.isScopeless]
      simp [hs, named hs]
  ref := ha.named
  texts := ha.texts hv
  time x hx := by
    have hl := Chain.run_lastTimestamp h
    rw [Option.mem_def.mp hx] at hl
    exact ha.time hv _ hl

/-- An accepted entry does to the tree what the document allows, where no scope is without a
name. -/
theorem governed_of_applied (h : TreeKept before c) (ha : Applied checkHash writing c e c')
    (named : ¬Created before []) : Governed before e := by
  have created : ∀ {p}, c.place p ≠ none → Created before p ∧ p ≠ [] := by
    intro p hp
    have hc := (h.created p).mp hp
    exact ⟨hc, fun he => named (he ▸ hc)⟩
  have counterparty : ∀ {p : Text}, p ≠ [] → e.counterpartyId.getD [] = p →
      e.counterpartyId = some p := by
    intro p hp hc
    cases hcp : e.counterpartyId with
    | none => exact absurd (by rw [← hc, hcp]; rfl) hp
    | some q => rw [← hc, hcp]; rfl
  have parent : ∀ {n : BudgetNode} {k p : Text}, c.nodes.get? k = some n → n.parentId = some p →
      p ≠ [] ∧ ∃ x ∈ allocationsTo before k, x.counterpartyId = some p := by
    intro n k p hn hp
    have hk : c.place k = some (some p, n.depth) := Chain.place_eq_some.mpr ⟨n, hn, hp, rfl⟩
    obtain ⟨-, ⟨x, hx, hxp⟩, q, d', hq, -⟩ := h.child k p _ hk
    have hne := (created (p := p) (by simp [hq])).2
    refine ⟨hne, x, by simp [hx], ?_⟩
    cases hcp : x.counterpartyId with
    | none => exact absurd (by rw [← hxp, hcp]; rfl) hne
    | some q => rw [← hxp, hcp]; rfl
  refine ⟨fun hk => ?_, fun hd => ?_, fun hk => ?_, fun hf hd hs => ?_⟩
  · obtain ⟨-, ⟨fresh, -⟩ | ⟨-, -, funding⟩⟩ := ha.governance.place h.keyed
    · have hc := (h.created e.scopeId).not.mp (by simp [fresh])
      simp only [Created, not_or, not_not] at hc
      exact hc.2
    · obtain ⟨d, hd⟩ := funding hk
      exact (h.root _ d hd).2
  · obtain ⟨-, ⟨fresh, new, kind, -⟩ | ⟨-, hd', -⟩⟩ := ha.governance.place h.keyed
    · refine ⟨(h.created e.scopeId).not.mp (by simp [fresh]), ?_⟩
      rcases kind with ⟨hk, -⟩ | ⟨-, p, hp, -⟩
      · simp [LedgerEntry.delegates, hk] at hd
      · obtain ⟨hc, hne⟩ := created (p := e.counterpartyId.getD []) (by simp [hp])
        exact ⟨_, counterparty hne rfl, hne, hc⟩
    · rw [hd] at hd'
      cases hd'
  · cases ha.governance with
    | release n child _ known between =>
      rcases between with ⟨hdir, rfl, hp⟩ | ⟨hdir, hchild, hp⟩
      · obtain ⟨hne, x, hx, hxp⟩ := parent known hp
        exact Or.inl ⟨hdir, x, hx, hxp.trans (counterparty hne rfl).symm⟩
      · obtain ⟨-, x, hx, hxp⟩ := parent hchild hp
        have hne := (created (p := e.counterpartyId.getD []) (by simp [Chain.place, hchild])).2
        exact Or.inr ⟨hdir, _, counterparty hne rfl, x, hx, hxp⟩
    | root kind => simp [hk] at kind
    | raise _ _ kind => simp [hk] at kind
    | child _ kind => simp [hk] at kind
    | other _ kind => exact absurd hk kind.2
    | scopeless kind => rw [hk] at kind; cases kind
  · exact (created (ha.place_ne_none hf hd hs)).1

end Entries

/-- Whether an entry creates a scope, or funds one. -/
def LedgerEntry.creates (e : LedgerEntry) : Bool :=
  decide (e.entryType = .funding) || e.delegates

theorem created_iff {l : List LedgerEntry} {scope : Text} :
    Created l scope ↔ ∃ e ∈ l, e.creates = true ∧ e.scopeId = scope := by
  simp only [Created, fundingsOf, allocationsTo, ne_eq, List.filter_eq_nil_iff, not_forall,
    LedgerEntry.creates, Bool.or_eq_true, decide_eq_true_eq, Bool.and_eq_true, not_not,
    exists_prop]
  constructor
  · rintro (⟨e, he, hk, hs⟩ | ⟨e, he, hk, hs⟩)
    · exact ⟨e, he, Or.inl hk, hs⟩
    · exact ⟨e, he, Or.inr hk, hs⟩
  · rintro ⟨e, he, hk | hk, hs⟩
    · exact Or.inl ⟨e, he, hk, hs⟩
    · exact Or.inr ⟨e, he, hk, hs⟩

/-- An accepted chain of AGOV3 entries obeys the published shape rules exactly when no funding, and
no credit of an allocation, names the empty scope. -/
theorem obeysFormat_iff_named {entries : List LedgerEntry} {legacy : List ControlEvent}
    {fin : Bool} {unit : Unit} {s : ChainState} (versions : ∀ e ∈ entries, e.version = auditV3)
    (accepted : replay entries legacy fin none none unit = .ok s) :
    ObeysFormat unit entries s ↔ ∀ e ∈ entries, e.creates = true → e.scopeId ≠ [] := by
  obtain ⟨c, applied, tripped, hrun, hnet, -, hs⟩ := replay_ok accepted
  have hnodes : s.nodes = c.nodes := congrArg Chain.nodes hs
  have tree := run_treeKept hrun
  constructor
  · intro h e he hk hscope
    obtain ⟨before, after, rfl⟩ := List.append_of_mem he
    have := (h.shaped before e after rfl).scope.mp hscope
    revert hk this
    cases hkind : e.entryType <;>
      simp [LedgerEntry.creates, LedgerEntry.delegates, hkind, EntryType.isScopeless]
  · intro named
    have unnamed : ∀ {l m : List LedgerEntry}, entries = l ++ m → ¬Created l [] := by
      rintro l m rfl hc
      obtain ⟨e, he, hk, hscope⟩ := created_iff.mp hc
      exact named e (List.mem_append_left _ he) hk hscope
    refine ⟨?_, ?_, ?_, ?_, ?_, ?_⟩
    · rintro before e after rfl
      obtain ⟨c₁, c₂, h₁, ha, -⟩ := Chain.run_split hrun
      refine shaped_of_applied (Chain.run_unit h₁) h₁ ha (versions e (by simp)) fun hk => ?_
      cases hcr : e.creates with
      | true => exact named e (by simp) hcr
      | false =>
        simp only [LedgerEntry.creates, Bool.or_eq_false_iff, decide_eq_false_iff_not] at hcr
        have hc := ((run_treeKept h₁).created _).mp (ha.place_ne_none hcr.1 hcr.2 hk)
        exact fun hscope => unnamed rfl (hscope ▸ hc)
    · rintro before e after rfl
      obtain ⟨c₁, c₂, h₁, ha, -⟩ := Chain.run_split hrun
      exact governed_of_applied (run_treeKept h₁) ha (unnamed rfl)
    · rintro before txn after rfl hb ha
      obtain ⟨c₁, h₁, hrest⟩ := runAll_append_eq_ok.mp hrun
      obtain ⟨c₂, h₂, hafter⟩ := runAll_append_eq_ok.mp hrest
      have hn₁ := net_eq_zero_of_endsTransaction hb h₁ hrest hnet
      have hn₂ := net_eq_zero_of_endsTransaction ha (runAll_append_eq_ok.mpr ⟨c₁, h₁, h₂⟩) hafter
        hnet
      obtain ⟨-, hsum⟩ := run_net (fun e he => versions e (by simp [he])) (by rw [hn₁]; trivial) h₂
      rw [hn₁, hn₂, Value.toRat_zero, zero_add] at hsum
      exact hsum.symm
    · intro scope
      rw [hnodes, ← tree.created, Dict.mem_keys_iff, Chain.place, Ne, Option.map_eq_none_iff,
        ← Ne, Option.ne_none_iff_exists']
    · intro scope n hn hp
      rw [hnodes] at hn
      exact tree.root scope n.depth (Chain.place_eq_some.mpr ⟨n, hn, hp, rfl⟩)
    · intro scope n p hn hp
      rw [hnodes] at hn
      obtain ⟨h₁, ⟨x, hx, -⟩, q, d', hq, hd⟩ :=
        tree.child scope p n.depth (Chain.place_eq_some.mpr ⟨n, hn, hp, rfl⟩)
      obtain ⟨m, hm, -, hdepth⟩ := Chain.place_eq_some.mp hq
      exact ⟨h₁, by rw [hx]; rfl, m, by rw [hnodes, hm], by rw [hd, hdepth]⟩

theorem obeysFormat_sampleChain : ∃ s, replay sampleChain [] false none none USD = .ok s ∧
    ObeysFormat USD sampleChain s := by
  obtain ⟨s, hs⟩ := exists_of_isOk sampleChain_accepted
  exact ⟨s, hs, (obeysFormat_iff_named (by decide) hs).mpr (by decide)⟩

/-- A ledger that funds the scope without a name. -/
def namelessRoot : List LedgerEntry :=
  linked 0 genesisHash [draft 1 1 .funding .credit [] 10 10]

/-- The chain is accepted, and its only entry, a funding, has an empty scope. -/
theorem namelessRoot_accepted : (∀ e ∈ namelessRoot, e.version = auditV3) ∧
    (replay namelessRoot [] false none none USD).isOk = true ∧
    ¬∀ e ∈ namelessRoot, e.entryType.isScopeless = false → e.scopeId ≠ [] := by
  refine ⟨?_, ?_, ?_⟩ <;> decide +kernel

end AgentGov
