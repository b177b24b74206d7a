import AgentGov.Tree

/-!
# Refunds that name their spend

A refund from AGOV3 on may name the spend it reverses. A replay looks that spend up among all the
entries it is given, so what a refund may name can depend on what comes after it. A prefix of an
accepted chain is accepted exactly when its own entries answer for every refund in it.

## Main definitions

* `AgentGov.refundsNaming`: what the refunds naming a spend add up to.
* `AgentGov.Covers`: a spend that a refund may name.
* `AgentGov.PrefixClosed`, `AgentGov.ResolvedThroughout`: what a replay promises of its prefixes,
  and the condition on the entries that decides it.

## Main results

* `AgentGov.run_finding`: an accepted chain is accepted wherever spends are found that cover its
  refunds.
* `AgentGov.prefixClosed_iff_resolved`: the accepted chains whose prefixes are accepted.
-/

open Foundation

namespace AgentGov

variable {checkHash writing : Bool} {c c' : Chain} {e : LedgerEntry}

/-- The chain with another way to find its spends. -/
def Chain.finding (c : Chain) (find : UUID → Option LedgerEntry) : Chain :=
  { c with resolve := find }

theorem Chain.keyed_set {nodes : Dict Text BudgetNode} {scope : Text} {n : BudgetNode}
    (h : ∀ s m, nodes.get? s = some m → m.scopeId = s) (hn : n.scopeId = scope) :
    ∀ s m, (nodes.set scope n).get? s = some m → m.scopeId = s := by
  intro s m hm
  rw [Dict.get?_set] at hm
  split_ifs at hm with hs
  · cases hm
    rw [hn, hs]
  · exact h s m hm

theorem Chain.Keyed.createChild (h : c.Keyed) (parent : Text) (n : Node) :
    Chain.Keyed (View.createChild c parent n) := by
  have hset := Chain.keyed_set (n := { toNode := n }) h rfl
  change ∀ s m, (c.nodesWithChild parent n).get? s = some m → m.scopeId = s
  unfold Chain.nodesWithChild
  dsimp only
  split
  · exact hset
  · rename_i p hp
    exact Chain.keyed_set hset (hset parent p hp)

theorem Chain.Keyed.setAllocated (h : c.Keyed) (scope : Text) (v : Value) :
    Chain.Keyed (View.setAllocated c scope v) := by
  intro s m
  rw [Chain.nodes_setAllocated]
  cases hn : c.nodes.get? scope with
  | none => exact h s m
  | some n => exact Chain.keyed_set (n := { n with allocated := v }) h (h scope n hn) s m

/-- Rules that look up no spend do not depend on how one is found. -/
theorem Chain.finding_simulation (find : UUID → Option LedgerEntry) :
    Simulation (fun a b : Chain => a.Keyed ∧ b = a.finding find)
      (fun e => e.entryType = .reversal → e.ref = none) where
  core h := by rw [h.2]; rfl
  frame h := by rw [h.2]; rfl
  unit h := by rw [h.2]; rfl
  balance h _ := by rw [h.2]; rfl
  openHold h _ := by rw [h.2]; rfl
  iterHolds h := by rw [h.2]; rfl
  node h _ := by rw [h.2]; rfl
  scopeId_node {a b scope n} h hn := by
    obtain ⟨m, hm, rfl⟩ := Option.map_eq_some_iff.mp hn
    exact h.1 scope m hm
  openHold_of_mem {a b hold x} h hx := by
    obtain ⟨p, hp, hpx⟩ := List.mem_map.mp hx
    cases hpx
    change ((a.holds.get? p.1).map _).isSome
    rw [Dict.get?_eq_some_iff.mpr hp]
    rfl
  spentBy h _ := by rw [h.2]; rfl
  refundedTo h _ := by rw [h.2]; rfl
  holdsOpenIn h _ := by rw [h.2]; rfl
  refundedOfSpend h _ := by rw [h.2]; rfl
  isSealed h := by rw [h.2]; rfl
  resolve h hP he hr := by rw [hP he] at hr; cases hr
  setCore h _ := ⟨h.1, by rw [h.2]; rfl⟩
  setFrame h _ := ⟨h.1, by rw [h.2]; rfl⟩
  setBalance h _ _ := ⟨h.1, by rw [h.2]; rfl⟩
  placeHold h _ _ := ⟨h.1, by rw [h.2]; rfl⟩
  dropHold h _ _ := ⟨h.1, by rw [h.2]; rfl⟩
  noteReleased h _ := ⟨h.1, by rw [h.2]; rfl⟩
  markAmbiguous h _ := ⟨h.1, by rw [h.2]; rfl⟩
  setCount h _ _ := ⟨h.1, by rw [h.2]; rfl⟩
  setSpendRefunds h _ _ := ⟨h.1, by rw [h.2]; rfl⟩
  setSpent h _ _ := ⟨h.1, by rw [h.2]; rfl⟩
  setRefunded h _ _ := ⟨h.1, by rw [h.2]; rfl⟩
  createRoot h n _ := ⟨Chain.keyed_set (n := { toNode := n }) h.1 rfl, by rw [h.2]; rfl⟩
  createChild h parent n _ _ := ⟨h.1.createChild parent n, by rw [h.2]; rfl⟩
  setAllocated h scope v _ := ⟨h.1.setAllocated scope v, by rw [h.2]; rfl⟩
  setTrip h _ _ := ⟨h.1, by rw [h.2]; rfl⟩
  noteEvent h _ := ⟨h.1, by rw [h.2]; rfl⟩
  placeSeal h _ := ⟨h.1, by rw [h.2]; rfl⟩

/-! ### Spends and their refunds -/

/-- What the refunds among `l` that name a spend add up to. -/
def refundsNaming (l : List LedgerEntry) (ref : UUID) : Value :=
  Value.sum ((l.filter fun e => e.entryType = .reversal ∧ e.ref = some ref).map LedgerEntry.worth)

/-- A spend that a refund may name: of its scope, and worth what its refunds come to. -/
structure Covers (x e : LedgerEntry) (total : Value) : Prop where
  kind : x.entryType = .spend
  scope : x.scopeId = e.scopeId
  amount : ∃ spent, x.amount.value? = some spent ∧ total ≤ spent

/-- What a refund brings the refunds of its spend to. -/
theorem refundsNaming_snoc {before : List LedgerEntry} {ref : UUID} {total : Value}
    (hpos : 0 < e.worth) (kind : e.entryType = .reversal) (named : e.ref = some ref)
    (h : add (refundsNaming before ref) e.worth = .ok total) :
    refundsNaming (before ++ [e]) ref = total := by
  have hsum := add_ok h
  rw [refundsNaming, Value.plus_sum_cons (Value.ne_of_zero_lt hpos), Option.some.injEq] at hsum
  rw [← hsum, refundsNaming, List.filter_append, List.map_append]
  refine Value.sum_perm ?_
  simp only [List.filter_singleton, kind, named, and_self, decide_true, cond_true,
    List.map_singleton]
  exact List.perm_append_singleton _ _

/-- A chain remembers what the refunds naming each spend add up to. -/
theorem run_refundedOfSpend {unit : Unit} {legacy : List ControlEvent}
    {resolve : UUID → Option LedgerEntry} {l : List LedgerEntry}
    (h : runAll (Rules.apply checkHash writing) (Chain.empty unit legacy resolve) l = .ok c) :
    ∀ ref, c.refundedOfSpend ref = refundsNaming l ref := by
  refine Chain.run_induction (motive := fun l c => ∀ ref, c.refundedOfSpend ref =
    refundsNaming l ref) (fun _ => rfl) ?_ h
  intro l e c c' _ ih ha ref
  have other : ¬(e.entryType = .reversal ∧ e.ref = some ref) → c'.spendRefunds = c.spendRefunds →
      c'.refundedOfSpend ref = refundsNaming (l ++ [e]) ref := by
    intro hne hsame
    have hl : refundsNaming (l ++ [e]) ref = refundsNaming l ref := by
      simp only [refundsNaming, List.filter_append, List.filter_singleton, hne, decide_false,
        cond_false, List.append_nil]
    rw [hl, ← ih ref, Chain.refundedOfSpend, hsame]
    rfl
  cases ha.holds with
  | place kind _ _ _ _ same => exact other (by simp [kind]) same
  | release _ _ kind _ _ _ _ _ _ _ _ same => exact other (by simp [kind]) same
  | releaseUnnamed _ _ kind _ _ _ _ _ _ _ same => exact other (by simp [kind]) same
  | spend kind _ _ _ _ same => exact other (by simp [kind]) same
  | keep _ unnamed _ _ _ same => exact other (by simp [unnamed]) same
  | reverse _ ref' _ refunded kind named _ _ _ _ sum _ _ _ _ after =>
    by_cases hr : ref = ref'
    · subst hr
      rw [ih] at sum
      rw [Chain.refundedOfSpend, after, Dict.get?_set_self, Option.getD_some,
        refundsNaming_snoc (ha.amount_pos (by rw [kind]; rfl)) kind named sum]
    · have hne : ¬(e.entryType = .reversal ∧ e.ref = some ref) := by
        rw [named, Option.some.injEq]
        exact fun h => hr h.2.symm
      have hl : refundsNaming (l ++ [e]) ref = refundsNaming l ref := by
        simp only [refundsNaming, List.filter_append, List.filter_singleton, hne, decide_false,
          cond_false, List.append_nil]
      rw [hl, ← ih ref, Chain.refundedOfSpend, after, Dict.get?_set, if_neg hr]
      rfl

/-- A refund that names a spend is checked against it, if its format lets it name one. -/
theorem checkHolds_reversal {σ : Type} [View σ] {v : σ} {amount : Value} {ref : UUID}
    (kind : e.entryType = .reversal) (named : e.ref = some ref) :
    Rules.checkHolds v e amount = if e.version = auditV3 then Rules.reverseNamed v e ref amount
      else refuse (.namesNoHold e.sequence e.entryType) (some e.scopeId) := by
  unfold Rules.checkHolds
  simp only [kind, named, Option.isSome_some, EntryType.isV3Referencing, EntryType.isReferencing,
    true_and]
  by_cases hv : e.version = auditV3 <;> simp [hv]

theorem reverseNamed_finding {find : UUID → Option LedgerEntry} {ref : UUID} {x : LedgerEntry}
    (kind : e.entryType = .reversal) (named : e.ref = some ref) (hx : find ref = some x)
    (covers : ∀ total, add (c.refundedOfSpend ref) e.worth = .ok total → Covers x e total)
    (h : Rules.reverseNamed c e ref e.worth = .ok c') :
    Rules.reverseNamed (c.finding find) e ref e.worth = .ok (c'.finding find) := by
  obtain ⟨refunds, rfl, hstep⟩ := Rules.reverseNamed_ok kind named h
  cases hstep with
  | reverse spend ref' spent refunded _ named' found ofSpend scope amount sum bound _ _ _ after =>
    rw [named, Option.some.injEq] at named'
    subst named'
    obtain ⟨hk, hs, v, hv, hle⟩ := covers refunded sum
    have hfind : View.resolve (c.finding find) ref = some x := hx
    have hbefore : View.refundedOfSpend (c.finding find) ref = .ok (c.refundedOfSpend ref) := rfl
    unfold Rules.reverseNamed
    simp only [hfind, hk, hs, not_true_eq_false, if_false, ne_eq, hbefore, sum, hv, ok_bind,
      if_neg (not_lt.mpr hle)]
    rw [show refunds = c.spendRefunds.set ref refunded from after]
    rfl
  | place k => simp [kind] at k
  | release _ _ k => simp [kind] at k
  | releaseUnnamed _ _ k => simp [kind] at k
  | spend k => simp [kind] at k
  | keep _ unnamed => simp [named] at unnamed

/-- An accepted entry is accepted wherever spends are found that cover what it refunds. -/
theorem apply_finding {find : UUID → Option LedgerEntry} (keyed : c.Keyed)
    (h : Rules.apply checkHash writing c e = .ok c')
    (covers : e.entryType = .reversal → ∀ ref, e.ref = some ref → ∃ x, find ref = some x ∧
      ∀ total, add (c.refundedOfSpend ref) e.worth = .ok total → Covers x e total) :
    Rules.apply checkHash writing (c.finding find) e = .ok (c'.finding find) := by
  have S := Chain.finding_simulation find
  unfold Rules.apply at h
  obtain ⟨u, hlink, h⟩ := bind_eq_ok.mp h
  obtain ⟨c₁, hversion, h⟩ := bind_eq_ok.mp h
  obtain ⟨⟨c₂, amount⟩, hshape, h⟩ := bind_eq_ok.mp h
  obtain ⟨c₃, hbegin, h⟩ := bind_eq_ok.mp h
  obtain ⟨c₄, hmoney, h⟩ := bind_eq_ok.mp h
  obtain ⟨c₅, hholds, h⟩ := bind_eq_ok.mp h
  obtain ⟨c₆, hflows, h⟩ := bind_eq_ok.mp h
  obtain ⟨c₇, hgov, hadvance⟩ := bind_eq_ok.mp h
  obtain ⟨b₁, hb₁, r₁⟩ := (S.checkVersion ⟨keyed, rfl⟩ e).exists_ok hversion
  obtain ⟨⟨b₂, amount₂⟩, hb₂, r₂, ha₂⟩ := (S.checkShape r₁ e).exists_ok hshape
  obtain ⟨b₃, hb₃, r₃⟩ := (S.beginTransaction r₂ e).exists_ok hbegin
  obtain ⟨b₄, hb₄, r₄⟩ := (S.moveMoney r₃ e amount).exists_ok hmoney
  have hworth := (Rules.checkShape_ok hshape).2.1
  have hrefunds : c₄.refundedOfSpend = c.refundedOfSpend := by
    obtain ⟨v₁, v₂, v₃, rfl, -⟩ := Rules.checkVersion_ok hversion
    obtain ⟨⟨cp, rfl⟩, -⟩ := Rules.checkShape_ok hshape
    obtain ⟨rfl, -⟩ := Rules.beginTransaction_ok hbegin
    obtain ⟨after, net, -, -, -, rfl⟩ := Rules.moveMoney_ok hmoney
    rfl
  have hb₅ : Rules.checkHolds b₄ e amount = .ok (c₅.finding find) ∧ c₅.Keyed := by
    by_cases hk : e.entryType = .reversal → e.ref = none
    · obtain ⟨b₅, hb₅, r₅⟩ := (S.checkHolds r₄ hk amount).exists_ok hholds
      exact ⟨by rw [hb₅, r₅.2], r₅.1⟩
    · obtain ⟨kind, hr⟩ := Classical.not_imp.mp hk
      obtain ⟨ref, named⟩ := Option.ne_none_iff_exists'.mp hr
      obtain ⟨x, hx, hcov⟩ := covers kind ref named
      rw [checkHolds_reversal kind named] at hholds ⊢
      split_ifs at hholds ⊢
      · rw [r₄.2]
        rw [hworth] at hholds ⊢
        refine ⟨reverseNamed_finding kind named hx (by rw [hrefunds]; exact hcov) hholds, ?_⟩
        obtain ⟨refunds, rfl, -⟩ := Rules.reverseNamed_ok kind named hholds
        exact r₄.1
  have r₅ : c₅.Keyed ∧ c₅.finding find = c₅.finding find := ⟨hb₅.2, rfl⟩
  obtain ⟨b₆, hb₆, r₆⟩ := (S.checkFlows r₅ e amount writing).exists_ok hflows
  obtain ⟨b₇, hb₇, r₇⟩ := (S.checkGovernance r₆ e amount).exists_ok hgov
  obtain ⟨b₈, hb₈, r₈⟩ := (S.advance r₇ e amount).exists_ok hadvance
  have hlink' : Rules.checkLink (c.finding find) e checkHash = .ok u := hlink
  unfold Rules.apply
  dsimp only at ha₂
  subst ha₂
  rw [hlink', ok_bind, hb₁, ok_bind, hb₂, ok_bind]
  dsimp only
  rw [hb₃, ok_bind, hb₄, ok_bind, hb₅.1, ok_bind, hb₆, ok_bind, hb₇, ok_bind, hb₈, r₈.2]

/-! ### Runs -/

/-- Each refund of `l` that names a spend finds one covering it, and the refunds before it. -/
def Answers (find : UUID → Option LedgerEntry) (l : List LedgerEntry) : Prop :=
  ∀ before e after ref, l = before ++ e :: after → e.entryType = .reversal → e.ref = some ref →
    ∃ x, find ref = some x ∧ Covers x e (refundsNaming (before ++ [e]) ref)

variable {unit : Unit} {legacy : List ControlEvent} {find : UUID → Option LedgerEntry}
  {l entries : List LedgerEntry}

/-- The refunds of an accepted chain are covered by the spends it finds. -/
theorem run_answers
    (h : runAll (Rules.apply checkHash writing) (Chain.empty unit legacy find) l = .ok c) :
    Answers find l := by
  rintro before e after ref rfl kind named
  obtain ⟨c₁, c₂, h₁, ha, -⟩ := Chain.run_split h
  have hpos := ha.amount_pos (by rw [kind]; rfl)
  cases ha.holds with
  | reverse spend ref' spent refunded _ named' found ofSpend scope amount sum bound =>
    rw [named, Option.some.injEq] at named'
    subst named'
    rw [run_refundedOfSpend h₁] at sum
    rw [Chain.run_resolve h₁] at found
    refine ⟨spend, found, ofSpend, scope, spent, amount, ?_⟩
    rw [refundsNaming_snoc hpos kind named sum]
    exact bound
  | place k => simp [kind] at k
  | release _ _ k => simp [kind] at k
  | releaseUnnamed _ _ k => simp [kind] at k
  | spend k => simp [kind] at k
  | keep _ unnamed => simp [named] at unnamed

/-- An accepted chain is accepted, and ends alike, wherever its refunds find spends that cover
them. -/
theorem run_finding {find' : UUID → Option LedgerEntry} (answers : Answers find' l)
    (h : runAll (Rules.apply checkHash writing) (Chain.empty unit legacy find) l = .ok c) :
    runAll (Rules.apply checkHash writing) (Chain.empty unit legacy find') l =
      .ok (c.finding find') := by
  induction l using List.reverseRecOn generalizing c with
  | nil => cases h; rfl
  | append_singleton l e ih =>
    obtain ⟨c₁, h₁, he⟩ := runAll_append_eq_ok.mp h
    rw [runAll_singleton] at he
    have hprefix : Answers find' l := by
      rintro before x after ref rfl
      exact answers before x (after ++ [e]) ref (by simp)
    refine runAll_append_eq_ok.mpr ⟨_, ih hprefix h₁, ?_⟩
    rw [runAll_singleton]
    refine apply_finding (run_treeKept h₁).keyed he fun kind ref named => ?_
    obtain ⟨x, hx, covers⟩ := answers l e [] ref rfl kind named
    refine ⟨x, hx, fun total htotal => ?_⟩
    rw [run_refundedOfSpend h₁] at htotal
    have hpos := (applied_of_apply he).amount_pos (by rw [kind]; rfl)
    rwa [refundsNaming_snoc hpos kind named htotal] at covers

/-- The entries of a chain are numbered in order. -/
theorem run_sequence_lt {before after : List LedgerEntry} {x : LedgerEntry}
    (h : runAll (Rules.apply checkHash writing) (Chain.empty unit legacy find)
      (before ++ e :: after) = .ok c) (hx : x ∈ before) : x.sequence < e.sequence := by
  obtain ⟨first, second, rfl⟩ := List.append_of_mem hx
  obtain ⟨c₁, c₂, h₁, ha, -⟩ := Chain.run_split h
  obtain ⟨c₃, c₄, h₃, hx', -⟩ := Chain.run_split h₁
  rw [ha.sequence, hx'.sequence, Chain.run_length h₁, Chain.run_length h₃]
  simp only [List.length_append, List.length_cons]
  omega

/-- A replay accepts the chains that run to a balanced end. -/
theorem replay_isOk_iff : (replay l legacy false none none unit).isOk = true ↔
    ∃ c, runAll (Rules.apply true false) (Chain.empty unit legacy (spendIndex l)) l = .ok c ∧
      c.frame.net = 0 := by
  constructor
  · intro h
    obtain ⟨s, hs⟩ := exists_of_isOk h
    obtain ⟨c, -, -, hc, hn, -⟩ := replay_ok hs
    exact ⟨c, hc, hn⟩
  · rintro ⟨c, hc, hn⟩
    have hend : Chain.replay l legacy false (spendIndex l) unit =
        .ok { c with frame := { c.frame with txn := none, settleable := [] } } := by
      unfold Chain.replay replayView
      rw [hc, ok_bind, if_neg (by simp), Rules.endTransaction]
      exact if_neg (not_not.mpr hn)
    obtain ⟨s, hs, -⟩ := (replay_together l legacy false none unit).exists_ok' hend
    exact isOk_of_eq hs

/-! ### The spends of a list -/

theorem spendIndex_eq_some {ref : UUID} {x : LedgerEntry} (h : spendIndex l ref = some x) :
    x ∈ l ∧ x.entryType = .spend ∧ x.entryId = ref := by
  have hx := List.mem_of_getLast? h
  simpa using hx

/-- Where ids are distinct, the index finds every spend. -/
theorem spendIndex_of_mem {x : LedgerEntry} (distinct : (l.map LedgerEntry.entryId).Nodup)
    (hx : x ∈ l) (kind : x.entryType = .spend) : spendIndex l x.entryId = some x := by
  have hmem : x ∈ l.filter fun e => e.entryType = .spend ∧ e.entryId = x.entryId := by
    simp [hx, kind]
  obtain ⟨y, hy⟩ := Option.ne_none_iff_exists'.mp
    (List.getLast?_eq_none_iff.not.mpr (List.ne_nil_of_mem hmem))
  obtain ⟨hyl, -, hid⟩ := spendIndex_eq_some (l := l) hy
  rw [List.inj_on_of_nodup_map distinct hyl hx hid] at hy
  exact hy

/-! ### Prefixes -/

/-- Every prefix of a ledger ending where a transaction ends is accepted, and every refund that
names a spend names an earlier one, of its scope, worth what its refunds come to. -/
structure PrefixClosed (unit : Unit) (legacy : List ControlEvent) (entries : List LedgerEntry) :
    Prop where
  accepted : ∀ read rest, entries = read ++ rest → EndsTransaction read rest →
    (replay read legacy false none none unit).isOk = true
  named : ∀ before e after ref, entries = before ++ e :: after → e.entryType = .reversal →
    e.ref = some ref → ∃ x ∈ entries, x.sequence < e.sequence ∧ x.entryId = ref ∧
      Covers x e (refundsNaming (before ++ [e]) ref)

/-- Every refund that names a spend is covered by one before it, and by the spend its id stands
for wherever a later transaction ends. -/
structure ResolvedThroughout (entries : List LedgerEntry) : Prop where
  before : ∀ before e after ref, entries = before ++ e :: after → e.entryType = .reversal →
    e.ref = some ref → ∃ x ∈ before, x.entryId = ref ∧
      Covers x e (refundsNaming (before ++ [e]) ref)
  later : ∀ read rest, entries = read ++ rest → EndsTransaction read rest →
    Answers (spendIndex read) read

/-- No refund names a spend that stands after it. -/
def NoForwardRefund (entries : List LedgerEntry) : Prop :=
  entries.Pairwise fun e x =>
    e.entryType = .reversal → x.entryType = .spend → e.ref ≠ some x.entryId

instance (entries : List LedgerEntry) : Decidable (NoForwardRefund entries) :=
  inferInstanceAs (Decidable (List.Pairwise _ _))

theorem noForwardRefund_iff : NoForwardRefund entries ↔
    ∀ before e after, entries = before ++ e :: after → e.entryType = .reversal →
      ∀ x ∈ after, x.entryType = .spend → e.ref ≠ some x.entryId := by
  constructor
  · rintro h before e after rfl kind x hx hspend
    exact List.rel_of_pairwise_cons (List.pairwise_append.mp h).2.1 hx kind hspend
  · intro h
    induction entries with
    | nil => exact List.Pairwise.nil
    | cons e l ih =>
      refine List.Pairwise.cons (fun x hx kind hspend => h [] e l rfl kind x hx hspend) (ih ?_)
      rintro before x after rfl
      exact h (e :: before) x after rfl

/-- Where ids are distinct and every refund finds its spend among the entries, it finds it wherever
it looks, if no spend stands after a refund of it. -/
theorem resolvedThroughout_iff_noForwardRefund (distinct : (entries.map LedgerEntry.entryId).Nodup)
    (answers : Answers (spendIndex entries) entries) :
    ResolvedThroughout entries ↔ NoForwardRefund entries := by
  rw [noForwardRefund_iff]
  constructor
  · rintro h before e after rfl kind x hx hspend named
    obtain ⟨y, hy, hid, -⟩ := h.before before e after _ rfl kind named
    rw [List.map_append, List.map_cons] at distinct
    have := List.disjoint_of_nodup_append distinct (List.mem_map_of_mem hy)
    rw [hid] at this
    exact this (List.mem_cons_of_mem _ (List.mem_map_of_mem hx))
  · intro h
    have found : ∀ before e after ref, entries = before ++ e :: after →
        e.entryType = .reversal → e.ref = some ref →
        ∃ x ∈ before, x.entryId = ref ∧ Covers x e (refundsNaming (before ++ [e]) ref) := by
      intro before e after ref heq kind named
      obtain ⟨x, hx, covers⟩ := answers before e after ref heq kind named
      obtain ⟨hmem, hspend, hid⟩ := spendIndex_eq_some hx
      refine ⟨x, ?_, hid, covers⟩
      rw [heq, List.mem_append, List.mem_cons] at hmem
      rcases hmem with hb | rfl | ha
      · exact hb
      · rw [kind] at hspend
        cases hspend
      · exact absurd (hid ▸ named) (h before e after heq kind x ha hspend)
    refine ⟨found, ?_⟩
    rintro read rest rfl - before e after ref rfl kind named
    obtain ⟨x, hx, hid, covers⟩ := found before e (after ++ rest) ref (by simp) kind named
    rw [List.map_append] at distinct
    refine ⟨x, ?_, covers⟩
    rw [← hid]
    exact spendIndex_of_mem distinct.of_append_left (List.mem_append_left _ hx) covers.kind

/-- An accepted ledger is closed under prefixes exactly when its refunds are resolved throughout;
where ids are distinct, exactly when no refund names a spend that stands after it. -/
theorem prefixClosed_iff_resolved {s : ChainState}
    (accepted : replay entries legacy false none none unit = .ok s) :
    (PrefixClosed unit legacy entries ↔ ResolvedThroughout entries) ∧
      ((entries.map LedgerEntry.entryId).Nodup →
        (PrefixClosed unit legacy entries ↔ NoForwardRefund entries)) := by
  obtain ⟨c, -, -, hrun, hnet, -⟩ := replay_ok accepted
  have closed : PrefixClosed unit legacy entries ↔ ResolvedThroughout entries := by
    constructor
    · intro h
      refine ⟨?_, ?_⟩
      · rintro before e after ref rfl kind named
        obtain ⟨x, hx, hlt, hid, covers⟩ := h.named before e after ref rfl kind named
        refine ⟨x, ?_, hid, covers⟩
        rw [List.mem_append, List.mem_cons] at hx
        rcases hx with hb | rfl | ha
        · exact hb
        · exact absurd hlt (lt_irrefl _)
        · obtain ⟨first, second, rfl⟩ := List.append_of_mem ha
          rw [← List.cons_append, ← List.append_assoc] at hrun
          have hgt := run_sequence_lt hrun (List.mem_append_right _ List.mem_cons_self)
          omega
      · intro read rest heq hends
        obtain ⟨c₁, h₁, -⟩ := replay_isOk_iff.mp (h.accepted read rest heq hends)
        exact run_answers h₁
    · intro h
      refine ⟨?_, ?_⟩
      · rintro read rest rfl hends
        obtain ⟨c₁, h₁, hrest⟩ := runAll_append_eq_ok.mp hrun
        have hn := net_eq_zero_of_endsTransaction hends h₁ hrest hnet
        exact replay_isOk_iff.mpr ⟨_, run_finding (h.later read rest rfl hends) h₁, hn⟩
      · rintro before e after ref rfl kind named
        obtain ⟨x, hx, hid, covers⟩ := h.before before e after ref rfl kind named
        exact ⟨x, List.mem_append_left _ hx, run_sequence_lt hrun hx, hid, covers⟩
  exact ⟨closed, fun distinct =>
    closed.trans (resolvedThroughout_iff_noForwardRefund distinct (run_answers hrun))⟩

/-- The ledger on which a child holds, settles and is refunded is closed under prefixes. -/
theorem prefixClosed_sampleChain : PrefixClosed USD [] sampleChain := by
  obtain ⟨s, hs⟩ := exists_of_isOk sampleChain_accepted
  exact ((prefixClosed_iff_resolved hs).2 (by decide)).mpr (by decide)

/-- A ledger whose refund names a spend of a later transaction. -/
def earlyRefund : List LedgerEntry :=
  linked 0 genesisHash
    [draft 1 1 .funding .credit (txt "a") 10 10,
     draft 2 2 .spend .debit (txt "a") 3 7,
     { draft 3 3 .reversal .credit (txt "a") 1 8 with ref := some 4 },
     draft 4 4 .spend .debit (txt "a") 3 5]

/-- The chain is accepted, and its first three entries, which end a transaction, are not. -/
theorem earlyRefund_not_closed : (replay earlyRefund [] false none none USD).isOk = true ∧
    ¬PrefixClosed USD [] earlyRefund := by
  refine ⟨by decide +kernel, fun h => ?_⟩
  have hends : EndsTransaction (earlyRefund.take 3) (earlyRefund.drop 3) := by
    unfold EndsTransaction
    decide
  have hread := h.accepted _ _ (List.take_append_drop 3 earlyRefund).symm hends
  have hnot : (replay (earlyRefund.take 3) [] false none none USD).isOk = false := by
    decide +kernel
  rw [hnot] at hread
  cases hread

end AgentGov
