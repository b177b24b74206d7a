import AgentGov.Correspondence
import AgentGov.Replay

/-!
# Views of a chain

The states and views that replays, staged entries and merges lead to keep their open holds under
their own ids and the keys an unnamed release has touched as a set, whatever the mix of named and
unnamed releases.

## Main definitions

* `AgentGov.Viewed`: the views a ledger can have of a chain.

## Main results

* `AgentGov.Overlay.filed_simulation`: every rule keeps a view in order.
* `AgentGov.Viewed.lists`: the lookups of a view of a chain agree.
* `AgentGov.reconciliation`: the authorizations served correspond to the open holds.
-/

open Foundation

namespace AgentGov

/-- A state keeps holds and scopes under their own ids, and no hold key twice. -/
structure ChainState.Filed (s : ChainState) : Prop where
  holds : ∀ id hold, s.holds.get? id = some hold → hold.entryId = id
  ambiguous : s.ambiguous.Pairwise fun a b => HoldKey.same a b = false
  nodes : ∀ scope n, s.nodes.get? scope = some n → n.scopeId = scope

/-- So does a view over it, which closes only holds of the base and opens only others. -/
structure Overlay.Filed (o : Overlay) : Prop where
  base : o.base.Filed
  opened : ∀ id hold, o.opened.get? id = some hold → hold.entryId = id
  apart : ∀ id ∈ o.opened.keys, id ∉ o.base.holds.keys
  closed : ∀ id ∈ o.closed, id ∈ o.base.holds.keys
  ambiguous : o.ambiguous.Pairwise fun a b => HoldKey.same a b = false
  nodes : ∀ scope n, o.nodes.get? scope = some n → n.scopeId = scope

theorem pairwise_addKey {keys : List HoldKey}
    (h : keys.Pairwise fun a b => HoldKey.same a b = false) (key : HoldKey) :
    (addKey key keys).Pairwise fun a b => HoldKey.same a b = false := by
  unfold addKey
  split_ifs with hany
  · exact h
  · rw [List.pairwise_append]
    refine ⟨h, List.pairwise_singleton _ _, fun a ha b hb => ?_⟩
    rw [List.mem_singleton.mp hb, HoldKey.same_comm]
    rw [List.any_eq_true] at hany
    push Not at hany
    simpa using hany a ha

theorem pairwise_foldl_addKey {keys base : List HoldKey}
    (h : base.Pairwise fun a b => HoldKey.same a b = false) :
    (keys.foldl (fun ks key => addKey key ks) base).Pairwise fun a b => HoldKey.same a b = false := by
  induction keys generalizing base with
  | nil => exact h
  | cons key keys ih => exact ih (pairwise_addKey h key)

namespace Overlay

variable {o : Overlay}

theorem Filed.node (h : o.Filed) {scope : Text} {n : BudgetNode} (hn : o.node scope = some n) :
    n.scopeId = scope := by
  rcases Option.or_eq_some_iff.mp hn with hn | ⟨-, hn⟩
  · exact h.nodes scope n hn
  · exact h.base.nodes scope n hn

theorem Filed.setNode (h : o.Filed) {scope : Text} {n : BudgetNode} (hn : n.scopeId = scope) :
    ∀ s m, (o.nodes.set scope n).get? s = some m → m.scopeId = s := by
  intro s m hm
  rw [Dict.get?_set] at hm
  split_ifs at hm with hs
  · cases hm
    rw [hn, hs]
  · exact h.nodes s m hm

theorem Filed.placeHold (h : o.Filed) {e : LedgerEntry}
    (new : o.base.holds.get? e.entryId = none) : Filed (View.placeHold o e) :=
  { h with
    opened := by
      intro id hold hid
      change (o.opened.set e.entryId e).get? id = some hold at hid
      rw [Dict.get?_set] at hid
      split_ifs at hid with he
      · cases hid
        exact he.symm
      · exact h.opened id hold hid
    apart := by
      intro id hid
      rcases Dict.mem_keys_set.mp hid with rfl | hid
      · exact Dict.get?_eq_none_iff.mp new
      · exact h.apart id hid }

theorem Filed.dropHold (h : o.Filed) {hold : UUID} (hopen : (o.openHold hold).isSome) :
    Filed (View.dropHold o hold) := by
  by_cases hm : (o.opened.get? hold).isSome
  · have hdrop : View.dropHold o hold = { o with opened := o.opened.erase hold } := if_pos hm
    rw [hdrop]
    refine { h with opened := ?_, apart := ?_ }
    · intro id e hid
      rw [Dict.get?_erase] at hid
      split_ifs at hid
      exact h.opened id e hid
    · intro id hid
      rw [Dict.keys_erase] at hid
      exact h.apart id (List.mem_filter.mp hid).1
  · have hnone : o.opened.get? hold = none := by simpa using hm
    have hfresh : hold ∉ o.closed := by
      intro hcl
      simp [Overlay.openHold, hcl] at hopen
    have hbase : hold ∈ o.base.holds.keys := by
      simp only [Overlay.openHold, hfresh, ↓reduceIte, hnone, Option.none_or] at hopen
      exact Dict.mem_keys_iff.mpr (Option.isSome_iff_exists.mp hopen)
    have hdrop : View.dropHold o hold = { o with closed := o.closed ++ [hold] } := by
      change (if _ then _ else _) = _
      rw [if_neg hm, if_neg hfresh]
    rw [hdrop]
    refine { h with closed := ?_ }
    intro id hid
    rcases List.mem_append.mp hid with hid | hid
    · exact h.closed id hid
    · rw [List.mem_singleton.mp hid]
      exact hbase

theorem base_dropHold (o : Overlay) (hold : UUID) : (View.dropHold o hold).base = o.base := by
  change (ite _ _ _ : Overlay).base = o.base
  split <;> rfl

theorem Filed.setAllocated (h : o.Filed) (scope : Text) (v : Value) :
    Filed (View.setAllocated o scope v) := by
  change Filed (Overlay.setAllocated o scope v)
  unfold Overlay.setAllocated
  split
  · exact h
  · rename_i n hn
    have hid : n.scopeId = scope := h.node hn
    exact { h with nodes := h.setNode (n := { n with allocated := v }) hid }

theorem base_setAllocated (o : Overlay) (scope : Text) (v : Value) :
    (View.setAllocated o scope v).base = o.base := by
  change (Overlay.setAllocated o scope v).base = o.base
  unfold Overlay.setAllocated
  split <;> rfl

/-- Every rule keeps a view in order, for holds placed under ids the base has not open. -/
theorem filed_simulation (base : ChainState) :
    Simulation (fun a b : Overlay => a = b ∧ a.Filed ∧ a.base = base)
      (fun e => e.entryType = .hold → base.holds.get? e.entryId = none) where
  core h := by rw [h.1]
  frame h := by rw [h.1]
  unit h := by rw [h.1]
  balance h _ := by rw [h.1]
  openHold h _ := by rw [h.1]
  iterHolds h := by rw [h.1]
  node h _ := by rw [h.1]
  scopeId_node {a b scope n} h hn := by
    obtain ⟨m, hm, rfl⟩ := Option.map_eq_some_iff.mp hn
    exact h.2.1.node hm
  openHold_of_mem {a b hold x} h hx := by
    obtain ⟨p, hp, hpx⟩ := List.mem_map.mp hx
    cases hpx
    change ((a.openHold p.1).map _).isSome
    rw [Option.isSome_map, Overlay.openHold]
    rcases List.mem_append.mp hp with hp | hp
    · obtain ⟨hmem, hopen⟩ := List.mem_filter.mp hp
      rw [if_neg (by simpa using hopen), Option.isSome_or, Dict.get?_eq_some_iff.mpr hmem]
      simp
    · have hkey : p.1 ∈ a.opened.keys := List.mem_map_of_mem hp
      rw [if_neg fun hc => h.2.1.apart _ hkey (h.2.1.closed _ hc), Option.isSome_or,
        Dict.get?_eq_some_iff.mpr hp]
      simp
  spentBy h _ := by rw [h.1]
  refundedTo h _ := by rw [h.1]
  holdsOpenIn h _ := by rw [h.1]
  refundedOfSpend h _ := by rw [h.1]
  isSealed h := by rw [h.1]
  resolve h _ _ _ := by rw [h.1]
  setCore h _ := ⟨by rw [h.1], { h.2.1 with }, h.2.2⟩
  setFrame h _ := ⟨by rw [h.1], { h.2.1 with }, h.2.2⟩
  setBalance h _ _ := ⟨by rw [h.1], { h.2.1 with }, h.2.2⟩
  placeHold h hP he := ⟨by rw [h.1], h.2.1.placeHold (by rw [h.2.2]; exact hP he), h.2.2⟩
  dropHold {a b} h hold ho := by
    refine ⟨by rw [h.1], h.2.1.dropHold ?_, (base_dropHold a hold).trans h.2.2⟩
    change ((a.openHold hold).map _).isSome at ho
    rwa [Option.isSome_map] at ho
  noteReleased h _ := ⟨by rw [h.1], { h.2.1 with }, h.2.2⟩
  markAmbiguous h key :=
    ⟨by rw [h.1], { h.2.1 with ambiguous := pairwise_addKey h.2.1.ambiguous key }, h.2.2⟩
  setCount h _ _ := ⟨by rw [h.1], { h.2.1 with }, h.2.2⟩
  setSpendRefunds h _ _ := ⟨by rw [h.1], { h.2.1 with }, h.2.2⟩
  setSpent h _ _ := ⟨by rw [h.1], { h.2.1 with }, h.2.2⟩
  setRefunded h _ _ := ⟨by rw [h.1], { h.2.1 with }, h.2.2⟩
  createRoot h n _ := ⟨by rw [h.1], { h.2.1 with nodes := h.2.1.setNode rfl }, h.2.2⟩
  createChild h _ n _ _ := ⟨by rw [h.1], { h.2.1 with nodes := h.2.1.setNode rfl }, h.2.2⟩
  setAllocated {a b} h scope v _ :=
    ⟨by rw [h.1], h.2.1.setAllocated scope v, (base_setAllocated a scope v).trans h.2.2⟩
  setTrip h _ _ := ⟨by rw [h.1], { h.2.1 with }, h.2.2⟩
  noteEvent h _ := ⟨by rw [h.1], { h.2.1 with }, h.2.2⟩
  placeSeal h _ := ⟨by rw [h.1], { h.2.1 with }, h.2.2⟩

end Overlay

/-! ### Merging -/

theorem ChainState.filed_empty (unit : Unit) (legacy : List ControlEvent) :
    (ChainState.empty unit legacy).Filed where
  holds id hold h := by simp [ChainState.empty] at h
  ambiguous := List.Pairwise.nil
  nodes scope n h := by simp [ChainState.empty] at h

namespace Overlay

variable {o : Overlay}

theorem filed_staging {s : ChainState} (h : s.Filed) (resolve : UUID → Option LedgerEntry)
    (refunds : Option (UUID → ℕ → Except Error Value)) (released : Option (List UUID)) :
    (staging s resolve refunds released).Filed where
  base := h
  opened id hold hid := by simp [staging] at hid
  apart id hid := by simp [staging] at hid
  closed id hid := by simp [staging] at hid
  ambiguous := List.Pairwise.nil
  nodes scope n hn := by simp [staging] at hn

/-- A merge keeps the state in order. -/
theorem Filed.merge (h : o.Filed) : o.merge.Filed where
  holds id hold hid := by
    simp only [Overlay.merge, Dict.get?_update, Dict.get?_eraseAll] at hid
    rcases Option.or_eq_some_iff.mp hid with hid | ⟨-, hid⟩
    · exact h.opened id hold hid
    · split_ifs at hid
      exact h.base.holds id hold hid
  ambiguous := pairwise_foldl_addKey h.base.ambiguous
  nodes scope n hn := by
    rw [get?_merge_nodes] at hn
    cases hs : o.nodes.get? scope with
    | none =>
      cases hb : o.base.nodes.get? scope with
      | none => simp [hs, hb, mergedNode] at hn
      | some b =>
        simp only [hs, hb, mergedNode, Option.some.injEq] at hn
        subst hn
        exact h.base.nodes scope b hb
    | some m =>
      cases hb : o.base.nodes.get? scope with
      | none =>
        simp only [hs, hb, mergedNode, Option.some.injEq] at hn
        subst hn
        exact h.nodes scope m hs
      | some b =>
        simp only [hs, hb, mergedNode, Option.some.injEq] at hn
        subst hn
        exact h.base.nodes scope b hb

end Overlay

/-! ### The views of a chain -/

/-- The views a ledger can have of a chain: the state a replay leaves, a view of a state with
entries staged whose holds have ids of their own, and the state its merge leaves. -/
inductive Viewed : ChainView → Prop
  | replayed {entries : List LedgerEntry} {legacy : List ControlEvent} {fin : Bool}
      {resolve : Option (UUID → Option LedgerEntry)}
      {refunds : Option (UUID → ℕ → Except Error Value)} {unit : Unit} {s : ChainState}
      (h : replay entries legacy fin resolve refunds unit = .ok s) : Viewed (.state s)
  | staging {s : ChainState} (h : Viewed (.state s)) (resolve : UUID → Option LedgerEntry)
      (refunds : Option (UUID → ℕ → Except Error Value)) (released : Option (List UUID)) :
      Viewed (.overlay (Overlay.staging s resolve refunds released))
  | applied {o o' : Overlay} {e : LedgerEntry} (h : Viewed (.overlay o)) (checkHash writing : Bool)
      (new : e.entryType = .hold → o.base.holds.get? e.entryId = none)
      (ha : Rules.apply checkHash writing o e = .ok o') : Viewed (.overlay o')
  | ended {o o' : Overlay} (h : Viewed (.overlay o)) (he : Rules.endTransaction o = .ok o') :
      Viewed (.overlay o')
  | noted {o o' : Overlay} {event : ControlEvent} (h : Viewed (.overlay o))
      (hn : Rules.applyLegacyEvent o event = .ok o') : Viewed (.overlay o')
  | merged {o : Overlay} (h : Viewed (.overlay o)) : Viewed (.state o.merge)

/-- A state or view in order. -/
def ChainView.Filed : ChainView → Prop
  | .state s => s.Filed
  | .overlay o => o.Filed

namespace Viewed

/-- A rule that keeps two equal views in order ends in one. -/
theorem filed_of_together (base : ChainState) {x : Except Error Overlay} {o : Overlay}
    (h : Together (fun a b : Overlay => a = b ∧ a.Filed ∧ a.base = base) x x) (ho : x = .ok o) :
    o.Filed := by
  subst ho
  exact h.2.1

/-- Every view of a chain is in order. -/
theorem filed {v : ChainView} (h : Viewed v) : v.Filed := by
  induction h with
  | @replayed entries legacy fin resolve refunds unit s h =>
    obtain ⟨o, ho, hs⟩ := bind_eq_ok.mp h
    cases hs
    refine Overlay.Filed.merge (filed_of_together (ChainState.empty unit legacy) ?_ ho)
    exact (Overlay.filed_simulation _).replayView
      ⟨rfl, Overlay.filed_staging (ChainState.filed_empty unit legacy) _ _ _, rfl⟩
      (fun _ _ _ => rfl) fin
  | staging _ resolve refunds released ih => exact Overlay.filed_staging ih resolve refunds released
  | @applied o o' e _ checkHash writing new ha ih =>
    exact filed_of_together _ ((Overlay.filed_simulation o.base).apply ⟨rfl, ih, rfl⟩ new _ _) ha
  | @ended o o' _ he ih =>
    exact filed_of_together _ ((Overlay.filed_simulation o.base).endTransaction ⟨rfl, ih, rfl⟩) he
  | @noted o o' event _ hn ih =>
    exact filed_of_together _ (((Overlay.filed_simulation o.base).control
      ((Overlay.filed_simulation o.base).setCore ⟨rfl, ih, rfl⟩ _) _ _ _ _)) hn
  | merged _ ih => exact Overlay.Filed.merge ih

end Viewed

theorem exists_same_comm {key : HoldKey} {keys : List HoldKey} :
    (∃ k ∈ keys, HoldKey.same k key = true) ↔ keys.any (HoldKey.same key) = true := by
  simp only [List.any_eq_true, HoldKey.same_comm]

/-- The lookups of a view of a chain agree. -/
theorem Viewed.lists {v : ChainView} (h : Viewed v) : v.Lists := by
  have hfiled := h.filed
  match v with
  | .state s =>
    exact {
      openHold := fun id hold => Dict.get?_eq_some_iff
      nodup := s.holds.nodup
      keyed := fun p hp => hfiled.holds p.1 p.2 (Dict.get?_eq_some_iff.mpr hp)
      ambiguous := fun key => exists_same_comm.symm
      distinct := hfiled.ambiguous }
  | .overlay o =>
    have hopened : ∀ p ∈ o.opened.items, p.1 ∉ o.closed := fun p hp hc =>
      hfiled.apart p.1 (List.mem_map_of_mem hp) (hfiled.closed _ hc)
    constructor
    · intro id hold
      rw [ChainView.openHold, ChainView.iterHolds, Overlay.openHold, Overlay.iterHolds,
        List.mem_append, List.mem_filter, ← Dict.get?_eq_some_iff, ← Dict.get?_eq_some_iff]
      by_cases hc : id ∈ o.closed
      · have hnone : o.opened.get? id = none := Dict.get?_eq_none_iff.mpr
          fun hmem => hfiled.apart id hmem (hfiled.closed id hc)
        simp [hc, hnone]
      · rw [if_neg hc, Option.or_eq_some_iff]
        constructor
        · rintro (hid | ⟨-, hid⟩)
          · exact Or.inr hid
          · exact Or.inl ⟨hid, by simpa using hc⟩
        · rintro (⟨hid, -⟩ | hid)
          · refine Or.inr ⟨Dict.get?_eq_none_iff.mpr fun hmem => ?_, hid⟩
            exact hfiled.apart id hmem (Dict.mem_keys_iff.mpr ⟨hold, hid⟩)
          · exact Or.inl hid
    · rw [ChainView.iterHolds, Overlay.iterHolds, List.map_append, List.nodup_append]
      refine ⟨o.base.holds.nodup.sublist (List.filter_sublist.map _), o.opened.nodup, ?_⟩
      rintro id hid _ hid' rfl
      exact hfiled.apart id hid' ((List.filter_sublist.map _).subset hid)
    · intro p hp
      rcases List.mem_append.mp hp with hp | hp
      · exact hfiled.base.holds p.1 p.2 (Dict.get?_eq_some_iff.mpr (List.mem_filter.mp hp).1)
      · exact hfiled.opened p.1 p.2 (Dict.get?_eq_some_iff.mpr hp)
    · intro key
      rw [exists_same_comm, ChainView.ambiguousKeys, any_foldl_addKey, Bool.or_comm]
      rfl
    · exact pairwise_foldl_addKey hfiled.ambiguous

/-! ### Rows and holds -/

/-- **Rows and open holds correspond.** For every view of a chain and rows with ids of their own:
where amounts compare the matching comes to its end; where it repairs or finds no problem, each
open hold has one authorization, with its scope and amount; and a hold that no unnamed release can
have closed stays with the first row that names it, where that records it. -/
theorem reconciliation {v : ChainView} (hv : Viewed v) (index : HoldIndex)
    (render : HoldKey → Text) {rows : List PersistedAuthorization}
    (distinct : (rows.map PersistedAuthorization.authorizationId).Nodup) (own : v.OwnIds rows) :
    (v.Comparable index rows → ∀ repairing, ∃ result problems,
      v.reconcile index render rows repairing = .ok (result, problems)) ∧
    ∀ repairing result problems, v.reconcile index render rows repairing = .ok (result, problems) →
      (repairing = true ∨ problems = [] → v.InCorrespondence result) ∧
      ∀ row hold, rows.find? (fun r => r.entryId = hold.entryId) = some row →
        v.openHold hold.entryId = some hold → v.isAmbiguous hold.holdKey = false →
        ChainView.Records row hold →
        result.get? row.authorizationId = some (ChainView.authorizationOf row hold) := by
  have hrun : ∀ {m}, rows.foldlM (v.matchRow index) {} = .ok m →
      ChainView.Matched v index rows rows m := fun hm =>
    ChainView.Matched.init.run hv.lists distinct own (fun _ => id) hm
  constructor
  · intro hcomparable repairing
    obtain ⟨m, hm⟩ := ChainView.exists_matchRows hcomparable {}
    obtain ⟨result, problems, hok, -⟩ :=
      (hrun hm).reconcile hv.lists distinct own hm render repairing
    exact ⟨result, problems, hok⟩
  · intro repairing result problems hreconcile
    obtain ⟨m, hm⟩ : ∃ m, rows.foldlM (v.matchRow index) {} = .ok m := by
      rw [ChainView.reconcile] at hreconcile
      obtain ⟨m, hm, -⟩ := bind_eq_ok.mp hreconcile
      exact ⟨m, hm⟩
    obtain ⟨result', problems', hok, hholds, hserved⟩ :=
      (hrun hm).reconcile hv.lists distinct own hm render repairing
    rw [hok, Except.ok.injEq, Prod.mk.injEq] at hreconcile
    obtain ⟨rfl, rfl⟩ := hreconcile
    refine ⟨hholds, fun row hold hfirst hopen hplain hrecords => ?_⟩
    exact hserved _ ((hrun hm).keeps row hold hfirst hopen hplain hrecords)

/-- A ledger of AGOV1 on which a release names neither of two equal holds, and a third hold is
open. -/
def unnamedChain : List LedgerEntry :=
  linked 0 genesisHash ([draft 1 1 .funding .credit (txt "a") 10 10,
    draft 2 2 .hold .debit (txt "a") 4 6, draft 3 3 .hold .debit (txt "a") 4 2,
    draft 4 4 .holdVoid .credit (txt "a") 4 6,
    draft 5 5 .hold .debit (txt "a") 5 1].map fun e => { e with version := auditV1 })

/-- A row for four that names the released hold, and two rows that name the third. -/
def unnamedRows : List PersistedAuthorization :=
  [⟨12, txt "a", Decimal.ofInt 4, newYear, 2⟩, ⟨15, txt "a", Decimal.ofInt 5, newYear, 5⟩,
    ⟨16, txt "a", Decimal.ofInt 5, newYear, 5⟩]

/-- What a matching of the rows with the ledger's open holds serves, by the ids of authorizations
and holds. -/
def unnamedServed (s : ChainState) (repairing : Bool) : Option (List (UUID × UUID)) :=
  match (ChainView.state s).reconcile (.over unnamedChain) (fun _ => []) unnamedRows repairing with
  | .ok (result, _) => some (result.items.map fun p => (p.1, p.2.entry.entryId))
  | .error _ => none

theorem unnamedChain_accepted : (replay unnamedChain [] false none none USD).toOption.any (fun s =>
    decide (s.holds.keys = [3, 5] ∧
      (s.holds.get? 5).map LedgerEntry.holdKey = some (txt "a", Decimal.ofInt 5) ∧
      s.ambiguous = [(txt "a", Decimal.ofInt 4)] ∧
      ∀ repairing, unnamedServed s repairing = some [(15, 5), (12, 3)])) = true := by
  decide +kernel

theorem ownIds_unnamedRows {s : ChainState} (h : s.holds.keys = [3, 5]) :
    (ChainView.state s).OwnIds unnamedRows := by
  have hids : ∀ row ∈ unnamedRows, row.authorizationId ∉ [(3 : UUID), 5] := by decide
  intro row hrow hopen
  refine absurd ?_ (hids row hrow)
  rw [← h]
  exact Dict.mem_keys_iff.mpr (Option.isSome_iff_exists.mp hopen)

theorem reconciliation_unnamedRows : ∃ s result problems,
    replay unnamedChain [] false none none USD = .ok s ∧
    (ChainView.state s).reconcile (.over unnamedChain) (fun _ => []) unnamedRows true =
      .ok (result, problems) ∧ (ChainView.state s).InCorrespondence result := by
  obtain ⟨s, hs, hfacts⟩ := exists_of_any unnamedChain_accepted
  obtain ⟨hkeys, -, -, hserved⟩ := of_decide_eq_true hfacts
  have hrun := hserved true
  rw [unnamedServed] at hrun
  match hreconcile : (ChainView.state s).reconcile (.over unnamedChain) (fun _ => []) unnamedRows
      true with
  | .error fault => simp [hreconcile] at hrun
  | .ok (result, problems) =>
    exact ⟨s, result, problems, hs, hreconcile, ((reconciliation (Viewed.replayed hs) _ _
      (by decide) (ownIds_unnamedRows hkeys)).2 true result problems hreconcile).1 (Or.inl rfl)⟩

/-- A second row that names an open hold which no unnamed release can have closed, in its scope
and for its amount, is not served, whether the matching repairs or not. -/
theorem second_row_dropped : ∃ s hold row, replay unnamedChain [] false none none USD = .ok s ∧
    (unnamedRows.map PersistedAuthorization.authorizationId).Nodup ∧
    (ChainView.state s).OwnIds unnamedRows ∧ row ∈ unnamedRows ∧
    (ChainView.state s).openHold row.entryId = some hold ∧
    (ChainView.state s).isAmbiguous hold.holdKey = false ∧ ChainView.Records row hold ∧
    ∀ repairing, ∃ ids, unnamedServed s repairing = some ids ∧
      row.authorizationId ∉ ids.map Prod.fst := by
  obtain ⟨s, hs, hfacts⟩ := exists_of_any unnamedChain_accepted
  obtain ⟨hkeys, hkey, hambiguous, hserved⟩ := of_decide_eq_true hfacts
  obtain ⟨hold, hopen, hholdKey⟩ := Option.map_eq_some_iff.mp hkey
  have hscope : hold.scopeId = txt "a" := congrArg Prod.fst hholdKey
  have hamount : hold.amount = Decimal.ofInt 5 := congrArg Prod.snd hholdKey
  refine ⟨s, hold, ⟨16, txt "a", Decimal.ofInt 5, newYear, 5⟩, hs, by decide,
    ownIds_unnamedRows hkeys, by decide, hopen, ?_, ⟨hscope, by rw [hamount]; decide +kernel⟩,
    fun repairing => ⟨_, hserved repairing, by decide⟩⟩
  rw [ChainView.isAmbiguous, hambiguous, hholdKey]
  decide +kernel

end AgentGov
