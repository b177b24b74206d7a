import AgentGov.Foundation.BreadthFirst
import AgentGov.Foundation.Sequences
import AgentGov.Vocabulary
import Mathlib.Algebra.Order.BigOperators.Group.List

/-!
# The check of the delegation tree

The structural check of the scopes walks from each scope to its parent, and the parent must list
it. Balances of a subtree are summed the other way, down the lists of children
(`src/src/agentgov/core.py`, lines 5624–5666 and 6688–6723). A scope has a depth of any sign here,
as a decoded snapshot may hold it.

## Main definitions

* `AgentGov.Delegation.Tree`: scopes with their parents, depths and children, and the roots.
* `AgentGov.Delegation.Tree.verify`: the check.
* `AgentGov.Delegation.Tree.descendants`, `AgentGov.Delegation.Tree.ancestry`,
  `AgentGov.Delegation.Tree.haltedBy`: the walks, where they come to an end.
* `AgentGov.Delegation.Tree.Consistent`: what is claimed of the walks.
* `AgentGov.Delegation.Tree.ListsItsChildren`: no list of children has a stray entry.

## Main results

* `AgentGov.Delegation.Tree.ancestry_spec`: in an accepted tree every walk up ends at a root.
* `AgentGov.Delegation.Tree.consistent_iff`: the walks down are right exactly where no list of
  children has a stray entry.
* `AgentGov.Delegation.looping_accepted`: a root that lists itself is accepted.
-/

open Foundation

namespace AgentGov.Delegation

/-- `BudgetNode`, as far as the tree is concerned. -/
structure Node where
  parentId : Option Text
  depth : ℤ
  childIds : List Text
deriving DecidableEq

/-- The scopes of a state, and its roots. -/
structure Tree where
  nodes : Dict Text Node
  roots : List Text

/-- What the check finds wrong with a scope. -/
inductive Fault
  | notRoot
  | parentNotRegistered (parentId : Text)
  | notListed (parentId : Text)
  | depthInconsistent (depth parentDepth : ℤ)
  | cycle
  | ancestorNotRegistered (ancestor : Text)
deriving DecidableEq

namespace Tree

variable (t : Tree)

/-! ### The check -/

theorem length_filter_lt {keys path : List Text} {x : Text} (hx : x ∈ keys) (hpath : x ∉ path) :
    (keys.filter (· ∉ x :: path)).length < (keys.filter (· ∉ path)).length := by
  have hsub : (keys.filter (· ∉ x :: path)) = (keys.filter (· ∉ path)).filter (· ≠ x) := by
    rw [List.filter_filter]
    refine List.filter_congr fun y _ => ?_
    simp [not_or]
  rw [hsub, ← List.countP_eq_length_filter]
  refine List.countP_lt_length_iff.mpr ⟨x, List.mem_filter.mpr ⟨hx, by simpa using hpath⟩, by simp⟩

/-- The walk from a scope's parent up to a root, or to a scope that was walked to one before. -/
def walkUp (rooted : List Text) (scopeId : Text) (path : List Text) :
    Option Text → Except (Fault × Text) (List Text)
  | none => .ok path
  | some cursor =>
    if cursor ∈ rooted then .ok path
    else if _ : cursor ∈ path then .error (.cycle, scopeId)
    else
      match _ : t.nodes.get? cursor with
      | none => .error (.ancestorNotRegistered cursor, scopeId)
      | some ancestor => walkUp rooted scopeId (cursor :: path) ancestor.parentId
termination_by (t.nodes.keys.filter (· ∉ path)).length
decreasing_by
  refine length_filter_lt ?_ ‹_›
  by_contra hnot
  rw [← Dict.get?_eq_none_iff] at hnot
  simp_all

/-- The checks of one scope, and the scopes walked to a root after them. -/
def verifyNode (rooted : List Text) (scopeId : Text) (node : Node) :
    Except (Fault × Text) (List Text) :=
  match node.parentId with
  | none => if scopeId ∈ t.roots then .ok rooted else .error (.notRoot, scopeId)
  | some parentId =>
    match t.nodes.get? parentId with
    | none => .error (.parentNotRegistered parentId, scopeId)
    | some parent =>
      if scopeId ∉ parent.childIds then .error (.notListed parentId, scopeId)
      else if node.depth ≠ parent.depth + 1 then
        .error (.depthInconsistent node.depth parent.depth, scopeId)
      else (· ++ rooted) <$> t.walkUp rooted scopeId [scopeId] (some parentId)

/-- `_verify_tree`: the scopes walked to a root, where nothing is found wrong. -/
def verify : Except (Fault × Text) (List Text) :=
  t.nodes.items.foldlM (fun rooted p => t.verifyNode rooted p.1 p.2) []

/-- Whether the check accepts. -/
def Accepted : Prop := ∃ rooted, t.verify = .ok rooted

/-! ### The walks -/

/-- The children a scope lists, where it is registered. -/
def kids (scopeId : Text) : Option (List Text) := (t.nodes.get? scopeId).map Node.childIds

/-- The parent of a scope, where it is registered and has one. -/
def parent (scopeId : Text) : Option Text := (t.nodes.get? scopeId).bind Node.parentId

/-- The depth of a scope, where it is registered. -/
def depth (scopeId : Text) : ℤ := ((t.nodes.get? scopeId).map Node.depth).getD 0

/-- `descendants`, of no more than `fuel` scopes; or the scope that is not registered. -/
def descendants (fuel : ℕ) (scopeId : Text) : Option (Except Text (List Text)) :=
  match t.kids scopeId with
  | none => some (.error scopeId)
  | some childIds => breadthFirst t.kids fuel childIds

/-- `ancestry`, of no more than `fuel` scopes; or the scope that is not registered. -/
def ancestry : (fuel : ℕ) → Text → Option (Except Text (List Text))
  | 0, _ => none
  | fuel + 1, cursor =>
    match t.nodes.get? cursor with
    | none => some (.error cursor)
    | some node =>
      match node.parentId with
      | none => some (.ok [cursor])
      | some parentId => (ancestry fuel parentId).map (Except.map (cursor :: ·))

/-- `_halted_by`, over no more than `fuel` scopes; or the scope that is not registered. -/
def haltedBy (tripped : List Text) : (fuel : ℕ) → Text → Option (Except Text (Option Text))
  | 0, _ => none
  | fuel + 1, cursor =>
    if cursor ∈ tripped then some (.ok (some cursor))
    else
      match t.nodes.get? cursor with
      | none => some (.error cursor)
      | some node =>
        match node.parentId with
        | none => some (.ok none)
        | some parentId => haltedBy tripped fuel parentId

/-! ### What is claimed -/

/-- Parents and lists of children are inverse of each other; the descendants of every scope come to
an end and are those with it among their ancestors, each once; and the ancestors of every scope
come to an end at a root, and so does the search for a tripped one. -/
structure Consistent : Prop where
  inverse : ∀ p c, (∃ n, t.nodes.get? p = some n ∧ c ∈ n.childIds) ↔
    ∃ n, t.nodes.get? c = some n ∧ n.parentId = some p
  descendants : ∀ s, s ∈ t.nodes.keys → ∃ fuel order, t.descendants fuel s = some (.ok order) ∧
    order.Nodup ∧ ∀ x, x ∈ order ↔ ∃ fuel chain, t.ancestry fuel x = some (.ok chain) ∧
      s ∈ chain.tail
  ancestry : ∀ s, s ∈ t.nodes.keys → ∃ fuel chain root, t.ancestry fuel s = some (.ok chain) ∧
    chain.getLast? = some root ∧ t.parent root = none ∧ root ∈ t.roots ∧
    ∀ tripped, t.haltedBy tripped fuel s = some (.ok (chain.find? (· ∈ tripped)))

/-- Every list of children is of registered scopes with this parent, each once. -/
def ListsItsChildren : Prop := ∀ p n, t.nodes.get? p = some n →
  n.childIds.Nodup ∧ ∀ c ∈ n.childIds, ∃ m, t.nodes.get? c = some m ∧ m.parentId = some p

variable {t}

/-! ### What an accepted tree has -/

/-- A scope the check went past: a root, or a child its parent lists, one level deeper. -/
theorem checked_of_verifyNode {rooted rooted' : List Text} {s : Text} {n : Node}
    (h : t.verifyNode rooted s n = .ok rooted') : (n.parentId = none → s ∈ t.roots) ∧
      ∀ p, n.parentId = some p →
        ∃ m, t.nodes.get? p = some m ∧ s ∈ m.childIds ∧ n.depth = m.depth + 1 := by
  rw [verifyNode] at h
  match hp : n.parentId with
  | none =>
    simp only [hp] at h
    split_ifs at h with hroot
    exact ⟨fun _ => hroot, nofun⟩
  | some p =>
    refine ⟨nofun, ?_⟩
    rintro _ ⟨rfl⟩
    simp only [hp] at h
    match hm : t.nodes.get? p with
    | none => simp [hm] at h
    | some m =>
      simp only [hm] at h
      split_ifs at h with hlisted hdepth
      exact ⟨m, rfl, hlisted, not_not.mp hdepth⟩

theorem Accepted.checked (h : t.Accepted) {s : Text} {n : Node} (hn : t.nodes.get? s = some n) :
    (n.parentId = none → s ∈ t.roots) ∧ ∀ p, n.parentId = some p →
      ∃ m, t.nodes.get? p = some m ∧ s ∈ m.childIds ∧ n.depth = m.depth + 1 := by
  obtain ⟨rooted, hrooted⟩ := h
  have hall : ∀ (items : List (Text × Node)) (before after : List Text),
      items.foldlM (fun rooted p => t.verifyNode rooted p.1 p.2) before = .ok after →
      ∀ p ∈ items, ∃ r r', t.verifyNode r p.1 p.2 = .ok r' := by
    intro items
    induction items with
    | nil => simp
    | cons q items ih =>
      intro before after hfold p hp
      rw [List.foldlM_cons] at hfold
      match hq : t.verifyNode before q.1 q.2 with
      | .error e => simp [hq, bind, Except.bind] at hfold
      | .ok middle =>
        rcases List.mem_cons.mp hp with rfl | hp
        · exact ⟨before, middle, hq⟩
        · exact ih middle after (by simpa [hq, bind, Except.bind] using hfold) p hp
  obtain ⟨r, r', hs⟩ := hall _ _ _ hrooted (s, n) (Dict.get?_eq_some_iff.mp hn)
  exact checked_of_verifyNode hs

theorem isSome_kids {s : Text} : (t.kids s).isSome ↔ s ∈ t.nodes.keys := by
  rw [kids, Option.isSome_map, Dict.mem_keys_iff, Option.isSome_iff_exists]

theorem parent_eq_some {s p : Text} :
    t.parent s = some p ↔ ∃ n, t.nodes.get? s = some n ∧ n.parentId = some p := by
  rw [parent, Option.bind_eq_some_iff]

/-- Of an accepted tree: a child is registered, its parent lists it, and it is one deeper. -/
theorem Accepted.child (h : t.Accepted) {s p : Text} (hp : t.parent s = some p) :
    ∃ m, t.nodes.get? p = some m ∧ s ∈ m.childIds ∧ t.depth s = t.depth p + 1 := by
  obtain ⟨n, hn, hparent⟩ := parent_eq_some.mp hp
  obtain ⟨m, hm, hlisted, hdepth⟩ := (h.checked hn).2 p hparent
  exact ⟨m, hm, hlisted, by rw [depth, depth, hn, hm]; exact hdepth⟩

/-- Whether a scope is below another by their parents. -/
abbrev Under (t : Tree) : Text → Text → Prop := Below t.kids t.parent

theorem under_iff {s x p : Text} (hx : t.parent x = some p) :
    t.Under s x ↔ p = s ∨ t.Under s p := by
  have hknown : (t.kids x).isSome := by
    obtain ⟨n, hn, -⟩ := parent_eq_some.mp hx
    rw [kids, hn]
    rfl
  constructor
  · intro h
    cases h with
    | single hc => exact Or.inl (Option.some.inj (hx.symm.trans hc.2))
    | tail hs hc =>
      obtain rfl := Option.some.inj (hx.symm.trans hc.2)
      exact Or.inr hs
  · rintro (rfl | h)
    · exact .single ⟨hknown, hx⟩
    · exact .tail h ⟨hknown, hx⟩

theorem not_under_root {s x : Text} (hx : t.parent x = none) : ¬t.Under s x := by
  intro h
  cases h with
  | single hc => simp [hx] at hc
  | tail _ hc => simp [hx] at hc

/-- The ancestors of a scope are those it is under. -/
theorem mem_tail_ancestry {fuel : ℕ} {x : Text} {chain : List Text}
    (h : t.ancestry fuel x = some (.ok chain)) :
    ∃ rest, chain = x :: rest ∧ ∀ s, s ∈ rest ↔ t.Under s x := by
  induction fuel generalizing x chain with
  | zero => simp [ancestry] at h
  | succ fuel ih =>
    rw [ancestry] at h
    match hn : t.nodes.get? x with
    | none => simp [hn] at h
    | some n =>
      match hp : n.parentId with
      | none =>
        simp only [hn, hp, Option.some.injEq, Except.ok.injEq] at h
        refine ⟨[], h.symm, fun s => ?_⟩
        simpa using not_under_root (s := s) (x := x) (by rw [parent, hn]; exact hp)
      | some p =>
        have hparent : t.parent x = some p := parent_eq_some.mpr ⟨n, hn, hp⟩
        simp only [hn, hp, Option.map_eq_some_iff] at h
        obtain ⟨result, hresult, hok⟩ := h
        match result with
        | .error y => simp [Except.map] at hok
        | .ok above =>
          obtain ⟨rest, rfl, hrest⟩ := ih hresult
          refine ⟨p :: rest, by simpa [Except.map] using hok.symm, fun s => ?_⟩
          rw [under_iff hparent, List.mem_cons, hrest, eq_comm]

/-- In an accepted tree every walk up ends at a root, and a search for a tripped scope with it. -/
theorem ancestry_spec (h : t.Accepted) {s : Text} (hs : s ∈ t.nodes.keys) :
    ∃ fuel chain root, t.ancestry fuel s = some (.ok chain) ∧ chain.getLast? = some root ∧
      t.parent root = none ∧ root ∈ t.roots ∧
      ∀ tripped, t.haltedBy tripped fuel s = some (.ok (chain.find? (· ∈ tripped))) := by
  -- the induction is on the number of scopes less deep
  induction hk : (t.nodes.keys.filter (t.depth · < t.depth s)).length using
    Nat.strong_induction_on generalizing s with
  | _ k ih =>
    subst hk
    obtain ⟨n, hn⟩ := Dict.mem_keys_iff.mp hs
    match hp : n.parentId with
    | none =>
      refine ⟨1, [s], s, by simp [ancestry, hn, hp], rfl, by rw [parent, hn]; exact hp,
        (h.checked hn).1 hp, fun tripped => ?_⟩
      by_cases hmem : s ∈ tripped
      · simp [haltedBy, hmem]
      · simp [haltedBy, hmem, hn, hp]
    | some p =>
      obtain ⟨m, hm, -, hdepth⟩ := h.child (parent_eq_some.mpr ⟨n, hn, hp⟩)
      have hpkeys : p ∈ t.nodes.keys := Dict.mem_keys_iff.mpr ⟨m, hm⟩
      have hfewer : (t.nodes.keys.filter (t.depth · < t.depth p)).length <
          (t.nodes.keys.filter (t.depth · < t.depth s)).length := by
        have hsub : t.nodes.keys.filter (t.depth · < t.depth p) =
            (t.nodes.keys.filter (t.depth · < t.depth s)).filter (t.depth · < t.depth p) := by
          rw [List.filter_filter]
          refine List.filter_congr fun y _ => ?_
          rw [← Bool.decide_and, decide_eq_decide]
          omega
        rw [hsub, ← List.countP_eq_length_filter]
        exact List.countP_lt_length_iff.mpr ⟨p, List.mem_filter.mpr ⟨hpkeys, by simp; omega⟩,
          by simp⟩
      obtain ⟨fuel, chain, root, hchain, hlast, hroot, hmem, hhalted⟩ := ih _ hfewer hpkeys rfl
      obtain ⟨rest, rfl, -⟩ := mem_tail_ancestry hchain
      refine ⟨fuel + 1, s :: p :: rest, root, by simp [ancestry, hn, hp, hchain, Except.map],
        by rw [List.getLast?_cons_cons, hlast], hroot, hmem, fun tripped => ?_⟩
      by_cases htripped : s ∈ tripped
      · simp [haltedBy, htripped]
      · rw [haltedBy, if_neg htripped, List.find?_cons_of_neg (a := s) (by simpa using htripped)]
        simp only [hn, hp, hhalted tripped]

/-- The descendants of a scope are those under it. -/
theorem Accepted.mem_ancestry_iff (h : t.Accepted) {s x : Text} :
    (∃ fuel chain, t.ancestry fuel x = some (.ok chain) ∧ s ∈ chain.tail) ↔ t.Under s x := by
  constructor
  · rintro ⟨fuel, chain, hchain, hs⟩
    obtain ⟨rest, rfl, hrest⟩ := mem_tail_ancestry hchain
    exact (hrest s).mp hs
  · intro hx
    have hkeys : x ∈ t.nodes.keys := isSome_kids.mp (Forest.known_of_below hx)
    obtain ⟨fuel, chain, -, hchain, -⟩ := ancestry_spec h hkeys
    obtain ⟨rest, rfl, hrest⟩ := mem_tail_ancestry hchain
    exact ⟨fuel, x :: rest, hchain, (hrest s).mpr hx⟩

/-- Where the descendants of a scope are right, so is its list of children. -/
theorem listed_of_descendants (h : t.Accepted) {p : Text} {cs : List Text}
    {fuel : ℕ} {order : List Text} (horder : breadthFirst t.kids fuel cs = some (.ok order))
    (hnodup : order.Nodup) (hmem : ∀ x, x ∈ order ↔ t.Under p x) :
    cs.Nodup ∧ ∀ c ∈ cs, t.parent c = some p := by
  have hone : ∀ c, cs.count c + (order.map fun y => ((t.kids y).getD []).count c).sum ≤ 1 := by
    intro c
    rw [← count_breadthFirst horder]
    exact List.nodup_iff_count_le_one.mp hnodup c
  refine ⟨List.nodup_iff_count_le_one.mpr fun c => ?_, fun c hc => ?_⟩
  · have := hone c
    omega
  have hunder : t.Under p c := (hmem c).mp (mem_of_mem_queue horder hc)
  cases hunder with
  | single hchild => exact hchild.2
  | @tail d _ hd hchild =>
    -- the parent would list the child a second time
    exfalso
    obtain ⟨m, hm, hlisted, -⟩ := h.child hchild.2
    have hfirst : 1 ≤ cs.count c := List.one_le_count_iff.mpr hc
    have hsecond : 1 ≤ ((t.kids d).getD []).count c := by
      rw [kids, hm]
      exact List.one_le_count_iff.mpr hlisted
    have hsum : ((t.kids d).getD []).count c ≤
        (order.map fun y => ((t.kids y).getD []).count c).sum :=
      List.single_le_sum (by simp) _ (List.mem_map_of_mem ((hmem d).mpr hd))
    have := hone c
    omega

/-- An accepted tree whose lists of children have no stray entry is a forest. -/
theorem Accepted.forest (h : t.Accepted) (hlists : t.ListsItsChildren) :
    Forest t.kids t.parent t.depth where
  nodup p cs hp := by
    obtain ⟨n, hn, rfl⟩ := Option.map_eq_some_iff.mp hp
    exact (hlists p n hn).1
  listed p cs c hp := by
    obtain ⟨n, hn, rfl⟩ := Option.map_eq_some_iff.mp hp
    constructor
    · intro hc
      obtain ⟨m, hm, hparent⟩ := (hlists p n hn).2 c hc
      exact ⟨by rw [kids, hm]; rfl, parent_eq_some.mpr ⟨m, hm, hparent⟩⟩
    · rintro ⟨-, hparent⟩
      obtain ⟨m, hm, hlisted, -⟩ := h.child hparent
      rwa [← Option.some.inj (hn.symm.trans hm)] at hlisted
  rank c p _ hparent := by
    obtain ⟨m, -, -, hdepth⟩ := h.child hparent
    exact hdepth

/-- **The check of the tree**: in an accepted one the walks are as they should be if and only if
every list of children is of registered scopes with that parent, each once. -/
theorem consistent_iff (h : t.Accepted) : t.Consistent ↔ t.ListsItsChildren := by
  constructor
  · intro hconsistent p n hn
    have hp : t.kids p = some n.childIds := by rw [kids, hn]; rfl
    obtain ⟨fuel, order, horder, hnodup, hmem⟩ :=
      hconsistent.descendants p (Dict.mem_keys_iff.mpr ⟨n, hn⟩)
    simp only [descendants, hp] at horder
    simp only [h.mem_ancestry_iff] at hmem
    obtain ⟨hdistinct, hparents⟩ := listed_of_descendants h horder hnodup hmem
    exact ⟨hdistinct, fun c hc => parent_eq_some.mp (hparents c hc)⟩
  · intro hlists
    refine ⟨fun p c => ⟨?_, ?_⟩, fun s hs => ?_, fun s hs => ancestry_spec h hs⟩
    · rintro ⟨n, hn, hc⟩
      exact (hlists p n hn).2 c hc
    · intro hc
      obtain ⟨m, hm, hlisted, -⟩ := h.child (parent_eq_some.mpr hc)
      exact ⟨m, hm, hlisted⟩
    · obtain ⟨cs, hcs⟩ := Option.isSome_iff_exists.mp (isSome_kids.mpr hs)
      obtain ⟨order, horder, hnodup, hbelow⟩ := (h.forest hlists).breadthFirst_below
        t.nodes.keys (fun x hx => isSome_kids.mp hx) hcs
      refine ⟨t.nodes.keys.length, order, by simp only [descendants, hcs, horder], hnodup, ?_⟩
      intro x
      rw [hbelow, h.mem_ancestry_iff]

/-- A root with one child. -/
def pair : Tree where
  nodes := (Dict.empty.set (txt "r") ⟨none, 0, [txt "c"]⟩).set (txt "c") ⟨some (txt "r"), 1, []⟩
  roots := [txt "r"]

theorem consistent_pair : pair.Accepted ∧ pair.Consistent := by
  have hroot : pair.nodes.get? (txt "r") = some ⟨none, 0, [txt "c"]⟩ := rfl
  have hwalk : pair.walkUp [] (txt "c") [txt "c"] (some (txt "r")) =
      .ok [txt "r", txt "c"] := by
    rw [walkUp, if_neg (by simp), dif_neg (by decide)]
    split
    · simp_all
    · rename_i ancestor hancestor
      obtain rfl := Option.some.inj (hroot.symm.trans hancestor)
      rw [walkUp]
  have hchild : pair.verifyNode [] (txt "c") ⟨some (txt "r"), 1, []⟩ =
      .ok [txt "r", txt "c"] := by
    simp [verifyNode, hroot, hwalk]
  have h : pair.Accepted := ⟨[txt "r", txt "c"], congrArg (· >>= pure) hchild⟩
  have hlists : pair.ListsItsChildren := by
    intro p n hn
    have hitem : (p, n) ∈ [(txt "r", ⟨none, 0, [txt "c"]⟩),
        (txt "c", ⟨some (txt "r"), 1, []⟩)] := Dict.get?_eq_some_iff.mp hn
    simp only [List.mem_cons, Prod.mk.injEq, List.not_mem_nil, or_false] at hitem
    rcases hitem with ⟨rfl, rfl⟩ | ⟨rfl, rfl⟩
    · refine ⟨by simp, fun c hc => ⟨⟨some (txt "r"), 1, []⟩, ?_, rfl⟩⟩
      rw [List.mem_singleton.mp hc]
      rfl
    · exact ⟨List.nodup_nil, by simp⟩
  exact ⟨h, (consistent_iff h).mpr hlists⟩

end Tree

/-- A root that lists itself. -/
def looping : Tree where
  nodes := Dict.empty.set (txt "r") ⟨none, 0, [txt "r"]⟩
  roots := [txt "r"]

/-- **A root that lists itself is accepted**, and the walk over its descendants has no end. -/
theorem looping_accepted : looping.Accepted ∧
    (∀ fuel, looping.descendants fuel (txt "r") = none) ∧ ¬looping.Consistent := by
  have hloop : ∀ fuel, looping.descendants fuel (txt "r") = none := by
    intro fuel
    change breadthFirst looping.kids fuel [txt "r"] = none
    induction fuel with
    | zero => rfl
    | succ fuel ih =>
      rw [breadthFirst, show looping.kids (txt "r") = some [txt "r"] from rfl]
      simp [ih]
  refine ⟨⟨[], rfl⟩, hloop, fun h => ?_⟩
  obtain ⟨fuel, order, horder, -⟩ := h.descendants (txt "r") (by decide)
  simp [hloop] at horder

end AgentGov.Delegation
