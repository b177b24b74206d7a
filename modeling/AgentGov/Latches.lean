import AgentGov.Foundation.Histories
import AgentGov.History
import AgentGov.Once

/-!
# Latched breakers

A breaker that was tripped stays latched until it is reset. A hold or a delegation asks for every
scope from its own up to its root, so while a breaker is latched no money is held or delegated at
its scope or below it, and no call but the reset of its scope unlatches it
(`src/src/agentgov/core.py`, lines 5873–5927, 6060–6111, 6590–6630 and 6868–6953).

## Main definitions

* `AgentGov.Latched`: the scopes whose breakers entries have latched.
* `AgentGov.Under`: the scopes at and above a scope, by the delegations of the chain.
* `AgentGov.BreakersHold`: what holds of the breakers of a chain and of who resets them.

## Main results

* `AgentGov.run_tripped`: what a chain remembers of trips is what its entries have latched.
* `AgentGov.untripped_of_haltedBy`: a scope that is not halted is under no tripped scope.
* `AgentGov.breakers_hold`: a latched breaker holds, in every run of orders.
-/

open Foundation

namespace AgentGov

variable {w : World} {unit : Unit} {c c' : Chain} {e : LedgerEntry}

/-! ### Entries -/

/-- Whether an entry trips the breaker of a scope. -/
def LedgerEntry.Trips (scope : Text) (e : LedgerEntry) : Prop :=
  e.entryType = .circuitTripped ∧ e.scopeId = scope

/-- Whether an entry resets the breaker of a scope. -/
def LedgerEntry.Resets (scope : Text) (e : LedgerEntry) : Prop :=
  e.entryType = .circuitReset ∧ e.scopeId = scope

/-- Whether an entry takes money of its scope for a hold or a delegation. -/
def LedgerEntry.Commits (e : LedgerEntry) : Prop :=
  e.entryType = .hold ∨ e.entryType = .allocation ∧ e.direction = .debit

/-- Whether entries have latched the breaker of a scope: it was tripped, and not reset since. -/
def Latched (l : List LedgerEntry) (scope : Text) : Prop :=
  Since (LedgerEntry.Trips scope) (LedgerEntry.Resets scope) l

/-- Whether a scope was delegated to by another. -/
def DelegatedBy (l : List LedgerEntry) (scope parent : Text) : Prop :=
  ∃ x ∈ allocationsTo l scope, x.counterpartyId.getD [] = parent

/-- Whether a scope is another, or was delegated to by a scope that is under it. -/
def Under (l : List LedgerEntry) : Text → Text → Prop := Relation.ReflTransGen (DelegatedBy l)

theorem latched_concat {l : List LedgerEntry} {scope : Text} : Latched (l ++ [e]) scope ↔
    e.Trips scope ∨ ¬e.Resets scope ∧ Latched l scope :=
  since_concat

/-! ### Trips -/

/-- What a chain remembers of trips is what its entries have latched. -/
theorem run_tripped {checkHash writing : Bool} {find : UUID → Option LedgerEntry}
    {l : List LedgerEntry}
    (h : runAll (Rules.apply checkHash writing) (Chain.empty unit [] find) l = .ok c)
    (scope : Text) : (c.tripped scope).isSome ↔ Latched l scope := by
  refine (Chain.run_induction (motive := fun l c => c.core.legacy = [] ∧
    ∀ scope, (c.tripped scope).isSome ↔ Latched l scope) ⟨rfl, fun scope => ?_⟩ ?_ h).2 scope
  · refine iff_of_false ?_ not_since_nil
    simp [Chain.empty, ChainState.chain, ChainState.empty]
  · rintro l e c c' - ⟨hlegacy, ih⟩ ha
    refine ⟨ha.legacy.trans hlegacy, fun scope => ?_⟩
    rw [ha.tripped hlegacy, latched_concat]
    by_cases htrip : e.entryType = .circuitTripped
    · by_cases hs : e.scopeId = scope
      · simp [tripsAfter, LedgerEntry.Trips, htrip, hs]
      · have hs' : scope ≠ e.scopeId := fun h => hs h.symm
        simpa [tripsAfter, LedgerEntry.Trips, LedgerEntry.Resets, htrip, hs, hs'] using ih scope
    · by_cases hreset : e.entryType = .circuitReset
      · by_cases hs : e.scopeId = scope
        · simp [tripsAfter, LedgerEntry.Trips, LedgerEntry.Resets, hreset, hs]
        · have hs' : scope ≠ e.scopeId := fun h => hs h.symm
          simpa [tripsAfter, LedgerEntry.Trips, LedgerEntry.Resets, hreset, hs, hs'] using ih scope
      · have hsame : tripsAfter c.tripped e = c.tripped := by
          cases hkind : e.entryType <;> simp_all [tripsAfter]
        simpa [hsame, LedgerEntry.Trips, LedgerEntry.Resets, htrip, hreset] using ih scope

/-! ### The walk to the root -/

section Walk

variable {l : List LedgerEntry} {s : ChainState}

/-- Above a scope there is one of every smaller depth. -/
theorem TreeKept.exists_depth (h : TreeKept l c) {scope : Text} {n : BudgetNode}
    (hn : c.nodes.get? scope = some n) {k : ℕ} (hk : k ≤ n.depth) :
    ∃ p ∈ c.nodes.items, p.2.depth = k := by
  obtain ⟨d, hd⟩ : ∃ d, d = n.depth := ⟨_, rfl⟩
  rw [← hd] at hk
  induction d generalizing scope n with
  | zero => exact ⟨(scope, n), Dict.get?_eq_some_iff.mp hn, by dsimp only; omega⟩
  | succ d ih =>
    by_cases hlast : k = d + 1
    · exact ⟨(scope, n), Dict.get?_eq_some_iff.mp hn, by dsimp only; omega⟩
    · cases hp : n.parentId with
      | none =>
        have hroot := (h.root scope n.depth (Chain.place_eq_some.mpr ⟨n, hn, hp, rfl⟩)).1
        omega
      | some parent =>
        obtain ⟨-, -, q, d', hq, hdepth⟩ :=
          h.child scope parent n.depth (Chain.place_eq_some.mpr ⟨n, hn, hp, rfl⟩)
        obtain ⟨m, hm, -, hmd⟩ := Chain.place_eq_some.mp hq
        dsimp only at hmd
        exact ih hm (by omega) (by omega)

/-- A scope is less deep than there are scopes. -/
theorem TreeKept.depth_lt (h : TreeKept l c) {scope : Text} {n : BudgetNode}
    (hn : c.nodes.get? scope = some n) : n.depth < c.nodes.items.length := by
  have hsubset : List.range (n.depth + 1) ⊆ c.nodes.items.map fun p => p.2.depth := by
    intro k hk
    rw [List.mem_range] at hk
    obtain ⟨p, hp, rfl⟩ := h.exists_depth hn (k := k) (by omega)
    exact List.mem_map_of_mem hp
  have hle := (List.nodup_range.subperm hsubset).length_le
  rw [List.length_range, List.length_map] at hle
  omega

/-- A scope that is not halted is under no tripped scope. -/
theorem untripped_of_haltedBy (h : TreeKept l c) (hnodes : s.nodes = c.nodes) {fuel : ℕ}
    {scope : Text} {n : BudgetNode} (hn : c.nodes.get? scope = some n) (hfuel : n.depth < fuel)
    (hactive : s.haltedBy fuel scope = none) {above : Text} (hunder : Under l scope above) :
    s.tripped.get? above = none := by
  induction fuel generalizing scope n with
  | zero => omega
  | succ fuel ih =>
    rw [ChainState.haltedBy, hnodes, hn, Option.bind_some] at hactive
    split_ifs at hactive with htrip
    rcases Relation.ReflTransGen.cases_head hunder with rfl | ⟨parent, ⟨x, hx, hxp⟩, hrest⟩
    · simpa using htrip
    · cases hp : n.parentId with
      | none =>
        have hroot := (h.root scope n.depth (Chain.place_eq_some.mpr ⟨n, hn, hp, rfl⟩)).2
        rw [hroot] at hx
        exact (List.not_mem_nil hx).elim
      | some p =>
        obtain ⟨-, ⟨y, hy, hyp⟩, q, d', hq, hdepth⟩ :=
          h.child scope p n.depth (Chain.place_eq_some.mpr ⟨n, hn, hp, rfl⟩)
        rw [hy, List.mem_singleton] at hx
        obtain rfl : p = parent := by rw [← hxp, ← hyp, hx]
        rw [hp] at hactive
        obtain ⟨m, hm, -, hmd⟩ := Chain.place_eq_some.mp hq
        dsimp only at hmd
        exact ih hm (by omega) hactive hrest

/-- What is above a scope that was created is above it in the entries that created it. -/
theorem Under.of_created {before l : List LedgerEntry} (h : TreeKept before c)
    (h' : TreeKept l c') (hpre : before <+: l) {scope above : Text}
    (hcreated : Created before scope) (hunder : Under l scope above) :
    Under before scope above := by
  obtain ⟨more, rfl⟩ := hpre
  have hfund (s : Text) : fundingsOf (before ++ more) s = fundingsOf before s ++ fundingsOf more s :=
    List.filter_append ..
  have halloc (s : Text) :
      allocationsTo (before ++ more) s = allocationsTo before s ++ allocationsTo more s :=
    List.filter_append ..
  induction hunder using Relation.ReflTransGen.head_induction_on with
  | refl => exact .refl
  | @head scope parent hstep hrest ih =>
    obtain ⟨x, hx, hxp⟩ := hstep
    -- the scope is no root after, so it was none before
    have hplace := (h.created scope).mpr hcreated
    obtain ⟨⟨p, d⟩, hp⟩ := Option.ne_none_iff_exists'.mp hplace
    have hcreated' : Created (before ++ more) scope := by
      refine hcreated.imp (fun hf => ?_) fun ha => ?_
      · rw [hfund]
        exact List.append_ne_nil_of_left_ne_nil hf _
      · rw [halloc]
        exact List.append_ne_nil_of_left_ne_nil ha _
    obtain ⟨⟨p', d'⟩, hp'⟩ := Option.ne_none_iff_exists'.mp ((h'.created scope).mpr hcreated')
    cases p' with
    | none =>
      rw [(h'.root scope d' hp').2] at hx
      exact (List.not_mem_nil hx).elim
    | some p' =>
      obtain ⟨hnofund, ⟨y, hy, hyp⟩, -⟩ := h'.child scope p' d' hp'
      cases p with
      | none =>
        have hroot := (h.root scope d hp).2
        rw [hfund, List.append_eq_nil_iff] at hnofund
        exact (hcreated.elim (fun hf => hf hnofund.1) fun ha => ha hroot).elim
      | some p =>
        obtain ⟨-, ⟨z, hz, hzp⟩, q, d'', hq, -⟩ := h.child scope p d hp
        rw [halloc, hz, List.singleton_append, List.cons.injEq] at hy
        rw [halloc, hz, hy.2, List.append_nil, List.mem_singleton] at hx
        have hparent : p = parent := by rw [← hzp, ← hxp, hx]
        refine .head ⟨z, by rw [hz]; exact List.mem_singleton_self z, hx ▸ hxp⟩ (ih ?_)
        refine (h.created parent).mp ?_
        rw [← hparent, hq]
        simp

end Walk

/-! ### Units of work -/

/-- Whether no money was taken under a latched breaker. -/
def HeldBack (l : List LedgerEntry) : Prop :=
  Throughout (fun before e => e.Commits →
    ∀ above, Under before e.scopeId above → ¬Latched before above) l

/-- Entries that take no money for holds or delegations keep what is held back. -/
theorem HeldBack.append {l es : List LedgerEntry} (h : HeldBack l)
    (hes : ∀ e ∈ es, ¬e.Commits) : HeldBack (l ++ es) := by
  induction es generalizing l with
  | nil => rwa [List.append_nil]
  | cons e rest ih =>
    have hone : HeldBack (l ++ [e]) :=
      throughout_concat.mpr ⟨h, fun hc => absurd hc (hes e List.mem_cons_self)⟩
    have hall := ih hone fun x hx => hes x (List.mem_cons_of_mem e hx)
    rwa [List.append_assoc, List.singleton_append] at hall

namespace Governor

variable {g t : Governor} {p : Pending}

/-- A scope that is not halted is under no latched breaker. -/
theorem Active.not_latched {scope : Text} {n : BudgetNode} (hg : g.Sound w unit c)
    (known : g.ledger.state.nodes.get? scope = some n) (active : g.Active scope) {above : Text}
    (hunder : Under g.ledger.entries scope above) : ¬Latched g.ledger.entries above := by
  have htree := run_treeKept hg.run
  rw [hg.nodes_eq] at known
  have hdepth := htree.depth_lt known
  rw [← hg.nodes_eq] at hdepth
  have hnone := untripped_of_haltedBy htree hg.nodes_eq known (by omega) active hunder
  have htripped : g.ledger.state.tripped.get? = c.tripped := hg.stands.alike.tripped
  rw [← run_tripped hg.run, ← htripped, hnone]
  simp

/-- What an entry records takes money where its line does. -/
theorem commits_of_records {line : LedgerLine} (h : e.Records line) (hc : e.Commits) :
    line.entryType = .hold ∨ line.entryType = .allocation ∧ line.direction = .debit := by
  rwa [LedgerEntry.Commits, h.kind, h.direction] at hc

/-- What a transaction has posted of lines that take no money takes none. -/
theorem not_commits_of_posted {q q' : Pending} {lines : List LedgerLine} {es : List LedgerEntry}
    (posted : Posted w q lines es q')
    (hlines : ∀ line ∈ lines, ¬(line.entryType = .hold ∨
      line.entryType = .allocation ∧ line.direction = .debit)) : ∀ e ∈ es, ¬e.Commits := by
  intro e he hc
  obtain ⟨line, hl, hr⟩ := posted.exists_line he
  exact hlines line hl (commits_of_records hr hc)

/-- A claim is booked by lines that take no money for holds or delegations. -/
theorem not_commits_claimLines (claim : SettlementClaim) (hold : Option Authorization) :
    ∀ line ∈ Op.claimLines claim hold, ¬(line.entryType = .hold ∨
      line.entryType = .allocation ∧ line.direction = .debit) := by
  intro line hl
  rcases (Op.mem_claimLines hl).2 with ⟨kind, -⟩ | ⟨kind, -⟩ <;> simp [kind]

/-- Every unit of work holds money back from under a latched breaker. -/
theorem heldBack_maintained : Maintained w unit HeldBack := by
  intro g c c' p hg hwrote _ hP
  cases hwrote with
  | nothing => rwa [show g.begin.entries = [] from rfl, List.append_nil]
  | funding posted =>
    rw [posted.entries_begin]
    exact hP.append (not_commits_of_posted posted (by simp [Op.line]))
  | delegation n known active covered posted =>
    rw [posted.entries_begin]
    have hrecords := List.forall₂_cons.mp posted.records
    have hcredit := (List.forall₂_cons.mp hrecords.2).1
    rw [← List.singleton_append, ← List.append_assoc]
    refine HeldBack.append (throughout_concat.mpr ⟨hP, fun _ above hunder => ?_⟩) ?_
    · rw [hrecords.1.scope] at hunder
      exact active.not_latched hg known hunder
    · intro x hx hc
      obtain rfl := List.mem_singleton.mp hx
      have := commits_of_records hcredit hc
      simp [Op.line] at this
  | release n known child covered posted =>
    rw [posted.entries_begin]
    exact hP.append (not_commits_of_posted posted (by simp [Op.line]))
  | hold n known active covered posted =>
    rw [posted.entries_begin]
    have hrecords := (List.forall₂_cons.mp posted.records).1
    refine throughout_concat.mpr ⟨hP, fun _ above hunder => ?_⟩
    rw [hrecords.scope] at hunder
    exact active.not_latched hg known hunder
  | settlement opened settles =>
    cases settles with
    | settled release note pair latched =>
      rw [pair.entries_begin]
      exact hP.append (not_commits_of_posted pair (by simp [Op.voiding, Op.line]))
    | tripped release trip note reason p₁ pair trips reasons =>
      rw [trips.entries, pair.entries_begin, ← List.append_assoc]
      refine HeldBack.append (hP.append ?_) ?_
      · exact not_commits_of_posted pair (by simp [Op.voiding, Op.line])
      · exact not_commits_of_posted trips (by simp [Staging.event])
  | void opened posted =>
    rw [posted.entries_begin]
    exact hP.append (not_commits_of_posted posted (by simp [Op.voiding, Op.line]))
  | refund posted =>
    rw [posted.entries_begin]
    exact hP.append (not_commits_of_posted posted (by simp [Op.line]))
  | anchor posted =>
    rw [posted.entries_begin]
    exact hP.append (not_commits_of_posted posted (by simp [Staging.event]))
  | trip untripped posted =>
    rw [posted.entries_begin]
    exact hP.append (not_commits_of_posted posted (by simp [Staging.event]))
  | reset tripped posted =>
    rw [posted.entries_begin]
    exact hP.append (not_commits_of_posted posted (by simp [Staging.event]))
  | redemption books =>
    cases books with
    | anchored posted =>
      rw [posted.entries_begin]
      exact hP.append (not_commits_of_posted posted (by simp [Staging.event]))
    | settled es posted last latched =>
      rw [posted.entries_begin]
      exact hP.append (not_commits_of_posted posted (not_commits_claimLines _ _))
    | tripped es trip reason p₁ posted last trips =>
      rw [trips.entries, posted.entries_begin, ← List.append_assoc]
      refine HeldBack.append (hP.append ?_) (not_commits_of_posted trips (by simp [Staging.event]))
      exact not_commits_of_posted posted (not_commits_claimLines _ _)

/-! ### Who wrote an entry -/

/-- Whether everything written since a governor may be posted. -/
def WroteOnly (may : EntryType → Text → Prop) (g t : Governor) : Prop :=
  ∃ new, t.ledger.entries = g.ledger.entries ++ new ∧ ∀ e ∈ new, may e.entryType e.scopeId

variable {may : EntryType → Text → Prop} {α : Type}

theorem run_posting {body : Staging α} (hbody : body.Only (Stage.Posting may)) {q : Pending}
    (hq : ∀ e ∈ q.entries, may e.entryType e.scopeId) :
    ∀ e ∈ (body.run (stage w) q).2.entries, may e.entryType e.scopeId := by
  refine hbody.run_keeps (h := stage w)
    (I := fun q => ∀ e ∈ q.entries, may e.entryType e.scopeId) ?_ hq
  intro β i q hi hq
  cases i with
  | view => exact hq
  | post lines =>
    rcases stage_post w lines q with ⟨es, q', posted, hs⟩ | ⟨err, hs⟩ <;> rw [hs]
    · intro e he
      rw [posted.entries, List.mem_append] at he
      rcases he with he | he
      · exact hq e he
      · obtain ⟨line, hl, hr⟩ := posted.exists_line he
        rw [hr.kind, hr.scope]
        exact hi line hl
    · exact hq

/-- An operation writes only what it may post. -/
theorem op_posting (w : World) (g : Governor) {op : Op α} (hop : op.Only (Instr.Posting may)) :
    WroteOnly may g (op.run (handle w) g).2 := by
  refine hop.run_keeps (h := handle w) (I := fun t => WroteOnly may g t) ?_
    ⟨[], (List.append_nil _).symm, fun _ h => (List.not_mem_nil h).elim⟩
  rintro β i t hi ⟨new, hnew, hmay⟩
  have same {u : Governor} (hk : t.Keeps u) : WroteOnly may g u :=
    ⟨new, by rw [hk.ledger, hnew], hmay⟩
  cases i with
  | mutating => exact same (.refl t)
  | served => exact same (.refl t)
  | policy => exact same (.refl t)
  | now => exact same ⟨rfl, rfl, rfl, rfl, Nat.le_succ _⟩
  | called key outcome request => exact same (called_keeps t key outcome request)
  | answered call answer => exact same (answered_keeps t call answer)
  | refundedOfSpend spend => exact same (.refl t)
  | velocity scope => exact same (countCall_keeps w t scope)
  | noteTrip scope reason => exact same ⟨rfl, rfl, rfl, rfl, Nat.le_refl _⟩
  | forgetVelocity scope => exact same ⟨rfl, rfl, rfl, rfl, Nat.le_refl _⟩
  | work body call result =>
    have hwritten := run_posting (w := w) hi (q := t.begin) fun e he => by cases he
    simp only [handle, work]
    rcases hb : body.run (stage w) t.begin with ⟨_ | a, p⟩
    · exact ⟨new, hnew, hmay⟩
    · rw [hb] at hwritten
      dsimp only [WroteOnly]
      rw [ledger_commit]
      split_ifs
      · exact ⟨new, hnew, hmay⟩
      · refine ⟨new ++ p.entries, by rw [hnew, List.append_assoc], fun e he => ?_⟩
        exact (List.mem_append.mp he).elim (hmay e) (hwritten e)

end Governor

/-- The entries a call writes. -/
def Turn.wrote (w : World) (turn : Turn) : List LedgerEntry :=
  (turn.after w).ledger.entries.drop turn.before.ledger.entries.length

/-- What a call leaves was there before, or it wrote it, as it may. -/
theorem Turn.mem_after {turn : Turn} (he : e ∈ (turn.after w).ledger.entries) :
    e ∈ turn.before.ledger.entries ∨
      e ∈ turn.wrote w ∧ turn.call.MayPost e.entryType e.scopeId := by
  obtain ⟨new, hnew, hmay⟩ := Governor.op_posting w turn.before (Op.only_of turn.call)
  have hafter : (turn.after w).ledger.entries = turn.before.ledger.entries ++ new := hnew
  have hwrote : turn.wrote w = new := by rw [Turn.wrote, hafter, List.drop_left]
  rw [hafter, List.mem_append] at he
  exact he.imp id fun hm => ⟨hwrote ▸ hm, hmay e hm⟩

namespace Governor

variable {g t : Governor}

/-- What calls leave was there before, or one of them wrote it, as it may. -/
theorem Goes.mem_entries {turns : List Turn} (h : Goes w g turns t) (he : e ∈ t.ledger.entries) :
    e ∈ g.ledger.entries ∨
      ∃ turn ∈ turns, e ∈ turn.wrote w ∧ turn.call.MayPost e.entryType e.scopeId := by
  induction h with
  | stay same kept => exact Or.inl (entries_eq_of_bare same ▸ he)
  | @turn g u t m turns same kept rest ih =>
    rcases ih he with hm | ⟨turn, hturn, hwrote⟩
    · have hafter : e ∈ ((⟨u, m⟩ : Turn).after w).ledger.entries := hm
      rcases Turn.mem_after hafter with hbefore | hwrote
      · exact Or.inl (entries_eq_of_bare same ▸ hbefore)
      · exact Or.inr ⟨⟨u, m⟩, List.mem_cons_self, hwrote⟩
    · exact Or.inr ⟨turn, List.mem_cons_of_mem _ hturn, hwrote⟩

/-- An entry of the chain was written by a call whose work stands, as it may, or is a trip. -/
theorem standing_wrote {orders : List Order} (hg : g.Orderly w unit)
    (hs : g.serveAll w orders = .ok t) (distinct : w.Distinct t.draws)
    (he : e ∈ t.ledger.entries) (kind : e.entryType ≠ .circuitTripped) :
    e ∈ g.ledger.entries ∨ ∃ turn ∈ g.standing w orders,
      e ∈ turn.wrote w ∧ turn.call.MayPost e.entryType e.scopeId := by
  induction orders generalizing g with
  | nil =>
    cases hs
    exact Or.inl he
  | cons o rest ih =>
    obtain ⟨u, hu, hs⟩ := bind_eq_ok.mp hs
    have hu' := hg.serve hu
    rw [standing, hu]
    rcases ih hu' hs with hm | ⟨turn, hturn, hwrote⟩
    · cases hstands : g.stands w o with
      | true =>
        rw [if_pos rfl]
        refine ((serve_stands hu hstands).mem_entries hm).imp id ?_
        rintro ⟨turn, hturn, hwrote⟩
        exact ⟨turn, List.mem_append_left _ hturn, hwrote⟩
      | false =>
        have hrev := (serve_reverts hg hu hstands
          (distinct.mono (serveAll_draws hu' hs))).1
        obtain ⟨trips, htrips, hkinds⟩ := hrev.entries
        rw [htrips, List.mem_append] at hm
        exact hm.elim Or.inl fun hm => absurd (hkinds e hm) kind
    · exact Or.inr ⟨turn, List.mem_append_right _ hturn, hwrote⟩

end Governor

theorem Mutation.resets_eq_some {m : Mutation} {scope : Text} (h : m.resets = some scope) :
    ∃ memo, m = .reset scope memo := by
  cases m with
  | reset s memo =>
    cases h
    exact ⟨memo, rfl⟩
  | openRoot | fund | delegate | release | authorize | tryAuthorize | capture | void | spend
  | refund | anchor | voidStale | trip => cases h

/-! ### Runs -/

/-- What a run of orders keeps of the breakers. -/
structure BreakersHold (w : World) (g : Governor) (orders : List Governor.Order) (t : Governor) :
    Prop where
  /-- Between a trip of a scope and its next reset, no money is held or delegated at the scope or
  below it. -/
  halts : ∀ before trip between e after scope,
    t.ledger.entries = before ++ trip :: between ++ e :: after → trip.Trips scope →
    (∀ x ∈ between, ¬x.Resets scope) → e.Commits → ¬Under t.ledger.entries e.scopeId scope
  /-- A breaker is reset only by a reset of its scope. -/
  resets : ∀ e ∈ t.ledger.entries, ∀ scope, e.Resets scope →
    ∃ turn ∈ g.standing w orders, (∃ memo, turn.call = .reset scope memo) ∧ e ∈ turn.wrote w

/-- A latched breaker holds, whatever a governor is asked, over a store or without one. -/
theorem breakers_hold (w : World) (unit : Unit) (policy : GovernancePolicy) (store : Bool)
    (orders : List Governor.Order) (t : Governor)
    (served : (Governor.new unit policy store).serveAll w orders = .ok t)
    (distinct : w.Distinct t.draws) :
    BreakersHold w (Governor.new unit policy store) orders t := by
  have hg := Governor.Orderly.new w unit policy store
  obtain ⟨⟨c, hc⟩, held⟩ := Governor.serveAll_maintains Governor.heldBack_maintained
    (throughout_nil _) served distinct
  refine ⟨?_, fun e he scope hreset => ?_⟩
  · intro before trip between e after scope hl htrip hbetween hcommits hunder
    have hlatched : Latched (before ++ trip :: between) scope :=
      ⟨before, trip, between, rfl, htrip, hbetween⟩
    have hrun := hc.run
    rw [hl] at hrun
    obtain ⟨c₁, c₂, hbefore, happlied, -⟩ := Chain.run_split hrun
    have htree := run_treeKept hbefore
    have hcreated : Created (before ++ trip :: between) e.scopeId := by
      refine (htree.created e.scopeId).mp (happlied.place_ne_none ?_ ?_ ?_)
      · rcases hcommits with kind | ⟨kind, -⟩ <;> simp [kind]
      · rcases hcommits with kind | ⟨kind, direction⟩
        · simp [LedgerEntry.delegates, kind]
        · simp [LedgerEntry.delegates, kind, direction]
      · rcases hcommits with kind | ⟨kind, -⟩ <;> rw [kind] <;> rfl
    refine held _ e after hl hcommits scope ?_ hlatched
    exact hunder.of_created htree (run_treeKept hc.run) (hl ▸ List.prefix_append _ _) hcreated
  · obtain ⟨kind, rfl⟩ := hreset
    rcases Governor.standing_wrote hg served distinct he (by simp [kind]) with
      hnew | ⟨turn, hturn, hwrote, hmay⟩
    · exact (List.not_mem_nil hnew).elim
    · exact ⟨turn, hturn, Mutation.resets_eq_some (hmay.1 kind), hwrote⟩

/-- A root tripped and reset, with an authorization of its child refused between and one made
after. -/
def sampleHalt : List Governor.Order :=
  [.batch [[.openRoot (txt "a") (wholeAmount 10) [],
      .delegate (txt "a") (txt "b") (wholeAmount 4) [] none, .trip (txt "a") (txt "stop")]],
   .alone (.authorize (txt "b") (wholeAmount 1) [] none),
   .alone (.reset (txt "a") (txt "go")),
   .alone (.authorize (txt "b") (wholeAmount 1) [] none)]

theorem sampleHalt_draws : ((((Governor.new USD samplePolicy true).serveAll sampleWorld
    sampleHalt).toOption.map Governor.draws).any (· ≤ 2 ^ 128)) = true := by
  decide +kernel

theorem breakers_hold_sampleHalt : ∃ t,
    (Governor.new USD samplePolicy true).serveAll sampleWorld sampleHalt = .ok t ∧
      BreakersHold sampleWorld (Governor.new USD samplePolicy true) sampleHalt t := by
  have hdraws := sampleHalt_draws
  cases hs : (Governor.new USD samplePolicy true).serveAll sampleWorld sampleHalt with
  | error e =>
    rw [hs] at hdraws
    cases hdraws
  | ok t =>
    rw [hs] at hdraws
    exact ⟨t, rfl, breakers_hold sampleWorld USD samplePolicy true sampleHalt t hs
      (sampleWorld_distinct (of_decide_eq_true hdraws))⟩

end AgentGov
