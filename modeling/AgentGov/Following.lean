import AgentGov.Fleet

/-!
# Following a shared ledger

What others committed since a governor last followed the ledger continues the chain it serves: it
is verified and applied, and leaves the governor sound. What a governor writes in a session goes on
from what it served, by transactions drawn since.

## Main definitions

* `AgentGov.History`: histories, ordered by how they go on.
* `AgentGov.Governor.Lengthens`, `AgentGov.Governor.Proceeds`: what a governor does in a session.

## Main results

* `AgentGov.Governor.Sound.catchUp`: what was committed is verified and applied.
* `AgentGov.Governor.Sound.reread_shared`: what was committed is read again.
* `AgentGov.Governor.meets_redeemLocked`: what comes of the booking of a claim.
-/

open Foundation

namespace AgentGov

variable {w : World} {unit : Unit} {c c' : Chain} {g g' t u : Governor} {store : SharedStore}

/-! ### Histories -/

/-- Whether no transaction has entries in both of two lists. -/
def NoTransactionShared (l m : List LedgerEntry) : Prop :=
  ∀ x ∈ l, ∀ y ∈ m, x.transactionId ≠ y.transactionId

/-- The entries of a ledger, as a history that goes on transaction by transaction. -/
def History := List LedgerEntry

/-- A history goes on where transactions begin. -/
instance : Preorder History where
  le l m := ∃ n : List LedgerEntry, m = List.append l n ∧ NoTransactionShared l n
  le_refl l := ⟨[], (List.append_nil l).symm, fun _ _ _ hy => (List.not_mem_nil hy).elim⟩
  le_trans := by
    rintro l m k ⟨n, rfl, hn⟩ ⟨n', rfl, hn'⟩
    refine ⟨n ++ n', List.append_assoc _ _ _, fun x hx y hy => ?_⟩
    rcases List.mem_append.mp hy with hy | hy
    · exact hn x hx y hy
    · exact hn' x (List.mem_append_left _ hx) y hy

theorem History.isPrefix {l m : History} (h : l ≤ m) : List.IsPrefix l m := by
  obtain ⟨n, rfl, -⟩ := h
  exact List.prefix_append l n

/-- The entries of a governor's ledger, as a history. -/
def Governor.history (g : Governor) : History := g.ledger.entries

/-- The committed entries, as a history. -/
def SharedStore.history (store : SharedStore) : History := store.entries

/-! ### What is committed is followed -/

/-- The head of a chain is the hash of its last entry. -/
theorem Chain.run_head {checkHash writing : Bool} {legacy : List ControlEvent}
    {find : UUID → Option LedgerEntry} {l : List LedgerEntry}
    (h : runAll (Rules.apply checkHash writing) (Chain.empty unit legacy find) l = .ok c) :
    c.core.head = (l.getLast?.map LedgerEntry.entryHash).getD unit.genesis := by
  refine run_induction (motive := fun l c => c.core.head =
    (l.getLast?.map LedgerEntry.entryHash).getD unit.genesis) rfl ?_ h
  intro l e c c' _ _ ha
  rw [ha.head, List.getLast?_append]
  rfl

/-- The refunds of a spend among the first entries of a chain do not depend on those after them. -/
theorem refundsIn_append {l m : List LedgerEntry} {n : ℕ}
    (h : ∀ e ∈ m, (n : ℤ) < e.sequence) (spend : UUID) :
    refundsIn (l ++ m) spend n = refundsIn l spend n := by
  have hnil : (m.filter fun e => e.entryType = .reversal ∧ e.ref = some spend ∧
      e.sequence ≤ (n : ℤ)) = [] := by
    rw [List.filter_eq_nil_iff]
    intro e he
    have := h e he
    simp only [decide_eq_true_eq, not_and, not_le]
    exact fun _ _ => this
  rw [refundsIn, List.filter_append, hnil, List.append_nil, refundsIn]

namespace Governor

theorem Sound.length_eq (h : g.Sound w unit c) :
    g.ledger.state.length = g.ledger.entries.length := by
  have hlength : g.ledger.state.length = c.core.length := congrArg Core.length h.stands.alike.core
  rw [hlength, Chain.run_length h.run]
  exact Nat.zero_add _

theorem Sound.head_eq (h : g.Sound w unit c) : g.ledger.state.head =
    (g.ledger.entries.getLast?.map LedgerEntry.entryHash).getD unit.genesis := by
  have hhead : g.ledger.state.head = c.core.head := congrArg Core.head h.stands.alike.core
  rw [hhead, Chain.run_head h.run]

/-- What a governor finds with new entries, it found without them, or it is among them. -/
theorem Sound.answers (h : g.Sound w unit c) (hu : u.Sound w unit c') {n : List LedgerEntry}
    (hn : u.ledger.entries = g.ledger.entries ++ n) :
    Answers (g.resolverWith n) g.ledger.entries ∧ Answers (g.resolverWith n) u.ledger.entries := by
  have hdistinct := hu.drawn.distinct
  rw [hn] at hdistinct
  have hids := hdistinct
  rw [List.map_append, List.nodup_append] at hids
  have hold : ∀ ref x, g.ledger.resolve ref = some x → g.resolverWith n ref = some x := by
    intro ref x hx
    obtain ⟨hm, rfl⟩ := (Ledger.resolve_eq_some h.drawn.distinct).mp hx
    cases hspend : spendIndex n x.entryId with
    | none => rw [resolverWith, hspend, Option.none_or, hx]
    | some y =>
      obtain ⟨hy, -, hid⟩ := spendIndex_eq_some hspend
      exact absurd hid.symm (hids.2.2 _ (List.mem_map_of_mem hm) _ (List.mem_map_of_mem hy))
  refine ⟨(run_answers h.run).mono hold, ?_⟩
  intro before e after ref hl kind named
  obtain ⟨x, hx, covers⟩ := run_answers hu.run before e after ref hl kind named
  refine ⟨x, ?_, covers⟩
  obtain ⟨hm, rfl⟩ := (Ledger.resolve_eq_some hu.drawn.distinct).mp hx
  rw [hn, List.mem_append] at hm
  rcases hm with hm | hm
  · exact hold _ _ ((Ledger.resolve_eq_some h.drawn.distinct).mpr ⟨hm, rfl⟩)
  · rw [resolverWith, spendIndex_of_mem hids.2.1 hm covers.kind, Option.some_or]

/-- The state of a view stands for its chain, the refunds of a spend counted in a store that holds
more. -/
theorem Sound.stands_in (h : g.Sound w unit c) (hu : u.Sound w unit c') (hstore : g.store = true)
    {n : List LedgerEntry} (hn : u.ledger.entries = g.ledger.entries ++ n)
    (find : UUID → Option LedgerEntry) :
    g.ledger.state.Stands id (some (refundsIn (g.ledger.entries ++ n))) (c.finding find) where
  alike := { h.stands.alike with }
  kept := fun hr => by cases hr
  counted := by
    rintro r hr spend
    cases hr
    have hlookup : g.refundLookup = some (refundsIn g.ledger.entries) := by
      rw [refundLookup, if_pos hstore]
    have hcounted := h.stands.counted _ hlookup spend
    rwa [refundsIn_append fun e he => ?_]
    rw [h.length_eq]
    exact hu.lt_sequence hn he
  tidy := h.stands.tidy

/-- New entries of the chain are verified over a view, and the state they leave stands for it. -/
theorem Sound.verified (h : g.Sound w unit c) (hu : u.Sound w unit c') (hstore : g.store = true)
    {n : List LedgerEntry} (hn : u.ledger.entries = g.ledger.entries ++ n)
    (hentries : store.entries = g.ledger.entries ++ n) (apart : NoTransactionShared g.ledger.entries n) :
    ∃ view, g.verified store n = .ok view ∧ view.base = g.ledger.state ∧
      view.merge.Stands id (some (refundsIn store.entries)) c' := by
  obtain ⟨hanswers, hanswers'⟩ := h.answers hu hn
  -- both chains, finding spends as the catch-up does
  have hrun := run_finding hanswers h.run
  have hrun' := run_finding hanswers' hu.run
  rw [hn] at hrun'
  obtain ⟨d, hd, hrest⟩ := runAll_append_eq_ok.mp hrun'
  rw [hrun, Except.ok.injEq] at hd
  subst hd
  have between : (c.finding (g.resolverWith n)).Between n := by
    refine ⟨h.net, fun e he => run_fresh hrun h.net fun x hx => ?_⟩
    exact apart x hx e (List.mem_of_mem_head? he)
  have hread : Chain.readPiece true false { c.finding (g.resolverWith n) with frame := {} } n =
      .ok { c'.finding (g.resolverWith n) with
        frame := { c'.frame with txn := none, settleable := [] } } := by
    rw [Chain.readPiece_frame between, Chain.readPiece, hrest, ok_bind, Rules.endTransaction]
    exact if_neg (not_not.mpr hu.net)
  have S := Overlay.reads_simulation (f := id) (fun _ => rfl) g.ledger.state
    (some (refundsIn store.entries)) (g.resolverWith n) (g.resolverWith n)
  have hP : ∀ e ∈ n, Overlay.MayRead g.ledger.state (g.resolverWith n) (g.resolverWith n) e := by
    refine fun e he => ⟨fun _ => ?_, fun _ _ _ => rfl⟩
    cases hs : g.ledger.state.holds.get? e.entryId with
    | none => rfl
    | some hold =>
      rw [h.holds_eq] at hs
      obtain ⟨hm, -, hid⟩ := run_holds_known h.run _ _ hs
      have hids := hu.drawn.distinct
      rw [hn, List.map_append, List.nodup_append] at hids
      exact absurd hid (hids.2.2 _ (List.mem_map_of_mem hm) _ (List.mem_map_of_mem he))
  have hstands := h.stands_in hu hstore hn (g.resolverWith n)
  rw [← hentries] at hstands
  have hstart : Overlay.Reads id g.ledger.state (some (refundsIn store.entries))
      (g.resolverWith n) (g.resolverWith n)
      (Overlay.staging g.ledger.state (g.resolverWith n) (some (refundsIn store.entries)) none)
      { c.finding (g.resolverWith n) with frame := {} } :=
    hstands.staging (g.resolverWith n) none
  have hrunAll := S.runAll hstart hP true false
  have hverified := hrunAll.bind fun o c' h' => S.endTransaction h'
  obtain ⟨view, hview, hreads⟩ := hverified.exists_ok' hread
  have hbase : view.base = g.ledger.state := by
    obtain ⟨m, hm, -⟩ := hreads
    exact hm.base
  refine ⟨view, hview, hbase, ?_⟩
  have hmerged := @Overlay.Reads.merge _ _ (some (refundsIn store.entries)) _ _ _ _ _ hreads
    h.stands.tidy
    (fun hr => by cases hr) fun r hr spend => ?_
  · exact ⟨{ hmerged.alike with }, hmerged.kept, hmerged.counted, hmerged.tidy⟩
  · cases hr
    have hcounted := refundsIn_run hu.run c'.core.length
      (by rw [Chain.run_length hu.run]; exact Nat.le_add_left _ _) spend
    rw [hentries, ← hn]
    split_ifs with hzero
    · have hlength := Chain.run_length hu.run
      have hnil : u.ledger.entries = [] := List.eq_nil_of_length_eq_zero (by
        change c'.core.length = 0 at hzero
        omega)
      have hempty := hu.run
      rw [hnil] at hempty
      cases hempty
      rfl
    · exact hcounted

/-- What was committed after a view is applied to it. -/
theorem Sound.catchUp (h : g.Sound w unit c) (hu : u.Sound w unit c') (hstore : g.store = true)
    (hentries : u.ledger.entries = store.entries) (hle : g.history ≤ store.history) :
    ∃ t, g.catchUp store = .ok t ∧ t.ledger.entries = store.entries ∧
      Governor.Sound w unit { t with draws := u.draws } c' ∧ t.store = true ∧
      t.unitCalls = g.unitCalls ∧ t.keyCache = g.keyCache := by
  obtain ⟨n, hn, apart⟩ := hle
  change store.entries = g.ledger.entries ++ n at hn
  have hun : u.ledger.entries = g.ledger.entries ++ n := hentries.trans hn
  have hdelta : store.entries.drop g.ledger.state.length = n := by
    rw [h.length_eq, hn, List.drop_left]
  have hanchor : ¬(g.ledger.state.length ≠ 0 ∧
      store.anchorHash g.ledger.state.length ≠ some g.ledger.state.head) := by
    rintro ⟨hne, hmoved⟩
    refine hmoved ?_
    rw [h.length_eq] at hne ⊢
    have hpos : g.ledger.entries.length - 1 < g.ledger.entries.length := by omega
    rw [SharedStore.anchorHash, h.head_eq, hn, List.getElem?_append_left hpos,
      List.getLast?_eq_getElem?, List.getElem?_eq_getElem hpos]
    rfl
  obtain ⟨view, hview, hbase, hstands⟩ := h.verified hu hstore hun hn apart
  unfold Governor.catchUp
  simp only [if_neg hanchor, hdelta, hview]
  refine ⟨_, rfl, hn.symm, ⟨?_, hu.net, ?_, ?_, ?_⟩, hstore, rfl, rfl⟩
  · have hresolve : Ledger.resolve { entries := g.ledger.entries ++ n, state := view.merge
                                     openAuths := followHolds g.ledger.openAuths view } =
        u.ledger.resolve := by
      funext id
      rw [Ledger.resolve, Ledger.resolve, hun]
    dsimp only
    rw [hresolve, ← hun]
    exact hu.run
  · rw [refundLookup, if_pos hstore]
    dsimp only
    rw [← hn]
    exact hstands
  · dsimp only
    rw [h.auths]
    refine followHolds_eq hbase fun id hold hid => ?_
    have hholds : view.merge.holds = c'.holds := by
      have hh := hstands.alike.holds
      rwa [Dict.mapValues_id, Dict.mapValues_id] at hh
    rw [hholds] at hid
    exact (run_holds_known hu.run id hold hid).2.2
  · dsimp only
    rw [← hun]
    exact hu.drawn

/-- What is committed is read again as it was written. -/
theorem Sound.reread_shared (hu : u.Sound w unit c') (hstore : u.store = true)
    (hentries : u.ledger.entries = store.entries) (hunit : store.unit = unit)
    (hg : g.store = true) :
    ∃ t, g.reread store = .ok t ∧ t.ledger.entries = store.entries ∧
      Governor.Sound w unit { t with draws := u.draws } c' ∧ t.store = true ∧
      t.unitCalls = g.unitCalls ∧ t.keyCache = g.keyCache := by
  obtain ⟨s, hs, hstands⟩ := hu.reread
  have hlookup : u.refundLookup = some (refundsIn store.entries) := by
    rw [refundLookup, if_pos hstore, hentries]
  rw [hlookup, hentries, ← hunit] at hs
  rw [hlookup] at hstands
  unfold Governor.reread
  rw [hs]
  refine ⟨_, rfl, rfl, ⟨?_, hu.net, ?_, rfl, ?_⟩, hg, rfl, rfl⟩
  · have hresolve : Ledger.resolve { entries := store.entries, state := s
                                     openAuths := s.holds.mapValues authorizationFor } =
        u.ledger.resolve := by
      funext id
      rw [Ledger.resolve, Ledger.resolve, hentries]
    dsimp only
    rw [hresolve, ← hentries]
    exact hu.run
  · rw [refundLookup, if_pos hg]
    exact hstands
  · dsimp only
    rw [← hentries]
    exact hu.drawn

end Governor

/-! ### What is written goes on -/

/-- Whether entries are of transactions drawn from one draw on, up to another. -/
def DrawnIn (w : World) (m n : ℕ) (l : List LedgerEntry) : Prop :=
  ∀ e ∈ l, ∃ i, m ≤ i ∧ i < n ∧ e.transactionId = w.uuid i

theorem DrawnIn.mono {m m' n n' : ℕ} {l : List LedgerEntry} (h : DrawnIn w m n l) (hm : m' ≤ m)
    (hn : n ≤ n') : DrawnIn w m' n' l := by
  intro e he
  obtain ⟨i, hle, hlt, hi⟩ := h e he
  exact ⟨i, hm.trans hle, hlt.trans_le hn, hi⟩

theorem DrawnIn.append {m n : ℕ} {l l' : List LedgerEntry} (h : DrawnIn w m n l)
    (h' : DrawnIn w m n l') : DrawnIn w m n (l ++ l') :=
  fun e he => (List.mem_append.mp he).elim (h e) (h' e)

/-- What is drawn apart is written apart. -/
theorem Drawn.apart {n m : ℕ} {l new : List LedgerEntry} (h : Drawn w n l)
    (hnew : DrawnIn w n m new) (hle : n ≤ m) (distinct : w.Distinct m) :
    NoTransactionShared l new := by
  intro x hx y hy heq
  obtain ⟨i, hi, hxi⟩ := h.txns x hx
  obtain ⟨j, hj, hjm, hyj⟩ := hnew y hy
  rw [hxi, hyj] at heq
  have hij := distinct.index_eq (hi.trans_le hle) hjm heq
  omega

/-- The transactions of a unit of work are drawn in it. -/
theorem Staging.run_drawnIn {α : Type} {m : ℕ} (body : Staging α) (p : Pending)
    (h : DrawnIn w m p.draws p.entries) (hm : m ≤ p.draws) :
    DrawnIn w m (body.run (stage w) p).2.draws (body.run (stage w) p).2.entries := by
  refine (Program.run_invariant
    (I := fun q : Pending => m ≤ q.draws ∧ DrawnIn w m q.draws q.entries) ?_ body ⟨hm, h⟩).2
  rintro β i q ⟨hq, hdrawn⟩
  refine ⟨hq.trans (stage_draws w i q), ?_⟩
  cases i with
  | view => exact hdrawn
  | post lines =>
    rcases stage_post w lines q with ⟨es, q', posted, hs⟩ | ⟨x, hs⟩
    · have hdraws := posted.draws
      rw [hs]
      dsimp only
      rw [posted.entries]
      refine (hdrawn.mono le_rfl (by omega)).append fun e he => ?_
      exact ⟨q.draws, hq, by omega, posted.txn e he⟩
    · rw [hs]
      exact hdrawn.mono le_rfl (by simp only [Pending.skip]; omega)

namespace Governor

/-- Whether a governor has written transactions drawn since, and nothing else. -/
def Lengthens (w : World) (g t : Governor) : Prop :=
  g.draws ≤ t.draws ∧
    ∃ new, t.ledger.entries = g.ledger.entries ++ new ∧ DrawnIn w g.draws t.draws new

namespace Lengthens

theorem of_keeps (h : g.Keeps t) : g.Lengthens w t :=
  ⟨h.draws, [], by rw [h.ledger, List.append_nil], fun _ he => (List.not_mem_nil he).elim⟩

theorem refl (g : Governor) : g.Lengthens w g := of_keeps (.refl g)

theorem trans (h : g.Lengthens w t) (h' : t.Lengthens w u) : g.Lengthens w u := by
  obtain ⟨hdraws, new, hnew, hin⟩ := h
  obtain ⟨hdraws', more, hmore, hin'⟩ := h'
  refine ⟨hdraws.trans hdraws', new ++ more, by rw [hmore, hnew, List.append_assoc], ?_⟩
  exact (hin.mono le_rfl hdraws').append (hin'.mono hdraws le_rfl)

theorem handled (h : g.Handled w t) : g.Lengthens w t := by
  cases h with
  | keep keeps => exact of_keeps keeps
  | commit body call result a p run =>
    have hdraws := Staging.run_draws w body g.begin
    have hdrawn := Staging.run_drawnIn (w := w) body g.begin
      (fun e he => (List.not_mem_nil he).elim) le_rfl
    rw [run] at hdraws hdrawn
    refine ⟨by rw [draws_commit]; exact hdraws, ?_⟩
    rw [ledger_commit, draws_commit]
    split_ifs
    · exact ⟨[], (List.append_nil _).symm, fun _ he => (List.not_mem_nil he).elim⟩
    · exact ⟨p.entries, rfl, hdrawn⟩

/-- An operation writes transactions drawn for it. -/
theorem op (g : Governor) {α : Type} (op : Op α) : g.Lengthens w (op.run (handle w) g).2 :=
  run_handled (I := fun t => g.Lengthens w t) (fun _ _ hg h => h.trans (handled hg)) op (refl g)

/-- What has been written since goes on. -/
theorem history_le (h : g.Lengthens w t) (hg : g.Sound w unit c) (distinct : w.Distinct t.draws) :
    g.history ≤ t.history := by
  obtain ⟨hdraws, new, hnew, hin⟩ := h
  exact ⟨new, hnew, hg.drawn.apart hin hdraws distinct⟩

end Lengthens

/-- A governor that has gone on from another in a session, keeping what units of work keep. -/
structure Proceeds (w : World) (unit : Unit) (g t : Governor) : Prop
    extends Onward w unit g t where
  upholds : ∀ P, Maintained w unit P → g.Upholds w unit P → t.Upholds w unit P

namespace Proceeds

theorem refl (h : g.Orderly w unit) : Proceeds w unit g g := ⟨.refl h, fun _ _ hP => hP⟩

theorem trans (h : Proceeds w unit g t) (h' : Proceeds w unit t u) : Proceeds w unit g u :=
  ⟨h.toOnward.trans h'.toOnward, fun P hm hP => h'.upholds P hm (h.upholds P hm hP)⟩

/-- What no call is recorded of proceeds. -/
theorem op (h : g.Orderly w unit) {α : Type} (op : Op α) (hidle : g.Idle (op.run (handle w) g).2)
    (upholds : ∀ P, Maintained w unit P → g.Upholds w unit P →
      (op.run (handle w) g).2.Upholds w unit P) : Proceeds w unit g (op.run (handle w) g).2 :=
  { h.within.op op with
    kept := fun distinct => (h.op (h.within.op op) hidle distinct).2
    adds := fun _ => adds_of_keys hidle.keys
    upholds := upholds }

theorem perform (h : g.Orderly w unit) (m : Mutation) : Proceeds w unit g (g.perform w m).2 :=
  ⟨.perform h m, fun _ hm hP => hP.perform hm h m⟩

theorem drawing (h : g.Orderly w unit) {n : ℕ} (hn : g.draws ≤ n) :
    Proceeds w unit g { g with draws := n } := by
  have hkeeps : g.Keeps { g with draws := n } := ⟨rfl, rfl, rfl, rfl, hn⟩
  exact
    { h.within.keep hkeeps with
      kept := fun distinct => (h (distinct.mono hn)).2.same rfl rfl rfl
        (h (distinct.mono hn)).2.coherent fun _ hk => Or.inl hk
      adds := fun _ => adds_of_keys rfl
      upholds := fun _ _ hP => hP.keep hkeeps }

theorem lookUpCalls (h : g.Orderly w unit) {keys : List Text} (ht : g.lookUpCalls keys = .ok t) :
    Proceeds w unit g t := by
  obtain ⟨hkeeps, hbare, -, hkept⟩ := lookUpCalls_ok ht
  exact ⟨.same h hbare.symm hkept, fun _ _ hP => hP.keep hkeeps⟩

theorem trip (h : g.Orderly w unit) (scope reason : Text) :
    Proceeds w unit g ((Op.trip scope reason).run (handle w) g).2 :=
  .op h _ (trip_leaves w g scope reason).toIdle fun _ hm hP => hP.trip hm scope reason

end Proceeds

/-! ### Redemptions -/

/-- What comes of the booking of a claim: it is committed, or nothing is. -/
theorem meets_redeemLocked (claim : SettlementClaim) : Meets w Books (fun r t =>
    (∃ e p, r = .ok e ∧ t = g.commit p none ∧
      (Op.booking g.policy.tripOnExhaustion claim (claim.holdId.bind g.ledger.openAuths.get?)).run
        (stage w) g.begin = (.ok e, p)) ∨
    ∃ x n, r = .error x ∧ t = { g with draws := n }) (Op.redeemLocked claim) g := by
  rw [Op.redeemLocked, meets_requireNode_bind fun x => Or.inr ⟨x, g.draws, rfl, rfl⟩]
  intro n known
  rw [meets_served_bind, meets_policy_bind]
  refine Program.meets_perform.mpr ⟨.claim _ claim n known, fun e t hr => ?_, fun x t hr => ?_⟩
  · obtain ⟨p, hp, rfl⟩ := work_ok hr
    exact Or.inl ⟨e, p, rfl, rfl, hp⟩
  · obtain ⟨k, rfl⟩ := work_error hr
    exact Or.inr ⟨x, k, rfl, rfl⟩

/-- The booking of a claim proceeds. -/
theorem Proceeds.redeemLocked (h : g.Orderly w unit) (claim : SettlementClaim) :
    Proceeds w unit g ((Op.redeemLocked claim).run (handle w) g).2 := by
  have hmeets := meets_redeemLocked (w := w) (g := g) claim
  refine .op h _ ?_ fun P hm hP => hP.run (fun hbooks hr => hbooks.wrote hr) hm hmeets
  rcases hmeets.run with ⟨e, p, -, ht, -⟩ | ⟨x, n, -, ht⟩
  · rw [ht]
    exact idle_commit g p
  · rw [ht]
    exact idle_draws g n

end Governor

namespace WriterSession

variable {ι : Type} (s : WriterSession ι)

/-- Claims booked one after another write transactions drawn for them. -/
theorem redeemEach_lengthens (g : Governor) (claims : List SettlementClaim) :
    g.Lengthens w (s.redeemEach w g claims).1 := by
  induction claims generalizing g s with
  | nil => exact .refl g
  | cons claim rest ih =>
    have hone := Governor.Lengthens.op (w := w) g (Op.redeemLocked claim)
    unfold redeemEach
    rcases hr : (Op.redeemLocked claim).run (Governor.handle w) g with ⟨x | e, t⟩ <;>
      rw [hr] at hone
    · exact hone
    · dsimp only at hone ⊢
      split_ifs
      · exact hone.trans (ih _ _)
      · exact .of_keeps ⟨rfl, rfl, rfl, rfl, hone.1⟩

/-- Claims booked one after another proceed. -/
theorem redeemEach_proceeds (h : g.Orderly w unit) (claims : List SettlementClaim) :
    Governor.Proceeds w unit g (s.redeemEach w g claims).1 := by
  induction claims generalizing g s with
  | nil => exact .refl h
  | cons claim rest ih =>
    have hone := Governor.Proceeds.redeemLocked h claim
    unfold redeemEach
    rcases hr : (Op.redeemLocked claim).run (Governor.handle w) g with ⟨x | e, t⟩ <;>
      rw [hr] at hone
    · exact hone
    · dsimp only at hone ⊢
      split_ifs
      · exact hone.trans (ih _ hone.orderly)
      · exact .drawing h hone.draws

theorem redeem_proceeds (h : g.Orderly w unit) (claim : Option SettlementClaim) :
    Governor.Proceeds w unit g (s.redeem w g claim).1 := s.redeemEach_proceeds h _

/-- A redemption is of the session it is made in. -/
theorem redeemEach_holder (g : Governor) (claims : List SettlementClaim) :
    (s.redeemEach w g claims).2.holder = s.holder ∧
      (s.redeemEach w g claims).2.joined = s.joined := by
  induction claims generalizing g s with
  | nil => exact ⟨rfl, rfl⟩
  | cons claim rest ih =>
    unfold redeemEach
    rcases (Op.redeemLocked claim).run (Governor.handle w) g with ⟨x | e, t⟩
    · exact ⟨rfl, rfl⟩
    · dsimp only
      split_ifs
      · exact ih _ _
      · exact ⟨rfl, rfl⟩

end WriterSession

/-! ### What entries imply -/

/-- Two states that stand for a chain agree, but for what they remember of refunds. -/
theorem ChainState.Stands.agrees_counting {r r' : Option (UUID → ℕ → Except Error Value)}
    {s t : ChainState} (h : s.Stands id r c) (h' : t.Stands id r' c) :
    ChainState.Agrees { s with spendRefunds := ∅ } { t with spendRefunds := ∅ } := by
  have forget {r : Option (UUID → ℕ → Except Error Value)} {s : ChainState}
      (h : s.Stands id r c) : ChainState.Stands id none { s with spendRefunds := ∅ }
        { c with spendRefunds := ∅ } :=
    { alike := { h.alike with spendRefunds := .refl _ }
      kept := fun _ => .refl _
      counted := fun _ hr => (by cases hr)
      tidy := h.tidy }
  exact (forget h).agrees (forget h')

/-- Whether a governor serves what its entries imply: a replay of them succeeds, and agrees with
it but for the refunds that a store is asked for, and what is open is what its holds authorize. -/
def Governor.ServesReplay (g : Governor) (unit : Unit) : Prop :=
  ∃ s, replay g.ledger.entries [] false none g.refundLookup unit = .ok s ∧
    ChainState.Agrees { s with spendRefunds := ∅ } { g.ledger.state with spendRefunds := ∅ } ∧
    g.ledger.openAuths = s.holds.mapValues authorizationFor

theorem Governor.Sound.servesReplay (h : g.Sound w unit c) : g.ServesReplay unit := by
  obtain ⟨s, hs, stands⟩ := h.reread
  have hagrees := stands.agrees_counting h.stands
  exact ⟨s, hs, hagrees, h.auths.trans (congrArg (Dict.mapValues authorizationFor) hagrees.holds.symm)⟩

end AgentGov
