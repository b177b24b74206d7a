import AgentGov.Writing

/-!
# Runs of a governor

Whatever calls and blocks a governor without a store is asked for, the entries it has written are
accepted by a replay, and the replay ends in the state the governor serves.

## Main definitions

* `AgentGov.Governor.Within`: a governor that has gone on from another, soundly.
* `AgentGov.ChainState.Agrees`: two states agree in every field.

## Main results

* `AgentGov.Governor.Within.rollBack`: a block rolled back leaves what was served before it.
* `AgentGov.replay_agrees`: a replay of what was written agrees with what is served.
-/

open Foundation

namespace AgentGov

variable {w : World} {unit : Unit} {c c₀ : Chain}

namespace Governor

variable {g g₀ g' : Governor}

/-- What every instruction keeps, an operation keeps. -/
theorem run_handled {I : Governor → Prop} (hstep : ∀ g g', g.Handled w g' → I g → I g')
    {α : Type} (op : Op α) (h : I g) : I (op.run (handle w) g).2 :=
  Program.run_invariant (fun _ i g hg => hstep g _ (handled w i g) hg) op h

/-- A governor that has gone on from another: its history is longer, and what it serves is sound
if the ids drawn for it are distinct. -/
structure Within (w : World) (unit : Unit) (g₀ g : Governor) : Prop where
  grows : g₀.ledger.entries <+: g.ledger.entries
  store : g.store = g₀.store
  draws : g₀.draws ≤ g.draws
  sound : w.Distinct g.draws → ∃ c, g.Sound w unit c

namespace Within

theorem refl (h : w.Distinct g.draws → ∃ c, g.Sound w unit c) : g.Within w unit g :=
  ⟨List.prefix_rfl, rfl, Nat.le_refl _, h⟩

theorem trans {g₁ : Governor} (h : Within w unit g₀ g₁) (h' : Within w unit g₁ g) :
    Within w unit g₀ g :=
  ⟨h.grows.trans h'.grows, h'.store.trans h.store, Nat.le_trans h.draws h'.draws, h'.sound⟩

theorem handled (g g' : Governor) (hg : g.Handled w g') (h : Within w unit g₀ g) :
    Within w unit g₀ g' where
  grows := h.grows.trans hg.grows
  store := hg.store.trans h.store
  draws := Nat.le_trans h.draws hg.draws
  sound distinct := by
    obtain ⟨c, hc⟩ := h.sound (distinct.mono hg.draws)
    exact hc.handled hg distinct

theorem keep (h : Within w unit g₀ g) (hk : g.Keeps g') : Within w unit g₀ g' :=
  h.handled g g' (.keep hk)

theorem op (h : Within w unit g₀ g) {α : Type} (op : Op α) :
    Within w unit g₀ (op.run (handle w) g).2 :=
  run_handled handled op h

theorem leave (h : Within w unit g₀ g) : Within w unit g₀ g.leave :=
  h.keep ⟨rfl, rfl, rfl, rfl, Nat.le_refl _⟩

theorem call (h : Within w unit g₀ g) (m : Mutation) : Within w unit g₀ (g.call w m).2 :=
  (h.op m.program).leave

theorem runBlock (h : Within w unit g₀ g) (steps : List Step) (raises : Option Exception) :
    Within w unit g₀ (runBlock w g steps raises).2 := by
  induction steps generalizing g with
  | nil => exact h
  | cons step rest ih =>
    have hstep := h.op step.call.program
    unfold Governor.runBlock
    unfold perform
    rcases hr : step.call.program.run (handle w) g with ⟨_ | a, g₁⟩ <;> rw [hr] at hstep
    · dsimp only
      split_ifs
      · exact ih hstep
      · exact hstep
    · exact ih hstep

theorem retrip (h : Within w unit g₀ g) (trips : List (Text × Text)) :
    Within w unit g₀ (g.retrip w trips) := by
  induction trips generalizing g with
  | nil => exact h
  | cons trip rest ih => exact ih (h.op _).leave

end Within

/-! ### Blocks rolled back -/

/-- What a governor has written is accepted by a replay, whose state stands for the same chain. -/
theorem Sound.replay (h : g.Sound w unit c) :
    ∃ s, replay g.ledger.entries [] false none none unit = .ok s ∧ s.Stands id none c := by
  have answers : Answers (spendIndex g.ledger.entries) g.ledger.entries := by
    intro before e after ref hl kind named
    obtain ⟨x, hx, covers⟩ := run_answers h.run before e after ref hl kind named
    obtain ⟨hm, rfl⟩ := (Ledger.resolve_eq_some h.drawn.distinct).mp hx
    exact ⟨x, spendIndex_of_mem h.drawn.distinct hm covers.kind, covers⟩
  have hrun := run_finding answers h.run
  have hend : Chain.replay g.ledger.entries [] false (spendIndex g.ledger.entries) unit =
      .ok { c.finding (spendIndex g.ledger.entries) with
        frame := { c.frame with txn := none, settleable := [] } } := by
    unfold Chain.replay replayView
    rw [hrun, ok_bind, if_neg (by simp), Rules.endTransaction]
    exact if_neg (not_not.mpr h.net)
  obtain ⟨s, hs, tidy, hchain⟩ := (replay_together g.ledger.entries [] false none unit).exists_ok'
    hend
  have hchain' : s.chain c.resolve = { c with frame := {} } :=
    congrArg (fun d : Chain => { d with resolve := c.resolve }) hchain
  refine ⟨s, hs, ⟨?_, fun _ => ?_, fun _ hr => (by cases hr), tidy⟩⟩
  · rw [hchain']
    exact .refl (run_treeKept h.run).keyed
  · rw [show s.spendRefunds = c.spendRefunds from congrArg Chain.spendRefunds hchain']
    exact .refl _

/-- The entries a governor had written before others are adopted again as they were. -/
theorem Sound.adopt (h : g.Sound w unit c) (hstore : g'.store = false)
    (hunit : g'.ledger.state.unit = unit) : ∃ ledger, g'.adopt g.ledger.entries = .ok ledger ∧
      ledger.entries = g.ledger.entries ∧ ledger.state.Stands id none c ∧
      ledger.openAuths = ledger.state.holds.mapValues authorizationFor := by
  obtain ⟨s, hs, stands⟩ := h.replay
  have hlookup : g'.refundLookup = none := by
    rw [refundLookup, hstore]
    rfl
  let ledger : Ledger :=
    { entries := g.ledger.entries
      state := s
      openAuths := s.holds.mapValues authorizationFor }
  refine ⟨ledger, ?_, rfl, stands, rfl⟩
  rw [Governor.adopt, hlookup, hunit, hs]
  rfl

/-- What a roll-back that succeeds has done. -/
theorem rollBack_ok {mark : ℕ} (h : g.rollBack mark = .ok g') :
    g'.ledger.entries = g.ledger.entries.take mark ∧ g'.draws = g.draws ∧ g'.store = g.store ∧
      g'.policy = g.policy := by
  unfold rollBack at h
  split_ifs at h with hmark
  · obtain ⟨ledger, hl, h⟩ := bind_eq_ok.mp h
    cases h
    unfold Governor.adopt at hl
    obtain ⟨s, -, hl⟩ := bind_eq_ok.mp hl
    cases hl
    exact ⟨rfl, rfl, rfl, rfl⟩
  · cases h
    exact ⟨(List.take_of_length_le (Nat.not_lt.mp hmark)).symm, rfl, rfl, rfl⟩

/-- A governor of the same entries as a sound one, and sound, stands for the same chain. -/
theorem Sound.of_entries_eq (h : g.Sound w unit c) (h' : g'.Sound w unit c₀)
    (hentries : g'.ledger.entries = g.ledger.entries) : g'.Sound w unit c := by
  have hresolve : g'.ledger.resolve = g.ledger.resolve := by
    funext id
    rw [Ledger.resolve, Ledger.resolve, hentries]
  have hrun := h'.run
  rw [hresolve, hentries, h.run, Except.ok.injEq] at hrun
  rw [hrun]
  exact h'

/-- A block rolled back leaves the chain that was served before it. -/
theorem Within.rollBack (h : Within w unit g₀ g) (h₀ : g₀.Sound w unit c₀)
    (hstore : g₀.store = false) (distinct : w.Distinct g.draws) :
    ∃ g', g.rollBack g₀.ledger.entries.length = .ok g' ∧ g'.Sound w unit c₀ := by
  obtain ⟨c, hc⟩ := h.sound distinct
  have htake : g.ledger.entries.take g₀.ledger.entries.length = g₀.ledger.entries :=
    (List.prefix_iff_eq_take.mp h.grows).symm
  unfold Governor.rollBack
  split_ifs with hmark
  · obtain ⟨ledger, hl, hentries, stands, auths⟩ :=
      h₀.adopt (h.store.trans hstore) hc.unit_eq
    rw [htake, hl]
    refine ⟨_, rfl, ?_⟩
    have hresolve : ledger.resolve = g₀.ledger.resolve := by
      funext id
      rw [Ledger.resolve, Ledger.resolve, hentries]
    refine ⟨?_, h₀.net, ?_, auths, ?_⟩
    · dsimp only
      rw [hresolve, hentries]
      exact h₀.run
    · rw [refundLookup, if_neg (by simp [h.store, hstore])]
      exact stands
    · dsimp only
      rw [hentries]
      exact h₀.drawn.mono h.draws
  · refine ⟨g, rfl, h₀.of_entries_eq hc ?_⟩
    rw [← htake, List.take_of_length_le (Nat.not_lt.mp hmark)]

/-- A block leaves what is served sound, whether it raises or not. -/
theorem Within.transaction (h : w.Distinct g.draws → ∃ c, g.Sound w unit c)
    (hstore : g.store = false) (b : Block) : Within w unit g (g.transaction w b).2 := by
  have hbegin : Within w unit g { g with trips := some [] } :=
    (Within.refl h).keep ⟨rfl, rfl, rfl, rfl, Nat.le_refl _⟩
  have hblock := hbegin.runBlock b.calls b.raises
  have hleave : Within w unit g
      { (Governor.runBlock w { g with trips := some [] } b.calls b.raises).2.leave with
        trips := none } :=
    hblock.leave.keep ⟨rfl, rfl, rfl, rfl, Nat.le_refl _⟩
  unfold Governor.transaction
  rcases hr : Governor.runBlock w { g with trips := some [] } b.calls b.raises with ⟨_ | e, g₁⟩ <;>
    rw [hr] at hleave
  · exact hleave
  · dsimp only at hleave ⊢
    cases hback : ({ g₁.leave with trips := none } : Governor).rollBack
        g.ledger.entries.length with
    | error err => exact hleave
    | ok g₂ =>
      refine Within.retrip ?_ _
      obtain ⟨hentries, hdraws, hstore', -⟩ := rollBack_ok hback
      refine ⟨?_, hstore'.trans hleave.store, hdraws ▸ hleave.draws, fun distinct => ?_⟩
      · rw [hentries]
        exact (List.prefix_iff_eq_take.mp hleave.grows) ▸ List.prefix_rfl
      · rw [hdraws] at distinct
        obtain ⟨c, hc⟩ := h (distinct.mono hleave.draws)
        obtain ⟨g₃, hg₃, hsound⟩ := hleave.rollBack hc hstore distinct
        rw [hback, Except.ok.injEq] at hg₃
        exact ⟨c, hg₃ ▸ hsound⟩

/-- A command leaves what is served sound. -/
theorem Within.obey (h : w.Distinct g.draws → ∃ c, g.Sound w unit c) (hstore : g.store = false)
    (command : Command) : Within w unit g (g.obey w command) := by
  cases command with
  | call m => exact (Within.refl h).call m
  | transaction b => exact .transaction h hstore b

/-- A run leaves what is served sound. -/
theorem Within.run (h : w.Distinct g.draws → ∃ c, g.Sound w unit c) (hstore : g.store = false)
    (commands : List Command) : Within w unit g (g.run w commands) := by
  induction commands generalizing g with
  | nil => exact .refl h
  | cons command rest ih =>
    have hone := Within.obey h hstore command
    exact hone.trans (ih hone.sound (hone.store.trans hstore))

/-- What a new governor serves after a run is sound. -/
theorem run_sound (policy : GovernancePolicy) (commands : List Command)
    (distinct : w.Distinct ((Governor.new unit policy false).run w commands).draws) :
    ∃ c, ((Governor.new unit policy false).run w commands).Sound w unit c :=
  (Within.run (fun _ => ⟨_, .new w unit policy false⟩) rfl commands).sound distinct

end Governor

/-! ### Agreement -/

/-- Two states agree in every field, as the fields are compared: mappings whatever their order,
but open holds, scopes and their children in order. -/
structure ChainState.Agrees (s t : ChainState) : Prop where
  core : s.toCore = t.toCore
  unit : s.unit = t.unit
  migrationSeal : s.migrationSeal = t.migrationSeal
  balances : s.balances.Same t.balances
  holds : s.holds = t.holds
  ambiguous : s.ambiguous.Perm t.ambiguous
  nodes : s.nodes = t.nodes
  roots : s.roots = t.roots
  tripped : s.tripped.Same t.tripped
  spent : s.spent.Same t.spent
  refunded : s.refunded.Same t.refunded
  holdCounts : s.holdCounts.Same t.holdCounts
  spendRefunds : s.spendRefunds.Same t.spendRefunds

/-- A count that is kept is the count, and no count of zero is kept. -/
theorem ChainState.Tidy.get?_holdCounts {s : ChainState} (h : s.Tidy) (scope : Text) :
    s.holdCounts.get? scope = if s.holdsOpenIn scope = 0 then none
      else some (s.holdsOpenIn scope) := by
  have hscope := h scope
  unfold ChainState.holdsOpenIn
  cases hc : s.holdCounts.get? scope with
  | none => simp
  | some n =>
    rw [hc] at hscope
    have hn : n ≠ 0 := fun hn => hscope (by rw [hn])
    simp [hn]

/-- Two states that stand for a chain agree. -/
theorem ChainState.Stands.agrees {s t : ChainState} (h : s.Stands id none c)
    (h' : t.Stands id none c) : s.Agrees t where
  core := h.alike.core.trans h'.alike.core.symm
  unit := h.alike.unit.trans h'.alike.unit.symm
  migrationSeal := by
    have hs := h.alike.migrationSeal.trans h'.alike.migrationSeal.symm
    simpa [ChainState.chain] using hs
  balances := h.alike.balances.trans h'.alike.balances.symm
  holds := by
    have hs := h.alike.holds.trans h'.alike.holds.symm
    rwa [Dict.mapValues_id, Dict.mapValues_id] at hs
  ambiguous := h.alike.ambiguous.trans h'.alike.ambiguous.symm
  nodes := h.alike.nodes.trans h'.alike.nodes.symm
  roots := h.alike.roots.trans h'.alike.roots.symm
  tripped := congrFun (h.alike.tripped.trans h'.alike.tripped.symm)
  spent := h.alike.spent.trans h'.alike.spent.symm
  refunded := h.alike.refunded.trans h'.alike.refunded.symm
  holdCounts scope := by
    have hs : s.holdsOpenIn scope = t.holdsOpenIn scope :=
      congrFun (h.alike.holdCounts.trans h'.alike.holdCounts.symm) scope
    rw [h.tidy.get?_holdCounts, h'.tidy.get?_holdCounts, hs]
  spendRefunds := (h.kept rfl).trans (h'.kept rfl).symm

/-- A replay of everything a governor without a store has written, with every hash recomputed,
succeeds and agrees with the state the governor serves. -/
theorem replay_agrees (w : World) (unit : Unit) (policy : GovernancePolicy)
    (commands : List Governor.Command)
    (distinct : w.Distinct ((Governor.new unit policy false).run w commands).draws) :
    ∃ s, replay ((Governor.new unit policy false).run w commands).ledger.entries [] false none none
        unit = .ok s ∧
      s.Agrees ((Governor.new unit policy false).run w commands).ledger.state := by
  obtain ⟨c, hc⟩ := Governor.run_sound policy commands distinct
  obtain ⟨s, hs, stands⟩ := hc.replay
  have hstore : ((Governor.new unit policy false).run w commands).store = false :=
    (Governor.Within.run (fun _ => ⟨_, .new w unit policy false⟩) rfl commands).store
  have hlive := hc.stands
  rw [Governor.refundLookup, hstore] at hlive
  exact ⟨s, hs, stands.agrees hlive⟩

/-! ### A sample run -/

/-- A world whose ids count up and whose clock stands still. -/
def sampleWorld : World where
  uuid n := Fin.ofNat _ n
  now _ := newYear
  monotonic n := n

/-- The default policy, whose window is a minute. -/
def samplePolicy : GovernancePolicy where
  window :=
    { text := txt "60.0"
      positive := true
      before := fun t => t - 60
      micros := 60000000 }

/-- An amount of whole units, as a caller gives it. -/
def wholeAmount (n : ℤ) : AmountArg := .number (some (Decimal.ofInt n))

/-- A run that opens a root, delegates and spends under keys, and a block that overdraws. -/
def sampleRun : List Governor.Command :=
  [.call (.openRoot (txt "a") (wholeAmount 10) []),
   .call (.delegate (txt "a") (txt "b") (wholeAmount 4) [] (some (txt "k"))),
   .call (.spend (txt "b") (wholeAmount 1) [] (some (txt "s"))),
   .transaction
    { calls :=
        [⟨.authorize (txt "b") (wholeAmount 2) [] none, false⟩,
         ⟨.authorize (txt "a") (wholeAmount 50) [] none, false⟩] }]

/-- The sample world draws no id twice. -/
theorem sampleWorld_distinct {n : ℕ} (h : n ≤ 2 ^ 128) : sampleWorld.Distinct n := by
  intro i hi j hj hij
  have hval := congrArg Fin.val hij
  change i < n at hi
  change j < n at hj
  change i % 2 ^ 128 = j % 2 ^ 128 at hval
  rwa [Nat.mod_eq_of_lt (by omega), Nat.mod_eq_of_lt (by omega)] at hval

theorem sampleRun_draws :
    ((Governor.new USD samplePolicy false).run sampleWorld sampleRun).draws ≤ 2 ^ 128 := by
  decide +kernel

theorem replay_agrees_sampleRun :
    ∃ s, replay ((Governor.new USD samplePolicy false).run sampleWorld sampleRun).ledger.entries
        [] false none none USD = .ok s ∧
      s.Agrees ((Governor.new USD samplePolicy false).run sampleWorld sampleRun).ledger.state :=
  replay_agrees sampleWorld USD samplePolicy sampleRun (sampleWorld_distinct sampleRun_draws)

end AgentGov
