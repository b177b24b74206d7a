import AgentGov.Batches

/-!
# Orders served

A governor serves calls, batches and blocks, over a store or without one. The calls of an order go
on from one another; where the order is not committed, what is served and what is recorded of calls
are as they were before it, but for the breaker trips written again on their own.

## Main definitions

* `AgentGov.Turn`: a call, and the governor it is made of.
* `AgentGov.Governor.turns`, `AgentGov.Governor.stands`: the calls of an order, and whether what
  they do stands.
* `AgentGov.Governor.Goes`: a governor that calls lead to.

## Main results

* `AgentGov.Governor.Sound.reread`: what a store holds is read again as it was.
* `AgentGov.Governor.Within.rollBackUnit`: a unit of work that is not committed is undone.
* `AgentGov.Governor.serve_cases`: what an order leaves.
-/

open Foundation

namespace AgentGov

variable {w : World} {unit : Unit} {c c₀ : Chain}

/-- A call, and the governor it is made of. -/
structure Turn where
  before : Governor
  call : Mutation

/-- The governor a call leaves. -/
def Turn.after (w : World) (t : Turn) : Governor := (t.before.perform w t.call).2

/-- What a call returns, or raises. -/
def Turn.result (w : World) (t : Turn) : Except Exception Answer := (t.before.perform w t.call).1

namespace Governor

section Turns

variable (w : World) (g : Governor)

/-- The turns of requests called each on its own. -/
def callTurns : Governor → List Mutation → List Turn
  | _, [] => []
  | g, m :: rest => ⟨g, m⟩ :: callTurns (g.call w m).2 rest

/-- The turns of requests run in one unit of work. -/
def takenTurns : Governor → List Mutation → List Turn
  | _, [] => []
  | g, m :: rest => ⟨g, m⟩ :: takenTurns (g.perform w m).2 rest

/-- The turns of what is queued, as far as its keys can be looked up. -/
def drainTurns : Governor → List (List Mutation) → List Turn
  | _, [] => []
  | g, taken :: queue =>
    match g.lookUpCalls (taken.filterMap Mutation.key) with
    | .error _ => []
    | .ok g => g.takenTurns w taken ++ drainTurns (g.runTaken w taken).2 queue

/-- The turns of a block, up to the one whose exception ends it. -/
def blockTurns : Governor → List Step → List Turn
  | _, [] => []
  | g, step :: rest =>
    ⟨g, step.call⟩ ::
      match g.perform w step.call with
      | (.ok _, g) => blockTurns g rest
      | (.error _, g) => if step.caught then blockTurns g rest else []

/-- The calls an order makes. -/
def turns : Order → List Turn
  | .alone m => [⟨g, m⟩]
  | .batch queue => if g.store then g.drainTurns w queue else g.callTurns w queue.flatten
  | .block b => blockTurns w { g with trips := some [] } b.calls

/-- Whether what the calls of an order do stands. -/
def stands : Order → Bool
  | .alone _ => true
  | .batch queue => !g.store || (g.drain w queue).2.2.isNone
  | .block b => (runBlock w { g with trips := some [] } b.calls b.raises).1.isNone

end Turns

variable {g g₀ t u : Governor} {m : Mutation}

/-! ### What a store holds is read again -/

/-- What a governor has written is accepted by a replay that counts refunds as the governor does,
whose state stands for the same chain. -/
theorem Sound.reread {c : Chain} (h : g.Sound w unit c) :
    ∃ s, AgentGov.replay g.ledger.entries [] false none g.refundLookup unit = .ok s ∧
      s.Stands id g.refundLookup c := by
  have answers : Answers (spendIndex g.ledger.entries) g.ledger.entries := by
    intro before e after ref hl kind named
    obtain ⟨x, hx, covers⟩ := run_answers h.run before e after ref hl kind named
    obtain ⟨hm, rfl⟩ := (Ledger.resolve_eq_some h.drawn.distinct).mp hx
    exact ⟨x, spendIndex_of_mem h.drawn.distinct hm covers.kind, covers⟩
  have hrun := run_finding answers h.run
  have hread : Chain.readPiece true false (Chain.empty unit [] (spendIndex g.ledger.entries))
      g.ledger.entries = .ok { c.finding (spendIndex g.ledger.entries) with
        frame := { c.frame with txn := none, settleable := [] } } := by
    unfold Chain.readPiece
    rw [hrun, ok_bind, Rules.endTransaction]
    exact if_neg (not_not.mpr h.net)
  have hempty : (ChainState.empty unit []).Stands id g.refundLookup
      (Chain.empty unit [] (spendIndex g.ledger.entries)) :=
    { alike := .refl fun scope n hn => by cases hn
      kept := fun _ => .refl _
      counted := fun _ _ _ => rfl
      tidy := fun _ hn => by cases hn }
  have between : (Chain.empty unit [] (spendIndex g.ledger.entries)).Between g.ledger.entries :=
    ⟨rfl, fun e _ => ⟨rfl, fun ht => (by cases ht), fun _ => rfl⟩⟩
  have hpiece : Together (ChainState.Stands id g.refundLookup) _ _ :=
    hempty.read (fun _ => rfl) (spendIndex g.ledger.entries) (some []) between (fun _ _ _ => rfl)
      (fun _ _ _ _ _ => rfl) id true false (by
      intro c' hc' r hr spend
      rw [hread, Except.ok.injEq] at hc'
      subst hc'
      have hcounted := h.stands.counted r hr spend
      have hlength : g.ledger.state.length = c.core.length :=
        congrArg Core.length h.stands.alike.core
      rwa [hlength] at hcounted)
  obtain ⟨s, hs, stands⟩ := hpiece.exists_ok' hread
  refine ⟨s, ?_, { stands with alike := ?_, kept := stands.kept, counted := stands.counted }⟩
  · unfold readPiece at hs
    unfold AgentGov.replay replayView
    rw [bind_assoc]
    exact hs
  · exact { stands.alike with }

/-! ### Going on -/

/-- Whether the records of a governor are those of another, and of entries written since, under
keys that may be used. -/
def Adds (g t : Governor) : Prop :=
  ∀ key, t.keys.get? key = g.keys.get? key ∨ g.keys.get? key = none ∧ requireKey key = .ok PUnit.unit.{1} ∧
    ∃ r, t.keys.get? key = some r ∧ (g.ledger.entries.length : ℤ) < r.sequence

theorem Adds.refl (g : Governor) : g.Adds g := fun _ => Or.inl rfl

theorem Adds.trans (h : g.Adds t) (hgrows : g.ledger.entries <+: t.ledger.entries)
    (h' : t.Adds u) : g.Adds u := by
  intro key
  have hlength : (g.ledger.entries.length : ℤ) ≤ t.ledger.entries.length :=
    Int.ofNat_le.mpr hgrows.length_le
  rcases h' key with hsame | ⟨hnone, hkey, r, hr, hlt⟩
  · rw [hsame]
    exact h key
  · rcases h key with hsame | ⟨hnone', -⟩
    · exact Or.inr ⟨hsame ▸ hnone, hkey, r, hr, by omega⟩
    · exact Or.inr ⟨hnone', hkey, r, hr, by omega⟩

/-- A record is kept while others are added. -/
theorem Adds.kept (h : g.Adds t) {key : Text} {r : IdempotencyRecord}
    (hr : g.keys.get? key = some r) : t.keys.get? key = some r := by
  rcases h key with hsame | ⟨hnone, -⟩
  · rw [hsame, hr]
  · rw [hr] at hnone
    cases hnone

theorem adds_of_keys (h : t.keys = g.keys) : g.Adds t := fun key => Or.inl (by rw [h])

theorem Recorded.adds {call : Option Call} {answer : Answer} (h : g.Recorded call answer t)
    (hunused : ∀ c, call = some c → g.keys.get? c.key = none ∧
      requireKey c.key = .ok PUnit.unit.{1})
    (ht : t.Sound w unit c) : g.Adds t := by
  cases call with
  | none => exact adds_of_keys (h.unkeyed rfl).1
  | some call =>
    obtain ⟨new, e, hnew, he, hkeys, -, -⟩ := h.keyed call rfl
    intro key
    rw [hkeys, Dict.get?_set]
    split_ifs with hkey
    · obtain ⟨hnone, hvalid⟩ := hunused call rfl
      exact Or.inr ⟨hkey ▸ hnone, hkey ▸ hvalid, _, rfl, ht.lt_sequence hnew he⟩
    · exact Or.inl rfl

/-- A call adds to what is recorded. -/
theorem Came.adds {r : Except Exception Answer} (h : g.Came m r t) (ht : t.Sound w unit c) :
    g.Adds t := by
  cases h with
  | plain asked idle => exact adds_of_keys idle.keys
  | rejected asked => exact .refl g
  | unkeyed asked key settled =>
    rcases settled.cases ht with ⟨-, leaves⟩ | ⟨answer, -, recorded⟩
    · exact adds_of_keys leaves.keys
    · exact adds_of_keys (recorded.unkeyed rfl).1
  | conflict cache asked key lookUp kept => exact adds_of_keys rfl
  | retried cache asked key lookUp replayed kept => exact adds_of_keys rfl
  | made cache asked key lookUp unused kept settled =>
    obtain ⟨hname, -⟩ := lookUp_replayed lookUp
    rcases settled.cases ht with ⟨-, leaves⟩ | ⟨answer, -, recorded⟩
    · exact adds_of_keys leaves.keys
    · refine recorded.adds (fun c hc => ?_) ht
      cases hc
      exact hname ▸ ⟨unused, requireKey_of_lookUp lookUp⟩

/-- A governor that has gone on from another: what is recorded is added to, and in order. -/
structure Onward (w : World) (unit : Unit) (g t : Governor) : Prop extends Within w unit g t where
  kept : w.Distinct t.draws → t.Kept
  adds : w.Distinct t.draws → g.Adds t

namespace Onward

theorem refl (h : g.Orderly w unit) : Onward w unit g g where
  toWithin := h.within
  kept distinct := (h distinct).2
  adds _ := .refl g

theorem orderly (h : Onward w unit g t) : t.Orderly w unit :=
  fun distinct => ⟨h.sound distinct, h.kept distinct⟩

theorem trans (h : Onward w unit g t) (h' : Onward w unit t u) : Onward w unit g u where
  toWithin := h.toWithin.trans h'.toWithin
  kept := h'.kept
  adds distinct := (h.adds (distinct.mono h'.draws)).trans h.grows (h'.adds distinct)

theorem perform (h : g.Orderly w unit) (m : Mutation) : Onward w unit g (g.perform w m).2 := by
  have hwithin := h.within.op m.program
  refine { toWithin := hwithin, kept := fun distinct => (h.perform m distinct).2,
           adds := fun distinct => ?_ }
  obtain ⟨-, hkept⟩ := h (distinct.mono hwithin.draws)
  obtain ⟨c, hc⟩ := hwithin.sound distinct
  exact (hkept.came w m).adds hc

/-- What differs only in what its unit of work remembers, and in its trips. -/
theorem same (h : g.Orderly w unit) (hbare : g.bare = t.bare) (hkept : g.Kept → t.Kept) :
    Onward w unit g t := by
  have hledger : t.ledger = g.ledger := (congrArg Governor.ledger hbare).symm
  have hkeys : t.keys = g.keys := (congrArg Governor.keys hbare).symm
  have hpolicy : t.policy = g.policy := (congrArg Governor.policy hbare).symm
  have hstore : t.store = g.store := (congrArg Governor.store hbare).symm
  have hdraws : t.draws = g.draws := (congrArg Governor.draws hbare).symm
  have hkeeps : g.Keeps t := ⟨hledger, hkeys, hpolicy, hstore, hdraws.ge⟩
  exact
    { toWithin := h.within.keep hkeeps
      kept := fun distinct => hkept (h (hdraws ▸ distinct)).2
      adds := fun _ => adds_of_keys hkeys }

end Onward

/-- A governor that calls lead to, one after another. What a unit of work remembers may change
between them. -/
inductive Goes (w : World) : Governor → List Turn → Governor → Prop
  | stay {g t : Governor} (same : g.bare = t.bare) (kept : g.Kept → t.Kept) : Goes w g [] t
  | turn {g u t : Governor} {m : Mutation} {turns : List Turn} (same : g.bare = u.bare)
      (kept : g.Kept → u.Kept) (rest : Goes w (u.perform w m).2 turns t) :
      Goes w g (⟨u, m⟩ :: turns) t

namespace Goes

theorem refl (g : Governor) : Goes w g [] g := .stay rfl id

theorem before {turns : List Turn} (same : g.bare = u.bare) (kept : g.Kept → u.Kept)
    (h : Goes w u turns t) : Goes w g turns t := by
  cases h with
  | stay same' kept' => exact .stay (same.trans same') (kept' ∘ kept)
  | turn same' kept' rest => exact .turn (same.trans same') (kept' ∘ kept) rest

theorem append {turns turns' : List Turn} (h : Goes w g turns t) (h' : Goes w t turns' u) :
    Goes w g (turns ++ turns') u := by
  induction h with
  | stay same kept => exact h'.before same kept
  | turn same kept rest ih => exact .turn same kept (ih h')

/-- What calls lead to goes on from where they began. -/
theorem onward {turns : List Turn} (h : Goes w g turns t) (hg : g.Orderly w unit) :
    Onward w unit g t := by
  induction h with
  | stay same kept => exact .same hg same kept
  | turn same kept rest ih =>
    have hu := Onward.same hg same kept
    have hm := Onward.perform hu.orderly
    exact (hu.trans (hm _)).trans (ih (hm _).orderly)

theorem store {turns : List Turn} (h : Goes w g turns t) : t.store = g.store := by
  induction h with
  | stay same kept => exact (congrArg Governor.store same).symm
  | turn same kept rest ih =>
    exact ih.trans ((perform_store _ _).trans (congrArg Governor.store same).symm)

/-- Every call is made of a governor that has gone on, and what it leaves goes on. -/
theorem forall_turns {turns : List Turn} (h : Goes w g turns t) (hg : g.Orderly w unit) :
    ∀ turn ∈ turns, Onward w unit g turn.before ∧ Onward w unit (turn.after w) t := by
  induction h with
  | stay same kept => exact fun _ hm => (List.not_mem_nil hm).elim
  | turn same kept rest ih =>
    have hu := Onward.same hg same kept
    have hm := Onward.perform hu.orderly
    intro turn hturn
    rcases List.mem_cons.mp hturn with rfl | hturn
    · exact ⟨hu, rest.onward (hm _).orderly⟩
    · obtain ⟨h₁, h₂⟩ := ih (hm _).orderly turn hturn
      exact ⟨(hu.trans (hm _)).trans h₁, h₂⟩

end Goes

theorem callTurns_goes (g : Governor) (ms : List Mutation) :
    Goes w g (g.callTurns w ms) (g.callAll w ms).2 := by
  induction ms generalizing g with
  | nil => exact .refl g
  | cons m rest ih =>
    have hrest : Goes w (g.perform w m).2.leave (callTurns w (g.call w m).2 rest)
        (g.callAll w (m :: rest)).2 := ih (g.call w m).2
    exact .turn rfl id (hrest.before (bare_leave _).symm Kept.leave)

theorem takenTurns_goes (g : Governor) (ms : List Mutation) :
    Goes w g (g.takenTurns w ms) (g.runTaken w ms).2 := by
  induction ms generalizing g with
  | nil => exact .refl g
  | cons m rest ih => exact .turn rfl id (ih (g.perform w m).2)

theorem drainTurns_goes (g : Governor) (queue : List (List Mutation)) :
    Goes w g (g.drainTurns w queue) (g.drain w queue).2.1 := by
  induction queue generalizing g with
  | nil => exact .refl g
  | cons taken queue ih =>
    simp only [drainTurns, drain]
    cases hlook : g.lookUpCalls (taken.filterMap Mutation.key) with
    | error key => exact .refl g
    | ok u =>
      obtain ⟨-, hbare, -, hkept⟩ := lookUpCalls_ok hlook
      exact ((takenTurns_goes u taken).append (ih (u.runTaken w taken).2)).before hbare.symm hkept

theorem blockTurns_goes (g : Governor) (steps : List Step) (raises : Option Exception) :
    Goes w g (blockTurns w g steps) (runBlock w g steps raises).2 := by
  induction steps generalizing g with
  | nil => exact .refl g
  | cons step rest ih =>
    unfold blockTurns runBlock
    rcases hr : g.perform w step.call with ⟨e | a, u⟩
    · have hu : (g.perform w step.call).2 = u := by rw [hr]
      dsimp only
      split_ifs
      · exact .turn rfl id (hu ▸ ih u)
      · subst hu
        exact .turn rfl id (.refl _)
    · have hu : (g.perform w step.call).2 = u := by rw [hr]
      exact .turn rfl id (hu ▸ ih u)

/-! ### Units of work undone -/

/-- A record names an entry of the ledger. -/
theorem Kept.sequence_le (h : g.Kept) {key : Text} {r : IdempotencyRecord}
    (hr : g.keys.get? key = some r) : r.sequence ≤ g.ledger.entries.length := by
  obtain ⟨-, e, -, he, -⟩ := h.named key r hr
  unfold Ledger.entry at he
  split_ifs at he with hpos
  have hlt := (List.getElem?_eq_some_iff.mp he).1
  omega

/-- Records of the same entries are in order where they were, outside of every unit of work. -/
theorem Kept.of_same (h : g.Kept) (hentries : t.ledger.entries = g.ledger.entries)
    (hnodes : t.ledger.state.nodes = g.ledger.state.nodes)
    (hkeys : ∀ key, t.keys.get? key = g.keys.get? key) (hcalls : t.unitCalls = ∅)
    (hcache : t.keyCache = ∅) : t.Kept where
  named key r hr := by
    rw [hkeys] at hr
    simpa only [Ledger.entry, answerIn, hentries, hnodes] using h.named key r hr
  made key r answer hr := by
    rw [hcalls] at hr
    cases hr
  coherent key found hr := by
    rw [hcache] at hr
    cases hr
  bound key hk := by simp [hcalls, hcache] at hk

/-- A governor brought back to what another served and had recorded. -/
structure Undone (g₀ g t : Governor) : Prop where
  entries : t.ledger.entries = g₀.ledger.entries
  keys : ∀ key, t.keys.get? key = g₀.keys.get? key
  draws : t.draws = g.draws
  store : t.store = g.store
  unitCalls : t.unitCalls = g.unitCalls
  keyCache : t.keyCache = g.keyCache
  trips : t.trips = g.trips

/-- A unit of work that is not committed is undone. -/
theorem Onward.rollBackUnit (h : Onward w unit g₀ g) (h₀ : g₀.Sound w unit c₀) (k₀ : g₀.Kept)
    (distinct : w.Distinct g.draws) :
    ∃ t, g.rollBackUnit g₀ = .ok t ∧ t.Sound w unit c₀ ∧ Undone g₀ g t := by
  obtain ⟨c, hc⟩ := h.sound distinct
  have hadds := h.adds distinct
  have wrote_nothing (hlength : ¬g₀.ledger.entries.length < g.ledger.entries.length) :
      g.Sound w unit c₀ ∧ Undone g₀ g g := by
    have hentries : g.ledger.entries = g₀.ledger.entries :=
      (h.grows.eq_of_length_le (Nat.not_lt.mp hlength)).symm
    refine ⟨h₀.of_entries_eq hc hentries, ⟨hentries, fun key => ?_, rfl, rfl, rfl, rfl, rfl⟩⟩
    rcases hadds key with hsame | ⟨-, -, r, hr, hlt⟩
    · exact hsame
    · have hle := (h.kept distinct).sequence_le hr
      rw [hentries] at hle
      omega
  unfold Governor.rollBackUnit
  cases hstore : g.store with
  | true =>
    rw [if_pos rfl, rollBackTo]
    split_ifs with hlength
    · obtain ⟨s, hs, stands⟩ := h₀.reread
      have hlookup : g₀.refundLookup = some (refundsIn g₀.ledger.entries) := by
        rw [refundLookup, if_pos (h.store ▸ hstore)]
      rw [hlookup] at hs stands
      rw [reload, hc.unit_eq, hs]
      refine ⟨_, rfl, ⟨h₀.run, h₀.net, ?_, rfl, h₀.drawn.mono h.draws⟩,
        ⟨rfl, fun _ => rfl, rfl, hstore.symm ▸ rfl, rfl, rfl, rfl⟩⟩
      rw [refundLookup, if_pos hstore]
      exact stands
    · exact ⟨g, rfl, wrote_nothing hlength⟩
  | false =>
    obtain ⟨t, ht, hsound⟩ := h.toWithin.rollBack h₀ (h.store ▸ hstore) distinct
    refine ⟨t, ht, hsound, ?_⟩
    unfold Governor.rollBack at ht
    split_ifs at ht with hmark
    · obtain ⟨ledger, hl, ht⟩ := bind_eq_ok.mp ht
      cases ht
      obtain ⟨s, -, hl⟩ := bind_eq_ok.mp hl
      cases hl
      refine ⟨(List.prefix_iff_eq_take.mp h.grows).symm, fun key => ?_, rfl, rfl, rfl, rfl, rfl⟩
      dsimp only
      rw [Dict.get?_filterValues]
      rcases hadds key with hsame | ⟨hnone, -, r, hr, hlt⟩
      · rw [hsame]
        cases hr : g₀.keys.get? key with
        | none => rfl
        | some r => simp [k₀.sequence_le hr]
      · rw [hr, hnone, Option.filter_some, if_neg (by simpa using hlt)]
    · cases ht
      exact (wrote_nothing hmark).2

/-! ### Trips written again -/

/-- What a trip comes to. -/
theorem run_trip (w : World) (g : Governor) (scope reason : Text) :
    (Op.trip scope reason).run (handle w) g =
      if (g.ledger.state.tripped.get? scope).isSome then (.ok ⟨⟩, g)
      else match (Staging.trip scope reason).run (stage w) g.begin with
        | (.error e, p) => (.error e, { g with draws := p.draws })
        | (.ok _, p) => (.ok ⟨⟩, { g.commit p none with
            trips := (g.commit p none).trips.map fun l => l ++ [(scope, reason)] }) := by
  rw [Op.trip, Program.run_bind,
    show Op.served.run (handle w) g = (.ok g.ledger, g) from rfl, Program.proceed_ok]
  split_ifs with htrip
  · rfl
  · rw [Op.commit, Program.instr_bind, Program.run_perform]
    change Program.proceed (g.work w (Staging.trip scope reason) none fun _ => none) _ = _
    unfold work
    rcases (Staging.trip scope reason).run (stage w) g.begin with ⟨e | a, p⟩ <;> rfl

/-- A trip leaves a trip, or nothing. -/
theorem trip_leaves (w : World) (g : Governor) (scope reason : Text) :
    g.Leaves [.circuitTripped] ((Op.trip scope reason).run (handle w) g).2 := by
  rw [run_trip]
  split_ifs
  · exact .refl _ g
  · rcases hr : (Staging.trip scope reason).run (stage w) g.begin with ⟨e | a, p⟩
    · exact leaves_draws g _ _
    · have hleaves : g.Leaves [.circuitTripped] (g.commit p none) := leaves_trip hr
      exact { hleaves with }

/-- What is written again of the trips of a unit of work that is undone. -/
theorem retrip_leaves (w : World) (g : Governor) (trips : List (Text × Text)) :
    ∃ new, (g.retrip w trips).ledger.entries = g.ledger.entries ++ new ∧
      (∀ e ∈ new, e.entryType = .circuitTripped) ∧ (g.retrip w trips).keys = g.keys := by
  induction trips generalizing g with
  | nil => exact ⟨[], (List.append_nil _).symm, fun _ h => (List.not_mem_nil h).elim, rfl⟩
  | cons trip rest ih =>
    have hleaves := trip_leaves w g trip.1 trip.2
    obtain ⟨new, hnew, hkinds⟩ := hleaves.written
    obtain ⟨more, hmore, hkinds', hkeys⟩ :=
      ih ((Op.trip trip.1 trip.2).run (handle w) g).2.leave
    refine ⟨new ++ more, ?_, fun e he => ?_, hkeys.trans hleaves.keys⟩
    · refine hmore.trans ?_
      rw [← List.append_assoc, ← hnew]
      rfl
    · exact (List.mem_append.mp he).elim (fun h => by simpa using hkinds e h) (hkinds' e)

theorem retrip_draws (w : World) (g : Governor) (trips : List (Text × Text)) :
    g.draws ≤ (g.retrip w trips).draws := by
  induction trips generalizing g with
  | nil => exact Nat.le_refl _
  | cons trip rest ih =>
    have hop : g.draws ≤ ((Op.trip trip.1 trip.2).run (handle w) g).2.draws :=
      run_handled (w := w) (I := fun t => g.draws ≤ t.draws)
        (fun _ _ hg h => Nat.le_trans h hg.draws) _ (Nat.le_refl _)
    exact hop.trans (ih ((Op.trip trip.1 trip.2).run (handle w) g).2.leave)

theorem retrip_store (w : World) (g : Governor) (trips : List (Text × Text)) :
    (g.retrip w trips).store = g.store := by
  induction trips generalizing g with
  | nil => rfl
  | cons trip rest ih =>
    exact (ih _).trans (trip_leaves w g trip.1 trip.2).store

theorem Orderly.op (h : g.Orderly w unit) {t : Governor} (hwithin : Within w unit g t)
    (hidle : g.Idle t) : t.Orderly w unit := by
  intro distinct
  obtain ⟨⟨c, hc⟩, hkept⟩ := h (distinct.mono hwithin.draws)
  obtain ⟨c', hc'⟩ := hwithin.sound distinct
  exact ⟨⟨c', hc'⟩, hkept.idle hc hc' hidle⟩

theorem Orderly.retrip (h : g.Orderly w unit) (trips : List (Text × Text)) :
    (g.retrip w trips).Orderly w unit := by
  induction trips generalizing g with
  | nil => exact h
  | cons trip rest ih =>
    exact ih (h.op (h.within.op _) (trip_leaves w g trip.1 trip.2).toIdle).leave

/-! ### What an order leaves -/

/-- What an order that does not stand leaves: what was served before it, and trips. -/
structure Reverted (g t : Governor) : Prop where
  keys : ∀ key, t.keys.get? key = g.keys.get? key
  entries : ∃ trips, t.ledger.entries = g.ledger.entries ++ trips ∧
    ∀ e ∈ trips, e.entryType = .circuitTripped

theorem Undone.retrip (h : Undone g₀ g t) (trips : List (Text × Text)) :
    g₀.Reverted (t.retrip w trips) := by
  obtain ⟨new, hnew, hkinds, hkeys⟩ := retrip_leaves w t trips
  exact ⟨fun key => by rw [hkeys, h.keys], new, by rw [hnew, h.entries], hkinds⟩

/-- A governor brought back serves in order what was served. -/
theorem Undone.orderly (h : Undone g₀ g t) (h₀ : g₀.Sound w unit c₀) (k₀ : g₀.Kept)
    (ht : t.Sound w unit c₀) (hcalls : g.unitCalls = ∅) (hcache : g.keyCache = ∅) :
    t.Orderly w unit :=
  fun _ => ⟨⟨c₀, ht⟩, k₀.of_same h.entries (ht.nodes_eq.trans h₀.nodes_eq.symm) h.keys
    (h.unitCalls.trans hcalls) (h.keyCache.trans hcache)⟩

theorem Kept.trips (h : g.Kept) (trips : Option (List (Text × Text))) :
    Governor.Kept { g with trips := trips } :=
  h.same rfl rfl rfl h.coherent fun _ hk => Or.inl hk

/-- What a block's calls lead to. -/
theorem block_goes (w : World) (g : Governor) (b : Block) :
    Goes w g (g.turns w (.block b))
      { (runBlock w { g with trips := some [] } b.calls b.raises).2.leave with trips := none } := by
  have hgoes := blockTurns_goes (w := w) { g with trips := some [] } b.calls b.raises
  have hall := hgoes.append (.stay (t := { (runBlock w { g with trips := some [] } b.calls
    b.raises).2.leave with trips := none }) rfl fun h => h.leave.trips none)
  rw [List.append_nil] at hall
  exact Goes.before (u := { g with trips := some [] }) rfl (fun h => h.trips _) hall

/-- What a batch's calls lead to. -/
theorem drain_goes (w : World) (g : Governor) (queue : List (List Mutation)) :
    Goes w g (g.drainTurns w queue) (g.drain w queue).2.1.leave := by
  have hall := (drainTurns_goes (w := w) g queue).append
    (.stay (t := (g.drain w queue).2.1.leave) rfl Kept.leave)
  rwa [List.append_nil] at hall

/-- What a roll-back does not touch. -/
theorem rollBackUnit_frame (h : g.rollBackUnit g₀ = .ok t) : t.draws = g.draws ∧
    t.store = g.store ∧ t.unitCalls = g.unitCalls ∧ t.keyCache = g.keyCache ∧
    t.trips = g.trips := by
  unfold Governor.rollBackUnit at h
  split_ifs at h
  · unfold rollBackTo at h
    split_ifs at h
    · obtain ⟨s, -, h⟩ := bind_eq_ok.mp h
      cases h
      exact ⟨rfl, rfl, rfl, rfl, rfl⟩
    · cases h
      exact ⟨rfl, rfl, rfl, rfl, rfl⟩
  · unfold rollBack at h
    split_ifs at h
    · obtain ⟨ledger, -, h⟩ := bind_eq_ok.mp h
      cases h
      exact ⟨rfl, rfl, rfl, rfl, rfl⟩
    · cases h
      exact ⟨rfl, rfl, rfl, rfl, rfl⟩

theorem rollBackUnit_draws (h : g.rollBackUnit g₀ = .ok t) : t.draws = g.draws :=
  (rollBackUnit_frame h).1

/-- What its calls lead to is undone, where an order does not stand. -/
theorem Orderly.undone (h : g.Orderly w unit) {turns : List Turn} (hgoes : Goes w g turns u)
    (hback : u.rollBackUnit g = .ok t) (distinct : w.Distinct t.draws) (hcalls : u.unitCalls = ∅)
    (hcache : u.keyCache = ∅) : Undone g u t ∧ t.Orderly w unit := by
  have hon := hgoes.onward h
  rw [rollBackUnit_draws hback] at distinct
  obtain ⟨⟨c, hc⟩, hkept⟩ := h (distinct.mono hon.draws)
  obtain ⟨t', ht', hsound, hundone⟩ := hon.rollBackUnit hc hkept distinct
  rw [hback, Except.ok.injEq] at ht'
  subst ht'
  exact ⟨hundone, hundone.orderly hc hkept hsound hcalls hcache⟩

/-- What an order comes to: what its calls lead to, where it stands; and else that undone, and
trips written again. -/
theorem serve_goes {o : Order} (hs : g.serve w o = .ok t) :
    ∃ u, Goes w g (g.turns w o) u ∧ u.draws ≤ t.draws ∧ (g.stands w o = true → u = t) ∧
      (g.stands w o = false → u.unitCalls = ∅ ∧ u.keyCache = ∅ ∧
        ∃ back trips, u.rollBackUnit g = .ok back ∧ t = back.retrip w trips) := by
  cases o with
  | alone m =>
    cases hs
    exact ⟨(g.call w m).2, .turn rfl id (.stay rfl Kept.leave), Nat.le_refl _, fun _ => rfl,
      fun h => by cases h⟩
  | batch queue =>
    simp only [serve, turns] at hs ⊢
    split_ifs at hs ⊢ with hstore
    · have hdrain := drain_goes w g queue
      refine ⟨_, hdrain, ?_⟩
      rw [stands, hstore]
      unfold lead at hs
      rcases hd : g.drain w queue with ⟨served, u, _ | ⟨key, left⟩⟩ <;> rw [hd] at hs hdrain
      · cases hs
        exact ⟨Nat.le_refl _, fun _ => rfl, fun h => by cases h⟩
      · have hback : u.leave.rollBackUnit g = .ok t := by
          rw [Governor.rollBackUnit, if_pos (hdrain.store.trans hstore)]
          exact hs
        exact ⟨(rollBackUnit_draws hback).ge, fun h => (by cases h),
          fun _ => ⟨rfl, rfl, t, [], hback, rfl⟩⟩
    · cases hs
      refine ⟨_, callTurns_goes g _, Nat.le_refl _, fun _ => rfl, fun h => ?_⟩
      simp [stands, hstore] at h
  | block b =>
    have hblock := block_goes w g b
    refine ⟨_, hblock, ?_⟩
    rw [stands]
    simp only [serve] at hs
    rcases hr : runBlock w { g with trips := some [] } b.calls b.raises with ⟨_ | e, u⟩ <;>
      rw [hr] at hs hblock
    · cases hs
      exact ⟨Nat.le_refl _, fun _ => rfl, fun h => by cases h⟩
    · obtain ⟨back, hback, hs⟩ := bind_eq_ok.mp hs
      cases hs
      refine ⟨?_, fun h => (by cases h), fun _ => ⟨rfl, rfl, back, _, hback, rfl⟩⟩
      have hdraws := rollBackUnit_draws hback
      exact hdraws.ge.trans (retrip_draws w back _)

theorem serve_store {o : Order} (hs : g.serve w o = .ok t) : t.store = g.store := by
  obtain ⟨u, hgoes, -, hstands, hreverts⟩ := serve_goes hs
  cases hs' : g.stands w o with
  | true => exact hstands hs' ▸ hgoes.store
  | false =>
    obtain ⟨-, -, back, trips, hback, rfl⟩ := hreverts hs'
    obtain ⟨-, hstore, -⟩ := rollBackUnit_frame hback
    exact (retrip_store w back trips).trans (hstore.trans hgoes.store)

/-- An order that stands leaves what its calls lead to. -/
theorem serve_stands {o : Order} (hs : g.serve w o = .ok t) (hstands : g.stands w o = true) :
    Goes w g (g.turns w o) t := by
  obtain ⟨u, hgoes, -, hu, -⟩ := serve_goes hs
  exact hu hstands ▸ hgoes

/-- An order that does not stand leaves what was served before it, and trips. -/
theorem serve_reverts {o : Order} (h : g.Orderly w unit) (hs : g.serve w o = .ok t)
    (hstands : g.stands w o = false) (distinct : w.Distinct t.draws) :
    g.Reverted t ∧ t.Orderly w unit := by
  obtain ⟨u, hgoes, -, -, hreverts⟩ := serve_goes hs
  obtain ⟨hcalls, hcache, back, trips, hback, rfl⟩ := hreverts hstands
  obtain ⟨hundone, hord⟩ := h.undone hgoes hback (distinct.mono (retrip_draws w back trips)) hcalls
    hcache
  exact ⟨hundone.retrip trips, hord.retrip trips⟩

/-- An order leaves a governor in order. -/
theorem Orderly.serve {o : Order} (h : g.Orderly w unit) (hs : g.serve w o = .ok t) :
    t.Orderly w unit := by
  cases hstands : g.stands w o with
  | true => exact ((serve_stands hs hstands).onward h).orderly
  | false => exact fun distinct => (serve_reverts h hs hstands distinct).2 distinct

theorem serve_draws {o : Order} (h : g.Orderly w unit) (hs : g.serve w o = .ok t) :
    g.draws ≤ t.draws := by
  obtain ⟨u, hgoes, hdraws, -⟩ := serve_goes hs
  exact (hgoes.onward h).draws.trans hdraws

theorem serveAll_draws {orders : List Order} (h : g.Orderly w unit)
    (hs : g.serveAll w orders = .ok t) : g.draws ≤ t.draws := by
  induction orders generalizing g with
  | nil =>
    cases hs
    exact Nat.le_refl _
  | cons o rest ih =>
    obtain ⟨u, hu, hs⟩ := bind_eq_ok.mp hs
    exact (serve_draws h hu).trans (ih (h.serve hu) hs)

/-- A run of orders leaves a governor in order. -/
theorem Orderly.serveAll {orders : List Order} (h : g.Orderly w unit)
    (hs : g.serveAll w orders = .ok t) : t.Orderly w unit := by
  induction orders generalizing g with
  | nil =>
    cases hs
    exact h
  | cons o rest ih =>
    obtain ⟨u, hu, hs⟩ := bind_eq_ok.mp hs
    exact ih (h.serve hu) hs

end Governor

end AgentGov
