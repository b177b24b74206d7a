import AgentGov.Chain

/-!
# Replay

Rebuilding chain state from nothing but the entries (`src/src/agentgov/core.py`, lines
1832–1878): one overlay over the empty state, merged at the end. A replay of a ledger that keeps
its history in memory ends in the state the flat view of the chain ends in.

## Main definitions

* `AgentGov.spendIndex`: the spends among a list of entries, by id.
* `AgentGov.replay`: the state a list of entries implies, each of them verified.
* `AgentGov.Chain.replay`: the same replay in the flat view.

## Main results

* `AgentGov.replay_together`: the two replays accept the same entries and end alike.
-/

open Foundation

namespace AgentGov

/-- `_spend_index`: a resolver over the spends among `entries`; the last of an id is found. -/
def spendIndex (entries : List LedgerEntry) (id : UUID) : Option LedgerEntry :=
  (entries.filter fun e => e.entryType = .spend ∧ e.entryId = id).getLast?

/-- Every rule a replay applies, in a view. -/
def replayView {σ : Type} [View σ] (fin : Bool) (v : σ) (entries : List LedgerEntry) :
    Except Error σ := do
  let v ← runAll (Rules.apply true false) v entries
  if fin then Rules.finish v else Rules.endTransaction v

/-- `_replay`: rebuild chain state from nothing but the entries, verifying each. Spends are found
among the entries themselves unless the caller finds them elsewhere. -/
def replay (entries : List LedgerEntry) (legacy : List ControlEvent) (fin : Bool)
    (resolve : Option (UUID → Option LedgerEntry))
    (refunds : Option (UUID → ℕ → Except Error Value)) (unit : Unit) :
    Except Error ChainState := do
  let resolve := resolve.getD (spendIndex entries)
  let view := Overlay.staging (ChainState.empty unit legacy) resolve refunds (some [])
  .ok (← replayView fin view entries).merge

/-- The chain of a ledger with no entries. -/
def Chain.empty (unit : Unit) (legacy : List ControlEvent) (resolve : UUID → Option LedgerEntry) :
    Chain :=
  (ChainState.empty unit legacy).chain resolve

/-- The replay in the flat view of the chain. -/
def Chain.replay (entries : List LedgerEntry) (legacy : List ControlEvent) (fin : Bool)
    (resolve : UUID → Option LedgerEntry) (unit : Unit) : Except Error Chain :=
  replayView fin (Chain.empty unit legacy resolve) entries

namespace Simulation

variable {σ τ : Type} [View σ] [View τ] {R : σ → τ → Prop} {P : LedgerEntry → Prop}
  (S : Simulation R P) {a : σ} {b : τ}

include S

theorem finish (h : R a b) : Together R (Rules.finish a) (Rules.finish b) := by
  refine (S.endTransaction h).bind fun a' b' h' => ?_
  simp only [S.core h']
  split_ifs
  · exact h'
  · exact S.applyLegacy h'

theorem replayView (h : R a b) {entries : List LedgerEntry} (hP : ∀ e ∈ entries, P e)
    (fin : Bool) :
    Together R (AgentGov.replayView fin a entries) (AgentGov.replayView fin b entries) := by
  refine (S.runAll h hP true false).bind fun a' b' h' => ?_
  cases fin with
  | true => exact S.finish h'
  | false => exact S.endTransaction h'

end Simulation

/-- The chain of the state a merge leaves, but for the refunds the state remembers. -/
theorem Overlay.Shows.chain_merge_counting {o : Overlay} {c : Chain} (h : o.Shows id c)
    (find : UUID → Option LedgerEntry) :
    { o.merge.chain find with spendRefunds := c.spendRefunds } =
      { c with frame := {}, resolve := find } := by
  have hseal : o.migrationSeal = c.migrationSeal := by simpa using h.migrationSeal
  have hid : ∀ d : Dict UUID LedgerEntry, d.mapValues id = d := by
    intro d
    apply Dict.ext
    simp
  have hholds : o.merge.holds = c.holds := by
    have := h.holds
    rwa [hid, hid] at this
  have htrip : o.merge.tripped.get? = c.tripped :=
    funext fun s => (o.get?_merge_tripped s).trans (h.tripped s)
  have hcount : o.merge.holdsOpenIn = c.holdCounts :=
    funext fun s => (o.holdsOpenIn_merge s).trans (h.holdCounts s)
  simp only [ChainState.chain, hholds, htrip, hcount, h.balances, h.ambiguous, h.nodes, h.roots,
    h.spent, h.refunded]
  have hcore : o.merge.toCore = c.core := h.core
  have hunit : o.merge.unit = c.unit := h.unit
  have hseal' : o.merge.migrationSeal = c.migrationSeal := hseal
  rw [hcore, hunit, hseal']

/-- The chain of the state a merge leaves, of a ledger that keeps its history in memory. -/
theorem Overlay.Shows.chain_merge {o : Overlay} {c : Chain} (h : o.Shows id c)
    (hr : o.refunds = none) (find : UUID → Option LedgerEntry) :
    o.merge.chain find = { c with frame := {}, resolve := find } := by
  rw [← h.chain_merge_counting find, ← h.spendRefunds hr]
  rfl

/-- A replay and the replay in the flat view of the chain accept the same entries and end
alike. -/
theorem replay_together (entries : List LedgerEntry) (legacy : List ControlEvent) (fin : Bool)
    (resolve : Option (UUID → Option LedgerEntry)) (unit : Unit) :
    Together (fun s c => s.Tidy ∧
        s.chain (resolve.getD (spendIndex entries)) = { c with frame := {} })
      (replay entries legacy fin resolve none unit)
      (Chain.replay entries legacy fin (resolve.getD (spendIndex entries)) unit) := by
  have hS := Overlay.shows_simulation (f := id) (fun _ => rfl) (ChainState.empty unit legacy)
    none (resolve.getD (spendIndex entries)) (resolve.getD (spendIndex entries))
  have h₀ := Overlay.shows_staging (ChainState.empty unit legacy)
    (resolve.getD (spendIndex entries)) (resolve.getD (spendIndex entries)) (some [])
    (fun scope n h => by simp [ChainState.empty] at h)
  have hP : ∀ e ∈ entries, (e.entryType = .hold →
      (ChainState.empty unit legacy).holds.get? e.entryId = none) ∧
      (e.entryType = .reversal → ∀ ref, e.ref = some ref →
        resolve.getD (spendIndex entries) ref = resolve.getD (spendIndex entries) ref) :=
    fun e _ => ⟨fun _ => rfl, fun _ _ _ => rfl⟩
  have hv := hS.replayView ⟨rfl, rfl, rfl, rfl, h₀⟩ hP fin
  unfold replay Chain.replay
  rw [← bind_pure (AgentGov.replayView fin (Chain.empty unit legacy _) entries)]
  refine hv.bind fun o c h => ?_
  have hc := h.shows.chain_merge h.refunds (resolve.getD (spendIndex entries))
  rw [← h.resolve'] at hc ⊢
  refine ⟨Overlay.tidy_merge fun scope => ?_, hc⟩
  rw [h.base]
  simp [ChainState.empty]

/-- The state a replay of `entries` has reached once it has read some of them: its view,
merged. -/
def replayed (entries read : List LedgerEntry) (legacy : List ControlEvent) (unit : Unit) :
    Except Error ChainState := do
  let view := Overlay.staging (ChainState.empty unit legacy) (spendIndex entries) none (some [])
  .ok (← runAll (Rules.apply true false) view read).merge

/-- A replay reaches the chain the flat view reaches. -/
theorem replayed_together (entries read : List LedgerEntry) (legacy : List ControlEvent)
    (unit : Unit) :
    Together (fun s c => s.chain (spendIndex entries) = { c with frame := {} })
      (replayed entries read legacy unit)
      (runAll (Rules.apply true false) (Chain.empty unit legacy (spendIndex entries)) read) := by
  have hS := Overlay.shows_simulation (f := id) (fun _ => rfl) (ChainState.empty unit legacy)
    none (spendIndex entries) (spendIndex entries)
  have h₀ := Overlay.shows_staging (ChainState.empty unit legacy) (spendIndex entries)
    (spendIndex entries) (some []) (fun scope n h => by simp [ChainState.empty] at h)
  have hP : ∀ e ∈ read, (e.entryType = .hold →
      (ChainState.empty unit legacy).holds.get? e.entryId = none) ∧
      (e.entryType = .reversal → ∀ ref, e.ref = some ref →
        spendIndex entries ref = spendIndex entries ref) :=
    fun e _ => ⟨fun _ => rfl, fun _ _ _ => rfl⟩
  have hv := hS.runAll ⟨rfl, rfl, rfl, rfl, h₀⟩ hP true false
  unfold replayed
  rw [← bind_pure (runAll (Rules.apply true false) (Chain.empty unit legacy _) read)]
  refine hv.bind fun o c h => ?_
  have hc := h.shows.chain_merge h.refunds (spendIndex entries)
  rw [← h.resolve'] at hc ⊢
  exact hc

/-! ### A chain -/

/-- A ledger on which a root is funded and delegates, and its child holds, settles and is
refunded. -/
def sampleChain : List LedgerEntry :=
  linked 0 genesisHash
    [draft 1 1 .funding .credit (txt "a") 10 10,
     { draft 2 2 .allocation .debit (txt "a") 5 5 with counterpartyId := some (txt "b") },
     { draft 3 2 .allocation .credit (txt "b") 5 5 with counterpartyId := some (txt "a") },
     draft 4 4 .hold .debit (txt "b") 4 1,
     { draft 5 5 .holdVoid .credit (txt "b") 4 5 with ref := some 4 },
     { draft 6 5 .spend .debit (txt "b") 3 2 with ref := some 4 },
     { draft 7 7 .reversal .credit (txt "b") 1 3 with ref := some 6 }]

theorem sampleChain_accepted : (replay sampleChain [] false none none USD).isOk = true := by
  decide +kernel

end AgentGov
