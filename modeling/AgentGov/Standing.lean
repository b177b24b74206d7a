import AgentGov.Refunds

/-!
# States that stand for a chain

A state may be reached in many ways: in one replay, piece by piece, or read back from a snapshot.
It stands for a chain where it holds what the chain implies, whatever the order in which its
mappings met their keys and however its entries write their amounts. Reading the next entries
through an overlay and merging it leaves a state that stands for the longer chain.

## Main definitions

* `AgentGov.Alike`: chains that agree but for the order of their mappings.
* `AgentGov.ChainState.Stands`: a state stands for a chain.

## Main results

* `AgentGov.alike_simulation`: the rules do not tell such chains apart.
* `AgentGov.ChainState.Stands.read`: a piece read through an overlay.
* `AgentGov.ChainState.Stands.merge`: the state the overlay leaves.
-/

open Foundation

namespace AgentGov

/-! ### Sets of hold keys -/

theorem addKey_perm {l l' : List HoldKey} (h : l.Perm l') (key : HoldKey) :
    (addKey key l).Perm (addKey key l') := by
  have hany : l.any (HoldKey.same key) = l'.any (HoldKey.same key) := h.any_eq
  unfold addKey
  rw [hany]
  split_ifs
  · exact h
  · exact h.append_right _

/-! ### Chains that agree -/

/-- Chains that agree but for the order of their mappings, and for how `f` writes the entries they
keep whole. -/
structure Alike (f : LedgerEntry → LedgerEntry) (a b : Chain) : Prop where
  core : a.core = b.core
  frame : a.frame = b.frame
  unit : a.unit = b.unit
  migrationSeal : a.migrationSeal.map f = b.migrationSeal.map f
  balances : a.balances.Same b.balances
  holds : a.holds.mapValues f = b.holds.mapValues f
  ambiguous : a.ambiguous.Perm b.ambiguous
  nodes : a.nodes = b.nodes
  roots : a.roots = b.roots
  tripped : a.tripped = b.tripped
  spent : a.spent.Same b.spent
  refunded : a.refunded.Same b.refunded
  holdCounts : a.holdCounts = b.holdCounts
  spendRefunds : a.spendRefunds.Same b.spendRefunds
  keyed : b.Keyed

namespace Alike

variable {f : LedgerEntry → LedgerEntry} {a b c : Chain}

theorem refl (h : a.Keyed) : Alike f a a where
  core := rfl
  frame := rfl
  unit := rfl
  migrationSeal := rfl
  balances := .refl _
  holds := rfl
  ambiguous := .refl _
  nodes := rfl
  roots := rfl
  tripped := rfl
  spent := .refl _
  refunded := .refl _
  holdCounts := rfl
  spendRefunds := .refl _
  keyed := h

theorem trans (h : Alike f a b) (h' : Alike f b c) : Alike f a c where
  core := h.core.trans h'.core
  frame := h.frame.trans h'.frame
  unit := h.unit.trans h'.unit
  migrationSeal := h.migrationSeal.trans h'.migrationSeal
  balances := h.balances.trans h'.balances
  holds := h.holds.trans h'.holds
  ambiguous := h.ambiguous.trans h'.ambiguous
  nodes := h.nodes.trans h'.nodes
  roots := h.roots.trans h'.roots
  tripped := h.tripped.trans h'.tripped
  spent := h.spent.trans h'.spent
  refunded := h.refunded.trans h'.refunded
  holdCounts := h.holdCounts.trans h'.holdCounts
  spendRefunds := h.spendRefunds.trans h'.spendRefunds
  keyed := h'.keyed

theorem balance (h : Alike f a b) (scope : Text) : a.balance scope = b.balance scope := by
  rw [Chain.balance, Chain.balance, h.balances]

theorem openHold (h : Alike f a b) (hf : ∀ e, (f e).held = e.held) (hold : UUID) :
    (a.holds.get? hold).map LedgerEntry.held = (b.holds.get? hold).map LedgerEntry.held := by
  have hh := congrArg (fun d => (Dict.get? d hold).map LedgerEntry.held) h.holds
  simpa [Function.comp_def, hf] using hh

theorem iterHolds (h : Alike f a b) (hf : ∀ e, (f e).held = e.held) :
    (a.holds.items.map fun p => (p.1, p.2.held)) =
      b.holds.items.map fun p => (p.1, p.2.held) := by
  have hh := congrArg (fun d => (Dict.items d).map fun p => (p.1, p.2.held)) h.holds
  simpa [Function.comp_def, hf] using hh

theorem mem_holds (h : Alike f a b) (hold : UUID) :
    a.holds.get? hold = none ↔ b.holds.get? hold = none := by
  have hh := congrArg (fun d => Dict.get? d hold) h.holds
  rw [Dict.get?_mapValues, Dict.get?_mapValues] at hh
  rw [← Option.map_eq_none_iff (f := f), hh, Option.map_eq_none_iff]

end Alike

/-- The rules do not tell chains apart that agree, for refunds whose spends are found alike. -/
theorem alike_simulation {f : LedgerEntry → LedgerEntry} (hf : ∀ e, (f e).held = e.held)
    (find find' : UUID → Option LedgerEntry) :
    Simulation (fun a b : Chain => Alike f a b ∧ a.resolve = find ∧ b.resolve = find')
      (fun e => e.entryType = .reversal → ∀ ref, e.ref = some ref → find ref = find' ref) where
  core h := h.1.core
  frame h := h.1.frame
  unit h := h.1.unit
  balance h := h.1.balance
  openHold h := h.1.openHold hf
  iterHolds h := h.1.iterHolds hf
  node {a b} h scope := by
    change (a.nodes.get? scope).map _ = (b.nodes.get? scope).map _
    rw [h.1.nodes]
  scopeId_node {a b scope n} h hn := by
    obtain ⟨m, hm, rfl⟩ := Option.map_eq_some_iff.mp hn
    rw [h.1.nodes] at hm
    exact h.1.keyed scope m hm
  openHold_of_mem {a b hold x} h hx := by
    obtain ⟨p, hp, hpx⟩ := List.mem_map.mp hx
    cases hpx
    change ((a.holds.get? p.1).map _).isSome
    rw [Dict.get?_eq_some_iff.mpr hp]
    rfl
  spentBy {a b} h scope := by
    change (a.spent.get? scope).getD 0 = (b.spent.get? scope).getD 0
    rw [h.1.spent]
  refundedTo {a b} h scope := by
    change (a.refunded.get? scope).getD 0 = (b.refunded.get? scope).getD 0
    rw [h.1.refunded]
  holdsOpenIn h scope := congrFun h.1.holdCounts scope
  refundedOfSpend {a b} h spend := by
    change Except.ok ((a.spendRefunds.get? spend).getD 0) =
      Except.ok ((b.spendRefunds.get? spend).getD 0)
    rw [h.1.spendRefunds]
  isSealed {a b} h := by
    have := congrArg Option.isSome h.1.migrationSeal
    change a.migrationSeal.isSome = b.migrationSeal.isSome
    simpa using this
  resolve {a b e ref} h hP he hr := by
    change a.resolve ref = b.resolve ref
    rw [h.2.1, h.2.2]
    exact hP he ref hr
  setCore h _ := ⟨{ h.1 with core := rfl }, h.2⟩
  setFrame h _ := ⟨{ h.1 with frame := rfl }, h.2⟩
  setBalance h scope v := ⟨{ h.1 with balances := h.1.balances.set scope v }, h.2⟩
  placeHold {a b e} h _ _ := by
    refine ⟨{ h.1 with holds := ?_ }, h.2⟩
    change (a.holds.set _ _).mapValues f = (b.holds.set _ _).mapValues f
    rw [Dict.mapValues_set, Dict.mapValues_set, h.1.holds]
  dropHold {a b} h hold _ := by
    refine ⟨{ h.1 with holds := ?_ }, h.2⟩
    change (a.holds.erase _).mapValues f = (b.holds.erase _).mapValues f
    rw [Dict.mapValues_erase, Dict.mapValues_erase, h.1.holds]
  noteReleased h _ := h
  markAmbiguous h key := ⟨{ h.1 with ambiguous := addKey_perm h.1.ambiguous key }, h.2⟩
  setCount {a b} h scope n := by
    refine ⟨{ h.1 with holdCounts := ?_ }, h.2⟩
    change Function.update a.holdCounts scope n = Function.update b.holdCounts scope n
    rw [h.1.holdCounts]
  setSpendRefunds h spend v := ⟨{ h.1 with spendRefunds := h.1.spendRefunds.set spend v }, h.2⟩
  setSpent h scope v := ⟨{ h.1 with spent := h.1.spent.set scope v }, h.2⟩
  setRefunded h scope v := ⟨{ h.1 with refunded := h.1.refunded.set scope v }, h.2⟩
  createRoot {a b} h n _ := by
    refine ⟨{ h.1 with nodes := ?_, roots := ?_, keyed := ?_ }, h.2⟩
    · change a.nodes.set _ _ = b.nodes.set _ _
      rw [h.1.nodes]
    · change a.roots ++ _ = b.roots ++ _
      rw [h.1.roots]
    · exact Chain.keyed_set (n := { toNode := n }) h.1.keyed rfl
  createChild {a b} h parent n _ _ := by
    refine ⟨{ h.1 with nodes := ?_, keyed := h.1.keyed.createChild parent n }, h.2⟩
    change a.nodesWithChild parent n = b.nodesWithChild parent n
    unfold Chain.nodesWithChild
    rw [h.1.nodes]
  setAllocated {a b} h scope v _ := by
    refine ⟨{ h.1 with nodes := ?_, keyed := h.1.keyed.setAllocated scope v }, h.2⟩
    rw [Chain.nodes_setAllocated, Chain.nodes_setAllocated, h.1.nodes]
  setTrip {a b} h scope trip := by
    refine ⟨{ h.1 with tripped := ?_ }, h.2⟩
    change Function.update a.tripped scope trip = Function.update b.tripped scope trip
    rw [h.1.tripped]
  noteEvent h _ := h
  placeSeal h _ := ⟨{ h.1 with migrationSeal := rfl }, h.2⟩

/-! ### The frame of a chain between transactions -/

section Fresh

variable {checkHash writing : Bool} {c : Chain} {e : LedgerEntry}

theorem Rules.checkVersion_frame (F : Frame) :
    Rules.checkVersion { c with frame := F } e =
      (Rules.checkVersion c e).map fun c => { c with frame := F } := by
  simp only [Rules.checkVersion, View.core, View.setCore, refuse]
  split_ifs <;> rfl

theorem Rules.checkCheckpoint_frame (F : Frame) :
    Rules.checkCheckpoint { c with frame := F } e =
      (Rules.checkCheckpoint c e).map fun c => { c with frame := F } := by
  simp only [Rules.checkCheckpoint, View.core, View.setCore, refuse]
  split
  · rfl
  · cases readInt _ with
    | error err => rfl
    | ok n =>
      simp only [ok_bind]
      split_ifs
      · rfl
      · split
        · rfl
        · split_ifs <;> rfl

theorem Rules.checkZeroValue_frame (F : Frame) :
    Rules.checkZeroValue { c with frame := F } e =
      (Rules.checkZeroValue c e).map fun c => { c with frame := F } := by
  simp only [Rules.checkZeroValue]
  cases equals e.amount 0 with
  | error err => rfl
  | ok zero =>
    simp only [ok_bind, Rules.checkCheckpoint_frame, refuse, View.core, View.isSealed]
    split_ifs <;> rfl

theorem Rules.checkShape_frame (F : Frame) :
    Rules.checkShape { c with frame := F } e =
      (Rules.checkShape c e).map fun p => ({ p.1 with frame := F }, p.2) := by
  have hformat : Rules.checkFormat { c with frame := F } e = Rules.checkFormat c e := rfl
  simp only [Rules.checkShape, hformat, Rules.checkZeroValue_frame, View.unit, refuse]
  split_ifs
  · cases Rules.checkFormat c e with
    | error err => rfl
    | ok u => cases Rules.checkZeroValue c e <;> rfl
  · cases Rules.checkFormat c e with
    | error err => rfl
    | ok u => cases Rules.checkAmount c.unit e <;> rfl
  · rfl

/-- Whether nothing is left of the transaction a chain is in once the entry's own begins. -/
structure Frame.Fresh (f : Frame) (txn : UUID) : Prop where
  net : f.net = 0
  other : f.txn ≠ some txn
  settleable : f.txn = none → f.settleable = []

theorem Frame.Fresh.begin {f : Frame} {txn : UUID} (h : f.Fresh txn) :
    f.begin txn = { txn := some txn } := by
  obtain ⟨net, other, settleable⟩ := h
  cases f with
  | mk t s n =>
    dsimp only at net other settleable
    subst net
    rw [Frame.begin, if_neg other]
    cases t with
    | none => simp [settleable rfl]
    | some t => rfl

theorem Rules.beginTransaction_fresh {c : Chain} (h : c.frame.Fresh e.transactionId) :
    Rules.beginTransaction c e = .ok { c with frame := { txn := some e.transactionId } } := by
  rw [← h.begin]
  unfold Rules.beginTransaction Rules.leaveTransaction Rules.endTransaction Frame.begin
  simp only [View.frame, View.setFrame, h.other, if_false, h.net, ne_eq, not_true_eq_false]
  by_cases ht : c.frame.txn.isSome = true
  · rw [if_pos ht, if_pos ht, ok_bind]
  · rw [if_neg ht, if_neg ht, ok_bind, h.net]

/-- The first entry of a transaction is read alike wherever the ones before have ended. -/
theorem Rules.apply_fresh (h : c.frame.Fresh e.transactionId) :
    Rules.apply checkHash writing c e = Rules.apply checkHash writing { c with frame := {} } e := by
  have hlink : Rules.checkLink { c with frame := {} } e checkHash =
      Rules.checkLink c e checkHash := rfl
  have started (k : Core) := Rules.beginTransaction_fresh (c := { c with core := k }) h
  have restarted (k : Core) := Rules.beginTransaction_fresh (e := e)
    (c := { c with core := k, frame := {} }) ⟨rfl, by simp, fun _ => rfl⟩
  unfold Rules.apply
  rw [hlink, Rules.checkVersion_frame (c := c) {}]
  cases Rules.checkLink c e checkHash with
  | error err => rfl
  | ok u =>
    simp only [ok_bind]
    cases hv : Rules.checkVersion c e with
    | error err => rfl
    | ok c₁ =>
      obtain ⟨v₁, v₂, v₃, rfl, -⟩ := Rules.checkVersion_ok hv
      simp only [Except.map, ok_bind]
      have hshape := Rules.checkShape_frame (c := { c with core := { c.core with
        sawV1 := v₁, sawV2 := v₂, sawV3 := v₃ } }) (e := e) {}
      dsimp only at hshape
      rw [hshape]
      cases hs : Rules.checkShape { c with core := { c.core with
          sawV1 := v₁, sawV2 := v₂, sawV3 := v₃ } } e with
      | error err => rfl
      | ok p =>
        obtain ⟨c₂, amount⟩ := p
        obtain ⟨⟨cp, rfl⟩, -⟩ := Rules.checkShape_ok hs
        simp only [Except.map, ok_bind]
        rw [started, restarted]

end Fresh

/-! ### States -/

/-- A state stands for a chain: it holds what the chain implies, the refunds of a spend kept in it
or counted by `refunds` among as many entries as it is of. -/
structure ChainState.Stands (f : LedgerEntry → LedgerEntry)
    (refunds : Option (UUID → ℕ → Except Error Value)) (s : ChainState) (c : Chain) : Prop where
  alike : Alike f { s.chain c.resolve with spendRefunds := c.spendRefunds } { c with frame := {} }
  kept : refunds = none → s.spendRefunds.Same c.spendRefunds
  counted : ∀ r, refunds = some r → ∀ spend,
    (if s.length = 0 then .ok 0 else r spend s.length) = Except.ok (c.refundedOfSpend spend)
  tidy : s.Tidy

/-- An overlay over a state has read a chain, finding spends its own way. -/
def Overlay.Reads (f : LedgerEntry → LedgerEntry) (s : ChainState)
    (refunds : Option (UUID → ℕ → Except Error Value)) (find find' : UUID → Option LedgerEntry)
    (o : Overlay) (c : Chain) : Prop :=
  ∃ m, Overlay.ShowsOver id s refunds find find o m ∧
    Alike f m c ∧ m.resolve = find ∧ c.resolve = find'

/-- The entries an overlay over a state may read as a chain would: their holds are not open in it,
and their spends are found alike. -/
def Overlay.MayRead (s : ChainState) (find find' : UUID → Option LedgerEntry) (e : LedgerEntry) :
    Prop :=
  (e.entryType = .hold → s.holds.get? e.entryId = none) ∧
    (e.entryType = .reversal → ∀ ref, e.ref = some ref → find ref = find' ref)

theorem Overlay.reads_simulation {f : LedgerEntry → LedgerEntry} (hf : ∀ e, (f e).held = e.held)
    (s : ChainState) (refunds : Option (UUID → ℕ → Except Error Value))
    (find find' : UUID → Option LedgerEntry) :
    Simulation (Overlay.Reads f s refunds find find') (Overlay.MayRead s find find') := by
  have S := (Overlay.shows_simulation (f := id) (fun _ => rfl) s refunds find find).comp
    (alike_simulation hf find find')
  exact { S with
    resolve := fun h hP he hr => S.resolve h ⟨⟨hP.1, fun _ _ _ => rfl⟩, hP.2⟩ he hr
    placeHold := fun h hP he => S.placeHold h ⟨⟨hP.1, fun _ _ _ => rfl⟩, hP.2⟩ he }

namespace ChainState.Stands

variable {f : LedgerEntry → LedgerEntry} {refunds : Option (UUID → ℕ → Except Error Value)}
  {s : ChainState} {c : Chain}

/-- A new overlay over a state that stands for a chain has read it. -/
theorem staging (h : s.Stands f refunds c) (find : UUID → Option LedgerEntry)
    (released : Option (List UUID)) :
    Overlay.Reads f s refunds find c.resolve (Overlay.staging s find refunds released)
      { c with frame := {} } := by
  have keyed : ∀ scope n, s.nodes.get? scope = some n → n.scopeId = scope := by
    intro scope n hn
    rw [show s.nodes = c.nodes from h.alike.nodes] at hn
    exact h.alike.keyed scope n hn
  cases refunds with
  | none =>
    have hshows := Overlay.shows_staging s find find released keyed
    refine ⟨s.chain find, ⟨rfl, rfl, rfl, rfl, hshows⟩, ?_, rfl, rfl⟩
    exact { h.alike with spendRefunds := h.kept rfl }
  | some r =>
    have hcounted : ∀ spend, (Overlay.staging s find (some r) released).refundedOfSpend spend =
        .ok ((c.spendRefunds.get? spend).getD 0) := h.counted r rfl
    have hshows := Overlay.shows_staging_counting s find find released keyed hcounted
      (fun hr => by cases hr)
    exact ⟨_, ⟨rfl, rfl, rfl, rfl, hshows⟩, { h.alike with }, rfl, rfl⟩

end ChainState.Stands

/-- The state an overlay leaves stands for the chain it has read. -/
theorem Overlay.Reads.merge {f : LedgerEntry → LedgerEntry}
    {refunds refunds' : Option (UUID → ℕ → Except Error Value)} {s : ChainState} {c : Chain}
    {find find' : UUID → Option LedgerEntry} {o : Overlay}
    (h : Overlay.Reads f s refunds find find' o c) (tidy : s.Tidy)
    (kept : refunds' = none → refunds = none)
    (counted : ∀ r, refunds' = some r → ∀ spend,
      (if c.core.length = 0 then .ok 0 else r spend c.core.length) =
        Except.ok (c.refundedOfSpend spend)) : o.merge.Stands f refunds' c := by
  obtain ⟨m, hm, hc, rfl, rfl⟩ := h
  have hmerge := hm.shows.chain_merge_counting c.resolve
  have hlength : o.merge.length = c.core.length := by
    rw [← hc.core, ← hm.shows.core]
    rfl
  refine ⟨?_, fun hr => ?_, fun r hr spend => ?_, Overlay.tidy_merge (by rwa [hm.base])⟩
  · have hm' : { o.merge.chain c.resolve with spendRefunds := c.spendRefunds } =
        { m with frame := {}, resolve := c.resolve, spendRefunds := c.spendRefunds } :=
      congrArg (fun d : Chain => { d with spendRefunds := c.spendRefunds }) hmerge
    rw [hm']
    exact { hc with frame := rfl, spendRefunds := .refl _ }
  · rw [hm.shows.spendRefunds (hm.refunds.trans (kept hr))]
    exact hc.spendRefunds
  · rw [hlength]
    exact counted r hr spend

/-! ### Pieces -/

/-- A piece of a chain read through an overlay over the state before it, and merged. -/
def readPiece (checkHash writing : Bool) (s : ChainState) (find : UUID → Option LedgerEntry)
    (refunds : Option (UUID → ℕ → Except Error Value)) (released : Option (List UUID))
    (piece : List LedgerEntry) : Except Error ChainState := do
  let view ← runAll (Rules.apply checkHash writing) (Overlay.staging s find refunds released) piece
  .ok (← Rules.endTransaction view).merge

/-- The same piece in the flat view of the chain. -/
def Chain.readPiece (checkHash writing : Bool) (c : Chain) (piece : List LedgerEntry) :
    Except Error Chain := do
  let c ← runAll (Rules.apply checkHash writing) c piece
  Rules.endTransaction c

/-- Whether a chain is between transactions, as the first of the entries to come will find it. -/
structure Chain.Between (c : Chain) (piece : List LedgerEntry) : Prop where
  net : c.frame.net = 0
  fresh : ∀ e ∈ piece.head?, c.frame.Fresh e.transactionId

theorem Chain.readPiece_frame {checkHash writing : Bool} {c : Chain} {piece : List LedgerEntry}
    (h : c.Between piece) :
    Chain.readPiece checkHash writing { c with frame := {} } piece =
      Chain.readPiece checkHash writing c piece := by
  cases piece with
  | nil =>
    simp only [Chain.readPiece, runAll_nil, ok_bind, Rules.endTransaction, View.frame,
      View.setFrame, h.net]
    rfl
  | cons e l =>
    unfold Chain.readPiece
    rw [runAll_cons, runAll_cons, ← Rules.apply_fresh (h.fresh e rfl)]

/-- A state that stands for a chain reads a piece as the chain does. -/
theorem ChainState.Stands.read {f : LedgerEntry → LedgerEntry} (hf : ∀ e, (f e).held = e.held)
    {refunds refunds' : Option (UUID → ℕ → Except Error Value)} {s : ChainState} {c : Chain}
    (h : s.Stands f refunds c) (find : UUID → Option LedgerEntry) (released : Option (List UUID))
    {piece : List LedgerEntry} (between : c.Between piece)
    (fresh : ∀ e ∈ piece, e.entryType = .hold → c.holds.get? e.entryId = none)
    (found : ∀ e ∈ piece, e.entryType = .reversal → ∀ ref, e.ref = some ref →
      find ref = c.resolve ref)
    (kept : refunds' = none → refunds = none) (checkHash writing : Bool)
    (counted : ∀ c', Chain.readPiece checkHash writing c piece = .ok c' →
      ∀ r, refunds' = some r → ∀ spend,
        (if c'.core.length = 0 then .ok 0 else r spend c'.core.length) =
          Except.ok (c'.refundedOfSpend spend)) :
    Together (fun s' c' => s'.Stands f refunds' c')
      (readPiece checkHash writing s find refunds released piece)
      (Chain.readPiece checkHash writing c piece) := by
  have S := Overlay.reads_simulation hf s refunds find c.resolve
  have hP : ∀ e ∈ piece, Overlay.MayRead s find c.resolve e := by
    refine fun e he => ⟨fun hk => ?_, found e he⟩
    exact (h.alike.mem_holds e.entryId).mpr (fresh e he hk)
  rw [← Chain.readPiece_frame between] at counted ⊢
  have hrun := S.runAll (h.staging find released) hP checkHash writing
  have hread := hrun.bind fun o c' h' => S.endTransaction h'
  rw [← bind_pure (Chain.readPiece checkHash writing { c with frame := {} } piece)]
  unfold readPiece
  rw [← bind_assoc]
  exact hread.bind_of_eq fun o c' _ hc' h' => h'.merge h.tidy kept (counted c' hc')

end AgentGov
