import AgentGov.Rules

/-!
# Views that show the same chain

Two views show the same chain when every lookup the rules make agrees and every change the rules
stage keeps them so. The rules then accept the same entries in both.

## Main definitions

* `AgentGov.Simulation`: a relation of two kinds of view that the lookups and changes respect,
  for the entries a predicate allows.

## Main results

* `AgentGov.Simulation.comp`: simulations compose.
* `AgentGov.Simulation.apply`: the rules respect a simulation.
* `AgentGov.Simulation.runAll`: and so do runs of entries.
-/

open Foundation

namespace AgentGov

open View

/-- A relation of two kinds of view that every lookup and every change of the rules respects.
`P` holds of the entries it is good for: a hold must be placed under an id the relation allows,
and a refund's spend must be found alike. -/
structure Simulation {σ τ : Type} [View σ] [View τ] (R : σ → τ → Prop)
    (P : LedgerEntry → Prop) : Prop where
  core {a b} : R a b → core a = core b
  frame {a b} : R a b → frame a = frame b
  unit {a b} : R a b → unit a = unit b
  balance {a b} : R a b → ∀ scope, balance a scope = balance b scope
  openHold {a b} : R a b → ∀ hold, openHold a hold = openHold b hold
  iterHolds {a b} : R a b → iterHolds a = iterHolds b
  node {a b} : R a b → ∀ scope, node a scope = node b scope
  scopeId_node {a b scope n} : R a b → View.node a scope = some n → n.scopeId = scope
  openHold_of_mem {a b hold h} : R a b → (hold, h) ∈ View.iterHolds a →
    (View.openHold a hold).isSome
  spentBy {a b} : R a b → ∀ scope, spentBy a scope = spentBy b scope
  refundedTo {a b} : R a b → ∀ scope, refundedTo a scope = refundedTo b scope
  holdsOpenIn {a b} : R a b → ∀ scope, holdsOpenIn a scope = holdsOpenIn b scope
  refundedOfSpend {a b} : R a b → ∀ spend, refundedOfSpend a spend = refundedOfSpend b spend
  isSealed {a b} : R a b → isSealed a = isSealed b
  resolve {a b e ref} : R a b → P e → e.entryType = .reversal → e.ref = some ref →
    resolve a ref = resolve b ref
  setCore {a b} : R a b → ∀ c, R (setCore a c) (setCore b c)
  setFrame {a b} : R a b → ∀ f, R (setFrame a f) (setFrame b f)
  setBalance {a b} : R a b → ∀ scope v, R (setBalance a scope v) (setBalance b scope v)
  placeHold {a b e} : R a b → P e → e.entryType = .hold → R (placeHold a e) (placeHold b e)
  dropHold {a b} : R a b → ∀ hold, (View.openHold a hold).isSome →
    R (dropHold a hold) (dropHold b hold)
  noteReleased {a b} : R a b → ∀ hold, R (noteReleased a hold) (noteReleased b hold)
  markAmbiguous {a b} : R a b → ∀ key, R (markAmbiguous a key) (markAmbiguous b key)
  setCount {a b} : R a b → ∀ scope n, R (setCount a scope n) (setCount b scope n)
  setSpendRefunds {a b} : R a b → ∀ spend v,
    R (setSpendRefunds a spend v) (setSpendRefunds b spend v)
  setSpent {a b} : R a b → ∀ scope v, R (setSpent a scope v) (setSpent b scope v)
  setRefunded {a b} : R a b → ∀ scope v, R (setRefunded a scope v) (setRefunded b scope v)
  createRoot {a b} : R a b → ∀ n : Node, View.node a n.scopeId = none →
    R (createRoot a n) (createRoot b n)
  createChild {a b} : R a b → ∀ (parent : Text) (n : Node), (View.node a parent).isSome →
    View.node a n.scopeId = none → R (createChild a parent n) (createChild b parent n)
  setAllocated {a b} : R a b → ∀ scope v, (View.node a scope).isSome →
    R (setAllocated a scope v) (setAllocated b scope v)
  setTrip {a b} : R a b → ∀ scope trip, R (setTrip a scope trip) (setTrip b scope trip)
  noteEvent {a b} : R a b → ∀ event, R (noteEvent a event) (noteEvent b event)
  placeSeal {a b} : R a b → ∀ e, R (placeSeal a e) (placeSeal b e)

namespace Simulation

/-- Simulations compose. -/
theorem comp {σ τ υ : Type} [View σ] [View τ] [View υ] {R : σ → τ → Prop} {R' : τ → υ → Prop}
    {P P' : LedgerEntry → Prop} (S : Simulation R P) (S' : Simulation R' P') :
    Simulation (fun a c => ∃ b, R a b ∧ R' b c) (fun e => P e ∧ P' e) where
  core := by rintro a c ⟨b, h, h'⟩; rw [S.core h, S'.core h']
  frame := by rintro a c ⟨b, h, h'⟩; rw [S.frame h, S'.frame h']
  unit := by rintro a c ⟨b, h, h'⟩; rw [S.unit h, S'.unit h']
  balance := by rintro a c ⟨b, h, h'⟩ scope; rw [S.balance h, S'.balance h']
  openHold := by rintro a c ⟨b, h, h'⟩ hold; rw [S.openHold h, S'.openHold h']
  iterHolds := by rintro a c ⟨b, h, h'⟩; rw [S.iterHolds h, S'.iterHolds h']
  node := by rintro a c ⟨b, h, h'⟩ scope; rw [S.node h, S'.node h']
  scopeId_node := by rintro a c scope n ⟨b, h, -⟩; exact S.scopeId_node h
  openHold_of_mem := by rintro a c hold x ⟨b, h, -⟩; exact S.openHold_of_mem h
  spentBy := by rintro a c ⟨b, h, h'⟩ scope; rw [S.spentBy h, S'.spentBy h']
  refundedTo := by rintro a c ⟨b, h, h'⟩ scope; rw [S.refundedTo h, S'.refundedTo h']
  holdsOpenIn := by rintro a c ⟨b, h, h'⟩ scope; rw [S.holdsOpenIn h, S'.holdsOpenIn h']
  refundedOfSpend := by
    rintro a c ⟨b, h, h'⟩ spend
    rw [S.refundedOfSpend h, S'.refundedOfSpend h']
  isSealed := by rintro a c ⟨b, h, h'⟩; rw [S.isSealed h, S'.isSealed h']
  resolve := by
    rintro a c e ref ⟨b, h, h'⟩ hP he hr
    rw [S.resolve h hP.1 he hr, S'.resolve h' hP.2 he hr]
  setCore := by rintro a c ⟨b, h, h'⟩ k; exact ⟨_, S.setCore h k, S'.setCore h' k⟩
  setFrame := by rintro a c ⟨b, h, h'⟩ f; exact ⟨_, S.setFrame h f, S'.setFrame h' f⟩
  setBalance := by
    rintro a c ⟨b, h, h'⟩ scope v
    exact ⟨_, S.setBalance h scope v, S'.setBalance h' scope v⟩
  placeHold := by
    rintro a c e ⟨b, h, h'⟩ hP he
    exact ⟨_, S.placeHold h hP.1 he, S'.placeHold h' hP.2 he⟩
  dropHold := by
    rintro a c ⟨b, h, h'⟩ hold ho
    exact ⟨_, S.dropHold h hold ho, S'.dropHold h' hold (by rwa [← S.openHold h])⟩
  noteReleased := by
    rintro a c ⟨b, h, h'⟩ hold
    exact ⟨_, S.noteReleased h hold, S'.noteReleased h' hold⟩
  markAmbiguous := by
    rintro a c ⟨b, h, h'⟩ key
    exact ⟨_, S.markAmbiguous h key, S'.markAmbiguous h' key⟩
  setCount := by
    rintro a c ⟨b, h, h'⟩ scope n
    exact ⟨_, S.setCount h scope n, S'.setCount h' scope n⟩
  setSpendRefunds := by
    rintro a c ⟨b, h, h'⟩ spend v
    exact ⟨_, S.setSpendRefunds h spend v, S'.setSpendRefunds h' spend v⟩
  setSpent := by
    rintro a c ⟨b, h, h'⟩ scope v
    exact ⟨_, S.setSpent h scope v, S'.setSpent h' scope v⟩
  setRefunded := by
    rintro a c ⟨b, h, h'⟩ scope v
    exact ⟨_, S.setRefunded h scope v, S'.setRefunded h' scope v⟩
  createRoot := by
    rintro a c ⟨b, h, h'⟩ n hn
    exact ⟨_, S.createRoot h n hn, S'.createRoot h' n (by rwa [← S.node h])⟩
  createChild := by
    rintro a c ⟨b, h, h'⟩ parent n hp hn
    exact ⟨_, S.createChild h parent n hp hn,
      S'.createChild h' parent n (by rwa [← S.node h]) (by rwa [← S.node h])⟩
  setAllocated := by
    rintro a c ⟨b, h, h'⟩ scope v hs
    exact ⟨_, S.setAllocated h scope v hs, S'.setAllocated h' scope v (by rwa [← S.node h])⟩
  setTrip := by
    rintro a c ⟨b, h, h'⟩ scope trip
    exact ⟨_, S.setTrip h scope trip, S'.setTrip h' scope trip⟩
  noteEvent := by
    rintro a c ⟨b, h, h'⟩ event
    exact ⟨_, S.noteEvent h event, S'.noteEvent h' event⟩
  placeSeal := by rintro a c ⟨b, h, h'⟩ e; exact ⟨_, S.placeSeal h e, S'.placeSeal h' e⟩

variable {σ τ : Type} [View σ] [View τ] {R : σ → τ → Prop} {P : LedgerEntry → Prop}
  (S : Simulation R P) {a : σ} {b : τ}

include S

theorem checkVersion (h : R a b) (e : LedgerEntry) :
    Together R (Rules.checkVersion a e) (Rules.checkVersion b e) := by
  simp only [Rules.checkVersion, S.core h]
  split_ifs <;> first | exact trivial | exact S.setCore h _

theorem checkV3 (h : R a b) (e : LedgerEntry) : Rules.checkV3 a e = Rules.checkV3 b e := by
  simp only [Rules.checkV3, S.core h]

theorem checkCheckpoint (h : R a b) (e : LedgerEntry) :
    Together R (Rules.checkCheckpoint a e) (Rules.checkCheckpoint b e) := by
  simp only [Rules.checkCheckpoint, S.core h]
  split
  · exact trivial
  · refine Together.bind_same fun n _ => ?_
    split_ifs
    · exact trivial
    · split
      · exact S.setCore h _
      · split_ifs
        · exact trivial
        · exact S.setCore h _

theorem checkZeroValue (h : R a b) (e : LedgerEntry) :
    Together R (Rules.checkZeroValue a e) (Rules.checkZeroValue b e) := by
  simp only [Rules.checkZeroValue, S.core h, S.isSealed h]
  refine Together.bind_same fun z _ => ?_
  split_ifs <;> first | exact trivial | exact h | exact S.checkCheckpoint h e

theorem checkShape (h : R a b) (e : LedgerEntry) :
    Together (fun x y => R x.1 y.1 ∧ x.2 = y.2) (Rules.checkShape a e)
      (Rules.checkShape b e) := by
  have hz : Together (fun x y : _ × Value => R x.1 y.1 ∧ x.2 = y.2)
      (Rules.checkZeroValue a e >>= fun v => .ok (v, 0))
      (Rules.checkZeroValue b e >>= fun v => .ok (v, 0)) :=
    (S.checkZeroValue h e).bind fun a' b' h' => Together.ok ⟨h', rfl⟩
  have ha : Together (fun x y : _ × Value => R x.1 y.1 ∧ x.2 = y.2)
      (Rules.checkAmount (View.unit a) e >>= fun v => .ok (a, v))
      (Rules.checkAmount (View.unit a) e >>= fun v => .ok (b, v)) :=
    Together.bind_same fun v _ => Together.ok ⟨h, rfl⟩
  have hf : Rules.checkFormat a e = Rules.checkFormat b e := by
    simp only [Rules.checkFormat, S.checkV3 h]
  simp only [Rules.checkShape, hf, ← S.unit h]
  refine Together.guard fun _ => Together.bind_same fun _ _ => ?_
  split_ifs
  · exact hz
  · exact ha

theorem endTransaction (h : R a b) :
    Together R (Rules.endTransaction a) (Rules.endTransaction b) := by
  simp only [Rules.endTransaction, S.frame h]
  split_ifs
  · exact trivial
  · exact S.setFrame h _

theorem leaveTransaction (h : R a b) :
    Together R (Rules.leaveTransaction a) (Rules.leaveTransaction b) := by
  simp only [Rules.leaveTransaction, S.frame h]
  split_ifs
  · exact S.endTransaction h
  · exact h

theorem beginTransaction (h : R a b) (e : LedgerEntry) :
    Together R (Rules.beginTransaction a e) (Rules.beginTransaction b e) := by
  simp only [Rules.beginTransaction, S.frame h]
  split_ifs
  · exact h
  · refine (S.leaveTransaction h).bind fun a' b' h' => ?_
    simp only [S.frame h']
    exact S.setFrame h' _

theorem close (h : R a b) (hold : UUID) (scope : Text) (ho : (View.openHold a hold).isSome) :
    R (Rules.close a hold scope) (Rules.close b hold scope) := by
  have hd := S.dropHold h hold ho
  simp only [Rules.close, S.holdsOpenIn hd]
  exact S.setCount hd _ _

theorem releaseNamed (h : R a b) (e : LedgerEntry) (amount : Value) :
    Together R (Rules.releaseNamed a e amount) (Rules.releaseNamed b e amount) := by
  unfold Rules.releaseNamed
  cases e.ref with
  | none => exact trivial
  | some ref =>
    simp only [← S.openHold h]
    cases ho : View.openHold a ref with
    | none => exact trivial
    | some held =>
      dsimp only
      refine Together.guard fun _ => Together.guard fun _ => ?_
      have hc := S.close h ref held.1 (by rw [ho]; rfl)
      simp only [S.frame hc]
      exact S.noteReleased (S.setFrame hc _) _

theorem releaseUnnamed (h : R a b) (e : LedgerEntry) (amount : Value) :
    Together R (Rules.releaseUnnamed a e amount) (Rules.releaseUnnamed b e amount) := by
  simp only [Rules.releaseUnnamed, ← S.iterHolds h]
  split
  · rename_i hold scope x hf
    exact S.markAmbiguous (S.close h hold scope
      (S.openHold_of_mem h (List.mem_of_find?_eq_some hf))) _
  · exact trivial

theorem reverseNamed (h : R a b) {e : LedgerEntry} (hP : P e) (he : e.entryType = .reversal)
    {ref : UUID} (hr : e.ref = some ref) (amount : Value) :
    Together R (Rules.reverseNamed a e ref amount) (Rules.reverseNamed b e ref amount) := by
  simp only [Rules.reverseNamed, ← S.resolve h hP he hr, ← S.refundedOfSpend h]
  split
  · exact trivial
  · split_ifs
    · exact trivial
    · exact trivial
    · refine Together.bind_same fun before _ => Together.bind_same fun refunded _ => ?_
      split
      · exact trivial
      · split_ifs
        · exact trivial
        · exact S.setSpendRefunds h _ _

theorem checkHolds (h : R a b) {e : LedgerEntry} (hP : P e) (amount : Value) :
    Together R (Rules.checkHolds a e amount) (Rules.checkHolds b e amount) := by
  refine Together.guard fun _ => ?_
  split
  · rename_i he
    have hp := S.placeHold h hP he
    simp only [S.holdsOpenIn hp]
    exact S.setCount hp _ _
  · split_ifs
    · exact S.releaseUnnamed h e amount
    · exact S.releaseNamed h e amount
  · split
    · exact h
    · simp only [S.frame h]
      split_ifs
      · exact h
      · exact trivial
  · rename_i he
    split
    · exact h
    · rename_i ref hr
      exact S.reverseNamed h hP he hr amount
  · exact h

theorem checkFlows (h : R a b) (e : LedgerEntry) (amount : Value) (writing : Bool) :
    Together R (Rules.checkFlows a e amount writing) (Rules.checkFlows b e amount writing) := by
  simp only [Rules.checkFlows, S.spentBy h, S.refundedTo h]
  split
  · exact Together.bind_same fun v _ => S.setSpent h _ _
  · refine Together.bind_same fun v _ => ?_
    split_ifs
    · exact trivial
    · exact S.setRefunded h _ _
  · exact h

theorem control (h : R a b) (eventType scope : Text) (timestamp : Instant) (reason : Text) :
    Together R (Rules.control a eventType scope timestamp reason)
      (Rules.control b eventType scope timestamp reason) := by
  simp only [Rules.control, S.node h]
  split_ifs <;> first | exact trivial | exact h | exact S.setTrip h _ _

theorem applyLegacy (h : R a b) :
    Together R (Rules.applyLegacy a) (Rules.applyLegacy b) := by
  simp only [Rules.applyLegacy, S.core h]
  refine Together.runAll (fun a' b' event _ h' => ?_) (S.setCore h _)
  exact S.control h' event.eventType event.scopeId event.timestamp event.reason

theorem foldLegacy (h : R a b) (e : LedgerEntry) :
    Together R (Rules.foldLegacy a e) (Rules.foldLegacy b e) := by
  have hseal : Rules.checkSeal a e = Rules.checkSeal b e := by
    simp only [Rules.checkSeal, S.core h]
  have hvouch : Rules.vouch a e = Rules.vouch b e := by
    simp only [Rules.vouch, S.core h, hseal]
  simp only [Rules.foldLegacy, S.core h, hvouch]
  split_ifs
  · exact Together.bind_same fun _ _ => S.applyLegacy h
  · exact h

theorem fund (h : R a b) (e : LedgerEntry) (amount : Value) :
    Together R (Rules.fund a e amount) (Rules.fund b e amount) := by
  simp only [Rules.fund, ← S.node h]
  split
  · rename_i hn
    exact S.createRoot h _ hn
  · rename_i n hn
    split_ifs
    · exact trivial
    · exact Together.bind_same fun v _ => S.setAllocated h _ _ (by rw [hn]; rfl)

theorem allocate (h : R a b) (e : LedgerEntry) (amount : Value) :
    Together R (Rules.allocate a e amount) (Rules.allocate b e amount) := by
  simp only [Rules.allocate, Rules.require, ← S.node h]
  split_ifs with hd hs
  · exact Together.bind_same fun _ _ => h
  · exact trivial
  · split
    · exact trivial
    · rename_i parent hp
      refine S.createChild h _ _ ?_ (by simpa using hs)
      rw [S.scopeId_node h hp, hp]
      rfl

theorem releaseBetween (h : R a b) (e : LedgerEntry) :
    Together R (Rules.releaseBetween a e) (Rules.releaseBetween b e) := by
  simp only [Rules.releaseBetween, Rules.require, ← S.node h]
  refine Together.bind_same fun n _ => ?_
  split
  · exact trivial
  · split_ifs <;> first | exact trivial | exact h

theorem checkGovernance (h : R a b) (e : LedgerEntry) (amount : Value) :
    Together R (Rules.checkGovernance a e amount) (Rules.checkGovernance b e amount) := by
  unfold Rules.checkGovernance
  refine (S.foldLegacy h e).bind fun a' b' h' => ?_
  have hrequire : Together R (Rules.require a' e.scopeId e >>= fun _ => .ok a')
      (Rules.require b' e.scopeId e >>= fun _ => .ok b') := by
    simp only [Rules.require, ← S.node h']
    exact Together.bind_same fun _ _ => h'
  have hcontrol : ∀ kind : Text, Together R
      (Rules.control a' kind e.scopeId e.timestamp e.memo >>= fun v =>
        .ok (View.noteEvent v (eventFor e)))
      (Rules.control b' kind e.scopeId e.timestamp e.memo >>= fun v =>
        .ok (View.noteEvent v (eventFor e))) :=
    fun kind => (S.control h' kind _ _ _).bind fun a'' b'' h'' => S.noteEvent h'' _
  cases e.entryType with
  | funding => exact S.fund h' e amount
  | allocation => exact S.allocate h' e amount
  | release => exact S.releaseBetween h' e
  | circuitTripped => exact hcontrol _
  | circuitReset => exact hcontrol _
  | migrationSeal => exact h'
  | checkpoint => exact h'
  | hold => exact hrequire
  | holdVoid => exact hrequire
  | spend => exact hrequire
  | reversal => exact hrequire
  | anchor => exact hrequire

theorem moveMoney (h : R a b) (e : LedgerEntry) (amount : Value) :
    Together R (Rules.moveMoney a e amount) (Rules.moveMoney b e amount) := by
  simp only [Rules.moveMoney, ← S.balance h]
  refine Together.bind_same fun expected _ => Together.bind_same fun agrees _ => ?_
  refine Together.guard fun _ => ?_
  have hset : R (if e.entryType.isZeroValue then a else View.setBalance a e.scopeId expected)
      (if e.entryType.isZeroValue then b else View.setBalance b e.scopeId expected) := by
    split_ifs
    · exact h
    · exact S.setBalance h e.scopeId expected
  simp only [← S.frame hset]
  split_ifs at hset ⊢
  all_goals first
    | exact hset
    | exact Together.bind_same fun net _ => S.setFrame hset _

theorem advance (h : R a b) (e : LedgerEntry) (amount : Value) :
    Together R (Rules.advance a e amount) (Rules.advance b e amount) := by
  simp only [Rules.advance, ← S.core h]
  refine Together.bind_same fun totals _ => Together.bind_same fun frontier _ => ?_
  split_ifs
  · exact S.setCore (S.placeSeal h e) _
  · exact S.setCore h _

/-- The rules respect a simulation: an entry it is good for is folded into both views, which it
leaves showing the same chain, or refused in both. -/
theorem apply (h : R a b) {e : LedgerEntry} (hP : P e) (checkHash writing : Bool) :
    Together R (Rules.apply checkHash writing a e) (Rules.apply checkHash writing b e) := by
  have hlink : Rules.checkLink a e checkHash = Rules.checkLink b e checkHash := by
    simp only [Rules.checkLink, S.core h]
  unfold Rules.apply
  rw [hlink]
  refine Together.bind_same fun _ _ => ?_
  refine (S.checkVersion h e).bind fun a b h => ?_
  refine (S.checkShape h e).bind fun x y hxy => ?_
  obtain ⟨a, amount⟩ := x
  obtain ⟨b, amount'⟩ := y
  obtain ⟨h, rfl⟩ := hxy
  refine (S.beginTransaction h e).bind fun a b h => ?_
  refine (S.moveMoney h e amount).bind fun a b h => ?_
  refine (S.checkHolds h hP amount).bind fun a b h => ?_
  refine (S.checkFlows h e amount writing).bind fun a b h => ?_
  exact (S.checkGovernance h e amount).bind fun a b h => S.advance h e amount

/-- Runs of entries it is good for respect a simulation. -/
theorem runAll (h : R a b) {entries : List LedgerEntry} (hP : ∀ e ∈ entries, P e)
    (checkHash writing : Bool) :
    Together R (Foundation.runAll (Rules.apply checkHash writing) a entries)
      (Foundation.runAll (Rules.apply checkHash writing) b entries) :=
  Together.runAll (fun _ _ e he h' => S.apply h' (hP e he) checkHash writing) h

end Simulation

end AgentGov
