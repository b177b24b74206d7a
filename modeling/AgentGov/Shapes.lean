import AgentGov.Operations

/-!
# What operations are made of

Which instructions each operation is made of, whatever is replied to them: what holds of every
instruction an operation may perform holds of the operation. A trip is noted by the operations
that trip a breaker, a reset is posted by the one that resets it, and a key is looked up by the
calls that may be made under one.

## Main definitions

* `AgentGov.Instr.Covers`: whether a property holds of what every operation may ask.
* `AgentGov.Mutation.MayPost`: what a call may post of resets and spends.

## Main results

* `AgentGov.Op.only_of`: only a reset resets a breaker, that of its scope, and only a capture or a
  spend settles.
-/

open Foundation

namespace AgentGov

/-- Whether an instruction of a unit of work posts no reset of a breaker and no spend. -/
def Stage.Everyday : (β : Type) → Stage β → Prop
  | _, .post lines => ∀ line ∈ lines, line.entryType ≠ .circuitReset ∧ line.entryType ≠ .spend
  | _, .view => True

/-- Whether a property holds of what every operation may ask, but for a lookup under a key, the
note of a trip, a settlement, and what a reset asks. -/
structure Instr.Covers (P : (β : Type) → Instr β → Prop) : Prop where
  mutating : P _ .mutating
  served : P _ .served
  policy : P _ .policy
  now : P _ .now
  called : ∀ outcome request, P _ (.called none outcome request)
  work : ∀ {α : Type} (body : Staging α) call result, body.Only Stage.Everyday →
    P _ (.work body call result)
  answered : ∀ call answer, P _ (.answered call answer)
  refundedOfSpend : ∀ spend, P _ (.refundedOfSpend spend)
  velocity : ∀ scope, P _ (.velocity scope)

/-! ### Units of work -/

namespace Staging

open Program

variable {P : (β : Type) → Stage β → Prop}

theorem only_post₁ {line : LedgerLine} (h : P _ (.post [line])) : Only P (post₁ line) := by
  refine only_bind (only_instr h) fun es => ?_
  match es with
  | [] => trivial
  | [_] => trivial
  | _ :: _ :: _ => trivial

theorem only_post₂ {line other : LedgerLine} (h : P _ (.post [line, other])) :
    Only P (post₂ line other) := by
  refine only_bind (only_instr h) fun es => ?_
  match es with
  | [] => trivial
  | [_] => trivial
  | [_, _] => trivial
  | _ :: _ :: _ :: _ => trivial

theorem only_trip {scope reason : Text} (hview : P _ .view)
    (h : P _ (.post [event .circuitTripped scope reason])) : Only P (trip scope reason) := by
  refine only_bind (only_instr hview) fun view => ?_
  split_ifs
  · trivial
  · exact only_bind (only_post₁ h) fun _ => only_ret _

theorem only_exhausted (tripOnExhaustion : Bool) (scope : Text) (hview : P _ .view) :
    Only P (exhausted tripOnExhaustion scope) :=
  only_bind (only_instr hview) fun _ => only_ret _

theorem everyday_trip (scope reason : Text) : Only Stage.Everyday (trip scope reason) :=
  only_trip trivial (by simp [Stage.Everyday, event])

end Staging

/-! ### Operations -/

namespace Op

open Program

variable {P : (β : Type) → Instr β → Prop} (h : Instr.Covers P) {α : Type}

theorem everyday_delegation (parent child : Text) (granted : Decimal) (memo : Text) :
    Only Stage.Everyday (delegation parent child granted memo) :=
  only_bind (Staging.only_post₂ (by simp [Stage.Everyday, line])) fun _ => only_ret _

theorem everyday_releasing (scope parent : Text) (returned : Decimal) (memo : Text) :
    Only Stage.Everyday (releasing scope parent returned memo) :=
  only_bind (Staging.only_post₂ (by simp [Stage.Everyday, line])) fun _ => only_ret _

theorem only_settlement {P : (β : Type) → Stage β → Prop} (tripOnExhaustion : Bool)
    (a : Authorization) (settled : Decimal) (memo : Text) (hview : P _ .view)
    (hpair : P _ (.post [voiding a (txt "authorization captured"), line .spend .debit a.scopeId
      settled none (orElse memo (txt "settled call cost")) (some a.entry.entryId)]))
    (htrip : ∀ reason, P _ (.post [Staging.event .circuitTripped a.scopeId reason])) :
    Only P (settlement tripOnExhaustion a settled memo) := by
  refine only_bind (Staging.only_post₂ hpair) fun pair => ?_
  dsimp only
  split_ifs
  · exact only_bind (Staging.only_trip hview (htrip _)) fun _ => only_ret _
  · refine only_bind (Staging.only_exhausted _ _ hview) fun exhausted => ?_
    split_ifs
    · exact only_bind (Staging.only_trip hview (htrip _)) fun _ => only_ret _
    · trivial

theorem only_argument (ok : Prop) [Decidable ok] (fault : ArgumentFault) :
    Only P (argument ok fault) :=
  only_check _ _

theorem only_lift (x : Except Error α) : Only P (liftM x : Op α) :=
  only_ofExcept _

include h

theorem only_served : Only P served := only_instr h.served

theorem only_mutating : Only P mutating := only_instr h.mutating

theorem only_unit : Only P unit := only_bind (only_served h) fun _ => only_ret _

theorem only_commit {body : Staging α} (hbody : body.Only Stage.Everyday) : Only P (commit body) :=
  only_instr (h.work _ _ _ hbody)

theorem only_commitFor (call : Option Call) {body : Staging LedgerEntry}
    (hbody : body.Only Stage.Everyday) : Only P (commitFor call body) :=
  only_instr (h.work _ _ _ hbody)

theorem only_answered (call : Option Call) (answer : Answer) : Only P (answered call answer) :=
  only_bind (only_instr (h.answered _ _)) fun _ => only_ret _

theorem only_requireNode (scope : Text) : Only P (requireNode scope) := by
  refine only_bind (only_served h) fun ledger => ?_
  cases ledger.state.nodes.get? scope <;> trivial

theorem only_assertNotHalted (scope : Text) : Only P (assertNotHalted scope) := by
  refine only_bind (only_served h) fun ledger => ?_
  dsimp only
  cases ledger.state.haltedBy (ledger.state.nodes.items.length + 1) scope <;> trivial

theorem only_requireOpenAuthorization (a : Authorization) : Only P (requireOpenAuthorization a) :=
  only_bind (only_served h) fun _ => only_check _ _

theorem only_voidLocked (a : Authorization) (memo : Text) (call : Option Call) :
    Only P (voidLocked a memo call) :=
  only_bind (only_commitFor h _ (Staging.only_post₁ (by simp [Stage.Everyday, voiding, line]))) fun _ =>
    only_answered h _ _

theorem only_checkReversed (scope : Text) (credited : Decimal) (ref : UUID) :
    Only P (checkReversed scope credited ref) := by
  refine only_bind (only_served h) fun ledger => ?_
  cases ledger.resolve ref with
  | none => trivial
  | some spend =>
    exact only_bind (only_argument _ _) fun _ => only_bind (only_argument _ _) fun _ =>
      only_bind (only_instr (h.refundedOfSpend _)) fun _ => only_bind (only_lift _) fun _ =>
      only_argument _ _

theorem only_createdNode (scope : Text) : Only P (createdNode scope) :=
  only_bind (only_requireNode h _) fun _ => only_ret _

theorem only_openRoot (scope : Text) (envelope : AmountArg) (memo : Text) :
    Only P (openRoot scope envelope memo) :=
  only_bind (only_unit h) fun _ => only_bind (only_lift _) fun _ => only_bind (only_argument _ _)
    fun _ => only_bind (only_argument _ _) fun _ => only_bind (only_mutating h) fun _ =>
    only_bind (only_served h) fun _ => only_bind (only_check _ _) fun _ =>
    only_bind (only_commit h (Staging.only_post₁ (by simp [Stage.Everyday, line]))) fun _ => only_createdNode h _

theorem only_release (scope : Text) (amount : Option AmountArg) (memo : Text) :
    Only P (release scope amount memo) := by
  refine only_bind (only_mutating h) fun _ => only_bind (only_requireNode h _) fun n => ?_
  cases n.parentId with
  | none => trivial
  | some parent =>
    refine only_bind (only_served h) fun ledger => ?_
    have returns (returned : Decimal) : Only P
        (if returned.worth ≤ 0 then pure (.returned (Decimal.ofInt 0))
        else do
          argument (¬ledger.state.balance scope < returned.worth)
            (.releasesTooMuch returned scope (ledger.state.balance scope))
          commit (releasing scope parent returned memo)
          pure (.returned returned) : Op Answer) := by
      split_ifs
      · trivial
      · exact only_bind (only_argument _ _) fun _ =>
          only_bind (only_commit h (everyday_releasing _ _ _ _)) fun _ => only_ret _
    cases amount with
    | none => exact returns _
    | some amount => exact only_bind (only_lift _) returns

theorem only_anchor (scope memo : Text) : Only P (anchor scope memo) :=
  only_bind (only_argument _ _) fun _ => only_bind (only_mutating h) fun _ =>
    only_bind (only_requireNode h _) fun _ =>
    only_bind (only_commit h (Staging.only_post₁ (by simp [Stage.Everyday, Staging.event]))) fun _ => only_ret _

theorem only_voidEach (note : Text) (stale : List Authorization) : Only P (voidEach note stale) := by
  induction stale with
  | nil => trivial
  | cons a rest ih =>
    refine only_bind (only_mutating h) fun _ => only_bind (only_served h) fun ledger => ?_
    split_ifs
    · exact ih
    · exact only_bind (only_voidLocked h _ _ _) fun _ => only_bind ih fun _ => only_ret _

theorem only_voidStale (olderThan : Option ℤ) (scope : Option Text) (memo : Text) :
    Only P (voidStale olderThan scope memo) := by
  refine only_bind (only_bind (only_instr h.now) fun now => only_bind (only_ofExcept _)
    fun since => ?_) fun stale => only_bind (only_voidEach h _ _) fun _ => only_ret _
  cases scope with
  | none => exact only_bind (only_served h) fun _ => only_ret _
  | some s =>
    exact only_bind (only_requireNode h _) fun _ => only_bind (only_served h) fun _ => only_ret _

omit h in
theorem only_keyed {key : Option Text} (outcome : Outcome) (operation : Text)
    (arguments : List (Text × Argument)) {body : Option Call → Op Answer}
    (hkey : P _ (.called key outcome ⟨operation, arguments⟩)) (hbody : ∀ call, Only P (body call)) :
    Only P (keyed key outcome operation arguments body) := by
  refine only_bind (only_instr hkey) fun call => ?_
  cases call.bind Call.replayed with
  | none => exact hbody call
  | some answer => trivial

/-- What a reset asks. -/
theorem only_reset (scope memo : Text)
    (hwork : ∀ call result, P _ (.work (Staging.control .circuitReset scope memo) call result))
    (hforget : P _ (.forgetVelocity scope)) : Only P (reset scope memo) := by
  refine only_bind (only_argument _ _) fun _ => only_bind (only_mutating h) fun _ =>
    only_bind (only_requireNode h _) fun _ => only_bind (only_served h) fun ledger => ?_
  split_ifs
  · trivial
  · exact only_bind (only_instr (hwork _ _)) fun _ =>
      only_bind (only_instr hforget) fun _ => only_ret _

/-! ### Bodies of calls under a key -/

/-- What a funding does of a call that was not made before. -/
theorem only_funding (scope : Text) (credited : Decimal) (memo : Text) (call : Option Call) :
    Only P (do
      let node ← requireNode scope
      argument (node.parentId.isNone) (.notARoot scope)
      let entry ← commitFor call (Staging.post₁
        (line .funding .credit scope credited none (orElse memo (txt "envelope topped up")) none))
      answered call (.entry entry) : Op Answer) :=
  only_bind (only_requireNode h _) fun n =>
    only_bind (only_argument _ _) fun _ =>
    only_bind (only_commitFor h _ (Staging.only_post₁ (by simp [Stage.Everyday, line]))) fun _ =>
      only_answered h _ _

/-- What a delegation does of a call that was not made before. -/
theorem only_delegating (parent child : Text) (granted : Decimal) (memo : Text)
    (call : Option Call) : Only P (do
      let node ← requireNode parent
      let ledger ← served
      Program.check ((ledger.state.nodes.get? child).isNone) (.duplicateScope child)
      assertNotHalted parent
      let available := ledger.state.balance parent
      let depth := node.depth + 1
      let maximum := (← Program.instr .policy).maxDepth
      Program.check (¬maximum < depth)
        (.subBudgetAllocation granted available parent (some (depth, maximum)))
      Program.check (¬available < granted.worth)
        (.subBudgetAllocation granted available parent none)
      let _ ← commitFor call (delegation parent child granted memo)
      let created ← requireNode child
      answered call (.node created) : Op Answer) :=
  only_bind (only_requireNode h _) fun _ => only_bind (only_served h) fun _ =>
    only_bind (only_check _ _) fun _ => only_bind (only_assertNotHalted h _) fun _ =>
    only_bind (only_instr h.policy) fun _ => only_bind (only_check _ _) fun _ =>
    only_bind (only_check _ _) fun _ =>
    only_bind (only_commitFor h _ (everyday_delegation _ _ _ _)) fun _ =>
    only_bind (only_requireNode h _) fun _ => only_answered h _ _

/-- What a refund does of a call that was not made before, its spend checked if it names one. -/
theorem only_refunding (scope : Text) (credited : Decimal) (memo : Text) (reverses : Option UUID)
    (call : Option Call) {checks : Op PUnit} (hchecks : Only P checks) : Only P (do
      checks
      let s := (← served).state
      let refundable ← (subtract (s.spentBy scope) (s.refundedTo scope) : Except Error Value)
      argument (¬refundable < credited.worth)
        (.refundsTooMuch credited scope (s.spentBy scope) (s.refundedTo scope) refundable)
      let entry ← commitFor call (Staging.post₁
        (line .reversal .credit scope credited none (orElse memo (txt "vendor refund")) reverses))
      answered call (.entry entry) : Op Answer) :=
  only_bind hchecks fun _ => only_bind (only_served h) fun ledger =>
    only_bind (only_lift _) fun _ => only_bind (only_argument _ _) fun _ =>
    only_bind (only_commitFor h _ (Staging.only_post₁ (by simp [Stage.Everyday, line]))) fun _ =>
      only_answered h _ _

/-! ### Settlements -/

section Settlements

variable (hsettle : ∀ tripOnExhaustion a settled memo call,
  P _ (.work (settlement tripOnExhaustion a settled memo) call some))

include hsettle

theorem only_settle (a : Authorization) (settled : Decimal) (memo : Text)
    (call : Option Call) : Only P (settle a settled memo call) := by
  refine only_bind (only_requireOpenAuthorization h a) fun _ => ?_
  split_ifs
  · exact only_voidLocked h _ _ _
  · refine only_bind (only_instr h.policy) fun policy =>
      only_bind (only_instr (hsettle _ _ _ _ _)) fun spend =>
      only_bind (only_answered h _ _) fun answer => ?_
    split_ifs
    · exact only_bind (only_lift _) fun _ => only_raise _
    · trivial

end Settlements

/-! ### Operations that may trip a breaker -/

section Trips

variable (hnote : ∀ scope reason, P _ (.noteTrip scope reason))

include hnote

theorem only_trip (scope reason : Text) : Only P (trip scope reason) := by
  refine only_bind (only_served h) fun ledger => ?_
  split_ifs
  · trivial
  · exact only_bind (only_commit h (Staging.everyday_trip _ _)) fun _ => only_instr (hnote _ _)

theorem only_recordVelocity (scope : Text) : Only P (recordVelocity scope) := by
  refine only_bind (only_instr (h.velocity _)) fun r => ?_
  cases r with
  | none => trivial
  | some r =>
    exact only_bind (only_instr h.policy) fun _ => only_bind (only_trip h hnote _ _) fun _ =>
      only_raise _

theorem only_placeHold (scope : Text) (held : Decimal) (memo : Text) (trips : Bool)
    (call : Option Call) : Only P (placeHold scope held memo trips call) := by
  refine only_bind (only_requireNode h _) fun _ => only_bind (only_assertNotHalted h _) fun _ =>
    only_bind (only_recordVelocity h hnote _) fun _ => only_bind (only_served h) fun ledger => ?_
  dsimp only
  split_ifs
  · trivial
  · refine only_bind (only_instr h.policy) fun policy => ?_
    split_ifs
    · trivial
    · exact only_bind (only_trip h hnote _ _) fun _ => only_raise _
  · exact only_bind (only_commitFor h _ (Staging.only_post₁ (by simp [Stage.Everyday, line]))) fun _ =>
      only_answered h _ _

theorem only_authorizeAs (trips : Bool) (scope : Text) (amount : AmountArg) (memo : Text)
    {key : Option Text} (hkey : ∀ outcome request, P _ (.called key outcome request)) :
    Only P (authorizeAs trips scope amount memo key) :=
  only_bind (only_unit h) fun _ => only_bind (only_lift _) fun _ => only_bind (only_argument _ _)
    fun _ => only_bind (only_mutating h) fun _ =>
      only_keyed _ _ _ (hkey _ _) fun call => only_placeHold h hnote _ _ _ _ call

theorem only_tripByHand (scope reason : Text) : Only P (tripByHand scope reason) :=
  only_bind (only_mutating h) fun _ => only_bind (only_requireNode h _) fun _ =>
    only_bind (only_trip h hnote _ _) fun _ => only_ret _

/-- What a spend does of a call that was not made before. -/
theorem only_spending (hsettle : ∀ tripOnExhaustion a settled memo call,
      P _ (.work (settlement tripOnExhaustion a settled memo) call some))
    (scope : Text) (cost : Decimal) (memo : Text) (call : Option Call) :
    Only P (do
      match ← authorize scope (.number (some cost)) memo none with
      | .authorization a => settle a cost memo call
      | answer => pure answer : Op Answer) := by
  refine only_bind (only_authorizeAs h hnote true _ _ _ h.called) fun answer => ?_
  cases answer with
  | authorization a => exact only_settle h hsettle _ _ _ _
  | node | entry | refused | returned | voided | nothing => trivial

end Trips

end Op

/-! ### Resets and settlements -/

/-- The scope whose breaker a call resets, if it is a reset. -/
def Mutation.resets : Mutation → Option Text
  | .reset scope _ => some scope
  | _ => none

/-- Whether a call settles an authorization. -/
def Mutation.settles : Mutation → Bool
  | .capture .. | .spend .. => true
  | _ => false

/-- Whether a call may post an entry of a kind at a scope: a reset only of the scope it resets, and
a spend only if it settles. -/
def Mutation.MayPost (m : Mutation) (kind : EntryType) (scope : Text) : Prop :=
  (kind = .circuitReset → m.resets = some scope) ∧ (kind = .spend → m.settles = true)

/-- Whether an instruction of a unit of work posts only the kinds of entries that may be posted at
their scopes. -/
def Stage.Posting (may : EntryType → Text → Prop) : (β : Type) → Stage β → Prop
  | _, .post lines => ∀ line ∈ lines, may line.entryType line.scopeId
  | _, .view => True

/-- Whether an instruction of an operation posts only what may be posted. -/
def Instr.Posting (may : EntryType → Text → Prop) : (β : Type) → Instr β → Prop
  | _, .work body _ _ => body.Only (Stage.Posting may)
  | _, _ => True

theorem Stage.Everyday.posting {may : EntryType → Text → Prop}
    (hmay : ∀ kind scope, kind ≠ .circuitReset → kind ≠ .spend → may kind scope) {β : Type}
    {i : Stage β} (h : Stage.Everyday β i) : Stage.Posting may β i := by
  cases i with
  | view => trivial
  | post lines => exact fun line hl => hmay _ _ (h line hl).1 (h line hl).2

theorem Instr.covers_posting {may : EntryType → Text → Prop}
    (hmay : ∀ kind scope, kind ≠ .circuitReset → kind ≠ .spend → may kind scope) :
    Instr.Covers (Instr.Posting may) where
  mutating := trivial
  served := trivial
  policy := trivial
  now := trivial
  called _ _ := trivial
  work _ _ _ h := h.mono fun _ _ hi => hi.posting hmay
  answered _ _ := trivial
  refundedOfSpend _ := trivial
  velocity _ := trivial

/-- A call that settles may post a settlement. -/
theorem Op.of_settlement {m : Mutation} (h : m.settles = true) (tripOnExhaustion : Bool)
    (a : Authorization) (settled : Decimal) (memo : Text) :
    Program.Only (Stage.Posting m.MayPost) (settlement tripOnExhaustion a settled memo) :=
  only_settlement tripOnExhaustion a settled memo trivial
    (by simp [Stage.Posting, Mutation.MayPost, voiding, line, h])
    (by simp [Stage.Posting, Mutation.MayPost, Staging.event])

namespace Op

open Program

/-- An operation posts only what its call may. -/
theorem only_of (m : Mutation) : m.program.Only (Instr.Posting m.MayPost) := by
  have h : Instr.Covers (Instr.Posting m.MayPost) :=
    Instr.covers_posting fun _ _ hreset hspend => ⟨fun hk => absurd hk hreset, fun hk => absurd hk hspend⟩
  have hnote : ∀ scope reason, Instr.Posting m.MayPost _ (.noteTrip scope reason) := fun _ _ => trivial
  cases m with
  | openRoot scope envelope memo => exact only_openRoot h _ _ _
  | fund scope amount memo key =>
    exact only_bind (only_unit h) fun _ => only_bind (only_lift _) fun credited =>
      only_bind (only_argument _ _) fun _ => only_bind (only_mutating h) fun _ =>
      only_keyed _ _ _ trivial fun call => only_funding h scope credited memo call
  | delegate parent child amount memo key =>
    exact only_bind (only_unit h) fun _ => only_bind (only_lift _) fun granted =>
      only_bind (only_argument _ _) fun _ => only_bind (only_argument _ _) fun _ =>
      only_bind (only_mutating h) fun _ =>
      only_keyed _ _ _ trivial fun call => only_delegating h parent child granted memo call
  | release scope amount memo => exact only_release h _ _ _
  | authorize scope amount memo key => exact only_authorizeAs h hnote true _ _ _ fun _ _ => trivial
  | tryAuthorize scope amount memo key =>
    exact only_authorizeAs h hnote false _ _ _ fun _ _ => trivial
  | capture a actualCost memo key =>
    exact only_bind (only_unit h) fun _ => only_bind (only_lift _) fun settled =>
      only_bind (only_argument _ _) fun _ => only_bind (only_mutating h) fun _ =>
      only_keyed _ _ _ trivial fun call =>
        only_settle h (fun _ _ _ _ _ => of_settlement rfl _ _ _ _) a settled memo call
  | void a memo key =>
    exact only_bind (only_mutating h) fun _ => only_keyed _ _ _ trivial fun call =>
      only_bind (only_requireOpenAuthorization h a) fun _ => only_voidLocked h a _ call
  | spend scope amount memo key =>
    exact only_bind (only_unit h) fun _ => only_bind (only_lift _) fun cost =>
      only_bind (only_mutating h) fun _ => only_keyed _ _ _ trivial fun call =>
      only_spending h hnote (fun _ _ _ _ _ => of_settlement rfl _ _ _ _) scope cost memo call
  | refund scope amount memo reverses key =>
    refine only_bind (only_unit h) fun _ => only_bind (only_lift _) fun credited =>
      only_bind (only_argument _ _) fun _ => only_bind (only_mutating h) fun _ =>
      only_keyed _ _ _ trivial fun call => only_bind (only_requireNode h _) fun _ => ?_
    cases reverses with
    | none => exact only_refunding h scope credited memo none call (only_ret ⟨⟩)
    | some ref =>
      exact only_refunding h scope credited memo (some ref) call (only_checkReversed h _ _ _)
  | anchor scope memo => exact only_anchor h _ _
  | voidStale olderThan scope memo => exact only_voidStale h _ _ _
  | trip scope reason => exact only_tripByHand h hnote _ _
  | reset scope memo =>
    refine only_reset h scope memo (fun _ _ => Staging.only_post₁ ?_) trivial
    intro line hl
    obtain rfl := List.mem_singleton.mp hl
    exact ⟨fun _ => rfl, fun kind => by cases kind⟩

end Op

end AgentGov
