import AgentGov.Calls
import AgentGov.Shapes

/-!
# Calls under a key

A call under an idempotency key checks its own arguments, looks up what was recorded under the key,
and only if nothing was is it made. Its identity is the text of its request.

## Main definitions

* `AgentGov.Mutation.asked`: what a call asks under its key, its own arguments accepted.
* `AgentGov.Mutation.residue`: what a call that is refused may leave in the ledger.

## Main results

* `AgentGov.Governor.opens`: a call whose own arguments are accepted is looked up under its key and,
  if it was not made before, is refused or performed.
-/

open Foundation

namespace AgentGov

/-- What a call asks under its key, if it has one. -/
structure Asked where
  key : Option Text
  outcome : Outcome
  request : Request

/-- A call looked up under its key, and made if it was not. -/
def Asked.program (a : Asked) (body : Option Call → Op Answer) : Op Answer :=
  Op.keyed a.key a.outcome a.request.operation a.request.arguments body

namespace Mutation

/-- What a call that may be under a key asks, its own arguments accepted. -/
def asked (unit : Unit) : Mutation → Option (Except Exception Asked)
  | fund scope amount memo key => some do
    let credited ← (credit amount unit : Except Error Decimal)
    if credited.worth ≤ 0 then .error (.value (.fundingNotPositive credited))
    else
      .ok ⟨key, .entry, txt "fund",
        [(txt "scope_id", .text scope), (txt "amount", .amount credited), (txt "memo", .text memo)]⟩
  | delegate parent child amount memo key => some do
    let granted ← (credit amount unit : Except Error Decimal)
    if granted.worth ≤ 0 then .error (.value (.delegatedNotPositive granted))
    else if child = [] then .error (.value .emptyScopeId)
    else
      .ok ⟨key, .node, txt "delegate",
        [(txt "parent_id", .text parent), (txt "child_id", .text child),
         (txt "amount", .amount granted), (txt "memo", .text memo)]⟩
  | authorize scope amount memo key | tryAuthorize scope amount memo key => some do
    let held ← (cost amount unit : Except Error Decimal)
    if held.worth ≤ 0 then .error (.value (.authorizationNotPositive held))
    else
      .ok ⟨key, .authorization, txt "authorize",
        [(txt "scope_id", .text scope), (txt "amount", .amount held), (txt "memo", .text memo)]⟩
  | capture a actualCost memo key => some do
    let settled ← (cost actualCost unit : Except Error Decimal)
    if settled.worth < 0 then .error (.value (.costNegative settled))
    else
      .ok ⟨key, .entry, txt "capture",
        [(txt "authorization_id", .id a.authorizationId), (txt "actual_cost", .amount settled),
         (txt "memo", .text memo)]⟩
  | void a memo key => some <|
    .ok ⟨key, .entry, txt "void",
      [(txt "authorization_id", .id a.authorizationId), (txt "memo", .text memo)]⟩
  | spend scope amount memo key => some do
    let cost ← (cost amount unit : Except Error Decimal)
    .ok ⟨key, .entry, txt "spend",
      [(txt "scope_id", .text scope), (txt "amount", .amount cost), (txt "memo", .text memo)]⟩
  | refund scope amount memo reverses key => some do
    let credited ← (credit amount unit : Except Error Decimal)
    if credited.worth ≤ 0 then .error (.value (.refundNotPositive credited))
    else
      .ok ⟨key, .entry, txt "refund",
        [(txt "scope_id", .text scope), (txt "amount", .amount credited), (txt "memo", .text memo),
         (txt "reverses", match reverses with | none => .none | some ref => .id ref)]⟩
  | _ => none

/-- What a call that is refused may leave in the ledger: the trips of the breaker, and the hold of
a spend that is not settled. -/
def residue : Mutation → List EntryType
  | authorize .. | tryAuthorize .. => [.circuitTripped]
  | spend .. => [.circuitTripped, .hold]
  | _ => []

end Mutation

/-! ### What is made under a key takes no other -/

/-- Whether an instruction is not a call under a key. -/
def Instr.Keyless : (β : Type) → Instr β → Prop
  | _, .called key _ _ => key = none
  | _, _ => True

theorem Instr.keyless : Instr.Covers Instr.Keyless where
  mutating := trivial
  served := trivial
  policy := trivial
  now := trivial
  called _ _ := rfl
  work _ _ _ _ := trivial
  answered _ _ := trivial
  refundedOfSpend _ := trivial
  velocity _ := trivial

theorem Instr.keyless_noteTrip (scope reason : Text) :
    Instr.Keyless _ (.noteTrip scope reason) := trivial

/-! ### How a call is opened -/

namespace Governor

variable {w : World} {g : Governor}

/-- How a call is opened in a ledger of a unit: its own arguments are refused, or it is looked up
under its key and, if it was not made before, settled. -/
def Opens (w : World) (unit : Unit) (m : Mutation) : Except Exception Asked → Prop
  | .error e => ∀ g : Governor, g.ledger.state.unit = unit →
    ∀ (works : (g : Governor) → {β : Type} → Staging β → Option Call →
      (β → Option LedgerEntry) → Prop) (Q : Except Exception Answer → Governor → Prop),
      Meets w works Q m.program g ↔ Q (.error e) g
  | .ok a => ∃ body,
    (∀ g : Governor, g.ledger.state.unit = unit →
      ∀ (works : (g : Governor) → {β : Type} → Staging β → Option Call →
        (β → Option LedgerEntry) → Prop) (Q : Except Exception Answer → Governor → Prop),
        Meets w works Q m.program g ↔ Meets w works Q (a.program body) g) ∧
    (∀ call, (body call).Only Instr.Keyless) ∧
    ∀ (t : Governor) (call : Option Call), t.Unused call →
      (∀ c, call = some c → c.outcome = a.outcome) →
      Meets w Work (t.Settled m.residue call) (body call) t

section Rules

variable {works : (g : Governor) → {β : Type} → Staging β → Option Call →
    (β → Option LedgerEntry) → Prop} {Q : Except Exception Answer → Governor → Prop}

theorem meets_lift_ok_bind {β : Type} {b : β} {f : β → Op Answer} :
    Meets w works Q ((liftM (Except.ok b : Except Error β) : Op β) >>= f) g ↔
      Meets w works Q (f b) g := Iff.rfl

theorem meets_lift_error_bind {β : Type} {e : Error} {f : β → Op Answer} :
    Meets w works Q ((liftM (Except.error e : Except Error β) : Op β) >>= f) g ↔
      Q (.error (.rule e)) g := Iff.rfl

theorem meets_argument_iff {c : Prop} [Decidable c] {fault : ArgumentFault}
    {f : PUnit → Op Answer} : Meets w works Q (Op.argument c fault >>= f) g ↔
      (c → Meets w works Q (f ⟨⟩) g) ∧ (¬c → Q (.error (.value fault)) g) :=
  Program.meets_check_bind

/-- A call under no key is made. -/
theorem meets_keyed_none_bind {outcome : Outcome} {operation : Text}
    {arguments : List (Text × Argument)} {body : Option Call → Op Answer}
    {f : Answer → Op Answer} :
    Meets w works Q (Op.keyed none outcome operation arguments body >>= f) g ↔
      Meets w works Q (body none >>= f) g := by
  rw [Op.keyed, bind_assoc]
  have hcalled : handle w _ (.called none outcome ⟨operation, arguments⟩) g = (.ok none, g) := rfl
  exact meets_reply hcalled trivial

/-- An authorization of an amount that is not refused places a hold. -/
theorem meets_authorize_bind {f : Answer → Op Answer} (scope : Text) (amount : AmountArg)
    (memo : Text) (hraise : ∀ e, Q (.error e) g)
    (h : ∀ held, Meets w works Q (Op.placeHold scope held memo true none >>= f) g) :
    Meets w works Q (Op.authorize scope amount memo none >>= f) g := by
  rw [Op.authorize, Op.authorizeAs]
  simp only [bind_assoc]
  rw [meets_unit_bind, meets_lift_bind hraise]
  intro held _
  rw [meets_argument_bind hraise]
  intro _
  rw [meets_mutating_bind, meets_keyed_none_bind]
  exact h held

/-- A refund that names a spend is of what that spend has left. -/
theorem meets_checkReversed_bind {scope : Text} {credited : Decimal} {ref : UUID}
    {f : PUnit → Op Answer} (hraise : ∀ e, Q (.error e) g) (h : Meets w works Q (f ⟨⟩) g) :
    Meets w works Q (Op.checkReversed scope credited ref >>= f) g := by
  rw [Op.checkReversed, bind_assoc, meets_served_bind]
  cases g.ledger.resolve ref with
  | none => exact hraise _
  | some spend =>
    dsimp only
    rw [bind_assoc, meets_argument_bind hraise]
    intro _
    rw [bind_assoc, meets_argument_bind hraise]
    intro _
    rw [bind_assoc, meets_refundedOfSpend_bind hraise]
    intro refunded _
    rw [bind_assoc, meets_lift_bind hraise]
    intro left _
    rw [meets_argument_bind hraise]
    exact fun _ => h

end Rules

section Opens

variable {unit : Unit} {x : Except Exception Asked}

theorem opens_fund (scope : Text) (amount : AmountArg) (memo : Text) (key : Option Text)
    (hx : (Mutation.fund scope amount memo key).asked unit = some x) :
    Opens w unit (.fund scope amount memo key) x := by
  obtain rfl := Option.some.inj hx
  cases hc : credit amount unit with
  | error e =>
    intro g hu works Q
    simp only [Mutation.program, Op.fund, meets_unit_bind, hu, hc]
    exact meets_lift_error_bind
  | ok credited =>
    by_cases hpos : credited.worth ≤ 0 <;> change Opens w unit _ (ite _ _ _)
    · rw [if_pos hpos]
      intro g hu works Q
      simp [Mutation.program, Op.fund, hu, hc, meets_lift_ok_bind, meets_argument_iff, hpos]
    · rw [if_neg hpos]
      apply Exists.intro
      refine ⟨fun g hu works Q => ?_, fun call => ?_, fun t call unused outcome => ?_⟩
      · simp only [Mutation.program, Op.fund, meets_unit_bind, hu, hc, meets_lift_ok_bind,
          meets_argument_iff, hpos, not_true_eq_false, not_false_eq_true, IsEmpty.forall_iff,
          forall_const, and_true, meets_mutating_bind]
        exact Iff.rfl
      · exact Op.only_funding Instr.keyless scope credited memo call
      · have hraise (e : Exception) : t.Settled (Mutation.fund scope amount memo key).residue call
            (.error e) t := (Leaves.refl _ t).raised e
        rw [meets_requireNode_bind hraise]
        intro n known
        rw [meets_argument_bind hraise]
        intro root
        refine meets_commitFor_bind (.fund scope credited _ call n known (by simpa using root) unused)
          (fun e n => (leaves_draws t n _).raised e) fun e p hp => ?_
        have hentries : p.entries = [e] := (Staging.post₁_ok hp).entries
        exact meets_answered.mpr (.performed _ (Or.inl rfl)
          (recorded_entry (by simp [hentries]) outcome))

theorem opens_delegate (parent child : Text) (amount : AmountArg) (memo : Text)
    (key : Option Text)
    (hx : (Mutation.delegate parent child amount memo key).asked unit = some x) :
    Opens w unit (.delegate parent child amount memo key) x := by
  obtain rfl := Option.some.inj hx
  cases hc : credit amount unit with
  | error e =>
    intro g hu works Q
    simp only [Mutation.program, Op.delegate, meets_unit_bind, hu, hc]
    exact meets_lift_error_bind
  | ok granted =>
    by_cases hpos : granted.worth ≤ 0 <;> change Opens w unit _ (ite _ _ (ite _ _ _))
    · rw [if_pos hpos]
      intro g hu works Q
      simp [Mutation.program, Op.delegate, hu, hc, meets_lift_ok_bind, meets_argument_iff, hpos]
    by_cases named : child = []
    · rw [if_neg hpos, if_pos named]
      intro g hu works Q
      simp [Mutation.program, Op.delegate, hu, hc, meets_lift_ok_bind, meets_argument_iff, named,
        not_le.mp hpos]
    · rw [if_neg hpos, if_neg named]
      apply Exists.intro
      refine ⟨fun g hu works Q => ?_, fun call => ?_, fun t call unused outcome => ?_⟩
      · simp only [Mutation.program, Op.delegate, meets_unit_bind, hu, hc, meets_lift_ok_bind,
          meets_argument_iff, hpos, ne_eq, named, not_true_eq_false, not_false_eq_true,
          IsEmpty.forall_iff, forall_const, and_true, meets_mutating_bind]
        exact Iff.rfl
      · exact Op.only_delegating Instr.keyless parent child granted memo call
      · have hraise (e : Exception) : t.Settled (Mutation.delegate parent child amount memo
            key).residue call (.error e) t := (Leaves.refl _ t).raised e
        rw [meets_requireNode_bind hraise]
        intro n known
        rw [meets_served_bind, meets_check_bind hraise]
        intro new
        rw [meets_assertNotHalted_bind hraise]
        intro active
        rw [meets_policy_bind, meets_check_bind hraise]
        intro shallow
        rw [meets_check_bind hraise]
        intro covered
        refine meets_commitFor_bind (.delegate parent child granted memo call n named known
          (by simpa using new) active covered unused) (fun e n => (leaves_draws t n _).raised e)
          fun e p hp => ?_
        obtain ⟨debit, note, posted⟩ := Op.delegation_ok hp
        have he : e ∈ p.entries := by simp [posted.entries]
        have records := (List.forall₂_cons.mp (List.forall₂_cons.mp posted.records).2).1
        have kind : e.entryType = .allocation := records.kind
        have scope : e.scopeId = child := records.scope
        set s := t.commit p (call.map fun c => (c, e)) with hs
        have hmem : e ∈ s.ledger.entries := by
          rw [hs, ledger_commit, if_neg fun hnil => List.ne_nil_of_mem he hnil.1]
          exact List.mem_append_right _ he
        rw [Op.requireNode, bind_assoc, meets_served_bind]
        cases hnode : s.ledger.state.nodes.get? child with
        | none =>
          exact .lost e hmem ⟨kind, records.direction⟩ (scope ▸ hnode)
        | some created =>
          refine meets_answered.mpr (.performed _ (Or.inl rfl) (recorded_commit he fun c hc => ?_))
          rw [answerIn, show (record c e).outcome = c.outcome from rfl, outcome c hc]
          change (if e.entryType = .allocation then _ else _) = _
          rw [if_pos kind, scope, ← hs, hnode]
          rfl

theorem opens_authorizeAs {m : Mutation} (trips : Bool) (scope : Text) (amount : AmountArg)
    (memo : Text) (key : Option Text)
    (hm : m = if trips then .authorize scope amount memo key else .tryAuthorize scope amount memo key)
    (hx : m.asked unit = some x) : Opens w unit m x := by
  have hprogram : m.program = Op.authorizeAs trips scope amount memo key := by
    subst hm
    cases trips <;> rfl
  have hresidue : m.residue = [.circuitTripped] := by
    subst hm
    cases trips <;> rfl
  have hasked : m.asked unit =
      (Mutation.authorize scope amount memo key).asked unit := by
    subst hm
    cases trips <;> rfl
  rw [hasked] at hx
  obtain rfl := Option.some.inj hx
  cases hc : cost amount unit with
  | error e =>
    intro g hu works Q
    simp only [hprogram, Op.authorizeAs, meets_unit_bind, hu, hc]
    exact meets_lift_error_bind
  | ok held =>
    by_cases hpos : held.worth ≤ 0 <;> change Opens w unit _ (ite _ _ _)
    · rw [if_pos hpos]
      intro g hu works Q
      simp [hprogram, Op.authorizeAs, hu, hc, meets_lift_ok_bind, meets_argument_iff, hpos]
    · rw [if_neg hpos]
      refine ⟨Op.placeHold scope held memo trips, fun g hu works Q => ?_, Op.only_placeHold Instr.keyless
        Instr.keyless_noteTrip _ _ _ _,
        fun t call unused outcome => ?_⟩
      · simp only [hprogram, Op.authorizeAs, meets_unit_bind, hu, hc, meets_lift_ok_bind,
          meets_argument_iff, hpos, not_true_eq_false, not_false_eq_true, IsEmpty.forall_iff,
          forall_const, and_true, meets_mutating_bind]
        exact Iff.rfl
      · rw [hresidue]
        exact meets_placeHold scope held memo trips unused outcome

theorem opens_capture (a : Authorization) (actualCost : AmountArg) (memo : Text)
    (key : Option Text)
    (hx : (Mutation.capture a actualCost memo key).asked unit = some x) :
    Opens w unit (.capture a actualCost memo key) x := by
  obtain rfl := Option.some.inj hx
  cases hc : cost actualCost unit with
  | error e =>
    intro g hu works Q
    simp only [Mutation.program, Op.capture, meets_unit_bind, hu, hc]
    exact meets_lift_error_bind
  | ok settled =>
    by_cases hneg : settled.worth < 0 <;> change Opens w unit _ (ite _ _ _)
    · rw [if_pos hneg]
      intro g hu works Q
      simp [Mutation.program, Op.capture, hu, hc, meets_lift_ok_bind, meets_argument_iff, hneg]
    · rw [if_neg hneg]
      refine ⟨Op.settle a settled memo, fun g hu works Q => ?_, Op.only_settle Instr.keyless
        (fun _ _ _ _ _ => trivial) _ _ _,
        fun t call unused outcome => ?_⟩
      · simp only [Mutation.program, Op.capture, meets_unit_bind, hu, hc, meets_lift_ok_bind,
          meets_argument_iff, hneg, not_true_eq_false, not_false_eq_true, IsEmpty.forall_iff,
          forall_const, and_true, meets_mutating_bind]
        exact Iff.rfl
      · exact meets_settle a settled memo unused outcome _

theorem opens_void (a : Authorization) (memo : Text) (key : Option Text)
    (hx : (Mutation.void a memo key).asked unit = some x) :
    Opens w unit (.void a memo key) x := by
  obtain rfl := Option.some.inj hx
  apply Exists.intro
  refine ⟨fun g hu works Q => ?_, fun call => ?_, fun t call unused outcome => ?_⟩
  · simp only [Mutation.program, Op.void, meets_mutating_bind]
    exact Iff.rfl
  · exact Program.only_bind (Op.only_requireOpenAuthorization Instr.keyless a) fun _ =>
      Op.only_voidLocked Instr.keyless _ _ _
  · rw [meets_requireOpenAuthorization_bind fun e => (Leaves.refl _ t).raised e]
    exact fun opened => meets_voidLocked a _ opened unused outcome _

theorem opens_spend (scope : Text) (amount : AmountArg) (memo : Text) (key : Option Text)
    (hx : (Mutation.spend scope amount memo key).asked unit = some x) :
    Opens w unit (.spend scope amount memo key) x := by
  obtain rfl := Option.some.inj hx
  cases hc : cost amount unit with
  | error e =>
    intro g hu works Q
    simp only [Mutation.program, Op.spend, meets_unit_bind, hu, hc]
    exact meets_lift_error_bind
  | ok cost =>
    apply Exists.intro
    refine ⟨fun g hu works Q => ?_, fun call => ?_, fun t call unused outcome => ?_⟩
    · simp only [Mutation.program, Op.spend, meets_unit_bind, hu, hc, meets_lift_ok_bind,
        meets_mutating_bind]
      exact Iff.rfl
    · exact Op.only_spending Instr.keyless Instr.keyless_noteTrip (fun _ _ _ _ _ => trivial) scope
        cost memo call
    · have raises (e : Exception) (u : Governor) (hu : t.Leaves [.circuitTripped] u) :
          t.Settled (Mutation.spend scope amount memo key).residue call (.error e) u :=
        (hu.mono (by simp [Mutation.residue])).raised e
      refine meets_authorize_bind scope _ memo (raises · t (.refl _ t)) fun held => ?_
      refine meets_placeHold_bind scope held memo true (fun c hc => by cases hc)
        (fun c hc => by cases hc) raises (fun u hu => .refused (Or.inl rfl) (hu.mono (by simp [Mutation.residue])))
        fun e u recorded leaves => ?_
      have hu := leaves rfl
      have hsettle := meets_settle (w := w) (g := u) (authorizationFor e) cost memo
        (hu.toIdle.unused unused) outcome [.circuitTripped, .hold]
      exact hsettle.mono fun r v hv => (hu.mono (by simp [Mutation.residue])).settled hv

theorem opens_refund (scope : Text) (amount : AmountArg) (memo : Text) (reverses : Option UUID)
    (key : Option Text)
    (hx : (Mutation.refund scope amount memo reverses key).asked unit = some x) :
    Opens w unit (.refund scope amount memo reverses key) x := by
  obtain rfl := Option.some.inj hx
  cases hc : credit amount unit with
  | error e =>
    intro g hu works Q
    simp only [Mutation.program, Op.refund, meets_unit_bind, hu, hc]
    exact meets_lift_error_bind
  | ok credited =>
    by_cases hpos : credited.worth ≤ 0 <;> change Opens w unit _ (ite _ _ _)
    · rw [if_pos hpos]
      intro g hu works Q
      simp [Mutation.program, Op.refund, hu, hc, meets_lift_ok_bind, meets_argument_iff, hpos]
    · rw [if_neg hpos]
      apply Exists.intro
      refine ⟨fun g hu works Q => ?_, fun call => ?_, fun t call unused outcome => ?_⟩
      · simp only [Mutation.program, Op.refund, meets_unit_bind, hu, hc, meets_lift_ok_bind,
          meets_argument_iff, hpos, not_true_eq_false, not_false_eq_true, IsEmpty.forall_iff,
          forall_const, and_true, meets_mutating_bind]
        exact Iff.rfl
      · refine Program.only_bind (Op.only_requireNode Instr.keyless _) fun n => ?_
        cases reverses with
        | none =>
          exact Op.only_refunding Instr.keyless scope credited memo none call (Program.only_ret ⟨⟩)
        | some ref =>
          exact Op.only_refunding Instr.keyless scope credited memo (some ref) call
            (Op.only_checkReversed Instr.keyless _ _ _)
      · have hraise (e : Exception) : t.Settled (Mutation.refund scope amount memo reverses
            key).residue call (.error e) t := (Leaves.refl _ t).raised e
        rw [meets_requireNode_bind hraise]
        intro n known
        have rest : ∀ checks : Op PUnit,
            (∀ f : PUnit → Op Answer,
              Meets w Work (t.Settled (Mutation.refund scope amount memo reverses key).residue call)
                (f ⟨⟩) t →
              Meets w Work (t.Settled (Mutation.refund scope amount memo reverses key).residue call)
                (checks >>= f) t) →
            Meets w Work (t.Settled (Mutation.refund scope amount memo reverses key).residue call)
              (do
                checks
                let s := (← Op.served).state
                let refundable ← (subtract (s.spentBy scope) (s.refundedTo scope) : Except Error Value)
                Op.argument (¬refundable < credited.worth)
                  (.refundsTooMuch credited scope (s.spentBy scope) (s.refundedTo scope) refundable)
                let entry ← Op.commitFor call (Staging.post₁ (Op.line .reversal .credit scope credited
                  none (orElse memo (txt "vendor refund")) reverses))
                Op.answered call (.entry entry)) t := by
          intro checks hchecks
          refine hchecks _ ?_
          rw [meets_served_bind, meets_lift_bind hraise]
          intro refundable _
          rw [meets_argument_bind hraise]
          intro _
          refine meets_commitFor_bind (.refund scope credited _ reverses call n known unused)
            (fun e n => (leaves_draws t n _).raised e) fun e p hp => ?_
          have hentries : p.entries = [e] := (Staging.post₁_ok hp).entries
          exact meets_answered.mpr (.performed _ (Or.inl rfl)
            (recorded_entry (by simp [hentries]) outcome))
        cases reverses with
        | none => exact rest (pure ⟨⟩) fun f hf => hf
        | some ref => exact rest (Op.checkReversed scope credited ref) fun f hf =>
            meets_checkReversed_bind hraise hf

/-- A call that may be under a key is opened. -/
theorem opens (w : World) (m : Mutation)
    (hx : m.asked unit = some x) : Opens w unit m x := by
  cases m with
  | fund scope amount memo key => exact opens_fund scope amount memo key hx
  | delegate parent child amount memo key => exact opens_delegate parent child amount memo key hx
  | authorize scope amount memo key => exact opens_authorizeAs true scope amount memo key rfl hx
  | tryAuthorize scope amount memo key => exact opens_authorizeAs false scope amount memo key rfl hx
  | capture a actualCost memo key => exact opens_capture a actualCost memo key hx
  | void a memo key => exact opens_void a memo key hx
  | spend scope amount memo key => exact opens_spend scope amount memo key hx
  | refund scope amount memo reverses key => exact opens_refund scope amount memo reverses key hx
  | openRoot => cases hx
  | release => cases hx
  | anchor => cases hx
  | voidStale => cases hx
  | trip => cases hx
  | reset => cases hx

end Opens

/-! ### A call as it runs -/

/-- What a call does, in a ledger of a unit, that may be under a key: its own arguments are refused,
or it is looked up and made. -/
def Runs (w : World) (unit : Unit) (m : Mutation) : Except Exception Asked → Prop
  | .error e => ∀ g : Governor, g.ledger.state.unit = unit → g.perform w m = (.error e, g)
  | .ok a => ∃ body,
    (∀ g : Governor, g.ledger.state.unit = unit →
      g.perform w m = (a.program body).run (handle w) g) ∧
    (∀ call, (body call).Only Instr.Keyless) ∧
    ∀ (t : Governor) (call : Option Call), t.Unused call →
      (∀ c, call = some c → c.outcome = a.outcome) →
      Meets w Work (t.Settled m.residue call) (body call) t

theorem runs_of_asked {unit : Unit} {m : Mutation} {x : Except Exception Asked}
    (hx : m.asked unit = some x) : Runs w unit m x := by
  have h := opens w m hx
  have hall : ∀ (β : Type) (i : Instr β) (t : Governor),
      t.Asks (fun _ _ _ _ _ => True) i := by
    intro β i t
    cases i <;> trivial
  cases x with
  | error e => exact fun g hu => (h g hu _ _).mp (Program.meets_run hall _ _)
  | ok a =>
    obtain ⟨body, hprogram, hbody⟩ := h
    refine ⟨body, fun g hu => ?_, hbody⟩
    have hmeets := (hprogram g hu (fun _ _ _ _ _ => True)
      fun r t => (a.program body).run (handle w) g = (r, t)).mpr (Program.meets_run hall _ _)
    exact hmeets.run.symm

end Governor

end AgentGov
