import AgentGov.Keys
import AgentGov.Settling

/-!
# Settling holds

A metered call places its hold with the governor, and asks it once more to capture the hold or to
void it. What was asked about holds is written down with the governor before and after, beside
what others do with the governor in between (`src/src/agentgov/core.py`, lines 5836–5987).

## Main definitions

* `AgentGov.Metering.Ask`: a capture or a void of a hold.
* `AgentGov.Metering.Deed`: what was asked, and what the governor made of it.
* `AgentGov.Metering.Desk`: a governor and the deeds on it.

## Main results

* `AgentGov.Metering.capture_settles`: a capture that is carried out leaves a spend of its cost,
  or the release of the hold at no cost.
* `AgentGov.Metering.capture_carried`, `AgentGov.Metering.void_carried`: what is asked about a hold
  that is still open is carried out.
-/

open Foundation

namespace AgentGov.Metering

/-- What a metered call asks of the governor about a hold. -/
inductive Ask
  | capture (a : Authorization) (cost : Decimal) (memo : Text)
  | void (a : Authorization) (memo : Text)
deriving DecidableEq

namespace Ask

/-- The hold it is about. -/
def hold : Ask → Authorization
  | capture a _ _ | void a _ => a

/-- The memo it is asked with. -/
def memo : Ask → Text
  | capture _ _ memo | void _ memo => memo

/-- The call that is made. -/
def mutation : Ask → Mutation
  | capture a cost memo => .capture a (.number (some cost)) memo none
  | void a memo => .void a memo none

end Ask

/-- What was asked about a hold, and what the governor made of it. -/
structure Deed where
  ask : Ask
  before : Governor
  answer : Except Exception Answer
  after : Governor

namespace Deed

/-- Whether the governor carried out what it was asked: it answered, or it raised once it had
written, as it does where a cost overdraws the scope. -/
def Carried (x : Deed) : Prop :=
  (∃ answer, x.answer = .ok answer) ∨ x.after.ledger.entries ≠ x.before.ledger.entries

/-- Whether the hold was still open when this was asked. -/
def Open (w : World) (x : Deed) : Prop := x.before.Open w x.ask.hold

/-- Whether an entry releases the hold. -/
def ReleasedBy (x : Deed) (release : LedgerEntry) : Prop :=
  release.entryType = .holdVoid ∧ release.ref = some x.ask.hold.entry.entryId ∧
    release.scopeId = x.ask.hold.scopeId

/-- Whether the hold was released and an amount was spent for it, once. Nothing else is written
with it but the trip of its scope, where that is overdrawn or spent out. -/
def Spends (x : Deed) (amount : Decimal) : Prop :=
  ∃ release spend trips,
    x.after.ledger.entries = x.before.ledger.entries ++ release :: spend :: trips ∧
    x.ReleasedBy release ∧
    spend.entryType = .spend ∧ spend.ref = some x.ask.hold.entry.entryId ∧
    spend.scopeId = x.ask.hold.scopeId ∧ spend.worth = amount.worth ∧
    (trips = [] ∨ ∃ trip, trips = [trip] ∧ trip.Trips x.ask.hold.scopeId)

/-- Whether the hold was released, and nothing was spent. -/
def Releases (x : Deed) : Prop :=
  ∃ release, x.after.ledger.entries = x.before.ledger.entries ++ [release] ∧ x.ReleasedBy release

/-- Whether the hold was settled at an amount. -/
def Settles (x : Deed) (amount : Decimal) : Prop :=
  if amount.worth = 0 then x.Releases else x.Spends amount

end Deed

/-- The hold an authorization has placed, if it has. -/
def heldIn : Except Exception Answer → List Authorization
  | .ok (.authorization a) => [a]
  | _ => []

theorem heldIn_eq_nil {r : Except Exception Answer} (h : ∀ a, r ≠ .ok (.authorization a)) :
    heldIn r = [] := by
  rcases r with _ | answer
  · rfl
  · cases answer with
    | authorization a => exact absurd rfl (h a)
    | _ => rfl

theorem exists_of_heldIn {r : Except Exception Answer} (h : heldIn r ≠ []) :
    ∃ a, r = .ok (.authorization a) := by
  by_contra hnone
  exact h (heldIn_eq_nil fun a ha => hnone ⟨a, ha⟩)

/-- A governor, with the holds metered calls have placed and what they asked of it about them. -/
structure Desk where
  governor : Governor
  placed : List Authorization := []
  deeds : List Deed := []

namespace Desk

variable (w : World) (d : Desk)

/-- `manager.authorize`. -/
def authorize (scope : Text) (hold : Decimal) (memo : Text) : Except Exception Answer × Desk :=
  let r := d.governor.call w (.authorize scope (.number (some hold)) memo none)
  (r.1, { d with governor := r.2, placed := d.placed ++ heldIn r.1 })

/-- `manager.capture` or `manager.void`. -/
def settle (ask : Ask) : Except Exception Answer × Desk :=
  let r := d.governor.call w ask.mutation
  (r.1, { d with governor := r.2, deeds := d.deeds ++ [⟨ask, d.governor, r.1, r.2⟩] })

/-- What others do with the governor. -/
def meanwhile (commands : List Governor.Command) : Desk :=
  { d with governor := d.governor.run w commands }

/-- What is written down of an ask. -/
def deed (ask : Ask) : Deed :=
  ⟨ask, d.governor, (d.settle w ask).1, (d.settle w ask).2.governor⟩

@[simp] theorem deeds_settle (ask : Ask) :
    (d.settle w ask).2.deeds = d.deeds ++ [d.deed w ask] := rfl

@[simp] theorem placed_settle (ask : Ask) : (d.settle w ask).2.placed = d.placed := rfl

@[simp] theorem deeds_authorize (scope : Text) (hold : Decimal) (memo : Text) :
    (d.authorize w scope hold memo).2.deeds = d.deeds := rfl

@[simp] theorem deeds_meanwhile (commands : List Governor.Command) :
    (d.meanwhile w commands).deeds = d.deeds := rfl

end Desk

/-! ### What a capture leaves -/

section Capture

variable {w : World} {g : Governor} {a : Authorization}

/-- How the settlement of a hold ends: nothing is written and it raises, or the hold is settled. -/
def SettledAt (g : Governor) (a : Authorization) (settled : Decimal)
    (r : Except Exception Answer) (t : Governor) : Prop :=
  (∃ e, r = .error e) ∧ t.ledger.entries = g.ledger.entries ∨
    ∀ memo cost, (⟨.capture a cost memo, g, r, t⟩ : Deed).Settles settled

/-- The release of a hold is the entry it is recorded by. -/
theorem releases_posted {p : Pending} {e : LedgerEntry} {memo : Text}
    {r : Except Exception Answer} (ask : Ask)
    (h : Posted w g.begin [Op.voiding ask.hold memo] [e] p) :
    (⟨ask, g, r, g.commit p none⟩ : Deed).Releases := by
  have hentries : p.entries = [e] := h.entries
  have hrec := (List.forall₂_cons.mp h.records).1
  refine ⟨e, ?_, hrec.kind, hrec.ref, hrec.scope⟩
  have hledger := Governor.ledger_commit (g := g) p none
  rw [if_neg fun hn => by simp [hentries] at hn] at hledger
  simp [hledger, hentries]

/-- The spend of a settlement is worth what is settled. -/
theorem spends_settlement {p : Pending} {e : LedgerEntry} {settled : Decimal}
    {r : Except Exception Answer} (ask : Ask)
    (h : Op.Settlement w ask.hold settled g.begin e p) :
    (⟨ask, g, r, g.commit p none⟩ : Deed).Spends settled := by
  have released {release : LedgerEntry} {note : Text} {p₁ : Pending}
      (pair : Posted w g.begin [Op.voiding ask.hold (txt "authorization captured"),
        Op.line .spend .debit ask.hold.scopeId settled none note (some ask.hold.entry.entryId)]
        [release, e] p₁) : (⟨ask, g, r, g.commit p none⟩ : Deed).ReleasedBy release := by
    have hrec := (List.forall₂_cons.mp pair.records).1
    exact ⟨hrec.kind, hrec.ref, hrec.scope⟩
  have spent {release : LedgerEntry} {note : Text} {p₁ : Pending}
      (pair : Posted w g.begin [Op.voiding ask.hold (txt "authorization captured"),
        Op.line .spend .debit ask.hold.scopeId settled none note (some ask.hold.entry.entryId)]
        [release, e] p₁) :
      e.entryType = .spend ∧ e.ref = some ask.hold.entry.entryId ∧
        e.scopeId = ask.hold.scopeId ∧ e.worth = settled.worth := by
    have hrec := (List.forall₂_cons.mp (List.forall₂_cons.mp pair.records).2).1
    exact ⟨hrec.kind, hrec.ref, hrec.scope, hrec.worth rfl⟩
  have hledger := Governor.ledger_commit (g := g) p none
  cases h with
  | settled release note pair latched =>
    have hentries : p.entries = [release, e] := pair.entries
    rw [if_neg fun hn => by simp [hentries] at hn] at hledger
    obtain ⟨kind, ref, scope, worth⟩ := spent pair
    exact ⟨release, e, [], by simp [hledger, hentries], released pair, kind, ref, scope, worth,
      Or.inl rfl⟩
  | tripped release trip note reason p₁ pair trips reasons =>
    have hentries : p.entries = [release, e, trip] := by
      rw [trips.entries, pair.entries]
      rfl
    rw [if_neg fun hn => by simp [hentries] at hn] at hledger
    obtain ⟨kind, ref, scope, worth⟩ := spent pair
    have htrip := (List.forall₂_cons.mp trips.records).1
    exact ⟨release, e, [trip], by simp [hledger, hentries], released pair, kind, ref, scope, worth,
      Or.inr ⟨trip, rfl, htrip.kind, htrip.scope⟩⟩

/-- A release under no key. -/
theorem meets_void (memo : Text) :
    Governor.Meets w Governor.Work (fun r t =>
      (∃ e, r = .error e) ∧ t.ledger.entries = g.ledger.entries ∨
        (⟨.void a memo, g, r, t⟩ : Deed).Releases) (Mutation.void a memo none).program g := by
  have unused : g.Unused none := fun c hc => by cases hc
  rw [show (Mutation.void a memo none).program = Op.void a memo none from rfl, Op.void,
    Governor.meets_mutating_bind, ← bind_pure (Op.keyed _ _ _ _ _),
    Governor.meets_keyed_none_bind, bind_pure,
    Governor.meets_requireOpenAuthorization_bind fun e => Or.inl ⟨⟨e, rfl⟩, rfl⟩]
  intro opened
  rw [Op.voidLocked]
  refine Governor.meets_commitFor_bind (.void a _ none opened unused)
    (fun e n => Or.inl ⟨⟨e, rfl⟩, rfl⟩) fun e p hp => ?_
  rw [Governor.meets_answered]
  exact Or.inr (releases_posted (.void a memo) (Staging.post₁_ok hp))

/-- A settlement under no key. -/
theorem meets_settle (settled : Decimal) (memo : Text) :
    Governor.Meets w Governor.Work (SettledAt g a settled) (Op.settle a settled memo none) g := by
  have hraise (e : Exception) : SettledAt g a settled (.error e) g := Or.inl ⟨⟨e, rfl⟩, rfl⟩
  have unused : g.Unused none := fun c hc => by cases hc
  rw [Op.settle, Governor.meets_requireOpenAuthorization_bind hraise]
  intro opened
  split_ifs with hzero
  · rw [Op.voidLocked]
    refine Governor.meets_commitFor_bind (.void a _ none opened unused)
      (fun e n => Or.inl ⟨⟨e, rfl⟩, rfl⟩) fun e p hp => ?_
    rw [Governor.meets_answered]
    refine Or.inr fun memo cost => ?_
    rw [Deed.Settles, if_pos hzero]
    exact releases_posted (.capture a cost memo) (Staging.post₁_ok hp)
  · rw [Governor.meets_policy_bind]
    refine Governor.meets_commitFor_bind (.settle a settled memo none opened unused)
      (fun e n => Or.inl ⟨⟨e, rfl⟩, rfl⟩) fun e p hp => ?_
    have hspends (r : Except Exception Answer) : SettledAt g a settled r (g.commit p none) := by
      refine Or.inr fun memo cost => ?_
      rw [Deed.Settles, if_neg hzero]
      exact spends_settlement (.capture a cost memo) (Op.settlement_ok hp)
    rw [Governor.meets_answered_bind]
    split_ifs
    · change Governor.Meets w _ (SettledAt g a settled) _ (g.commit p none)
      rw [Governor.meets_lift_bind fun e => hspends (.error e)]
      exact fun _ _ => hspends _
    · exact hspends _

/-- What a capture under no key comes to: its cost is not one, or the hold is settled at it. -/
theorem meets_capture (amount : Decimal) (memo : Text) :
    Governor.Meets w Governor.Work (fun r t =>
      (∃ e, r = .error e) ∧ t.ledger.entries = g.ledger.entries ∨
        ∃ settled, cost (.number (some amount)) g.ledger.state.unit = .ok settled ∧
          SettledAt g a settled r t)
      (Mutation.capture a (.number (some amount)) memo none).program g := by
  rw [show (Mutation.capture a (.number (some amount)) memo none).program =
    Op.capture a (.number (some amount)) memo none from rfl, Op.capture,
    Governor.meets_unit_bind, Governor.meets_lift_bind fun e => Or.inl ⟨⟨e, rfl⟩, rfl⟩]
  intro settled hsettled
  rw [Governor.meets_argument_bind fun e => Or.inl ⟨⟨e, rfl⟩, rfl⟩]
  intro _
  rw [Governor.meets_mutating_bind, ← bind_pure (Op.keyed _ _ _ _ _),
    Governor.meets_keyed_none_bind, bind_pure]
  exact (meets_settle settled memo).mono fun r t h => Or.inr ⟨settled, hsettled, h⟩

/-- What is carried out was not refused. -/
theorem Deed.Carried.not_refused {x : Deed} (h : x.Carried) :
    ¬((∃ e, x.answer = .error e) ∧ x.after.ledger.entries = x.before.ledger.entries) := by
  rintro ⟨⟨e, he⟩, hsame⟩
  rcases h with ⟨answer, hanswer⟩ | hne
  · exact absurd (he.symm.trans hanswer) (by simp)
  · exact hne hsame

/-- A void that is carried out releases the hold, and nothing is spent. -/
theorem void_releases (d : Desk) {memo : Text} (carried : (d.deed w (.void a memo)).Carried) :
    (d.deed w (.void a memo)).Releases := by
  have h := (meets_void (w := w) (g := d.governor) (a := a) memo).run
  exact h.resolve_left carried.not_refused

/-- A capture that is carried out leaves a spend of its cost, or the release of the hold at no
cost. -/
theorem capture_settles (d : Desk) {amount : Decimal} {memo : Text}
    (carried : (d.deed w (.capture a amount memo)).Carried) :
    ∃ settled, cost (.number (some amount)) d.governor.ledger.state.unit = .ok settled ∧
      (d.deed w (.capture a amount memo)).Settles settled := by
  have h := (meets_capture (w := w) (g := d.governor) (a := a) amount memo).run
  obtain ⟨settled, hsettled, hdone⟩ := h.resolve_left carried.not_refused
  exact ⟨settled, hsettled, (hdone.resolve_left carried.not_refused) memo amount⟩

end Capture

/-! ### Holds that are still open -/

section Opened

variable {w : World} {g : Governor} {a : Authorization}

/-- Whether a governor has answered, or written. -/
def Done (g : Governor) (r : Except Exception Answer) (t : Governor) : Prop :=
  (∃ answer, r = .ok answer) ∨ t.ledger.entries ≠ g.ledger.entries

/-- A unit of work that does not raise is committed. -/
theorem meets_committed_bind {Q : Except Exception Answer → Governor → Prop}
    {body : Staging LedgerEntry} {f : LedgerEntry → Op Answer} {e : LedgerEntry} {p : Pending}
    (hwork : g.Work body none some) (hrun : body.run (stage w) g.begin = (.ok e, p)) :
    Governor.Meets w Governor.Work Q (Op.commitFor none body >>= f) g ↔
      Governor.Meets w Governor.Work Q (f e) (g.commit p none) := by
  have hcommitted : Governor.handle w _ (.work body none some) g = (.ok e, g.commit p none) := by
    simp only [Governor.handle, Governor.work, hrun, Option.bind_none]
  exact Governor.meets_reply hcommitted hwork

/-- A hold that is open may be settled. -/
theorem meets_opened_bind {Q : Except Exception Answer → Governor → Prop} {f : PUnit → Op Answer}
    (opened : g.Open w a) :
    Governor.Meets w Governor.Work Q (Op.requireOpenAuthorization a >>= f) g ↔
      Governor.Meets w Governor.Work Q (f ⟨⟩) g := by
  have hsome : (g.ledger.openAuths.get? a.authorizationId).isSome = true := by
    rw [opened.opened]
    rfl
  rw [Op.requireOpenAuthorization, bind_assoc, Governor.meets_served_bind, Program.check,
    if_pos hsome]
  exact Iff.rfl

/-- The release of a hold that is open is committed. -/
theorem meets_voidLocked_open (opened : g.Open w a) {memo : Text}
    (hmemo : checkText memo .memo maxMemoBytes false = none) :
    Governor.Meets w Governor.Work (Done g) (Op.voidLocked a memo none) g := by
  obtain ⟨c, n, -, hon, hold⟩ := opened.holding
  obtain ⟨e, p, hrun⟩ := hon.release hold hmemo
  have hsome : (g.ledger.openAuths.get? a.authorizationId).isSome = true := by
    rw [opened.opened]
    rfl
  rw [Op.voidLocked, meets_committed_bind (.void a memo none hsome fun c hc => by cases hc) hrun,
    Governor.meets_answered]
  exact Or.inl ⟨_, rfl⟩

/-- A hold that is open is voided. -/
theorem meets_void_open (opened : g.Open w a) {memo : Text}
    (hmemo : checkText memo .memo maxMemoBytes false = none) :
    Governor.Meets w Governor.Work (Done g) (Mutation.void a memo none).program g := by
  have hnote : checkText (orElse memo (txt "authorization voided")) .memo maxMemoBytes false =
      none := by
    unfold orElse
    split_ifs
    · decide
    · exact hmemo
  rw [show (Mutation.void a memo none).program = Op.void a memo none from rfl, Op.void,
    Governor.meets_mutating_bind, ← bind_pure (Op.keyed _ _ _ _ _),
    Governor.meets_keyed_none_bind, bind_pure, meets_opened_bind opened]
  exact meets_voidLocked_open opened hnote

/-- A hold that is open is settled at a cost that is not negative. -/
theorem meets_settle_open (opened : g.Open w a) {amount settled : Decimal} {memo : Text}
    (hmemo : checkText memo .memo maxMemoBytes false = none)
    (taken : cost (.number (some amount)) g.ledger.state.unit = .ok settled)
    (nonneg : ¬settled.worth < 0) :
    Governor.Meets w Governor.Work (Done g) (Op.settle a settled memo none) g := by
  rw [Op.settle, meets_opened_bind opened]
  split_ifs with hzero
  · refine meets_voidLocked_open opened ?_
    unfold orElse
    split_ifs
    · decide
    · exact hmemo
  · obtain ⟨k, rfl, pos, small, whole⟩ :=
      cost_quanta taken (lt_of_le_of_ne (not_lt.mp nonneg) (Ne.symm hzero))
    obtain ⟨c, n, hunit, hon, hold⟩ := opened.holding
    obtain ⟨e, p, hrun⟩ :=
      hon.settlement hold pos small (hunit ▸ whole) hmemo g.policy.tripOnExhaustion
    have hsome : (g.ledger.openAuths.get? a.authorizationId).isSome = true := by
      rw [opened.opened]
      rfl
    -- whatever is raised once it has written is raised after the spend
    have hwrote : (g.commit p none).ledger.entries ≠ g.ledger.entries := by
      obtain ⟨release, spend, trips, hentries, -⟩ := spends_settlement (g := g)
        (r := .ok .nothing) (.capture a amount memo) (Op.settlement_ok hrun)
      rw [show (g.commit p none).ledger.entries = _ from hentries]
      simp
    rw [Governor.meets_policy_bind, meets_committed_bind
      (.settle a _ memo none hsome fun c hc => by cases hc) hrun, Governor.meets_answered_bind]
    split_ifs
    · change Governor.Meets w _ (Done g) _ (g.commit p none)
      rw [Governor.meets_lift_bind fun _ => Or.inr hwrote]
      exact fun _ _ => Or.inr hwrote
    · exact Or.inl ⟨_, rfl⟩

/-- What a governor has done of what was asked is carried out. -/
theorem carried_of_done {d : Desk} {ask : Ask}
    (h : Governor.Meets w Governor.Work (Done d.governor) ask.mutation.program d.governor) :
    (d.deed w ask).Carried :=
  h.run

/-- A void of a hold that is still open is carried out. -/
theorem void_carried (d : Desk) {memo : Text} (opened : (d.deed w (.void a memo)).Open w)
    (hmemo : checkText memo .memo maxMemoBytes false = none) :
    (d.deed w (.void a memo)).Carried :=
  carried_of_done (meets_void_open opened hmemo)

/-- A capture of a hold that is still open is carried out, at a cost that is not negative. -/
theorem capture_carried (d : Desk) {amount settled : Decimal} {memo : Text}
    (opened : (d.deed w (.capture a amount memo)).Open w)
    (hmemo : checkText memo .memo maxMemoBytes false = none)
    (taken : cost (.number (some amount)) d.governor.ledger.state.unit = .ok settled)
    (nonneg : ¬settled.worth < 0) : (d.deed w (.capture a amount memo)).Carried := by
  refine carried_of_done ?_
  rw [show (Ask.mutation (.capture a amount memo)).program =
    Op.capture a (.number (some amount)) memo none from rfl, Op.capture,
    Governor.meets_unit_bind, taken, Governor.meets_lift_ok_bind, Governor.meets_argument_iff]
  refine ⟨fun _ => ?_, fun hneg => absurd nonneg hneg⟩
  rw [Governor.meets_mutating_bind, ← bind_pure (Op.keyed _ _ _ _ _),
    Governor.meets_keyed_none_bind, bind_pure]
  exact meets_settle_open opened hmemo taken nonneg

end Opened

end AgentGov.Metering
