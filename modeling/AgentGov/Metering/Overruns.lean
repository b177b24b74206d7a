import AgentGov.Metering.Desk
import AgentGov.Metering.Pricing

/-!
# Captures that overrun

A capture of more than its scope has left with the hold released is carried out all the same, and
then raises (`src/src/agentgov/core.py`, lines 6170–6235). Whether it will is read off the balance
the governor serves before it.

## Main definitions

* `AgentGov.Metering.Overdraws`: a settlement leaves its scope below zero.

## Main results

* `AgentGov.Metering.capture_answered`: any other capture is answered, or nothing is written.
-/

open Foundation

namespace AgentGov.Metering

/-- Whether settling a hold at a cost leaves less than nothing in its scope: what it has left, with
the hold released, less the cost. -/
def Overdraws (g : Governor) (a : Authorization) (settled : Decimal) : Prop :=
  ∃ free left, add (g.ledger.state.balance a.scopeId) a.amount.worth = .ok free ∧
    subtract free settled.worth = .ok left ∧ left < 0

instance (g : Governor) (a : Authorization) (settled : Decimal) :
    Decidable (Overdraws g a settled) :=
  match hfree : add (g.ledger.state.balance a.scopeId) a.amount.worth with
  | .error _ => isFalse (by rintro ⟨_, _, h, -⟩; cases hfree.symm.trans h)
  | .ok free =>
    match hleft : subtract free settled.worth with
    | .error _ => isFalse (by
        rintro ⟨_, _, h, h', -⟩
        cases hfree.symm.trans h
        cases hleft.symm.trans h')
    | .ok left => decidable_of_iff (left < 0) ⟨fun h => ⟨free, left, hfree, hleft, h⟩, by
        rintro ⟨_, _, h, h', below⟩
        cases hfree.symm.trans h
        cases hleft.symm.trans h'
        exact below⟩

variable {w : World} {g : Governor} {a : Authorization}

/-- The datum of a balance is below zero only where the balance is. -/
theorem balanceDatum_neg {v : Value} (h : (balanceDatum v).worth < 0) : v < 0 := by
  cases v with
  | infinite s => exact h
  | finite q =>
    rw [Value.zero_def, Value.finite_lt_finite]
    by_contra hq
    have hpos : (0 : ℚ) ≤ Decimal.rat false (q * 10 ^ quantumPlaces).floor.natAbs
        (-quantumPlaces) := by
      rw [Decimal.rat, if_neg Bool.false_ne_true]
      exact mul_nonneg (Nat.cast_nonneg _) (zpow_nonneg (by norm_num) _)
    refine absurd h (not_lt.mpr ?_)
    rw [balanceDatum, decide_eq_false hq, worth_finite rfl]
    exact Value.finite_le_finite.mpr hpos

/-- One more line leaves its scope with what it had there, moved by the line. -/
theorem line_balance {view : Overlay} {txn : UUID} {now : Instant} {b b' : Built}
    {q : LedgerLine × UUID} (h : Built.line view txn now b q = .ok b')
    (moves : q.1.entryType.isZeroValue = false) (ofScope : q.1.entryType.isScopeless = false) :
    ∃ e after, b'.entries = b.entries ++ [e] ∧ e.balanceAfter = balanceDatum after ∧
      b'.running = b.running.set q.1.scopeId after ∧
      add ((b.running.get? q.1.scopeId).getD (view.balance q.1.scopeId))
        ((q.1.entry txn q.2 now (b.sequence + 1) b.prevHash q.1.amount
          (Decimal.ofInt 0)).signedAmount q.1.amount.worth) = .ok after := by
  unfold Built.line at h
  obtain ⟨amount, hamount, h⟩ := bind_eq_ok.mp h
  obtain ⟨after, hafter, h⟩ := bind_eq_ok.mp h
  obtain ⟨hash, -, h⟩ := bind_eq_ok.mp h
  cases h
  have hworth : amount.worth = q.1.amount.worth :=
    LedgerEntry.Records.worth (e := q.1.entry txn q.2 now (b.sequence + 1) b.prevHash amount
      (Decimal.ofInt 0)) ⟨rfl, rfl, rfl, rfl, rfl, rfl, hamount⟩ moves
  refine ⟨_, after, rfl, ?_, ?_, ?_⟩
  · simp [ofScope]
  · simp [moves]
  · rw [← hworth]
    exact lift_eq_ok.mp hafter

/-- The spend of a hold that is released with it leaves its scope with what it has left then. -/
theorem overdraws_of_posted {memo note : Text} {settled : Decimal} {ref : UUID}
    {es : List LedgerEntry} {p : Pending}
    (h : g.begin.post w [Op.voiding a memo,
      Op.line .spend .debit a.scopeId settled none note (some ref)] = .ok (es, p)) :
    ∃ release spend, es = [release, spend] ∧
      (spend.balanceAfter.worth < 0 → Overdraws g a settled) := by
  rw [Pending.post, if_neg (List.cons_ne_nil _ _)] at h
  obtain ⟨built, hbuilt, h⟩ := bind_eq_ok.mp h
  obtain ⟨_, -, h⟩ := bind_eq_ok.mp h
  obtain ⟨_, -, h⟩ := bind_eq_ok.mp h
  cases h
  obtain ⟨b₁, h₁, hrest⟩ := runAll_cons_eq_ok.mp hbuilt
  obtain ⟨b₂, h₂, hnil⟩ := runAll_cons_eq_ok.mp hrest
  cases hnil
  obtain ⟨release, free, hrelease, -, hrunning, hfree⟩ := line_balance h₁ rfl rfl
  obtain ⟨spend, left, hspend, hleft, -, hsub⟩ := line_balance h₂ rfl rfl
  refine ⟨release, spend, by rw [hspend, hrelease]; rfl, fun hneg => ⟨free, left, hfree, ?_, ?_⟩⟩
  · rw [hrunning] at hsub
    simpa [Op.line, Op.voiding, subtract, LedgerLine.entry, LedgerEntry.signedAmount] using hsub
  · exact balanceDatum_neg (hleft ▸ hneg)

/-- A program that ends by returning a value returns that. -/
theorem returned {α β : Type} {f : Staging β} {a b : α} {p p' : Pending}
    (h : (f >>= fun _ => pure a).run (stage w) p = (.ok b, p')) : b = a := by
  rw [Program.run_bind] at h
  rcases hf : f.run (stage w) p with ⟨_ | _, q⟩ <;> rw [hf] at h
  · cases h
  · cases h
    rfl

/-- What a settlement returns is the spend it posted. -/
theorem settlement_spend {trips : Bool} {settled : Decimal} {memo : Text} {e : LedgerEntry}
    {p p' : Pending}
    (h : (Op.settlement trips a settled memo).run (stage w) p = (.ok e, p')) :
    ∃ pair p₁, (Staging.post₂ (Op.voiding a (txt "authorization captured"))
      (Op.line .spend .debit a.scopeId settled none (orElse memo (txt "settled call cost"))
        (some a.entry.entryId))).run (stage w) p = (.ok pair, p₁) ∧ e = pair.2 := by
  rw [Op.settlement, Program.run_bind] at h
  rcases hpair : (Staging.post₂ (Op.voiding a (txt "authorization captured"))
    (Op.line .spend .debit a.scopeId settled none (orElse memo (txt "settled call cost"))
      (some a.entry.entryId))).run (stage w) p with ⟨_ | pair, p₁⟩
  · rw [hpair] at h
    cases h
  · rw [hpair, Program.proceed_ok] at h
    refine ⟨pair, p₁, rfl, ?_⟩
    dsimp only at h
    split_ifs at h
    · exact returned h
    · rw [Program.run_bind] at h
      rcases hx : (Staging.exhausted trips a.scopeId).run (stage w) p₁ with ⟨_ | exhausts, p₂⟩ <;>
        rw [hx] at h
      · cases h
      · cases exhausts with
        | true => exact returned h
        | false =>
          cases h
          rfl

/-- A settlement that leaves its scope below zero overdraws it. -/
theorem overdraws_of_settlement {trips : Bool} {settled : Decimal} {memo : Text}
    {e : LedgerEntry} {p : Pending}
    (h : (Op.settlement trips a settled memo).run (stage w) g.begin = (.ok e, p))
    (below : e.balanceAfter.worth < 0) : Overdraws g a settled := by
  obtain ⟨pair, p₁, hpair, rfl⟩ := settlement_spend h
  rw [Staging.post₂, Program.instr_bind, Program.run_perform, stage] at hpair
  rcases hpost : g.begin.post w [Op.voiding a (txt "authorization captured"),
      Op.line .spend .debit a.scopeId settled none (orElse memo (txt "settled call cost"))
        (some a.entry.entryId)] with _ | ⟨es, q⟩
  · rw [hpost] at hpair
    cases hpair
  · obtain ⟨release, spend, rfl, hoverdraws⟩ := overdraws_of_posted hpost
    rw [hpost] at hpair
    cases hpair
    exact hoverdraws below

/-! ### Captures -/

/-- How a call that does not overrun ends: it is answered, or it raises and nothing is written. -/
def AnsweredAt (g : Governor) (r : Except Exception Answer) (t : Governor) : Prop :=
  (∃ answer, r = .ok answer) ∨ (∃ e, r = .error e) ∧ t.ledger.entries = g.ledger.entries

/-- A settlement under no key that overdraws nothing. -/
theorem meets_settle_covered {settled : Decimal} (memo : Text) (covered : ¬Overdraws g a settled) :
    Governor.Meets w Governor.Work (AnsweredAt g) (Op.settle a settled memo none) g := by
  have hraise (e : Exception) : AnsweredAt g (.error e) g := Or.inr ⟨⟨e, rfl⟩, rfl⟩
  have unused : g.Unused none := fun c hc => by cases hc
  rw [Op.settle, Governor.meets_requireOpenAuthorization_bind hraise]
  intro opened
  split_ifs with hzero
  · rw [Op.voidLocked]
    refine Governor.meets_commitFor_bind (.void a _ none opened unused)
      (fun e n => Or.inr ⟨⟨e, rfl⟩, rfl⟩) fun e p _ => ?_
    rw [Governor.meets_answered]
    exact Or.inl ⟨_, rfl⟩
  · rw [Governor.meets_policy_bind]
    refine Governor.meets_commitFor_bind (.settle a settled memo none opened unused)
      (fun e n => Or.inr ⟨⟨e, rfl⟩, rfl⟩) fun e p hp => ?_
    rw [Governor.meets_answered_bind,
      if_neg fun below => covered (overdraws_of_settlement hp below)]
    exact Or.inl ⟨_, rfl⟩

/-- A capture under no key that overdraws nothing is answered, or nothing is written. -/
theorem capture_answered (d : Desk) {amount settled : Decimal} (memo : Text)
    (hcost : cost (.number (some amount)) d.governor.ledger.state.unit = .ok settled)
    (covered : ¬Overdraws d.governor a settled) :
    (∃ answer, (d.deed w (.capture a amount memo)).answer = .ok answer) ∨
      ¬(d.deed w (.capture a amount memo)).Carried := by
  have h : Governor.Meets w Governor.Work (AnsweredAt d.governor)
      (Mutation.capture a (.number (some amount)) memo none).program d.governor := by
    rw [show (Mutation.capture a (.number (some amount)) memo none).program =
      Op.capture a (.number (some amount)) memo none from rfl, Op.capture,
      Governor.meets_unit_bind, Governor.meets_lift_bind fun e => Or.inr ⟨⟨e, rfl⟩, rfl⟩]
    intro settled' hsettled
    cases hcost.symm.trans hsettled
    rw [Governor.meets_argument_bind fun e => Or.inr ⟨⟨e, rfl⟩, rfl⟩]
    intro _
    rw [Governor.meets_mutating_bind, ← bind_pure (Op.keyed _ _ _ _ _),
      Governor.meets_keyed_none_bind, bind_pure]
    exact meets_settle_covered memo covered
  rcases h.run with hanswer | ⟨⟨e, he⟩, hsame⟩
  · exact Or.inl hanswer
  · exact Or.inr fun carried => carried.not_refused ⟨⟨e, he⟩, hsame⟩

end AgentGov.Metering
