import AgentGov.Writing

/-!
# The units of work of the operations

What each unit of work an operation may commit posts: a single line, a balanced pair, a settlement
with the trip it may cause.

## Main results

* `AgentGov.Staging.post₁_ok`, `AgentGov.Staging.post₂_ok`: a transaction of one line, and of two.
* `AgentGov.Staging.trip_ok`: a trip, unless the scope is latched.
* `AgentGov.Op.settlement_ok`: a settlement.
-/

open Foundation

namespace AgentGov

variable {w : World} {p p' : Pending}

/-- A transaction is posted, or what it has drawn is drawn. -/
theorem stage_post (w : World) (lines : List LedgerLine) (p : Pending) :
    (∃ es p', Posted w p lines es p' ∧ stage w _ (.post lines) p = (.ok es, p')) ∨
      ∃ e, stage w _ (.post lines) p = (.error e, p.skip lines) := by
  simp only [stage]
  cases hp : p.post w lines with
  | error e => exact Or.inr ⟨e, rfl⟩
  | ok r => exact Or.inl ⟨r.1, r.2, Pending.post_ok hp, rfl⟩

/-- What is posted first is all a unit of work holds. -/
theorem Posted.entries_begin {g : Governor} {lines : List LedgerLine} {es : List LedgerEntry}
    (h : Posted w g.begin lines es p') : p'.entries = es :=
  h.entries

namespace Staging

theorem post₁_ok {line : LedgerLine} {e : LedgerEntry}
    (h : (post₁ line).run (stage w) p = (.ok e, p')) : Posted w p [line] [e] p' := by
  rw [post₁, Program.instr_bind, Program.run_perform] at h
  rcases stage_post w [line] p with ⟨es, p₁, posted, hs⟩ | ⟨err, hs⟩ <;> rw [hs] at h
  · obtain ⟨e', rfl⟩ := List.length_eq_one_iff.mp posted.length
    cases h
    exact posted
  · cases h

theorem post₂_ok {line other : LedgerLine} {pair : LedgerEntry × LedgerEntry}
    (h : (post₂ line other).run (stage w) p = (.ok pair, p')) :
    Posted w p [line, other] [pair.1, pair.2] p' := by
  rw [post₂, Program.instr_bind, Program.run_perform] at h
  rcases stage_post w [line, other] p with ⟨es, p₁, posted, hs⟩ | ⟨err, hs⟩ <;> rw [hs] at h
  · obtain ⟨e₁, e₂, rfl⟩ := List.length_eq_two.mp posted.length
    cases h
    exact posted
  · cases h

/-- A trip is posted unless the scope is latched. -/
theorem trip_ok {scope reason : Text} {r : Option LedgerEntry}
    (h : (trip scope reason).run (stage w) p = (.ok r, p')) :
    (r = none ∧ p' = p ∧ (p.view.tripOf scope).isSome) ∨
      ∃ e, r = some e ∧ p.view.tripOf scope = none ∧
        Posted w p [event .circuitTripped scope reason] [e] p' := by
  rw [trip, Program.instr_bind, Program.run_perform_ok (t := p) (r := p.view) rfl] at h
  split_ifs at h with htrip
  · cases h
    exact Or.inl ⟨rfl, rfl, htrip⟩
  · rw [Program.run_bind] at h
    rcases hc : (control .circuitTripped scope reason).run (stage w) p with ⟨err | e, p₁⟩ <;>
      rw [hc] at h
    · cases h
    · cases h
      exact Or.inr ⟨e, rfl, by simpa using htrip, post₁_ok hc⟩

end Staging

namespace Op

/-- What a delegation posts. -/
theorem delegation_ok {parent child : Text} {granted : Decimal} {memo : Text} {e : LedgerEntry}
    (h : (delegation parent child granted memo).run (stage w) p = (.ok e, p')) :
    ∃ debit note, Posted w p [line .allocation .debit parent granted (some child) note none,
      line .allocation .credit child granted (some parent) note none] [debit, e] p' := by
  rw [delegation, Program.run_bind] at h
  rcases hc : (Staging.post₂ (line .allocation .debit parent granted (some child)
      (orElse memo (txt "sub-budget delegated to " ++ child)) none)
    (line .allocation .credit child granted (some parent)
      (orElse memo (txt "sub-budget delegated to " ++ child)) none)).run (stage w) p
    with ⟨err | pair, p₁⟩ <;> rw [hc] at h
  · cases h
  · cases h
    exact ⟨pair.1, _, Staging.post₂_ok hc⟩

/-- What a release posts. -/
theorem releasing_ok {scope parent : Text} {returned : Decimal} {memo : Text} {u : PUnit}
    (h : (releasing scope parent returned memo).run (stage w) p = (.ok u, p')) :
    ∃ debit credit note, Posted w p [line .release .debit scope returned (some parent) note none,
      line .release .credit parent returned (some scope) note none] [debit, credit] p' := by
  rw [releasing, Program.run_bind] at h
  rcases hc : (Staging.post₂ (line .release .debit scope returned (some parent)
      (orElse memo (txt "unused budget returned to " ++ parent)) none)
    (line .release .credit parent returned (some scope)
      (orElse memo (txt "unused budget returned to " ++ parent)) none)).run (stage w) p
    with ⟨err | pair, p₁⟩ <;> rw [hc] at h
  · cases h
  · cases h
    exact ⟨pair.1, pair.2, _, Staging.post₂_ok hc⟩

/-- What a settlement posts: the hold released and the spend, and then a trip of the scope it has
overdrawn or exhausted, unless that is latched. -/
inductive Settlement (w : World) (a : Authorization) (settled : Decimal) (p : Pending)
    (e : LedgerEntry) (p' : Pending) : Prop
  | settled (release : LedgerEntry) (note : Text)
      (pair : Posted w p [voiding a (txt "authorization captured"),
        line .spend .debit a.scopeId settled none note (some a.entry.entryId)] [release, e] p')
      (latched : e.balanceAfter.worth < 0 → (p'.view.tripOf a.scopeId).isSome)
  | tripped (release trip : LedgerEntry) (note reason : Text) (p₁ : Pending)
      (pair : Posted w p [voiding a (txt "authorization captured"),
        line .spend .debit a.scopeId settled none note (some a.entry.entryId)] [release, e] p₁)
      (trips : Posted w p₁ [Staging.event .circuitTripped a.scopeId reason] [trip] p')
      (reasons : reason = overrunReason settled a e.balanceAfter.worth ∨
        reason = txt "spend envelope exhausted")

theorem settlement_ok {tripOnExhaustion : Bool} {a : Authorization} {settled : Decimal}
    {memo : Text} {e : LedgerEntry}
    (h : (settlement tripOnExhaustion a settled memo).run (stage w) p = (.ok e, p')) :
    Settlement w a settled p e p' := by
  rw [settlement, Program.run_bind] at h
  rcases hc : (Staging.post₂ (voiding a (txt "authorization captured"))
    (line .spend .debit a.scopeId settled none (orElse memo (txt "settled call cost"))
      (some a.entry.entryId))).run (stage w) p with ⟨err | pair, p₁⟩ <;> rw [hc] at h
  · cases h
  · have posted := Staging.post₂_ok hc
    rw [Program.proceed_ok] at h
    have trips : ∀ reason r p₂, (Staging.trip a.scopeId reason).run (stage w) p₁ = (.ok r, p₂) →
        (reason = overrunReason settled a pair.2.balanceAfter.worth ∨
          reason = txt "spend envelope exhausted") →
        Settlement w a settled p pair.2 p₂ := by
      intro reason r p₂ hr hreason
      rcases Staging.trip_ok hr with ⟨-, rfl, hlatched⟩ | ⟨x, -, -, hx⟩
      · exact .settled pair.1 _ posted fun _ => hlatched
      · exact .tripped pair.1 x _ reason p₁ posted hx hreason
    dsimp only at h
    split_ifs at h with hneg
    · rw [Program.run_bind] at h
      rcases ht : (Staging.trip a.scopeId (overrunReason settled a
        pair.2.balanceAfter.worth)).run (stage w) p₁ with ⟨err | r, p₂⟩ <;> rw [ht] at h
      · cases h
      · cases h
        exact trips _ r p' ht (Or.inl rfl)
    · rw [Program.run_bind] at h
      rcases hx : (Staging.exhausted tripOnExhaustion a.scopeId).run (stage w) p₁ with
        ⟨err | x, p₂⟩ <;> rw [hx] at h
      · cases h
      · have hsame : p₂ = p₁ := by
          rw [Staging.exhausted, Program.instr_bind,
            Program.run_perform_ok (t := p₁) (r := p₁.view) rfl] at hx
          cases hx
          rfl
        subst hsame
        cases x with
        | false =>
          cases h
          exact .settled pair.1 _ posted fun hneg' => absurd hneg' hneg
        | true =>
          rw [Program.proceed_ok, if_pos rfl, Program.run_bind] at h
          rcases ht : (Staging.trip a.scopeId (txt "spend envelope exhausted")).run (stage w) p₂
            with ⟨err | r, p₃⟩ <;> rw [ht] at h
          · cases h
          · cases h
            exact trips _ r p' ht (Or.inr rfl)

end Op

end AgentGov
