import AgentGov.Conservation
import AgentGov.Foundation.Histories

/-!
# Balances, entry by entry

The balance of a scope is what its newest entry says it is. Only a debit takes money from it, and a
debit that was covered leaves it at or above zero.

## Main definitions

* `AgentGov.Overdrawn`: the scopes whose newest entry leaves them below zero.

## Main results

* `AgentGov.run_overdrawn`: the balances below zero are those of overdrawn scopes.
* `AgentGov.run_stays_below`: a scope stays below zero while no money is returned to it.
-/

open Foundation

namespace AgentGov

variable {checkHash writing : Bool} {c c' : Chain} {e : LedgerEntry} {scope : Text}

/-- Whether an entry of a scope leaves it below zero. -/
def LedgerEntry.Below (scope : Text) (e : LedgerEntry) : Prop :=
  e.scopeId = scope ∧ e.balanceAfter.worth < 0

/-- Whether the newest entry of a scope leaves it below zero. -/
def Overdrawn (l : List LedgerEntry) (scope : Text) : Prop :=
  Since (LedgerEntry.Below scope) (fun e => e.scopeId = scope) l

namespace Applied

/-- An entry that moves no money moves none. -/
theorem movement_zero (ha : Applied checkHash writing c e c')
    (hz : e.entryType.isZeroValue = true) : e.movement = 0 := by
  have hw := ha.amount_zero hz
  unfold LedgerEntry.movement LedgerEntry.signedAmount
  cases e.direction <;> simp [hw, Value.zero_def]

/-- The balance of a scope after an entry of it is what the entry says it is. -/
theorem balance_scope (ha : Applied checkHash writing c e c') :
    c'.balance e.scopeId = e.balanceAfter.worth := by
  obtain ⟨after, hadd, hafter, hb⟩ := ha.balance
  rw [Decimal.worth, hafter, Option.getD_some]
  cases hz : e.entryType.isZeroValue with
  | true =>
    have hsum := add_ok hadd
    rw [ha.movement_zero hz, Value.plus_zero, Option.some.injEq] at hsum
    rw [hz, if_pos rfl] at hb
    rw [Chain.balance, hb]
    exact hsum
  | false =>
    rw [hz] at hb
    rw [Chain.balance, hb]
    simp

theorem balance_other (ha : Applied checkHash writing c e c') (h : scope ≠ e.scopeId) :
    c'.balance scope = c.balance scope := by
  rcases ha.balance_cases with ⟨-, hb⟩ | ⟨-, after, -, hb⟩
  · rw [Chain.balance, hb, Chain.balance]
  · rw [Chain.balance, hb, Dict.get?_set, if_neg h, Chain.balance]

/-- The balance of a scope moves by what an entry of it moves. -/
theorem balance_plus (ha : Applied checkHash writing c e c') :
    (c.balance e.scopeId).plus e.movement = some (c'.balance e.scopeId) := by
  obtain ⟨after, hadd, hafter, -⟩ := ha.balance
  rw [ha.balance_scope, Decimal.worth, hafter, Option.getD_some]
  exact add_ok hadd

theorem worth_nonneg (ha : Applied checkHash writing c e c') : 0 ≤ e.worth := by
  cases hz : e.entryType.isZeroValue with
  | true => exact (ha.amount_zero hz).ge
  | false => exact (ha.amount_pos hz).le

/-- Only a debit takes money from a scope. -/
theorem balance_le (ha : Applied checkHash writing c e c') (h : e.direction ≠ .debit) :
    c.balance e.scopeId ≤ c'.balance e.scopeId := by
  refine Value.le_of_plus ?_ ha.balance_plus
  unfold LedgerEntry.movement LedgerEntry.signedAmount
  cases hd : e.direction with
  | credit => exact ha.worth_nonneg
  | debit => exact absurd hd h
  | none => exact le_rfl

/-- Only a credit returns money to a scope. -/
theorem le_balance (ha : Applied checkHash writing c e c') (h : e.direction ≠ .credit) :
    c'.balance e.scopeId ≤ c.balance e.scopeId := by
  have hsum := ha.balance_plus
  unfold LedgerEntry.movement LedgerEntry.signedAmount at hsum
  cases hd : e.direction with
  | credit => exact absurd hd h
  | debit =>
    rw [hd] at hsum
    exact Value.le_of_plus_neg ha.worth_nonneg hsum
  | none =>
    rw [hd] at hsum
    exact (Option.some.inj ((Value.plus_zero _).symm.trans hsum)).ge

/-- A debit that is covered leaves its scope at or above zero. -/
theorem not_below (ha : Applied checkHash writing c e c') (debit : e.direction = .debit)
    (covered : ¬c.balance e.scopeId < e.worth) : ¬e.balanceAfter.worth < 0 := by
  have hsum := ha.balance_plus
  rw [LedgerEntry.movement, LedgerEntry.signedAmount, debit] at hsum
  rw [← ha.balance_scope, not_lt]
  exact Value.nonneg_of_plus_neg hsum (not_lt.mp covered)

end Applied

/-! ### Runs -/

variable {unit : Unit} {legacy : List ControlEvent} {find : UUID → Option LedgerEntry}
  {l : List LedgerEntry}

/-- The balances below zero are those of the scopes whose newest entry leaves them there. -/
theorem run_overdrawn
    (h : runAll (Rules.apply checkHash writing) (Chain.empty unit legacy find) l = .ok c)
    (scope : Text) : c.balance scope < 0 ↔ Overdrawn l scope := by
  refine Chain.run_induction (motive := fun l c => c.balance scope < 0 ↔ Overdrawn l scope)
    (iff_of_false (lt_irrefl 0) not_since_nil) ?_ h
  intro l e c c' _ ih ha
  rw [Overdrawn, since_concat, LedgerEntry.Below]
  by_cases hs : e.scopeId = scope
  · subst hs
    rw [ha.balance_scope]
    simp
  · rw [ha.balance_other (fun heq => hs heq.symm), ih]
    simp [hs, Overdrawn]

/-- A scope stays below zero while no money is returned to it. -/
theorem run_stays_below {c₀ : Chain}
    (h : runAll (Rules.apply checkHash writing) c₀ l = .ok c) (hbelow : c₀.balance scope < 0)
    (hl : ∀ e ∈ l, e.scopeId = scope → e.direction ≠ .credit) : c.balance scope < 0 := by
  refine Chain.run_induction (motive := fun l c =>
    (∀ e ∈ l, e.scopeId = scope → e.direction ≠ .credit) → c.balance scope < 0)
    (fun _ => hbelow) ?_ h hl
  intro l e c c' _ ih ha hl
  have hc := ih fun x hx => hl x (List.mem_append_left _ hx)
  by_cases hs : e.scopeId = scope
  · subst hs
    exact lt_of_le_of_lt (ha.le_balance (hl e (by simp) rfl)) hc
  · rwa [ha.balance_other fun heq => hs heq.symm]

end AgentGov
