import AgentGov.Entry

/-!
# What a governor raises

The exceptions of the ledger's writes and of the governor's operations
(`src/src/agentgov/exceptions.py` and the `ValueError`s of `src/src/agentgov/core.py`, lines
2595–2716 and 5739–6980), each with what its message reports.

## Main definitions

* `AgentGov.ArgumentFault`: the arguments a call is refused for.
* `AgentGov.Exception`: everything a governor raises.
-/

open Foundation

namespace AgentGov

/-- Why a `ValueError` refuses the arguments of a call. -/
inductive ArgumentFault
  /-- "a transaction must contain at least one line" -/
  | noLines
  /-- "{kind} may not be a {direction} line" -/
  | illegalLine (kind : EntryType) (direction : Direction)
  /-- "a {kind} line moves no money; its amount must be 0, got {amount}" -/
  | lineMovesNoMoney (kind : EntryType) (amount : Decimal)
  /-- "line amount {amount} is not quantized to {QUANTUM}" -/
  | lineNotQuantized (amount : Decimal)
  /-- "line amount must be positive, got {amount}" -/
  | lineNotPositive (amount : Decimal)
  /-- "a {kind} line names no hold; ref is for hold releases, the spends that settle them, and
  the refunds of a spend" -/
  | lineNamesNoHold (kind : EntryType)
  /-- The problem `_check_text` reports. -/
  | badText (problem : TextProblem)
  /-- "envelope must be positive, got {amount}" -/
  | envelopeNotPositive (amount : Decimal)
  /-- "funding must be positive, got {amount}" -/
  | fundingNotPositive (amount : Decimal)
  /-- "delegated amount must be positive, got {amount}" -/
  | delegatedNotPositive (amount : Decimal)
  /-- "authorization amount must be positive, got {amount}" -/
  | authorizationNotPositive (amount : Decimal)
  /-- "actual cost must not be negative, got {amount}" -/
  | costNegative (amount : Decimal)
  /-- "refund must be positive, got {amount}" -/
  | refundNotPositive (amount : Decimal)
  /-- "a scope id must not be empty" -/
  | emptyScopeId
  /-- "scope {scope!r} is not a root; use delegate() to fund it" -/
  | notARoot (scope : Text)
  /-- "root scope {scope!r} has no parent to release to" -/
  | noParent (scope : Text)
  /-- "cannot release {returned} from {scope!r}: only {available} available" -/
  | releasesTooMuch (returned : Decimal) (scope : Text) (available : Value)
  /-- "{ref} is not a spend this ledger holds" -/
  | notASpend (ref : UUID)
  /-- "spend {ref} was made by {of!r}, not {scope!r}; a refund returns money to the scope that
  spent it" -/
  | spendOfAnother (ref : UUID) (of scope : Text)
  /-- "cannot refund {amount} of spend {ref}: {left} of its {spent} is left to refund" -/
  | refundsTooMuchOfSpend (amount : Decimal) (ref : UUID) (left : Value) (spent : Decimal)
  /-- "cannot refund {amount} to {scope!r}: it has spent {spent} and been refunded {refunded}, so
  at most {refundable} remains refundable; …" -/
  | refundsTooMuch (amount : Decimal) (scope : Text) (spent refunded refundable : Value)
  /-- "an anchor must carry the record it commits to" -/
  | emptyAnchor
  /-- "a reset's memo says why the scope was reset" -/
  | emptyReset
  /-- "an idempotency key must be a non-empty string" -/
  | emptyKey
  /-- "{label} was given as a length of time no `timedelta` holds" -/
  | notADuration
deriving DecidableEq

/-- Everything a governor raises. -/
inductive Exception
  /-- What the rule engine or the arithmetic raises. -/
  | rule (error : Error)
  /-- `ValueError` -/
  | value (fault : ArgumentFault)
  /-- `UnknownScopeError` -/
  | unknownScope (scope : Text)
  /-- `DuplicateScopeError` -/
  | duplicateScope (scope : Text)
  /-- `CircuitOpenError`: the scope, the scope whose breaker halts it, and why. -/
  | circuitOpen (scope tripped reason : Text)
  /-- `SubBudgetAllocationError`; "delegation depth {depth} exceeds max_depth {maximum}" where
  the depth is what refuses it. -/
  | subBudgetAllocation (requested : Decimal) (available : Value) (parent : Text)
      (depth : Option (ℕ × ℤ))
  /-- `BudgetExceededError` -/
  | budgetExceeded (requested : Decimal) (available : Value) (scope : Text)
  /-- `DenialOfWalletError` -/
  | denialOfWallet (requested : Decimal) (available : Value) (scope : Text) (overspent : Bool)
  /-- `RunawayLoopDetectedError` -/
  | runawayLoopDetected (scope : Text) (count : ℕ)
  /-- `DoubleSpendError`: "authorization {authorization} was already settled" -/
  | doubleSpend (scope : Text) (authorization : UUID)
  /-- `IdempotencyConflictError`: the key, and the request recorded under it, whose operation
  the message names. -/
  | idempotencyConflict (key recorded : Text)
  /-- `LedgerIntegrityError`: "the call recorded under idempotency key {key!r} names entry
  {sequence} as its {outcome}, and this ledger holds no such entry" -/
  | recordNamesNothing (key : Text) (sequence : ℤ)
  /-- `OverflowError`, of a date before year 1 or after year 9999. -/
  | dateOverflow
  /-- What the code of a `with governor.transaction()` block raises of its own. -/
  | callers (name : Text)
deriving DecidableEq

/-- What the rules raise, raised through a governor. -/
instance : MonadLift (Except Error) (Except Exception) := ⟨Except.mapError .rule⟩

@[simp] theorem monadLift_ok {α : Type} (a : α) :
    (MonadLift.monadLift (Except.ok a : Except Error α) : Except Exception α) = .ok a := rfl

@[simp] theorem monadLift_error {α : Type} (e : Error) :
    (MonadLift.monadLift (Except.error e : Except Error α) : Except Exception α) =
      .error (.rule e) := rfl

/-- What the rules give is given through a governor. -/
theorem lift_eq_ok {α : Type} {x : Except Error α} {a : α} :
    (MonadLift.monadLift x : Except Exception α) = .ok a ↔ x = .ok a := by
  cases x <;> simp

end AgentGov
