import AgentGov.Foundation.Decimal
import AgentGov.Vocabulary

/-!
# What can be raised

The exceptions of the rule engine and of the governor (`src/src/agentgov/exceptions.py`), each
with what its message reports. A `LedgerIntegrityError` carries the rule the entry broke and the
scope it is raised about. The arithmetic errors are those of the `decimal` module, and the overflow
of an integer that no float holds.

## Main definitions

* `AgentGov.TextProblem`: what `_check_text` reports.
* `AgentGov.IntegrityFault`: the rules an entry can break.
* `AgentGov.ValueFault`: the malformed arguments of a call.
* `AgentGov.Error`: everything that is raised.
-/

open Foundation

namespace AgentGov

/-- The label of a checked text. -/
inductive TextLabel
  | scopeId
  | counterpartyId
  | memo
  | idempotencyKey
deriving DecidableEq

/-- Why a text cannot go into an AGOV3 entry. -/
inductive TextProblem
  /-- "the {label} is not valid Unicode text (it holds a lone surrogate)" -/
  | loneSurrogate (label : TextLabel)
  /-- "the {label} is {size} bytes of UTF-8; at most {limit} are allowed" -/
  | tooLong (label : TextLabel) (size limit : ℕ)
  /-- "the {label} holds a control character" -/
  | controlCharacter (label : TextLabel)
  /-- "the {label} holds a NUL character" -/
  | nulCharacter (label : TextLabel)
deriving DecidableEq

/-- The rule an entry breaks, with what the message says of it. `sequence` is the number the
entry carries. -/
inductive IntegrityFault
  /-- "sequence gap at position {position}: entry claims {sequence}" -/
  | sequenceGap (position : ℕ) (sequence : ℤ)
  /-- "broken chain link at sequence {sequence}" -/
  | brokenLink (sequence : ℤ)
  /-- "entry {sequence} carries an unknown audit version {version!r}" -/
  | unknownVersion (sequence : ℤ) (version : Text)
  /-- "entry {sequence} cannot be hashed: {exc}" -/
  | cannotBeHashed (sequence : ℤ)
  /-- "entry {sequence} has been tampered with (hash mismatch)" -/
  | hashMismatch (sequence : ℤ)
  /-- "entry {sequence} is an AGOV1 entry after newer entries" -/
  | oldEntryAfterNewer (sequence : ℤ)
  /-- "entry {sequence} is an AGOV1 entry carrying a hold reference" -/
  | oldEntryReference (sequence : ℤ)
  /-- "entry {sequence} is an AGOV1 {kind} entry, a type AGOV1 did not have" -/
  | oldEntryKind (sequence : ℤ) (kind : EntryType)
  /-- "entry {sequence} is the first entry written after pre-0.1.2 history and is not the
  migration seal" -/
  | notSealed (sequence : ℤ)
  /-- "entry {sequence} is an AGOV2 entry after AGOV3 entries" -/
  | formatGoesBack (sequence : ℤ)
  /-- "entry {sequence}: {kind} may not be a {direction} line" -/
  | illegalDirection (sequence : ℤ) (kind : EntryType) (direction : Direction)
  /-- "entry {sequence} is a {version} checkpoint; checkpoints are AGOV3 only" -/
  | oldCheckpoint (sequence : ℤ) (version : Text)
  /-- "entry {sequence}: {problem}" -/
  | badText (sequence : ℤ) (problem : TextProblem)
  /-- "entry {sequence} is dated {timestamp}, before the entry ahead of it ({last})" -/
  | timeGoesBack (sequence : ℤ) (timestamp last : Instant)
  /-- "entry {sequence}: amount must be positive, got {amount}" -/
  | amountNotPositive (sequence : ℤ) (amount : Decimal)
  /-- "entry {sequence}: amount {amount} is finer than this ledger's unit" -/
  | amountTooFine (sequence : ℤ) (amount : Decimal) (unit : Unit)
  /-- "entry {sequence}: a {kind} entry moves no money, but records {amount}" -/
  | movesNoMoney (sequence : ℤ) (kind : EntryType) (amount : Decimal)
  /-- "entry {sequence}: a {kind} needs a scope" -/
  | needsScope (sequence : ℤ) (kind : EntryType)
  /-- "entry {sequence}: a {kind} entry belongs to no scope" -/
  | belongsToNoScope (sequence : ℤ) (kind : EntryType)
  /-- "entry {sequence} is a second migration seal; a ledger is sealed once" -/
  | secondSeal (sequence : ℤ)
  /-- "entry {sequence} seals pre-0.1.2 history this ledger does not have" -/
  | nothingToSeal (sequence : ℤ)
  /-- "entry {sequence} is a malformed checkpoint" -/
  | malformedCheckpoint (sequence : ℤ)
  /-- "entry {sequence} checkpoints sequence {of}, which is not before it" -/
  | checkpointNotBefore (sequence : ℤ) (of : ℕ)
  /-- "entry {sequence} checkpoints sequence {of}, which is not after the previous checkpoint's
  {previous}" -/
  | checkpointNotAfter (sequence : ℤ) (of previous : ℕ)
  /-- "entry {sequence} records a balance of {recorded}, but the chain implies {expected}" -/
  | balanceMismatch (sequence : ℤ) (recorded : Decimal) (expected : Value)
  /-- "transaction {transaction} does not balance: its transfers net {net}" -/
  | unbalanced (transaction : Option UUID) (net : Value)
  /-- "entry {sequence}: a {kind} entry names no hold" -/
  | namesNoHold (sequence : ℤ) (kind : EntryType)
  /-- "entry {sequence} settles hold {ref}, which its own transaction did not release" -/
  | settlesUnreleased (sequence : ℤ) (ref : UUID)
  /-- "entry {sequence} reverses {ref}, which is not a spend this ledger holds" -/
  | reversesNoSpend (sequence : ℤ) (ref : UUID)
  /-- "entry {sequence} reverses spend {ref} of scope {of!r} into {scope!r}" -/
  | reversesOtherScope (sequence : ℤ) (ref : UUID) (of scope : Text)
  /-- "entry {sequence} refunds {amount} of spend {ref}, bringing its refunds to {refunded}, more
  than the {spent} it spent" -/
  | refundsMoreThanSpend (sequence : ℤ) (ref : UUID) (amount refunded : Value) (spent : Decimal)
  /-- "entry {sequence} releases a hold without naming it" -/
  | releaseUnnamed (sequence : ℤ)
  /-- "entry {sequence} releases hold {ref} a second time" -/
  | releasedTwice (sequence : ℤ) (ref : UUID)
  /-- "entry {sequence} releases hold {ref}, which is not an open hold" -/
  | notAnOpenHold (sequence : ℤ) (ref : UUID)
  /-- "entry {sequence} releases hold {ref} of scope {of!r} into {scope!r}" -/
  | releasesOtherScope (sequence : ℤ) (ref : UUID) (of scope : Text)
  /-- "entry {sequence} releases {amount} of hold {ref}, which encumbered {held}" -/
  | releasesOtherAmount (sequence : ℤ) (ref : UUID) (amount : Decimal) (held : Option Value)
  /-- "entry {sequence} releases {amount}, but no open hold of that amount remains" -/
  | noSuchHoldRemains (sequence : ℤ) (amount : Decimal)
  /-- "entry {sequence} refunds {amount} to {scope!r}, bringing its lifetime refunds to
  {refunded}, more than the {spent} it ever spent" -/
  | refundsMoreThanSpent (sequence : ℤ) (scope : Text) (amount refunded spent : Value)
  /-- "control_events holds rows that are not in the chain, and this ledger has no migration seal
  to vouch for them" -/
  | unsealedEvents
  /-- "entry {sequence} funds a scope that is not a root" -/
  | fundsNonRoot (sequence : ℤ)
  /-- "scope {scope!r} is not in the chain" -/
  | notInTheChain (scope : Text)
  /-- "entry {sequence} allocates to {scope!r} a second time" -/
  | allocatesTwice (sequence : ℤ) (scope : Text)
  /-- "entry {sequence} delegates from {parent!r}, which the chain never created" -/
  | delegatesFromUnknown (sequence : ℤ) (parent : Option Text)
  /-- "entry {sequence} releases between {scope!r} and {other!r}, which are not child and
  parent" -/
  | notChildAndParent (sequence : ℤ) (scope other : Text)
  /-- "control event references unregistered scope {scope!r}" -/
  | unregisteredScope (scope : Text)
  /-- "entry {sequence} ({kind}) names a scope the chain never created" -/
  | neverCreated (sequence : ℤ) (kind : EntryType)
  /-- "entry {sequence} is a malformed migration seal" -/
  | malformedSeal (sequence : ℤ)
  /-- "the pre-0.1.2 control events no longer match the seal written when this ledger was
  upgraded (entry {sequence})" -/
  | sealMismatch (sequence : ℤ)
deriving DecidableEq

/-- The argument of a call that cannot be used. -/
inductive ValueFault
  /-- "{label} is not a valid decimal" -/
  | notADecimal
  /-- "{label} must be finite" -/
  | notFinite
  /-- "{label} exceeds the maximum of {MAX_AMOUNT}" -/
  | exceedsMaximum
  /-- "an AGOV3 entry's text must be valid Unicode" -/
  | notUnicode
  /-- "unknown audit version {version!r}" -/
  | unknownVersion (version : Text)
  /-- `bytes.fromhex` of a text that is not hexadecimal -/
  | notHexadecimal
  /-- `int` of a text of more than 4300 digits -/
  | tooManyDigits
deriving DecidableEq

/-- Everything that is raised. -/
inductive Error
  /-- `LedgerIntegrityError`, and the scope it is raised about. -/
  | integrity (fault : IntegrityFault) (scope : Option Text)
  /-- `decimal.InvalidOperation`, `decimal.Inexact` or `decimal.Overflow`, or `OverflowError` of an
  integer that no float holds. -/
  | arithmetic
  /-- `ValueError` -/
  | value (fault : ValueFault)
  /-- `TypeError`, of a float given as an amount. -/
  | type
deriving DecidableEq

namespace Error

/-- Whether the exception is a `LedgerIntegrityError`. -/
def IsIntegrity : Error → Prop
  | integrity _ _ => True
  | _ => False

instance (e : Error) : Decidable e.IsIntegrity := by
  cases e <;> (unfold IsIntegrity; infer_instance)

end Error

/-- `raise LedgerIntegrityError(fault, scope)`. -/
abbrev refuse {α : Type} (fault : IntegrityFault) (scope : Option Text) : Except Error α :=
  .error (.integrity fault scope)

end AgentGov
