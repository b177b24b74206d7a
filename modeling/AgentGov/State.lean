import AgentGov.Entry
import AgentGov.Foundation.OrderedDict

/-!
# The state a chain implies

Everything that follows from the entries alone: the money, the position and the governance of a
ledger (`src/src/agentgov/core.py`, lines 910–1095 and 3450–3569).

## Main definitions

* `AgentGov.BudgetNode`, `AgentGov.ControlEvent`, `AgentGov.Totals`: what the state is made of.
* `AgentGov.frontierAppend`: the RFC 9162 compact range over every entry hash.
* `AgentGov.Core`: the attributes a state and a view over it both keep whole.
* `AgentGov.ChainState`: the state, with the lookups the rules read.
-/

open Foundation

namespace AgentGov

/-- `_Totals`: the boundary totals. -/
structure Totals where
  funded : Value := 0
  spent : Value := 0
  reversed : Value := 0
  holdsOpen : Value := 0
deriving DecidableEq

/-- What the rules read of a scope: everything but its children. -/
structure Node where
  scopeId : Text
  parentId : Option Text
  depth : ℕ
  allocated : Value
  createdAt : Instant
deriving DecidableEq

/-- One scope in the delegation tree. -/
structure BudgetNode extends Node where
  childIds : List Text := []
deriving DecidableEq

/-- A circuit-breaker trip or reset. -/
structure ControlEvent where
  eventId : UUID
  timestamp : Instant
  eventType : Text
  scopeId : Text
  reason : Text
  ledgerHeadHash : Text
  entryId : Option UUID := none
deriving DecidableEq

/-- `_event_for`: the control event an entry records. -/
def eventFor (e : LedgerEntry) : ControlEvent where
  eventId := e.entryId
  timestamp := e.timestamp
  eventType := e.entryType.text
  scopeId := e.scopeId
  reason := e.memo
  ledgerHeadHash := e.prevHash
  entryId := some e.entryId

/-- When a scope was halted, and why. -/
abbrev Trip := Instant × Text

/-- `_HoldKey`: a hold's scope and amount. -/
abbrev HoldKey := Text × Decimal

/-- Whether two keys are equal: the scopes as texts, the amounts as numbers. -/
def HoldKey.same (a b : HoldKey) : Bool :=
  decide (a.1 = b.1) && decide (a.2.value? = b.2.value?)

/-- Add a key to a set of keys, unless an equal one is in it. -/
def addKey (key : HoldKey) (keys : List HoldKey) : List HoldKey :=
  if keys.any (HoldKey.same key) then keys else keys ++ [key]

/-! ### The Merkle frontier -/

/-- The carry of `_frontier_append`, over the frontier's nodes smallest first. A chain whose
length carries once more has a node for it. -/
def frontierCarry : List (List Byte) → ℕ → List Byte → List (List Byte)
  | top :: rest, carry, node =>
    if carry % 2 = 1 then frontierCarry rest (carry / 2) (sha256 (1 :: (top ++ node)))
    else node :: top :: rest
  | [], _, node => [node]

/-- `_frontier_append`: the frontier of a chain of `length` entries after one more. -/
def frontierAppend (frontier : List (List Byte)) (length : ℕ) (entryHash : Text) :
    Except Error (List (List Byte)) :=
  match fromHex entryHash with
  | none => .error (.value .notHexadecimal)
  | some leaf => .ok (frontierCarry frontier.reverse length (sha256 (0 :: leaf))).reverse

/-! ### The state -/

/-- The attributes a chain state and a view over it both keep whole. -/
structure Core where
  totals : Totals := {}
  head : Text := genesisHash
  length : ℕ := 0
  sawV1 : Bool := false
  sawV2 : Bool := false
  legacy : List ControlEvent := []
  legacyApplied : Bool := false
  sawV3 : Bool := false
  lastTimestamp : Option Instant := none
  lastCheckpoint : Option (ℕ × Text) := none
  frontier : List (List Byte) := []
deriving DecidableEq

/-- `_ChainState`: everything the chain implies, and nothing else. -/
structure ChainState extends Core where
  migrationSeal : Option LedgerEntry := none
  balances : Dict Text Value := ∅
  holds : Dict UUID LedgerEntry := ∅
  ambiguous : List HoldKey := []
  nodes : Dict Text BudgetNode := ∅
  roots : List Text := []
  tripped : Dict Text Trip := ∅
  spent : Dict Text Value := ∅
  refunded : Dict Text Value := ∅
  holdCounts : Dict Text ℤ := ∅
  spendRefunds : Dict UUID Value := ∅
  unit : Unit := USD
deriving DecidableEq

namespace ChainState

/-- The state of a ledger of `unit` with no entries. -/
def empty (unit : Unit) (legacy : List ControlEvent) : ChainState where
  head := unit.genesis
  unit := unit
  legacy := legacy

/-- `balance`. -/
def balance (s : ChainState) (scope : Text) : Value := (s.balances.get? scope).getD 0

/-- `spent_by`. -/
def spentBy (s : ChainState) (scope : Text) : Value := (s.spent.get? scope).getD 0

/-- `refunded_to`. -/
def refundedTo (s : ChainState) (scope : Text) : Value := (s.refunded.get? scope).getD 0

/-- `holds_open_in`. -/
def holdsOpenIn (s : ChainState) (scope : Text) : ℤ := (s.holdCounts.get? scope).getD 0

/-- `refunded_of_spend`. -/
def refundedOfSpend (s : ChainState) (spend : UUID) : Value :=
  (s.spendRefunds.get? spend).getD 0

end ChainState

/-! ### The migration seal -/

/-- The rows `_legacy_digest` hashes. -/
def legacyRow (e : ControlEvent) : Json :=
  .arr [.str e.eventId.text, .str e.timestamp.iso, .str e.eventType, .str e.scopeId,
    .str e.reason, .str e.ledgerHeadHash]

/-- `_legacy_digest`: the digest of the control events kept outside the chain, in order. -/
def legacyDigest (events : List ControlEvent) : Text :=
  sha256Hex (Json.dump Json.quoteAscii (.arr (events.map legacyRow))).ascii

/-- The zeros of the decimal digits of Unicode 15, each the first of ten. -/
def decimalZeros : List ℕ :=
  [0x30, 0x660, 0x6f0, 0x7c0, 0x966, 0x9e6, 0xa66, 0xae6, 0xb66, 0xbe6, 0xc66, 0xce6, 0xd66, 0xde6,
   0xe50, 0xed0, 0xf20, 0x1040, 0x1090, 0x17e0, 0x1810, 0x1946, 0x19d0, 0x1a80, 0x1a90, 0x1b50,
   0x1bb0, 0x1c40, 0x1c50, 0xa620, 0xa8d0, 0xa900, 0xa9d0, 0xa9f0, 0xaa50, 0xabf0, 0xff10, 0x104a0,
   0x10d30, 0x11066, 0x110f0, 0x11136, 0x111d0, 0x112f0, 0x11450, 0x114d0, 0x11650, 0x116c0,
   0x11730, 0x118e0, 0x11950, 0x11c50, 0x11d50, 0x11da0, 0x11f50, 0x16a60, 0x16ac0, 0x16b50,
   0x1d7ce, 0x1d7d8, 0x1d7e2, 0x1d7ec, 0x1d7f6, 0x1e140, 0x1e2f0, 0x1e4f0, 0x1e950, 0x1fbf0]

/-- What a Unicode decimal digit stands for. -/
def decimalDigit? (c : CodePoint) : Option ℕ :=
  (decimalZeros.find? fun z => z ≤ c.val && c.val ≤ z + 9).map fun z => c.val - z

/-- The most digits `int` reads. -/
def maxIntDigits : ℕ := 4300

/-- `int` of a text of decimal digits. -/
def readInt (digits : List ℕ) : Except Error ℕ :=
  if maxIntDigits < digits.length then .error (.value .tooManyDigits)
  else .ok (digits.foldl (fun n d => 10 * n + d) 0)

/-- What follows the number of a memo: ` sha256=` and a digest, and nothing more. -/
def memoDigest? (t : Text) : Option Text :=
  (Text.stripPrefix? (txt " sha256=") t).bind fun d => if isHex64 d then some d else none

/-- `_SEAL_MEMO`: the digits of the count, in any of Unicode's decimal digits, and the digest. -/
def sealMemo? (memo : Text) : Option (List ℕ × Text) :=
  (Text.stripPrefix? (txt "pre-0.1.2 control events: n=") memo).bind fun t =>
    let digits := t.takeWhile fun c => (decimalDigit? c).isSome
    if digits.isEmpty then none
    else (memoDigest? (t.drop digits.length)).map fun d => (digits.filterMap decimalDigit?, d)

/-- `_CHECKPOINT_MEMO`: the digits of the sequence, the first of them not zero, and the
digest. -/
def checkpointMemo? (memo : Text) : Option (List ℕ × Text) :=
  (Text.stripPrefix? (txt "agentgov-checkpoint v1 seq=") memo).bind fun t =>
    let digits := t.takeWhile isDigit
    match digits with
    | [] => none
    | c :: _ =>
      if c = digit 0 then none
      else (memoDigest? (t.drop digits.length)).map fun d =>
        (digits.map fun c => c.val - 48, d)

end AgentGov
