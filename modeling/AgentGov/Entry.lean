import AgentGov.Foundation.Json
import AgentGov.Money

/-!
# Ledger entries and their hashes

A ledger entry, the checks of the text it may carry, and the payload its hash covers in each
version of the format (`src/src/agentgov/core.py`, lines 603–714, 717–744 and 754–848).

## Main definitions

* `AgentGov.LedgerLine`, `AgentGov.LedgerEntry`: an instruction, and the record of it.
* `AgentGov.checkText`: why a text cannot go into an AGOV3 entry.
* `AgentGov.hashEntry`: the hash of an entry's fields.

## Main results

* `AgentGov.hashEntry_ok`: a hash is the hexadecimal text of a digest.
* `AgentGov.hashEntry_error`: what hashing an entry can raise.
-/

open Foundation

namespace AgentGov

/-- An unposted instruction: one leg of a transaction, before it is written. -/
structure LedgerLine where
  entryType : EntryType
  direction : Direction
  scopeId : Text
  amount : Decimal
  counterpartyId : Option Text := none
  memo : Text := []
  ref : Option UUID := none
deriving DecidableEq

/-- A single, immutable, hash-chained record of one event. -/
structure LedgerEntry where
  sequence : ℤ
  entryId : UUID
  transactionId : UUID
  timestamp : Instant
  entryType : EntryType
  direction : Direction
  scopeId : Text
  counterpartyId : Option Text
  amount : Decimal
  balanceAfter : Decimal
  prevHash : Text
  entryHash : Text
  memo : Text := []
  ref : Option UUID := none
  version : Text := auditV1
deriving DecidableEq

/-! ### Texts -/

/-- `_CONTROL`: Unicode's control characters. -/
def isControlChar (c : CodePoint) : Bool :=
  decide (c.val ≤ 0x1f) || (decide (0x7f ≤ c.val) && decide (c.val ≤ 0x9f))

/-- The bytes of a text in UTF-8, or nothing where it holds a lone surrogate. -/
def utf8Size (t : Text) : Option ℕ :=
  if t.all Text.isAscii then some t.length else t.utf8.map List.length

/-- `_check_text`: why a text cannot go into an AGOV3 entry, if it cannot. -/
def checkText (text : Text) (label : TextLabel) (limit : ℕ) (identifier : Bool) :
    Option TextProblem :=
  match utf8Size text with
  | none => some (.loneSurrogate label)
  | some size =>
    if limit < size then some (.tooLong label size limit)
    else if identifier then
      if text.any isControlChar then some (.controlCharacter label) else none
    else if text.any (fun c => c.val = 0) then some (.nulCharacter label)
    else none

/-- The checks of an entry's scope, counterparty and memo, in that order. -/
def checkTexts (scopeId : Text) (counterpartyId : Option Text) (memo : Text) :
    Option TextProblem :=
  (checkText scopeId .scopeId maxIdBytes true).or
    (((counterpartyId.bind fun t => checkText t .counterpartyId maxIdBytes true)).or
      (checkText memo .memo maxMemoBytes false))

/-- A text that passes is valid Unicode. -/
theorem utf8_isSome_of_checkText {t : Text} {label : TextLabel} {limit : ℕ} {identifier : Bool}
    (h : checkText t label limit identifier = none) : t.utf8.isSome = true := by
  by_cases ha : t.all Text.isAscii = true
  · rw [Text.utf8_ofAscii (List.all_eq_true.mp ha)]
    rfl
  · cases hu : t.utf8 with
    | some b => rfl
    | none => simp [checkText, utf8Size, ha, hu] at h

/-! ### Hashes -/

/-- Whether the text is `_HEX64`: sixty-four lower-case hexadecimal digits. -/
def isHex64 (t : Text) : Bool := decide (t.length = 64) && t.all isHexDigit

/-- A JSON string, or null. -/
def Json.ofText? : Option Text → Json
  | none => .null
  | some t => .str t

/-- The text of an optional id. -/
def refText (ref : Option UUID) : Option Text := ref.map UUID.text

/-- The AGOV3 payload: canonical JSON of one flat object, its keys in order. -/
def payloadV3 (e : LedgerEntry) (amount balanceAfter : Text) : Json :=
  .obj
    [(txt "amount", .str amount),
     (txt "balance_after", .str balanceAfter),
     (txt "counterparty_id", Json.ofText? e.counterpartyId),
     (txt "direction", .str e.direction.text),
     (txt "entry_id", .str e.entryId.text),
     (txt "entry_type", .str e.entryType.text),
     (txt "format", .str auditV3),
     (txt "memo", .str e.memo),
     (txt "prev_hash", .str e.prevHash),
     (txt "ref", Json.ofText? (refText e.ref)),
     (txt "scope_id", .str e.scopeId),
     (txt "sequence", .int e.sequence),
     (txt "timestamp", .str e.timestamp.iso),
     (txt "transaction_id", .str e.transactionId.text)]

/-- The fields of the AGOV1 payload, and those of AGOV2 before the reference. -/
def payloadV1 (e : LedgerEntry) : List Json :=
  [.str e.version, .str e.prevHash, .int e.sequence, .str e.entryId.text,
   .str e.transactionId.text, .str e.timestamp.iso, .str e.entryType.text, .str e.direction.text,
   .str e.scopeId, Json.ofText? e.counterpartyId, .str (decimalText e.amount),
   .str (decimalText e.balanceAfter), .str e.memo]

/-- `_hash_entry`: the hash of every field but the hash itself. The AGOV3 document is written
the same whether or not `prev_hash` is a hash, since a hash needs no escaping. -/
def hashEntry (e : LedgerEntry) : Except Error Text :=
  if e.version = auditV3 then do
    let amount ← fixed e.amount
    let balanceAfter ← fixed e.balanceAfter
    match (Json.dump Json.quote (payloadV3 e amount balanceAfter)).utf8 with
    | some bytes => .ok (sha256Hex bytes)
    | none => .error (.value .notUnicode)
  else if e.version = auditV2 then
    .ok (sha256Hex (Json.dump Json.quoteAscii
      (.arr (payloadV1 e ++ [Json.ofText? (refText e.ref)]))).ascii)
  else if e.version = auditV1 then
    .ok (sha256Hex (Json.dump Json.quoteAscii (.arr (payloadV1 e))).ascii)
  else .error (.value (.unknownVersion e.version))

namespace LedgerEntry

/-- `recompute_hash`. -/
def recomputeHash (e : LedgerEntry) : Except Error Text := hashEntry e

/-- `signed_amount`, given what the amount stands for. -/
def signedAmount (e : LedgerEntry) (amount : Value) : Value :=
  match e.direction with
  | .credit => amount
  | .debit => -amount
  | .none => 0

end LedgerEntry

/-- The hash of an entry does not depend on the hash it carries. -/
@[simp] theorem hashEntry_entryHash (e : LedgerEntry) (h : Text) :
    hashEntry { e with entryHash := h } = hashEntry e := rfl

/-- A hash is the hexadecimal text of a digest. -/
theorem hashEntry_ok {e : LedgerEntry} {h : Text} (he : hashEntry e = .ok h) :
    ∃ bytes, h = sha256Hex bytes := by
  unfold hashEntry at he
  split at he
  · cases ha : fixed e.amount with
    | error err => simp [ha, bind, Except.bind] at he
    | ok a =>
      cases hb : fixed e.balanceAfter with
      | error err => simp [ha, hb, bind, Except.bind] at he
      | ok b =>
        simp only [ha, hb, bind, Except.bind] at he
        split at he
        · rename_i bytes _
          cases he
          exact ⟨bytes, rfl⟩
        · cases he
  · split at he
    · cases he
      exact ⟨_, rfl⟩
    · split at he
      · cases he
        exact ⟨_, rfl⟩
      · cases he

theorem fixed_error {d : Decimal} {err : Error} (h : fixed d = .error err) :
    err = .arithmetic := by
  unfold fixed at h
  split at h
  · exact (Except.error.inj h).symm
  · split at h
    · exact (Except.error.inj h).symm
    · split at h <;> cases h

/-- Hashing raises an arithmetic error or a `ValueError`, and nothing else. -/
theorem hashEntry_error {e : LedgerEntry} {err : Error} (he : hashEntry e = .error err) :
    err = .arithmetic ∨ ∃ fault, err = .value fault := by
  unfold hashEntry at he
  split at he
  · cases ha : fixed e.amount with
    | error err' =>
      simp only [ha, bind, Except.bind, Except.error.injEq] at he
      exact Or.inl (he ▸ fixed_error ha)
    | ok a =>
      cases hb : fixed e.balanceAfter with
      | error err' =>
        simp only [ha, hb, bind, Except.bind, Except.error.injEq] at he
        exact Or.inl (he ▸ fixed_error hb)
      | ok b =>
        simp only [ha, hb, bind, Except.bind] at he
        split at he
        · cases he
        · exact Or.inr ⟨_, (Except.error.inj he).symm⟩
  · split at he
    · cases he
    · split at he
      · cases he
      · exact Or.inr ⟨_, (Except.error.inj he).symm⟩

/-! ### Chains of entries -/

/-- The entries numbered from a position on, each linked to the one before it and hashed. -/
def linked : ℕ → Text → List LedgerEntry → List LedgerEntry
  | _, _, [] => []
  | length, head, e :: l =>
    let e := { e with sequence := (length + 1 : ℕ), prevHash := head }
    let hash := match hashEntry e with
      | .ok h => h
      | .error _ => []
    { e with entryHash := hash } :: linked (length + 1) hash l

/-- The first instant of 2026. -/
def newYear : Instant := ⟨2026, 1, 1, 0, 0, 0, 0, Instant.newYear_valid⟩

/-- An AGOV3 entry of whole amounts, still to be linked. -/
def draft (id txn : UUID) (kind : EntryType) (direction : Direction) (scope : Text)
    (amount balanceAfter : ℤ) : LedgerEntry where
  sequence := 0
  entryId := id
  transactionId := txn
  timestamp := newYear
  entryType := kind
  direction := direction
  scopeId := scope
  counterpartyId := none
  amount := Decimal.ofInt amount
  balanceAfter := Decimal.ofInt balanceAfter
  prevHash := []
  entryHash := []
  version := auditV3

end AgentGov
