import AgentGov.Foundation.Sha256

/-!
# The words of the ledger

What a ledger counts, the ids and instants its entries carry, and the kinds of entry there are
(`src/src/agentgov/core.py`, lines 240–311 and 403–533).

## Main definitions

* `AgentGov.Unit`: a named unit counted to so many places, with its `genesis`.
* `AgentGov.UUID`, `AgentGov.Instant`: identifiers and UTC instants, with the texts hashed.
* `AgentGov.Direction`, `AgentGov.EntryType`: which way a line moves money, and what it records.

## Main results

* `AgentGov.EntryType.text_injective`, `AgentGov.Direction.text_injective`: no two members are
  written alike.
-/

open Foundation

namespace AgentGov

/-- The text of a literal. -/
abbrev txt (s : String) : Text := Text.ofString s

/-- `GENESIS_HASH`: the `prev_hash` of the first entry of a ledger of US dollars. -/
def genesisHash : Text := List.replicate 64 (digit 0)

/-! ### Units -/

/-- `_UNIT_CODE`: a lowercase letter, then at most 31 of `[a-z0-9_.-]`. -/
def isUnitCode : Text → Bool
  | [] => false
  | c :: t =>
    let lower := fun c : CodePoint => decide (97 ≤ c.val) && decide (c.val ≤ 122)
    lower c && decide (t.length ≤ 31) &&
      t.all fun c => lower c || isDigit c || c.val = 95 || c.val = 46 || c.val = 45

/-- What a ledger conserves: a named unit, counted to `places` decimals. -/
structure Unit where
  /-- The unit's name. -/
  code : Text
  /-- How many decimal places of it the ledger counts. -/
  places : ℕ
  code_ok : isUnitCode code = true
  places_le : places ≤ 8
deriving DecidableEq

/-- `USD`: US dollars, counted to eight places. -/
def USD : Unit := ⟨txt "usd", 8, by decide, le_rfl⟩

namespace Unit

/-- The text whose digest is the genesis of a ledger of this unit. -/
def declaration (u : Unit) : Text :=
  txt "agentgov-genesis v1 unit=" ++ u.code ++ txt " places=" ++ decimalDigits u.places

/-- The `prev_hash` of the first entry of a ledger of this unit. -/
def genesis (u : Unit) : Text :=
  if u = USD then genesisHash else sha256Hex u.declaration.ascii

@[simp] theorem genesis_USD : USD.genesis = genesisHash := rfl

end Unit

/-! ### Ids and instants -/

/-- `uuid.UUID`. -/
abbrev UUID := Fin (2 ^ 128)

instance neZero_uuid : NeZero (2 ^ 128) := ⟨by decide⟩

instance lawfulBEq_uuid : LawfulBEq UUID := inferInstance

/-- `str(uuid)`: thirty-two hexadecimal digits in groups of 8, 4, 4, 4 and 12. -/
def UUID.text (u : UUID) : Text :=
  let h := hexDigits 32 u.val
  h.take 8 ++ txt "-" ++ (h.drop 8).take 4 ++ txt "-" ++ (h.drop 12).take 4 ++ txt "-" ++
    (h.drop 16).take 4 ++ txt "-" ++ h.drop 20

/-- The days of a month of the Gregorian calendar. -/
def daysInMonth (year month : ℕ) : ℕ :=
  if month = 2 then
    if year % 4 = 0 ∧ (year % 100 ≠ 0 ∨ year % 400 = 0) then 29 else 28
  else if month = 4 ∨ month = 6 ∨ month = 9 ∨ month = 11 then 30 else 31

/-- A UTC `datetime`, to the microsecond. -/
structure Instant where
  year : ℕ
  month : ℕ
  day : ℕ
  hour : ℕ
  minute : ℕ
  second : ℕ
  microsecond : ℕ
  valid : 1 ≤ year ∧ year ≤ 9999 ∧ 1 ≤ month ∧ month ≤ 12 ∧ 1 ≤ day ∧
    day ≤ daysInMonth year month ∧ hour < 24 ∧ minute < 60 ∧ second < 60 ∧ microsecond < 1000000
deriving DecidableEq

namespace Instant

/-- The beginning of 2026 is an instant of the calendar. -/
theorem newYear_valid : 1 ≤ 2026 ∧ 2026 ≤ 9999 ∧ 1 ≤ 1 ∧ 1 ≤ 12 ∧ 1 ≤ 1 ∧ 1 ≤ daysInMonth 2026 1 ∧
    0 < 24 ∧ 0 < 60 ∧ 0 < 60 ∧ 0 < 1000000 := by decide

/-- The instant's place in time: its fields read in a mixed radix. -/
def key (t : Instant) : ℕ :=
  (((((t.year * 13 + t.month) * 32 + t.day) * 24 + t.hour) * 60 + t.minute) * 60 + t.second) *
    1000000 + t.microsecond

instance : LT Instant := ⟨fun s t => s.key < t.key⟩

instance : LE Instant := ⟨fun s t => s.key ≤ t.key⟩

instance (s t : Instant) : Decidable (s < t) := inferInstanceAs (Decidable (s.key < t.key))

instance (s t : Instant) : Decidable (s ≤ t) := inferInstanceAs (Decidable (s.key ≤ t.key))

theorem lt_def (s t : Instant) : s < t ↔ s.key < t.key := Iff.rfl

theorem le_def (s t : Instant) : s ≤ t ↔ s.key ≤ t.key := Iff.rfl

@[simp] theorem not_lt {s t : Instant} : ¬ s < t ↔ t ≤ s := Nat.not_lt

theorem lt_irrefl (t : Instant) : ¬ t < t := Nat.lt_irrefl _

/-- `_iso`: the instant at a fixed width. A year is written with four digits, as `strftime`'s
documentation has it for every year. -/
def iso (t : Instant) : Text :=
  paddedDigits 4 t.year ++ txt "-" ++ paddedDigits 2 t.month ++ txt "-" ++ paddedDigits 2 t.day ++
    txt "T" ++ paddedDigits 2 t.hour ++ txt ":" ++ paddedDigits 2 t.minute ++ txt ":" ++
    paddedDigits 2 t.second ++ txt "." ++ paddedDigits 6 t.microsecond ++ txt "Z"

/-- `date.toordinal`: the day's number in the proleptic Gregorian calendar. -/
def ordinal (t : Instant) : ℕ :=
  let y := t.year - 1
  y * 365 + y / 4 - y / 100 + y / 400 +
    ((List.range (t.month - 1)).map fun m => daysInMonth t.year (m + 1)).sum + t.day

/-- The microseconds since the beginning of year 1. -/
def micros (t : Instant) : ℕ :=
  ((((t.ordinal - 1) * 24 + t.hour) * 60 + t.minute) * 60 + t.second) * 1000000 + t.microsecond

end Instant

/-! ### Directions and kinds -/

/-- Which way a ledger line moves a scope's available balance. -/
inductive Direction
  | debit
  | credit
  | none
deriving DecidableEq

/-- The text a direction is stored as. -/
def Direction.text : Direction → Text
  | .debit => txt "DR"
  | .credit => txt "CR"
  | .none => txt "--"

theorem Direction.text_injective : Function.Injective Direction.text := by
  intro a b h
  revert h
  cases a <;> cases b <;> decide

/-- The event a ledger entry records. -/
inductive EntryType
  | funding
  | allocation
  | release
  | hold
  | holdVoid
  | spend
  | reversal
  | circuitTripped
  | circuitReset
  | anchor
  | migrationSeal
  | checkpoint
deriving DecidableEq

namespace EntryType

/-- The text a kind is stored as. -/
def text : EntryType → Text
  | funding => txt "funding"
  | allocation => txt "allocation"
  | release => txt "release"
  | hold => txt "hold"
  | holdVoid => txt "hold_void"
  | spend => txt "spend"
  | reversal => txt "reversal"
  | circuitTripped => txt "circuit_tripped"
  | circuitReset => txt "circuit_reset"
  | anchor => txt "anchor"
  | migrationSeal => txt "seal"
  | checkpoint => txt "checkpoint"

theorem text_injective : Function.Injective text := by
  intro a b h
  revert h
  cases a <;> cases b <;> decide

/-- `_LEGAL_DIRECTIONS`. -/
def legalDirections : EntryType → List Direction
  | funding => [.credit]
  | allocation => [.debit, .credit]
  | release => [.debit, .credit]
  | hold => [.debit]
  | holdVoid => [.credit]
  | spend => [.debit]
  | reversal => [.credit]
  | circuitTripped => [.none]
  | circuitReset => [.none]
  | anchor => [.none]
  | migrationSeal => [.none]
  | checkpoint => [.none]

/-- `_BALANCED_TYPES`: the kinds that move money between scopes. -/
def isBalanced : EntryType → Bool
  | allocation | release => true
  | _ => false

/-- `_ZERO_VALUE_TYPES`: the kinds that record an event without moving money. -/
def isZeroValue : EntryType → Bool
  | circuitTripped | circuitReset | anchor | migrationSeal | checkpoint => true
  | _ => false

/-- `_SCOPELESS_TYPES`: the kinds that belong to no scope. -/
def isScopeless : EntryType → Bool
  | migrationSeal | checkpoint => true
  | _ => false

/-- `_REFERENCING_TYPES`: the kinds that may name the hold they settle. -/
def isReferencing : EntryType → Bool
  | holdVoid | spend => true
  | _ => false

/-- `_V3_REFERENCING_TYPES`: from AGOV3 a refund may name the spend it reverses. -/
def isV3Referencing : EntryType → Bool
  | holdVoid | spend | reversal => true
  | _ => false

end EntryType

/-! ### Payload versions -/

/-- `_AUDIT_V1`. -/
def auditV1 : Text := txt "AGOV1"

/-- `_AUDIT_V2`. -/
def auditV2 : Text := txt "AGOV2"

/-- `_AUDIT_V3`, which is also `_AUDIT_VERSION`: what new entries are written with. -/
def auditV3 : Text := txt "AGOV3"

/-- `_KNOWN_VERSIONS`. -/
def knownVersions : List Text := [auditV1, auditV2, auditV3]

theorem auditV1_ne_auditV2 : auditV1 ≠ auditV2 := by decide

theorem auditV1_ne_auditV3 : auditV1 ≠ auditV3 := by decide

theorem auditV2_ne_auditV3 : auditV2 ≠ auditV3 := by decide

/-- `MAX_ID_BYTES`. -/
def maxIdBytes : ℕ := 1024

/-- `MAX_MEMO_BYTES`. -/
def maxMemoBytes : ℕ := 65536

end AgentGov
