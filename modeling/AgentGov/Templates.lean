import AgentGov.Payloads
import AgentGov.Receipts.Encoders

/-!
# The payload written by hand

The payload of an AGOV3 entry whose previous hash is one is written out by a template that escapes
its free texts alone (`src/src/agentgov/core.py`, lines 743–830). It is the canonical JSON of the
entry's document, where its sequence is a safe integer.

## Main definitions

* `AgentGov.template`: the template.
* `AgentGov.writtenPayload`: the bytes of an AGOV3 payload.

## Main results

* `AgentGov.hashEntry_writtenPayload`: what is hashed is what is written.
* `AgentGov.canonical_exact`: the encoders agree, are undone by the decoder, and write the payload.
-/

open Foundation

namespace AgentGov

/-! ### The template -/

/-- `_quote` -/
def quoteOrNull : Option Text → Text
  | none => txt "null"
  | some t => Json.quote t

/-- A text between quotes, as it is. -/
def inQuotes (t : Text) : Text := txt "\"" ++ t ++ txt "\""

/-- `reference` -/
def referenceText : Option UUID → Text
  | none => txt "null"
  | some ref => inQuotes ref.text

/-- The canonical document written out directly. -/
def template (e : LedgerEntry) (amount balanceAfter : Text) : Text :=
  txt "\x7b\"amount\":" ++ inQuotes amount ++ txt ",\"balance_after\":" ++ inQuotes balanceAfter ++
    txt ",\"counterparty_id\":" ++ quoteOrNull e.counterpartyId ++ txt ",\"direction\":" ++
    inQuotes e.direction.text ++ txt ",\"entry_id\":" ++ inQuotes e.entryId.text ++
    txt ",\"entry_type\":" ++ inQuotes e.entryType.text ++ txt ",\"format\":\"AGOV3\",\"memo\":" ++
    Json.quote e.memo ++ txt ",\"prev_hash\":" ++ inQuotes e.prevHash ++ txt ",\"ref\":" ++
    referenceText e.ref ++
    txt ",\"scope_id\":" ++ Json.quote e.scopeId ++ txt ",\"sequence\":" ++ intText e.sequence ++
    txt ",\"timestamp\":" ++ inQuotes e.timestamp.iso ++ txt ",\"transaction_id\":" ++
    inQuotes e.transactionId.text ++ txt "\x7d"

/-- The AGOV3 payload of an entry, as bytes. -/
def writtenPayload (e : LedgerEntry) : Except Error (List Byte) := do
  let amount ← fixed e.amount
  let balanceAfter ← fixed e.balanceAfter
  let text :=
    if Receipts.isHexOf 64 e.prevHash then template e amount balanceAfter
    else Json.dump Json.quote (payloadV3 e amount balanceAfter)
  match text.utf8 with
  | some bytes => .ok bytes
  | none => .error (.value .notUnicode)

/-! ### Texts that need no escape -/

/-- Whether a code point is written as it is. -/
def isPlain (c : CodePoint) : Bool := 32 ≤ c.val && c.val != 34 && c.val != 92

theorem quoteChar_of_plain {c : CodePoint} (h : isPlain c = true) : Json.quoteChar c = [c] := by
  simp only [isPlain, Bool.and_eq_true, decide_eq_true_eq, bne_iff_ne] at h
  rw [Json.quoteChar, if_neg h.1.2, if_neg h.2, if_neg (by omega), if_neg (by omega),
    if_neg (by omega), if_neg (by omega), if_neg (by omega), if_neg (by omega)]

theorem quote_of_plain {t : Text} (h : t.all isPlain = true) : Json.quote t = inQuotes t := by
  have hflat : t.flatMap Json.quoteChar = t := by
    induction t with
    | nil => rfl
    | cons c t ih =>
      rw [List.all_cons, Bool.and_eq_true] at h
      rw [List.flatMap_cons, quoteChar_of_plain h.1, ih h.2]
      rfl
  rw [Json.quote, hflat]
  rfl

theorem plain_of_token {c : CodePoint} (h : isToken c = true) : isPlain c = true := by
  simp only [isToken, isDigit, Bool.or_eq_true, Bool.and_eq_true, decide_eq_true_eq] at h
  simp only [isPlain, Bool.and_eq_true, decide_eq_true_eq, bne_iff_ne]
  omega

/-- A text of token characters is quoted as it is. -/
theorem quote_of_token {t : Text} (h : t.all isToken = true) : Json.quote t = inQuotes t :=
  quote_of_plain (all_of_token (fun _ => plain_of_token) h)

/-! ### What is written -/

theorem quoteOrNull_eq (t : Option Text) :
    quoteOrNull t = Json.dump Json.quote (Json.ofText? t) := by
  cases t <;> rfl

theorem referenceText_eq (ref : Option UUID) :
    referenceText ref = Json.dump Json.quote (Json.ofText? (refText ref)) := by
  cases ref with
  | none => rfl
  | some ref => exact (quote_of_token (UUID.all_token_text ref)).symm

/-- The keys between the values of the template, as the C encoder writes them. -/
theorem keys_eq :
    txt ",\"balance_after\":" = txt "," ++ Json.quote (txt "balance_after") ++ txt ":" ∧
    txt ",\"counterparty_id\":" = txt "," ++ Json.quote (txt "counterparty_id") ++ txt ":" ∧
    txt ",\"direction\":" = txt "," ++ Json.quote (txt "direction") ++ txt ":" ∧
    txt ",\"entry_id\":" = txt "," ++ Json.quote (txt "entry_id") ++ txt ":" ∧
    txt ",\"entry_type\":" = txt "," ++ Json.quote (txt "entry_type") ++ txt ":" ∧
    txt ",\"format\":\"AGOV3\",\"memo\":" = txt "," ++ Json.quote (txt "format") ++ txt ":" ++
      Json.quote auditV3 ++ txt "," ++ Json.quote (txt "memo") ++ txt ":" ∧
    txt ",\"prev_hash\":" = txt "," ++ Json.quote (txt "prev_hash") ++ txt ":" ∧
    txt ",\"ref\":" = txt "," ++ Json.quote (txt "ref") ++ txt ":" ∧
    txt ",\"scope_id\":" = txt "," ++ Json.quote (txt "scope_id") ++ txt ":" ∧
    txt ",\"sequence\":" = txt "," ++ Json.quote (txt "sequence") ++ txt ":" ∧
    txt ",\"timestamp\":" = txt "," ++ Json.quote (txt "timestamp") ++ txt ":" ∧
    txt ",\"transaction_id\":" = txt "," ++ Json.quote (txt "transaction_id") ++ txt ":" ∧
    txt "\x7b\"amount\":" = txt "\x7b" ++ Json.quote (txt "amount") ++ txt ":" := by
  decide

/-- The document as the C encoder writes it. -/
theorem dump_payloadV3 (e : LedgerEntry) (amount balanceAfter : Text) :
    Json.dump Json.quote (payloadV3 e amount balanceAfter) =
      txt "\x7b\"amount\":" ++ Json.quote amount ++ txt ",\"balance_after\":" ++
      Json.quote balanceAfter ++ txt ",\"counterparty_id\":" ++
      Json.dump Json.quote (Json.ofText? e.counterpartyId) ++ txt ",\"direction\":" ++
      Json.quote e.direction.text ++ txt ",\"entry_id\":" ++ Json.quote e.entryId.text ++
      txt ",\"entry_type\":" ++ Json.quote e.entryType.text ++
      txt ",\"format\":\"AGOV3\",\"memo\":" ++ Json.quote e.memo ++ txt ",\"prev_hash\":" ++
      Json.quote e.prevHash ++ txt ",\"ref\":" ++
      Json.dump Json.quote (Json.ofText? (refText e.ref)) ++ txt ",\"scope_id\":" ++
      Json.quote e.scopeId ++ txt ",\"sequence\":" ++ intText e.sequence ++
      txt ",\"timestamp\":" ++ Json.quote e.timestamp.iso ++ txt ",\"transaction_id\":" ++
      Json.quote e.transactionId.text ++ txt "\x7d" := by
  obtain ⟨h1, h2, h3, h4, h5, h6, h7, h8, h9, h10, h11, h12, h13⟩ := keys_eq
  rw [payloadV3, Json.dump, h1, h2, h3, h4, h5, h6, h7, h8, h9, h10, h11, h12, h13]
  simp only [Json.dumpFields, Json.dump, List.append_assoc, txt]

/-- The template writes the document. -/
theorem template_eq {e : LedgerEntry} {amount balanceAfter : Text}
    (ha : fixed e.amount = .ok amount) (hb : fixed e.balanceAfter = .ok balanceAfter)
    (hprev : Receipts.isHexOf 64 e.prevHash = true) :
    template e amount balanceAfter = Json.dump Json.quote (payloadV3 e amount balanceAfter) := by
  rw [Receipts.isHexOf, Bool.and_eq_true] at hprev
  unfold template
  rw [dump_payloadV3, quoteOrNull_eq, referenceText_eq,
    quote_of_token (all_token_fixed ha), quote_of_token (all_token_fixed hb),
    quote_of_token (Direction.all_token_text _), quote_of_token (UUID.all_token_text e.entryId),
    quote_of_token (EntryType.all_token_text _), quote_of_token (all_token_of_hex hprev.2),
    quote_of_token (Instant.all_token_iso _), quote_of_token (UUID.all_token_text e.transactionId)]

/-- What is written of an AGOV3 entry is the payload its hash is taken of. -/
theorem writtenPayload_eq {e : LedgerEntry} (hv : e.version = auditV3) :
    writtenPayload e = hashPayload e := by
  rw [writtenPayload, hashPayload, if_pos hv]
  cases ha : fixed e.amount with
  | error err => rfl
  | ok amount =>
    cases hb : fixed e.balanceAfter with
    | error err => rfl
    | ok balanceAfter =>
      have htext : (if Receipts.isHexOf 64 e.prevHash = true then template e amount balanceAfter
          else Json.dump Json.quote (payloadV3 e amount balanceAfter)) =
          Json.dump Json.quote (payloadV3 e amount balanceAfter) := by
        split_ifs with hprev
        · exact template_eq ha hb hprev
        · rfl
      exact congrArg (fun text : Text => (match text.utf8 with
        | some bytes => .ok bytes
        | none => .error (.value .notUnicode) : Except Error (List Byte))) htext

/-- The hash of an AGOV3 entry is the hash of what is written of it. -/
theorem hashEntry_writtenPayload {e : LedgerEntry} (hv : e.version = auditV3) :
    hashEntry e = (writtenPayload e).map sha256Hex := by
  rw [hashEntry_eq, writtenPayload_eq hv]

/-! ### The document -/

/-- The keys of the document are in order. -/
theorem ordered_payloadV3 (e : LedgerEntry) (amount balanceAfter : Text) :
    Receipts.ordered (payloadV3 e amount balanceAfter) = payloadV3 e amount balanceAfter := by
  have htext : ∀ t : Option Text, Receipts.ordered (Json.ofText? t) = Json.ofText? t := by
    intro t
    cases t <;> rfl
  have hkeys : ∀ a b c d f g h i j k l m n o : Json,
      Receipts.orderedMembers
        [(txt "amount", a), (txt "balance_after", b), (txt "counterparty_id", c),
          (txt "direction", d), (txt "entry_id", f), (txt "entry_type", g), (txt "format", h),
          (txt "memo", i), (txt "prev_hash", j), (txt "ref", k), (txt "scope_id", l),
          (txt "sequence", m), (txt "timestamp", n), (txt "transaction_id", o)] =
        [(txt "amount", Receipts.ordered a), (txt "balance_after", Receipts.ordered b),
          (txt "counterparty_id", Receipts.ordered c), (txt "direction", Receipts.ordered d),
          (txt "entry_id", Receipts.ordered f), (txt "entry_type", Receipts.ordered g),
          (txt "format", Receipts.ordered h), (txt "memo", Receipts.ordered i),
          (txt "prev_hash", Receipts.ordered j), (txt "ref", Receipts.ordered k),
          (txt "scope_id", Receipts.ordered l), (txt "sequence", Receipts.ordered m),
          (txt "timestamp", Receipts.ordered n), (txt "transaction_id", Receipts.ordered o)] := by
    intros
    rfl
  rw [payloadV3, Receipts.ordered, hkeys, htext, htext]
  rfl

theorem inDomain_payloadV3 (e : LedgerEntry) (amount balanceAfter : Text) :
    Receipts.inDomain (payloadV3 e amount balanceAfter) = Receipts.isSafe e.sequence := by
  have htext : ∀ t : Option Text, Receipts.inDomain (Json.ofText? t) = true := by
    intro t
    cases t <;> rfl
  simp [payloadV3, Receipts.inDomain, Receipts.membersInDomain, htext, Receipts.isSafe]

/-- The canonical bytes of an entry's document are the payload that is written of it, where its
sequence is a safe integer. -/
theorem canonicalBytesOf_document {e : LedgerEntry} {amount balanceAfter : Text}
    {bs : List Byte} (ha : fixed e.amount = .ok amount)
    (hb : fixed e.balanceAfter = .ok balanceAfter) (hv : e.version = auditV3) :
    Receipts.canonicalBytesOf (Receipts.ofJson (payloadV3 e amount balanceAfter)) = .ok bs ↔
      Receipts.isSafe e.sequence = true ∧ writtenPayload e = .ok bs := by
  rw [Receipts.canonicalBytesOf_ofJson, Receipts.canonicalBytes, inDomain_payloadV3,
    ordered_payloadV3, writtenPayload_eq hv, hashPayload, if_pos hv, ha, hb]
  simp only [ok_bind]
  cases Receipts.isSafe e.sequence with
  | false => simp
  | true =>
    cases (Json.dump Json.quote (payloadV3 e amount balanceAfter)).utf8 <;> simp

/-- The encoders of canonical JSON agree on every value but for lone surrogates; what they write
is decoded to the value, so that it tells values apart; and the AGOV3 payload of an entry whose
sequence is a safe integer is what they write of its document. -/
theorem canonical_exact :
    (∀ v bs, Receipts.canonicalBytesOf v = .ok bs ↔
      ∃ t, Receipts.encode (txt "$") v = .ok t ∧ t.utf8 = some bs) ∧
    (∀ v bs room, Receipts.Proper v → Receipts.depth v ≤ room →
      Receipts.canonicalBytesOf v = .ok bs →
      ∃ w, Receipts.loadsStrict room bs = .ok w ∧ Receipts.same v w = true) ∧
    (∀ v v' bs, Receipts.Proper v → Receipts.Proper v' → Receipts.canonicalBytesOf v = .ok bs →
      Receipts.canonicalBytesOf v' = .ok bs →
      ∃ w, Receipts.same v w = true ∧ Receipts.same v' w = true) ∧
    ∀ e amount balanceAfter bs, e.version = auditV3 → fixed e.amount = .ok amount →
      fixed e.balanceAfter = .ok balanceAfter → Receipts.isSafe e.sequence = true →
      writtenPayload e = .ok bs →
      Receipts.canonicalBytesOf (Receipts.ofJson (payloadV3 e amount balanceAfter)) = .ok bs := by
  refine ⟨fun v bs => Receipts.canonicalBytesOf_eq_ok, fun v bs room hv hroom h => ?_,
    fun v v' bs hv hv' h h' => ?_, fun e amount balanceAfter bs hv ha hb hsafe h => ?_⟩
  · exact Receipts.loadsStrict_canonicalBytesOf hv hroom h
  · exact Receipts.same_of_canonicalBytesOf hv hv' h h'
  · exact (canonicalBytesOf_document ha hb hv).mpr ⟨hsafe, h⟩

/-- An AGOV3 entry of a dollar, at a sequence. -/
def numbered (sequence : ℤ) : LedgerEntry :=
  { draft 1 2 .spend .debit (txt "root") 1 0 with sequence := sequence }

theorem fixed_one : fixed (Decimal.ofInt 1) = .ok (txt "1.00000000") := by
  decide +kernel

theorem fixed_zero : fixed (Decimal.ofInt 0) = .ok (txt "0.00000000") := by
  decide +kernel

theorem exists_writtenPayload : (∃ bs, writtenPayload (numbered 1) = .ok bs) ∧
    ∃ bs, writtenPayload (numbered (2 ^ 53)) = .ok bs :=
  ⟨exists_of_isOk (by decide +kernel), exists_of_isOk (by decide +kernel)⟩

/-- A mapping of two members, and the payload of an entry. -/
theorem canonical_exact_sample :
    (∃ w, Receipts.loadsStrict 1 (Text.ascii (txt "\x7b\"a\":null,\"b\":1\x7d")) = .ok w ∧
      Receipts.same (.mapping [(.str (txt "b"), .int 1), (.str (txt "a"), .none)]) w = true) ∧
    (∃ w, Receipts.same (.bool true) w = true ∧ Receipts.same (.bool true) w = true) ∧
    ∃ bs, Receipts.canonicalBytesOf
      (Receipts.ofJson (payloadV3 (numbered 1) (txt "1.00000000") (txt "0.00000000"))) =
        .ok bs := by
  obtain ⟨-, hback, hsame, hdocument⟩ := canonical_exact
  refine ⟨hback _ _ 1 ⟨?_, trivial, trivial, trivial⟩ ?_ ?_,
    hsame _ _ (Text.ascii (txt "true")) trivial trivial rfl rfl, ?_⟩
  · decide
  · decide
  · rfl
  · obtain ⟨bs, hbs⟩ := exists_writtenPayload.1
    exact ⟨bs, hdocument _ _ _ bs rfl fixed_one fixed_zero (by decide) hbs⟩

/-- A lone surrogate is written by the recursive encoder alone, and an entry beyond the safe
integers is hashed though its document has no canonical bytes. -/
theorem canonical_not_exact :
    (∃ t, Receipts.encode (txt "$") (.str [0xD800]) = .ok t ∧
      ∀ bs, Receipts.canonicalBytesOf (.str [0xD800]) ≠ .ok bs) ∧
    ∃ bs, writtenPayload (numbered (2 ^ 53)) = .ok bs ∧
      Receipts.canonicalBytesOf (Receipts.ofJson
        (payloadV3 (numbered (2 ^ 53)) (txt "1.00000000") (txt "0.00000000"))) ≠ .ok bs := by
  constructor
  · refine ⟨_, rfl, fun bs h => ?_⟩
    cases h
  · obtain ⟨bs, hbs⟩ := exists_writtenPayload.2
    refine ⟨bs, hbs, fun h => ?_⟩
    have hsafe := ((canonicalBytesOf_document fixed_one fixed_zero rfl).mp h).1
    exact absurd hsafe (by decide)

end AgentGov
