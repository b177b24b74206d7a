import AgentGov.FieldTexts
import AgentGov.Foundation.JsonCodes

/-!
# What a hash covers

The payload an entry's hash is taken of tells apart the version and every field it covers
(`src/src/agentgov/core.py`, lines 754–848). An AGOV1 payload does not cover the reference; AGOV1
and AGOV2 payloads are ASCII, and tell texts apart by their UTF-16 units.

## Main definitions

* `AgentGov.hashPayload`: the bytes that are hashed.
* `AgentGov.SamePayloadFields`: two entries that agree in what their payloads cover.

## Main results

* `AgentGov.hashEntry_eq`: a hash is the hash of the payload.
* `AgentGov.same_of_hashPayload`: entries of one payload agree.
-/

open Foundation

namespace AgentGov

/-- The bytes `_hash_entry` hashes. -/
def hashPayload (e : LedgerEntry) : Except Error (List Byte) :=
  if e.version = auditV3 then do
    let amount ← fixed e.amount
    let balanceAfter ← fixed e.balanceAfter
    match (Json.dump Json.quote (payloadV3 e amount balanceAfter)).utf8 with
    | some bytes => .ok bytes
    | none => .error (.value .notUnicode)
  else if e.version = auditV2 then
    .ok (Json.dump Json.quoteAscii (.arr (payloadV1 e ++ [Json.ofText? (refText e.ref)]))).ascii
  else if e.version = auditV1 then
    .ok (Json.dump Json.quoteAscii (.arr (payloadV1 e))).ascii
  else .error (.value (.unknownVersion e.version))

/-- The hash of an entry is the hash of its payload. -/
theorem hashEntry_eq (e : LedgerEntry) : hashEntry e = (hashPayload e).map sha256Hex := by
  rw [hashEntry, hashPayload]
  split_ifs
  · cases fixed e.amount with
    | error err => rfl
    | ok a =>
      cases fixed e.balanceAfter with
      | error err => rfl
      | ok b =>
        simp only [bind, Except.bind]
        cases (Json.dump Json.quote (payloadV3 e a b)).utf8 <;> rfl
  · rfl
  · rfl
  · rfl

/-! ### Texts of ids, instants and amounts -/

theorem any_isSurrogate_of_all {t : Text} (h : t.all Text.isAscii = true) :
    t.any Text.isSurrogate = false := by
  rw [List.any_eq_false]
  intro c hc
  have hlt := List.all_eq_true.mp h c hc
  simp only [Text.isAscii, decide_eq_true_eq] at hlt
  simp only [Text.isSurrogate, Bool.and_eq_true, decide_eq_true_eq]
  omega

/-- Different ids have different texts. -/
theorem UUID.text_injective : Function.Injective UUID.text := fun u v h =>
  Option.some.inj (by rw [← uuidOf_text u, h, uuidOf_text])

/-- Different instants have different texts. -/
theorem Instant.iso_injective : Function.Injective Instant.iso := fun s t h =>
  Option.some.inj (by rw [← instantOf_iso s, h, instantOf_iso])

/-! ### ASCII texts -/

theorem isAscii_of_token {c : CodePoint} (h : isToken c = true) : Text.isAscii c = true := by
  simp only [isToken, isDigit, Bool.or_eq_true, Bool.and_eq_true, decide_eq_true_eq] at h
  simp only [Text.isAscii, decide_eq_true_eq]
  omega

theorem all_isAscii_of_token {t : Text} (h : t.all isToken = true) : t.all Text.isAscii = true :=
  all_of_token (fun _ => isAscii_of_token) h

theorem UUID.all_isAscii_text (u : UUID) : u.text.all Text.isAscii = true :=
  all_isAscii_of_token (UUID.all_token_text u)

theorem Instant.all_isAscii_iso (t : Instant) : t.iso.all Text.isAscii = true :=
  all_isAscii_of_token (Instant.all_token_iso t)

theorem all_isAscii_decimalText (d : Decimal) : (decimalText d).all Text.isAscii = true :=
  all_isAscii_of_token (all_token_decimalText d)

/-! ### What a payload tells apart -/

/-- `_amount_text`: an amount as a version writes it. -/
def amountText (version : Text) (amount : Decimal) : Except Error Text :=
  if version = auditV3 then fixed amount else .ok (decimalText amount)

/-- Texts that a payload does not tell apart. Escapes of AGOV1 and AGOV2 are of UTF-16 units, so
that two surrogates are written like the character they are the units of. -/
def SameText (version s t : Text) : Prop :=
  s = t ∨ version ≠ auditV3 ∧ (s.any Text.isSurrogate = true ∨ t.any Text.isSurrogate = true) ∧
    s.utf16 = t.utf16

/-- Entries that agree in what their payloads cover: an AGOV1 payload does not cover the
reference. -/
structure SamePayloadFields (e e' : LedgerEntry) : Prop where
  version : e.version = e'.version
  prevHash : SameText e.version e.prevHash e'.prevHash
  sequence : e.sequence = e'.sequence
  entryId : e.entryId = e'.entryId
  transactionId : e.transactionId = e'.transactionId
  timestamp : e.timestamp = e'.timestamp
  entryType : e.entryType = e'.entryType
  direction : e.direction = e'.direction
  scopeId : SameText e.version e.scopeId e'.scopeId
  counterpartyId : Option.Rel (SameText e.version) e.counterpartyId e'.counterpartyId
  amount : amountText e.version e.amount = amountText e'.version e'.amount
  balanceAfter : amountText e.version e.balanceAfter = amountText e'.version e'.balanceAfter
  memo : SameText e.version e.memo e'.memo
  ref : e.version ≠ auditV1 → e.ref = e'.ref

theorem sameText_of_units {version s t : Text} (hv : version ≠ auditV3) (h : s.utf16 = t.utf16) :
    SameText version s t := by
  by_cases hs : s.any Text.isSurrogate = true
  · exact Or.inr ⟨hv, Or.inl hs, h⟩
  by_cases ht : t.any Text.isSurrogate = true
  · exact Or.inr ⟨hv, Or.inr ht, h⟩
  · exact Or.inl (Text.utf16_injOn (Bool.eq_false_iff.mpr hs) (Bool.eq_false_iff.mpr ht) h)

/-- ASCII texts are told apart by their UTF-16 units. -/
theorem eq_of_units {s t : Text} (hs : s.all Text.isAscii = true) (ht : t.all Text.isAscii = true)
    (h : s.utf16 = t.utf16) : s = t :=
  Text.utf16_injOn (any_isSurrogate_of_all hs) (any_isSurrogate_of_all ht) h

theorem EntryType.all_isAscii_text (k : EntryType) : k.text.all Text.isAscii = true :=
  all_isAscii_of_token k.all_token_text

theorem Direction.all_isAscii_text (d : Direction) : d.text.all Text.isAscii = true :=
  all_isAscii_of_token d.all_token_text

/-- What strings of JSON values have the same units. -/
def AlikeUnits : Json → Json → Prop := Json.Like fun s t => s.utf16 = t.utf16

theorem rel_of_alikeUnits {version : Text} (hv : version ≠ auditV3) {s t : Option Text}
    (h : AlikeUnits (Json.ofText? s) (Json.ofText? t)) : Option.Rel (SameText version) s t := by
  cases s <;> cases t <;> simp only [AlikeUnits, Json.ofText?, Json.Like] at h
  · exact .none
  · exact .some (sameText_of_units hv h)

theorem ref_of_alikeUnits {u v : Option UUID}
    (h : AlikeUnits (Json.ofText? (refText u)) (Json.ofText? (refText v))) : u = v := by
  cases u <;> cases v <;> simp only [AlikeUnits, refText, Option.map_none, Option.map_some,
    Json.ofText?, Json.Like] at h
  · rfl
  · rw [UUID.text_injective (eq_of_units (UUID.all_isAscii_text _) (UUID.all_isAscii_text _) h)]

/-- The fields AGOV1 and AGOV2 payloads begin with. -/
theorem same_of_payloadV1 {e e' : LedgerEntry} {vs ws : List Json} (hv : e.version ≠ auditV3)
    (hascii : e.version.all Text.isAscii = true) (hascii' : e'.version.all Text.isAscii = true)
    (h : AlikeUnits (.arr (payloadV1 e ++ vs)) (.arr (payloadV1 e' ++ ws)))
    (href : e.version ≠ auditV1 → e.ref = e'.ref) :
    SamePayloadFields e e' := by
  simp only [AlikeUnits, payloadV1, List.cons_append, List.nil_append, Json.Like,
    Json.LikeItems] at h
  obtain ⟨hversion, hprev, hseq, hid, htxn, htime, hkind, hdir, hscope, hparty, hamount, hbalance,
    hmemo, -⟩ := h
  have hsame := eq_of_units hascii hascii' hversion
  exact {
    version := hsame
    prevHash := sameText_of_units hv hprev
    sequence := hseq
    entryId := UUID.text_injective
      (eq_of_units (UUID.all_isAscii_text _) (UUID.all_isAscii_text _) hid)
    transactionId := UUID.text_injective
      (eq_of_units (UUID.all_isAscii_text _) (UUID.all_isAscii_text _) htxn)
    timestamp := Instant.iso_injective
      (eq_of_units (Instant.all_isAscii_iso _) (Instant.all_isAscii_iso _) htime)
    entryType := EntryType.text_injective
      (eq_of_units (EntryType.all_isAscii_text _) (EntryType.all_isAscii_text _) hkind)
    direction := Direction.text_injective
      (eq_of_units (Direction.all_isAscii_text _) (Direction.all_isAscii_text _) hdir)
    scopeId := sameText_of_units hv hscope
    counterpartyId := rel_of_alikeUnits hv hparty
    amount := by
      rw [amountText, amountText, ← hsame, if_neg hv, if_neg hv]
      rw [eq_of_units (all_isAscii_decimalText _) (all_isAscii_decimalText _) hamount]
    balanceAfter := by
      rw [amountText, amountText, ← hsame, if_neg hv, if_neg hv]
      rw [eq_of_units (all_isAscii_decimalText _) (all_isAscii_decimalText _) hbalance]
    memo := sameText_of_units hv hmemo
    ref := href }

theorem rel_refl {version : Text} (s : Option Text) : Option.Rel (SameText version) s s := by
  cases s
  · exact .none
  · exact .some (Or.inl rfl)

theorem ofText?_injective : Function.Injective Json.ofText? := by
  intro s t h
  cases s <;> cases t <;> simp_all [Json.ofText?]

/-- The fields of an AGOV3 payload. -/
theorem same_of_payloadV3 {e e' : LedgerEntry} {a b a' b' : Text} (hv : e.version = auditV3)
    (hv' : e'.version = auditV3) (ha : fixed e.amount = .ok a) (ha' : fixed e'.amount = .ok a')
    (hb : fixed e.balanceAfter = .ok b) (hb' : fixed e'.balanceAfter = .ok b')
    (h : payloadV3 e a b = payloadV3 e' a' b') : SamePayloadFields e e' := by
  simp only [payloadV3, Json.obj.injEq, List.cons.injEq, Prod.mk.injEq, Json.str.injEq,
    Json.int.injEq, true_and, and_true] at h
  obtain ⟨hamount, hbalance, hparty, hdir, hid, hkind, hmemo, hprev, href, hscope, hseq, htime,
    htxn⟩ := h
  have hrefs : e.ref = e'.ref :=
    Option.map_injective UUID.text_injective (ofText?_injective href)
  exact {
    version := hv.trans hv'.symm
    prevHash := Or.inl hprev
    sequence := hseq
    entryId := UUID.text_injective hid
    transactionId := UUID.text_injective htxn
    timestamp := Instant.iso_injective htime
    entryType := EntryType.text_injective hkind
    direction := Direction.text_injective hdir
    scopeId := Or.inl hscope
    counterpartyId := by rw [ofText?_injective hparty]; exact rel_refl _
    amount := by rw [amountText, amountText, if_pos hv, if_pos hv', ha, ha', hamount]
    balanceAfter := by rw [amountText, amountText, if_pos hv, if_pos hv', hb, hb', hbalance]
    memo := Or.inl hmemo
    ref := fun _ => hrefs }

/-- The text a payload is the bytes of. -/
theorem hashPayload_text {e : LedgerEntry} {bs : List Byte} (h : hashPayload e = .ok bs) :
    (e.version = auditV3 ∧ ∃ a b, fixed e.amount = .ok a ∧ fixed e.balanceAfter = .ok b ∧
      (Json.dump Json.quote (payloadV3 e a b)).utf8 = some bs) ∨
    (e.version = auditV2 ∧ (Json.dump Json.quoteAscii
      (.arr (payloadV1 e ++ [Json.ofText? (refText e.ref)]))).utf8 = some bs) ∨
    (e.version = auditV1 ∧
      (Json.dump Json.quoteAscii (.arr (payloadV1 e ++ []))).utf8 = some bs) := by
  rw [hashPayload] at h
  split_ifs at h with h3 h2 h1
  · cases ha : fixed e.amount with
    | error err => simp [ha, bind, Except.bind] at h
    | ok a =>
      cases hb : fixed e.balanceAfter with
      | error err => simp [ha, hb, bind, Except.bind] at h
      | ok b =>
        simp only [ha, hb, bind, Except.bind] at h
        split at h
        · rename_i hutf
          exact Or.inl ⟨h3, a, b, rfl, rfl, hutf.trans (congrArg some (Except.ok.inj h))⟩
        · cases h
  · exact Or.inr (Or.inl ⟨h2, by rw [Json.utf8_dump_quoteAscii, Except.ok.inj h]⟩)
  · rw [List.append_nil]
    exact Or.inr (Or.inr ⟨h1, by rw [Json.utf8_dump_quoteAscii, Except.ok.inj h]⟩)

/-- An object is not written like an array. -/
theorem dump_payloadV3_ne {e e' : LedgerEntry} {a b : Text} {vs : List Json} {bs : List Byte}
    (h : (Json.dump Json.quote (payloadV3 e a b)).utf8 = some bs)
    (h' : (Json.dump Json.quoteAscii (.arr (payloadV1 e' ++ vs))).utf8 = some bs) : False := by
  have heq := Text.utf8_injective h h'
  obtain ⟨c, t, hc, htag, -⟩ := Json.dump_head Json.quotes_quote (payloadV3 e a b)
  obtain ⟨d, u, hd, htag', -⟩ := Json.dump_head Json.quotes_quoteAscii (.arr (payloadV1 e' ++ vs))
  rw [hc, hd, List.cons.injEq] at heq
  rw [heq.1, htag'] at htag
  cases htag

/-- Entries of one payload agree in what it covers. -/
theorem same_of_hashPayload {e e' : LedgerEntry} {bs : List Byte} (h : hashPayload e = .ok bs)
    (h' : hashPayload e' = .ok bs) : SamePayloadFields e e' := by
  have hascii : auditV1.all Text.isAscii = true ∧ auditV2.all Text.isAscii = true := by decide
  have halike : ∀ {v w : Json}, (Json.dump Json.quoteAscii v).utf8 = some bs →
      (Json.dump Json.quoteAscii w).utf8 = some bs → AlikeUnits v w := fun hv hw =>
    Json.like_of_dump_quoteAscii (Text.utf8_injective hv hw)
  rcases hashPayload_text h with ⟨hv, a, b, ha, hb, ht⟩ | ⟨hv, ht⟩ | ⟨hv, ht⟩ <;>
    rcases hashPayload_text h' with ⟨hv', a', b', ha', hb', ht'⟩ | ⟨hv', ht'⟩ | ⟨hv', ht'⟩
  · exact same_of_payloadV3 hv hv' ha ha' hb hb' (Json.dump_injective (Text.utf8_injective ht ht'))
  · exact (dump_payloadV3_ne ht ht').elim
  · exact (dump_payloadV3_ne ht ht').elim
  · exact (dump_payloadV3_ne ht' ht).elim
  · have hlike := halike ht ht'
    refine same_of_payloadV1 (hv ▸ auditV2_ne_auditV3) (hv ▸ hascii.2) (hv' ▸ hascii.2) hlike
      fun _ => ?_
    simp only [AlikeUnits, payloadV1, List.cons_append, List.nil_append, Json.Like,
      Json.LikeItems] at hlike
    exact ref_of_alikeUnits hlike.2.2.2.2.2.2.2.2.2.2.2.2.2.1
  · have hlike := halike ht ht'
    simp only [AlikeUnits, payloadV1, List.cons_append, List.nil_append, Json.Like,
      Json.LikeItems, hv, hv'] at hlike
    exact absurd hlike.1 (by decide)
  · exact (dump_payloadV3_ne ht' ht).elim
  · have hlike := halike ht ht'
    simp only [AlikeUnits, payloadV1, List.cons_append, List.nil_append, Json.Like,
      Json.LikeItems, hv, hv'] at hlike
    exact absurd hlike.1 (by decide)
  · exact same_of_payloadV1 (by rw [hv]; exact auditV1_ne_auditV3) (hv ▸ hascii.1)
      (hv' ▸ hascii.1) (halike ht ht') fun hne => absurd hv hne

/-- An AGOV1 entry, with its reference and its memo. -/
def oldEntry (ref : Option UUID) (memo : Text) : LedgerEntry :=
  { draft 1 2 .spend .debit (txt "ops") 5 5 with
    version := auditV1
    ref := ref
    memo := memo }

theorem hashPayload_oldEntry (ref : Option UUID) (memo : Text) : hashPayload (oldEntry ref memo) =
    .ok (Json.dump Json.quoteAscii (.arr (payloadV1 (oldEntry ref memo)))).ascii := by
  have hversion : (oldEntry ref memo).version = auditV1 := rfl
  rw [hashPayload, hversion, if_neg auditV1_ne_auditV3, if_neg auditV1_ne_auditV2, if_pos rfl]

/-- The two surrogates of a character are written like the character. -/
theorem hashPayload_surrogates :
    hashPayload (oldEntry none [0xD83D, 0xDE00]) = hashPayload (oldEntry none [0x1F600]) := by
  have hquote : Json.quoteAscii [0xD83D, 0xDE00] = Json.quoteAscii [0x1F600] := by decide
  rw [hashPayload_oldEntry, hashPayload_oldEntry]
  simp only [payloadV1, oldEntry, Json.dump, Json.dumpItems, hquote]

/-- An AGOV1 payload does not cover the reference, and does not tell two surrogates from the
character they are the units of. -/
theorem payload_shared :
    (¬∀ (e e' : LedgerEntry) (bs : List Byte), hashPayload e = .ok bs → hashPayload e' = .ok bs →
      e.ref = e'.ref) ∧
    ¬∀ (e e' : LedgerEntry) (bs : List Byte), hashPayload e = .ok bs → hashPayload e' = .ok bs →
      e.memo = e'.memo := by
  constructor
  · intro h
    have hsame := h (oldEntry (some 7) []) (oldEntry none []) _ (hashPayload_oldEntry _ _)
      (hashPayload_oldEntry _ _)
    cases hsame
  · intro h
    have hsame := h (oldEntry none [0xD83D, 0xDE00]) (oldEntry none [0x1F600]) _
      (hashPayload_oldEntry _ _) (hashPayload_surrogates ▸ hashPayload_oldEntry _ _)
    cases hsame

end AgentGov
