import AgentGov.Payloads

/-!
# Audit lines

An entry is logged as one line of fields between bars, its free texts escaped where they are not
printable ASCII, or hold a bar or a backslash (`src/src/agentgov/core.py`, lines 712–714 and
851–907). A counterparty that is absent is written as a hyphen, and so is one that is a hyphen.

## Main definitions

* `AgentGov.escape`, `AgentGov.unescape`: a free text in a field, and what undoes it.
* `AgentGov.formatAuditLine`: the line of an entry.
* `AgentGov.readAuditLine`: what is read of a line.

## Main results

* `AgentGov.unescape_escape`: a text without surrogates is read back.
* `AgentGov.auditLine_faithful_iff`: which entries are read back from their lines.
* `AgentGov.auditLine_shared`: two counterparties of one line.
-/

open Foundation

namespace AgentGov

/-! ### Escaped texts -/

/-- What `_LOG_UNSAFE` does not find: printable ASCII but the bar and the backslash. -/
def isLogSafe (c : CodePoint) : Bool :=
  (0x20 ≤ c.val && c.val ≤ 0x5b) || (0x5d ≤ c.val && c.val ≤ 0x7b) || c.val = 0x7d || c.val = 0x7e

/-- `str.replace` of one character. -/
def replaceChar (c : CodePoint) (new t : Text) : Text :=
  t.flatMap fun d => if d = c then new else [d]

/-- `_escape`. -/
def escape (t : Text) : Text :=
  if t.all isLogSafe then t
  else
    let body := ((Json.dump Json.quoteAscii (.str t)).drop 1).dropLast
    replaceChar 0x7f (txt "\\u007f") (replaceChar 0x7c (txt "\\u007c") body)

/-- What undoes `_escape`: a field with a backslash is the body of a JSON string. -/
def unescape (field : Text) : Option Text :=
  if 0x5c ∈ field then
    match Json.loads 0 (txt "\"" ++ field ++ txt "\"") with
    | .ok (.str t) => some t
    | _ => none
  else some field

/-- Whether a code point may stand in a field: printable ASCII but the bar. -/
def isFieldChar (c : CodePoint) : Bool := 0x20 ≤ c.val && c.val ≤ 0x7e && c.val != 0x7c

/-- What a code point is escaped as, in a text that is escaped. -/
def escapeChar (c : CodePoint) : Text :=
  if c.val = 0x7c then Json.escapeUnit 0x7c else Json.quoteCharAscii c

theorem field_of_safe {c : CodePoint} (h : isLogSafe c = true) : isFieldChar c = true := by
  simp only [isLogSafe, Bool.or_eq_true, Bool.and_eq_true, decide_eq_true_eq] at h
  simp only [isFieldChar, Bool.and_eq_true, decide_eq_true_eq, bne_iff_ne]
  omega

theorem field_of_token {c : CodePoint} (h : isToken c = true) : isFieldChar c = true := by
  simp only [isToken, isDigit, Bool.or_eq_true, Bool.and_eq_true, decide_eq_true_eq] at h
  simp only [isFieldChar, Bool.and_eq_true, decide_eq_true_eq, bne_iff_ne]
  omega

theorem all_field_of_token {t : Text} (h : t.all isToken = true) : t.all isFieldChar = true :=
  all_of_token (fun _ => field_of_token) h

theorem all_field_escapeUnit (n : ℕ) : (Json.escapeUnit n).all isFieldChar = true := by
  rw [Json.escapeUnit, List.all_append, all_field_of_token (all_token_hexDigits 4 n), Bool.and_true]
  decide

/-- A code point but the bar is quoted in ASCII as field characters. -/
theorem all_field_quoteCharAscii {c : CodePoint} (h : c.val ≠ 0x7c) :
    (Json.quoteCharAscii c).all isFieldChar = true := by
  have hunit := all_field_escapeUnit
  unfold Json.quoteCharAscii
  split_ifs with hascii hplane
  · unfold Json.quoteChar
    split_ifs
    -- the letters and the marks that are escaped, then the control codes and what is kept
    · decide
    · decide
    · decide
    · decide
    · decide
    · decide
    · decide
    · exact hunit _
    · simp only [List.all_cons, List.all_nil, Bool.and_true, isFieldChar, Bool.and_eq_true,
        decide_eq_true_eq, bne_iff_ne]
      omega
  · exact hunit _
  · rw [List.all_append, hunit, hunit, Bool.and_self]

theorem replaceChar_of_not_mem {c : CodePoint} {t : Text} (h : c ∉ t) (new : Text) :
    replaceChar c new t = t := by
  have hkeep : ∀ d ∈ t, (if d = c then new else [d]) = [d] := fun d hd =>
    if_neg fun hdc : d = c => h (hdc ▸ hd)
  rw [replaceChar, List.flatMap_congr hkeep, List.flatMap_singleton']

/-- The two replacements turn a quoted code point into an escaped one. -/
theorem replaced_quoteCharAscii (c : CodePoint) :
    replaceChar 0x7f (txt "\\u007f") (replaceChar 0x7c (txt "\\u007c") (Json.quoteCharAscii c)) =
      escapeChar c := by
  unfold escapeChar
  split_ifs with hbar
  · obtain rfl : c = 0x7c := Fin.ext hbar
    decide
  · have hfield := List.all_eq_true.mp (all_field_quoteCharAscii hbar)
    rw [replaceChar_of_not_mem (c := 0x7c), replaceChar_of_not_mem (c := 0x7f)]
    · intro hmem
      exact absurd (hfield _ hmem) (by decide)
    · intro hmem
      exact absurd (hfield _ hmem) (by decide)

/-- A text that is escaped is escaped one code point after the other. -/
theorem escape_eq {t : Text} (h : ¬t.all isLogSafe = true) : escape t = t.flatMap escapeChar := by
  have hbody : ((Json.dump Json.quoteAscii (.str t)).drop 1).dropLast =
      t.flatMap Json.quoteCharAscii := by
    rw [Json.dump, Json.quoteAscii, Json.ofString_quote]
    exact List.dropLast_concat
  rw [escape, if_neg h, hbody]
  simp only [replaceChar, List.flatMap_assoc]
  refine List.flatMap_congr fun c _ => ?_
  rw [← replaced_quoteCharAscii, replaceChar, replaceChar, List.flatMap_assoc]

theorem all_field_escapeChar (c : CodePoint) : (escapeChar c).all isFieldChar = true := by
  unfold escapeChar
  split_ifs with hbar
  · exact all_field_escapeUnit _
  · exact all_field_quoteCharAscii hbar

/-- A free text is placed in its field as field characters. -/
theorem all_field_escape (t : Text) : (escape t).all isFieldChar = true := by
  by_cases h : t.all isLogSafe = true
  · rw [escape, if_pos h]
    exact List.all_eq_true.mpr fun c hc => field_of_safe (List.all_eq_true.mp h c hc)
  · rw [escape_eq h, List.all_flatMap]
    exact List.all_eq_true.mpr fun c _ => all_field_escapeChar c

/-- What is not placed as it is starts with a backslash. -/
theorem mem_escapeChar {c : CodePoint} (h : ¬isLogSafe c = true) : 0x5c ∈ escapeChar c := by
  have hunit (n : ℕ) : (0x5c : CodePoint) ∈ Json.escapeUnit n :=
    List.mem_append_left _ (by decide)
  unfold escapeChar
  split_ifs with hbar
  · exact hunit _
  unfold Json.quoteCharAscii
  split_ifs with hascii hplane
  · unfold Json.quoteChar
    split_ifs
    · decide
    · decide
    · decide
    · decide
    · decide
    · decide
    · decide
    · exact hunit _
    · simp only [isLogSafe, Bool.or_eq_true, Bool.and_eq_true, decide_eq_true_eq] at h
      omega
  · exact hunit _
  · exact List.mem_append_left _ (hunit _)

theorem reads_escapeChar {c : CodePoint} (hs : Text.isSurrogate c = false) :
    Json.Reads (escapeChar c) c := by
  unfold escapeChar
  split_ifs with hbar
  · rw [← hbar]
    exact Json.reads_escapeUnit (by omega) hs
  · exact Json.reads_quoteCharAscii hs

/-- A text without surrogates is read back. -/
theorem unescape_escape {t : Text} (hs : t.any Text.isSurrogate = false) :
    unescape (escape t) = some t := by
  by_cases h : t.all isLogSafe = true
  · have hnone : (0x5c : CodePoint) ∉ t := fun hmem =>
      absurd (List.all_eq_true.mp h _ hmem) (by decide)
    rw [escape, if_pos h, unescape, if_neg hnone]
  · obtain ⟨c, hc, hunsafe⟩ : ∃ c ∈ t, ¬isLogSafe c = true := by
      simpa [List.all_eq_true] using h
    have hmem : (0x5c : CodePoint) ∈ t.flatMap escapeChar :=
      List.mem_flatMap.mpr ⟨c, hc, mem_escapeChar hunsafe⟩
    have hreads : ∀ c ∈ t, Json.Reads (escapeChar c) c := fun c hc =>
      reads_escapeChar (List.any_eq_false.mp hs c hc |> Bool.eq_false_iff.mpr)
    have hloads := Json.loads_string 0 (Json.scanString_reads hreads [])
    rw [escape_eq h, unescape, if_pos hmem, show txt "\"" = [34] from Json.ofString_quote,
      List.singleton_append, List.cons_append, hloads]

/-! ### Lines -/

/-- `f"{sequence:010d}"`: ten characters, a sign among them. -/
def sequenceText (n : ℤ) : Text :=
  if n < 0 then txt "-" ++ paddedDigits 9 n.natAbs else paddedDigits 10 n.natAbs

/-- The counterparty of a line: a hyphen where there is none. -/
def counterpartyText : Option Text → Text
  | none | some [] => txt "-"
  | some t => escape t

/-- The line of an entry whose amounts are written so. -/
def auditLine (e : LedgerEntry) (amount balance : Text) : Text :=
  e.version ++ txt "|seq=" ++ sequenceText e.sequence ++ txt "|txn=" ++ e.transactionId.text ++
    txt "|ts=" ++ e.timestamp.iso ++ txt "|type=" ++ e.entryType.text ++ txt "|dir=" ++
    e.direction.text ++ txt "|scope=" ++ escape e.scopeId ++ txt "|cpty=" ++
    counterpartyText e.counterpartyId ++ txt "|amt=" ++ amount ++ txt "|bal=" ++ balance ++
    txt "|h=" ++ e.entryHash.take 16 ++
    (match e.ref with
      | some ref => txt "|ref=" ++ ref.text
      | none => []) ++
    if e.memo = [] then [] else txt "|memo=" ++ escape e.memo

/-- `format_audit_line`. -/
def formatAuditLine (e : LedgerEntry) : Except Error Text := do
  let amount ← amountText e.version e.amount
  let balance ← amountText e.version e.balanceAfter
  .ok (auditLine e amount balance)

/-- The last fields of a line: the reference and the memo, where there are such. -/
def auditTrailer (ref : Option UUID) (memo : Text) : List Text :=
  (match ref with
    | some ref => [txt "ref=" ++ ref.text]
    | none => []) ++
  if memo = [] then [] else [txt "memo=" ++ escape memo]

/-- The fields of a line, in order. -/
def auditFields (e : LedgerEntry) (amount balance : Text) : List Text :=
  [e.version, txt "seq=" ++ sequenceText e.sequence, txt "txn=" ++ e.transactionId.text,
    txt "ts=" ++ e.timestamp.iso, txt "type=" ++ e.entryType.text, txt "dir=" ++ e.direction.text,
    txt "scope=" ++ escape e.scopeId, txt "cpty=" ++ counterpartyText e.counterpartyId,
    txt "amt=" ++ amount, txt "bal=" ++ balance, txt "h=" ++ e.entryHash.take 16] ++
    auditTrailer e.ref e.memo

/-- The labels of fields, after their bars. -/
theorem labels_eq : txt "|seq=" = 0x7c :: txt "seq=" ∧ txt "|txn=" = 0x7c :: txt "txn=" ∧
    txt "|ts=" = 0x7c :: txt "ts=" ∧ txt "|type=" = 0x7c :: txt "type=" ∧
    txt "|dir=" = 0x7c :: txt "dir=" ∧ txt "|scope=" = 0x7c :: txt "scope=" ∧
    txt "|cpty=" = 0x7c :: txt "cpty=" ∧ txt "|amt=" = 0x7c :: txt "amt=" ∧
    txt "|bal=" = 0x7c :: txt "bal=" ∧ txt "|h=" = 0x7c :: txt "h=" ∧
    txt "|ref=" = 0x7c :: txt "ref=" ∧ txt "|memo=" = 0x7c :: txt "memo=" := by
  decide

/-- A line is its fields between bars. -/
theorem auditLine_eq (e : LedgerEntry) (amount balance : Text) :
    auditLine e amount balance = [0x7c].intercalate (auditFields e amount balance) := by
  obtain ⟨h1, h2, h3, h4, h5, h6, h7, h8, h9, h10, h11, h12⟩ := labels_eq
  unfold auditLine auditFields auditTrailer
  rw [h1, h2, h3, h4, h5, h6, h7, h8, h9, h10]
  cases e.ref <;> split_ifs <;>
    simp only [h11, h12, List.append_assoc, List.cons_append, List.nil_append, List.append_nil,
      List.intercalate_cons_cons, List.intercalate_singleton]

/-! ### Reading a line -/

/-- What a line says of an entry. -/
structure AuditRecord where
  version : Text
  sequence : ℤ
  transactionId : UUID
  timestamp : Instant
  entryType : EntryType
  direction : Direction
  scopeId : Text
  counterpartyId : Option Text
  amount : Option Value
  balanceAfter : Option Value
  hash : Text
  ref : Option UUID
  memo : Text

/-- What the line of an entry is to say. -/
def LedgerEntry.audited (e : LedgerEntry) : AuditRecord where
  version := e.version
  sequence := e.sequence
  transactionId := e.transactionId
  timestamp := e.timestamp
  entryType := e.entryType
  direction := e.direction
  scopeId := e.scopeId
  counterpartyId := e.counterpartyId
  amount := e.amount.value?
  balanceAfter := e.balanceAfter.value?
  hash := e.entryHash.take 16
  ref := e.ref
  memo := e.memo

/-- The value of a field with a label. -/
def labelled (label : String) (field : Text) : Option Text := Text.stripPrefix? (txt label) field

/-- The counterparty a field names: a hyphen names none. -/
def counterpartyOf (t : Text) : Option (Option Text) :=
  if t = txt "-" then some none else (unescape t).map some

/-- The reference and the memo of the last fields, where there are such. -/
def trailerOf : List Text → Option (Option UUID × Text)
  | [] => some (none, [])
  | [t] =>
    match labelled "ref=" t with
    | some ref => (uuidOf ref).map fun ref => (some ref, [])
    | none => ((labelled "memo=" t).bind unescape).map fun memo => (none, memo)
  | [t, u] => do
    let ref ← (labelled "ref=" t).bind uuidOf
    let memo ← (labelled "memo=" u).bind unescape
    some (some ref, memo)
  | _ => none

/-- What is read of a line: its fields are cut at the bars, and each is read by its label. -/
def readAuditLine (line : Text) : Option AuditRecord :=
  match line.splitOn 0x7c with
  | version :: seq :: txn :: ts :: kind :: dir :: scope :: cpty :: amt :: bal :: hash ::
      trailer => do
    let sequence ← labelled "seq=" seq
    let transactionId ← (labelled "txn=" txn).bind uuidOf
    let timestamp ← (labelled "ts=" ts).bind instantOf
    let entryType ← (labelled "type=" kind).bind kindOf
    let direction ← (labelled "dir=" dir).bind directionOf
    let scopeId ← (labelled "scope=" scope).bind unescape
    let counterpartyId ← (labelled "cpty=" cpty).bind counterpartyOf
    let amount ← labelled "amt=" amt
    let balance ← labelled "bal=" bal
    let hash ← labelled "h=" hash
    let trailer ← trailerOf trailer
    some {
      version := version
      sequence := integerOf sequence
      transactionId := transactionId
      timestamp := timestamp
      entryType := entryType
      direction := direction
      scopeId := scopeId
      counterpartyId := counterpartyId
      amount := (decimalOf amount).value?
      balanceAfter := (decimalOf balance).value?
      hash := hash
      ref := trailer.1
      memo := trailer.2 }
  | _ => none

/-- An entry whose free texts have no surrogates. Its version and its hash are the ledger's own. -/
structure Legible (e : LedgerEntry) : Prop where
  version : e.version.all isToken = true
  entryHash : e.entryHash.all isHexDigit = true
  scopeId : e.scopeId.any Text.isSurrogate = false
  counterpartyId : ∀ t ∈ e.counterpartyId, t.any Text.isSurrogate = false
  memo : e.memo.any Text.isSurrogate = false

/-- Whether a line tells the counterparty: it is neither empty nor a hyphen. -/
structure Told (c : Option Text) : Prop where
  not_empty : c ≠ some []
  not_hyphen : c ≠ some (txt "-")

/-- Whether the line of an entry is one line of printable ASCII that is cut at its bars into the
fields, and says what it is to say of the entry. -/
structure Faithful (e : LedgerEntry) (line : Text) : Prop where
  printable : line.all (fun c => 0x20 ≤ c.val && c.val ≤ 0x7e) = true
  fields : ∃ amount balance, amountText e.version e.amount = .ok amount ∧
    amountText e.version e.balanceAfter = .ok balance ∧
    line.splitOn 0x7c = auditFields e amount balance
  read : readAuditLine line = some e.audited

/-! ### What is read -/

theorem integerOf_sequenceText (n : ℤ) : integerOf (sequenceText n) = n := by
  unfold sequenceText
  split_ifs with hneg
  · rw [show txt "-" = [45] by decide]
    change -(ofDecimalDigits (paddedDigits 9 n.natAbs) : ℤ) = n
    rw [ofDecimalDigits_paddedDigits]
    omega
  · rw [integerOf_digits (all_digit_paddedDigits 10 _), ofDecimalDigits_paddedDigits]
    omega

theorem all_token_sequenceText (n : ℤ) : (sequenceText n).all isToken = true := by
  unfold sequenceText
  split_ifs
  · rw [List.all_append, all_token_marks.1, all_token_paddedDigits, Bool.and_self]
  · exact all_token_paddedDigits 10 _

section Amounts

variable {version t : Text} {d : Decimal} (h : amountText version d = .ok t)
include h

theorem all_token_amountText : t.all isToken = true := by
  unfold amountText at h
  split_ifs at h
  · exact all_token_fixed h
  · rw [← Except.ok.inj h]
    exact all_token_decimalText d

/-- The amount of a line is read back. -/
theorem decimalOf_amountText : (decimalOf t).value? = d.value? := by
  unfold amountText at h
  split_ifs at h
  · exact decimalOf_fixed h
  · rw [← Except.ok.inj h, decimalOf_decimalText]

end Amounts

/-- The last fields of a line are read back. -/
theorem trailerOf_auditTrailer (ref : Option UUID) {memo : Text}
    (hs : memo.any Text.isSurrogate = false) :
    trailerOf (auditTrailer ref memo) = some (ref, memo) := by
  have hother : Text.stripPrefix? (txt "ref=") (txt "memo=" ++ escape memo) = none := by
    rw [show txt "memo=" = 109 :: txt "emo=" by decide,
      show txt "ref=" = 114 :: txt "ef=" by decide]
    exact if_neg (by decide)
  unfold auditTrailer
  cases ref <;> split_ifs with hmemo
  · rw [hmemo]
    rfl
  · simp only [List.nil_append, trailerOf, labelled, hother, Text.stripPrefix?_append,
      Option.bind_some, unescape_escape hs, Option.map_some]
  · simp only [List.append_nil, trailerOf, labelled, Text.stripPrefix?_append, uuidOf_text,
      Option.map_some, hmemo]
  · simp only [List.cons_append, List.nil_append, trailerOf, labelled, Text.stripPrefix?_append,
      Option.bind_some, uuidOf_text, unescape_escape hs]
    rfl

/-- A counterparty is read back where it is told. -/
theorem counterpartyOf_iff {c : Option Text} (hs : ∀ t ∈ c, t.any Text.isSurrogate = false) :
    counterpartyOf (counterpartyText c) = some c ↔ Told c := by
  match c with
  | none => exact iff_of_true rfl ⟨by simp, by simp⟩
  | some [] => exact iff_of_false (by decide) fun h => h.not_empty rfl
  | some (x :: xs) =>
    have hread := unescape_escape (hs _ rfl)
    rw [show counterpartyText (some (x :: xs)) = escape (x :: xs) from rfl, counterpartyOf]
    by_cases hhyphen : escape (x :: xs) = txt "-"
    · have heq : x :: xs = txt "-" := by
        rw [hhyphen] at hread
        exact (Option.some.inj hread).symm
      rw [if_pos hhyphen, heq]
      exact iff_of_false (by simp) fun h => h.not_hyphen rfl
    · rw [if_neg hhyphen, hread]
      refine iff_of_true rfl ⟨by simp, fun heq => hhyphen ?_⟩
      rw [Option.some.inj heq]
      decide

/-- The labels are of field characters. -/
theorem all_field_labels : (txt "seq=").all isFieldChar = true ∧
    (txt "txn=").all isFieldChar = true ∧ (txt "ts=").all isFieldChar = true ∧
    (txt "type=").all isFieldChar = true ∧ (txt "dir=").all isFieldChar = true ∧
    (txt "scope=").all isFieldChar = true ∧ (txt "cpty=").all isFieldChar = true ∧
    (txt "amt=").all isFieldChar = true ∧ (txt "bal=").all isFieldChar = true ∧
    (txt "h=").all isFieldChar = true ∧ (txt "ref=").all isFieldChar = true ∧
    (txt "memo=").all isFieldChar = true := by
  decide

theorem all_field_counterpartyText (c : Option Text) :
    (counterpartyText c).all isFieldChar = true := by
  unfold counterpartyText
  split
  · decide
  · decide
  · exact all_field_escape _

theorem all_field_auditTrailer (ref : Option UUID) (memo : Text) :
    (auditTrailer ref memo).all (fun l => l.all isFieldChar) = true := by
  unfold auditTrailer
  cases ref <;> split_ifs <;>
    simp only [List.all_append, List.all_cons, List.all_nil, all_field_labels, all_field_escape,
      all_field_of_token (UUID.all_token_text _), Bool.and_self]

/-- A text of parts between bars. -/
theorem all_intercalate {p : CodePoint → Bool} {sep : Text} {ls : List Text}
    (hsep : sep.all p = true) (hls : ls.all (fun l => l.all p) = true) :
    (sep.intercalate ls).all p = true := by
  induction ls with
  | nil => rfl
  | cons l ls ih =>
    rw [List.all_cons, Bool.and_eq_true] at hls
    cases ls with
    | nil => rw [List.intercalate_singleton, hls.1]
    | cons l' ls =>
      rw [List.intercalate_cons_cons, List.all_append, List.all_append, hls.1, hsep, ih hls.2]
      rfl

section Lines

variable {e : LedgerEntry} {amount balance : Text} (legible : Legible e)
  (ha : amountText e.version e.amount = .ok amount)
  (hb : amountText e.version e.balanceAfter = .ok balance)
include legible ha hb

/-- Every field of a line is of field characters. -/
theorem all_field_auditFields :
    (auditFields e amount balance).all (fun l => l.all isFieldChar) = true := by
  have hhash : (e.entryHash.take 16).all isToken = true :=
    all_token_of_subset (all_token_of_hex legible.entryHash) (List.take_subset 16 _)
  simp only [auditFields, List.all_append, List.all_cons, List.all_nil, all_field_labels,
    all_field_escape, all_field_counterpartyText, all_field_auditTrailer,
    all_field_of_token legible.version, all_field_of_token (all_token_sequenceText _),
    all_field_of_token (UUID.all_token_text _), all_field_of_token (Instant.all_token_iso _),
    all_field_of_token (EntryType.all_token_text _),
    all_field_of_token (Direction.all_token_text _), all_field_of_token (all_token_amountText ha),
    all_field_of_token (all_token_amountText hb), all_field_of_token hhash, Bool.and_self]

/-- A line is cut at its bars into its fields. -/
theorem splitOn_auditLine :
    (auditLine e amount balance).splitOn 0x7c = auditFields e amount balance := by
  have hfields := List.all_eq_true.mp (all_field_auditFields legible ha hb)
  rw [auditLine_eq]
  refine List.splitOn_intercalate _ (fun l hl hbar => ?_) (by simp [auditFields])
  exact absurd (List.all_eq_true.mp (hfields l hl) _ hbar) (by decide)

theorem all_printable_auditLine :
    (auditLine e amount balance).all (fun c => 0x20 ≤ c.val && c.val ≤ 0x7e) = true := by
  have hfields := List.all_eq_true.mp (all_field_auditFields legible ha hb)
  rw [auditLine_eq]
  refine all_intercalate (by decide) (List.all_eq_true.mpr fun l hl => ?_)
  refine List.all_eq_true.mpr fun c hc => ?_
  have hfield := List.all_eq_true.mp (hfields l hl) c hc
  rw [isFieldChar, Bool.and_eq_true] at hfield
  exact hfield.1

/-- What is read of the line of an entry is what it is to say, but for its counterparty. -/
theorem readAuditLine_auditLine : readAuditLine (auditLine e amount balance) =
    (counterpartyOf (counterpartyText e.counterpartyId)).map fun c =>
      { e.audited with counterpartyId := c } := by
  rw [readAuditLine, splitOn_auditLine legible ha hb]
  simp only [auditFields, List.cons_append, List.nil_append, labelled, Text.stripPrefix?_append,
    Option.bind_some, uuidOf_text, instantOf_iso, kindOf_text, directionOf_text,
    unescape_escape legible.scopeId, trailerOf_auditTrailer _ legible.memo, bind,
    integerOf_sequenceText, decimalOf_amountText ha, decimalOf_amountText hb]
  cases counterpartyOf (counterpartyText e.counterpartyId) <;> rfl

/-- A line is faithful exactly where its counterparty is told. -/
theorem faithful_auditLine_iff :
    Faithful e (auditLine e amount balance) ↔ Told e.counterpartyId := by
  rw [← counterpartyOf_iff legible.counterpartyId]
  have hread := readAuditLine_auditLine legible ha hb
  constructor
  · intro h
    rw [h.read] at hread
    obtain ⟨c, hc, heq⟩ := Option.map_eq_some_iff.mp hread.symm
    rw [hc]
    exact congrArg some (congrArg AuditRecord.counterpartyId heq)
  · intro h
    rw [h] at hread
    exact ⟨all_printable_auditLine legible ha hb,
      ⟨amount, balance, ha, hb, splitOn_auditLine legible ha hb⟩, hread⟩

end Lines

/-- What is written as a line is the line of an entry's amounts. -/
theorem formatAuditLine_eq_ok {e : LedgerEntry} {line : Text} (h : formatAuditLine e = .ok line) :
    ∃ amount balance, amountText e.version e.amount = .ok amount ∧
      amountText e.version e.balanceAfter = .ok balance ∧ line = auditLine e amount balance := by
  obtain ⟨amount, ha, h⟩ := bind_eq_ok.mp h
  obtain ⟨balance, hb, h⟩ := bind_eq_ok.mp h
  exact ⟨amount, balance, ha, hb, (Except.ok.inj h).symm⟩

theorem faithful_formatted_iff {e : LedgerEntry} {line : Text} (legible : Legible e)
    (h : formatAuditLine e = .ok line) : Faithful e line ↔ Told e.counterpartyId := by
  obtain ⟨amount, balance, ha, hb, hline⟩ := formatAuditLine_eq_ok h
  rw [hline]
  exact faithful_auditLine_iff legible ha hb

/-- An entry that has a hash has a line. -/
theorem formatAuditLine_of_hashEntry {e : LedgerEntry} {h : Text} (hashed : hashEntry e = .ok h) :
    ∃ line, formatAuditLine e = .ok line := by
  have hlines : ∃ amount balance, amountText e.version e.amount = .ok amount ∧
      amountText e.version e.balanceAfter = .ok balance := by
    by_cases hv : e.version = auditV3
    · rw [hashEntry, if_pos hv] at hashed
      obtain ⟨amount, ha, hashed⟩ := bind_eq_ok.mp hashed
      obtain ⟨balance, hb, -⟩ := bind_eq_ok.mp hashed
      exact ⟨amount, balance, by rw [amountText, if_pos hv, ha], by rw [amountText, if_pos hv, hb]⟩
    · exact ⟨_, _, by rw [amountText, if_neg hv], by rw [amountText, if_neg hv]⟩
  obtain ⟨amount, balance, ha, hb⟩ := hlines
  exact ⟨auditLine e amount balance, by rw [formatAuditLine, ha, hb]; rfl⟩

/-- Free texts are placed as field characters, and read back where they have no surrogates. An entry
that has a hash has a line. The line of an entry is one line of printable ASCII, is cut into the
fields in order and says what it is to say, exactly where the counterparty is told; and entries of
one line, whose counterparties are told, say the same. -/
theorem auditLine_faithful_iff {e : LedgerEntry} {line : Text} (legible : Legible e)
    (h : formatAuditLine e = .ok line) :
    (Faithful e line ↔ Told e.counterpartyId) ∧
    (∀ e', Legible e' → formatAuditLine e' = .ok line → Told e.counterpartyId →
      Told e'.counterpartyId → e.audited = e'.audited) ∧
    (∀ t, (escape t).all isFieldChar = true) ∧
    (∀ t : Text, t.any Text.isSurrogate = false → unescape (escape t) = some t) ∧
    ∀ e' hash, hashEntry e' = .ok hash → ∃ line', formatAuditLine e' = .ok line' := by
  refine ⟨faithful_formatted_iff legible h, fun e' legible' h' told told' => ?_, all_field_escape,
    fun _ => unescape_escape, fun _ _ => formatAuditLine_of_hashEntry⟩
  have hread := ((faithful_formatted_iff legible h).mpr told).read
  rw [((faithful_formatted_iff legible' h').mpr told').read] at hread
  exact (Option.some.inj hread).symm

/-- An allocation of two dollars to a counterparty. -/
def allocated (counterparty : Option Text) : LedgerEntry :=
  { draft 1 2 .allocation .debit (txt "root") 2 8 with
    counterpartyId := counterparty
    entryHash := genesisHash }

theorem legible_allocated {counterparty : Option Text}
    (h : ∀ t ∈ counterparty, t.any Text.isSurrogate = false) :
    Legible (allocated counterparty) where
  version := show auditV3.all isToken = true by decide
  entryHash := show genesisHash.all isHexDigit = true by decide
  scopeId := show (txt "root").any Text.isSurrogate = false by decide
  counterpartyId := h
  memo := rfl

theorem formatAuditLine_allocated (counterparty : Option Text) :
    formatAuditLine (allocated counterparty) =
      .ok (auditLine (allocated counterparty) (txt "2.00000000") (txt "8.00000000")) := by
  have hamounts : amountText auditV3 (Decimal.ofInt 2) = .ok (txt "2.00000000") ∧
      amountText auditV3 (Decimal.ofInt 8) = .ok (txt "8.00000000") := by decide +kernel
  have ha : amountText (allocated counterparty).version (allocated counterparty).amount =
      .ok (txt "2.00000000") := hamounts.1
  have hb : amountText (allocated counterparty).version (allocated counterparty).balanceAfter =
      .ok (txt "8.00000000") := hamounts.2
  rw [formatAuditLine, ha, hb]
  rfl

theorem auditLine_faithful_iff_allocated : ∃ line,
    formatAuditLine (allocated none) = .ok line ∧ Faithful (allocated none) line :=
  ⟨_, formatAuditLine_allocated none,
    (auditLine_faithful_iff (legible_allocated (by simp)) (formatAuditLine_allocated none)).1.mpr
      ⟨by simp [allocated], by simp [allocated]⟩⟩

/-- A line has no more of a counterparty than its text. -/
theorem auditLine_counterparty (e : LedgerEntry) (amount balance : Text) {c c' : Option Text}
    (h : counterpartyText c = counterpartyText c') :
    auditLine { e with counterpartyId := c } amount balance =
      auditLine { e with counterpartyId := c' } amount balance := by
  unfold auditLine
  dsimp only
  rw [h]

/-- A counterparty that is a hyphen is written like none. -/
theorem auditLine_shared : Legible (allocated none) ∧ Legible (allocated (some (txt "-"))) ∧
    (allocated none).counterpartyId ≠ (allocated (some (txt "-"))).counterpartyId ∧
    ∃ line, formatAuditLine (allocated none) = .ok line ∧
      formatAuditLine (allocated (some (txt "-"))) = .ok line := by
  have hhyphen : counterpartyText (some (txt "-")) = counterpartyText none := by decide
  refine ⟨legible_allocated (by simp), legible_allocated fun t ht => ?_, by simp [allocated], _,
    formatAuditLine_allocated none, ?_⟩
  · cases ht
    decide
  · rw [formatAuditLine_allocated]
    exact congrArg Except.ok (auditLine_counterparty (allocated none) _ _ hhyphen)

end AgentGov
