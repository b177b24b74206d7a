import AgentGov.Foundation.OrderedDict
import AgentGov.Vocabulary
import Mathlib.Data.List.DropRight
import Mathlib.Data.List.Lex
import Mathlib.Data.List.Sort
import Mathlib.Data.Prod.Lex

/-!
# Reconciling a system of record

The actions a system of record saw matched against the receipts of what an agent wrote, by the
references both carry (`src/src/agentgov/reconciliation.py`, lines 1027–1088 and 1574–1685).
References are many to many. One receipt is kept for every reference, the first that carries it,
and one reference for every record, the first that a receipt carries, so a receipt whose
references are all attributed elsewhere may be reported unobserved.

## Main definitions

* `AgentGov.Actions.Receipt`, `AgentGov.Actions.ActionRecord`: both sides.
* `AgentGov.Actions.reconcileActions`: the report.
* `AgentGov.Actions.Accounted`: what a report has to tell.
* `AgentGov.Actions.Tells`, `AgentGov.Actions.Relists`: reports that tell the same, but for the
  receipts that references are attributed to, and but for the order of what they list.
* `AgentGov.Actions.Traced`: where every receipt is attributed what names it.

## Main results

* `AgentGov.Actions.accounted_iff`: the report accounts for both sides, in whichever order they
  come, just where they are traced.
-/

open Foundation

namespace AgentGov.Actions

/-! ### Receipts and records -/

/-- `OutcomeStatus`. -/
inductive OutcomeStatus
  | committed
  | refused
  | recoveredCommitted
  | recoveredAborted
  | compensated
deriving DecidableEq

/-- `ActionReceipt`: its id, `intent.plan_hash`, `effect.substrate_id`, `coverage.measurement` and
its `outcome`. -/
structure ActionReceipt where
  receiptId : Text
  planHash : Text
  substrateId : Text
  measurement : Text
  status : OutcomeStatus
  substrateTxid : Option Text

/-- `DeliveryReceipt`: its id, its `request` and `delivery.remote_ref`. -/
structure DeliveryReceipt where
  receiptId : Text
  messageId : Text
  idempotencyKey : Text
  sink : Text
  remoteRef : Option Text

/-- A receipt that a system of record may have seen the write of. -/
inductive Receipt
  | action (r : ActionReceipt)
  | delivery (r : DeliveryReceipt)

/-- `ActionRecord`: one action that a system of record saw. -/
structure ActionRecord where
  recordId : Text
  timestamp : Instant
  actor : Text
  action : Text
  resource : Text
  refs : List Text
  source : Text
deriving DecidableEq

/-- What records are sorted by. -/
def ActionRecord.key (r : ActionRecord) : Lex (ℕ × Text) := toLex (r.timestamp.key, r.recordId)

namespace Receipt

/-- `receipt_id` -/
def receiptId : Receipt → Text
  | action r => r.receiptId
  | delivery r => r.receiptId

/-- `receipt_refs`. Of a set, whose order and repeats tell nothing. -/
def refs : Receipt → List Text
  | action r =>
    [r.receiptId, r.planHash] ++
      match r.substrateTxid with
      | none | some [] => []
      | some txid => [txid, txid.rtakeWhile fun c => c ≠ 58]
  | delivery r =>
    [r.receiptId, r.messageId, r.idempotencyKey] ++
      match r.remoteRef with
      | none | some [] => []
      | some ref => [ref]

/-- Whether the plan of a receipt was written, for good or until it was put back. -/
def written : Receipt → Bool
  | action r =>
    r.status == .committed || r.status == .recoveredCommitted || r.status == .compensated
  | delivery _ => true

/-- `REQUEST_ONLY` -/
def requestOnly : Text := txt "request-only"

/-- The measurement class of a receipt. -/
def measured : Receipt → Text
  | action r => r.measurement
  | delivery _ => requestOnly

/-- The system that a receipt is of a write to. -/
def system : Receipt → Text
  | action r => if r.measurement = requestOnly then [] else r.substrateId
  | delivery r => r.sink

/-- `in_scope` -/
def inScope (substrates measurements : List Text) (r : Receipt) : Bool :=
  (substrates.isEmpty || substrates.contains r.system) &&
    (measurements.isEmpty || measurements.contains r.measured)

end Receipt

/-! ### The report -/

/-- `ActionMatch`: a record that a receipt explains, and the reference they share. -/
structure ActionMatch where
  record : ActionRecord
  receiptId : Text
  ref : Text

/-- `ActionReport`. -/
structure ActionReport where
  matched : List ActionMatch
  phantom : List ActionRecord
  unobserved : List Text
  ignored : ℕ
  outOfScope : ℕ

/-- What the receipts are read into: the receipt kept for every reference, the receipts that are
expected, and how many are of writes elsewhere. -/
structure Roll where
  owner : Dict Text Text := ∅
  expected : List Text := []
  elsewhere : ℕ := 0

section Reconciling

variable (actors substrates measurements : List Text)

/-- `owner.setdefault` -/
def keep (receiptId : Text) (owner : Dict Text Text) (ref : Text) : Dict Text Text :=
  if owner.contains ref then owner else owner.set ref receiptId

/-- The loop over the receipts. -/
def enrol (roll : Roll) (r : Receipt) : Roll :=
  if r.written then
    let owner := r.refs.foldl (keep r.receiptId) roll.owner
    if r.inScope substrates measurements then
      { roll with owner := owner, expected := roll.expected ++ [r.receiptId] }
    else { roll with owner := owner, elsewhere := roll.elsewhere + 1 }
  else roll

/-- What the records are read into. -/
structure Tally where
  matched : List ActionMatch := []
  phantom : List ActionRecord := []
  ignored : ℕ := 0

/-- Whether the audit governs the actor of a record. -/
def governs (record : ActionRecord) : Bool := actors.isEmpty || actors.contains record.actor

/-- The receipt of a record, by the first of its references that is known. -/
def matchOf (owner : Dict Text Text) (record : ActionRecord) : Option ActionMatch :=
  record.refs.findSome? fun ref =>
    (owner.get? ref).map fun receiptId => { record := record, receiptId := receiptId, ref := ref }

/-- The loop over the records. -/
def explain (owner : Dict Text Text) (tally : Tally) (record : ActionRecord) : Tally :=
  if governs actors record then
    match matchOf owner record with
    | none => { tally with phantom := tally.phantom ++ [record] }
    | some found => { tally with matched := tally.matched ++ [found] }
  else { tally with ignored := tally.ignored + 1 }

/-- `reconcile_actions` -/
def reconcileActions (receipts : List Receipt) (records : List ActionRecord) : ActionReport :=
  let roll := receipts.foldl (enrol substrates measurements) {}
  let tally := (records.insertionSort fun a b => a.key ≤ b.key).foldl (explain actors roll.owner) {}
  let seen := tally.matched.map ActionMatch.receiptId
  { matched := tally.matched
    phantom := tally.phantom
    unobserved := roll.expected.filter fun receiptId => !seen.contains receiptId
    ignored := tally.ignored
    outOfScope := roll.elsewhere }

/-! ### What a report has to tell -/

/-- Whether a written receipt carries a reference. -/
def known (receipts : List Receipt) (ref : Text) : Bool :=
  receipts.any fun r => r.written && r.refs.contains ref

/-- The first of a record's references that a written receipt carries. -/
def firstKnown (receipts : List Receipt) (record : ActionRecord) : Option Text :=
  record.refs.find? (known receipts)

/-- Whether a governed record carries a reference of a receipt. -/
def Named (records : List ActionRecord) (r : Receipt) : Prop :=
  ∃ record ∈ records, governs actors record = true ∧ ∃ ref ∈ record.refs, ref ∈ r.refs

/-- What a report has to tell of some receipts and records. -/
structure Accounted (receipts : List Receipt) (records : List ActionRecord)
    (report : ActionReport) : Prop where
  /-- Every governed record is matched or a phantom, once. -/
  once : (report.matched.map ActionMatch.record ++ report.phantom).Perm
    (records.filter (governs actors))
  ignored : report.ignored = (records.filter fun record => !governs actors record).length
  explained : ∀ record ∈ records, governs actors record = true →
    (record ∈ report.matched.map ActionMatch.record ↔
      ∃ r ∈ receipts, r.written = true ∧ ∃ ref ∈ record.refs, ref ∈ r.refs)
  shared : ∀ found ∈ report.matched, found.ref ∈ found.record.refs ∧
    ∃ r ∈ receipts, r.written = true ∧ found.ref ∈ r.refs ∧ r.receiptId = found.receiptId
  unobserved : ∀ r ∈ receipts, r.written = true → r.inScope substrates measurements = true →
    (r.receiptId ∈ report.unobserved ↔ ¬Named actors records r)
  expected : ∀ receiptId ∈ report.unobserved, ∃ r ∈ receipts, r.written = true ∧
    r.inScope substrates measurements = true ∧ r.receiptId = receiptId

/-- Whether two reports tell the same, but for the receipt a shared reference is attributed to. -/
structure Tells (report report' : ActionReport) : Prop where
  matched : (report.matched.map fun found => (found.record, found.ref)).Perm
    (report'.matched.map fun found => (found.record, found.ref))
  phantom : report.phantom.Perm report'.phantom
  unobserved : report.unobserved.Perm report'.unobserved
  ignored : report.ignored = report'.ignored
  outOfScope : report.outOfScope = report'.outOfScope

/-- Whether two reports tell the same but for the order of what they list: the same matches, each
attributed to the same receipt, the same phantoms, and the same receipts unobserved. -/
structure Relists (report report' : ActionReport) : Prop where
  matched : report.matched.Perm report'.matched
  phantom : report.phantom.Perm report'.phantom
  unobserved : report.unobserved = report'.unobserved
  ignored : report.ignored = report'.ignored
  outOfScope : report.outOfScope = report'.outOfScope

/-- Whether every expected receipt that a governed record names has, of some governed record, the
first known reference to itself, and no other receipt of its id has one for it. -/
def Traced (receipts : List Receipt) (records : List ActionRecord) : Prop :=
  ∀ r ∈ receipts, r.written = true → r.inScope substrates measurements = true →
    (Named actors records r → ∃ record ∈ records, governs actors record = true ∧
      ∃ ref, firstKnown receipts record = some ref ∧
        ∀ r' ∈ receipts, r'.written = true → ref ∈ r'.refs → r'.receiptId = r.receiptId) ∧
    (¬Named actors records r → ∀ record ∈ records, governs actors record = true →
      ∀ ref, firstKnown receipts record = some ref →
        ∀ r' ∈ receipts, r'.written = true → ref ∈ r'.refs → r'.receiptId ≠ r.receiptId)

end Reconciling

/-! ### What the loops read -/

/-- The first written receipt that carries a reference. -/
def ownerOf (receipts : List Receipt) (ref : Text) : Option Text :=
  (receipts.find? fun r => r.written && r.refs.contains ref).map Receipt.receiptId

section Loops

variable {actors substrates measurements : List Text} {receipts receipts' : List Receipt}
  {records records' : List ActionRecord}

theorem get?_keep (receiptId : Text) (owner : Dict Text Text) (a ref : Text) :
    (keep receiptId owner a).get? ref =
      (owner.get? ref).or (if ref = a then some receiptId else none) := by
  rw [keep]
  by_cases hcontains : owner.contains a = true
  · rw [if_pos hcontains]
    obtain ⟨kept, hkept⟩ := Option.isSome_iff_exists.mp hcontains
    by_cases heq : ref = a
    · rw [heq, hkept, Option.some_or]
    · rw [if_neg heq, Option.or_none]
  · rw [if_neg hcontains, Dict.get?_set]
    by_cases heq : ref = a
    · have hnone : owner.get? a = none := Option.not_isSome_iff_eq_none.mp hcontains
      rw [if_pos heq, if_pos heq, heq, hnone, Option.none_or]
    · rw [if_neg heq, if_neg heq, Option.or_none]

theorem get?_foldl_keep (receiptId : Text) (refs : List Text) (owner : Dict Text Text)
    (ref : Text) : (refs.foldl (keep receiptId) owner).get? ref =
      (owner.get? ref).or (if ref ∈ refs then some receiptId else none) := by
  induction refs generalizing owner with
  | nil => simp
  | cons a refs ih =>
    rw [List.foldl_cons, ih, get?_keep, Option.or_assoc]
    congr 1
    by_cases heq : ref = a
    · rw [if_pos heq, Option.some_or, heq, if_pos List.mem_cons_self]
    · rw [if_neg heq, Option.none_or]
      simp only [List.mem_cons, heq, false_or]

/-- What is read of the receipts. -/
theorem foldl_enrol (substrates measurements : List Text) (receipts : List Receipt) (roll : Roll) :
    (∀ ref, (receipts.foldl (enrol substrates measurements) roll).owner.get? ref =
      (roll.owner.get? ref).or (ownerOf receipts ref)) ∧
    (receipts.foldl (enrol substrates measurements) roll).expected = roll.expected ++
      (receipts.filter fun r => r.written && r.inScope substrates measurements).map
        Receipt.receiptId ∧
    (receipts.foldl (enrol substrates measurements) roll).elsewhere = roll.elsewhere +
      (receipts.filter fun r => r.written && !r.inScope substrates measurements).length := by
  induction receipts generalizing roll with
  | nil => simp [ownerOf]
  | cons r receipts ih =>
    rw [List.foldl_cons]
    obtain ⟨howner, hexpected, helsewhere⟩ := ih (enrol substrates measurements roll r)
    rw [hexpected, helsewhere]
    simp only [howner]
    by_cases hwritten : r.written = true
    · have hkeep : ∀ ref, ((r.refs.foldl (keep r.receiptId) roll.owner).get? ref).or
          (ownerOf receipts ref) = (roll.owner.get? ref).or (ownerOf (r :: receipts) ref) := by
        intro ref
        rw [get?_foldl_keep, Option.or_assoc]
        congr 1
        by_cases hmem : ref ∈ r.refs
        · simp [ownerOf, hwritten, hmem]
        · simp [ownerOf, hmem]
      by_cases hscope : r.inScope substrates measurements = true
      · simp [enrol, hwritten, hscope, hkeep]
      · simp [enrol, hwritten, hscope, hkeep]
        omega
    · simp [enrol, hwritten, ownerOf]

/-- What is read of the records. -/
theorem foldl_explain (actors : List Text) (owner : Dict Text Text) (l : List ActionRecord)
    (tally : Tally) :
    (l.foldl (explain actors owner) tally).matched =
        tally.matched ++ (l.filter (governs actors)).filterMap (matchOf owner) ∧
      (l.foldl (explain actors owner) tally).phantom = tally.phantom ++
        (l.filter (governs actors)).filter (fun record => (matchOf owner record).isNone) ∧
      (l.foldl (explain actors owner) tally).ignored =
        tally.ignored + (l.filter fun record => !governs actors record).length := by
  induction l generalizing tally with
  | nil => simp
  | cons record l ih =>
    rw [List.foldl_cons]
    obtain ⟨hmatched, hphantom, hignored⟩ := ih (explain actors owner tally record)
    rw [hmatched, hphantom, hignored]
    by_cases hgoverned : governs actors record = true
    · cases hmatch : matchOf owner record with
      | none => simp [explain, hgoverned, hmatch]
      | some found => simp [explain, hgoverned, hmatch]
    · simp [explain, hgoverned]
      omega

/-! ### What the report holds -/

theorem known_eq (receipts : List Receipt) (ref : Text) :
    known receipts ref = (ownerOf receipts ref).isSome := by
  rw [ownerOf, Option.isSome_map, List.isSome_find?]
  rfl

theorem known_iff {ref : Text} : known receipts ref = true ↔
    ∃ r ∈ receipts, r.written = true ∧ ref ∈ r.refs := by
  simp [known]

/-- The match of a governed record. -/
def found (receipts : List Receipt) (record : ActionRecord) : Option ActionMatch :=
  (firstKnown receipts record).bind fun ref => (ownerOf receipts ref).map fun receiptId =>
    { record := record, receiptId := receiptId, ref := ref }

/-- A record is matched by the first of its references that is known. -/
theorem matchOf_eq {owner : Dict Text Text} (howner : ∀ ref, owner.get? ref = ownerOf receipts ref)
    (record : ActionRecord) : matchOf owner record = found receipts record := by
  rw [matchOf, found, firstKnown]
  induction record.refs with
  | nil => rfl
  | cons ref refs ih =>
    rw [List.findSome?_cons, List.find?_cons, howner, known_eq]
    cases hfound : ownerOf receipts ref with
    | none => exact ih
    | some receiptId => simp [hfound]

theorem found_eq_some {record : ActionRecord} {m : ActionMatch} :
    found receipts record = some m ↔ m.record = record ∧
      firstKnown receipts record = some m.ref ∧ ownerOf receipts m.ref = some m.receiptId := by
  rw [found, Option.bind_eq_some_iff]
  constructor
  · rintro ⟨ref, hfirst, hm⟩
    obtain ⟨receiptId, howner, rfl⟩ := Option.map_eq_some_iff.mp hm
    exact ⟨rfl, hfirst, howner⟩
  · rintro ⟨rfl, hfirst, howner⟩
    exact ⟨m.ref, hfirst, by rw [howner]; rfl⟩

/-- A record has a match where one of its references is known. -/
theorem found_isSome {record : ActionRecord} :
    (found receipts record).isSome = (firstKnown receipts record).isSome := by
  rw [found]
  cases hfirst : firstKnown receipts record with
  | none => rfl
  | some ref =>
    have hknown : known receipts ref = true := List.find?_some hfirst
    rw [known_eq] at hknown
    rw [Option.bind_some, Option.isSome_map, hknown]
    rfl

variable (actors substrates measurements) in
/-- The report, without its loops. -/
structure Reported (receipts : List Receipt) (records : List ActionRecord)
    (report : ActionReport) : Prop where
  matched : report.matched.Perm ((records.filter (governs actors)).filterMap (found receipts))
  phantom : report.phantom.Perm ((records.filter (governs actors)).filter fun record =>
    (firstKnown receipts record).isNone)
  unobserved : report.unobserved =
    ((receipts.filter fun r => r.written && r.inScope substrates measurements).map
      Receipt.receiptId).filter fun receiptId =>
        !(report.matched.map ActionMatch.receiptId).contains receiptId
  ignored : report.ignored = (records.filter fun record => !governs actors record).length
  outOfScope : report.outOfScope =
    (receipts.filter fun r => r.written && !r.inScope substrates measurements).length

theorem reported (actors substrates measurements : List Text) (receipts : List Receipt)
    (records : List ActionRecord) :
    Reported actors substrates measurements receipts records
      (reconcileActions actors substrates measurements receipts records) := by
  obtain ⟨howner, hexpected, helsewhere⟩ := foldl_enrol substrates measurements receipts {}
  obtain ⟨hmatched, hphantom, hignored⟩ := foldl_explain actors
    (receipts.foldl (enrol substrates measurements) {}).owner
    (records.insertionSort fun a b => a.key ≤ b.key) {}
  have hfound : matchOf (receipts.foldl (enrol substrates measurements) {}).owner =
      found receipts := by
    funext record
    exact matchOf_eq (fun ref => (howner ref).trans (Option.none_or)) record
  have hsort : (records.insertionSort fun a b => a.key ≤ b.key).Perm records :=
    List.perm_insertionSort _ records
  constructor
  · rw [reconcileActions]
    simp only [hmatched, hfound, List.nil_append]
    exact (hsort.filter _).filterMap _
  · rw [reconcileActions]
    simp only [hphantom, hfound, List.nil_append]
    have hnone : ∀ record,
        (found receipts record).isNone = (firstKnown receipts record).isNone := by
      intro record
      rw [← Option.not_isSome, ← Option.not_isSome, found_isSome]
    simp only [hnone]
    exact (hsort.filter _).filter _
  · simp only [reconcileActions, hexpected, List.nil_append]
  · simp only [reconcileActions, hignored, Nat.zero_add]
    exact (hsort.filter _).length_eq
  · simp only [reconcileActions, helsewhere, Nat.zero_add]

end Loops

/-! ### Whom a reference is attributed to -/

section Tracing

variable {actors substrates measurements : List Text} {receipts receipts' : List Receipt}
  {records records' : List ActionRecord} {report : ActionReport}

theorem carried_of_ownerOf {ref receiptId : Text} (h : ownerOf receipts ref = some receiptId) :
    ∃ r ∈ receipts, r.written = true ∧ ref ∈ r.refs ∧ r.receiptId = receiptId := by
  obtain ⟨r, hr, rfl⟩ := Option.map_eq_some_iff.mp h
  have hcarries := List.find?_some hr
  rw [Bool.and_eq_true, List.contains_iff_mem] at hcarries
  exact ⟨r, List.mem_of_find?_eq_some hr, hcarries.1, hcarries.2, rfl⟩

theorem exists_ownerOf {ref : Text} (h : known receipts ref = true) :
    ∃ receiptId, ownerOf receipts ref = some receiptId := by
  rw [known_eq] at h
  exact Option.isSome_iff_exists.mp h

theorem ownerOf_append (l m : List Receipt) (ref : Text) :
    ownerOf (l ++ m) ref = (ownerOf l ref).or (ownerOf m ref) := by
  rw [ownerOf, List.find?_append, Option.map_or]
  rfl

theorem known_perm (h : receipts'.Perm receipts) (ref : Text) :
    known receipts' ref = known receipts ref :=
  h.any_eq

/-- Which reference a record is matched by does not depend on the order of the receipts. -/
theorem firstKnown_perm (h : receipts'.Perm receipts) (record : ActionRecord) :
    firstKnown receipts' record = firstKnown receipts record := by
  rw [firstKnown, firstKnown, funext (known_perm h)]

/-- The receipts of an id. -/
def ofId (receiptId : Text) (receipts : List Receipt) : List Receipt :=
  receipts.filter fun r => r.receiptId = receiptId

/-- The receipts of another id. -/
def notOfId (receiptId : Text) (receipts : List Receipt) : List Receipt :=
  receipts.filter fun r => ¬r.receiptId = receiptId

theorem ofId_perm (receiptId : Text) (receipts : List Receipt) :
    (ofId receiptId receipts ++ notOfId receiptId receipts).Perm receipts := by
  simpa [ofId, notOfId] using
    List.filter_append_perm (fun r : Receipt => decide (r.receiptId = receiptId)) receipts

variable (actors) in
/-- Whether a governed record is attributed to a receipt of an id. -/
def Attributed (receipts : List Receipt) (records : List ActionRecord) (receiptId : Text) : Prop :=
  ∃ record ∈ records, governs actors record = true ∧
    ∃ ref, firstKnown receipts record = some ref ∧ ownerOf receipts ref = some receiptId

theorem attributed_perm (h : records'.Perm records) {receiptId : Text} :
    Attributed actors receipts records' receiptId ↔
      Attributed actors receipts records receiptId := by
  simp only [Attributed, h.mem_iff]

theorem Reported.seen_iff
    (h : Reported actors substrates measurements receipts records report) {receiptId : Text} :
    receiptId ∈ report.matched.map ActionMatch.receiptId ↔
      Attributed actors receipts records receiptId := by
  rw [(h.matched.map _).mem_iff, List.mem_map]
  constructor
  · rintro ⟨m, hm, rfl⟩
    obtain ⟨record, hrecord, hfound⟩ := List.mem_filterMap.mp hm
    obtain ⟨hmem, hgoverned⟩ := List.mem_filter.mp hrecord
    obtain ⟨-, hfirst, howner⟩ := found_eq_some.mp hfound
    exact ⟨record, hmem, hgoverned, m.ref, hfirst, howner⟩
  · rintro ⟨record, hmem, hgoverned, ref, hfirst, howner⟩
    exact ⟨⟨record, receiptId, ref⟩, List.mem_filterMap.mpr ⟨record,
      List.mem_filter.mpr ⟨hmem, hgoverned⟩, found_eq_some.mpr ⟨rfl, hfirst, howner⟩⟩, rfl⟩

theorem Reported.mem_unobserved
    (h : Reported actors substrates measurements receipts records report) {receiptId : Text} :
    receiptId ∈ report.unobserved ↔
      (∃ r ∈ receipts, r.written = true ∧ r.inScope substrates measurements = true ∧
        r.receiptId = receiptId) ∧ ¬Attributed actors receipts records receiptId := by
  rw [h.unobserved, List.mem_filter, List.mem_map, Bool.not_eq_true', ← Bool.not_eq_true,
    List.contains_iff_mem, h.seen_iff]
  simp only [List.mem_filter, Bool.and_eq_true, and_assoc]

/-- What is told but for the receipts that are unobserved. -/
theorem Reported.accounted
    (h : Reported actors substrates measurements receipts records report)
    (unobserved : ∀ r ∈ receipts, r.written = true → r.inScope substrates measurements = true →
      (r.receiptId ∈ report.unobserved ↔ ¬Named actors records r)) :
    Accounted actors substrates measurements receipts records report := by
  have hrecords : ((records.filter (governs actors)).filterMap (found receipts)).map
      ActionMatch.record = (records.filter (governs actors)).filter fun record =>
        (firstKnown receipts record).isSome := by
    induction records.filter (governs actors) with
    | nil => rfl
    | cons record l ih =>
      rw [List.filterMap_cons, List.filter_cons, ← found_isSome]
      cases hfound : found receipts record with
      | none => exact ih
      | some m =>
        rw [List.map_cons, ih, (found_eq_some.mp hfound).1]
        rfl
  refine ⟨?_, h.ignored, ?_, ?_, unobserved, fun receiptId hmem => (h.mem_unobserved.mp hmem).1⟩
  · refine ((h.matched.map _).append h.phantom).trans ?_
    rw [hrecords]
    simpa using List.filter_append_perm
      (fun record => (firstKnown receipts record).isSome) (records.filter (governs actors))
  · intro record hmem hgoverned
    rw [(h.matched.map _).mem_iff, hrecords, List.mem_filter, List.mem_filter, firstKnown,
      List.find?_isSome]
    simp only [hmem, hgoverned, true_and, known_iff]
    constructor
    · rintro ⟨ref, href, r, hr, hwritten, hcarries⟩
      exact ⟨r, hr, hwritten, ref, href, hcarries⟩
    · rintro ⟨r, hr, hwritten, ref, href, hcarries⟩
      exact ⟨ref, href, r, hr, hwritten, hcarries⟩
  · intro m hm
    obtain ⟨record, -, hfound⟩ := List.mem_filterMap.mp (h.matched.mem_iff.mp hm)
    obtain ⟨rfl, hfirst, howner⟩ := found_eq_some.mp hfound
    exact ⟨List.mem_of_find?_eq_some hfirst, carried_of_ownerOf howner⟩

/-- Receipts are traced where, in whichever order, those that are named are attributed to. -/
theorem traced_iff : Traced actors substrates measurements receipts records ↔
    ∀ receipts' : List Receipt, receipts'.Perm receipts → ∀ r ∈ receipts, r.written = true →
      r.inScope substrates measurements = true →
      (Attributed actors receipts' records r.receiptId ↔ Named actors records r) := by
  constructor
  · intro h receipts' hperm r hr hwritten hscope
    obtain ⟨hnamed, hunnamed⟩ := h r hr hwritten hscope
    constructor
    · rintro ⟨record, hmem, hgoverned, ref, hfirst, howner⟩
      by_contra hnot
      rw [firstKnown_perm hperm] at hfirst
      obtain ⟨r', hr', hwritten', hcarries, hid⟩ := carried_of_ownerOf howner
      exact hunnamed hnot record hmem hgoverned ref hfirst r' (hperm.mem_iff.mp hr') hwritten'
        hcarries hid
    · intro hname
      obtain ⟨record, hmem, hgoverned, ref, hfirst, hsole⟩ := hnamed hname
      rw [← firstKnown_perm hperm] at hfirst
      obtain ⟨receiptId, howner⟩ := exists_ownerOf (List.find?_some hfirst)
      obtain ⟨r', hr', hwritten', hcarries, rfl⟩ := carried_of_ownerOf howner
      rw [hsole r' (hperm.mem_iff.mp hr') hwritten' hcarries] at howner
      exact ⟨record, hmem, hgoverned, ref, hfirst, howner⟩
  · intro h r hr hwritten hscope
    constructor
    -- an order that has the receipts of the id last attributes to them what nobody else carries
    · intro hname
      have hperm : (notOfId r.receiptId receipts ++ ofId r.receiptId receipts).Perm receipts :=
        List.perm_append_comm.trans (ofId_perm r.receiptId receipts)
      obtain ⟨record, hmem, hgoverned, ref, hfirst, howner⟩ :=
        (h _ hperm r hr hwritten hscope).mpr hname
      refine ⟨record, hmem, hgoverned, ref, firstKnown_perm hperm record ▸ hfirst, ?_⟩
      intro r' hr' hwritten' hcarries
      by_contra hne
      have hknown : known (notOfId r.receiptId receipts) ref = true :=
        known_iff.mpr ⟨r', List.mem_filter.mpr ⟨hr', decide_eq_true hne⟩, hwritten', hcarries⟩
      obtain ⟨receiptId, howner'⟩ := exists_ownerOf hknown
      rw [ownerOf_append, howner', Option.some_or, Option.some.injEq] at howner
      obtain ⟨r'', hr'', -, -, hid⟩ := carried_of_ownerOf howner'
      exact of_decide_eq_true (List.mem_filter.mp hr'').2 (hid.trans howner)
    -- an order that has them first attributes to them whatever one of them carries
    · intro hnot record hmem hgoverned ref hfirst r' hr' hwritten' hcarries hid
      have hperm := ofId_perm r.receiptId receipts
      refine hnot ((h _ hperm r hr hwritten hscope).mp ⟨record, hmem, hgoverned, ref, ?_, ?_⟩)
      · rw [firstKnown_perm hperm]
        exact hfirst
      · have hknown : known (ofId r.receiptId receipts) ref = true :=
          known_iff.mpr ⟨r', List.mem_filter.mpr ⟨hr', decide_eq_true hid⟩, hwritten', hcarries⟩
        obtain ⟨receiptId, howner⟩ := exists_ownerOf hknown
        obtain ⟨r'', hr'', -, -, hid'⟩ := carried_of_ownerOf howner
        rw [ownerOf_append, howner, Option.some_or, ← hid',
          of_decide_eq_true (List.mem_filter.mp hr'').2]

/-- Reports of receipts and of records in another order tell the same, where the receipts that
are expected are attributed to alike. -/
theorem tells (hreceipts : receipts'.Perm receipts) (hrecords : records'.Perm records)
    (hsame : ∀ r ∈ receipts, r.written = true → r.inScope substrates measurements = true →
      (Attributed actors receipts records r.receiptId ↔
        Attributed actors receipts' records' r.receiptId)) :
    Tells (reconcileActions actors substrates measurements receipts records)
      (reconcileActions actors substrates measurements receipts' records') := by
  have h := reported actors substrates measurements receipts records
  have h' := reported actors substrates measurements receipts' records'
  have hfiltered := (hrecords.filter (governs actors)).symm
  have hpairs : ∀ (l : List Receipt), ((records.filter (governs actors)).filterMap (found l)).map
      (fun m => (m.record, m.ref)) = (records.filter (governs actors)).filterMap fun record =>
        (firstKnown l record).map fun ref => (record, ref) := by
    intro l
    rw [List.map_filterMap]
    congr 1
    funext record
    cases hfirst : firstKnown l record with
    | none => simp [found, hfirst]
    | some ref =>
      obtain ⟨receiptId, howner⟩ := exists_ownerOf (List.find?_some hfirst)
      simp [found, hfirst, howner]
  constructor
  · refine (h.matched.map _).trans (.trans ?_ (h'.matched.map _).symm)
    refine .trans ?_ ((hfiltered.filterMap (found receipts')).map _)
    rw [hpairs, hpairs]
    simp only [firstKnown_perm hreceipts]
    exact .refl _
  · refine h.phantom.trans (.trans ?_ h'.phantom.symm)
    simp only [firstKnown_perm hreceipts]
    exact hfiltered.filter _
  · rw [h.unobserved, h'.unobserved]
    refine .trans (.of_eq (List.filter_congr fun receiptId hmem => ?_))
      (((hreceipts.symm.filter _).map _).filter _)
    obtain ⟨r, hr, rfl⟩ := List.mem_map.mp hmem
    obtain ⟨hr, hexpected⟩ := List.mem_filter.mp hr
    obtain ⟨hwritten, hscope⟩ := (Bool.and_eq_true _ _).mp hexpected
    rw [Bool.eq_iff_iff]
    simp only [Bool.not_eq_true', ← Bool.not_eq_true, List.contains_iff_mem, h.seen_iff,
      h'.seen_iff, hsame r hr hwritten hscope]
  · rw [h.ignored, h'.ignored]
    exact (hrecords.symm.filter _).length_eq
  · rw [h.outOfScope, h'.outOfScope]
    exact (hreceipts.symm.filter _).length_eq

/-- Reports of records in another order tell the same of every match. -/
theorem relists (hrecords : records'.Perm records) :
    Relists (reconcileActions actors substrates measurements receipts records)
      (reconcileActions actors substrates measurements receipts records') := by
  have h := reported actors substrates measurements receipts records
  have h' := reported actors substrates measurements receipts records'
  have hfiltered := (hrecords.filter (governs actors)).symm
  have hmatched := h.matched.trans ((hfiltered.filterMap (found receipts)).trans h'.matched.symm)
  constructor
  · exact hmatched
  · exact h.phantom.trans ((hfiltered.filter _).trans h'.phantom.symm)
  · rw [h.unobserved, h'.unobserved]
    refine List.filter_congr fun receiptId _ => ?_
    rw [Bool.eq_iff_iff]
    simp only [Bool.not_eq_true', ← Bool.not_eq_true, List.contains_iff_mem,
      (hmatched.map _).mem_iff]
  · rw [h.ignored, h'.ignored]
    exact (hrecords.symm.filter _).length_eq
  · rw [h.outOfScope, h'.outOfScope]

/-- The report is the same of records in another order, where no two have their instant and their
id in common. -/
theorem reconcileActions_perm (hrecords : records'.Perm records)
    (distinct : (records.map ActionRecord.key).Nodup) :
    reconcileActions actors substrates measurements receipts records' =
      reconcileActions actors substrates measurements receipts records := by
  have hsorted : (records'.insertionSort fun a b => a.key ≤ b.key) =
      records.insertionSort fun a b => a.key ≤ b.key := by
    refine @List.Perm.eq_of_pairwise _ (fun a b => a.key ≤ b.key) _ _
      (fun a b ha hb hab hba => ?_) (List.pairwise_insertionSort _ _)
      (List.pairwise_insertionSort _ _)
      ((List.perm_insertionSort _ _).trans (hrecords.trans (List.perm_insertionSort _ _).symm))
    rw [List.mem_insertionSort] at ha hb
    exact List.inj_on_of_nodup_map distinct (hrecords.mem_iff.mp ha) hb (le_antisymm hab hba)
  simp only [reconcileActions, hsorted]

/-- Both sides are accounted for, and the report tells the same in whichever order they come, just
where every expected receipt that a governed record names is attributed one, and none that is not
named is. The order of the records changes no attribution. -/
theorem accounted_iff (actors substrates measurements : List Text) (receipts : List Receipt)
    (records : List ActionRecord) :
    (Accounted actors substrates measurements receipts records
        (reconcileActions actors substrates measurements receipts records) ∧
      (∀ receipts' records', List.Perm receipts' receipts → List.Perm records' records →
        Tells (reconcileActions actors substrates measurements receipts records)
          (reconcileActions actors substrates measurements receipts' records')) ∧
      ∀ records', List.Perm records' records →
        Relists (reconcileActions actors substrates measurements receipts records)
          (reconcileActions actors substrates measurements receipts records') ∧
        ((records.map ActionRecord.key).Nodup →
          reconcileActions actors substrates measurements receipts records' =
            reconcileActions actors substrates measurements receipts records)) ↔
      Traced actors substrates measurements receipts records := by
  have h := reported actors substrates measurements receipts records
  rw [traced_iff]
  constructor
  · rintro ⟨haccounted, htells, -⟩ receipts' hperm r hr hwritten hscope
    have h' := reported actors substrates measurements receipts' records
    have hunobserved := haccounted.unobserved r hr hwritten hscope
    rw [(htells receipts' records hperm (.refl _)).unobserved.mem_iff,
      h'.mem_unobserved] at hunobserved
    have hexpected : ∃ r' ∈ receipts', r'.written = true ∧
        r'.inScope substrates measurements = true ∧ r'.receiptId = r.receiptId :=
      ⟨r, hperm.mem_iff.mpr hr, hwritten, hscope, rfl⟩
    rw [and_iff_right hexpected] at hunobserved
    exact not_iff_not.mp hunobserved
  · intro traced
    refine ⟨h.accounted fun r hr hwritten hscope => ?_, fun receipts' records' hperm hperm' => ?_,
      fun records' hperm => ⟨relists hperm, reconcileActions_perm hperm⟩⟩
    · rw [h.mem_unobserved, and_iff_right ⟨r, hr, hwritten, hscope, rfl⟩,
        traced receipts (.refl _) r hr hwritten hscope]
    · refine tells hperm hperm' fun r hr hwritten hscope => ?_
      rw [traced receipts (.refl _) r hr hwritten hscope, attributed_perm hperm',
        traced receipts' hperm r hr hwritten hscope]

end Tracing

/-! ### A record of two receipts -/

/-- A committed receipt. -/
def committedReceipt (receiptId : Text) : Receipt :=
  .action ⟨receiptId, txt "plan", txt "kubernetes", txt "plan-bound", .committed, none⟩

/-- A record that carries two references. -/
def jointRecord : ActionRecord :=
  ⟨txt "record", ⟨2026, 1, 1, 0, 0, 0, 0, Instant.newYear_valid⟩, [], [], [], [txt "first", txt "second"], []⟩

/-- A receipt that a governed record names is reported unobserved, where the record names another
before it. -/
theorem named_unobserved :
    txt "second" ∈ (reconcileActions [] [] []
        [committedReceipt (txt "first"), committedReceipt (txt "second")]
          [jointRecord]).unobserved ∧
      ¬Accounted [] [] [] [committedReceipt (txt "first"), committedReceipt (txt "second")]
        [jointRecord] (reconcileActions [] [] []
          [committedReceipt (txt "first"), committedReceipt (txt "second")] [jointRecord]) := by
  have hunobserved : txt "second" ∈ (reconcileActions [] [] []
      [committedReceipt (txt "first"), committedReceipt (txt "second")]
        [jointRecord]).unobserved := by decide
  refine ⟨hunobserved, fun h => ?_⟩
  have hname := h.unobserved (committedReceipt (txt "second")) (by simp) rfl rfl
  exact hname.mp hunobserved ⟨jointRecord, List.mem_singleton_self _, rfl, txt "second", by decide,
    by decide⟩

end AgentGov.Actions
