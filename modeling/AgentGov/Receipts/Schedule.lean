import AgentGov.Receipts.Documents

/-!
# Which key signs which part of a log

A log outlives its key: the key in force signs a transition to the next one, at the size the log
then has. Who trusts the first key follows the transitions to the current one, and knows which
key signs each leaf and each checkpoint (`src/src/agentgov/receipts/schema.py`, lines 1752–1961).

## Main definitions

* `AgentGov.Receipts.KeyTransition`: one hand-over, with `KeyTransition.of`, `KeyTransition.sign`
  and `KeyTransition.incoming`.
* `AgentGov.Receipts.KeySchedule`: the keys in order, with `KeySchedule.build`,
  `KeySchedule.forLeaf` and `KeySchedule.forCheckpoint`.

## Main results

* `AgentGov.Receipts.KeySchedule.build_concat`: a schedule with one more transition.
* `AgentGov.Receipts.KeySchedule.build_of_trusts`: who trusts the first key, and holds the shared
  ones, follows the same schedule.
-/

namespace AgentGov.Receipts

open Foundation

/-- `KeyTransition`: the key in force hands a log over to the next one, at a size. -/
structure KeyTransition where
  logId : Text
  treeSize : ℕ
  incomingAlg : Text
  incomingKeyId : Text
  /-- The bytes of an Ed25519 key, which are written in hexadecimal. -/
  incomingPublicKey : Option {bs : List Byte // bs.length = 32}
  issuedAt : Instant
  signature : Option Signature

namespace KeyTransition

/-- `of`: an unsigned transition. -/
def of (logId : Text) (treeSize : ℕ) (incoming : LogKey) (issuedAt : Instant) :
    Except Fault KeyTransition := do
  let logId ← checkText (.str logId) (txt "log_id")
  let _ ← checkInt (.int treeSize) (txt "tree_size") 0
  return ⟨logId, treeSize, incoming.alg, incoming.keyId, incoming.raw?, issuedAt, none⟩

/-- `body`. -/
def body (t : KeyTransition) : List (Text × Json) :=
  [(txt "v", .str (txt "ARC1-transition")), (txt "log_id", .str t.logId),
    (txt "tree_size", .int t.treeSize),
    (txt "incoming", .obj [(txt "alg", .str t.incomingAlg), (txt "key_id", .str t.incomingKeyId),
      (txt "public_key", (t.incomingPublicKey.map fun raw => .str (toHex raw)).getD .null)]),
    (txt "issued_at", .str (instantText t.issuedAt))]

/-- `signing_input`. -/
def signingInput (t : KeyTransition) : Text → Text → ℕ → Except Fault (List Byte) :=
  Receipts.signingInput Kind.transition.domain t.body

/-- `sign`: signed by the outgoing key. -/
def sign (t : KeyTransition) (signer : Signer) (version : ℕ) : Except Fault KeyTransition := do
  let message ← t.signingInput signer.alg signer.keyId version
  return { t with signature := some ⟨signer.alg, signer.keyId, signer.sign message, version⟩ }

/-- `verify` under one key. -/
def verify (t : KeyTransition) (key : Verifier) : Except Fault PUnit.{1} :=
  checkSignatureOf (txt "key transition") t.signature key t.signingInput

/-- `incoming`: the incoming key, from its bytes, or the trusted one of its id. -/
def incoming (t : KeyTransition) (trusted : KeyTable) : Option LogKey :=
  match t.incomingPublicKey with
  | some raw => some (.ed25519 raw)
  | none => trusted.get t.incomingKeyId

variable {t t' : KeyTransition} {logId : Text} {size version : ℕ} {now : Instant}

/-- What a transition says of the hand-over it was made for. -/
theorem spec_of {key : LogKey} (h : of logId size key now = .ok t) :
    t.logId = logId ∧ t.treeSize = size ∧ t.incomingKeyId = key.keyId ∧
      t.incomingPublicKey = key.raw? := by
  obtain ⟨name, hname, h⟩ := bind_eq_ok.mp h
  obtain ⟨-, -, h⟩ := bind_eq_ok.mp h
  obtain rfl := Except.ok.inj h
  exact ⟨(Json.str.inj (Fields.checkText_eq_ok.mp hname).1).symm, rfl, rfl, rfl⟩

/-- What a key signs of a transition verifies under it, and states the same. -/
theorem verify_of_sign {signer : LogSigner} (hvalid : signer.signer.Valid)
    (h : t.sign signer.signer version = .ok t') :
    t'.verify signer.key.verifier = .ok ⟨⟩ ∧ t'.logId = t.logId ∧ t'.treeSize = t.treeSize ∧
      t'.incomingKeyId = t.incomingKeyId ∧ t'.incomingPublicKey = t.incomingPublicKey ∧
      t'.signature.map Signature.keyId = some signer.key.keyId := by
  obtain ⟨message, hmessage, h⟩ := bind_eq_ok.mp h
  obtain rfl := Except.ok.inj h
  refine ⟨checkSignatureOf_sign hvalid _ hmessage, rfl, rfl, rfl, rfl, ?_⟩
  rw [← LogSigner.keyId_eq hvalid]
  rfl

/-- The incoming key is the one a transition was made for, where its id is the key's. -/
theorem incoming_eq {key : LogKey} {trusted : KeyTable} (hid : t.incomingKeyId = key.keyId)
    (hraw : t.incomingPublicKey = key.raw?) (hheld : trusted.get key.keyId = some key) :
    t.incoming trusted = some key := by
  cases key with
  | ed25519 raw => simp only [incoming, hraw, LogKey.raw?]
  | hmac key => simp only [incoming, hraw, LogKey.raw?, hid, hheld]

end KeyTransition

/-! ### Schedules -/

/-- Why transitions are no schedule of a log. -/
inductive ScheduleFault
  /-- `ValueError`: there is no transition. -/
  | empty
  /-- `ReceiptSignatureError`: the first transition is not signed. -/
  | unsigned
  /-- `ReceiptSignatureError`: the first transition is signed by a key that is not trusted. -/
  | untrusted (keyId : Text)
  /-- `MalformedReceiptError`: a transition is for another log. -/
  | otherLog (number : ℕ) (logId : Text)
  /-- `MalformedReceiptError`: a transition goes back in size. -/
  | backwards (number treeSize before : ℕ)
  /-- `ReceiptSignatureError`: a transition is not signed by the key in force before it. -/
  | refused (number : ℕ) (keyId : Text) (message : Text)
  /-- `ReceiptSignatureError`: a transition is to a shared key that is not trusted. -/
  | unknownKey (number : ℕ) (keyId : Text)
  /-- What else the check of a signature raises. -/
  | raised (fault : Fault)

/-- What the check of a signature raises, of the transition of a number. -/
def ScheduleFault.ofVerify (number : ℕ) (keyId : Text) : Fault → ScheduleFault
  | .signature message => .refused number keyId message
  | fault => .raised fault

/-- `KeySchedule`: the first key, and each later one with the size from which it signs. -/
structure KeySchedule where
  logId : Text
  transitions : List KeyTransition
  first : LogKey
  later : List (ℕ × LogKey)

namespace KeySchedule

/-- One transition of a schedule: the size and the key it hands the log over at and to. -/
def handOver (logId : Text) (trusted : KeyTable) (number size : ℕ) (current : LogKey)
    (t : KeyTransition) : Except ScheduleFault (ℕ × LogKey) :=
  if t.logId ≠ logId then .error (.otherLog number t.logId)
  else if t.treeSize < size then .error (.backwards number t.treeSize size)
  else
    match t.verify current.verifier with
    | .error fault => .error (.ofVerify number current.keyId fault)
    | .ok _ =>
      match t.incoming trusted with
      | none => .error (.unknownKey number t.incomingKeyId)
      | some key => .ok (t.treeSize, key)

/-- The transitions of a schedule from one key on. -/
def follow (logId : Text) (trusted : KeyTable) :
    ℕ → ℕ → LogKey → List KeyTransition → Except ScheduleFault (List (ℕ × LogKey))
  | _, _, _, [] => .ok []
  | number, size, current, t :: ts => do
    let era ← handOver logId trusted number size current t
    let eras ← follow logId trusted (number + 1) era.1 era.2 ts
    return era :: eras

/-- `KeySchedule(log_id, trusted, transitions)`. -/
def build (logId : Text) (trusted : KeyTable) : List KeyTransition → Except ScheduleFault KeySchedule
  | [] => .error .empty
  | t :: ts =>
    match t.signature with
    | none => .error .unsigned
    | some s =>
      match trusted.get s.keyId with
      | none => .error (.untrusted s.keyId)
      | some first => do
        let later ← follow logId trusted 1 0 first (t :: ts)
        return ⟨logId, t :: ts, first, later⟩

/-- The last key of some eras, after a key. -/
def lastKey (first : LogKey) (eras : List (ℕ × LogKey)) : LogKey :=
  (eras.getLast?.map Prod.snd).getD first

/-- The size the last of some eras starts at, after a size. -/
def lastSize (size : ℕ) (eras : List (ℕ × LogKey)) : ℕ := (eras.getLast?.map Prod.fst).getD size

/-- `current`: the key that signs the next leaves and checkpoints. -/
def current (s : KeySchedule) : LogKey := lastKey s.first s.later

/-- `boundary`: the size at which the current key took the log over. -/
def boundary (s : KeySchedule) : ℕ := lastSize 0 s.later

/-- `for_leaf`: the key that signs the leaf at an index. -/
def forLeaf (s : KeySchedule) (index : ℕ) : LogKey :=
  s.later.foldl (fun key era => if era.1 ≤ index then era.2 else key) s.first

/-- `for_checkpoint`: the key that signs a checkpoint of a size. -/
def forCheckpoint (s : KeySchedule) (treeSize : ℤ) : LogKey :=
  s.later.foldl (fun key era => if (era.1 : ℤ) < treeSize then era.2 else key) s.first

/-- `keyring`: every key of the schedule. -/
def keys (s : KeySchedule) : List LogKey := s.first :: s.later.map Prod.snd

variable {logId : Text} {trusted trusted' : KeyTable} {number size : ℕ} {current : LogKey}
  {t : KeyTransition} {ts : List KeyTransition} {era : ℕ × LogKey} {eras : List (ℕ × LogKey)}

@[simp] theorem lastKey_concat (first : LogKey) (eras : List (ℕ × LogKey)) (era : ℕ × LogKey) :
    lastKey first (eras ++ [era]) = era.2 := by simp [lastKey]

@[simp] theorem lastSize_concat (size : ℕ) (eras : List (ℕ × LogKey)) (era : ℕ × LogKey) :
    lastSize size (eras ++ [era]) = era.1 := by simp [lastSize]

theorem lastKey_cons (first : LogKey) (era : ℕ × LogKey) (eras : List (ℕ × LogKey)) :
    lastKey first (era :: eras) = lastKey era.2 eras := by
  cases eras with
  | nil => rfl
  | cons e es => simp [lastKey, List.getLast?_cons]

theorem lastSize_cons (size : ℕ) (era : ℕ × LogKey) (eras : List (ℕ × LogKey)) :
    lastSize size (era :: eras) = lastSize era.1 eras := by
  cases eras with
  | nil => rfl
  | cons e es => simp [lastSize, List.getLast?_cons]

theorem handOver_eq_ok : handOver logId trusted number size current t = .ok era ↔
    t.logId = logId ∧ size ≤ t.treeSize ∧ t.verify current.verifier = .ok ⟨⟩ ∧
      t.incoming trusted = some era.2 ∧ t.treeSize = era.1 := by
  rw [handOver]
  split_ifs with hlog hsize
  · simp [hlog]
  · simp only [false_iff, not_and]
    intro _ hle
    omega
  · push Not at hlog hsize
    cases hverify : t.verify current.verifier with
    | error fault => simp
    | ok u =>
      cases hincoming : t.incoming trusted with
      | none => simp
      | some key =>
        obtain ⟨a, b⟩ := era
        simp only [Except.ok.injEq, Prod.mk.injEq, hlog, hsize, true_and, Option.some.injEq]
        exact and_comm

theorem follow_cons_eq_ok : follow logId trusted number size current (t :: ts) = .ok eras ↔
    ∃ era rest, handOver logId trusted number size current t = .ok era ∧
      follow logId trusted (number + 1) era.1 era.2 ts = .ok rest ∧ eras = era :: rest := by
  rw [follow, bind_eq_ok]
  simp only [bind_eq_ok, pure_eq_ok, Except.ok.injEq, exists_and_left, eq_comm (b := eras)]

/-- One more transition is followed from the last key. -/
theorem follow_concat (h : follow logId trusted number size current ts = .ok eras)
    (hera : handOver logId trusted (number + ts.length) (lastSize size eras) (lastKey current eras)
      t = .ok era) :
    follow logId trusted number size current (ts ++ [t]) = .ok (eras ++ [era]) := by
  induction ts generalizing number size current eras with
  | nil =>
    obtain rfl := Except.ok.inj h
    exact follow_cons_eq_ok.mpr ⟨era, [], hera, rfl, rfl⟩
  | cons u ts ih =>
    obtain ⟨first, rest, hfirst, hrest, rfl⟩ := follow_cons_eq_ok.mp h
    rw [lastSize_cons, lastKey_cons, List.length_cons, ← Nat.add_assoc, Nat.add_right_comm] at hera
    exact follow_cons_eq_ok.mpr ⟨first, rest ++ [era], hfirst, ih hrest hera, rfl⟩

/-- Whether the keys that transitions name by id alone are trusted by another, too. -/
def Trusts (trusted trusted' : KeyTable) (ts : List KeyTransition) : Prop :=
  ∀ t ∈ ts, t.incomingPublicKey = none → ∀ key, trusted.get t.incomingKeyId = some key →
    trusted'.get t.incomingKeyId = some key

/-- Who holds the keys that are named by id alone follows the same schedule. -/
theorem follow_of_trusts (h : follow logId trusted number size current ts = .ok eras)
    (htrust : Trusts trusted trusted' ts) :
    follow logId trusted' number size current ts = .ok eras := by
  induction ts generalizing number size current eras with
  | nil => exact h
  | cons t ts ih =>
    obtain ⟨era, rest, hera, hrest, rfl⟩ := follow_cons_eq_ok.mp h
    obtain ⟨hlog, hle, hverify, hincoming, hsize⟩ := handOver_eq_ok.mp hera
    refine follow_cons_eq_ok.mpr ⟨era, rest, handOver_eq_ok.mpr ⟨hlog, hle, hverify, ?_, hsize⟩,
      ih hrest fun u hu => htrust u (List.mem_cons_of_mem _ hu), rfl⟩
    rw [KeyTransition.incoming] at hincoming ⊢
    cases hraw : t.incomingPublicKey with
    | some raw =>
      rw [hraw] at hincoming
      exact hincoming
    | none =>
      rw [hraw] at hincoming
      exact htrust t List.mem_cons_self hraw _ hincoming

/-! ### Building and extending -/

variable {s s' : KeySchedule}

theorem build_cons_eq_ok : build logId trusted (t :: ts) = .ok s ↔
    ∃ sig first later, t.signature = some sig ∧ trusted.get sig.keyId = some first ∧
      follow logId trusted 1 0 first (t :: ts) = .ok later ∧ s = ⟨logId, t :: ts, first, later⟩ := by
  cases hsig : t.signature with
  | none => simp [build, hsig]
  | some sig =>
    cases hfirst : trusted.get sig.keyId with
    | none => simp [build, hsig, hfirst]
    | some first =>
      simp only [build, hsig, hfirst, bind_eq_ok, pure_eq_ok, Except.ok.injEq, Option.some.injEq]
      constructor
      · rintro ⟨later, hlater, rfl⟩
        exact ⟨sig, first, later, rfl, hfirst, hlater, rfl⟩
      · rintro ⟨sig', first', later, rfl, hget, hlater, rfl⟩
        obtain rfl := Option.some.inj (hfirst.symm.trans hget)
        exact ⟨later, hlater, rfl⟩

/-- A schedule of one transition, signed by a trusted key. -/
theorem build_singleton {sig : Signature} {first : LogKey} (hsig : t.signature = some sig)
    (hfirst : trusted.get sig.keyId = some first)
    (hera : handOver logId trusted 1 0 first t = .ok era) :
    build logId trusted [t] = .ok ⟨logId, [t], first, [era]⟩ :=
  build_cons_eq_ok.2 ⟨sig, first, [era], hsig, hfirst,
    follow_cons_eq_ok.mpr ⟨era, [], hera, rfl, rfl⟩, rfl⟩

/-- A schedule with one more transition, signed by its current key. -/
theorem build_concat (h : build logId trusted ts = .ok s)
    (hera : handOver logId trusted (ts.length + 1) s.boundary s.current t = .ok era) :
    build logId trusted (ts ++ [t]) =
      .ok ⟨logId, ts ++ [t], s.first, s.later ++ [era]⟩ := by
  cases ts with
  | nil => cases h
  | cons u ts =>
    obtain ⟨sig, first, later, hsig, hfirst, hlater, rfl⟩ := build_cons_eq_ok.1 h
    refine build_cons_eq_ok.2 ⟨sig, first, later ++ [era], hsig, hfirst, ?_, rfl⟩
    rw [Nat.add_comm] at hera
    exact follow_concat hlater hera

/-- What a schedule was built of. -/
theorem spec_of_build (h : build logId trusted ts = .ok s) :
    s.logId = logId ∧ s.transitions = ts ∧ ts ≠ [] := by
  cases ts with
  | nil => cases h
  | cons u ts =>
    obtain ⟨-, -, -, -, -, -, rfl⟩ := build_cons_eq_ok.1 h
    exact ⟨rfl, rfl, List.cons_ne_nil _ _⟩

/-- More keys make no other schedule of the same transitions. -/
theorem build_mono (h : build logId trusted ts = .ok s)
    (hmono : ∀ keyId key, trusted.get keyId = some key → trusted'.get keyId = some key) :
    build logId trusted' ts = .ok s := by
  cases ts with
  | nil => cases h
  | cons u ts =>
    obtain ⟨sig, first, later, hsig, hfirst, hlater, rfl⟩ := build_cons_eq_ok.1 h
    exact build_cons_eq_ok.2 ⟨sig, first, later, hsig, hmono _ _ hfirst,
      follow_of_trusts hlater fun t _ _ key hkey => hmono _ key hkey, rfl⟩

/-- Who trusts the first key, and holds the keys that are named by id alone, follows the same
schedule. -/
theorem build_of_trusts (h : build logId trusted ts = .ok s)
    (hfirst : trusted'.get s.first.keyId = some s.first) (htrust : Trusts trusted trusted' ts) :
    build logId trusted' ts = .ok s := by
  cases ts with
  | nil => cases h
  | cons u ts =>
    obtain ⟨sig, first, later, hsig, hget, hlater, rfl⟩ := build_cons_eq_ok.1 h
    refine build_cons_eq_ok.2 ⟨sig, first, later, hsig, ?_, follow_of_trusts hlater htrust, rfl⟩
    rw [← KeyTable.keyId_of_get hget]
    exact hfirst

/-! ### The keys in force -/

/-- The schedule with one more era. -/
def extend (s : KeySchedule) (t : KeyTransition) (era : ℕ × LogKey) : KeySchedule :=
  ⟨s.logId, s.transitions ++ [t], s.first, s.later ++ [era]⟩

theorem forLeaf_extend (s : KeySchedule) (t : KeyTransition) (era : ℕ × LogKey) (index : ℕ) :
    (s.extend t era).forLeaf index = if era.1 ≤ index then era.2 else s.forLeaf index := by
  simp [forLeaf, extend, List.foldl_append]

theorem forCheckpoint_extend (s : KeySchedule) (t : KeyTransition) (era : ℕ × LogKey)
    (treeSize : ℤ) : (s.extend t era).forCheckpoint treeSize =
      if (era.1 : ℤ) < treeSize then era.2 else s.forCheckpoint treeSize := by
  simp [forCheckpoint, extend, List.foldl_append]

/-- From its boundary on, a log's leaves are signed by the current key. -/
theorem forLeaf_of_le {index : ℕ} (h : s.boundary ≤ index) : s.forLeaf index = s.current := by
  rw [boundary, lastSize] at h
  rw [forLeaf, current, lastKey]
  rcases List.eq_nil_or_concat' s.later with hnil | ⟨eras, era, hlater⟩
  · rw [hnil]
    rfl
  · rw [hlater] at h ⊢
    simp only [List.getLast?_concat, Option.map_some, Option.getD_some] at h
    simp [List.foldl_append, h]

/-- Past its boundary, a log's checkpoints are signed by the current key. -/
theorem forCheckpoint_of_lt {treeSize : ℤ} (h : (s.boundary : ℤ) < treeSize) :
    s.forCheckpoint treeSize = s.current := by
  rw [boundary, lastSize] at h
  rw [forCheckpoint, current, lastKey]
  rcases List.eq_nil_or_concat' s.later with hnil | ⟨eras, era, hlater⟩
  · rw [hnil]
    rfl
  · rw [hlater] at h ⊢
    simp only [List.getLast?_concat, Option.map_some, Option.getD_some] at h
    simp [List.foldl_append, h]

end KeySchedule

end AgentGov.Receipts
