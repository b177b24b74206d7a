import AgentGov.Receipts.Callers

/-!
# Bundles, and who checks them

A bundle is a receipt of a log with a checkpoint that covers it and the path from one to the other.
Who trusts a log's keys checks that the transitions lead from them, that the receipt and the
checkpoint are each signed by the key in force for their position, and that the path leads from
the receipt to the checkpoint's root (`src/src/agentgov/receipts/log.py`, lines 363–370 and
562–601; `src/src/agentgov/receipts/verify.py`, lines 137–265 and 354–437, for a caller that gives
keys and transitions alone; `src/src/agentgov/receipts/schema.py`, lines 1969–2012).

## Main definitions

* `AgentGov.Receipts.ReceiptBundle`: a bundle, whose proof and checkpoint come together.
* `AgentGov.Receipts.ReceiptLog.covering`, `AgentGov.Receipts.ReceiptLog.prove`: what a log hands
  out.
* `AgentGov.Receipts.Keys`, `AgentGov.Receipts.verifyBundle`: the check.

## Main results

* `AgentGov.Receipts.verifyBundle_of_spec`: what passes.
* `AgentGov.Receipts.spec_of_passed`: what a proof that passes has shown.
-/

namespace AgentGov.Receipts

open Foundation

/-- `InclusionProof`, its path as bytes, which are written in hexadecimal. -/
structure InclusionProof where
  leafIndex : ℤ
  treeSize : ℤ
  auditPath : List (List Byte)

/-- `ReceiptBundle`: a receipt, with an inclusion proof and its checkpoint together or neither. -/
structure ReceiptBundle where
  receipt : LogDocument
  proof : Option (InclusionProof × Checkpoint)

/-! ### What a log hands out -/

/-- Why a log hands out no bundle. -/
inductive BundleFault
  | closed
  /-- `IndexError`: the log has no receipt there. -/
  | noReceipt (index : ℤ)
  /-- A checkpoint is not one of the log that covers the receipt. -/
  | notCheckpoint (logId : Text) (treeSize index : ℤ)
  | tree (message : String)

namespace ReceiptLog

/-- The first section of `bundle`: the checkpoint to prove against, where one is there to cover a
receipt. -/
def covering (log : ReceiptLog) (index : ℤ) (checkpoint : Option Checkpoint) :
    Except BundleFault (Option Checkpoint) :=
  if log.closed then .error .closed
  else if ¬(0 ≤ index ∧ index < log.leaves.length) then .error (.noReceipt index)
  else
    match checkpoint with
    | none => .ok (log.latest.filter fun c => index < c.treeSize)
    | some c =>
      if c.logId ≠ log.logId ∨ ¬(index < c.treeSize ∧ c.treeSize ≤ log.leaves.length) then
        .error (.notCheckpoint c.logId c.treeSize index)
      else
        match log.tree.root (some c.treeSize) with
        | .error e => .error (.tree e)
        | .ok (root, _) =>
          if c.rootHash ≠ toHex root then .error (.notCheckpoint c.logId c.treeSize index)
          else .ok (some c)

/-- The last section of `bundle`: a receipt with the proof that a checkpoint covers it. -/
def prove (log : ReceiptLog) (index : ℤ) (checkpoint : Checkpoint) :
    Except BundleFault ReceiptBundle :=
  match log.leaves[index.toNat]? with
  | none => .error (.noReceipt index)
  | some leaf =>
    if log.closed then .error .closed
    else
      match log.tree.inclusionProof index (some checkpoint.treeSize) with
      | .error e => .error (.tree e)
      | .ok (path, _) =>
        .ok ⟨leaf.document, some (⟨index, checkpoint.treeSize, path⟩, checkpoint)⟩

end ReceiptLog

/-! ### Who checks -/

/-- A key, or a keyring of the keys that may have signed. -/
inductive SigningKeys
  | key (key : LogKey)
  | ring (table : KeyTable)

/-- `verify` of a receipt. -/
def LogDocument.verifyWith (d : LogDocument) : SigningKeys → Except Fault PUnit.{1}
  | .key key => d.verify key.verifier
  | .ring table => d.verifyUnder table.keyring

/-- `verify` of a checkpoint. -/
def Checkpoint.verifyWith (c : Checkpoint) : SigningKeys → Except Fault PUnit.{1}
  | .key key => checkSignatureOf (txt "checkpoint") c.signature key.verifier c.signingInput
  | .ring table => c.verify table.keyring

/-- `_Keys`: the key each document of a bundle is checked under. -/
structure Keys where
  issuer : KeyTable
  log : Option KeyTable
  schedule : Option KeySchedule

namespace Keys

/-- `receipt`. -/
def receipt (keys : Keys) (d : LogDocument) : SigningKeys :=
  match keys.schedule, d.anchors.log with
  | some s, some anchor => if anchor.logId = s.logId then .key (s.forLeaf anchor.leafIndex)
    else .ring keys.issuer
  | _, _ => .ring keys.issuer

/-- `checkpoint`. -/
def checkpoint (keys : Keys) (c : Checkpoint) : SigningKeys :=
  match keys.schedule with
  | some s => if c.logId = s.logId then .key (s.forCheckpoint c.treeSize)
    else .ring (keys.log.getD keys.issuer)
  | none => .ring (keys.log.getD keys.issuer)

end Keys

/-- Why a check fails. -/
inductive CheckFailure
  | transitions (fault : ScheduleFault)
  | signature (message : Text)
  | checkpoint (message : Text)
  /-- The receipt names no position of a log. -/
  | unplaced
  /-- The proof is for another leaf, or the checkpoint of another log. -/
  | otherLeaf
  /-- The proof is for a tree of another size. -/
  | otherSize
  /-- The path does not lead from the receipt to the root. -/
  | path

/-- `Check`: how one of the checks has ended. -/
inductive Check
  | pass
  | skip
  | fail (failure : CheckFailure)

/-- `_keys`: the keys to check under, and the check of the transitions, if any. -/
def keysFor (bundle : ReceiptBundle) (issuer : KeyTable) (log : Option KeyTable)
    (transitions : List KeyTransition) : Keys × List Check :=
  match transitions with
  | [] => (⟨issuer, log, none⟩, [])
  | t :: _ =>
    let named := (bundle.proof.map fun p => p.2.logId).filter (· ≠ [])
    let logId := named.getD ((bundle.receipt.anchors.log.map LogAnchor.logId).getD t.logId)
    match KeySchedule.build logId (log.getD issuer) transitions with
    | .error fault => (⟨issuer, log, none⟩, [.fail (.transitions fault)])
    | .ok s => (⟨issuer, log, some s⟩, [.pass])

/-- What raises no more than that a signature is refused. -/
def refusal (x : Except Fault PUnit.{1}) (failure : Text → CheckFailure) : Except Fault Check :=
  match x with
  | .ok _ => .ok .pass
  | .error (.signature message) => .ok (.fail (failure message))
  | .error fault => .error fault

/-- `_check_signature`. -/
def checkReceiptSignature (d : LogDocument) (keys : SigningKeys) : Except Fault Check :=
  refusal (d.verifyWith keys) .signature

/-- `bytes.fromhex` of a checkpoint's root. -/
def Checkpoint.rootBytes (c : Checkpoint) : Except Fault (List Byte) :=
  match fromHex c.rootHash with
  | some bs => .ok bs
  | none => .error (.valueError (txt "non-hexadecimal number found in fromhex() arg"))

/-- The part of `_check_inclusion` behind the checkpoint's signature. -/
def checkPath (d : LogDocument) (proof : InclusionProof) (c : Checkpoint) : Except Fault Check :=
  match d.anchors.log with
  | none => .ok (.fail .unplaced)
  | some anchor =>
    if anchor.logId ≠ c.logId ∨ (anchor.leafIndex : ℤ) ≠ proof.leafIndex then
      .ok (.fail .otherLeaf)
    else if proof.treeSize ≠ c.treeSize then .ok (.fail .otherSize)
    else do
      let line ← d.canonical
      let root ← c.rootBytes
      if verifyInclusion nodeHash (leafHash line) proof.leafIndex proof.treeSize proof.auditPath
          root then return .pass
      else return .fail .path

/-- `_check_inclusion`. -/
def checkInclusion (bundle : ReceiptBundle) (keys : Keys) : Except Fault Check :=
  match bundle.proof with
  | none => .ok .skip
  | some (proof, c) => do
    match ← refusal (c.verifyWith (keys.checkpoint c)) .checkpoint with
    | .pass => checkPath bundle.receipt proof c
    | failed => return failed

/-- `verify_bundle`, given keys and transitions: the check of the transitions, if there are any, of
the receipt's signature and of its inclusion. -/
def verifyBundle (bundle : ReceiptBundle) (issuer : KeyTable) (log : Option KeyTable)
    (transitions : List KeyTransition) : Except Fault (List Check) := do
  let (keys, followed) := keysFor bundle issuer log transitions
  let signed ← checkReceiptSignature bundle.receipt (keys.receipt bundle.receipt)
  let included ← checkInclusion bundle keys
  return followed ++ [signed, included]

/-! ### What passes -/

/-- A signature that verifies under a key verifies under a keyring that holds it. -/
theorem checkSignature_of_key {what : Text} {signature : Option Signature} {key : Verifier}
    {ring : Keyring} {payload : Text → Text → ℕ → Except Fault (List Byte)}
    (h : checkSignatureOf what signature key payload = .ok ⟨⟩)
    (hkey : ring.get key.keyId = some key) :
    checkSignature what signature ring payload = .ok ⟨⟩ := by
  cases signature with
  | none => cases h
  | some s =>
    have hid : s.keyId = key.keyId := by
      simp only [checkSignatureOf] at h
      split_ifs at h with halg hid
      exact not_not.mp hid
    rw [checkSignature, hid, hkey]
    exact h

section Passes

variable {trusted : KeyTable} {first key : LogKey}

theorem verifyWith_ring {d : LogDocument} (h : d.verify key.verifier = .ok ⟨⟩)
    (hkey : trusted.get key.keyId = some key) : d.verifyWith (.ring trusted) = .ok ⟨⟩ := by
  refine checkSignature_of_key h ?_
  rw [KeyTable.keyring_get, show key.verifier.keyId = key.keyId from rfl, hkey]
  rfl

theorem Checkpoint.verifyWith_ring {c : Checkpoint} (h : c.verifyWith (.key key) = .ok ⟨⟩)
    (hkey : trusted.get key.keyId = some key) : c.verifyWith (.ring trusted) = .ok ⟨⟩ := by
  refine checkSignature_of_key h ?_
  rw [KeyTable.keyring_get, show key.verifier.keyId = key.keyId from rfl, hkey]
  rfl

/-- The key in force for a leaf, after a first key. -/
def leafKey (first : LogKey) (schedule : Option KeySchedule) (index : ℕ) : LogKey :=
  (schedule.map fun s => s.forLeaf index).getD first

/-- The key in force for a checkpoint, after a first key. -/
def checkpointKey (first : LogKey) (schedule : Option KeySchedule) (treeSize : ℤ) : LogKey :=
  (schedule.map fun s => s.forCheckpoint treeSize).getD first

/-- Whether transitions lead from trusted keys to a schedule, or there are none. -/
def Follows (logId : Text) (trusted : KeyTable) (transitions : List KeyTransition) :
    Option KeySchedule → Prop
  | none => transitions = []
  | some s => KeySchedule.build logId trusted transitions = .ok s

/-- Who trusts the first key passes a receipt and a checkpoint that are each signed by the key in
force for their position, with a path from one to the other. -/
theorem verifyBundle_of_spec {logId : Text} {transitions : List KeyTransition}
    {schedule : Option KeySchedule} {d : LogDocument} {index size : ℕ} {c : Checkpoint}
    {line root : List Byte} {path : List (List Byte)}
    (hfollows : Follows logId trusted transitions schedule)
    (hfirst : trusted.get first.keyId = some first)
    (hplace : d.anchors.log = some ⟨logId, index⟩) (hlog : c.logId = logId)
    (hsize : c.treeSize = size) (hline : d.canonical = .ok line) (hroot : c.rootHash = toHex root)
    (hsigned : d.verify (leafKey first schedule index).verifier = .ok ⟨⟩)
    (hsealed : c.verifyWith (.key (checkpointKey first schedule size)) = .ok ⟨⟩)
    (hpath : verifyInclusion nodeHash (leafHash line) index size path root = true) :
    ∃ checks, verifyBundle ⟨d, some (⟨index, size, path⟩, c)⟩ trusted none transitions =
      .ok checks ∧ ∀ check ∈ checks, check = .pass := by
  have hincluded : checkPath d ⟨index, size, path⟩ c = .ok .pass := by
    rw [checkPath, hplace]
    simp only [hlog, hsize, ne_eq, not_true_eq_false, or_self, if_false, hline, ok_bind,
      Checkpoint.rootBytes, hroot, fromHex_toHex, hpath, if_true]
    rfl
  cases schedule with
  | none =>
    obtain rfl : transitions = [] := hfollows
    refine ⟨[.pass, .pass], ?_, by simp⟩
    have hd := verifyWith_ring hsigned hfirst
    have hc := Checkpoint.verifyWith_ring hsealed hfirst
    simp only [verifyBundle, keysFor, Keys.receipt, Keys.checkpoint, checkReceiptSignature,
      checkInclusion, Option.getD_none, hd, hc, refusal, ok_bind, hincluded]
    rfl
  | some s =>
    have hbuild : KeySchedule.build logId trusted transitions = .ok s := hfollows
    obtain ⟨hs, -, hne⟩ := KeySchedule.spec_of_build hbuild
    obtain ⟨t, ts, rfl⟩ := List.exists_cons_of_ne_nil hne
    refine ⟨[.pass, .pass, .pass], ?_, by simp⟩
    have hkeys : keysFor ⟨d, some (⟨index, size, path⟩, c)⟩ trusted none (t :: ts) =
        (⟨trusted, none, some s⟩, [.pass]) := by
      have hname : (((some c.logId).filter (· ≠ [])).getD
          ((d.anchors.log.map LogAnchor.logId).getD t.logId)) = logId := by
        rw [hplace, hlog]
        cases logId <;> rfl
      simp only [keysFor, Option.map_some, hname, Option.getD_none, hbuild]
    have hd : d.verifyWith (.key (s.forLeaf index)) = .ok ⟨⟩ := hsigned
    have hc : c.verifyWith (.key (s.forCheckpoint size)) = .ok ⟨⟩ := hsealed
    simp only [verifyBundle, hkeys, Keys.receipt, Keys.checkpoint, hplace, hlog, hs, if_true,
      checkReceiptSignature, checkInclusion, hsize, hd, hc, refusal, ok_bind, hincluded]
    rfl

end Passes

theorem spec_of_refusal {x : Except Fault PUnit.{1}} {failure : Text → CheckFailure}
    (h : refusal x failure = .ok .pass) : x = .ok ⟨⟩ := by
  cases x with
  | ok _ => rfl
  | error fault => cases fault <;> cases h

theorem spec_of_checkPath {d : LogDocument} {proof : InclusionProof} {c : Checkpoint}
    (h : checkPath d proof c = .ok .pass) :
    ∃ anchor line root, d.anchors.log = some anchor ∧ anchor.logId = c.logId ∧
      (anchor.leafIndex : ℤ) = proof.leafIndex ∧ proof.treeSize = c.treeSize ∧
      d.canonical = .ok line ∧ fromHex c.rootHash = some root ∧
      verifyInclusion nodeHash (leafHash line) proof.leafIndex proof.treeSize proof.auditPath
        root = true := by
  rw [checkPath] at h
  split at h
  · cases h
  · rename_i anchor hanchor
    split_ifs at h with hplace hsize
    · cases h
    · cases h
    obtain ⟨line, hline, h⟩ := bind_eq_ok.mp h
    obtain ⟨root, hroot, h⟩ := bind_eq_ok.mp h
    split_ifs at h with hpath
    · rw [not_or, not_not, not_not] at hplace
      refine ⟨anchor, line, root, hanchor, hplace.1, hplace.2, not_not.mp hsize, hline, ?_, hpath⟩
      rw [Checkpoint.rootBytes] at hroot
      split at hroot
      · rename_i bs hbs
        rw [hbs, Except.ok.inj hroot]
      · cases hroot
    · cases h

/-- What a proof that passes has shown: the checkpoint is signed by the key in force for it, and
the path leads to its root from the receipt, at the position the receipt names. -/
theorem spec_of_passed {bundle : ReceiptBundle} {keys : Keys} {proof : InclusionProof}
    {c : Checkpoint} (hproof : bundle.proof = some (proof, c))
    (h : checkInclusion bundle keys = .ok .pass) :
    c.verifyWith (keys.checkpoint c) = .ok ⟨⟩ ∧
    ∃ anchor line root, bundle.receipt.anchors.log = some anchor ∧ anchor.logId = c.logId ∧
      (anchor.leafIndex : ℤ) = proof.leafIndex ∧ proof.treeSize = c.treeSize ∧
      bundle.receipt.canonical = .ok line ∧ fromHex c.rootHash = some root ∧
      verifyInclusion nodeHash (leafHash line) proof.leafIndex proof.treeSize proof.auditPath
        root = true := by
  rw [checkInclusion, hproof] at h
  obtain ⟨check, hcheck, h⟩ := bind_eq_ok.mp h
  cases check with
  | pass => exact ⟨spec_of_refusal hcheck, spec_of_checkPath h⟩
  | skip => cases h
  | fail failure => cases h

end AgentGov.Receipts
