import AgentGov.Foundation.OrderedDict
import AgentGov.Receipts.Schedule
import AgentGov.Receipts.Tree

/-!
# The receipt log

A log that is shared by many callers. A caller takes the next position under the log's lock, signs
its receipt outside it, and comes back; signed receipts are appended in the order of their
positions, as many at a time as are ready. Where a signature fails, its position and every later
one are taken back. Whoever holds the lock of publications signs checkpoints, or hands the log
over to another key, which waits for the positions that are held
(`src/src/agentgov/receipts/log.py`, lines 93–180, 410–560 and 610–1000; the log is durable, with
its file and its index).

Every section under the log's lock is one event, and so are the returns of signers and of writes;
the events of callers and of the publisher come in any order.

## Main definitions

* `AgentGov.Receipts.ReceiptLog`: the state of a log, its callers and its publisher.
* `AgentGov.Receipts.ReceiptLog.reserve`, `AgentGov.Receipts.ReceiptLog.deliver`,
  `AgentGov.Receipts.ReceiptLog.drain`, `AgentGov.Receipts.ReceiptLog.takeBack`: the sequencer.
* `AgentGov.Receipts.ReceiptLog.takeCheckpoint`, `AgentGov.Receipts.ReceiptLog.handOver`: the
  publisher.
* `AgentGov.Receipts.ReceiptLog.step`, `AgentGov.Receipts.ReceiptLog.run`: its runs.
-/

namespace AgentGov.Receipts

open Foundation

/-! ### Reservations -/

/-- `_Reservation`: a position, held while a receipt for it is signed. Its ticket tells it from
every other. -/
structure Reservation where
  ticket : ℕ
  index : ℕ
  receiptId : Text
deriving DecidableEq

/-- Why a log refuses, and what its callers are told. -/
inductive LogFault
  /-- The log is closed. -/
  | closed
  /-- It could not index receipts it appended, and must be reopened. -/
  | broken
  /-- A receipt of this id is in the log already, at an index. -/
  | logged (receiptId : Text) (index : ℕ)
  /-- A receipt of this id is being issued, at an index. -/
  | issuing (receiptId : Text) (index : ℕ)
  /-- An unsigned receipt cannot enter a log. -/
  | unsigned
  /-- A receipt claims another place than the log's next index. -/
  | misplaced (receiptId : Text) (claimed : Option LogAnchor) (index : ℕ)
  /-- A delivery follows from a leaf that is not an action receipt the log holds. -/
  | notAction (receiptId : Text) (index : ℕ)
  /-- A delivery does not bind. -/
  | unbound (receiptId : Text) (problem : BindingProblem)
  /-- A receipt was not issued: the log could not be written. -/
  | notWritten (receiptId : Text)
  /-- What a write has raised. -/
  | writeError
  /-- The log changed keys at a size, and has no checkpoint there. -/
  | noCheckpoint (boundary : ℕ)
  /-- The log is already signed by a key. -/
  | sameKey (keyId : Text)
  /-- A signer did not sign. -/
  | unavailable
  /-- What placing or signing a document raises. -/
  | document (fault : Fault)
  /-- What the tree of the leaves raises. -/
  | tree (message : String)
  /-- What a schedule of the transitions raises. -/
  | schedule (fault : ScheduleFault)

/-- How a reservation was settled: its receipt appended, failed, or its position taken back. -/
inductive Settlement
  | issued (leaf : Leaf)
  | failed (fault : LogFault)
  | takenBack

/-- What a caller that holds a reservation is at: signing a receipt, or appending a signed one. -/
inductive Work
  | issuing (unsigned : LogDocument) (signer : LogSigner)
  | appending (leaf : Leaf)

/-- A caller, and the reservation it holds. -/
structure Caller where
  reservation : Reservation
  work : Work

/-- How a write of receipts ends: they are durable and indexed, or durable and not indexed, or
nothing was written. -/
inductive Extended
  | written
  | unindexed
  | failed
deriving DecidableEq

/-- Who holds the lock of publications, and where it stands: nobody; a publication, whose
checkpoint is being written; or a rotation, which waits for the positions that are held, takes the
size, signs a checkpoint of it, writes that, or signs the transition. -/
inductive Publisher
  | idle
  | publishing (checkpoint : Checkpoint)
  | draining (incoming : LogSigner)
  | measuring (incoming : LogSigner)
  | sealing (incoming outgoing : LogSigner) (size : ℕ)
  | recording (incoming outgoing : LogSigner) (size : ℕ) (checkpoint : Checkpoint)
  | handing (incoming outgoing : LogSigner) (size : ℕ)

/-- `ReceiptLog`: a log, its callers and its publisher. -/
structure ReceiptLog where
  logId : Text
  /-- `_signature_version`, where one was given. -/
  signatureVersion : Option ℕ
  /-- `_leaves`: the receipts of the file that its index holds. -/
  leaves : List Leaf
  /-- The receipts of the file behind them. -/
  unindexed : List Leaf
  /-- `_leaves.tree`. -/
  tree : MerkleTree
  /-- `_next`: the next position to hand out. -/
  next : ℕ
  /-- `_held`: positions handed out, not yet appended. -/
  held : Dict ℕ Reservation
  heldIds : Dict Text ℕ
  /-- `_signed`: receipts waiting their turn. -/
  signed : Dict ℕ (Reservation × Leaf)
  broken : Bool
  closed : Bool
  rotating : Bool
  signer : LogSigner
  keyring : KeyTable
  transitions : List KeyTransition
  schedule : Option KeySchedule
  latest : Option Checkpoint
  checkpoints : List Checkpoint
  publisher : Publisher
  /-- The callers, by the tickets of their reservations. -/
  callers : List Caller
  /-- The tickets of the callers whose receipt has not come back. -/
  working : List ℕ
  /-- The reservations that were settled, by their tickets. -/
  settled : Dict ℕ Settlement

namespace ReceiptLog

/-- A log without receipts, under a keyring that holds its signer's key. -/
def fresh (logId : Text) (signatureVersion : Option ℕ) (signer : LogSigner) (keyring : KeyTable) :
    ReceiptLog where
  logId := logId
  signatureVersion := signatureVersion
  leaves := []
  unindexed := []
  tree := .init
  next := 0
  held := ∅
  heldIds := ∅
  signed := ∅
  broken := false
  closed := false
  rotating := false
  signer := signer
  keyring := keyring
  transitions := []
  schedule := none
  latest := none
  checkpoints := []
  publisher := .idle
  callers := []
  working := []
  settled := ∅

/-- `ReceiptLog(log_id, signer, keyring=trusted)` over no file. -/
def opened (logId : Text) (signatureVersion : Option ℕ) (signer : LogSigner) (trusted : KeyTable) :
    Except Fault ReceiptLog := do
  let logId ← checkText (.str logId) (txt "log_id")
  let version := signatureVersion.getD signer.signatureVersion
  if version ≠ 1 ∧ version ≠ 2 then .error (.valueError (txt "signature version is not 1 or 2"))
  else
    let keyring ← trusted.add signer.key
    return fresh logId signatureVersion signer keyring

/-- What the file holds. -/
def file (log : ReceiptLog) : List Leaf := log.leaves ++ log.unindexed

/-- `_version_for`. -/
def versionFor (log : ReceiptLog) (signer : LogSigner) : ℕ :=
  log.signatureVersion.getD signer.signatureVersion

/-- `index_of`. -/
def indexOf (log : ReceiptLog) (receiptId : Text) : Option ℕ :=
  log.leaves.findIdx? fun leaf => leaf.receiptId = receiptId

/-! ### The sequencer -/

/-- `_check_open`. -/
def checkOpen (log : ReceiptLog) : Except LogFault PUnit.{1} :=
  if log.closed then .error .closed
  else if log.broken then .error .broken
  else .ok ⟨⟩

/-- `_check_new`. -/
def checkNew (log : ReceiptLog) (receiptId : Text) : Except LogFault PUnit.{1} :=
  match log.indexOf receiptId with
  | some seen => .error (.logged receiptId seen)
  | none =>
    match log.heldIds.get? receiptId with
    | some held => .error (.issuing receiptId held)
    | none => .ok ⟨⟩

/-- `_check_binding`: a delivery that names an action receipt of this log follows it, bound to its
exact bytes. -/
def checkBinding (log : ReceiptLog) (leaf : Leaf) (staged : Dict ℕ Leaf) :
    Except LogFault PUnit.{1} :=
  match leaf.document with
  | .action _ => .ok ⟨⟩
  | .delivery r =>
    if r.action.logId ≠ log.logId then .ok ⟨⟩
    else
      match (staged.get? r.action.leafIndex).or log.leaves[r.action.leafIndex]? with
      | none => .error (.notAction r.receiptId r.action.leafIndex)
      | some bound =>
        match bound.document with
        | .delivery _ => .error (.notAction r.receiptId r.action.leafIndex)
        | .action a =>
          match r.action.problem a bound.hash with
          | some problem => .error (.unbound r.receiptId problem)
          | none => .ok ⟨⟩

/-- `_check_position`. -/
def checkPosition (log : ReceiptLog) (leaf : Leaf) (index : ℕ) (bind : Bool) :
    Except LogFault PUnit.{1} := do
  log.checkNew leaf.receiptId
  if leaf.document.signature = none then .error .unsigned
  else if leaf.document.anchors.log ≠ some ⟨log.logId, index⟩ then
    .error (.misplaced leaf.receiptId leaf.document.anchors.log index)
  else if bind then log.checkBinding leaf ∅
  else .ok ⟨⟩

/-- `_hold`: hand out the next position. -/
def hold (log : ReceiptLog) (receiptId : Text) (work : Work) : ReceiptLog :=
  let reservation : Reservation := ⟨log.callers.length, log.next, receiptId⟩
  { log with
    next := log.next + 1
    held := log.held.set log.next reservation
    heldIds := log.heldIds.set receiptId log.next
    callers := log.callers ++ [⟨reservation, work⟩]
    working := log.callers.length :: log.working }

/-- `_reserve`, once no rotation is under way. -/
def reserve (log : ReceiptLog) (draft : LogDocument) : Except LogFault ReceiptLog := do
  log.checkOpen
  log.checkNew draft.receiptId
  let unsigned ← (draft.withLogAnchor log.logId log.next).mapError .document
  return log.hold draft.receiptId (.issuing unsigned log.signer)

/-- The first section of `append`. -/
def append (log : ReceiptLog) (leaf : Leaf) : Except LogFault ReceiptLog := do
  log.checkOpen
  log.checkPosition leaf log.next (log.next = log.leaves.length)
  return log.hold leaf.receiptId (.appending leaf)

/-- `settle`. -/
def settle (log : ReceiptLog) (reservation : Reservation) (s : Settlement) : ReceiptLog :=
  { log with settled := log.settled.set reservation.ticket s }

/-- What is popped with a position. -/
def drop (log : ReceiptLog) (index : ℕ) (receiptId : Text) : ReceiptLog :=
  { log with
    held := log.held.erase index
    signed := log.signed.erase index
    heldIds := log.heldIds.erase receiptId }

/-- One position that is taken back: `held.settle(error=error if held is reservation else None)`. -/
def release (reservation : Reservation) (error : Option LogFault) (log : ReceiptLog) (index : ℕ) :
    ReceiptLog :=
  match log.held.get? index with
  | none => log
  | some held =>
    (log.drop index held.receiptId).settle held
      (if held = reservation then (error.map .failed).getD .takenBack else .takenBack)

/-- `_take_back`: release a reservation, and every later position. -/
def takeBack (log : ReceiptLog) (reservation : Reservation) (error : Option LogFault) :
    ReceiptLog :=
  let later := (log.held.keys.filter fun i => reservation.index ≤ i).mergeSort (· ≤ ·)
  { later.foldl (release reservation error) log with next := reservation.index }

/-- The receipts of a batch by their positions. -/
def staged (batch : List (Reservation × Leaf)) : Dict ℕ Leaf :=
  batch.foldl (fun d p => d.set p.1.index p.2) ∅

/-- The loop of `_drain`: the signed receipts whose turn has come, and the first that is refused. -/
def ready (log : ReceiptLog) : ℕ → List (Reservation × Leaf) →
    List (Reservation × Leaf) × Option (Reservation × LogFault)
  | 0, batch => (batch, none)
  | room + 1, batch =>
    match log.signed.get? (log.leaves.length + batch.length) with
    | none => (batch, none)
    | some (reservation, leaf) =>
      match log.checkOpen >>= fun _ => log.checkBinding leaf (staged batch) with
      | .error e => (batch, some (reservation, e))
      | .ok _ => ready log room (batch ++ [(reservation, leaf)])

/-- A tree with the hashes of some leaves, which are as long as a hash. -/
def grown (tree : MerkleTree) (leaves : List Leaf) : MerkleTree :=
  leaves.foldl (fun t leaf => ((t.append leaf.hash).map Prod.snd).toOption.getD t) tree

/-- `_leaves.extend`, where the file was written. -/
def extend (log : ReceiptLog) (leaves : List Leaf) (indexed : Bool) : ReceiptLog :=
  if indexed then { log with leaves := log.leaves ++ leaves, tree := grown log.tree leaves }
  else { log with unindexed := log.unindexed ++ leaves, broken := true }

/-- `_take_back(*refused)`, where one was refused. -/
def takeBackRefused (log : ReceiptLog) : Option (Reservation × LogFault) → ReceiptLog
  | none => log
  | some (reservation, error) => log.takeBack reservation (some error)

/-- A receipt of a batch that was written. -/
def settleIssued (log : ReceiptLog) (p : Reservation × Leaf) : ReceiptLog :=
  (log.drop p.1.index p.1.receiptId).settle p.1 (.issued p.2)

/-- A receipt of a batch that was not. -/
def settleFailed (log : ReceiptLog) (p : Reservation × Leaf) : ReceiptLog :=
  (log.drop p.1.index p.1.receiptId).settle p.1 (.failed (.notWritten p.1.receiptId))

/-- `_drain`: append every signed receipt whose turn has come, with one write. -/
def drain (log : ReceiptLog) (write : Extended) : ReceiptLog :=
  let (batch, refused) := log.ready log.signed.items.length []
  match batch with
  | [] => log.takeBackRefused refused
  | first :: others =>
    match write with
    | .failed => (others.foldl settleFailed log).takeBack first.1 (some .writeError)
    | .written =>
      (batch.foldl settleIssued (log.extend (batch.map Prod.snd) true)).takeBackRefused refused
    | .unindexed =>
      (batch.foldl settleIssued (log.extend (batch.map Prod.snd) false)).takeBackRefused refused

/-- `_deliver`. -/
def deliver (log : ReceiptLog) (reservation : Reservation) (leaf : Leaf) (write : Extended) :
    ReceiptLog :=
  if (log.settled.get? reservation.ticket).isSome then log
  else { log with signed := log.signed.set reservation.index (reservation, leaf) }.drain write

/-- `_abandon`. -/
def abandon (log : ReceiptLog) (reservation : Reservation) : ReceiptLog :=
  if (log.settled.get? reservation.ticket).isSome then log else log.takeBack reservation none

/-- What a caller comes back with: its signed receipt, or nothing. A receipt that was signed has
its line. -/
def returned (log : ReceiptLog) (caller : Caller) (available : Bool) : Option Leaf :=
  match caller.work with
  | .appending leaf => some leaf
  | .issuing unsigned signer =>
    if available then
      (unsigned.sign signer.signer (log.versionFor signer) >>= Leaf.of).toOption
    else none

/-- A caller comes back. -/
def finish (log : ReceiptLog) (ticket : ℕ) (available : Bool) (write : Extended) : ReceiptLog :=
  match log.callers[ticket]? with
  | none => log
  | some caller =>
    if ticket ∈ log.working then
      let log := { log with working := log.working.filter (· ≠ ticket) }
      match log.returned caller available with
      | some leaf => log.deliver caller.reservation leaf write
      | none => log.abandon caller.reservation
    else log

/-! ### The publisher -/

/-- `_key_in_force`. -/
def keyInForce (log : ReceiptLog) : LogKey :=
  (log.schedule.map KeySchedule.current).getD log.signer.key

/-- The first section of `_checkpoint`, with the signature: a checkpoint to record, or the latest
one where nothing was added since the hand-over. -/
def takeCheckpoint (log : ReceiptLog) (now : Instant) (available : Bool) :
    Except LogFault (Option Checkpoint × ReceiptLog) :=
  let size := log.leaves.length
  match log.schedule.filter fun s => size ≤ s.boundary with
  | some s =>
    if log.latest.map Checkpoint.treeSize = some (size : ℤ) then .ok (none, log)
    else .error (.noCheckpoint s.boundary)
  | none => do
    let (root, tree) ← (log.tree.root (some size)).mapError .tree
    if available then do
      let c ← (Checkpoint.sign ⟨log.logId, size, toHex root, now, none⟩ log.signer.signer
        (log.versionFor log.signer)).mapError .document
      return (some c, { log with tree := tree })
    else .error .unavailable

/-- The last section of `_checkpoint`. -/
def record (log : ReceiptLog) (c : Checkpoint) : ReceiptLog :=
  { log with latest := some c, checkpoints := log.checkpoints ++ [c] }

/-- A publication, or the end of one, that leaves the lock of publications. -/
def leave (log : ReceiptLog) : ReceiptLog := { log with publisher := .idle, rotating := false }

/-- `checkpoint` and `publish`, up to the write. -/
def checkpoint (log : ReceiptLog) (now : Instant) (available : Bool) : ReceiptLog :=
  match log.publisher with
  | .idle =>
    match log.takeCheckpoint now available with
    | .ok (some c, log) => { log with publisher := .publishing c }
    | _ => log
  | _ => log

/-- The first section of `rotate`. -/
def rotate (log : ReceiptLog) (incoming : LogSigner) : ReceiptLog :=
  match log.publisher with
  | .idle =>
    match log.checkOpen with
    | .error _ => log
    | .ok _ =>
      if incoming.key.keyId = log.keyInForce.keyId then log
      else { log with rotating := true, publisher := .draining incoming }
  | _ => log

/-- `while self._held: self._turn.wait()`, and the section behind it. -/
def measure (log : ReceiptLog) : ReceiptLog :=
  match log.publisher with
  | .draining incoming =>
    if log.held.items = [] then { log with publisher := .measuring incoming } else log
  | .measuring incoming =>
    let size := log.leaves.length
    if log.latest.map Checkpoint.treeSize = some (size : ℤ) then
      { log with publisher := .handing incoming log.signer size }
    else { log with publisher := .sealing incoming log.signer size }
  | _ => log

/-- `self._checkpoint()` of a rotation, up to the write. -/
def vouch (log : ReceiptLog) (now : Instant) (available : Bool) : ReceiptLog :=
  match log.publisher with
  | .sealing incoming outgoing size =>
    match log.takeCheckpoint now available with
    | .ok (some c, log) => { log with publisher := .recording incoming outgoing size c }
    | .ok (none, log) => { log with publisher := .handing incoming outgoing size }
    | .error _ => log.leave
  | _ => log

/-- A checkpoint was written, or was not. -/
def recorded (log : ReceiptLog) (written : Bool) : ReceiptLog :=
  match log.publisher with
  | .publishing c => if written then (log.record c).leave else log.leave
  | .recording incoming outgoing size c =>
    if written then { log.record c with publisher := .handing incoming outgoing size }
    else log.leave
  | _ => log

/-- The transition of a rotation, signed by the outgoing key. -/
def transition (log : ReceiptLog) (incoming outgoing : LogSigner) (size : ℕ) (now : Instant) :
    Except Fault KeyTransition := do
  let t ← KeyTransition.of log.logId size incoming.key now
  t.sign outgoing.signer (log.versionFor outgoing)

/-- The section of `rotate` that hands the log over. -/
def handOver (log : ReceiptLog) (incoming : LogSigner) (t : KeyTransition) : ReceiptLog :=
  let log := { log with transitions := log.transitions ++ [t] }
  match log.keyring.add incoming.key with
  | .error _ => log
  | .ok keyring =>
    let log := { log with keyring := keyring }
    match KeySchedule.build log.logId log.keyring log.transitions with
    | .error _ => log
    | .ok s => { log with schedule := some s, signer := incoming }

/-- The end of `rotate`: the transition is signed and written, and the log handed over. -/
def hand (log : ReceiptLog) (now : Instant) (available written : Bool) : ReceiptLog :=
  match log.publisher with
  | .handing incoming outgoing size =>
    if available then
      match log.transition incoming outgoing size now with
      | .error _ => log.leave
      | .ok t => if written then (log.handOver incoming t).leave else log.leave
    else log.leave
  | _ => log

/-! ### Runs -/

/-- The events of a log. -/
inductive Event
  /-- `issue` takes a position; it waits while a rotation is under way. -/
  | reserve (draft : LogDocument)
  /-- `append` takes a position. -/
  | append (leaf : Leaf)
  /-- A caller comes back, its signer having signed or not, and what it writes ends somehow. -/
  | finish (ticket : ℕ) (available : Bool) (write : Extended)
  | close
  | checkpoint (now : Instant) (available : Bool)
  | rotate (incoming : LogSigner)
  | measure
  | vouch (now : Instant) (available : Bool)
  | recorded (written : Bool)
  | hand (now : Instant) (available written : Bool)

/-- What an event does. What raises leaves the log as it was. -/
def step (log : ReceiptLog) : Event → ReceiptLog
  | .reserve draft => if log.rotating then log else (log.reserve draft).toOption.getD log
  | .append leaf => (log.append leaf).toOption.getD log
  | .finish ticket available write => log.finish ticket available write
  | .close => { log with closed := true }
  | .checkpoint now available => log.checkpoint now available
  | .rotate incoming => log.rotate incoming
  | .measure => log.measure
  | .vouch now available => log.vouch now available
  | .recorded written => log.recorded written
  | .hand now available written => log.hand now available written

/-- The log after some events. -/
def run (log : ReceiptLog) (es : List Event) : ReceiptLog := es.foldl step log

end ReceiptLog

end AgentGov.Receipts
