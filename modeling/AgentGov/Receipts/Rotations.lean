import AgentGov.Receipts.Bundles

/-!
# A log that outlives its key

A log that hands itself over from key to key stays one that anybody can check who trusts its first
key: in every run whose appended receipts came before or after a rotation, not during one, and
whose index has not failed, each receipt it issued and each checkpoint it recorded is signed by
the key in force for its position, the transitions lead from the first key to the last, and every
bundle it hands out passes.

## Main definitions

* `AgentGov.Receipts.Custody`: the keys a run hands its log to.
* `AgentGov.Receipts.ReceiptLog.Steady`: a run that appends nothing during a rotation.
* `AgentGov.Receipts.ReceiptLog.Keyed`, `AgentGov.Receipts.ReceiptLog.Staged`: the invariant, of
  the log and of its publisher.

## Main results

* `AgentGov.Receipts.ReceiptLog.keyed_run`: it holds after such a run.
* `AgentGov.Receipts.ReceiptLog.followed`: who trusts the first key follows the log to its last.
* `AgentGov.Receipts.ReceiptLog.bundles_pass`: the bundles of the log pass.
* `AgentGov.Receipts.ReceiptLog.included_of_passed`: what passes is a receipt of the log.
-/

namespace AgentGov.Receipts

open Foundation Merkle

/-! ### Keys of a run -/

/-- Signers that a log may be handed to: what each signs verifies under its key, and a key id names
one key. -/
structure Custody (signers : List LogSigner) (keys : List LogKey) : Prop where
  valid : ∀ s ∈ signers, s.signer.Valid
  mem : ∀ s ∈ signers, s.key ∈ keys
  distinct : ∀ a ∈ keys, ∀ b ∈ keys, a.keyId = b.keyId → a = b

/-- A key is added to a keyring where ids name one key. -/
theorem exists_add {table : KeyTable} {key : LogKey} {keys : List LogKey}
    (hdistinct : ∀ a ∈ keys, ∀ b ∈ keys, a.keyId = b.keyId → a = b)
    (htable : ∀ k ∈ table.keys, k ∈ keys) (hkey : key ∈ keys) :
    ∃ table', table.add key = .ok table' ∧ ∀ k ∈ table'.keys, k ∈ keys := by
  rw [KeyTable.add]
  split_ifs with hnone hsame
  · refine ⟨_, rfl, fun k hk => ?_⟩
    rcases List.mem_append.mp hk with hk | hk
    · exact htable k hk
    · rwa [List.mem_singleton.mp hk]
  · exact ⟨table, rfl, htable⟩
  · obtain ⟨held, hheld⟩ := Option.ne_none_iff_exists'.mp hnone
    have hmem := htable held (List.mem_of_find?_eq_some hheld)
    rw [hheld, hdistinct held hmem key hkey (KeyTable.keyId_of_get hheld)] at hsame
    exact absurd rfl hsame

/-- What a signer signs of a checkpoint verifies under its key, and states the same. -/
theorem Checkpoint.verifyWith_of_sign {signer : LogSigner} (hvalid : signer.signer.Valid)
    {c d : Checkpoint} {version : ℕ} (h : c.sign signer.signer version = .ok d) :
    d.verifyWith (.key signer.key) = .ok ⟨⟩ ∧ d.logId = c.logId ∧ d.treeSize = c.treeSize ∧
      d.rootHash = c.rootHash := by
  obtain ⟨message, hmessage, h⟩ := bind_eq_ok.mp h
  obtain rfl := Except.ok.inj h
  exact ⟨checkSignatureOf_sign hvalid _ hmessage, rfl, rfl, rfl⟩

namespace ReceiptLog

/-! ### The tree of the leaves -/

/-- The tree with the hashes of some leaves more. -/
theorem leaves_grown (tree : MerkleTree) (leaves : List Leaf) :
    (grown tree leaves).leaves = tree.leaves ++ leaves.map Leaf.hash := by
  induction leaves generalizing tree with
  | nil => simp [grown]
  | cons leaf leaves ih =>
    have hlen : leaf.hash.length = 32 := length_sha256 _
    have happend : (((tree.append leaf.hash).map Prod.snd).toOption.getD tree).leaves =
        tree.leaves ++ [leaf.hash] := by
      rw [MerkleTree.append, dif_pos hlen]
      rfl
    rw [grown, List.foldl_cons, ← grown, ih, happend, List.map_cons, List.append_assoc,
      List.singleton_append]

/-- Whether the tree is the one of the leaves. -/
def Rooted (log : ReceiptLog) : Prop := log.tree.leaves = log.leaves.map Leaf.hash

theorem rooted_drain {log : ReceiptLog} (h : log.Queued) (hr : log.Rooted) (write : Extended) :
    (log.drain write).Rooted := by
  have hback : ∀ (l : ReceiptLog) refused, l.Indexed → l.Rooted →
      (l.takeBackRefused refused).Rooted := by
    intro l refused hindexed hl
    cases refused with
    | none => exact hl
    | some p =>
      rw [takeBackRefused, takeBack_eq hindexed]
      exact hl
  rw [drain]
  generalize log.ready log.signed.items.length [] = result
  obtain ⟨batch, refused⟩ := result
  cases batch with
  | nil => exact hback _ _ h.indexed hr
  | cons first others =>
    cases write with
    | failed =>
      simp only [foldl_settleFailed]
      rw [takeBack_eq (h.indexed.retireAll _)]
      exact hr
    | written =>
      simp only [foldl_settleIssued]
      refine hback _ _ (Indexed.retireAll h.indexed _) ?_
      change (grown log.tree _).leaves = (log.leaves ++ _).map Leaf.hash
      rw [leaves_grown, List.map_append, hr]
    | unindexed =>
      simp only [foldl_settleIssued]
      exact hback _ _ (Indexed.retireAll h.indexed _) hr

/-- The root of the first leaves of a log. -/
def rootAt (log : ReceiptLog) (size : ℕ) : List Byte :=
  mth nodeHash emptyRoot ((log.leaves.take size).map Leaf.hash)

theorem Rooted.root {log : ReceiptLog} (hr : log.Rooted) {size : ℕ}
    (hsize : size ≤ log.leaves.length) {root : List Byte} {tree : MerkleTree}
    (h : log.tree.root (some (size : ℤ)) = .ok (root, tree)) :
    root = log.rootAt size ∧ tree.leaves = log.tree.leaves := by
  have hle : size ≤ log.tree.leaves.length := by rw [hr, List.length_map]; exact hsize
  obtain ⟨tree', hleaves, hroot⟩ := MerkleTree.root_spec hle
  rw [h] at hroot
  obtain ⟨rfl, rfl⟩ := Prod.mk.inj (Except.ok.inj hroot)
  rw [rootAt, List.map_take, ← hr]
  exact ⟨rfl, hleaves⟩

/-- The root of the first leaves is that of the log as it was. -/
theorem rootAt_of_prefix {log log' : ReceiptLog} (h : log.leaves <+: log'.leaves) {size : ℕ}
    (hsize : size ≤ log.leaves.length) : log'.rootAt size = log.rootAt size := by
  obtain ⟨more, hmore⟩ := h
  rw [rootAt, rootAt, ← hmore, List.take_append_of_le_length hsize]

/-! ### The invariant -/

/-- Whether a checkpoint is signed by the key in force at its size, and is of the log as it was
then. -/
structure Vouches (log : ReceiptLog) (first : LogKey) (c : Checkpoint) : Prop where
  logId : c.logId = log.logId
  nonneg : 0 ≤ c.treeSize
  le : c.treeSize ≤ log.leaves.length
  root : c.rootHash = toHex (log.rootAt c.treeSize.toNat)
  signed : c.verifyWith (.key (checkpointKey first log.schedule c.treeSize)) = .ok ⟨⟩

/-- What holds of the keys of a log. -/
structure Keyed (signers : List LogSigner) (keys : List LogKey) (first : LogKey)
    (log : ReceiptLog) : Prop where
  rooted : log.Rooted
  signer : log.signer ∈ signers
  ring : ∀ k ∈ log.keyring.keys, k ∈ keys
  holds : log.keyring.get first.keyId = some first
  /-- Before any transition the first key is in force. -/
  unscheduled : log.schedule = none → log.transitions = [] ∧ log.signer.key = first
  /-- Afterwards the last one is, from where it took the log over. -/
  scheduled : ∀ s, log.schedule = some s →
    KeySchedule.build log.logId log.keyring log.transitions = .ok s ∧ s.first = first ∧
      s.current = log.signer.key ∧ s.boundary ≤ log.leaves.length
  /-- Receipts are being signed by the signer of the log. -/
  issuing : ∀ i r, log.held.get? i = some r → ∀ (c : Caller) d signer,
    log.callers[r.ticket]? = some c → c.work = .issuing d signer → signer = log.signer
  /-- Receipts were signed by the key in force for their position. -/
  issued : ∀ (t : ℕ) (c : Caller) leaf d signer, log.callers[t]? = some c →
    c.work = .issuing d signer → log.settled.get? t = some (.issued leaf) →
    leaf.document.verify (leafKey first log.schedule c.reservation.index).verifier = .ok ⟨⟩
  checkpoints : ∀ c ∈ log.checkpoints, log.Vouches first c
  latest : ∀ c, log.latest = some c → c ∈ log.checkpoints

/-- The signer a rotation hands a log to. -/
def incoming? : Publisher → Option LogSigner
  | .idle | .publishing _ => none
  | .draining s | .measuring s | .sealing s _ _ | .recording s _ _ _ | .handing s _ _ => some s

/-- The checkpoint a publisher writes. -/
def pending? : Publisher → Option Checkpoint
  | .publishing c | .recording _ _ _ c => some c
  | _ => none

/-- The outgoing signer and the size that a rotation has taken. -/
def measured? : Publisher → Option (LogSigner × ℕ)
  | .sealing _ o n | .recording _ o n _ | .handing _ o n => some (o, n)
  | _ => none

/-- Whether a rotation has waited for the positions that were held. -/
def quiesced : Publisher → Bool
  | .measuring _ | .sealing _ _ _ | .recording _ _ _ _ | .handing _ _ _ => true
  | _ => false

/-- What holds of a log and its publisher. -/
structure Staged (signers : List LogSigner) (first : LogKey) (log : ReceiptLog) : Prop where
  rotating : log.rotating = (incoming? log.publisher).isSome
  incoming : ∀ s, incoming? log.publisher = some s → s ∈ signers
  pending : ∀ c, pending? log.publisher = some c → log.Vouches first c
  measured : ∀ p, measured? log.publisher = some p → p = (log.signer, log.leaves.length)
  /-- Behind the wait of a rotation, nothing is held. -/
  quiet : quiesced log.publisher = true → ∀ i, log.held.get? i = none

/-! ### The key in force -/

section Keyed

variable {signers : List LogSigner} {keys : List LogKey} {first : LogKey} {log log' : ReceiptLog}

theorem Keyed.leafKey_of_le (h : Keyed signers keys first log) {i : ℕ}
    (hi : log.leaves.length ≤ i) : leafKey first log.schedule i = log.signer.key := by
  cases hs : log.schedule with
  | none => exact (h.unscheduled hs).2.symm
  | some s =>
    obtain ⟨-, -, hcurrent, hle⟩ := h.scheduled s hs
    exact (KeySchedule.forLeaf_of_le (hle.trans hi)).trans hcurrent

theorem Keyed.checkpointKey_of_lt (h : Keyed signers keys first log) {n : ℕ}
    (hlt : ∀ s, log.schedule = some s → s.boundary < n) :
    checkpointKey first log.schedule n = log.signer.key := by
  cases hs : log.schedule with
  | none => exact (h.unscheduled hs).2.symm
  | some s =>
    obtain ⟨-, -, hcurrent, -⟩ := h.scheduled s hs
    exact (KeySchedule.forCheckpoint_of_lt (Int.ofNat_lt.mpr (hlt s hs))).trans hcurrent

/-- A log that only grows vouches for the checkpoints it did. -/
theorem Vouches.mono {c : Checkpoint} (hv : log.Vouches first c) (hid : log'.logId = log.logId)
    (hleaves : log.leaves <+: log'.leaves) (hschedule : log'.schedule = log.schedule) :
    log'.Vouches first c where
  logId := hv.logId.trans hid.symm
  nonneg := hv.nonneg
  le := hv.le.trans (Int.ofNat_le.mpr hleaves.length_le)
  root := by
    have hn := hv.nonneg
    have hle := hv.le
    rw [hv.root, rootAt_of_prefix hleaves (by omega)]
  signed := hschedule ▸ hv.signed

/-- What a caller's signer has signed verifies under its key. -/
theorem verify_returned {c : Caller} {d : LogDocument} {signer : LogSigner} {leaf : Leaf}
    (hvalid : signer.signer.Valid) (hwork : c.work = .issuing d signer)
    (h : log.returned c true = some leaf) :
    leaf.document.verify signer.key.verifier = .ok ⟨⟩ := by
  rw [returned, hwork] at h
  obtain ⟨d', hsign, hleaf⟩ := bind_eq_ok.mp (toOption_eq_some.mp ((if_pos rfl).symm.trans h))
  rw [Leaf.of_eq_ok hleaf]
  exact verify_of_sign hvalid hsign

/-- What is appended was signed by the key in force. -/
theorem Keyed.advances (h : Keyed signers keys first log) (hcustody : Custody signers keys)
    (hq : log.Queued) {batch : List (Reservation × Leaf)} (ha : log.Advances log' batch)
    (hrooted : log'.Rooted) (hbroken : log'.broken = false) : Keyed signers keys first log' := by
  obtain ⟨hunbroken, hleaves⟩ := ha.leaves hbroken
  have hsigner : log'.signer = log.signer := by rw [ha.frame]
  have hring : log'.keyring = log.keyring := by rw [ha.frame]
  have hschedule : log'.schedule = log.schedule := by rw [ha.frame]
  have htransitions : log'.transitions = log.transitions := by rw [ha.frame]
  have hcheckpoints : log'.checkpoints = log.checkpoints := by rw [ha.frame]
  have hlatest : log'.latest = log.latest := by rw [ha.frame]
  have hprefix : log.leaves <+: log'.leaves := ⟨_, hleaves.symm⟩
  refine ⟨hrooted, hsigner ▸ h.signer, hring ▸ h.ring, hring ▸ h.holds, ?_, ?_, ?_, ?_, ?_, ?_⟩
  · rw [hschedule, htransitions, hsigner]
    exact h.unscheduled
  · intro s hs
    rw [hschedule] at hs
    rw [ha.logId_eq, hring, htransitions, hsigner]
    obtain ⟨hbuild, hfirst, hcurrent, hle⟩ := h.scheduled s hs
    exact ⟨hbuild, hfirst, hcurrent, hle.trans hprefix.length_le⟩
  · intro i r hr c d signer hc hwork
    rw [hsigner]
    rw [ha.callers_eq] at hc
    exact h.issuing i r (ha.held_iff.mp hr).1 c d signer hc hwork
  · intro t c leaf d signer hc hwork hs
    rw [ha.callers_eq] at hc
    rw [hschedule]
    rcases ha.fate hq hc with ⟨-, -, heq⟩ | ⟨-, -, hnone⟩ | ⟨j, p, hp, hsame, hissued⟩ |
      ⟨-, s, hs', hnot⟩
    · exact h.issued t c leaf d signer hc hwork (heq ▸ hs)
    · rw [hnone] at hs
      cases hs
    · obtain ⟨hr, hindex, -⟩ := ha.entry hq hp
      obtain ⟨c', hc', hreturned⟩ := hq.returned _ p (ha.turn j p hp)
      rw [hsame] at hr hindex hc'
      rw [hq.ticket t c hc, hc] at hc'
      obtain rfl := Option.some.inj hc'
      rw [hissued] at hs
      obtain rfl := Settlement.issued.inj (Option.some.inj hs)
      have hheld : log.callers[c.reservation.ticket]? = some c := by rw [hq.ticket t c hc, hc]
      obtain rfl := h.issuing _ _ hr c d signer hheld hwork
      have hle : log.leaves.length ≤ c.reservation.index := by
        rw [hindex, hq.file_eq hunbroken]
        exact Nat.le_add_right _ _
      rw [h.leafKey_of_le hle]
      exact verify_returned (hcustody.valid _ h.signer) hwork hreturned
    · rw [hs'] at hs
      exact absurd (Option.some.inj hs) (hnot leaf)
  · intro c hc
    rw [hcheckpoints] at hc
    exact (h.checkpoints c hc).mono ha.logId_eq hprefix hschedule
  · intro c hc
    rw [hlatest] at hc
    rw [hcheckpoints]
    exact h.latest c hc

theorem Keyed.put (h : Keyed signers keys first log) (r : Reservation) (leaf : Leaf) :
    Keyed signers keys first (log.put r leaf) :=
  ⟨h.rooted, h.signer, h.ring, h.holds, h.unscheduled, h.scheduled, h.issuing, h.issued,
    fun c hc => (h.checkpoints c hc).mono rfl (List.prefix_refl _) rfl, h.latest⟩

theorem Keyed.unwork (h : Keyed signers keys first log) (ticket : ℕ) :
    Keyed signers keys first (log.unwork ticket) :=
  ⟨h.rooted, h.signer, h.ring, h.holds, h.unscheduled, h.scheduled, h.issuing, h.issued,
    fun c hc => (h.checkpoints c hc).mono rfl (List.prefix_refl _) rfl, h.latest⟩

/-- A position that is handed out is signed for by the signer of the log. -/
theorem Keyed.hold (h : Keyed signers keys first log) (hq : log.Queued) {id : Text} {work : Work}
    (hwork : ∀ d signer, work = .issuing d signer → signer = log.signer) :
    Keyed signers keys first (log.hold id work) := by
  refine ⟨h.rooted, h.signer, h.ring, h.holds, h.unscheduled, h.scheduled, ?_, ?_,
    fun c hc => (h.checkpoints c hc).mono rfl (List.prefix_refl _) rfl, h.latest⟩
  · intro i r hr c d signer hc hcwork
    rcases getElem?_callers_hold hc with hc | ⟨-, rfl⟩
    · rcases (get?_held_hold hq).mp hr with hr | ⟨-, rfl⟩
      · exact h.issuing i r hr c d signer hc hcwork
      · exact absurd (List.getElem?_eq_some_iff.mp hc).1 (lt_irrefl _)
    · exact hwork d signer hcwork
  · intro t c leaf d signer hc hcwork hs
    rcases getElem?_callers_hold hc with hc | ⟨rfl, -⟩
    · exact h.issued t c leaf d signer hc hcwork hs
    · obtain ⟨c', hc'⟩ := hq.known _ _ hs
      exact absurd (List.getElem?_eq_some_iff.mp hc').1 (lt_irrefl _)

/-- The publisher's own state, and a tree of the same leaves, are not about keys. -/
theorem Keyed.staged (h : Keyed signers keys first log) {tree : MerkleTree}
    (htree : tree.leaves = log.tree.leaves) (rotating closed : Bool) (publisher : Publisher) :
    Keyed signers keys first { log with
      tree := tree, rotating := rotating, closed := closed, publisher := publisher } :=
  ⟨htree.trans h.rooted, h.signer, h.ring, h.holds, h.unscheduled, h.scheduled, h.issuing,
    h.issued, fun c hc => (h.checkpoints c hc).mono rfl (List.prefix_refl _) rfl, h.latest⟩

/-- A checkpoint of the log as it stands, signed by its signer. -/
theorem Keyed.vouches (h : Keyed signers keys first log) (hcustody : Custody signers keys)
    {now : Instant} {available : Bool} {c : Checkpoint}
    (htake : log.takeCheckpoint now available = .ok (some c, log')) :
    log.Vouches first c ∧ ∃ tree, tree.leaves = log.tree.leaves ∧
      log' = { log with tree := tree } := by
  rcases takeCheckpoint_cases htake with ⟨hnone, -⟩ | ⟨d, root, tree, hd, rfl, hlt, hroot, hsign⟩
  · cases hnone
  · obtain rfl := Option.some.inj hd
    obtain ⟨rfl, htree⟩ := h.rooted.root le_rfl hroot
    obtain ⟨hverify, hid, hsize, hhash⟩ :=
      Checkpoint.verifyWith_of_sign (hcustody.valid _ h.signer) hsign
    refine ⟨⟨hid, ?_, ?_, ?_, ?_⟩, tree, htree, rfl⟩
    · rw [hsize]
      exact Int.natCast_nonneg _
    · rw [hsize]
    · rw [hhash, hsize]
      rfl
    · rw [hsize, h.checkpointKey_of_lt hlt]
      exact hverify

theorem Keyed.record (h : Keyed signers keys first log) {c : Checkpoint}
    (hc : log.Vouches first c) : Keyed signers keys first (log.record c) := by
  refine ⟨h.rooted, h.signer, h.ring, h.holds, h.unscheduled, h.scheduled, h.issuing, h.issued,
    fun d hd => ?_, fun d hd => ?_⟩
  · rcases List.mem_append.mp hd with hd | hd
    · exact (h.checkpoints d hd).mono rfl (List.prefix_refl _) rfl
    · rw [List.mem_singleton.mp hd]
      exact hc.mono rfl (List.prefix_refl _) rfl
  · obtain rfl := Option.some.inj hd
    exact List.mem_append_right _ (List.mem_singleton_self _)

/-! ### Handing a log over -/

/-- The schedule of a log, which has no era before any transition. -/
def eras (log : ReceiptLog) (first : LogKey) : KeySchedule :=
  log.schedule.getD ⟨log.logId, [], first, []⟩

theorem leafKey_eras (first : LogKey) (index : ℕ) :
    (log.eras first).forLeaf index = leafKey first log.schedule index := by
  unfold eras leafKey
  cases log.schedule <;> rfl

theorem checkpointKey_eras (first : LogKey) (treeSize : ℤ) :
    (log.eras first).forCheckpoint treeSize = checkpointKey first log.schedule treeSize := by
  unfold eras checkpointKey
  cases log.schedule <;> rfl

/-- The transitions with one more that the signer of the log has signed are a schedule with one
more era. -/
theorem Keyed.build (h : Keyed signers keys first log) {table : KeyTable} {incoming : LogSigner}
    {t : KeyTransition} {now : Instant} (hvalid : log.signer.signer.Valid)
    (htable : log.keyring.add incoming.key = .ok table)
    (ht : log.transition incoming log.signer log.leaves.length now = .ok t) :
    KeySchedule.build log.logId table (log.transitions ++ [t]) =
      .ok ((log.eras first).extend t (log.leaves.length, incoming.key)) := by
  obtain ⟨t₀, hof, hsign⟩ := bind_eq_ok.mp ht
  obtain ⟨hid, hsize, hkeyId, hraw⟩ := KeyTransition.spec_of hof
  obtain ⟨hverify, hid', hsize', hkeyId', hraw', hsig⟩ := KeyTransition.verify_of_sign hvalid hsign
  obtain ⟨hheld, hmono⟩ := KeyTable.get_of_add htable
  have hincoming := KeyTransition.incoming_eq (hkeyId'.trans hkeyId) (hraw'.trans hraw) hheld
  have hera : ∀ number size, size ≤ log.leaves.length → KeySchedule.handOver log.logId table number
      size log.signer.key t = .ok (log.leaves.length, incoming.key) := fun number size hle =>
    KeySchedule.handOver_eq_ok.mpr ⟨hid'.trans hid, by rw [hsize', hsize]; exact hle, hverify,
      hincoming, hsize'.trans hsize⟩
  cases hs : log.schedule with
  | none =>
    obtain ⟨hnil, hfirst⟩ := h.unscheduled hs
    obtain ⟨sig, hsome, hsigId⟩ := Option.map_eq_some_iff.mp hsig
    have hget : table.get sig.keyId = some first := by
      rw [hsigId, hfirst]
      exact hmono _ _ h.holds
    rw [eras, hs, hnil]
    exact KeySchedule.build_singleton hsome hget (hfirst ▸ hera 1 0 (Nat.zero_le _))
  | some s =>
    obtain ⟨hbuild, -, hcurrent, hle⟩ := h.scheduled s hs
    obtain ⟨hlog, hts, -⟩ := KeySchedule.spec_of_build hbuild
    have hconcat := KeySchedule.build_concat (KeySchedule.build_mono hbuild hmono)
      (hcurrent ▸ hera (log.transitions.length + 1) s.boundary hle)
    rw [hconcat, eras, hs, Option.getD_some, KeySchedule.extend, hlog, hts]

/-- Handing a log over changes the key in force for no receipt and no checkpoint it has. -/
theorem Keyed.handOver (h : Keyed signers keys first log) (hcustody : Custody signers keys)
    (hq : log.Queued) (hbroken : log.broken = false) {incoming : LogSigner}
    (hin : incoming ∈ signers) (hquiet : ∀ i, log.held.get? i = none) {t : KeyTransition}
    {now : Instant} (ht : log.transition incoming log.signer log.leaves.length now = .ok t) :
    Keyed signers keys first (log.handOver incoming t) := by
  obtain ⟨table, htable, hring⟩ := exists_add hcustody.distinct h.ring (hcustody.mem _ hin)
  have hbuild := h.build (hcustody.valid _ h.signer) htable ht
  have heq : log.handOver incoming t = { log with
      transitions := log.transitions ++ [t], keyring := table, signer := incoming
      schedule := some ((log.eras first).extend t (log.leaves.length, incoming.key)) } := by
    simp only [ReceiptLog.handOver, htable, hbuild]
  rw [heq]
  have hfirst : (log.eras first).first = first := by
    unfold eras
    cases hs : log.schedule with
    | none => rfl
    | some s => exact (h.scheduled s hs).2.1
  have hleaf : ∀ i, i < log.leaves.length →
      leafKey first (some ((log.eras first).extend t (log.leaves.length, incoming.key))) i =
        leafKey first log.schedule i := by
    intro i hi
    rw [← leafKey_eras, leafKey, Option.map_some, Option.getD_some, KeySchedule.forLeaf_extend,
      if_neg (by simpa using hi)]
  refine ⟨h.rooted, hin, hring, (KeyTable.get_of_add htable).2 _ _ h.holds,
    ?_, ?_, ?_, ?_, ?_, h.latest⟩
  · intro hnone
    cases hnone
  · intro s hs
    obtain rfl := Option.some.inj hs
    exact ⟨hbuild, hfirst, KeySchedule.lastKey_concat _ _ _,
      (KeySchedule.lastSize_concat _ _ _).le⟩
  · intro i r hr
    exact absurd ((hquiet i).symm.trans hr) (Option.some_ne_none r).symm
  · intro t' c leaf d signer hc hwork hs
    obtain ⟨c', hc', hfile⟩ := hq.issued t' leaf hs
    obtain rfl := Option.some.inj (hc.symm.trans hc')
    rw [hq.file_eq hbroken] at hfile
    rw [hleaf _ (List.getElem?_eq_some_iff.mp hfile).1]
    exact h.issued t' c leaf d signer hc hwork hs
  · intro c hc
    obtain ⟨hid, hnonneg, hle, hroot, hsigned⟩ := h.checkpoints c hc
    refine ⟨hid, hnonneg, hle, hroot, ?_⟩
    rw [checkpointKey, Option.map_some, Option.getD_some, KeySchedule.forCheckpoint_extend,
      if_neg (by simpa using hle), checkpointKey_eras]
    exact hsigned

/-! ### The publisher -/

theorem Staged.not_quiet (h : Staged signers first log) (hrotating : log.rotating = false) :
    quiesced log.publisher = false := by
  have hnone := h.rotating.symm.trans hrotating
  cases hp : log.publisher <;> rw [hp] at hnone <;> first | rfl | cases hnone

/-- A rotation has measured nothing where something is held. -/
theorem Staged.measured_none (h : Staged signers first log) {i : ℕ} {r : Reservation}
    (hr : log.held.get? i = some r) : measured? log.publisher = none ∧
      quiesced log.publisher = false := by
  have hquiet : quiesced log.publisher = false := by
    by_contra hne
    have hnone := h.quiet (Bool.eq_true_of_not_eq_false hne) i
    rw [hnone] at hr
    cases hr
  refine ⟨?_, hquiet⟩
  cases hp : log.publisher <;> rw [hp] at hquiet <;> first | rfl | cases hquiet

/-- Where a rotation has measured nothing, the log may grow. -/
theorem Staged.grows (h : Staged signers first log) (hnone : measured? log.publisher = none)
    (hquiet : quiesced log.publisher = false) (hrotating : log'.rotating = log.rotating)
    (hpublisher : log'.publisher = log.publisher) (hid : log'.logId = log.logId)
    (hleaves : log.leaves <+: log'.leaves) (hschedule : log'.schedule = log.schedule) :
    Staged signers first log' where
  rotating := by rw [hrotating, hpublisher, h.rotating]
  incoming := hpublisher ▸ h.incoming
  pending c hc := (h.pending c (hpublisher ▸ hc)).mono hid hleaves hschedule
  measured p hp := by
    rw [hpublisher, hnone] at hp
    cases hp
  quiet hq := by
    rw [hpublisher, hquiet] at hq
    cases hq

/-- A section of the sequencer, while somebody holds a position. -/
theorem Staged.advances (h : Staged signers first log) {i : ℕ} {r : Reservation}
    (hr : log.held.get? i = some r) {batch : List (Reservation × Leaf)}
    (ha : log.Advances log' batch) (hbroken : log'.broken = false) :
    Staged signers first log' := by
  obtain ⟨hnone, hquiet⟩ := h.measured_none hr
  refine h.grows hnone hquiet ?_ ?_ ha.logId_eq ⟨_, (ha.leaves hbroken).2.symm⟩ ?_
  all_goals rw [ha.frame]

theorem Staged.unwork (h : Staged signers first log) (ticket : ℕ) :
    Staged signers first (log.unwork ticket) :=
  ⟨h.rotating, h.incoming, fun c hc => (h.pending c hc).mono rfl (List.prefix_refl _) rfl,
    h.measured, h.quiet⟩

theorem Staged.put (h : Staged signers first log) (r : Reservation) (leaf : Leaf) :
    Staged signers first (log.put r leaf) :=
  ⟨h.rotating, h.incoming, fun c hc => (h.pending c hc).mono rfl (List.prefix_refl _) rfl,
    h.measured, h.quiet⟩

/-- The lock of publications is free. -/
theorem staged_leave (signers : List LogSigner) (first : LogKey) (log : ReceiptLog) :
    Staged signers first log.leave :=
  ⟨rfl, (fun _ h => by cases h), (fun _ h => by cases h), (fun _ h => by cases h),
    (fun h => by cases h)⟩

/-! ### Steps -/

/-- Whether an event appends nothing during a rotation. -/
def steady (log : ReceiptLog) : Event → Bool
  | .append _ => !log.rotating
  | _ => true

/-- Whether a run appends nothing during a rotation. -/
def Steady : ReceiptLog → List Event → Bool
  | _, [] => true
  | log, e :: es => steady log e && Steady (log.step e) es

theorem Keyed.leave (h : Keyed signers keys first log) : Keyed signers keys first log.leave :=
  h.staged rfl false log.closed .idle

theorem keyed_hold (h : Keyed signers keys first log) (hst : Staged signers first log)
    (hq : log.Queued) (hrotating : log.rotating = false) {id : Text} {work : Work}
    (hwork : ∀ d signer, work = .issuing d signer → signer = log.signer) :
    Keyed signers keys first (log.hold id work) ∧ Staged signers first (log.hold id work) := by
  have hquiet := hst.not_quiet hrotating
  have hnone : measured? log.publisher = none := by
    cases hp : log.publisher <;> rw [hp] at hquiet <;> first | rfl | cases hquiet
  exact ⟨h.hold hq hwork, hst.grows hnone hquiet rfl rfl rfl (List.prefix_refl _) rfl⟩

theorem keyed_finish (hcustody : Custody signers keys) (hs : log.Sequenced)
    (h : Keyed signers keys first log) (hst : Staged signers first log) (ticket : ℕ)
    (available : Bool) (write : Extended)
    (hbroken : (log.finish ticket available write).broken = false) :
    Keyed signers keys first (log.finish ticket available write) ∧
      Staged signers first (log.finish ticket available write) := by
  rcases finish_cases hs ticket available write with ⟨heq, -⟩ | ⟨c, hc, -, ⟨-, heq⟩ |
    ⟨hsettled, -, heq⟩ | ⟨hsettled, leaf, hreturned, heq⟩⟩
  · rw [heq]
    exact ⟨h, hst⟩
  · rw [heq]
    exact ⟨h.unwork ticket, hst.unwork ticket⟩
  · rw [heq] at hbroken ⊢
    have hr := (hs.settled ticket c hc).mp hsettled
    have ha := advances_takeBack hs.toQueued hr none
    have hrooted : (log.takeBack c.reservation none).Rooted := by
      rw [takeBack_eq hs.indexed]
      exact h.rooted
    exact ⟨(h.advances hcustody hs.toQueued ha hrooted hbroken).unwork ticket,
      (hst.advances hr ha hbroken).unwork ticket⟩
  · have hr := (hs.settled ticket c hc).mp hsettled
    have hput := hs.queued_put hc hsettled hreturned
    obtain ⟨batch, hd⟩ := drained_drain hput write
    rw [heq] at hbroken ⊢
    have hput' := h.put c.reservation leaf
    exact ⟨hput'.advances hcustody hput hd.advances (rooted_drain hput hput'.rooted write) hbroken,
      (hst.put c.reservation leaf).advances hr hd.advances hbroken⟩

theorem keyed_checkpoint (hcustody : Custody signers keys) (h : Keyed signers keys first log)
    (hst : Staged signers first log) (now : Instant) (available : Bool) :
    Keyed signers keys first (log.checkpoint now available) ∧
      Staged signers first (log.checkpoint now available) := by
  unfold checkpoint
  cases hp : log.publisher with
  | idle =>
    simp only
    split
    · rename_i c log' htake
      obtain ⟨hv, tree, htree, rfl⟩ := h.vouches hcustody htake
      have hrotating : log.rotating = false := by rw [hst.rotating, hp]; rfl
      refine ⟨h.staged htree log.rotating log.closed (.publishing c), hrotating,
        (fun _ h => by cases h), fun d hd => ?_, (fun _ h => by cases h), (fun h => by cases h)⟩
      obtain rfl := Option.some.inj hd
      exact hv.mono rfl (List.prefix_refl _) rfl
    · exact ⟨h, hst⟩
  | _ => exact ⟨h, hst⟩

theorem keyed_rotate (h : Keyed signers keys first log) (hst : Staged signers first log)
    {incoming : LogSigner} (hin : incoming ∈ signers) :
    Keyed signers keys first (log.rotate incoming) ∧
      Staged signers first (log.rotate incoming) := by
  unfold rotate
  cases hp : log.publisher with
  | idle =>
    simp only
    split
    · exact ⟨h, hst⟩
    · split_ifs
      · exact ⟨h, hst⟩
      · refine ⟨h.staged rfl true log.closed (.draining incoming), rfl, fun s hs => ?_,
          (fun _ h => by cases h), (fun _ h => by cases h), (fun h => by cases h)⟩
        obtain rfl := Option.some.inj hs
        exact hin
  | _ => exact ⟨h, hst⟩

theorem keyed_measure (h : Keyed signers keys first log) (hst : Staged signers first log) :
    Keyed signers keys first log.measure ∧ Staged signers first log.measure := by
  have hrotating := hst.rotating
  have hincoming := hst.incoming
  have hquiet := hst.quiet
  unfold measure
  cases hp : log.publisher with
  | draining incoming =>
    rw [hp] at hrotating hincoming
    simp only
    split_ifs with hnone
    · refine ⟨h.staged rfl log.rotating log.closed (.measuring incoming), hrotating, hincoming,
        (fun _ h => by cases h), (fun _ h => by cases h), fun _ i => ?_⟩
      change Dict.assoc log.held.items i = none
      rw [hnone]
      rfl
    · exact ⟨h, hst⟩
  | measuring incoming =>
    rw [hp] at hrotating hincoming hquiet
    simp only
    split_ifs
    · refine ⟨h.staged rfl log.rotating log.closed (.handing incoming log.signer _), hrotating,
        hincoming, (fun _ h => by cases h), fun p hp => ?_, fun _ => hquiet rfl⟩
      exact (Option.some.inj hp).symm
    · refine ⟨h.staged rfl log.rotating log.closed (.sealing incoming log.signer _), hrotating,
        hincoming, (fun _ h => by cases h), fun p hp => ?_, fun _ => hquiet rfl⟩
      exact (Option.some.inj hp).symm
  | _ => exact ⟨h, hst⟩

theorem keyed_vouch (hcustody : Custody signers keys) (h : Keyed signers keys first log)
    (hst : Staged signers first log) (now : Instant) (available : Bool) :
    Keyed signers keys first (log.vouch now available) ∧
      Staged signers first (log.vouch now available) := by
  have hrotating := hst.rotating
  have hincoming := hst.incoming
  have hmeasured := hst.measured
  have hquiet := hst.quiet
  unfold vouch
  cases hp : log.publisher with
  | «sealing» incoming outgoing size =>
    rw [hp] at hrotating hincoming hmeasured hquiet
    simp only
    split
    · rename_i c log' htake
      obtain ⟨hv, tree, htree, rfl⟩ := h.vouches hcustody htake
      refine ⟨h.staged htree log.rotating log.closed (.recording incoming outgoing size c),
        hrotating, hincoming, fun d hd => ?_, hmeasured, fun _ => hquiet rfl⟩
      obtain rfl := Option.some.inj hd
      exact hv.mono rfl (List.prefix_refl _) rfl
    · rename_i log' htake
      rcases takeCheckpoint_cases htake with ⟨-, rfl, -⟩ | ⟨d, root, tree, hd, -⟩
      · exact ⟨h.staged rfl log'.rotating log'.closed (.handing incoming outgoing size),
          hrotating, hincoming, (fun _ h => by cases h), hmeasured, fun _ => hquiet rfl⟩
      · cases hd
    · exact ⟨h.leave, staged_leave _ _ _⟩
  | _ => exact ⟨h, hst⟩

theorem keyed_recorded (h : Keyed signers keys first log) (hst : Staged signers first log)
    (written : Bool) : Keyed signers keys first (log.recorded written) ∧
      Staged signers first (log.recorded written) := by
  have hrotating := hst.rotating
  have hincoming := hst.incoming
  have hmeasured := hst.measured
  have hquiet := hst.quiet
  have hpending := hst.pending
  unfold recorded
  cases hp : log.publisher with
  | publishing c =>
    rw [hp] at hpending
    simp only
    split_ifs
    · exact ⟨(h.record (hpending c rfl)).leave, staged_leave _ _ _⟩
    · exact ⟨h.leave, staged_leave _ _ _⟩
  | recording incoming outgoing size c =>
    rw [hp] at hrotating hincoming hmeasured hquiet hpending
    simp only
    split_ifs
    · exact ⟨(h.record (hpending c rfl)).staged rfl log.rotating log.closed
        (.handing incoming outgoing size), hrotating, hincoming, (fun _ h => by cases h), hmeasured,
        fun _ => hquiet rfl⟩
    · exact ⟨h.leave, staged_leave _ _ _⟩
  | _ => exact ⟨h, hst⟩

theorem keyed_hand (hcustody : Custody signers keys) (hs : log.Sequenced)
    (hbroken : log.broken = false) (h : Keyed signers keys first log)
    (hst : Staged signers first log) (now : Instant) (available written : Bool) :
    Keyed signers keys first (log.hand now available written) ∧
      Staged signers first (log.hand now available written) := by
  have hincoming := hst.incoming
  have hmeasured := hst.measured
  have hquiet := hst.quiet
  unfold hand
  cases hp : log.publisher with
  | handing incoming outgoing size =>
    rw [hp] at hincoming hmeasured hquiet
    obtain ⟨rfl, rfl⟩ := Prod.mk.inj (hmeasured _ rfl)
    cases available with
    | false => exact ⟨h.leave, staged_leave _ _ _⟩
    | true =>
      simp only [if_true]
      split
      · exact ⟨h.leave, staged_leave _ _ _⟩
      · rename_i t ht
        cases written with
        | false => exact ⟨h.leave, staged_leave _ _ _⟩
        | true =>
          exact ⟨(h.handOver hcustody hs.toQueued hbroken (hincoming _ rfl) (hquiet rfl) ht).leave,
            staged_leave _ _ _⟩
  | _ => exact ⟨h, hst⟩

theorem Aside.broken (ha : log.Aside log') : log'.broken = log.broken := by
  rw [ha]

/-- An index that has failed stays so. -/
theorem broken_step (hs : log.Sequenced) (e : Event) (h : (log.step e).broken = false) :
    log.broken = false := by
  cases e with
  | reserve draft =>
    rw [step] at h
    split_ifs at h
    · exact h
    · cases hreserve : log.reserve draft with
      | error e =>
        rw [hreserve] at h
        exact h
      | ok log' =>
        obtain ⟨hopen, -⟩ := reserve_eq_ok hreserve
        exact (checkOpen_eq_ok hopen).2
  | append leaf =>
    cases happended : log.append leaf with
    | error e =>
      rw [step, happended] at h
      exact h
    | ok log' =>
      obtain ⟨hopen, -⟩ := append_eq_ok happended
      exact (checkOpen_eq_ok hopen).2
  | finish ticket available write =>
    rw [step] at h
    rcases finish_cases hs ticket available write with ⟨heq, -⟩ | ⟨c, hc, -, ⟨-, heq⟩ |
      ⟨hsettled, -, heq⟩ | ⟨hsettled, leaf, hreturned, heq⟩⟩
    · exact heq ▸ h
    · rw [heq] at h
      exact h
    · rw [heq, takeBack_eq hs.indexed] at h
      exact h
    · obtain ⟨batch, hd⟩ := drained_drain (hs.queued_put hc hsettled hreturned) write
      exact (hd.advances.leaves (heq ▸ h)).1
  | close => exact h
  | checkpoint now available => exact (aside_checkpoint log now available).broken ▸ h
  | rotate incoming => exact (aside_rotate log incoming).broken ▸ h
  | measure => exact (aside_measure log).broken ▸ h
  | vouch now available => exact (aside_vouch log now available).broken ▸ h
  | recorded written => exact (aside_recorded log written).broken ▸ h
  | hand now available written => exact (aside_hand log now available written).broken ▸ h

/-- One step of a run that appends nothing during a rotation. -/
theorem keyed_step (hcustody : Custody signers keys) (hs : log.Sequenced)
    (h : Keyed signers keys first log) (hst : Staged signers first log) {e : Event}
    (hsteady : steady log e = true) (hin : ∀ s, e = .rotate s → s ∈ signers)
    (hbroken : (log.step e).broken = false) :
    Keyed signers keys first (log.step e) ∧ Staged signers first (log.step e) := by
  have hbefore := broken_step hs e hbroken
  cases e with
  | reserve draft =>
    rw [step]
    split_ifs with hrotating
    · exact ⟨h, hst⟩
    · cases hreserve : log.reserve draft with
      | error e => exact ⟨h, hst⟩
      | ok log' =>
        obtain ⟨-, -, unsigned, -, rfl⟩ := reserve_eq_ok hreserve
        refine keyed_hold h hst hs.toQueued (Bool.eq_false_iff.mpr hrotating) fun d signer hw => ?_
        exact (Work.issuing.inj hw).2.symm
  | append leaf =>
    rw [step]
    cases happended : log.append leaf with
    | error e => exact ⟨h, hst⟩
    | ok log' =>
      obtain ⟨-, -, -, rfl⟩ := append_eq_ok happended
      have hrotating : log.rotating = false := by simpa [steady] using hsteady
      refine keyed_hold h hst hs.toQueued hrotating fun d signer hw => ?_
      cases hw
  | finish ticket available write =>
    exact keyed_finish hcustody hs h hst ticket available write hbroken
  | close =>
    exact ⟨h.staged rfl log.rotating true log.publisher, hst.rotating, hst.incoming,
      fun c hc => (hst.pending c hc).mono rfl (List.prefix_refl _) rfl, hst.measured, hst.quiet⟩
  | checkpoint now available => exact keyed_checkpoint hcustody h hst now available
  | rotate incoming => exact keyed_rotate h hst (hin incoming rfl)
  | measure => exact keyed_measure h hst
  | vouch now available => exact keyed_vouch hcustody h hst now available
  | recorded written => exact keyed_recorded h hst written
  | hand now available written =>
    exact keyed_hand hcustody hs hbefore h hst now available written

theorem broken_run (hs : log.Sequenced) (es : List Event) (h : (log.run es).broken = false) :
    log.broken = false := by
  induction es generalizing log with
  | nil => exact h
  | cons e es ih => exact broken_step hs e (ih (sequenced_step hs e).1 h)

/-- The invariant holds after a run that appends nothing during a rotation. -/
theorem keyed_run (hcustody : Custody signers keys) (hs : log.Sequenced)
    (h : Keyed signers keys first log) (hst : Staged signers first log) (es : List Event)
    (hsteady : Steady log es = true) (hin : ∀ s, .rotate s ∈ es → s ∈ signers)
    (hbroken : (log.run es).broken = false) :
    Keyed signers keys first (log.run es) ∧ Staged signers first (log.run es) := by
  induction es generalizing log with
  | nil => exact ⟨h, hst⟩
  | cons e es ih =>
    rw [Steady, Bool.and_eq_true] at hsteady
    have hs' := (sequenced_step hs e).1
    obtain ⟨h', hst'⟩ := keyed_step hcustody hs h hst hsteady.1
      (fun s he => hin s (he ▸ List.mem_cons_self)) (broken_run hs' es hbroken)
    exact ih hs' h' hst' hsteady.2 (fun s hmem => hin s (List.mem_cons_of_mem _ hmem)) hbroken

end Keyed

/-! ### What anybody can check -/

/-- The signers that a run hands its log to. -/
def rotatedTo (es : List Event) : List LogSigner :=
  es.filterMap fun e => match e with
    | .rotate s => some s
    | _ => none

theorem mem_rotatedTo {es : List Event} {s : LogSigner} (h : .rotate s ∈ es) : s ∈ rotatedTo es :=
  List.mem_filterMap.mpr ⟨_, h, rfl⟩

theorem opened_eq_ok {logId : Text} {version : Option ℕ} {signer : LogSigner} {trusted : KeyTable}
    {log : ReceiptLog} (h : opened logId version signer trusted = .ok log) :
    ∃ keyring, trusted.add signer.key = .ok keyring ∧
      log = fresh logId version signer keyring := by
  rw [opened] at h
  obtain ⟨name, hname, h⟩ := bind_eq_ok.mp h
  obtain rfl := Json.str.inj (Fields.checkText_eq_ok.mp hname).1
  simp only at h
  split_ifs at h
  obtain ⟨keyring, hadd, h⟩ := bind_eq_ok.mp h
  exact ⟨keyring, hadd, (Except.ok.inj h).symm⟩

theorem mem_add {table table' : KeyTable} {key : LogKey} (h : table.add key = .ok table') :
    ∀ k ∈ table'.keys, k ∈ key :: table.keys := by
  rw [KeyTable.add] at h
  split_ifs at h
  · obtain rfl := Except.ok.inj h
    intro k hk
    rcases List.mem_append.mp hk with hk | hk
    · exact List.mem_cons_of_mem _ hk
    · rw [List.mem_singleton.mp hk]
      exact List.mem_cons_self
  · obtain rfl := Except.ok.inj h
    exact fun k hk => List.mem_cons_of_mem _ hk

/-- `_outcome`: the receipt that was appended for a reservation. -/
def outcome (log : ReceiptLog) (ticket : ℕ) : Option Leaf :=
  match log.settled.get? ticket with
  | some (.issued leaf) => some leaf
  | _ => none

theorem outcome_eq_some {log : ReceiptLog} {ticket : ℕ} {leaf : Leaf}
    (h : log.outcome ticket = some leaf) : log.settled.get? ticket = some (.issued leaf) := by
  unfold outcome at h
  split at h
  · rename_i hs
    rw [hs, Option.some.inj h]
  · cases h

/-- Whether the log signs for a caller, and does not append what it was given. -/
def signs (caller : Caller) : Bool :=
  match caller.work with
  | .issuing _ _ => true
  | .appending _ => false

theorem work_of_signs {caller : Caller} (h : signs caller = true) :
    ∃ d s, caller.work = .issuing d s := by
  unfold signs at h
  split at h
  · rename_i d s hwork
    exact ⟨d, s, hwork⟩
  · cases h

section Outcome

variable {logId : Text} {version : Option ℕ} {signer : LogSigner} {trusted : KeyTable}
  {log : ReceiptLog} {es : List Event}

/-- The invariant holds after a run of a log that was opened under a key. -/
theorem keyed_of_opened (hopen : opened logId version signer trusted = .ok log)
    (hcustody : Custody (signer :: rotatedTo es)
      (trusted.keys ++ (signer :: rotatedTo es).map LogSigner.key))
    (hsteady : Steady log es = true) (hbroken : (log.run es).broken = false) :
    Keyed (signer :: rotatedTo es) (trusted.keys ++ (signer :: rotatedTo es).map LogSigner.key)
      signer.key (log.run es) := by
  obtain ⟨keyring, hadd, rfl⟩ := opened_eq_ok hopen
  have hkeyed : Keyed (signer :: rotatedTo es)
      (trusted.keys ++ (signer :: rotatedTo es).map LogSigner.key) signer.key
      (fresh logId version signer keyring) := by
    refine ⟨rfl, List.mem_cons_self, fun k hk => ?_, (KeyTable.get_of_add hadd).1,
      fun _ => ⟨rfl, rfl⟩, (fun s hs => by cases hs), (fun i r hr => by cases hr),
      (fun t c leaf d signer hc => by cases hc), (fun c hc => by cases hc),
      (fun c hc => by cases hc)⟩
    rcases List.mem_cons.mp (mem_add hadd k hk) with rfl | hk
    · exact List.mem_append_right _ (List.mem_map_of_mem List.mem_cons_self)
    · exact List.mem_append_left _ hk
  exact (keyed_run hcustody (sequenced_fresh logId version signer keyring) hkeyed
    (staged_leave _ _ (fresh logId version signer keyring)) es hsteady
    (fun s hs => List.mem_cons_of_mem _ (mem_rotatedTo hs)) hbroken).1

theorem logId_of_opened (hopen : opened logId version signer trusted = .ok log) :
    (log.run es).Sequenced ∧ (log.run es).logId = logId := by
  obtain ⟨keyring, -, rfl⟩ := opened_eq_ok hopen
  obtain ⟨hs, hle⟩ := sequenced_run (sequenced_fresh logId version signer keyring) es
  exact ⟨hs, hle.logId⟩

/-- Who trusts the first key of a log, and holds the shared keys it was handed to, follows its
transitions to the schedule of the log. -/
theorem Keyed.follows {signers : List LogSigner} {keys : List LogKey} {first : LogKey}
    (h : Keyed signers keys first log) {offline : KeyTable}
    (hfirst : offline.get first.keyId = some first)
    (htrusts : KeySchedule.Trusts log.keyring offline log.transitions) :
    Follows log.logId offline log.transitions log.schedule := by
  cases hs : log.schedule with
  | none => exact (h.unscheduled hs).1
  | some s =>
    obtain ⟨hbuild, hsfirst, -, -⟩ := h.scheduled s hs
    exact KeySchedule.build_of_trusts hbuild (hsfirst ▸ hfirst) htrusts

/-- A log handed over from key to key, whatever its callers do meanwhile: the transitions lead who
trusts the first key to the key that signs now, every receipt that was issued is signed by the key
in force for its position, and every checkpoint by the key in force for its size, over the leaves
the log had then. -/
theorem followed (hopen : opened logId version signer trusted = .ok log)
    (hcustody : Custody (signer :: rotatedTo es)
      (trusted.keys ++ (signer :: rotatedTo es).map LogSigner.key))
    (hsteady : Steady log es = true) (hbroken : (log.run es).broken = false) :
    (∀ offline : KeyTable, offline.get signer.key.keyId = some signer.key →
      KeySchedule.Trusts (log.run es).keyring offline (log.run es).transitions →
      Follows logId offline (log.run es).transitions (log.run es).schedule) ∧
    (log.run es).keyInForce = (log.run es).signer.key ∧
    (∀ (t : ℕ) (c : Caller) leaf, (log.run es).callers[t]? = some c → signs c = true →
      (log.run es).outcome t = some leaf → leaf.document.verify
        (leafKey signer.key (log.run es).schedule c.reservation.index).verifier = .ok ⟨⟩) ∧
    ∀ c ∈ (log.run es).checkpoints, (log.run es).Vouches signer.key c := by
  have h := keyed_of_opened hopen hcustody hsteady hbroken
  obtain ⟨-, hid⟩ := @logId_of_opened _ _ _ _ _ es hopen
  refine ⟨fun offline hfirst htrusts => hid ▸ h.follows hfirst htrusts, ?_,
    fun t c leaf hc hsigns hout => ?_, h.checkpoints⟩
  · unfold keyInForce
    cases hs : (log.run es).schedule with
    | none => rfl
    | some s => exact (h.scheduled s hs).2.2.1
  · obtain ⟨d, s, hwork⟩ := work_of_signs hsigns
    exact h.issued t c leaf d s hc hwork (outcome_eq_some hout)

/-- A log proves every receipt that a checkpoint of it covers, and the proof leads to the root of
the checkpoint. -/
theorem Keyed.proves {signers : List LogSigner} {keys : List LogKey} {first : LogKey}
    (h : Keyed signers keys first log) (hclosed : log.closed = false) {c : Checkpoint}
    (hc : log.Vouches first c) {i : ℕ} (hi : (i : ℤ) < c.treeSize) :
    ∃ leaf path, log.leaves[i]? = some leaf ∧
      log.prove i c = .ok ⟨leaf.document, some (⟨i, c.treeSize, path⟩, c)⟩ ∧
      verifyInclusion nodeHash leaf.hash i c.treeSize path (log.rootAt c.treeSize.toNat) =
        true := by
  obtain ⟨n, hn⟩ := Int.eq_ofNat_of_zero_le hc.nonneg
  have hle := hc.le
  rw [hn] at hi hle ⊢
  have hin : i < n := Int.ofNat_lt.mp hi
  have hnl : n ≤ log.leaves.length := Int.ofNat_le.mp hle
  have hlt := hin.trans_le hnl
  have hnt : n ≤ log.tree.leaves.length := by rw [h.rooted, List.length_map]; exact hnl
  have hD : log.tree.leaves.take n = (log.leaves.take n).map Leaf.hash := by
    rw [h.rooted, List.map_take]
  have hlen : ((log.leaves.take n).map Leaf.hash).length = n := by
    rw [List.length_map, List.length_take, Nat.min_eq_left hnl]
  obtain ⟨tree, -, hproof⟩ := MerkleTree.inclusionProof_spec hnt hin
  have hpath := @verifyInclusion_path (List Byte) nodeHash emptyRoot _
    ((log.leaves.take n).map Leaf.hash) i (hlen.symm ▸ hin)
  simp only [List.getElem_map, List.getElem_take, hlen] at hpath
  refine ⟨log.leaves[i], path nodeHash emptyRoot ((log.leaves.take n).map Leaf.hash) i,
    List.getElem?_eq_getElem hlt, ?_, hpath⟩
  rw [prove, Int.toNat_natCast, List.getElem?_eq_getElem hlt]
  simp only [hclosed, Bool.false_eq_true, if_false, hn]
  rw [hproof, hD]

/-- Every receipt that a log has issued, and that one of its checkpoints covers, comes in a bundle,
and the bundle passes for everybody who trusts the log's first key and the shared keys it was
handed to, given the transitions. -/
theorem bundles_pass (hopen : opened logId version signer trusted = .ok log)
    (hcustody : Custody (signer :: rotatedTo es)
      (trusted.keys ++ (signer :: rotatedTo es).map LogSigner.key))
    (hsteady : Steady log es = true) (hbroken : (log.run es).broken = false)
    (hclosed : (log.run es).closed = false) {t : ℕ} {caller : Caller} {leaf : Leaf}
    {c : Checkpoint} {offline : KeyTable}
    (hcaller : (log.run es).callers[t]? = some caller) (hsigns : signs caller = true)
    (hout : (log.run es).outcome t = some leaf)
    (hc : c ∈ (log.run es).checkpoints) (hcovers : (caller.reservation.index : ℤ) < c.treeSize)
    (hfirst : offline.get signer.key.keyId = some signer.key)
    (htrusts : KeySchedule.Trusts (log.run es).keyring offline (log.run es).transitions) :
    ∃ bundle, (log.run es).prove caller.reservation.index c = .ok bundle ∧
      bundle.receipt = leaf.document ∧
      ∃ checks, verifyBundle bundle offline none (log.run es).transitions = .ok checks ∧
        ∀ check ∈ checks, check = .pass := by
  have h := keyed_of_opened hopen hcustody hsteady hbroken
  obtain ⟨hs, hid⟩ := @logId_of_opened _ _ _ _ _ es hopen
  obtain ⟨d, s, hwork⟩ := work_of_signs hsigns
  have hissued := outcome_eq_some hout
  have hv := h.checkpoints c hc
  obtain ⟨leaf', path, hleaf, hprove, hpath⟩ := h.proves hclosed hv hcovers
  obtain ⟨hfile, -⟩ := hs.toQueued.issuedOnce.issued t caller leaf hcaller hissued
  rw [hs.file_eq hbroken, hleaf] at hfile
  obtain rfl := Option.some.inj hfile
  refine ⟨_, hprove, rfl, ?_⟩
  obtain ⟨n, hn⟩ := Int.eq_ofNat_of_zero_le hv.nonneg
  have hroot := hv.root
  have hsigned := hv.signed
  rw [hn] at hpath hroot hsigned ⊢
  have hplaced := hs.placed _ leaf' (by rw [hs.file_eq hbroken]; exact hleaf)
  exact verifyBundle_of_spec (h.follows hfirst htrusts) hfirst hplaced.2 hv.logId hn
    leaf'.canonical hroot (h.issued t caller leaf' d s hcaller hwork hissued) hsigned hpath

/-- What is hashed where a line is checked against the first leaves of a log. -/
def hashedFor (log : ReceiptLog) (size : ℕ) (line : List Byte) (proof : InclusionProof) :
    Set (List Byte) :=
  {m | m = 0 :: line ∨ (∃ leaf ∈ log.leaves, m = 0 :: leaf.line) ∨
    m ∈ pairMessages ((log.leaves.take size).map Leaf.hash) ∨
    m ∈ MerkleTree.walkMessages (leafHash line) proof.leafIndex proof.treeSize proof.auditPath}

/-- Whatever passes under a checkpoint of the log, under any keys, is the receipt the log has at
the position the receipt names: no other line is proved there while SHA-256 tells apart what is
hashed for it. -/
theorem included_of_passed (hopen : opened logId version signer trusted = .ok log)
    (hcustody : Custody (signer :: rotatedTo es)
      (trusted.keys ++ (signer :: rotatedTo es).map LogSigner.key))
    (hsteady : Steady log es = true) (hbroken : (log.run es).broken = false)
    {bundle : ReceiptBundle} {keys : Keys} {proof : InclusionProof} {c : Checkpoint}
    {line : List Byte} (hproof : bundle.proof = some (proof, c))
    (hc : c ∈ (log.run es).checkpoints) (hline : bundle.receipt.canonical = .ok line)
    (hinj : ((log.run es).hashedFor c.treeSize.toNat line proof).InjOn sha256)
    (hpass : checkInclusion bundle keys = .ok .pass) :
    ∃ (i : ℕ) (leaf : Leaf), bundle.receipt.anchors.log = some ⟨logId, i⟩ ∧
      (i : ℤ) < c.treeSize ∧ (log.run es).leaves[i]? = some leaf ∧ leaf.line = line := by
  have h := keyed_of_opened hopen hcustody hsteady hbroken
  obtain ⟨-, hid⟩ := @logId_of_opened _ _ _ _ _ es hopen
  have hv := h.checkpoints c hc
  obtain ⟨-, anchor, line', root, hanchor, hlog, hindex, hsize, hline', hroot, hpath⟩ :=
    spec_of_passed hproof hpass
  obtain rfl := Except.ok.inj (hline.symm.trans hline')
  obtain ⟨n, hn⟩ := Int.eq_ofNat_of_zero_le hv.nonneg
  have hle := hv.le
  have hvroot := hv.root
  rw [hsize, hn] at hpath
  rw [hn] at hle hvroot hinj ⊢
  rw [hvroot, fromHex_toHex, Option.some.injEq] at hroot
  have hleaves : (log.run es).tree.leaves = (log.run es).leaves.map Leaf.hash := h.rooted
  have hnl : n ≤ (log.run es).leaves.length := Int.ofNat_le.mp hle
  have hnt : n ≤ (log.run es).tree.leaves.length := by rw [hleaves, List.length_map]; exact hnl
  have htake : (log.run es).tree.leaves.take n = ((log.run es).leaves.take n).map Leaf.hash := by
    rw [hleaves, List.map_take]
  rw [rootAt, Int.toNat_natCast] at hroot
  rw [Int.toNat_natCast] at hinj
  rw [← hroot, ← htake] at hpath
  obtain ⟨hpos, hlt, hget⟩ := MerkleTree.getElem?_of_accepted hnt hinj
    (fun m hm => Or.inr (Or.inr (Or.inl (htake ▸ hm)))) (length_leafHash line)
    (fun m hm => Or.inr (Or.inr (Or.inr (by rw [hsize, hn]; exact hm)))) hpath
  rw [hleaves, List.getElem?_map, Option.map_eq_some_iff] at hget
  obtain ⟨leaf, hleaf, hhash⟩ := hget
  rw [← hindex] at hlt hleaf
  rw [Int.toNat_natCast] at hleaf
  have hsame : 0 :: leaf.line = 0 :: line :=
    hinj (Or.inr (Or.inl ⟨leaf, List.mem_of_getElem? hleaf, rfl⟩)) (Or.inl rfl) hhash
  refine ⟨anchor.leafIndex, leaf, ?_, hlt, hleaf, (List.cons.inj hsame).2⟩
  rw [hanchor, ← hid, ← hv.logId, ← hlog]

end Outcome

/-! A log that is handed over between two receipts. -/

/-- A receipt to be signed. -/
def sampleDraft (receiptId : Text) : LogDocument :=
  .action ⟨receiptId, [], ⟨none, none, none⟩, none⟩

/-- The first signer of a log, and the one it is handed to. -/
def sampleFirst : LogSigner := sampleSigner 0 (txt "0000000000000000")

/-- The signer a log is handed to. -/
def sampleSecond : LogSigner := sampleSigner 1 (txt "1111111111111111")

/-- One receipt, a hand-over, another receipt, and a checkpoint. -/
def sampleRotation : List Event :=
  [.reserve (sampleDraft (txt "first")), .finish 0 true .written, .rotate sampleSecond, .measure,
    .measure, .vouch World.sampleInstant true, .recorded true,
    .hand World.sampleInstant true true, .reserve (sampleDraft (txt "second")),
    .finish 1 true .written, .checkpoint World.sampleInstant true, .recorded true]

theorem sampleLog_opened :
    opened (txt "log") none sampleFirst (.single sampleFirst.key) = .ok sampleLog := rfl

theorem sampleCustody : Custody (sampleFirst :: rotatedTo sampleRotation)
    ((KeyTable.single sampleFirst.key).keys ++
      (sampleFirst :: rotatedTo sampleRotation).map LogSigner.key) where
  valid s hs := by
    have hrotated : rotatedTo sampleRotation = [sampleSecond] := rfl
    rw [hrotated, List.mem_pair] at hs
    rcases hs with rfl | rfl
    · exact HmacKey.signer_valid (by decide +kernel)
    · exact HmacKey.signer_valid (by decide +kernel)
  mem s hs := List.mem_append_right _ (List.mem_map_of_mem hs)
  distinct := by decide +kernel

theorem sampleRotation_runs :
    (Steady sampleLog sampleRotation = true ∧ (sampleLog.run sampleRotation).broken = false ∧
      (sampleLog.run sampleRotation).closed = false) ∧
    ((sampleLog.run sampleRotation).callers[1]?.any fun c =>
      signs c && c.reservation.index = 1) = true ∧
    ((sampleLog.run sampleRotation).outcome 1).isSome = true ∧
    ((sampleLog.run sampleRotation).checkpoints.any fun c => 1 < c.treeSize) = true ∧
    (sampleLog.run sampleRotation).keyring.get sampleFirst.key.keyId = some sampleFirst.key := by
  decide +kernel

theorem followed_sample :
    (sampleLog.run sampleRotation).keyInForce = (sampleLog.run sampleRotation).signer.key ∧
      ∀ c ∈ (sampleLog.run sampleRotation).checkpoints,
        (sampleLog.run sampleRotation).Vouches sampleFirst.key c := by
  obtain ⟨hsteady, hbroken, -⟩ := sampleRotation_runs.1
  obtain ⟨-, hkey, -, hvouches⟩ := followed sampleLog_opened sampleCustody hsteady hbroken
  exact ⟨hkey, hvouches⟩

/-- The receipt behind the hand-over, for somebody who holds both keys. -/
theorem bundles_pass_sample : ∃ bundle c caller leaf,
    (sampleLog.run sampleRotation).callers[1]? = some caller ∧
    (sampleLog.run sampleRotation).outcome 1 = some leaf ∧
    c ∈ (sampleLog.run sampleRotation).checkpoints ∧
    (sampleLog.run sampleRotation).prove caller.reservation.index c = .ok bundle ∧
      bundle.receipt = leaf.document ∧
      ∃ checks, verifyBundle bundle (sampleLog.run sampleRotation).keyring none
        (sampleLog.run sampleRotation).transitions = .ok checks ∧
          ∀ check ∈ checks, check = .pass := by
  obtain ⟨⟨hsteady, hbroken, hclosed⟩, hcaller, hout, hcovers, hfirst⟩ := sampleRotation_runs
  obtain ⟨caller, hcaller, hsigns⟩ := (Option.any_eq_true _ _).mp hcaller
  rw [Bool.and_eq_true, decide_eq_true_eq] at hsigns
  obtain ⟨leaf, hout⟩ := Option.isSome_iff_exists.mp hout
  obtain ⟨c, hc, hsize⟩ := List.any_eq_true.mp hcovers
  rw [decide_eq_true_eq] at hsize
  obtain ⟨bundle, hbundle⟩ := bundles_pass sampleLog_opened sampleCustody hsteady hbroken hclosed
    hcaller hsigns.1 hout hc (by rw [hsigns.2]; exact hsize) hfirst (fun _ _ _ _ h => h)
  exact ⟨bundle, c, caller, leaf, hcaller, hout, hc, hbundle⟩

/-- The keys of somebody who has followed a log. -/
def heldBy (log : ReceiptLog) : Keys := ⟨log.keyring, none, log.schedule⟩

/-- The messages behind two leaves and a proof of one of them. -/
def twoHashed (log : ReceiptLog) (line : List Byte) (proof : InclusionProof) : List (List Byte) :=
  (log.leaves.map fun leaf => 0 :: leaf.line) ++
    MerkleTree.walkMessages (leafHash line) proof.leafIndex proof.treeSize proof.auditPath

/-- Whether a log of two leaves proves the second of them, whose line is given, by the first. -/
def provesSecond (log : ReceiptLog) (bundle : ReceiptBundle) (line : List Byte)
    (proof : InclusionProof) : Bool :=
  decide (log.leaves.length = 2) && decide (log.leaves[1]?.map Leaf.line = some line) &&
    decide (MerkleTree.walkMessages (leafHash line) proof.leafIndex proof.treeSize
      proof.auditPath = [nodeMessage (((log.leaves.map Leaf.hash)[0]?).getD [],
        ((log.leaves.map Leaf.hash)[1]?).getD [])]) &&
    decide (((twoHashed log line proof).map sha256).Nodup) &&
    match checkInclusion bundle log.heldBy with
    | .ok .pass => true
    | _ => false

theorem sampleRotation_proves :
    ((sampleLog.run sampleRotation).checkpoints.any fun c => decide (c.treeSize = 2) &&
      (((sampleLog.run sampleRotation).prove 1 c).toOption.any fun bundle =>
        bundle.proof.any fun p => decide (p.2 = c) &&
          bundle.receipt.canonical.toOption.any fun line =>
            (sampleLog.run sampleRotation).provesSecond bundle line p.1)) = true := by
  decide +kernel

/-- The messages behind two leaves and a proof of one of them are told apart. -/
theorem injOn_hashedFor {log : ReceiptLog} {bundle : ReceiptBundle} {line : List Byte}
    {proof : InclusionProof} (h : log.provesSecond bundle line proof = true) :
    (log.hashedFor 2 line proof).InjOn sha256 ∧
      checkInclusion bundle log.heldBy = .ok .pass := by
  simp only [provesSecond, Bool.and_eq_true, decide_eq_true_eq] at h
  obtain ⟨⟨⟨⟨hlength, hsecond⟩, hwalk⟩, hnodup⟩, hpass⟩ := h
  obtain ⟨a, b, hab⟩ := List.length_eq_two.mp hlength
  rw [hab] at hsecond hwalk
  obtain rfl : b.line = line := Option.some.inj hsecond
  have hmem : ∀ m ∈ log.hashedFor 2 b.line proof, m ∈ twoHashed log b.line proof := by
    rintro m (rfl | ⟨leaf, hleaf, rfl⟩ | hm | hm)
    · exact List.mem_append_left _ (List.mem_map.mpr ⟨b, by rw [hab]; simp, rfl⟩)
    · exact List.mem_append_left _ (List.mem_map_of_mem hleaf)
    · refine List.mem_append_right _ ?_
      rw [hwalk]
      obtain ⟨p, hp, rfl⟩ := hm
      rw [hab] at hp
      change p ∈ pairs nodeHash emptyRoot [a.hash, b.hash] at hp
      rw [MerkleTree.pairs_pair] at hp
      rw [Set.mem_singleton_iff.mp hp]
      exact List.mem_singleton_self _
    · exact List.mem_append_right _ hm
  refine ⟨fun m hm m' hm' heq =>
    List.inj_on_of_nodup_map hnodup (hmem m hm) (hmem m' hm') heq, ?_⟩
  split at hpass
  · assumption
  · cases hpass

/-- The receipt behind the hand-over is the one that is proved. -/
theorem included_of_passed_sample : ∃ bundle c line,
    c ∈ (sampleLog.run sampleRotation).checkpoints ∧
    (sampleLog.run sampleRotation).prove 1 c = .ok bundle ∧
    ∃ (i : ℕ) (leaf : Leaf), bundle.receipt.anchors.log = some ⟨txt "log", i⟩ ∧
      (i : ℤ) < c.treeSize ∧ (sampleLog.run sampleRotation).leaves[i]? = some leaf ∧
      leaf.line = line := by
  obtain ⟨hsteady, hbroken, -⟩ := sampleRotation_runs.1
  obtain ⟨c, hc, hproves⟩ := List.any_eq_true.mp sampleRotation_proves
  rw [Bool.and_eq_true, decide_eq_true_eq] at hproves
  obtain ⟨bundle, hbundle, hproof⟩ := (Option.any_eq_true _ _).mp hproves.2
  obtain ⟨⟨proof, c'⟩, hproof, hlines⟩ := (Option.any_eq_true _ _).mp hproof
  rw [Bool.and_eq_true, decide_eq_true_eq] at hlines
  obtain ⟨line, hline, hsecond⟩ := (Option.any_eq_true _ _).mp hlines.2
  obtain ⟨hinj, hpass⟩ := injOn_hashedFor hsecond
  have hsize : c'.treeSize = 2 := by rw [← hproves.1, ← hlines.1]
  rw [← hlines.1] at hc hbundle
  refine ⟨bundle, c', line, hc, toOption_eq_some.mp hbundle, ?_⟩
  refine included_of_passed sampleLog_opened sampleCustody hsteady hbroken hproof hc
    (toOption_eq_some.mp hline) ?_ hpass
  rw [hsize]
  exact hinj

end ReceiptLog

end AgentGov.Receipts
