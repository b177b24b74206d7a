import AgentGov.Receipts.Witness

/-!
# A witness file after failed writes

A line that is written after a failed write joins what that write left, and the file is not read
again. Where every line starts at a line's end, and is of no smaller tree than the file holds for
its log, nor of another root, the file is read after any failure and holds all that was returned.

## Main definitions

* `AgentGov.Receipts.Cosignature.Own`, `AgentGov.Receipts.Cosignature.Before`: the cosignatures a
  witness reads back, and their order.
* `AgentGov.Receipts.World.Kept`: a file of such cosignatures, and what the witness remembers.
* `AgentGov.Receipts.Event.Safe`, `AgentGov.Receipts.World.SafeRun`: the runs that are survived.

## Main results

* `AgentGov.Receipts.World.Kept.step`: one event keeps the file.
* `AgentGov.Receipts.World.intact_run`: what holds after such a run.
-/

namespace AgentGov.Receipts

open Foundation Foundation.Lines

/-! ### What a witness reads back -/

/-- A signer whose signatures a decoder accepts and its public key verifies. -/
structure Signer.Valid (signer : Signer) : Prop where
  keyId : isHexOf 16 signer.keyId = true
  length : ∀ m, signatureBytes signer.alg = some (signer.sign m).length
  publicAlg : signer.publicKey.alg = signer.alg
  publicKeyId : signer.publicKey.keyId = signer.keyId
  verifies : ∀ m, signer.publicKey.verify m (signer.sign m) = true

/-- A shared key signs as a decoder accepts, under an id of sixteen digits. -/
theorem HmacKey.signer_valid {key : HmacKey} (h : isHexOf 16 key.keyId = true) :
    key.signer.Valid where
  keyId := h
  length m := by
    have hlen : (key.signer.sign m).length = 32 := length_sha256 _
    rw [hlen]
    rfl
  publicAlg := rfl
  publicKeyId := rfl
  verifies m := beq_self_eq_true _

/-- Settings under which a witness reads back what it writes. -/
structure Settings.Valid (s : Settings) : Prop where
  signer : s.signer.Valid
  witnessId : isText s.witnessId = true
  version : s.version = 1 ∨ s.version = 2

/-- The checkpoints a decoder accepts, up to their signature. -/
structure Checkpoint.WellFormed (cp : Checkpoint) : Prop where
  logId : isText cp.logId = true
  treeSize : 0 ≤ cp.treeSize ∧ cp.treeSize ≤ maxSafeInteger
  rootHash : isHexOf 64 cp.rootHash = true

namespace Cosignature

/-- The bytes of a cosignature's line. -/
def bytes (c : Cosignature) : List Byte := (canonicalBytes c.toJson).toOption.getD []

/-- The cosignatures a witness reads back as its own. -/
structure Own (signer : Signer) (c : Cosignature) : Prop where
  wellFormed : c.WellFormed
  verified : c.verify signer.publicKey = .ok ⟨⟩
  encoded : canonicalBytes c.toJson = .ok c.bytes

/-- What a witness's record keeps to: of one log, no smaller tree later, nor another root. -/
def Before (c d : Cosignature) : Prop :=
  c.logId = d.logId → c.treeSize ≤ d.treeSize ∧ (c.treeSize = d.treeSize → c.rootHash = d.rootHash)

theorem before_refl (c : Cosignature) : c.Before c := fun _ => ⟨le_rfl, fun _ => rfl⟩

/-- What a witness signs of a checkpoint is its own. -/
theorem own_of_sign {s : Settings} (hs : s.Valid) {cp : Checkpoint} (hcp : cp.WellFormed)
    {clock : Instant} {c : Cosignature} {bs : List Byte}
    (h : sign ⟨s.witnessId, cp.logId, cp.treeSize, cp.rootHash, clock, none⟩ s.signer s.version =
      .ok c) (hbs : canonicalBytes c.toJson = .ok bs) :
    c.Own s.signer ∧ c.bytes = bs ∧ c.logId = cp.logId ∧ c.treeSize = cp.treeSize ∧
      c.rootHash = cp.rootHash := by
  obtain ⟨message, hmessage, h⟩ := bind_eq_ok.mp h
  obtain rfl := Except.ok.inj h
  have hbytes : bytes _ = bs := congrArg (fun x => x.toOption.getD []) hbs
  refine ⟨⟨⟨hs.witnessId, hcp.logId, hcp.treeSize, hcp.rootHash, ?_⟩, ?_, hbytes ▸ hbs⟩, hbytes,
    rfl, rfl, rfl⟩
  · intro sig hsig
    obtain rfl := Option.some.inj hsig
    exact ⟨hs.signer.length message, hs.signer.keyId, hs.version⟩
  · -- the message checked is the one signed: the body does not hold the signature
    have hpayload : signingInput ⟨s.witnessId, cp.logId, cp.treeSize, cp.rootHash, clock, some
        ⟨s.signer.alg, s.signer.keyId, s.signer.sign message, s.version⟩⟩ s.signer.alg
        s.signer.keyId s.version = .ok message := hmessage
    simp only [verify, checkSignatureOf, hs.signer.publicAlg, hs.signer.publicKeyId, hpayload,
      hs.signer.verifies, ne_eq, not_true_eq_false, if_false, if_true]

variable {signer : Signer} {c : Cosignature}

theorem Own.readCosignature (h : c.Own signer) (path : Text) (spare number : ℕ) :
    readCosignature path (spare + 2) number c.bytes = .ok c :=
  readCosignature_eq_ok.mpr ⟨_, loadsStrict_bytes h.wellFormed h.encoded spare,
    fromJson_members h.wellFormed _⟩

theorem Own.exists_notSpace (h : c.Own signer) : ∃ b ∈ c.bytes, isSpaceByte b = false := by
  obtain ⟨cs, hcs⟩ := bytes_eq_cons h.encoded
  exact ⟨123, by simp [hcs], by decide⟩

end Cosignature

/-! ### Reading a record -/

/-- The last cosignature of each log, of some that were taken in. -/
structure Tracks (latest : Dict Text Cosignature) (cs : List Cosignature) : Prop where
  mem : ∀ l c, latest.get? l = some c → c ∈ cs ∧ c.logId = l
  before : ∀ c ∈ cs, ∃ d, latest.get? c.logId = some d ∧ c.Before d

theorem tracks_empty : Tracks ∅ [] where
  mem l c h := by simp at h
  before c h := by simp at h

/-- The next cosignature of a record is taken in. -/
theorem Tracks.set {latest : Dict Text Cosignature} {cs : List Cosignature}
    (h : Tracks latest cs) {c : Cosignature} (hc : ∀ d ∈ cs, d.Before c) :
    Tracks (latest.set c.logId c) (cs ++ [c]) where
  mem l d hd := by
    rw [Dict.get?_set] at hd
    split_ifs at hd with hl
    · obtain rfl := Option.some.inj hd
      exact ⟨by simp, hl.symm⟩
    · obtain ⟨hmem, hlog⟩ := h.mem l d hd
      exact ⟨List.mem_append_left _ hmem, hlog⟩
  before d hd := by
    rw [Dict.get?_set]
    rcases List.mem_append.mp hd with hd | hd
    · split_ifs with hl
      · exact ⟨c, rfl, hc d hd⟩
      · exact h.before d hd
    · obtain rfl := List.mem_singleton.mp hd
      exact ⟨d, by simp, d.before_refl⟩

/-- The next cosignature of a record is admitted. -/
theorem Tracks.enter {s : Settings} {latest : Dict Text Cosignature} {cs : List Cosignature}
    (h : Tracks latest cs) {c : Cosignature} (hown : c.Own s.signer)
    (hc : ∀ d ∈ cs, d.Before c) :
    FileWitness.enter s latest c = .ok (latest.set c.logId c) := by
  simp only [FileWitness.enter, hown.verified]
  cases hlatest : latest.get? c.logId with
  | none => rfl
  | some previous =>
    obtain ⟨hmem, hlog⟩ := h.mem _ _ hlatest
    obtain ⟨hsize, hroot⟩ := hc previous hmem hlog
    have hnot : ¬(c.treeSize < previous.treeSize ∨
        (c.treeSize = previous.treeSize ∧ c.rootHash ≠ previous.rootHash)) := by
      rintro (hlt | ⟨heq, hne⟩)
      · omega
      · exact hne (hroot heq.symm).symm
    simp only [if_neg hnot]

/-- A record is taken in from where some of it was. -/
theorem Tracks.runAll {s : Settings} {latest : Dict Text Cosignature} {cs ds : List Cosignature}
    (h : Tracks latest cs) (hown : ∀ d ∈ ds, d.Own s.signer)
    (horder : (cs ++ ds).Pairwise Cosignature.Before) :
    ∃ final, runAll (FileWitness.enter s) latest ds = .ok final ∧ Tracks final (cs ++ ds) := by
  induction ds generalizing latest cs with
  | nil => exact ⟨latest, rfl, by rwa [List.append_nil]⟩
  | cons d ds ih =>
    have hd : ∀ c ∈ cs, c.Before d := fun c hc =>
      (List.pairwise_append.mp horder).2.2 c hc d (by simp)
    rw [List.append_cons] at horder ⊢
    obtain ⟨final, hrun, hfinal⟩ := ih (h.set hd) (fun e he => hown e (by simp [he])) horder
    exact ⟨final, runAll_cons_eq_ok.mpr ⟨_, h.enter (hown d (by simp)) hd, hrun⟩, hfinal⟩

/-! ### Runs -/

namespace World

variable {signer : Signer} {w : World} {cs : List Cosignature} {torn : List Byte}

/-- The file is a record and an unfinished line; all that was returned, and all that the witness
at work remembers, is in the record. -/
structure Kept (signer : Signer) (w : World) (cs : List Cosignature) (torn : List Byte) :
    Prop where
  file : w.file = joinLines 10 (cs.map Cosignature.bytes) ++ torn
  unfinished : (10 : Byte) ∉ torn
  own : ∀ c ∈ cs, c.Own signer
  order : cs.Pairwise Cosignature.Before
  returned : ∀ c ∈ w.returned, c ∈ cs
  witness : ∀ fw ∈ w.witness, fw.settings.Valid ∧ fw.settings.signer = signer ∧
    ∀ l c, fw.latest.get? l = some c → c ∈ cs

theorem kept_fresh (signer : Signer) : Kept signer fresh [] [] where
  file := rfl
  unfinished := by simp
  own c h := by simp at h
  order := List.Pairwise.nil
  returned c h := by simp [fresh] at h
  witness fw h := by simp [fresh] at h

theorem Kept.complete_file (h : Kept signer w cs torn) :
    complete 10 w.file = joinLines 10 (cs.map Cosignature.bytes) := by
  rw [h.file, complete_join _ h.unfinished]

/-- The record is read from the file. -/
theorem Kept.loadCosignatures (h : Kept signer w cs torn) (path : Text) (spare : ℕ) :
    loadCosignatures path (spare + 2) w.file = .ok cs := by
  have hlines : readCompleteLines w.file = cs.map Cosignature.bytes := by
    rw [h.file]
    refine readCompleteLines_join ?_ ?_ h.unfinished
    · intro bs hbs
      obtain ⟨c, hc, rfl⟩ := List.mem_map.mp hbs
      exact Cosignature.break_notMem (h.own c hc).encoded
    · intro bs hbs
      obtain ⟨c, hc, rfl⟩ := List.mem_map.mp hbs
      exact (h.own c hc).exists_notSpace
  rw [Receipts.loadCosignatures, hlines]
  exact readLines_map _ (fun c hc number => (h.own c hc).readCosignature path spare number) 1

/-- A witness is made of the file, and remembers the last of each log. -/
theorem Kept.load (h : Kept signer w cs torn) {s : Settings} (hs : s.signer = signer) :
    ∃ fw, FileWitness.load s w.file = .ok fw ∧ fw.settings = s ∧ Tracks fw.latest cs := by
  obtain ⟨latest, hrun, htracks⟩ := @Tracks.runAll s ∅ [] cs tracks_empty
    (fun d hd => hs ▸ h.own d hd) h.order
  refine ⟨⟨s, latest⟩, ?_, rfl, htracks⟩
  exact bind_eq_ok.mpr ⟨cs, h.loadCosignatures s.path s.spare, bind_eq_ok.mpr ⟨latest, hrun, rfl⟩⟩

end World

/-- The events a file is kept through: a restart under the same key, and a call that, where it
writes, finds the file at a line's end and nothing in it that its line would contradict. -/
def Event.Safe (signer : Signer) (w : World) : Event → Prop
  | .restart s => s.Valid ∧ s.signer = signer
  | .offer cp proof clock _ => ∀ fw ∈ w.witness, ∀ c line,
      fw.judge cp proof clock = .ok (.fresh c line) →
        cp.WellFormed ∧ complete 10 w.file = w.file ∧
          ∀ cs, loadCosignatures fw.settings.path (fw.settings.spare + 2) w.file = .ok cs →
            ∀ d ∈ cs, d.logId = cp.logId → d.treeSize ≤ cp.treeSize ∧
              (d.treeSize = cp.treeSize → d.rootHash = cp.rootHash)

namespace World

variable {signer : Signer} {w : World} {cs : List Cosignature} {torn : List Byte}

/-- A part of a line is the line, or an unfinished one. -/
theorem take_line {bs : List Byte} (h : (10 : Byte) ∉ bs) (n : ℕ) :
    (bs ++ [10]).take n = bs ++ [10] ∨ (10 : Byte) ∉ (bs ++ [10]).take n := by
  by_cases hn : bs.length < n
  · exact Or.inl (List.take_of_length_le (by simpa using hn))
  · rw [List.take_append_of_le_length (by omega)]
    exact Or.inr fun hmem => h (List.mem_of_mem_take hmem)

/-- A line joins a file at a line's end, whole. -/
theorem Kept.append_line (h : Kept signer w cs []) {c : Cosignature} (hc : c.Own signer)
    (hbefore : ∀ d ∈ cs, d.Before c) {w' : World}
    (hfile : w'.file = w.file ++ (c.bytes ++ [10])) (hreturned : ∀ d ∈ w'.returned, d ∈ cs ++ [c])
    (hwitness : ∀ fw ∈ w'.witness, fw.settings.Valid ∧ fw.settings.signer = signer ∧
      ∀ l d, fw.latest.get? l = some d → d ∈ cs ++ [c]) : Kept signer w' (cs ++ [c]) [] where
  file := by
    rw [hfile, h.file, List.append_nil, List.append_nil, List.map_append, List.map_singleton,
      joinLines_concat]
  unfinished := by simp
  own d hd := by
    rcases List.mem_append.mp hd with hd | hd
    · exact h.own d hd
    · exact List.mem_singleton.mp hd ▸ hc
  order := List.pairwise_append.mpr ⟨h.order, List.pairwise_singleton _ _, fun d hd e he =>
    List.mem_singleton.mp he ▸ hbefore d hd⟩
  returned := hreturned
  witness := hwitness

/-- A part of a line at a line's end is an unfinished one. -/
theorem Kept.append_torn (h : Kept signer w cs []) {part : List Byte} (hpart : (10 : Byte) ∉ part)
    {w' : World} (hfile : w'.file = w.file ++ part) (hreturned : w'.returned = w.returned)
    (hwitness : ∀ fw ∈ w'.witness, fw ∈ w.witness) : Kept signer w' cs part where
  file := by rw [hfile, h.file, List.append_nil]
  unfinished := hpart
  own := h.own
  order := h.order
  returned := hreturned ▸ h.returned
  witness fw hfw := h.witness fw (hwitness fw hfw)

/-- A line is written, or a part of it. -/
theorem Kept.append (h : Kept signer w cs []) {fw : FileWitness} (hfw : fw ∈ w.witness)
    {c : Cosignature} (hc : c.Own signer) (hbefore : ∀ d ∈ cs, d.Before c) (writing : Writing) :
    ∃ cs' torn', Kept signer (w.append fw c (c.bytes ++ [10]) writing) cs' torn' := by
  have hmore : ∀ d ∈ cs, d ∈ cs ++ [c] := fun d hd => List.mem_append_left _ hd
  have hbreak : (10 : Byte) ∉ c.bytes := Cosignature.break_notMem hc.encoded
  obtain ⟨hvalid, hsigner, hlatest⟩ := h.witness fw hfw
  cases writing with
  | completes =>
    refine ⟨cs ++ [c], [], h.append_line hc hbefore rfl ?_ ?_⟩
    · intro d hd
      rcases List.mem_append.mp hd with hd | hd
      · exact hmore d (h.returned d hd)
      · exact List.mem_append_right _ hd
    · intro fw' hfw'
      obtain rfl := Option.some.inj hfw'
      refine ⟨hvalid, hsigner, fun l d hd => ?_⟩
      simp only [Dict.get?_set] at hd
      split_ifs at hd
      · obtain rfl := Option.some.inj hd
        simp
      · exact hmore d (hlatest l d hd)
  | fails n =>
    rcases take_line hbreak n with htake | htake
    · refine ⟨cs ++ [c], [], h.append_line hc hbefore (congrArg (w.file ++ ·) htake)
        (fun d hd => hmore d (h.returned d hd)) fun fw' hfw' => ?_⟩
      obtain ⟨hv, hs, hl⟩ := h.witness fw' hfw'
      exact ⟨hv, hs, fun l d hd => hmore d (hl l d hd)⟩
    · exact ⟨cs, _, h.append_torn htake rfl rfl fun _ h => h⟩
  | stops n =>
    rcases take_line hbreak n with htake | htake
    · exact ⟨cs ++ [c], [], h.append_line hc hbefore (congrArg (w.file ++ ·) htake)
        (fun d hd => hmore d (h.returned d hd)) (by simp [World.append])⟩
    · exact ⟨cs, _, h.append_torn htake rfl rfl (by simp [World.append])⟩

/-- A safe call keeps the file. -/
theorem Kept.offer (h : Kept signer w cs torn) {cp : Checkpoint} {proof : List (List Byte)}
    {clock : Instant} {writing : Writing}
    (hsafe : (Event.offer cp proof clock writing).Safe signer w) :
    ∃ cs' torn', Kept signer (w.offer cp proof clock writing) cs' torn' := by
  cases hw : w.witness with
  | none => exact ⟨cs, torn, (offer_of_none hw).symm ▸ h⟩
  | some fw =>
    obtain ⟨hvalid, rfl, hlatest⟩ := h.witness fw hw
    cases hj : fw.judge cp proof clock with
    | error e => exact ⟨cs, torn, (offer_of_error hw hj).symm ▸ h⟩
    | ok j =>
      obtain ⟨keys, root, -, -, -, hcase⟩ := FileWitness.judge_eq_ok hj
      have hattest : (∃ c, j = .held c ∧ c ∈ cs) ∨ fw.attest cp clock = .ok j := by
        rcases hcase with ⟨-, hattest⟩ | ⟨previous, hprevious, ⟨-, -, hheld⟩ | ⟨-, -, -, -, ha⟩⟩
        · exact Or.inr hattest
        · exact Or.inl ⟨previous, hheld, hlatest _ _ hprevious⟩
        · exact Or.inr ha
      rcases hattest with ⟨c, rfl, hc⟩ | hattest
      · rw [offer_of_held hw hj]
        refine ⟨cs, torn, h.file, h.unfinished, h.own, h.order, fun d hd => ?_, h.witness⟩
        rcases List.mem_append.mp hd with hd | hd
        · exact h.returned d hd
        · exact List.mem_singleton.mp hd ▸ hc
      · obtain ⟨c, bs, hsign, hbs, rfl⟩ := FileWitness.attest_eq_ok hattest
        obtain ⟨hcp, hend, hahead⟩ := hsafe fw hw c _ hj
        obtain ⟨hown, rfl, hlog, hsize, hroot⟩ := Cosignature.own_of_sign hvalid hcp hsign hbs
        have htorn : torn = [] := by
          rw [h.complete_file, h.file] at hend
          simpa using hend
        subst htorn
        rw [offer_of_fresh hw hj]
        refine h.append hw hown (fun d hd heq => ?_) writing
        have := hahead cs (h.loadCosignatures _ _) d hd (heq.trans hlog)
        rwa [hsize, hroot]

/-- A restart cuts off what is unfinished. -/
theorem Kept.restart (h : Kept signer w cs torn) {s : Settings} (hs : s.Valid)
    (hsigner : s.signer = signer) : Kept signer (w.restart s) cs [] := by
  obtain ⟨fw, hload, rfl, htracks⟩ := h.load hsigner
  have hrestart : w.restart fw.settings =
      { w with file := complete 10 w.file, witness := some fw } := by
    simp only [World.restart, if_pos hs.version, hload]
    rfl
  rw [hrestart]
  refine ⟨?_, by simp, h.own, h.order, h.returned, ?_⟩
  · rw [List.append_nil]
    exact h.complete_file
  · intro fw' hfw'
    obtain rfl := Option.some.inj hfw'
    exact ⟨hs, hsigner, fun l d hd => (htracks.mem l d hd).1⟩

/-- One safe event keeps the file. -/
theorem Kept.step (h : Kept signer w cs torn) {e : Event} (hsafe : e.Safe signer w) :
    ∃ cs' torn', Kept signer (w.step e) cs' torn' := by
  cases e with
  | offer cp proof clock writing => exact h.offer hsafe
  | restart s => exact ⟨cs, [], h.restart hsafe.1 hsafe.2⟩

/-- The runs each of whose events is safe where it happens. -/
def SafeRun (signer : Signer) : World → List Event → Prop
  | _, [] => True
  | w, e :: es => e.Safe signer w ∧ SafeRun signer (w.step e) es

theorem Kept.run {es : List Event} (h : Kept signer w cs torn) (hsafe : SafeRun signer w es) :
    ∃ cs' torn', Kept signer (w.run es) cs' torn' := by
  induction es generalizing w cs torn with
  | nil => exact ⟨cs, torn, h⟩
  | cons e es ih =>
    obtain ⟨cs', torn', hstep⟩ := h.step hsafe.1
    exact ih hstep hsafe.2

/-- What survives every failure: the file is read, and holds all that was returned and no two
roots of one log and size; and after a failed call the witness answers what it would have. -/
structure Intact (signer : Signer) (w : World) : Prop where
  reloads : ∀ s : Settings, s.Valid → s.signer = signer → ∃ fw cs,
    FileWitness.load s w.file = .ok fw ∧
    loadCosignatures s.path (s.spare + 2) w.file = .ok cs ∧
    (∀ c ∈ w.returned, c ∈ cs ∧ ∃ d, fw.latest.get? c.logId = some d ∧ c.treeSize ≤ d.treeSize) ∧
    ∀ c ∈ cs, ∀ d ∈ cs, c.logId = d.logId → c.treeSize = d.treeSize → c.rootHash = d.rootHash
  works : ∀ fw ∈ w.witness, ∀ cp proof clock n cp' proof' clock' j,
    fw.judge cp' proof' clock' = .ok j →
      ∃ c, (j = .held c ∨ ∃ line, j = .fresh c line) ∧
        c ∈ ((w.step (.offer cp proof clock (.fails n))).step
          (.offer cp' proof' clock' .completes)).returned

/-- A call whose write fails leaves the witness as it was. -/
theorem witness_offer_fails (w : World) (cp : Checkpoint) (proof : List (List Byte))
    (clock : Instant) (n : ℕ) : (w.offer cp proof clock (.fails n)).witness = w.witness := by
  cases hw : w.witness with
  | none => rw [offer_of_none hw, hw]
  | some fw =>
    cases hj : fw.judge cp proof clock with
    | error e => rw [offer_of_error hw hj, hw]
    | ok j =>
      cases j with
      | held c => rw [offer_of_held hw hj, hw]
      | fresh c line => rw [offer_of_fresh hw hj, World.append, hw]

/-- A call whose write completes returns what the witness decides on. -/
theorem mem_returned_offer {fw : FileWitness} (hfw : w.witness = some fw) {cp : Checkpoint}
    {proof : List (List Byte)} {clock : Instant} {j : Judgement}
    (hj : fw.judge cp proof clock = .ok j) : ∃ c, (j = .held c ∨ ∃ line, j = .fresh c line) ∧
      c ∈ (w.offer cp proof clock .completes).returned := by
  cases j with
  | held c => exact ⟨c, Or.inl rfl, by simp [offer_of_held hfw hj]⟩
  | fresh c line => exact ⟨c, Or.inr ⟨line, rfl⟩, by simp [offer_of_fresh hfw hj, World.append]⟩

theorem Kept.intact (h : Kept signer w cs torn) : Intact signer w where
  reloads s hs hsigner := by
    obtain ⟨fw, hload, -, htracks⟩ := h.load hsigner
    refine ⟨fw, cs, hload, h.loadCosignatures s.path s.spare, fun c hc => ?_, ?_⟩
    · obtain ⟨d, hd, hbefore⟩ := htracks.before c (h.returned c hc)
      exact ⟨h.returned c hc, d, hd, (hbefore (htracks.mem _ _ hd).2.symm).1⟩
    · intro c hc d hd hlog hsize
      -- of two members one stands before the other
      have hboth : c.Before d ∨ d.Before c :=
        List.Pairwise.forall_of_forall_of_flip (R := fun a b => a.Before b ∨ b.Before a)
          (fun a _ => Or.inl a.before_refl) (h.order.imp Or.inl) (h.order.imp Or.inr) hc hd
      rcases hboth with hcd | hdc
      · exact (hcd hlog).2 hsize
      · exact ((hdc hlog.symm).2 hsize.symm).symm
  works fw hfw cp proof clock n cp' proof' clock' j hj :=
    mem_returned_offer ((witness_offer_fails w cp proof clock n).trans hfw) hj

/-- **A witness file survives failed writes** that leave no part of a line to be written on. -/
theorem intact_run {es : List Event} (hsafe : SafeRun signer fresh es) :
    Intact signer (fresh.run es) := by
  obtain ⟨cs, torn, h⟩ := (kept_fresh signer).run hsafe
  exact h.intact

/-! A witness of one log, and a checkpoint of that log. -/

/-- A key of thirty-two bytes. -/
def sampleKey : HmacKey := ⟨List.replicate 32 7, HmacKey.derived (List.replicate 32 7), by decide⟩

/-- The first of January 2026. -/
def sampleInstant : Instant := ⟨2026, 1, 1, 0, 0, 0, 0, Instant.newYear_valid⟩

/-- A witness of one log, whose key is the witness's own. -/
def sampleSettings : Settings where
  path := txt "witness.jsonl"
  signer := sampleKey.signer
  witnessId := txt "witness"
  logs := (∅ : Dict Text Keyring).set (txt "log") (Keyring.single sampleKey.verifier)
  version := 1
  spare := 0

/-- A checkpoint of the log at one leaf, before it is signed. -/
def sampleUnsigned : Checkpoint :=
  ⟨txt "log", 1, toHex (List.replicate 32 0), sampleInstant, none⟩

/-- The signed checkpoint. -/
def sampleCheckpoint : Checkpoint :=
  (sampleUnsigned.sign sampleKey.signer 1).toOption.getD sampleUnsigned

theorem sampleSettings_valid : sampleSettings.Valid where
  signer := HmacKey.signer_valid (by decide +kernel)
  witnessId := by decide
  version := Or.inl rfl

/-- A torn line is cut off by a restart, and the call is made again. -/
theorem intact_after_restart : Intact sampleKey.signer (fresh.run [.restart sampleSettings,
    .offer sampleCheckpoint [] sampleInstant (.fails 1), .restart sampleSettings,
    .offer sampleCheckpoint [] sampleInstant .completes]) := by
  have hcp : sampleCheckpoint.WellFormed :=
    ⟨by decide +kernel, by decide +kernel, by decide +kernel⟩
  have hempty : ∀ w : World, w.file = [] → ∀ clock writing,
      (Event.offer sampleCheckpoint [] clock writing).Safe sampleKey.signer w := by
    intro w hw clock writing fw _ c line _
    rw [hw]
    refine ⟨hcp, rfl, fun cs hcs d hd => ?_⟩
    obtain rfl := Except.ok.inj hcs
    simp at hd
  exact intact_run ⟨⟨sampleSettings_valid, rfl⟩, hempty _ (by decide +kernel) _ _,
    ⟨sampleSettings_valid, rfl⟩, hempty _ (by decide +kernel) _ _, trivial⟩

/-- Where a write breaks off after one byte and the next call's line joins it, the file is not
read again. -/
theorem not_intact_after_torn : (fresh.run [.restart sampleSettings,
      .offer sampleCheckpoint [] sampleInstant (.fails 1),
      .offer sampleCheckpoint [] sampleInstant .completes]).returned.length = 1 ∧
    ¬Intact sampleKey.signer (fresh.run [.restart sampleSettings,
      .offer sampleCheckpoint [] sampleInstant (.fails 1),
      .offer sampleCheckpoint [] sampleInstant .completes]) := by
  refine ⟨by decide +kernel, fun h => ?_⟩
  obtain ⟨fw, cs, hload, -⟩ := h.reloads sampleSettings sampleSettings_valid rfl
  have hrefused : (FileWitness.load sampleSettings (fresh.run [.restart sampleSettings,
      .offer sampleCheckpoint [] sampleInstant (.fails 1),
      .offer sampleCheckpoint [] sampleInstant .completes]).file).toOption.isNone = true := by
    decide +kernel
  rw [hload] at hrefused
  cases hrefused

end World

end AgentGov.Receipts
