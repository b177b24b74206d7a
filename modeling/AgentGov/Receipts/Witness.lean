import AgentGov.Foundation.Lines
import AgentGov.Foundation.OrderedDict
import AgentGov.Foundation.TornJson
import AgentGov.Receipts.Heads
import AgentGov.Receipts.Merkle

/-!
# The witness that keeps a file

A witness cosigns the checkpoints of the logs it follows, after checking each against the last
one it cosigned, and appends every cosignature to its file
(`src/src/agentgov/receipts/witness.py` and `src/src/agentgov/receipts/_lines.py`). A write may
stop after any number of its bytes: with an exception, and the witness goes on, or with the
process, and the next one reads the file.

## Main definitions

* `AgentGov.Receipts.readCompleteLines`, `AgentGov.Receipts.loadCosignatures`: reading the file.
* `AgentGov.Receipts.FileWitness`: the witness, with `FileWitness.load` and `FileWitness.judge`.
* `AgentGov.Receipts.World`: a file, the witness at work on it, and what it has returned, with
  `World.step` and `World.run`.

## Main results

* `AgentGov.Receipts.FileWitness.judge_held`, `AgentGov.Receipts.FileWitness.judge_fresh`: what a
  witness has checked when it answers.
-/

namespace AgentGov.Receipts

open Foundation Foundation.Lines

/-! ### The file -/

/-- Whether a byte is ASCII white space. -/
def isSpaceByte (b : Byte) : Bool := b.val = 32 || (9 ≤ b.val && b.val ≤ 13)

/-- `read_complete_lines`: the complete lines that are not blank. -/
def readCompleteLines (data : List Byte) : List (List Byte) :=
  ((complete 10 data).splitOn 10).filter fun line => !line.all isSpaceByte

/-- A fault with the file's path before the message of a malformed document. -/
def Fault.inFile (path : Text) : Fault → Fault
  | .malformed m => .malformed (path ++ txt ": " ++ m)
  | e => e

/-- The cosignature a line is. -/
def readCosignature (path : Text) (room number : ℕ) (line : List Byte) :
    Except Fault Cosignature :=
  (loadsStrict room line >>= fun v =>
    Cosignature.fromJson v (txt "line " ++ decimalDigits number)).mapError (Fault.inFile path)

/-- The cosignatures some lines are, the first of them with a number. -/
def readLines (path : Text) (room : ℕ) : ℕ → List (List Byte) → Except Fault (List Cosignature)
  | _, [] => .ok []
  | number, line :: lines => do
    let c ← readCosignature path room number line
    let cs ← readLines path room (number + 1) lines
    return c :: cs

/-- `load_cosignatures`. -/
def loadCosignatures (path : Text) (room : ℕ) (data : List Byte) :
    Except Fault (List Cosignature) :=
  readLines path room 1 (readCompleteLines data)

/-! ### The witness -/

/-- What a `FileWitness` is made with. The decoder's stack has room for the two containers of a
cosignature and `spare` more. -/
structure Settings where
  path : Text
  signer : Signer
  witnessId : Text
  logs : Dict Text Keyring
  version : ℕ
  spare : ℕ

/-- `FileWitness`: its settings, and the last cosignature of each log. -/
structure FileWitness where
  settings : Settings
  latest : Dict Text Cosignature

/-- What is to be done with a checkpoint that is accepted. -/
inductive Judgement
  /-- What was cosigned before is returned again. -/
  | held (c : Cosignature)
  /-- A new cosignature is written, with its line. -/
  | fresh (c : Cosignature) (line : List Byte)
deriving DecidableEq

namespace FileWitness

/-- One cosignature of the file taken in by `__init__`. -/
def enter (s : Settings) (latest : Dict Text Cosignature) (c : Cosignature) :
    Except Fault (Dict Text Cosignature) :=
  match c.verify s.signer.publicKey with
  | .error (.signature m) => .error (.witness (.notMade m))
  | .error e => .error e
  | .ok _ =>
    match latest.get? c.logId with
    | none => .ok (latest.set c.logId c)
    | some previous =>
      if c.treeSize < previous.treeSize ∨
          (c.treeSize = previous.treeSize ∧ c.rootHash ≠ previous.rootHash) then
        .error (.witness (.outOfOrder c.logId))
      else .ok (latest.set c.logId c)

/-- `__init__`, on the bytes of the file. -/
def load (s : Settings) (data : List Byte) : Except Fault FileWitness := do
  let cs ← loadCosignatures s.path (s.spare + 2) data
  let latest ← runAll (enter s) ∅ cs
  return ⟨s, latest⟩

/-- `bytes.fromhex`. -/
def bytesOf (t : Text) : Except Fault (List Byte) :=
  match fromHex t with
  | some bs => .ok bs
  | none => .error (.valueError (txt "non-hexadecimal number found in fromhex() arg"))

/-- The cosignature of a checkpoint that passed, signed and encoded. -/
def attest (w : FileWitness) (cp : Checkpoint) (clock : Instant) : Except Fault Judgement := do
  let c ← Cosignature.sign ⟨w.settings.witnessId, cp.logId, cp.treeSize, cp.rootHash, clock, none⟩
    w.settings.signer w.settings.version
  let bs ← canonicalBytes c.toJson
  return .fresh c (bs ++ [10])

/-- The checkpoint is signed by a key held for its log. -/
def checkSigned (cp : Checkpoint) (keys : Keyring) : Except Fault PUnit.{1} :=
  match cp.verify keys with
  | .error (.signature m) => .error (.witness (.notSigned cp.logId m))
  | r => r

/-- What `cosign` decides before it writes. -/
def judge (w : FileWitness) (cp : Checkpoint) (proof : List (List Byte)) (clock : Instant) :
    Except Fault Judgement :=
  match w.settings.logs.get? cp.logId with
  | none => .error (.witness (.notFollowed cp.logId))
  | some keys => do
    checkSigned cp keys
    let root ← bytesOf cp.rootHash
    match w.latest.get? cp.logId with
    | none => w.attest cp clock
    | some previous =>
      if cp.treeSize < previous.treeSize then
        .error (.witness (.rolledBack cp.logId previous.treeSize cp.treeSize))
      else if cp.treeSize = previous.treeSize then
        if cp.rootHash ≠ previous.rootHash then
          .error (.witness (.fork cp.logId cp.treeSize (previous.rootHash.take 16)
            (cp.rootHash.take 16)))
        else .ok (.held previous)
      else do
        let old ← bytesOf previous.rootHash
        if verifyConsistency nodeHash emptyRoot previous.treeSize cp.treeSize old root proof then
          w.attest cp clock
        else .error (.witness (.rewritten cp.logId previous.treeSize cp.treeSize))

end FileWitness

/-! ### Runs -/

/-- How the writing of a line goes. -/
inductive Writing
  | completes
  /-- So many bytes of the line reach the file, at most all of them, and an exception is raised. -/
  | fails (bytes : ℕ)
  /-- So many bytes of the line reach the file, at most all of them, and the process ends. -/
  | stops (bytes : ℕ)
deriving DecidableEq

/-- What happens to a witness's file. -/
inductive Event
  /-- `cosign`, with the clock's reading and how its write goes. -/
  | offer (cp : Checkpoint) (proof : List (List Byte)) (clock : Instant) (writing : Writing)
  /-- A `FileWitness` is made of the file. -/
  | restart (s : Settings)

/-- A witness's file, the witness at work on it, and every cosignature that was returned. -/
structure World where
  file : List Byte
  witness : Option FileWitness
  returned : List Cosignature

namespace World

/-- Before the file is there. -/
def fresh : World := ⟨[], none, []⟩

/-- `_append`, and what `cosign` does after it. -/
def append (w : World) (fw : FileWitness) (c : Cosignature) (line : List Byte) : Writing → World
  | .completes => ⟨w.file ++ line, some ⟨fw.settings, fw.latest.set c.logId c⟩, w.returned ++ [c]⟩
  | .fails n => { w with file := w.file ++ line.take n }
  | .stops n => { w with file := w.file ++ line.take n, witness := none }

/-- `cosign` by the witness at work, and the write it leads to. -/
def offer (w : World) (cp : Checkpoint) (proof : List (List Byte)) (clock : Instant)
    (writing : Writing) : World :=
  match w.witness with
  | none => w
  | some fw =>
    match fw.judge cp proof clock with
    | .error _ => w
    | .ok (.held c) => { w with returned := w.returned ++ [c] }
    | .ok (.fresh c line) => w.append fw c line writing

/-- A witness is made: an unfinished line is cut off the file, which is then read. -/
def restart (w : World) (s : Settings) : World :=
  if s.version = 1 ∨ s.version = 2 then
    { w with file := complete 10 w.file, witness := (FileWitness.load s w.file).toOption }
  else { w with witness := none }

/-- One event. -/
def step (w : World) : Event → World
  | .offer cp proof clock writing => w.offer cp proof clock writing
  | .restart s => w.restart s

/-- One event after another. -/
def run (w : World) (es : List Event) : World := es.foldl step w

section

variable {w : World} {fw : FileWitness} {cp : Checkpoint} {proof : List (List Byte)}
  {clock : Instant} {writing : Writing}

theorem offer_of_none (hw : w.witness = none) : w.offer cp proof clock writing = w := by
  simp only [offer, hw]

theorem offer_of_error (hw : w.witness = some fw) {e : Fault}
    (hj : fw.judge cp proof clock = .error e) : w.offer cp proof clock writing = w := by
  simp only [offer, hw, hj]

theorem offer_of_held (hw : w.witness = some fw) {c : Cosignature}
    (hj : fw.judge cp proof clock = .ok (.held c)) :
    w.offer cp proof clock writing = { w with returned := w.returned ++ [c] } := by
  simp only [offer, hw, hj]

theorem offer_of_fresh (hw : w.witness = some fw) {c : Cosignature} {line : List Byte}
    (hj : fw.judge cp proof clock = .ok (.fresh c line)) :
    w.offer cp proof clock writing = w.append fw c line writing := by
  simp only [offer, hw, hj]

end

@[simp] theorem run_nil (w : World) : w.run [] = w := rfl

@[simp] theorem run_cons (w : World) (e : Event) (es : List Event) :
    w.run (e :: es) = (w.step e).run es := rfl

theorem run_concat (w : World) (es : List Event) (e : Event) :
    w.run (es ++ [e]) = (w.run es).step e := by
  simp [run]

end World

/-! ### What a witness has checked -/

namespace FileWitness

variable {w : FileWitness} {cp : Checkpoint} {proof : List (List Byte)} {clock : Instant}

theorem checkSigned_eq_ok {keys : Keyring} {u : PUnit.{1}} (h : checkSigned cp keys = .ok u) :
    cp.verify keys = .ok u := by
  unfold checkSigned at h
  split at h
  · cases h
  · exact h

theorem bytesOf_eq_ok {t : Text} {bs : List Byte} (h : bytesOf t = .ok bs) :
    fromHex t = some bs := by
  unfold bytesOf at h
  split at h
  · rename_i hbs
    rw [hbs, Except.ok.inj h]
  · cases h

/-- What is signed and encoded of a checkpoint that passed. -/
theorem attest_eq_ok {j : Judgement} (h : w.attest cp clock = .ok j) : ∃ c bs,
    Cosignature.sign ⟨w.settings.witnessId, cp.logId, cp.treeSize, cp.rootHash, clock, none⟩
      w.settings.signer w.settings.version = .ok c ∧
    canonicalBytes c.toJson = .ok bs ∧ j = .fresh c (bs ++ [10]) := by
  obtain ⟨c, hc, h⟩ := bind_eq_ok.mp h
  obtain ⟨bs, hbs, h⟩ := bind_eq_ok.mp h
  exact ⟨c, bs, hc, hbs, (Except.ok.inj h).symm⟩

/-- Whatever a witness answers to was signed by the log; it is what it cosigned before, or
extends it. -/
theorem judge_eq_ok {j : Judgement} (h : w.judge cp proof clock = .ok j) :
    ∃ keys root, w.settings.logs.get? cp.logId = some keys ∧ cp.verify keys = .ok ⟨⟩ ∧
      fromHex cp.rootHash = some root ∧
      ((w.latest.get? cp.logId = none ∧ w.attest cp clock = .ok j) ∨
        ∃ previous, w.latest.get? cp.logId = some previous ∧
          ((cp.treeSize = previous.treeSize ∧ cp.rootHash = previous.rootHash ∧
              j = .held previous) ∨
            ∃ old, previous.treeSize < cp.treeSize ∧ fromHex previous.rootHash = some old ∧
              verifyConsistency nodeHash emptyRoot previous.treeSize cp.treeSize old root proof =
                true ∧ w.attest cp clock = .ok j)) := by
  unfold judge at h
  split at h
  · cases h
  · rename_i keys hkeys
    obtain ⟨⟨⟩, hsigned, h⟩ := bind_eq_ok.mp h
    obtain ⟨root, hroot, h⟩ := bind_eq_ok.mp h
    refine ⟨keys, root, hkeys, checkSigned_eq_ok hsigned, bytesOf_eq_ok hroot, ?_⟩
    cases hlatest : w.latest.get? cp.logId with
    | none =>
      simp only [hlatest] at h
      exact Or.inl ⟨rfl, h⟩
    | some previous =>
      simp only [hlatest] at h
      refine Or.inr ⟨previous, rfl, ?_⟩
      split_ifs at h with hsmaller hsame hroots
      · rw [ne_eq, not_not] at hroots
        exact Or.inl ⟨hsame, hroots, (Except.ok.inj h).symm⟩
      · obtain ⟨old, hold, h⟩ := bind_eq_ok.mp h
        split_ifs at h with hextends
        exact Or.inr ⟨old, by omega, bytesOf_eq_ok hold, hextends, h⟩

end FileWitness

/-! ### What is read of a file -/

namespace Cosignature

variable {c d : Cosignature} {bs : List Byte}

theorem utf8_of_canonicalBytes (h : canonicalBytes c.toJson = .ok bs) :
    Text.utf8 (Json.dump Json.quote (.obj c.members)) = some bs :=
  ordered_toJson c ▸ canonicalBytes_eq_ok h

/-- A line of a cosignature starts with its brace and a key's quote. -/
theorem bytes_eq_cons (h : canonicalBytes c.toJson = .ok bs) : ∃ cs, bs = 123 :: 34 :: cs := by
  have hdump : ∃ t, Json.dump Json.quote (.obj c.members) = 123 :: 34 :: t := by
    simp [members, Json.dump, Json.quote, Json.ofString_quote, Json.ofString_brackets]
  obtain ⟨t, ht⟩ := hdump
  exact utf8_object (ht ▸ utf8_of_canonicalBytes h)

theorem break_notMem (h : canonicalBytes c.toJson = .ok bs) : (10 : Byte) ∉ bs := fun hmem => by
  have := canonicalBytes_noBreak h 10 hmem
  simp at this

/-- A cosignature's line is decoded as nothing but its members. -/
theorem loadsStrict_eq (h : canonicalBytes c.toJson = .ok bs) {room : ℕ} {v : Json}
    (hv : loadsStrict room bs = .ok v) : v = .obj c.members := by
  obtain ⟨cs, rfl⟩ := bytes_eq_cons h
  unfold loadsStrict Json.loadsBytes at hv
  rw [decodeText_object, Text.utf8Decode_utf8 (utf8_of_canonicalBytes h)] at hv
  simp only at hv
  split at hv
  · rename_i w hw
    rw [← Except.ok.inj hv]
    exact Json.loads_dump_eq hw
  · cases hv

/-- A well-formed cosignature is within the decoder's bounds. -/
theorem readable_members (hc : c.WellFormed) (spare : ℕ) :
    Json.Readable (spare + 2) (.obj c.members) := by
  have hsize : (decimalDigits c.treeSize.natAbs).length ≤ Json.maxDigits := by
    refine length_decimalDigits_of_safe ⟨le_trans ?_ hc.treeSize.1, hc.treeSize.2⟩
    unfold maxSafeInteger
    omega
  have hsig : Json.Readable (spare + 1) (signatureJson c.signature) := by
    cases hs : c.signature with
    | none => simp [signatureJson, Json.Readable]
    | some s =>
      have hversion : s.version = 1 ∨ s.version = 2 := (hc.signature s hs).version
      rcases hversion with hv | hv <;>
        simp [signatureJson, hv, Json.Readable, Json.ReadableMembers] <;> decide
  have hkeys : (c.members.map Prod.fst).Nodup := by
    simp only [members, List.map_cons, List.map_nil]
    decide
  refine ⟨by omega, hkeys, ?_⟩
  simp only [members, Json.ReadableMembers, Json.Readable, hsize, and_true, true_and]
  exact hsig

/-- The line of a well-formed cosignature is read back. -/
theorem loadsStrict_bytes (hc : c.WellFormed) (h : canonicalBytes c.toJson = .ok bs)
    (spare : ℕ) : loadsStrict (spare + 2) bs = .ok (.obj c.members) := by
  have hord := ordered_toJson c
  have hreadable : Json.Readable (spare + 2) (ordered c.toJson) := hord ▸ readable_members hc spare
  rw [loadsStrict_canonicalBytes h hreadable hord, hord]

end Cosignature

theorem readCosignature_eq_ok {path : Text} {room number : ℕ} {line : List Byte}
    {c : Cosignature} : readCosignature path room number line = .ok c ↔
      ∃ v, loadsStrict room line = .ok v ∧
        Cosignature.fromJson v (txt "line " ++ decimalDigits number) = .ok c := by
  rw [← bind_eq_ok]
  unfold readCosignature
  cases loadsStrict room line >>= fun v =>
    Cosignature.fromJson v (txt "line " ++ decimalDigits number) <;> simp [Except.mapError]

/-- Lines that are not blank are read as they are, and an unfinished one is left out. -/
theorem readCompleteLines_join {bss : List (List Byte)} {torn : List Byte}
    (hbreak : ∀ bs ∈ bss, (10 : Byte) ∉ bs) (hblank : ∀ bs ∈ bss, ∃ b ∈ bs, isSpaceByte b = false)
    (htorn : (10 : Byte) ∉ torn) : readCompleteLines (joinLines 10 bss ++ torn) = bss := by
  have hkeep : bss.filter (fun line => !line.all isSpaceByte) = bss := by
    rw [List.filter_eq_self]
    intro bs hbs
    obtain ⟨b, hb, hspace⟩ := hblank bs hbs
    simp only [Bool.not_eq_true', List.all_eq_false]
    exact ⟨b, hb, by simp [hspace]⟩
  rw [readCompleteLines, complete_join bss htorn, splitOn_join hbreak, List.filter_append, hkeep]
  simp

/-- Where every line is read as a cosignature, the lines are. -/
theorem readLines_map {path : Text} {room : ℕ} {cs : List Cosignature}
    (bytes : Cosignature → List Byte)
    (h : ∀ c ∈ cs, ∀ number, readCosignature path room number (bytes c) = .ok c) (number : ℕ) :
    readLines path room number (cs.map bytes) = .ok cs := by
  induction cs generalizing number with
  | nil => rfl
  | cons c cs ih =>
    simp only [List.map_cons, readLines, h c (by simp) number,
      ih (fun d hd => h d (by simp [hd])) (number + 1), bind, Except.bind]
    rfl

end AgentGov.Receipts
