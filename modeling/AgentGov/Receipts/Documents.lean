import AgentGov.Receipts.Disclosures
import AgentGov.Receipts.Domains
import AgentGov.Receipts.Ed25519
import AgentGov.Receipts.Survival

/-!
# Receipts as a log sees them

The two kinds of documents a log holds, action receipts and delivery receipts, with what the log
reads of them: their id, their place, what a delivery binds, and their signature
(`src/src/agentgov/receipts/schema.py`, lines 925–998, 1000–1125 and 1340–1640). The rest of what
a receipt states is carried as it is written. Keys are those of the package, which can be compared
(`src/src/agentgov/receipts/signing.py`, lines 177–238 and 319–402).

## Main definitions

* `AgentGov.Receipts.LogKey`, `AgentGov.Receipts.LogSigner`, `AgentGov.Receipts.KeyTable`: keys
  that can be compared, what signs for one, and a keyring of them.
* `AgentGov.Receipts.LogDocument`: the documents, with `LogDocument.withLogAnchor`,
  `LogDocument.sign`, `LogDocument.verify` and `LogDocument.canonical`.
* `AgentGov.Receipts.Leaf`: a document together with its line.
* `AgentGov.Receipts.ActionBinding`: which action receipt a delivery follows from.

## Main results

* `AgentGov.Receipts.verify_of_sign`: what a key signs of a document verifies under it.
* `AgentGov.Receipts.exists_canonical_of_sign`: a document that can be signed has a line.
-/

namespace AgentGov.Receipts

open Foundation

/-! ### Keys that can be compared -/

deriving instance DecidableEq for HmacKey

/-- `_ed25519_key_id`. -/
def ed25519KeyId (raw : List Byte) : Text :=
  (toHex (sha256 ((txt "ARC1/ed25519/v1\n").ascii ++ raw))).take 16

/-- The keys of the package: `Ed25519PublicKey`, by its 32 bytes, and `HmacKey`. -/
inductive LogKey
  | ed25519 (raw : {bs : List Byte // bs.length = 32})
  | hmac (key : HmacKey)
deriving DecidableEq

namespace LogKey

/-- The key as what checks its signatures. -/
def verifier : LogKey → Verifier
  | ed25519 raw =>
    { alg := algEd25519
      keyId := ed25519KeyId raw
      verify := Ed25519.verify raw }
  | hmac key => key.verifier

/-- `alg`. -/
def alg (key : LogKey) : Text := key.verifier.alg

/-- `key_id`. -/
def keyId (key : LogKey) : Text := key.verifier.keyId

/-- `getattr(key, "raw", None)`: the bytes of a public key. -/
def raw? : LogKey → Option {bs : List Byte // bs.length = 32}
  | ed25519 raw => some raw
  | hmac _ => none

end LogKey

/-- A signer and `verifier_of` it, a key of the package. -/
structure LogSigner where
  signer : Signer
  /-- `signature_version`: the version it prefers, 1 where it states none. -/
  signatureVersion : ℕ
  key : LogKey
  publicKey : signer.publicKey = key.verifier

/-- `Keyring`, of keys that can be compared. -/
structure KeyTable where
  keys : List LogKey
  distinct : (keys.map LogKey.keyId).Nodup

namespace KeyTable

/-- `Keyring([key])`. -/
def single (key : LogKey) : KeyTable := ⟨[key], List.nodup_singleton _⟩

/-- `get`. -/
def get (table : KeyTable) (keyId : Text) : Option LogKey :=
  table.keys.find? fun key => key.keyId = keyId

theorem get_eq_none {table : KeyTable} {keyId : Text} (h : table.get keyId = none) :
    keyId ∉ table.keys.map LogKey.keyId := by
  intro hmem
  obtain ⟨key, hkey, rfl⟩ := List.mem_map.mp hmem
  have := List.find?_eq_none.mp h key hkey
  simp at this

theorem distinct_append {table : KeyTable} {key : LogKey} (h : table.get key.keyId = none) :
    ((table.keys ++ [key]).map LogKey.keyId).Nodup := by
  rw [List.map_append, List.map_singleton]
  refine List.nodup_append.mpr ⟨table.distinct, List.nodup_singleton _, ?_⟩
  intro a ha b hb hab
  obtain rfl := List.mem_singleton.mp hb
  exact get_eq_none h (hab ▸ ha)

/-- `add`. -/
def add (table : KeyTable) (key : LogKey) : Except Fault KeyTable :=
  if h : table.get key.keyId = none then .ok ⟨table.keys ++ [key], distinct_append h⟩
  else if table.get key.keyId = some key then .ok table
  else .error (.valueError (txt "two different keys have id " ++ key.keyId ++
    txt "; a key id names one key"))

/-- The table as a keyring. -/
def keyring (table : KeyTable) : Keyring :=
  ⟨table.keys.map LogKey.verifier, by rw [List.map_map]; exact table.distinct⟩

theorem keyId_of_get {table : KeyTable} {keyId : Text} {key : LogKey}
    (h : table.get keyId = some key) : key.keyId = keyId := by
  simpa using List.find?_some h

theorem get_keyId {table : KeyTable} {key : LogKey} (h : key ∈ table.keys) :
    table.get key.keyId = some key := by
  cases hget : table.get key.keyId with
  | none => exact absurd (List.mem_map_of_mem h) (get_eq_none hget)
  | some other =>
    have hmem := List.mem_of_find?_eq_some hget
    rw [List.inj_on_of_nodup_map table.distinct hmem h (keyId_of_get hget)]

theorem keyring_get (table : KeyTable) (keyId : Text) :
    table.keyring.get keyId = (table.get keyId).map LogKey.verifier := by
  rw [Keyring.get, keyring, get, List.find?_map]
  rfl

/-- A key that was added is the one of its id, and the keys held are the ones they were. -/
theorem get_of_add {table table' : KeyTable} {key : LogKey} (h : table.add key = .ok table') :
    table'.get key.keyId = some key ∧
      ∀ keyId held, table.get keyId = some held → table'.get keyId = some held := by
  rw [add] at h
  split_ifs at h with hnone hsame
  · obtain rfl := Except.ok.inj h
    refine ⟨get_keyId (by simp), fun keyId held hheld => ?_⟩
    rw [get, List.find?_append, show List.find? _ table.keys = _ from hheld, Option.some_or]
  · obtain rfl := Except.ok.inj h
    exact ⟨hsame, fun _ _ hheld => hheld⟩

end KeyTable

/-! ### The places of a receipt -/

/-- `ChainAnchor`: a position in another hash chain. -/
structure ChainAnchor where
  seq : ℤ
  head : Text
deriving DecidableEq

/-- `ChainAnchor.to_json`. -/
def ChainAnchor.toJson (a : ChainAnchor) : Json :=
  .obj [(txt "seq", .int a.seq), (txt "head", .str a.head)]

/-- `LogAnchor`: which log a receipt is a leaf of, and at which index. -/
structure LogAnchor where
  logId : Text
  leafIndex : ℕ
deriving DecidableEq

/-- `LogAnchor.to_json`. -/
def LogAnchor.toJson (a : LogAnchor) : Json :=
  .obj [(txt "log_id", .str a.logId), (txt "leaf_index", .int a.leafIndex)]

/-- `Anchors`: where a receipt sits in the ledger, the escrow chain and the log. -/
structure Anchors where
  agentgov : Option ChainAnchor
  escrow : Option ChainAnchor
  log : Option LogAnchor
deriving DecidableEq

/-- `Anchors.to_json`. -/
def Anchors.toJson (a : Anchors) : Json :=
  .obj [(txt "agentgov", (a.agentgov.map ChainAnchor.toJson).getD .null),
    (txt "escrow", (a.escrow.map ChainAnchor.toJson).getD .null),
    (txt "log", (a.log.map LogAnchor.toJson).getD .null)]

/-! ### The documents -/

/-- `ActionReceipt`: its id, its anchors and its signature, and every other field as written. -/
structure ActionReceipt where
  receiptId : Text
  fields : List (Text × Json)
  anchors : Anchors
  signature : Option Signature

/-- `ActionBinding`: the action receipt a delivery follows from. -/
structure ActionBinding where
  receiptId : Text
  logId : Text
  leafIndex : ℕ
  leafHash : Text

/-- `ActionBinding.to_json`. -/
def ActionBinding.toJson (b : ActionBinding) : Json :=
  .obj [(txt "receipt_id", .str b.receiptId), (txt "log_id", .str b.logId),
    (txt "leaf_index", .int b.leafIndex), (txt "leaf_hash", .str b.leafHash)]

/-- `DeliveryReceipt`, which claims no place in the log of its action receipt at or before the
place of that. -/
structure DeliveryReceipt where
  receiptId : Text
  action : ActionBinding
  fields : List (Text × Json)
  anchors : Anchors
  signature : Option Signature
  follows : ∀ place ∈ anchors.log, place.logId = action.logId → action.leafIndex < place.leafIndex

/-- `LogDocument`: what the leaves of a log are. -/
inductive LogDocument
  | action (receipt : ActionReceipt)
  | delivery (receipt : DeliveryReceipt)

namespace LogDocument

/-- `receipt_id`. -/
def receiptId : LogDocument → Text
  | action r => r.receiptId
  | delivery r => r.receiptId

/-- `anchors`. -/
def anchors : LogDocument → Anchors
  | action r => r.anchors
  | delivery r => r.anchors

/-- `signature`. -/
def signature : LogDocument → Option Signature
  | action r => r.signature
  | delivery r => r.signature

/-- The kind of a document, which is its domain. -/
def kind : LogDocument → Kind
  | action _ => .receipt
  | delivery _ => .delivery

/-- What a document is called where its signature is refused. -/
def called : LogDocument → Text
  | action _ => txt "receipt"
  | delivery _ => txt "delivery receipt"

/-- `body`. -/
def body : LogDocument → List (Text × Json)
  | action r =>
    [(txt "v", .str (txt "ARC1")), (txt "receipt_id", .str r.receiptId)] ++ r.fields ++
      [(txt "anchors", r.anchors.toJson)]
  | delivery r =>
    [(txt "v", .str (txt "ARC1-delivery")), (txt "receipt_id", .str r.receiptId),
      (txt "action", r.action.toJson)] ++ r.fields ++ [(txt "anchors", r.anchors.toJson)]

/-- `to_json`. -/
def toJson (d : LogDocument) : Json :=
  .obj (d.body ++ [(txt "sig", (d.signature.map Signature.toJson).getD .null)])

/-- `canonical`: the leaf data of a document. -/
def canonical (d : LogDocument) : Except Fault (List Byte) := canonicalBytes d.toJson

/-- `signing_input`. -/
def signingInput (d : LogDocument) : Text → Text → ℕ → Except Fault (List Byte) :=
  Receipts.signingInput d.kind.domain d.body

/-- A document with a signature. -/
def withSignature (s : Signature) : LogDocument → LogDocument
  | action r => action { r with signature := some s }
  | delivery r => delivery { r with signature := some s }

/-- `sign`. -/
def sign (d : LogDocument) (signer : Signer) (version : ℕ) : Except Fault LogDocument := do
  let message ← d.signingInput signer.alg signer.keyId version
  return d.withSignature ⟨signer.alg, signer.keyId, signer.sign message, version⟩

/-- `verify` under one key. -/
def verify (d : LogDocument) (key : Verifier) : Except Fault PUnit.{1} :=
  checkSignatureOf d.called d.signature key d.signingInput

/-- `verify` under a keyring. -/
def verifyUnder (d : LogDocument) (ring : Keyring) : Except Fault PUnit.{1} :=
  checkSignature d.called d.signature ring d.signingInput

/-- Why a delivery cannot be placed. -/
def notAfter (place index : ℕ) : Fault :=
  .malformed (txt "a delivery at leaf " ++ decimalDigits place ++
    txt " cannot follow from the action receipt at leaf " ++ decimalDigits index ++
    txt " of the same log: it was delivered after it was committed")

/-- `with_log_anchor`: an unsigned copy that claims a position. -/
def withLogAnchor (logId : Text) (leafIndex : ℕ) : LogDocument → Except Fault LogDocument
  | action r =>
    .ok (action { r with
      anchors := { r.anchors with log := some ⟨logId, leafIndex⟩ }
      signature := none })
  | delivery r =>
    if h : logId = r.action.logId → r.action.leafIndex < leafIndex then
      .ok (delivery { r with
        anchors := { r.anchors with log := some ⟨logId, leafIndex⟩ }
        signature := none
        follows := fun place hplace => by
          obtain rfl := Option.some.inj hplace
          exact h })
    else .error (notAfter leafIndex r.action.leafIndex)

@[simp] theorem receiptId_withSignature (s : Signature) (d : LogDocument) :
    (d.withSignature s).receiptId = d.receiptId := by cases d <;> rfl

@[simp] theorem anchors_withSignature (s : Signature) (d : LogDocument) :
    (d.withSignature s).anchors = d.anchors := by cases d <;> rfl

@[simp] theorem signature_withSignature (s : Signature) (d : LogDocument) :
    (d.withSignature s).signature = some s := by cases d <;> rfl

@[simp] theorem kind_withSignature (s : Signature) (d : LogDocument) :
    (d.withSignature s).kind = d.kind := by cases d <;> rfl

@[simp] theorem body_withSignature (s : Signature) (d : LogDocument) :
    (d.withSignature s).body = d.body := by cases d <;> rfl

@[simp] theorem signingInput_withSignature (s : Signature) (d : LogDocument) :
    (d.withSignature s).signingInput = d.signingInput := by
  rw [signingInput, signingInput, kind_withSignature, body_withSignature]

/-- A copy that claims a position names it, and is the same receipt otherwise. -/
theorem placed_of_withLogAnchor {d d' : LogDocument} {logId : Text} {index : ℕ}
    (h : d.withLogAnchor logId index = .ok d') :
    d'.receiptId = d.receiptId ∧ d'.anchors.log = some ⟨logId, index⟩ := by
  cases d with
  | action r =>
    obtain rfl := Except.ok.inj h
    exact ⟨rfl, rfl⟩
  | delivery r =>
    rw [withLogAnchor] at h
    split_ifs at h
    obtain rfl := Except.ok.inj h
    exact ⟨rfl, rfl⟩

end LogDocument

/-! ### Signing and checking -/

/-- What a valid signer signs verifies under its key. -/
theorem checkSignatureOf_sign {signer : LogSigner} (hvalid : signer.signer.Valid) (what : Text)
    {payload : Text → Text → ℕ → Except Fault (List Byte)} {message : List Byte} {version : ℕ}
    (h : payload signer.signer.alg signer.signer.keyId version = .ok message) :
    checkSignatureOf what (some ⟨signer.signer.alg, signer.signer.keyId,
      signer.signer.sign message, version⟩) signer.key.verifier payload = .ok ⟨⟩ := by
  rw [← signer.publicKey]
  simp only [checkSignatureOf, hvalid.publicAlg, hvalid.publicKeyId, h, hvalid.verifies, ne_eq,
    not_true_eq_false, if_false, if_true]

theorem LogSigner.keyId_eq {signer : LogSigner} (hvalid : signer.signer.Valid) :
    signer.signer.keyId = signer.key.keyId := by
  rw [← hvalid.publicKeyId, signer.publicKey]
  rfl

/-- What a key signs of a document verifies under it. -/
theorem verify_of_sign {signer : LogSigner} (hvalid : signer.signer.Valid)
    {d d' : LogDocument} {version : ℕ} (h : d.sign signer.signer version = .ok d') :
    d'.verify signer.key.verifier = .ok ⟨⟩ := by
  obtain ⟨message, hmessage, h⟩ := bind_eq_ok.mp h
  obtain rfl := Except.ok.inj h
  rw [LogDocument.verify, LogDocument.signature_withSignature]
  refine checkSignatureOf_sign hvalid _ ?_
  rw [LogDocument.signingInput_withSignature]
  exact hmessage

/-! ### What can be encoded -/

theorem plain_append_iff {s t : Text} : Plain (s ++ t) ↔ Plain s ∧ Plain t := by
  simp only [Plain, List.mem_append, or_imp, forall_and]

/-- What is encoded: its integers are safe, and nothing that is written is a surrogate. -/
theorem isOk_canonicalBytes {v : Json} : (canonicalBytes v).isOk = true ↔
    inDomain v = true ∧ Plain (Json.dump Json.quote (ordered v)) := by
  have hplain : Plain (Json.dump Json.quote (ordered v)) ↔
      (Text.utf8 (Json.dump Json.quote (ordered v))).isSome = true := by
    simp [Plain, Text.utf8_isSome]
  rw [hplain, canonicalBytes]
  cases inDomain v with
  | false => simp [Except.isOk, Except.toBool]
  | true => cases Text.utf8 (Json.dump Json.quote (ordered v)) <;> simp [Except.isOk, Except.toBool]

theorem membersInDomain_iff {fs : List (Text × Json)} :
    membersInDomain fs = true ↔ ∀ f ∈ fs, inDomain f.2 = true := by
  induction fs with
  | nil => simp [membersInDomain]
  | cons f fs ih => simp [membersInDomain, ih]

theorem plain_dumpFields {fs : List (Text × Json)} : Plain (Json.dumpFields Json.quote fs) ↔
    ∀ f ∈ fs, Plain (Json.quote f.1) ∧ Plain (Json.dump Json.quote f.2) := by
  have hmarks : Plain (Text.ofString "\x7d") ∧ Plain (Text.ofString ",") ∧
      Plain (Text.ofString ":") :=
    ⟨plain_of_isAscii (by decide), plain_of_isAscii (by decide), plain_of_isAscii (by decide)⟩
  induction fs with
  | nil => simp [Json.dumpFields, hmarks]
  | cons f fs ih =>
    rw [Json.dumpFields]
    simp only [plain_append_iff, ih, hmarks, List.mem_cons, forall_eq_or_imp]
    tauto

theorem plain_dump_obj {fs : List (Text × Json)} : Plain (Json.dump Json.quote (.obj fs)) ↔
    ∀ f ∈ fs, Plain (Json.quote f.1) ∧ Plain (Json.dump Json.quote f.2) := by
  have hmarks : Plain (Text.ofString "\x7b\x7d") ∧ Plain (Text.ofString "\x7b") ∧
      Plain (Text.ofString ":") :=
    ⟨plain_of_isAscii (by decide), plain_of_isAscii (by decide), plain_of_isAscii (by decide)⟩
  cases fs with
  | nil => simp [Json.dump, hmarks]
  | cons f fs =>
    rw [Json.dump]
    simp only [plain_append_iff, plain_dumpFields, hmarks, List.mem_cons, forall_eq_or_imp]
    tauto

/-- An object is encoded where its keys and its values are. -/
theorem isOk_canonicalBytes_obj {fs : List (Text × Json)} :
    (canonicalBytes (.obj fs)).isOk = true ↔
      ∀ f ∈ fs, Plain (Json.quote f.1) ∧ (canonicalBytes f.2).isOk = true := by
  have hmem : ∀ g, g ∈ orderedMembers fs ↔ ∃ f ∈ fs, orderedMember f = g := by
    intro g
    rw [(perm_orderedMembers fs).mem_iff, List.mem_map]
  simp only [isOk_canonicalBytes, inDomain, ordered, membersInDomain_iff, plain_dump_obj, hmem]
  constructor
  · rintro ⟨hdomain, hplain⟩ f hf
    obtain ⟨hkey, hvalue⟩ := hplain (orderedMember f) ⟨f, hf, rfl⟩
    exact ⟨hkey, hdomain f hf, hvalue⟩
  · intro h
    refine ⟨fun f hf => (h f hf).2.1, ?_⟩
    rintro g ⟨f, hf, rfl⟩
    exact ⟨(h f hf).1, (h f hf).2.2⟩

theorem isOk_canonicalBytes_str {t : Text} (h : t.all Text.isAscii = true) :
    (canonicalBytes (.str t)).isOk = true := by
  rw [isOk_canonicalBytes]
  refine ⟨rfl, ?_⟩
  rw [ordered, Json.dump, Json.quote]
  refine plain_append_iff.mpr ⟨plain_append_iff.mpr ⟨plain_of_isAscii (by decide), ?_⟩,
    plain_of_isAscii (by decide)⟩
  refine plain_of_isAscii (List.all_eq_true.mpr fun d hd => ?_)
  obtain ⟨c, hc, hcd⟩ := List.mem_flatMap.mp hd
  have hascii := List.all_eq_true.mp h c hc
  exact Json.isAscii_quoteChar (by simpa [Text.isAscii] using hascii) hcd

theorem all_isAscii_hex (bs : List Byte) : (toHex bs).all Text.isAscii = true := by
  refine List.all_eq_true.mpr fun c hc => ?_
  have := isHexDigit_of_mem_toHex hc
  simp only [isHexDigit, Bool.or_eq_true, Bool.and_eq_true, decide_eq_true_eq] at this
  simp only [Text.isAscii, decide_eq_true_eq]
  omega

/-- A signature is encoded where what is signed for it is. -/
theorem isOk_signature {alg keyId : Text} {version : ℕ} (value : List Byte)
    (hversion : version = 1 ∨ version = 2)
    (h : (canonicalBytes (headerOf alg keyId version)).isOk = true) :
    (canonicalBytes (Signature.toJson ⟨alg, keyId, value, version⟩)).isOk = true := by
  have hkey : Plain (Json.quote (txt "signature")) := plain_of_isAscii (by decide)
  have hhex := isOk_canonicalBytes_str (all_isAscii_hex value)
  rw [headerOf, isOk_canonicalBytes_obj] at h
  rw [Signature.toJson, isOk_canonicalBytes_obj]
  rcases hversion with rfl | rfl
  · simp only [ne_eq, not_true_eq_false, if_false, List.append_nil, OfNat.one_ne_ofNat] at h ⊢
    intro f hf
    rcases List.mem_append.mp hf with hf | hf
    · exact h f hf
    · obtain rfl := List.mem_singleton.mp hf
      exact ⟨hkey, hhex⟩
  · simp only [ne_eq, OfNat.ofNat_ne_one, not_false_eq_true, if_true] at h ⊢
    intro f hf
    rcases List.mem_append.mp hf with hf | hf
    · exact h f hf
    · obtain rfl := List.mem_singleton.mp hf
      exact ⟨hkey, hhex⟩

/-- A document that can be signed has a line. -/
theorem exists_canonical_of_sign {d d' : LogDocument} {signer : Signer} {version : ℕ}
    (h : d.sign signer version = .ok d') : ∃ line, d'.canonical = .ok line := by
  obtain ⟨message, hmessage, h⟩ := bind_eq_ok.mp h
  obtain rfl := Except.ok.inj h
  obtain ⟨cs, hcs, hversion⟩ := signingInput_eq_ok hmessage
  refine exists_of_isOk ?_
  have hall := isOk_canonicalBytes_obj.mp (isOk_of_eq hcs)
  rw [LogDocument.canonical, LogDocument.toJson, LogDocument.body_withSignature,
    LogDocument.signature_withSignature, isOk_canonicalBytes_obj]
  intro f hf
  rcases List.mem_append.mp hf with hf | hf
  · exact hall f (List.mem_append_left _ hf)
  · obtain rfl := List.mem_singleton.mp hf
    obtain ⟨hkey, hheader⟩ := hall _ (List.mem_append_right _ (List.mem_singleton.mpr rfl))
    exact ⟨hkey, isOk_signature _ (hversion.imp And.left And.left) hheader⟩

/-! ### Leaves -/

/-- A document with its line, the leaf data of a log. -/
structure Leaf where
  document : LogDocument
  line : List Byte
  canonical : document.canonical = .ok line

namespace Leaf

/-- A document as a leaf, where it has a line. -/
def of (d : LogDocument) : Except Fault Leaf :=
  match h : d.canonical with
  | .ok line => .ok ⟨d, line, h⟩
  | .error e => .error e

/-- `leaf_hash`. -/
def hash (leaf : Leaf) : List Byte := leafHash leaf.line

/-- `receipt_id`. -/
def receiptId (leaf : Leaf) : Text := leaf.document.receiptId

/-- Whether a leaf is signed and claims a position of a log. -/
def Placed (leaf : Leaf) (logId : Text) (index : ℕ) : Prop :=
  leaf.document.signature ≠ none ∧ leaf.document.anchors.log = some ⟨logId, index⟩

theorem of_eq_ok {d : LogDocument} {leaf : Leaf} (h : of d = .ok leaf) : leaf.document = d := by
  unfold of at h
  split at h
  · obtain rfl := Except.ok.inj h
    rfl
  · cases h

/-- What was signed for a position is a leaf of that position. -/
theorem placed_of_sign {d d' : LogDocument} {signer : Signer} {version : ℕ} {logId : Text}
    {index : ℕ} (hplace : d.anchors.log = some ⟨logId, index⟩)
    (h : d.sign signer version = .ok d') {leaf : Leaf} (hleaf : leaf.document = d') :
    leaf.Placed logId index ∧ leaf.receiptId = d.receiptId := by
  obtain ⟨message, -, h⟩ := bind_eq_ok.mp h
  obtain rfl := Except.ok.inj h
  refine ⟨⟨?_, ?_⟩, ?_⟩
  · rw [hleaf, LogDocument.signature_withSignature]
    exact Option.some_ne_none _
  · rw [hleaf, LogDocument.anchors_withSignature]
    exact hplace
  · rw [receiptId, hleaf, LogDocument.receiptId_withSignature]

end Leaf

/-! ### What a delivery binds -/

/-- Why an action receipt is not the one a delivery binds. -/
inductive BindingProblem
  | receipt
  | place
  | hash
deriving DecidableEq

/-- `ActionBinding.problem`: why an action receipt is not the one bound, if it is not. -/
def ActionBinding.problem (b : ActionBinding) (r : ActionReceipt) (hash : List Byte) :
    Option BindingProblem :=
  if r.receiptId ≠ b.receiptId then some .receipt
  else if r.anchors.log ≠ some ⟨b.logId, b.leafIndex⟩ then some .place
  else if toHex hash ≠ b.leafHash then some .hash
  else none

/-- Whether a leaf is the action receipt a delivery binds, to its exact bytes. -/
structure ActionBinding.Binds (b : ActionBinding) (leaf : Leaf) : Prop where
  action : ∃ r, leaf.document = .action r
  receiptId : leaf.receiptId = b.receiptId
  place : leaf.document.anchors.log = some ⟨b.logId, b.leafIndex⟩
  hash : toHex leaf.hash = b.leafHash

theorem ActionBinding.binds_of_problem {b : ActionBinding} {leaf : Leaf} {r : ActionReceipt}
    (hr : leaf.document = .action r) (h : b.problem r leaf.hash = none) : b.Binds leaf := by
  rw [problem] at h
  split_ifs at h with hid hplace hhash
  push Not at hid hplace hhash
  exact ⟨⟨r, hr⟩, by rw [Leaf.receiptId, hr]; exact hid, by rw [hr]; exact hplace, hhash⟩

end AgentGov.Receipts
