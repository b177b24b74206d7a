import AgentGov.Foundation.Checked
import AgentGov.Foundation.Sha512
import AgentGov.Receipts.Fields

/-!
# Signatures, checkpoints and cosignatures

What a log signs of its size and root, what a witness signs of having seen it, and how a signature
is made, written and checked (`src/src/agentgov/receipts/schema.py`, lines 330–450 and 1574–1738,
and `src/src/agentgov/receipts/signing.py`). Keys are functions: a verifier is its algorithm, its
key id and what it accepts.

## Main definitions

* `AgentGov.Receipts.Verifier`, `AgentGov.Receipts.Signer`, `AgentGov.Receipts.Keyring`: keys.
* `AgentGov.Receipts.Signature`, `AgentGov.Receipts.signingInput`,
  `AgentGov.Receipts.checkSignature`.
* `AgentGov.Receipts.Checkpoint`, `AgentGov.Receipts.Cosignature`: the documents.

## Main results

* `AgentGov.Receipts.Cosignature.head_of_fromJson`: what is read of a written cosignature is of
  the head that was written.
* `AgentGov.Receipts.Cosignature.fromJson_members`: a well-formed cosignature is read back.
-/

namespace AgentGov.Receipts

open Foundation

/-! ### Keys -/

/-- `ALG_ED25519`. -/
def algEd25519 : Text := txt "ed25519"

/-- `ALG_HMAC_SHA256`. -/
def algHmacSha256 : Text := txt "hmac-sha256"

/-- `_SIGNATURE_BYTES`: how long a signature of an algorithm is. -/
def signatureBytes (alg : Text) : Option ℕ :=
  if alg = algEd25519 then some 64 else if alg = algHmacSha256 then some 32 else none

/-- `Verifier`: something that checks the signatures of one key. -/
structure Verifier where
  alg : Text
  keyId : Text
  /-- Whether a signature of a message is this key's. -/
  verify : List Byte → List Byte → Bool

/-- `Signer`: something that signs. -/
structure Signer where
  alg : Text
  keyId : Text
  sign : List Byte → List Byte
  /-- `public_key`: what checks its signatures. -/
  publicKey : Verifier

/-- `HMAC-SHA256`. -/
def hmacSha256 (secret message : List Byte) : List Byte :=
  let key := if 64 < secret.length then sha256 secret else secret
  let block := key ++ List.replicate (64 - key.length) 0
  let mask := fun n : ℕ => block.map fun b => Fin.ofNat 256 (Nat.xor b.val n)
  sha256 (mask 0x5C ++ sha256 (mask 0x36 ++ message))

/-- `HmacKey`: a shared key that checks what it signs. -/
structure HmacKey where
  secret : List Byte
  keyId : Text
  long : 32 ≤ secret.length

namespace HmacKey

/-- The key id of a secret, where no other is given. -/
def derived (secret : List Byte) : Text :=
  (toHex (hmacSha256 secret (txt "ARC1/key-id/v1").ascii)).take 16

/-- The key as a verifier. -/
def verifier (key : HmacKey) : Verifier where
  alg := algHmacSha256
  keyId := key.keyId
  verify message signature := hmacSha256 key.secret message == signature

/-- The key as a signer. -/
def signer (key : HmacKey) : Signer where
  alg := algHmacSha256
  keyId := key.keyId
  sign := hmacSha256 key.secret
  publicKey := key.verifier

end HmacKey

/-- `Keyring`: the keys trusted to have signed something, no two of one id. -/
structure Keyring where
  keys : List Verifier
  distinct : (keys.map Verifier.keyId).Nodup

namespace Keyring

/-- `Keyring.of` of one key. -/
def single (key : Verifier) : Keyring := ⟨[key], by simp⟩

/-- `get`: the key with an id. -/
def get (ring : Keyring) (keyId : Text) : Option Verifier :=
  ring.keys.find? fun key => key.keyId = keyId

end Keyring

/-! ### Signatures -/

/-- `Signature`: which key signed, with which algorithm, and the signature. -/
structure Signature where
  alg : Text
  keyId : Text
  value : List Byte
  version : ℕ
deriving DecidableEq

namespace Signature

/-- `to_json`. -/
def toJson (s : Signature) : Json :=
  .obj ([(txt "alg", .str s.alg), (txt "key_id", .str s.keyId)] ++
    (if s.version ≠ 1 then [(txt "sv", .int s.version)] else []) ++
    [(txt "signature", .str (toHex s.value))])

/-- Whether a text is lower-case hexadecimal of one byte or more. -/
def isHexBytes (t : Text) : Bool := t ≠ [] && t.length % 2 = 0 && t.all isHexDigit

/-- The version a signature's fields give. -/
def versionOf (f : Fields) : Except Fault ℕ :=
  if f.has (txt "sv") then
    match f.raw (txt "sv") with
    | .int 2 => .ok 2
    | _ => .error (.malformed
        (f.pathOf (txt "sv") ++ txt " must be 2: a version 1 signature has no sv"))
  else .ok 1

/-- The bytes of a signature, as many as its algorithm has. -/
def valueOf (f : Fields) (alg : Text) (size : ℕ) : Except Fault (List Byte) :=
  match f.raw (txt "signature") with
  | .str t =>
    if isHexBytes t then
      let value := (fromHex t).getD []
      if value.length = size then .ok value
      else .error (.malformed (f.pathOf (txt "signature") ++ txt " is " ++
        decimalDigits value.length ++ txt " bytes; an " ++ alg ++ txt " signature is " ++
        decimalDigits size))
    else .error (.malformed (f.pathOf (txt "signature") ++ txt " must be lowercase hex"))
  | _ => .error (.malformed (f.pathOf (txt "signature") ++ txt " must be lowercase hex"))

/-- The algorithm a signature's fields name, and how long its signatures are. A list or an object
cannot be looked up among the algorithms. -/
def algOf (f : Fields) : Except Fault (Text × ℕ) :=
  match f.raw (txt "alg") with
  | .str alg =>
    match signatureBytes alg with
    | some size => .ok (alg, size)
    | none => .error (.malformed
        (f.pathOf (txt "alg") ++ txt " must be 'ed25519' or 'hmac-sha256'"))
  | .arr _ => .error .typeError
  | .obj _ => .error .typeError
  | _ => .error (.malformed
      (f.pathOf (txt "alg") ++ txt " must be 'ed25519' or 'hmac-sha256'"))

/-- `Signature.from_json`. -/
def fromJson (f : Fields) : Except Fault Signature := do
  let (alg, size) ← algOf f
  let keyId ← checkPattern (f.raw (txt "key_id")) (isHexOf 16)
    (txt "16 lowercase hex characters") (f.pathOf (txt "key_id"))
  let value ← valueOf f alg size
  let version ← versionOf f
  return ⟨alg, keyId, value, version⟩

/-- `Signature.from_json(sig) if sig else None`. -/
def ofFields : Option Fields → Except Fault (Option Signature)
  | some f => (fromJson f).map some
  | none => .ok none

end Signature

/-- `_sig_fields`: a version 2 signature names its version. -/
def sigFields (value : Json) : List Text :=
  match value with
  | .obj fs =>
    if (member? (txt "sv") fs).isSome then
      [txt "alg", txt "key_id", txt "sv", txt "signature"]
    else [txt "alg", txt "key_id", txt "signature"]
  | _ => [txt "alg", txt "key_id", txt "signature"]

/-- `_domain_v2`: a document type's version 2 domain, `v2` for `v1`. -/
def domainV2 (domain : List Byte) : Except Fault (List Byte) :=
  let stem := domain.take (domain.length - 4)
  if domain = stem ++ (txt "/v1\n").ascii then .ok (stem ++ (txt "/v2\n").ascii)
  else .error (.valueError (txt "the domain is not a version 1 domain"))

/-- `_signing_input`: the bytes a signature of a document covers. -/
def signingInput (domain : List Byte) (body : List (Text × Json)) (alg keyId : Text)
    (version : ℕ) : Except Fault (List Byte) :=
  if version = 1 then do
    let bs ← canonicalBytes (.obj (body ++
      [(txt "sig", .obj [(txt "alg", .str alg), (txt "key_id", .str keyId)])]))
    return domain ++ bs
  else if version = 2 then do
    let stem ← domainV2 domain
    let bs ← canonicalBytes (.obj (body ++
      [(txt "sig", .obj [(txt "alg", .str alg), (txt "key_id", .str keyId),
        (txt "sv", .int 2)])]))
    return stem ++ sha512 bs
  else .error (.valueError (txt "signature version is not 1 or 2"))

/-- `_check_signature` under one key. -/
def checkSignatureOf (what : Text) (signature : Option Signature) (key : Verifier)
    (payload : Text → Text → ℕ → Except Fault (List Byte)) : Except Fault PUnit.{1} :=
  match signature with
  | none => .error (.signature (txt "the " ++ what ++ txt " is not signed"))
  | some s =>
    if s.alg ≠ key.alg then
      .error (.signature (txt "the " ++ what ++ txt " claims an " ++ s.alg ++
        txt " signature but the key given is " ++ key.alg ++
        txt "; a verifier never switches algorithm on the document's say-so"))
    else if s.keyId ≠ key.keyId then
      .error (.signature (txt "the " ++ what ++ txt " was signed by key " ++ s.keyId ++
        txt ", not by the key given (" ++ key.keyId ++ txt ")"))
    else
      match payload s.alg s.keyId s.version with
      | .error e => .error e
      | .ok message =>
        if key.verify message s.value then .ok ⟨⟩
        else .error (.signature (txt "the " ++ what ++ txt "'s " ++ s.alg ++
          txt " signature does not verify under key " ++ key.keyId ++
          txt ": it was altered after signing, or was never signed by that key"))

/-- `_check_signature` under a keyring: the key the signature names. -/
def checkSignature (what : Text) (signature : Option Signature) (ring : Keyring)
    (payload : Text → Text → ℕ → Except Fault (List Byte)) : Except Fault PUnit.{1} :=
  match signature with
  | none => .error (.signature (txt "the " ++ what ++ txt " is not signed"))
  | some s =>
    match ring.get s.keyId with
    | none => .error (.signature (txt "the " ++ what ++ txt " was signed by key " ++ s.keyId ++
        txt ", which is not among the keys given"))
    | some key => checkSignatureOf what signature key payload

/-- The signatures a decoder accepts: of a known algorithm and its length, under a key id of
sixteen digits. -/
structure Signature.WellFormed (s : Signature) : Prop where
  alg : signatureBytes s.alg = some s.value.length
  keyId : isHexOf 16 s.keyId = true
  version : s.version = 1 ∨ s.version = 2

/-! ### Documents -/

/-- `Checkpoint`: a log's signed statement of its size and root. -/
structure Checkpoint where
  logId : Text
  treeSize : ℤ
  rootHash : Text
  issuedAt : Instant
  signature : Option Signature
deriving DecidableEq

namespace Checkpoint

/-- `CHECKPOINT_DOMAIN`. -/
def domain : List Byte := (txt "ARC1/checkpoint/v1\n").ascii

/-- `body`. -/
def body (c : Checkpoint) : List (Text × Json) :=
  [(txt "v", .str (txt "ARC1-checkpoint")), (txt "log_id", .str c.logId),
    (txt "tree_size", .int c.treeSize), (txt "root_hash", .str c.rootHash),
    (txt "issued_at", .str (instantText c.issuedAt))]

/-- `signing_input`. -/
def signingInput (c : Checkpoint) : Text → Text → ℕ → Except Fault (List Byte) :=
  Receipts.signingInput domain c.body

/-- `sign`. -/
def sign (c : Checkpoint) (signer : Signer) (version : ℕ) : Except Fault Checkpoint := do
  let message ← c.signingInput signer.alg signer.keyId version
  return { c with signature := some ⟨signer.alg, signer.keyId, signer.sign message, version⟩ }

/-- `verify`. -/
def verify (c : Checkpoint) (ring : Keyring) : Except Fault PUnit.{1} :=
  checkSignature (txt "checkpoint") c.signature ring c.signingInput

end Checkpoint

/-- `Cosignature`: a witness's signed statement that it saw a log at a size and root. -/
structure Cosignature where
  witnessId : Text
  logId : Text
  treeSize : ℤ
  rootHash : Text
  witnessedAt : Instant
  signature : Option Signature
deriving DecidableEq

namespace Cosignature

/-- `COSIGNATURE_DOMAIN`. -/
def domain : List Byte := (txt "ARC1/cosignature/v1\n").ascii

/-- `body`. -/
def body (c : Cosignature) : List (Text × Json) :=
  [(txt "v", .str (txt "ARC1-cosignature")), (txt "witness_id", .str c.witnessId),
    (txt "log_id", .str c.logId), (txt "tree_size", .int c.treeSize),
    (txt "root_hash", .str c.rootHash), (txt "witnessed_at", .str (instantText c.witnessedAt))]

/-- `to_json`. -/
def toJson (c : Cosignature) : Json :=
  .obj (c.body ++ [(txt "sig", (c.signature.map Signature.toJson).getD .null)])

/-- `signing_input`. -/
def signingInput (c : Cosignature) : Text → Text → ℕ → Except Fault (List Byte) :=
  Receipts.signingInput domain c.body

/-- `sign`. -/
def sign (c : Cosignature) (signer : Signer) (version : ℕ) : Except Fault Cosignature := do
  let message ← c.signingInput signer.alg signer.keyId version
  return { c with signature := some ⟨signer.alg, signer.keyId, signer.sign message, version⟩ }

/-- `verify` under one key. -/
def verify (c : Cosignature) (key : Verifier) : Except Fault PUnit.{1} :=
  checkSignatureOf (txt "cosignature") c.signature key c.signingInput

/-- `from_json`. -/
def fromJson (value : Json) (path : Text) : Except Fault Cosignature := do
  let f ← Fields.ofJson value path
    [txt "v", txt "witness_id", txt "log_id", txt "tree_size", txt "root_hash",
      txt "witnessed_at", txt "sig"] []
  f.version (txt "ARC1-cosignature")
  let sig ← f.optionalChild (txt "sig") (sigFields (f.raw (txt "sig")))
  let witnessId ← f.text (txt "witness_id")
  let logId ← f.text (txt "log_id")
  let treeSize ← f.integer (txt "tree_size") 0
  let rootHash ← f.hex64 (txt "root_hash")
  let witnessedAt ← f.instant (txt "witnessed_at")
  let signature ← Signature.ofFields sig
  return ⟨witnessId, logId, treeSize, rootHash, witnessedAt, signature⟩

/-! ### What is written of a cosignature -/

/-- What is written of a signature, its keys in order. -/
def signatureJson : Option Signature → Json
  | none => .null
  | some s => .obj ([(txt "alg", .str s.alg), (txt "key_id", .str s.keyId),
      (txt "signature", .str (toHex s.value))] ++
      if s.version ≠ 1 then [(txt "sv", .int s.version)] else [])

/-- The members of a written cosignature, their keys in order. -/
def members (c : Cosignature) : List (Text × Json) :=
  [(txt "log_id", .str c.logId), (txt "root_hash", .str c.rootHash),
    (txt "sig", signatureJson c.signature), (txt "tree_size", .int c.treeSize),
    (txt "v", .str (txt "ARC1-cosignature")), (txt "witness_id", .str c.witnessId),
    (txt "witnessed_at", .str (instantText c.witnessedAt))]

theorem ordered_signature (s : Option Signature) :
    ordered ((s.map Signature.toJson).getD .null) = signatureJson s := by
  cases s with
  | none => rfl
  | some s =>
    by_cases h : s.version = 1
    · simp only [Option.map_some, Option.getD_some, Signature.toJson, signatureJson, h]
      rfl
    · simp only [Option.map_some, Option.getD_some, Signature.toJson, signatureJson, ne_eq, h,
        not_false_eq_true, if_true]
      rfl

theorem ordered_toJson (c : Cosignature) : ordered c.toJson = .obj c.members := by
  rw [members, ← ordered_signature]
  rfl

/-- The fields of a cosignature, by their names. -/
def names : List Text :=
  [txt "v", txt "witness_id", txt "log_id", txt "tree_size", txt "root_hash",
    txt "witnessed_at", txt "sig"]

theorem ofJson_members (c : Cosignature) (path : Text) :
    Fields.ofJson (.obj c.members) path names [] = .ok ⟨path, c.members⟩ := rfl

/-- What is read of a written cosignature is of the head that was written. -/
theorem head_of_fromJson {c d : Cosignature} {path : Text}
    (h : fromJson (.obj c.members) path = .ok d) :
    d.logId = c.logId ∧ d.treeSize = c.treeSize ∧ d.rootHash = c.rootHash := by
  unfold fromJson at h
  obtain ⟨f, hf, h⟩ := bind_eq_ok.mp h
  obtain rfl : ⟨path, c.members⟩ = f := Except.ok.inj ((ofJson_members c path).symm.trans hf)
  obtain ⟨-, -, h⟩ := bind_eq_ok.mp h
  obtain ⟨sig, -, h⟩ := bind_eq_ok.mp h
  obtain ⟨w, -, h⟩ := bind_eq_ok.mp h
  obtain ⟨l, hl, h⟩ := bind_eq_ok.mp h
  obtain ⟨n, hn, h⟩ := bind_eq_ok.mp h
  obtain ⟨r, hr, h⟩ := bind_eq_ok.mp h
  obtain ⟨t, -, h⟩ := bind_eq_ok.mp h
  obtain ⟨s, -, h⟩ := bind_eq_ok.mp h
  obtain rfl := Except.ok.inj h
  exact ⟨(Json.str.inj (Fields.text_eq_ok.mp hl).1).symm,
    (Json.int.inj (Fields.integer_eq_ok.mp hn).1).symm,
    (Json.str.inj (Fields.hex64_eq_ok.mp hr).1).symm⟩

/-- The cosignatures a decoder accepts. -/
structure WellFormed (c : Cosignature) : Prop where
  witnessId : isText c.witnessId = true
  logId : isText c.logId = true
  treeSize : 0 ≤ c.treeSize ∧ c.treeSize ≤ maxSafeInteger
  rootHash : isHexOf 64 c.rootHash = true
  signature : ∀ s ∈ c.signature, s.WellFormed

/-- A well-formed signature is read back from its fields. -/
theorem signature_fromJson {s : Signature} (hs : s.WellFormed) {f : Fields}
    (halg : f.raw (txt "alg") = .str s.alg) (hkey : f.raw (txt "key_id") = .str s.keyId)
    (hvalue : f.raw (txt "signature") = .str (toHex s.value))
    (hversion : Signature.versionOf f = .ok s.version) : Signature.fromJson f = .ok s := by
  have hpos : 0 < s.value.length := by
    have := hs.alg
    unfold signatureBytes at this
    split_ifs at this <;> simp at this <;> omega
  have hhex : Signature.isHexBytes (toHex s.value) = true := by
    have hne : toHex s.value ≠ [] := by
      intro h
      have := congrArg List.length h
      simp at this
      simp [this] at hpos
    have hall : (toHex s.value).all isHexDigit = true :=
      List.all_eq_true.mpr fun c hc => isHexDigit_of_mem_toHex hc
    simp [Signature.isHexBytes, hne, hall]
  have h1 : Signature.algOf f = .ok (s.alg, s.value.length) := by
    simp only [Signature.algOf, halg, hs.alg]
  have h2 : Signature.valueOf f s.alg s.value.length = .ok s.value := by
    simp [Signature.valueOf, hvalue, hhex]
  have h3 : ∀ what path, checkPattern (f.raw (txt "key_id")) (isHexOf 16) what path =
      .ok s.keyId := by
    intro what path
    simp [checkPattern, hkey, hs.keyId]
  simp only [Signature.fromJson, h1, h2, h3, hversion, bind, Except.bind]
  rfl

/-- A written signature is read back. -/
theorem ofFields_signatureJson {sig : Option Signature} (hs : ∀ s ∈ sig, s.WellFormed)
    {f : Fields} (hf : f.raw (txt "sig") = signatureJson sig) :
    ∃ g, f.optionalChild (txt "sig") (sigFields (f.raw (txt "sig"))) = .ok g ∧
      Signature.ofFields g = .ok sig := by
  rw [Fields.optionalChild, hf]
  cases sig with
  | none => exact ⟨none, rfl, rfl⟩
  | some s =>
    have hwell := hs s rfl
    rcases hwell.version with hv | hv
    · simp only [signatureJson, hv]
      refine ⟨some _, rfl, ?_⟩
      rw [Signature.ofFields, signature_fromJson hwell rfl rfl rfl (by rw [hv]; rfl)]
      rfl
    · simp only [signatureJson, hv]
      refine ⟨some _, rfl, ?_⟩
      rw [Signature.ofFields, signature_fromJson hwell rfl rfl rfl (by rw [hv]; rfl)]
      rfl

/-- A well-formed cosignature is read back. -/
theorem fromJson_members {c : Cosignature} (hc : c.WellFormed) (path : Text) :
    fromJson (.obj c.members) path = .ok c := by
  obtain ⟨g, hg, hsig⟩ := ofFields_signatureJson hc.signature (f := ⟨path, c.members⟩) rfl
  have hw : Fields.text ⟨path, c.members⟩ (txt "witness_id") = .ok c.witnessId :=
    Fields.text_eq_ok.mpr ⟨rfl, hc.witnessId⟩
  have hl : Fields.text ⟨path, c.members⟩ (txt "log_id") = .ok c.logId :=
    Fields.text_eq_ok.mpr ⟨rfl, hc.logId⟩
  have hn : Fields.integer ⟨path, c.members⟩ (txt "tree_size") 0 = .ok c.treeSize :=
    Fields.integer_eq_ok.mpr ⟨rfl, hc.treeSize⟩
  have hr : Fields.hex64 ⟨path, c.members⟩ (txt "root_hash") = .ok c.rootHash :=
    Fields.hex64_eq_ok.mpr ⟨rfl, hc.rootHash⟩
  have ht : Fields.instant ⟨path, c.members⟩ (txt "witnessed_at") = .ok c.witnessedAt :=
    Fields.instant_of_raw rfl
  have hv : Fields.version ⟨path, c.members⟩ (txt "ARC1-cosignature") = .ok ⟨⟩ := rfl
  have hf := ofJson_members c path
  unfold names at hf
  simp only [fromJson, hf, hv, hg, hw, hl, hn, hr, ht, hsig, bind, Except.bind]
  rfl

end Cosignature

end AgentGov.Receipts
