import AgentGov.Foundation.OrderedDict
import AgentGov.Receipts.Encoders
import AgentGov.Receipts.Heads
import AgentGov.Receipts.Tree

/-!
# Rows and their commitments

The rows a plan changed, the salted tree over them that a receipt commits to, and the rows an
issuer discloses of it (`src/src/agentgov/receipts/schema.py`, lines 2060–2275, and
`src/src/agentgov/receipts/rows.py`). A row is made of the values of a database by
`RowChange.fromValues`, committed to by `commitRows`, disclosed by `RowCommitment.disclose`, read
back by `RowDisclosure.loads` and checked by `verifyDisclosure`.

## Main definitions

* `AgentGov.Receipts.RowChange`: a row, its images as its operation has them.
* `AgentGov.Receipts.RowCommitment`: rows, their secret and the tree over them.
* `AgentGov.Receipts.RowDisclosure`, `AgentGov.Receipts.verifyDisclosure`.

## Main results

* `AgentGov.Receipts.RowCommitment.disclose_spec`: what is disclosed of a commitment.
-/

namespace AgentGov.Receipts

open Foundation Foundation.Merkle

/-! ### Rows -/

/-- `Scalar`: the value of a column. -/
inductive Scalar
  | null
  | bool (b : Bool)
  | int (n : ℤ)
  | str (t : Text)
deriving DecidableEq

/-- The values of a row's columns. -/
abbrev Image := Dict Text Scalar

/-- `RowOp`. -/
inductive RowOp
  | insert
  | update
  | delete
deriving DecidableEq

namespace RowOp

/-- How an operation is written. -/
def text : RowOp → Text
  | .insert => txt "insert"
  | .update => txt "update"
  | .delete => txt "delete"

/-- `_ROW_OPS`: the operation a text is. -/
def ofText? (t : Text) : Option RowOp :=
  [insert, update, delete].find? fun op => op.text = t

/-- Whether an operation has a before-image. -/
def hasBefore : RowOp → Bool
  | .insert => false
  | .update => true
  | .delete => true

/-- Whether an operation has an after-image. -/
def hasAfter : RowOp → Bool
  | .insert => true
  | .update => true
  | .delete => false

/-- `', '.join(_ROW_OPS)`. -/
def names : Text := txt "insert, update, delete"

theorem ofText?_text (op : RowOp) : ofText? op.text = some op := by
  cases op <;> decide

end RowOp

/-- `RowChange`: a row a plan inserted, updated or deleted. -/
structure RowChange where
  table : Text
  pk : Text
  op : RowOp
  tenant : Option Text := none
  before : Option Image := none
  after : Option Image := none
  /-- A row has the images of its operation. -/
  shaped : before.isSome = op.hasBefore ∧ after.isSome = op.hasAfter

namespace RowChange

/-- What `__post_init__` raises of images that are not those of the operation. -/
def misshapen (op : RowOp) : Fault :=
  .malformed ((if op = .delete then txt "a " else txt "an ") ++ op.text ++ txt " has " ++
    (if op.hasBefore then txt "a" else txt "no") ++ txt " before-image and " ++
    (if op.hasAfter then txt "an" else txt "no") ++ txt " after-image")

/-- `RowChange(...)`, of an operation there is. -/
def ofOp (table pk : Text) (op : RowOp) (tenant : Option Text) (before after : Option Image) :
    Except Fault RowChange :=
  if h : before.isSome = op.hasBefore ∧ after.isSome = op.hasAfter then
    .ok ⟨table, pk, op, tenant, before, after, h⟩
  else .error (misshapen op)

/-- `RowChange(...)`. -/
def init (table pk op : Text) (tenant : Option Text) (before after : Option Image) :
    Except Fault RowChange :=
  match RowOp.ofText? op with
  | none => .error (.malformed (txt "row op must be one of " ++ RowOp.names))
  | some op => ofOp table pk op tenant before after

end RowChange

/-! ### Rows of database values -/

/-- A value of a database. Of a number with a fraction, a decimal, an instant or another value, how
it is shown. -/
inductive Raw
  | null
  | bool (b : Bool)
  | str (t : Text)
  | int (n : ℤ)
  | float (shown : Text)
  | decimal (shown : Text)
  | bytes (bs : List Byte)
  | instant (shown : Text)
  | other (shown : Text)

/-- `_scalar`. -/
def scalar : Raw → Except Fault Scalar
  | .null => .ok .null
  | .bool b => .ok (.bool b)
  | .str t => .ok (.str t)
  | .int n =>
    if isSafe n then .ok (.int n)
    else if Json.maxDigits < (decimalDigits n.natAbs).length then
      .error (.valueError (txt "Exceeds the limit for integer string conversion"))
    else .ok (.str (intText n))
  | .float shown => .ok (.str shown)
  | .decimal shown => .ok (.str shown)
  | .bytes bs => .ok (.str (toHex bs))
  | .instant shown => .ok (.str shown)
  | .other shown => .ok (.str shown)

/-- `_normalize_image`, of columns as `str` shows them. -/
def normalizeImage : Option (List (Text × Raw)) → Except Fault (Option Image)
  | none => .ok none
  | some items => do
    let image ← items.foldlM (fun (image : Image) p => do .ok (image.set p.1 (← scalar p.2))) ∅
    .ok (some image)

/-- `from_values`: a row of database values, its key as `str` shows it. -/
def RowChange.fromValues (table pk : Text) (before after : Option (List (Text × Raw)))
    (tenant : Option Text) : Except Fault RowChange :=
  if before.isNone ∧ after.isNone then
    .error (.malformed (txt "a row change has a before-image, an after-image, or both"))
  else do
    let op := if before.isSome ∧ after.isSome then RowOp.update
      else if after.isSome then .insert else .delete
    ofOp table pk op tenant (← normalizeImage before) (← normalizeImage after)

/-! ### Rows as documents -/

/-- A column's value, as the encoder takes it. -/
def Scalar.toDatum : Scalar → Datum
  | .null => .none
  | .bool b => .bool b
  | .int n => .int n
  | .str t => .str t

/-- `dict(image)`, or `None`. -/
def imageDatum : Option Image → Datum
  | none => .none
  | some image => .mapping (image.items.map fun p => (.str p.1, p.2.toDatum))

/-- A text, or `None`. -/
def textDatum : Option Text → Datum
  | none => .none
  | some t => .str t

/-- `to_json`. -/
def RowChange.toJson (r : RowChange) : Datum :=
  .mapping [(.str (txt "table"), .str r.table), (.str (txt "pk"), .str r.pk),
    (.str (txt "op"), .str r.op.text), (.str (txt "tenant"), textDatum r.tenant),
    (.str (txt "before"), imageDatum r.before), (.str (txt "after"), imageDatum r.after)]

/-- A column's value, read. -/
def checkScalar (path : Text) : Json → Except Fault Scalar
  | .null => .ok .null
  | .bool b => .ok (.bool b)
  | .str t => .ok (.str t)
  | .int n => Scalar.int <$> checkInt (.int n) path (-maxSafeInteger)
  | _ => .error (.malformed (path ++ txt " must be a string, integer, boolean or null"))

/-- A column, read. -/
def checkColumn (path : Text) (m : Text × Json) : Except Fault (Text × Scalar) := do
  let column ← checkText (.str m.1) (path ++ txt " column name")
  let value ← checkScalar (path ++ txt "." ++ m.1) m.2
  .ok (column, value)

/-- `_check_image`. -/
def checkImage (value : Json) (path : Text) : Except Fault (Option Image) :=
  match value with
  | .null => .ok none
  | .obj fs => do
    let items ← fs.mapM (checkColumn path)
    .ok (some ((∅ : Image).setAll items))
  | _ => .error (.malformed (path ++ txt " must be an object of column values or null"))

/-- The fields of a row. -/
def RowChange.fields : List Text :=
  [txt "table", txt "pk", txt "op", txt "tenant", txt "before", txt "after"]

/-- The operation of a row, read. -/
def RowChange.opOf (f : Fields) : Except Fault RowOp :=
  match f.raw (txt "op") with
  | .str t =>
    match RowOp.ofText? t with
    | some op => .ok op
    | none => .error (.malformed (f.pathOf (txt "op") ++ txt " must be one of " ++ RowOp.names))
  | _ => .error (.malformed (f.pathOf (txt "op") ++ txt " must be one of " ++ RowOp.names))

/-- `RowChange.from_json`. -/
def RowChange.fromJson (value : Json) (path : Text) : Except Fault RowChange := do
  let f ← Fields.ofJson value path fields []
  let op ← opOf f
  let table ← f.text (txt "table")
  let pk ← f.text (txt "pk")
  let tenant ← f.optionalText (txt "tenant")
  let before ← checkImage (f.raw (txt "before")) (f.pathOf (txt "before"))
  let after ← checkImage (f.raw (txt "after")) (f.pathOf (txt "after"))
  ofOp table pk op tenant before after

/-! ### Disclosures -/

/-- `DisclosedRow`: a row, with what proves that it was committed to. -/
structure DisclosedRow where
  index : ℤ
  salt : List Byte
  row : RowChange
  auditPath : List Text

/-- `RowDisclosure`: rows of one receipt's commitment. -/
structure RowDisclosure where
  receiptId : Text
  rowRoot : Text
  rowCount : ℤ
  rows : List DisclosedRow

/-- `ROWS_VERSION`. -/
def rowsVersion : Text := txt "ARC1-rows"

/-- `to_json`. -/
def DisclosedRow.toJson (x : DisclosedRow) : Datum :=
  .mapping [(.str (txt "index"), .int x.index), (.str (txt "salt"), .str (toHex x.salt)),
    (.str (txt "row"), x.row.toJson),
    (.str (txt "audit_path"), .sequence (x.auditPath.map .str))]

/-- `to_json`. -/
def RowDisclosure.toJson (d : RowDisclosure) : Datum :=
  .mapping [(.str (txt "v"), .str rowsVersion), (.str (txt "receipt_id"), .str d.receiptId),
    (.str (txt "row_root"), .str d.rowRoot), (.str (txt "row_count"), .int d.rowCount),
    (.str (txt "rows"), .sequence (d.rows.map DisclosedRow.toJson))]

/-- The fields of a disclosed row. -/
def DisclosedRow.fields : List Text :=
  [txt "index", txt "salt", txt "row", txt "audit_path"]

/-- A disclosed row, read. -/
def DisclosedRow.fromJson (value : Json) (path : Text) : Except Fault DisclosedRow := do
  let r ← Fields.ofJson value path fields []
  let salt ← r.hex64 (txt "salt")
  let index ← r.integer (txt "index") 0
  let row ← RowChange.fromJson (r.raw (txt "row")) (path ++ txt ".row")
  let auditPath ← r.hashes (txt "audit_path")
  .ok ⟨index, (fromHex salt).getD [], row, auditPath⟩

/-- The fields of a disclosure. -/
def RowDisclosure.fields : List Text :=
  [txt "v", txt "receipt_id", txt "row_root", txt "row_count", txt "rows"]

/-- `RowDisclosure.from_json`. -/
def RowDisclosure.fromJson (value : Json) : Except Fault RowDisclosure := do
  let f ← Fields.ofJson value (txt "rows") fields []
  let _ ← f.version rowsVersion
  let items ← f.array (txt "rows")
  let rows ← items.zipIdx.mapM fun p =>
    DisclosedRow.fromJson p.1 (Fields.itemPath (txt "rows.rows") p.2)
  let receiptId ← f.uuid (txt "receipt_id")
  let rowRoot ← f.hex64 (txt "row_root")
  let rowCount ← f.integer (txt "row_count") 0
  .ok ⟨receiptId, rowRoot, rowCount, rows⟩

/-- `RowDisclosure.loads`. -/
def RowDisclosure.loads (room : ℕ) (bs : List Byte) : Except Fault RowDisclosure := do
  fromJson (← loadsStrict room bs)

/-! ### Commitments -/

/-- What committing to rows, or disclosing them, can raise. -/
inductive RowFault
  /-- `ValueError`, of a secret that is not 32 bytes. -/
  | secret
  /-- `OverflowError`, of an index that eight bytes do not hold. -/
  | overflow
  /-- What the encoding of a row raises. -/
  | encoding (failure : Failure)
  /-- `IndexError`. -/
  | index (message : Text)
  /-- `ValueError`, of a tree. -/
  | tree (message : String)

/-- `index.to_bytes(8, "big")`. -/
def uint64 (index : ℕ) : List Byte :=
  (List.range 8).map fun i => Fin.ofNat 256 (index / 256 ^ (7 - i))

/-- `row_salt`. -/
def rowSalt (secret : List Byte) (index : ℕ) : Except RowFault (List Byte) :=
  if index < 2 ^ 64 then .ok (hmacSha256 secret ((txt "ARC1/row-salt/v1\n").ascii ++ uint64 index))
  else .error .overflow

/-- `ROW_LEAF_DOMAIN`. -/
def rowLeafDomain : List Byte := (txt "ARC1/row/v1\n").ascii

/-- What the leaf of a row is the hash of. -/
def rowLeafData (salt : List Byte) (row : RowChange) : Except Failure (List Byte) := do
  .ok (rowLeafDomain ++ salt ++ (← canonicalBytesOf row.toJson))

/-- `row_leaf_hash`. -/
def rowLeafHash (salt : List Byte) (row : RowChange) : Except Failure (List Byte) := do
  .ok (leafHash (← rowLeafData salt row))

/-- The leaf of a row at an index. -/
def rowLeaf (secret : List Byte) (p : RowChange × ℕ) : Except RowFault (List Byte) := do
  let salt ← rowSalt secret p.2
  (rowLeafHash salt p.1).mapError .encoding

/-- The leaves of rows. -/
def rowLeaves (secret : List Byte) (rows : List RowChange) : Except RowFault (List (List Byte)) :=
  rows.zipIdx.mapM (rowLeaf secret)

/-- `RowCommitment`: rows, their secret and the tree over their leaves. -/
structure RowCommitment where
  rows : List RowChange
  secret : List Byte
  tree : MerkleTree
  committed : rowLeaves secret rows = .ok tree.leaves

/-! ### Trees keep their leaves -/

namespace MerkleTree

theorem leaves_of_root {t t' : MerkleTree} {size : Option ℤ} {r : List Byte}
    (h : t.root size = .ok (r, t')) : t'.leaves = t.leaves := by
  rw [root] at h
  obtain ⟨n, -, h⟩ := bind_eq_ok.mp h
  split_ifs at h
  · obtain ⟨-, rfl⟩ := Prod.mk.inj (Except.ok.inj h)
    rfl
  · obtain ⟨-, rfl⟩ := Prod.mk.inj (Except.ok.inj h)
    rfl

theorem leaves_of_inclusionProof {t t' : MerkleTree} {index : ℤ} {size : Option ℤ}
    {proof : List (List Byte)} (h : t.inclusionProof index size = .ok (proof, t')) :
    t'.leaves = t.leaves := by
  rw [inclusionProof] at h
  obtain ⟨n, -, h⟩ := bind_eq_ok.mp h
  split_ifs at h
  obtain ⟨-, rfl⟩ := Prod.mk.inj (Except.ok.inj h)
  rfl

theorem leaves_of_append {t t' : MerkleTree} {leaf : List Byte} {n : ℕ}
    (h : t.append leaf = .ok (n, t')) : t'.leaves = t.leaves ++ [leaf] := by
  rw [append] at h
  split_ifs at h
  obtain ⟨-, rfl⟩ := Prod.mk.inj (Except.ok.inj h)
  rfl

theorem leaves_of_ofLeaves {t : MerkleTree} {leaves : List (List Byte)}
    (h : ofLeaves leaves = .ok t) : t.leaves = leaves := by
  have hfold : ∀ (ls : List (List Byte)) (t₀ : MerkleTree),
      ls.foldlM (fun t leaf => Prod.snd <$> t.append leaf) t₀ = .ok t →
        t.leaves = t₀.leaves ++ ls := by
    intro ls
    induction ls with
    | nil =>
      intro t₀ h
      obtain rfl := Except.ok.inj h
      rw [List.append_nil]
    | cons leaf ls ih =>
      intro t₀ h
      rw [List.foldlM_cons] at h
      obtain ⟨t₁, hfirst, h⟩ := bind_eq_ok.mp h
      cases happ : t₀.append leaf with
      | error e => rw [happ] at hfirst; cases hfirst
      | ok r =>
        rw [happ] at hfirst
        obtain rfl := Except.ok.inj hfirst
        rw [ih _ h, leaves_of_append happ, List.append_assoc, List.singleton_append]
  exact hfold leaves init h

end MerkleTree

/-! ### Committing and disclosing -/

/-- `commit_rows`. -/
def commitRows (rows : List RowChange) (secret : List Byte) : Except RowFault RowCommitment :=
  if secret.length ≠ 32 then .error .secret
  else
    match hleaves : rowLeaves secret rows with
    | .error e => .error e
    | .ok leaves =>
      match htree : MerkleTree.ofLeaves leaves with
      | .error message => .error (.tree message)
      | .ok tree =>
        .ok ⟨rows, secret, tree, by rw [hleaves, MerkleTree.leaves_of_ofLeaves htree]⟩

namespace RowCommitment

variable (c : RowCommitment)

/-- `count`. -/
def count : ℕ := c.rows.length

/-- The commitment with more in its tree's cache. -/
def remember (tree : MerkleTree) (h : tree.leaves = c.tree.leaves) : RowCommitment :=
  { c with tree := tree, committed := h ▸ c.committed }

/-- `root`. -/
def root : Except RowFault (Text × RowCommitment) :=
  match h : c.tree.root none with
  | .error message => .error (.tree message)
  | .ok (r, tree) => .ok (toHex r, c.remember tree (MerkleTree.leaves_of_root h))

/-- A row disclosed. -/
def discloseRow (index : ℤ) : Except RowFault (DisclosedRow × RowCommitment) :=
  match c.rows[index.toNat]? with
  | none => .error (.index (txt "list index out of range"))
  | some row =>
    match rowSalt c.secret index.toNat with
    | .error e => .error e
    | .ok salt =>
      match h : c.tree.inclusionProof index none with
      | .error message => .error (.tree message)
      | .ok (path, tree) =>
        .ok (⟨index, salt, row, path.map toHex⟩,
          c.remember tree (MerkleTree.leaves_of_inclusionProof h))

/-- Rows disclosed, one after the other. -/
def discloseRows : RowCommitment → List ℤ → Except RowFault (List DisclosedRow × RowCommitment)
  | c, [] => .ok ([], c)
  | c, index :: rest => do
    let x ← c.discloseRow index
    let xs ← discloseRows x.2 rest
    .ok (x.1 :: xs.1, xs.2)

/-- `sorted(set(indices))`. -/
def chosen (indices : List ℤ) : List ℤ := indices.dedup.insertionSort (· ≤ ·)

/-- `disclose`. -/
def disclose (indices : List ℤ) (receiptId : Text) :
    Except RowFault (RowDisclosure × RowCommitment) :=
  match (chosen indices).find? fun index : ℤ => ¬(0 ≤ index ∧ index < c.count) with
  | some index =>
    .error (.index (txt "row " ++ intText index ++ txt " is not one of " ++
      decimalDigits c.count ++ txt " committed rows"))
  | none => do
    let root ← c.root
    let rows ← root.2.discloseRows (chosen indices)
    .ok (⟨receiptId, root.1, c.count, rows.1⟩, rows.2)

end RowCommitment

/-! ### Checking a disclosure -/

/-- What a disclosure is checked against of a receipt. -/
structure RowReceipt where
  receiptId : Text
  rowRoot : Text
  rowCount : ℤ

/-- What checking a disclosure can raise. -/
inductive DisclosureFault
  /-- `RowDisclosureError`. -/
  | refused (message : Text)
  /-- `ValueError`, of a text that is not hexadecimal. -/
  | notHex
  /-- What the encoding of a row raises. -/
  | encoding (failure : Failure)

/-- `bytes.fromhex`. -/
def bytesFromHex (t : Text) : Except DisclosureFault (List Byte) :=
  match fromHex t with
  | some bs => .ok bs
  | none => .error .notHex

/-- The check of one row, of a root. -/
def verifyRow (r : RowReceipt) (root : List Byte) (x : DisclosedRow) :
    Except DisclosureFault PUnit.{1} := do
  let leaf ← (rowLeafHash x.salt x.row).mapError .encoding
  let path ← x.auditPath.mapM bytesFromHex
  if verifyInclusion nodeHash leaf x.index r.rowCount path root then .ok ⟨⟩
  else .error (.refused (txt "row " ++ intText x.index ++ txt " (" ++ x.row.table ++ txt " " ++
    x.row.pk ++ txt ") is not the row the receipt committed to at that position: its contents, " ++
    txt "salt, index or audit path were altered"))

/-- The check of the rows, none of them twice. -/
def verifyRows (r : RowReceipt) (root : List Byte) :
    List ℤ → List DisclosedRow → Except DisclosureFault PUnit.{1}
  | _, [] => .ok ⟨⟩
  | seen, x :: rest =>
    if x.index ∈ seen then
      .error (.refused (txt "row " ++ intText x.index ++ txt " is disclosed twice"))
    else do
      let _ ← verifyRow r root x
      verifyRows r root (x.index :: seen) rest

/-- `verify_disclosure`. -/
def verifyDisclosure (d : RowDisclosure) (r : RowReceipt) :
    Except DisclosureFault PUnit.{1} :=
  if d.receiptId ≠ r.receiptId then
    .error (.refused (txt "the disclosure is for receipt " ++ d.receiptId ++ txt ", not " ++
      r.receiptId))
  else if d.rowRoot ≠ r.rowRoot ∨ d.rowCount ≠ r.rowCount then
    .error (.refused (txt "the disclosure is against a commitment of " ++ intText d.rowCount ++
      txt " rows with root " ++ d.rowRoot.take 16 ++ txt "; the receipt committed to " ++
      intText r.rowCount ++ txt " rows with root " ++ r.rowRoot.take 16))
  else if d.rows = [] then .error (.refused (txt "the disclosure reveals no rows"))
  else do
    let root ← bytesFromHex r.rowRoot
    verifyRows r root [] d.rows

/-! ### What is disclosed -/

namespace RowCommitment

variable {c c' : RowCommitment}

theorem length_leaves (c : RowCommitment) : c.tree.leaves.length = c.rows.length := by
  have hlen := (mapM_eq_ok.mp c.committed).length_eq
  rwa [List.length_zipIdx, eq_comm] at hlen

/-- The leaf at an index is that of the row there, under its salt. -/
theorem leaf_spec (c : RowCommitment) {i : ℕ} {row : RowChange} (h : c.rows[i]? = some row) :
    ∃ salt leaf, rowSalt c.secret i = .ok salt ∧ rowLeafHash salt row = .ok leaf ∧
      c.tree.leaves[i]? = some leaf := by
  obtain ⟨hi, rfl⟩ := List.getElem?_eq_some_iff.mp h
  have hi' : i < c.tree.leaves.length := c.length_leaves ▸ hi
  have hget := (mapM_eq_ok.mp c.committed).get (i := i) (by simpa using hi) hi'
  simp only [List.get_eq_getElem, List.getElem_zipIdx, Nat.zero_add] at hget
  obtain ⟨salt, hsalt, hleaf⟩ := bind_eq_ok.mp hget
  refine ⟨salt, c.tree.leaves[i], hsalt, ?_, List.getElem?_eq_getElem hi'⟩
  cases hhash : rowLeafHash salt c.rows[i] with
  | error e => rw [hhash] at hleaf; cases hleaf
  | ok leaf =>
    rw [hhash] at hleaf
    exact congrArg Except.ok (Except.ok.inj hleaf)

/-- Whether a commitment is another, but for what its tree remembers. -/
structure Keeps (c c' : RowCommitment) : Prop where
  rows : c'.rows = c.rows
  secret : c'.secret = c.secret
  leaves : c'.tree.leaves = c.tree.leaves

theorem Keeps.refl (c : RowCommitment) : c.Keeps c := ⟨rfl, rfl, rfl⟩

theorem Keeps.trans {c'' : RowCommitment} (h : c.Keeps c') (h' : c'.Keeps c'') : c.Keeps c'' :=
  ⟨h'.rows.trans h.rows, h'.secret.trans h.secret, h'.leaves.trans h.leaves⟩

theorem keeps_remember {tree : MerkleTree} (h : tree.leaves = c.tree.leaves) :
    c.Keeps (c.remember tree h) := ⟨rfl, rfl, h⟩

/-- Whether a disclosed row is the row at an index, with its salt and the proof of its leaf. -/
structure Shown (c : RowCommitment) (i : ℤ) (x : DisclosedRow) : Prop where
  index : x.index = i
  row : c.rows[i.toNat]? = some x.row
  salt : rowSalt c.secret i.toNat = .ok x.salt
  auditPath : x.auditPath = (path nodeHash emptyRoot c.tree.leaves i.toNat).map toHex

theorem Keeps.shown {index : ℤ} {x : DisclosedRow} (h : c.Keeps c') (hx : c'.Shown index x) :
    c.Shown index x where
  index := hx.index
  row := h.rows ▸ hx.row
  salt := h.secret ▸ hx.salt
  auditPath := h.leaves ▸ hx.auditPath

theorem root_spec (c : RowCommitment) : ∃ c', c.Keeps c' ∧
    c.root = .ok (toHex (mth nodeHash emptyRoot c.tree.leaves), c') := by
  obtain ⟨t, ht⟩ := MerkleTree.root_none c.tree
  refine ⟨_, keeps_remember (MerkleTree.leaves_of_root ht), ?_⟩
  rw [root]
  split
  · rename_i message hmessage
    rw [ht] at hmessage
    cases hmessage
  · rename_i r tree hroot
    obtain ⟨rfl, rfl⟩ := Prod.mk.inj (Except.ok.inj (ht.symm.trans hroot))
    rfl

theorem discloseRow_spec {index : ℤ} (h : 0 ≤ index ∧ index < c.count) :
    ∃ x c', c.discloseRow index = .ok (x, c') ∧ c.Shown index x ∧ c.Keeps c' := by
  have hi : index.toNat < c.rows.length := by
    have := h.2
    rw [count] at this
    omega
  have hrow := List.getElem?_eq_getElem hi
  obtain ⟨salt, leaf, hsalt, -, -⟩ := c.leaf_spec hrow
  obtain ⟨t, ht, hproof⟩ := MerkleTree.inclusionProof_spec (t := c.tree) (n := c.tree.leaves.length)
    le_rfl (i := index.toNat) (c.length_leaves ▸ hi)
  rw [List.take_length, Int.toNat_of_nonneg h.1] at hproof
  -- with no size given, the tree's own is taken
  have hnone : c.tree.inclusionProof index none =
      c.tree.inclusionProof index (some c.tree.leaves.length) := by
    rw [MerkleTree.inclusionProof, MerkleTree.inclusionProof, MerkleTree.size_some le_rfl]
    rfl
  rw [← hnone] at hproof
  refine ⟨⟨index, salt, _, _⟩, _, ?_, ⟨rfl, hrow, hsalt, rfl⟩,
    keeps_remember (MerkleTree.leaves_of_inclusionProof hproof)⟩
  rw [discloseRow]
  simp only [hrow, hsalt]
  split
  · rename_i message hmessage
    rw [hproof] at hmessage
    cases hmessage
  · rename_i proof tree hpath
    obtain ⟨rfl, rfl⟩ := Prod.mk.inj (Except.ok.inj (hproof.symm.trans hpath))
    rfl

theorem discloseRows_spec {l : List ℤ} (h : ∀ i ∈ l, 0 ≤ i ∧ i < c.count) :
    ∃ xs c', c.discloseRows l = .ok (xs, c') ∧ List.Forall₂ c.Shown l xs ∧ c.Keeps c' := by
  induction l generalizing c with
  | nil => exact ⟨[], c, rfl, .nil, .refl c⟩
  | cons index rest ih =>
    obtain ⟨x, c₁, hx, hshown, hkeeps⟩ := discloseRow_spec (h index List.mem_cons_self)
    obtain ⟨xs, c', hxs, hrest, hkeeps'⟩ := ih (c := c₁) fun i hi => by
      have := h i (List.mem_cons_of_mem index hi)
      rwa [count, hkeeps.rows]
    refine ⟨x :: xs, c', ?_, .cons hshown (hrest.imp fun i y hy => hkeeps.shown hy),
      hkeeps.trans hkeeps'⟩
    rw [discloseRows, hx, ok_bind, hxs]
    rfl

theorem mem_chosen {indices : List ℤ} {i : ℤ} : i ∈ chosen indices ↔ i ∈ indices := by
  rw [chosen, (List.perm_insertionSort _ _).mem_iff, List.mem_dedup]

theorem nodup_chosen (indices : List ℤ) : (chosen indices).Nodup :=
  (List.perm_insertionSort _ _).nodup_iff.mpr (List.nodup_dedup indices)

/-- Of rows that are there, the disclosure shows each once. -/
theorem disclose_spec (c : RowCommitment) {indices : List ℤ}
    (h : ∀ i ∈ indices, 0 ≤ i ∧ i < c.count) (receiptId : Text) :
    ∃ d c', c.disclose indices receiptId = .ok (d, c') ∧ c.Keeps c' ∧ d.receiptId = receiptId ∧
      d.rowRoot = toHex (mth nodeHash emptyRoot c.tree.leaves) ∧ d.rowCount = c.count ∧
      List.Forall₂ c.Shown (chosen indices) d.rows := by
  obtain ⟨c₁, hkeeps, hroot⟩ := c.root_spec
  obtain ⟨xs, c', hxs, hshown, hkeeps'⟩ := discloseRows_spec (c := c₁) (l := chosen indices)
    fun i hi => by
      have := h i (mem_chosen.mp hi)
      rwa [count, hkeeps.rows]
  refine ⟨⟨receiptId, _, c.count, xs⟩, c', ?_, hkeeps.trans hkeeps', rfl, rfl, rfl,
    hshown.imp fun i x hx => hkeeps.shown hx⟩
  have hfind : (chosen indices).find? (fun index : ℤ => ¬(0 ≤ index ∧ index < c.count)) = none := by
    rw [List.find?_eq_none]
    intro i hi
    simpa using h i (mem_chosen.mp hi)
  rw [disclose, hfind]
  simp only [hroot, ok_bind, hxs]

end RowCommitment

/-- Rows that are committed to keep their order, under the secret that was given. -/
theorem commitRows_eq_ok {rows : List RowChange} {secret : List Byte} {c : RowCommitment}
    (h : commitRows rows secret = .ok c) :
    secret.length = 32 ∧ c.rows = rows ∧ c.secret = secret := by
  rw [commitRows] at h
  split_ifs at h with hlen
  split at h
  · cases h
  · split at h
    · cases h
    · obtain rfl := Except.ok.inj h
      exact ⟨not_not.mp hlen, rfl, rfl⟩

end AgentGov.Receipts
