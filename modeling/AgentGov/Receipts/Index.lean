import AgentGov.Receipts.Tree
import Mathlib.Data.List.Sort

/-!
# The index of a log's file

A durable log keeps the leaves of its tree in a database beside its file, with the roots of the
perfect subtrees of `2 ^ BLOCK` leaves and more, each stored as it completes. The tree over the
database reads those, hashes the smaller subtrees from their leaves, and remembers what it read.

## Main definitions

* `AgentGov.Receipts.perfectRoot`: the root of a power of two of leaves, level by level.
* `AgentGov.Receipts.Index`, `AgentGov.Receipts.Index.add`: the database as its owner holds it,
  and a batch of rows with every subtree it completes.
* `AgentGov.Receipts.IndexedTree`: the tree over an index.
* `AgentGov.Receipts.Recorded`: the runs of an index and its tree, with the leaves recorded.
* `AgentGov.Receipts.Kept`: what every run of the index keeps.

## Main results

* `AgentGov.Receipts.perfectRoot_eq`: a perfect root is a tree head.
* `AgentGov.Receipts.Database.Holds.completeFrom_spec`: the loop over the levels stores exactly the
  subtrees one more leaf completes.
* `AgentGov.Receipts.IndexedTree.stored_tree`: over every run the tree answers as a tree over the
  same leaves, and the index holds exactly its aligned perfect subtrees.
-/

namespace AgentGov.Receipts

open Foundation Foundation.Merkle

/-! ### Perfect roots -/

section

variable {H : Type*} (node : H → H → H) (empty : H)

/-- One level up: the nodes joined two by two, unless one is left over. -/
def paired : List H → Option (List H)
  | [] => some []
  | [_] => none
  | a :: b :: level => (node a b :: ·) <$> paired level

theorem length_paired {level up : List H} (h : paired node level = some up) :
    level.length = 2 * up.length := by
  induction level using paired.induct generalizing up with
  | case1 =>
    obtain rfl : [] = up := by simpa [paired] using h
    rfl
  | case2 => simp [paired] at h
  | case3 a b level ih =>
    obtain ⟨rest, hrest, rfl⟩ : ∃ rest, paired node level = some rest ∧ node a b :: rest = up := by
      simpa [paired] using h
    rw [List.length_cons, List.length_cons, List.length_cons, ih hrest]
    omega

/-- `_perfect_root`: the root of a perfect tree over a power of two of leaves. -/
def perfectRoot (leaves : List H) : Except String H :=
  match leaves with
  | [] => .error "list index out of range"
  | [d] => .ok d
  | a :: b :: level =>
    match _h : paired node (a :: b :: level) with
    | some up => perfectRoot up
    | none => .error "list index out of range"
termination_by leaves.length
decreasing_by
  have := length_paired node _h
  rw [this]
  rw [List.length_cons, List.length_cons] at this
  omega

theorem paired_append {l₁ l₂ u₁ u₂ : List H} (h₁ : paired node l₁ = some u₁)
    (h₂ : paired node l₂ = some u₂) : paired node (l₁ ++ l₂) = some (u₁ ++ u₂) := by
  induction l₁ using paired.induct generalizing u₁ with
  | case1 =>
    obtain rfl : [] = u₁ := by simpa [paired] using h₁
    exact h₂
  | case2 => simp [paired] at h₁
  | case3 a b level ih =>
    obtain ⟨rest, hrest, rfl⟩ : ∃ rest, paired node level = some rest ∧ node a b :: rest = u₁ := by
      simpa [paired] using h₁
    rw [List.cons_append, List.cons_append, paired, ih hrest]
    rfl

/-- The two halves of a power of two of leaves. -/
theorem mth_double {l : List H} {k : ℕ} (h : l.length = 2 ^ (k + 1)) :
    mth node empty l =
      node (mth node empty (l.take (2 ^ k))) (mth node empty (l.drop (2 ^ k))) := by
  have hpos := Nat.two_pow_pos k
  have hsplit : split l.length = 2 ^ k := split_eq (by rw [h, pow_succ]; omega) h.le
  rw [mth_split node empty (by rw [h, pow_succ]; omega), hsplit]

/-- One level up of a power of two of leaves has the same head. -/
theorem paired_spec (k : ℕ) {l : List H} (h : l.length = 2 ^ (k + 1)) :
    ∃ up, paired node l = some up ∧ up.length = 2 ^ k ∧ mth node empty up = mth node empty l := by
  induction k generalizing l with
  | zero =>
    obtain ⟨a, b, rfl⟩ := List.length_eq_two.mp h
    refine ⟨[node a b], rfl, rfl, ?_⟩
    rw [mth_double node empty (show [a, b].length = 2 ^ (0 + 1) from rfl), pow_zero,
      show [a, b].take 1 = [a] from rfl, show [a, b].drop 1 = [b] from rfl, mth_singleton,
      mth_singleton, mth_singleton]
  | succ k ih =>
    have hdouble : (2 : ℕ) ^ (k + 1 + 1) = 2 ^ (k + 1) + 2 ^ (k + 1) := by rw [pow_succ]; omega
    obtain ⟨u₁, hu₁, hlen₁, hm₁⟩ := ih (l := l.take (2 ^ (k + 1)))
      (by rw [List.length_take]; omega)
    obtain ⟨u₂, hu₂, hlen₂, hm₂⟩ := ih (l := l.drop (2 ^ (k + 1)))
      (by rw [List.length_drop]; omega)
    have hlen : (u₁ ++ u₂).length = 2 ^ (k + 1) := by
      rw [List.length_append, hlen₁, hlen₂, pow_succ]
      omega
    refine ⟨u₁ ++ u₂, ?_, hlen, ?_⟩
    · have := paired_append node hu₁ hu₂
      rwa [List.take_append_drop] at this
    · rw [mth_double node empty hlen, mth_double node empty h, List.take_left' hlen₁,
        List.drop_left' hlen₁, hm₁, hm₂]

/-- A perfect root is a tree head. -/
theorem perfectRoot_eq (k : ℕ) {l : List H} (h : l.length = 2 ^ k) :
    perfectRoot node l = .ok (mth node empty l) := by
  induction k generalizing l with
  | zero =>
    obtain ⟨d, rfl⟩ := List.length_eq_one_iff.mp h
    rw [perfectRoot, mth_singleton]
  | succ k ih =>
    obtain ⟨up, hup, hlen, hm⟩ := paired_spec node empty k h
    match l, h with
    | [], h => exact absurd h (Nat.two_pow_pos _).ne
    | [_], h => exact absurd h (by rw [List.length_singleton, pow_succ]; omega)
    | a :: b :: level, h =>
      rw [perfectRoot]
      split
      · next up' hup' =>
        obtain rfl : up = up' := Option.some.inj (hup.symm.trans hup')
        rw [ih hlen, hm]
      · next hnone =>
        rw [hup] at hnone
        cases hnone

end

/-! ### The database -/

/-- `BLOCK`: perfect subtrees of `2 ^ BLOCK` leaves and more are stored. -/
def block : ℕ := 8

/-- `INDEX_VERSION`. -/
def indexVersion : String := "1"

/-- A row of the table of leaves. -/
structure LeafRow (H : Type) where
  index : ℕ
  receiptId : String
  offset : ℕ
  length : ℕ
  leaf : H

/-- The database: the leaves in the order of their primary key, the nodes by level and start, and
what `meta` holds. -/
structure Database (H : Type) where
  leaves : List (LeafRow H)
  nodes : ℕ × ℕ → Option H
  version : Option String
  fileState : Option (ℕ × ℕ)

/-- The database before it was ever opened. -/
def Database.init {H : Type} : Database H where
  leaves := []
  nodes := fun _ => none
  version := none
  fileState := none

/-- `_Index`: the database, how many leaves it holds and the byte past the last indexed line. -/
structure Index (H : Type) where
  data : Database H
  count : ℕ
  finish : ℕ

namespace Database

variable {H : Type} (node : H → H → H)

/-- `leaves`: the leaves from an index up to another. -/
def leavesBetween (data : Database H) (start finish : ℕ) : List H :=
  (data.leaves.filter fun row => start ≤ row.index ∧ row.index < finish).map (·.leaf)

/-- `leaf`. -/
def leaf (data : Database H) (index : ℕ) : Except String H :=
  match data.leaves.find? fun row => row.index == index with
  | none => .error ("the log has no receipt " ++ toString index)
  | some row => .ok row.leaf

/-- `INSERT INTO leaves`. -/
def insert (data : Database H) (row : LeafRow H) : Except String (Database H) :=
  if data.leaves.any fun r => r.index == row.index then
    .error "UNIQUE constraint failed: leaves.idx"
  else if data.leaves.any fun r => r.receiptId == row.receiptId then
    .error "UNIQUE constraint failed: leaves.receipt_id"
  else
    .ok { data with leaves := data.leaves.orderedInsert (fun r s => r.index ≤ s.index) row }

/-- `_record_file`, where there is a state of the file to record. -/
def recordFile (data : Database H) (fileState : Option (ℕ × ℕ)) : Database H :=
  { data with fileState := fileState.or data.fileState }

/-- The root of a subtree a leaf completes: of its leaves on the lowest level, else of the two
nodes below it. -/
def rootOf (data : Database H) (level start completed : ℕ) : Except String H :=
  if level = block then perfectRoot node (data.leavesBetween start completed)
  else
    match data.nodes (level - 1, start), data.nodes (level - 1, start + 2 ^ level / 2) with
    | some left, some right => .ok (node left right)
    | _, _ => .error "AssertionError"

/-- The loop of `add` over the levels, from a level on: every perfect subtree the leaf of an index
completes. -/
def completeFrom (data : Database H) (index level : ℕ) : Except String (Database H) :=
  if _h : (index + 1) % 2 ^ level = 0 then do
    let start := index + 1 - 2 ^ level
    let root ← data.rootOf node level start (index + 1)
    completeFrom { data with nodes := Function.update data.nodes (level, start) (some root) }
      index (level + 1)
  else .ok data
termination_by index + 1 - level
decreasing_by
  have := Nat.le_of_dvd (Nat.succ_pos index) (Nat.dvd_of_mod_eq_zero _h)
  have := Nat.lt_two_pow_self (n := level)
  omega

end Database

namespace Index

variable {H : Type} (node : H → H → H)

/-- `_refresh`: the counters from the last row. -/
def refresh (data : Database H) : Index H :=
  match data.leaves.getLast? with
  | none => ⟨data, 0, 0⟩
  | some row => ⟨data, row.index + 1, row.offset + row.length + 1⟩

/-- `reset`: the database without leaves and nodes. -/
def reset (data : Database H) : Index H :=
  ⟨{ data with leaves := [], nodes := fun _ => none, version := some indexVersion }, 0, 0⟩

/-- `_Index(path)`: a database of another version is reset. -/
def opened (data : Database H) : Index H :=
  refresh (if data.version = some indexVersion then data else (reset data).data)

/-- `add`: rows after the last, every perfect subtree they complete, and the state of the file.
Nothing of it is kept where it fails. -/
def add (index : Index H) (rows : List (LeafRow H)) (fileState : Option (ℕ × ℕ)) :
    Except String (Index H) :=
  match rows.getLast? with
  | none => .ok { index with data := index.data.recordFile fileState }
  | some last => do
    let inserted ← rows.foldlM Database.insert (index.data.recordFile fileState)
    let completed ← rows.foldlM (fun data row => data.completeFrom node row.index block) inserted
    .ok ⟨completed, last.index + 1, last.offset + last.length + 1⟩

/-- The rows of `extend` and `adopt`: receipts from the count on. -/
def rowsOf (index : Index H) (receipts : List (String × ℕ × ℕ × H)) : List (LeafRow H) :=
  (receipts.zipIdx index.count).map fun r => ⟨r.2, r.1.1, r.1.2.1, r.1.2.2.1, r.1.2.2.2⟩

end Index

/-! ### The tree over an index -/

/-- `_IndexedTree`. -/
structure IndexedTree (H : Type) where
  index : Index H
  cache : Cache H

section

variable {H : Type} (node : H → H → H) (empty : H)

/-- `_IndexedTree._hash`, with what the cache holds afterwards. -/
def hashStored (data : Database H) (cache : Cache H) (start n : ℕ) :
    Except String (H × Cache H) :=
  if _ : n = 1 then (·, cache) <$> data.leaf start
  else if _ : n &&& (n - 1) = 0 then
    if _ : Nat.log2 n < block then
      (·, cache) <$> perfectRoot node (data.leavesBetween start (start + n))
    else
      match cache (start, n) with
      | some cached => .ok (cached, cache)
      | none =>
        match data.nodes (Nat.log2 n, start) with
        | some stored => .ok (stored, Function.update cache (start, n) (some stored))
        | none => do
          let left ← hashStored data cache start (n / 2)
          let right ← hashStored data left.2 (start + n / 2) (n / 2)
          let result := node left.1 right.1
          .ok (result, Function.update right.2 (start, n) (some result))
  else do
    let left ← hashStored data cache start (split n)
    let right ← hashStored data left.2 (start + split n) (n - split n)
    .ok (node left.1 right.1, right.2)
termination_by n
decreasing_by
  · have : 2 ≤ n := by
      by_contra hlt
      interval_cases n <;> simp_all [block]
    omega
  · have : 2 ≤ n := by
      by_contra hlt
      interval_cases n <;> simp_all [block]
    omega
  · have : 2 ≤ n := by
      by_contra hlt
      interval_cases n <;> simp_all
    exact split_lt this
  · have : 2 ≤ n := by
      by_contra hlt
      interval_cases n <;> simp_all
    have := split_pos n
    omega

variable {S : Type} (hashed : S → ℕ → ℕ → Except String (H × S))

/-- `_path`, over any way to hash a subtree. -/
def pathOver (s : S) (index start n : ℕ) : Except String (List H × S) :=
  if _ : 2 ≤ n then
    if index < split n then do
      let rest ← pathOver s index start (split n)
      let last ← hashed rest.2 (start + split n) (n - split n)
      .ok (rest.1 ++ [last.1], last.2)
    else do
      let rest ← pathOver s (index - split n) (start + split n) (n - split n)
      let last ← hashed rest.2 start (split n)
      .ok (rest.1 ++ [last.1], last.2)
  else .ok ([], s)
termination_by n
decreasing_by
  · exact split_lt ‹2 ≤ n›
  · have := split_pos n
    omega

/-- `_subproof`, over any way to hash a subtree. -/
def subproofOver (s : S) (m start n : ℕ) (complete : Bool) : Except String (List H × S) :=
  if m = n then
    if complete then .ok ([], s)
    else do
      let last ← hashed s start n
      .ok ([last.1], last.2)
  else if _ : 2 ≤ n then
    if m ≤ split n then do
      let rest ← subproofOver s m start (split n) complete
      let last ← hashed rest.2 (start + split n) (n - split n)
      .ok (rest.1 ++ [last.1], last.2)
    else do
      let rest ← subproofOver s (m - split n) (start + split n) (n - split n) false
      let last ← hashed rest.2 start (split n)
      .ok (rest.1 ++ [last.1], last.2)
  else .ok ([], s)
termination_by n
decreasing_by
  · exact split_lt ‹2 ≤ n›
  · have := split_pos n
    omega

end

namespace IndexedTree

variable {H : Type} (node : H → H → H) (empty : H)

/-- `FileLeaves(path)`: the index opened, and a tree that remembers nothing. -/
def opened (data : Database H) : IndexedTree H := ⟨Index.opened data, fun _ => none⟩

/-- `FileLeaves.reset`: the index reset, and what the tree remembers dropped. -/
def reset (t : IndexedTree H) : IndexedTree H := ⟨Index.reset t.index.data, fun _ => none⟩

/-- `FileLeaves.extend` and `FileLeaves.adopt`: a batch of receipts recorded. -/
def add (t : IndexedTree H) (receipts : List (String × ℕ × ℕ × H))
    (fileState : Option (ℕ × ℕ)) : Except String (IndexedTree H) :=
  (fun index => { t with index }) <$> t.index.add node (t.index.rowsOf receipts) fileState

/-- The tree with more in its cache. -/
def remember (t : IndexedTree H) {α : Type} (r : α × Cache H) : α × IndexedTree H :=
  (r.1, { t with cache := r.2 })

/-- `_size`. -/
def size (t : IndexedTree H) : Option ℤ → Except String ℕ
  | none => .ok t.index.count
  | some size =>
    if 0 ≤ size ∧ size ≤ t.index.count then .ok size.toNat
    else .error ("the tree has " ++ toString t.index.count ++ " leaves, not " ++ toString size)

/-- `root`. -/
def root (t : IndexedTree H) (size : Option ℤ) : Except String (H × IndexedTree H) := do
  let n ← t.size size
  if n = 0 then .ok (empty, t)
  else t.remember <$> hashStored node t.index.data t.cache 0 n

/-- `inclusion_proof`. -/
def inclusionProof (t : IndexedTree H) (index : ℤ) (size : Option ℤ) :
    Except String (List H × IndexedTree H) := do
  let n ← t.size size
  if 0 ≤ index ∧ index < n then
    t.remember <$> pathOver (hashStored node t.index.data) t.cache index.toNat 0 n
  else
    .error ("leaf " ++ toString index ++ " is not in a tree of size " ++ toString n)

/-- `consistency_proof`. -/
def consistencyProof (t : IndexedTree H) (oldSize : ℤ) (newSize : Option ℤ) :
    Except String (List H × IndexedTree H) := do
  let n ← t.size newSize
  if 0 ≤ oldSize ∧ oldSize ≤ n then
    if oldSize = 0 ∨ oldSize = n then .ok ([], t)
    else
      t.remember <$>
        subproofOver (hashStored node t.index.data) t.cache oldSize.toNat 0 n true
  else
    .error ("cannot prove a tree of size " ++ toString oldSize ++ " is a prefix of size " ++
      toString n)

end IndexedTree

/-! ### What a database holds -/

/-- The table of leaves holds some leaves, from index zero on. -/
structure Database.Holds {H : Type} (data : Database H) (leaves : List H) : Prop where
  index_eq : data.leaves.map (·.index) = List.range leaves.length
  leaf_eq : data.leaves.map (·.leaf) = leaves

/-- The table of nodes holds the heads of some perfect subtrees, and nothing else. -/
def Stores {H : Type} (node : H → H → H) (empty : H) (leaves : List H)
    (nodes : ℕ × ℕ → Option H) (P : ℕ → ℕ → Prop) : Prop :=
  ∀ level start d, nodes (level, start) = some d ↔
    P level start ∧ d = mth node empty (slice leaves start (2 ^ level))

/-- An aligned perfect subtree of `2 ^ BLOCK` leaves or more within the first leaves. -/
def Aligned (count level start : ℕ) : Prop :=
  block ≤ level ∧ 2 ^ level ∣ start ∧ start + 2 ^ level ≤ count

/-- Those within the first leaves, and those the next leaf completes on the levels below one. -/
def Reached (count limit level start : ℕ) : Prop :=
  block ≤ level ∧ 2 ^ level ∣ start ∧
    (start + 2 ^ level ≤ count ∨ start + 2 ^ level = count + 1 ∧ level < limit)

theorem reached_block (count : ℕ) : Reached count block = Aligned count := by
  ext level start
  rw [Reached, Aligned]
  constructor
  · rintro ⟨hlevel, hdvd, hle | ⟨-, hlt⟩⟩
    · exact ⟨hlevel, hdvd, hle⟩
    · omega
  · rintro ⟨hlevel, hdvd, hle⟩
    exact ⟨hlevel, hdvd, .inl hle⟩

/-- Where the next leaf completes nothing on a level, it completes nothing above. -/
theorem reached_of_not_dvd {count limit : ℕ} (h : ¬ 2 ^ limit ∣ count + 1) :
    Reached count limit = Aligned (count + 1) := by
  ext level start
  rw [Reached, Aligned]
  constructor
  · rintro ⟨hlevel, hdvd, hle | ⟨heq, -⟩⟩
    · exact ⟨hlevel, hdvd, by omega⟩
    · exact ⟨hlevel, hdvd, heq.le⟩
  · rintro ⟨hlevel, hdvd, hle⟩
    refine ⟨hlevel, hdvd, ?_⟩
    rcases Nat.lt_or_ge level limit with hlt | hge
    · omega
    · have hne : start + 2 ^ level ≠ count + 1 := by
        intro heq
        have hwhole : 2 ^ level ∣ count + 1 := heq ▸ Nat.dvd_add hdvd dvd_rfl
        exact h ((pow_dvd_pow 2 hge).trans hwhole)
      omega

/-- The subtree the next leaf completes on a level. -/
theorem reached_succ {count limit : ℕ} (hlimit : block ≤ limit) (h : 2 ^ limit ∣ count + 1)
    (level start : ℕ) :
    Reached count (limit + 1) level start ↔
      (level, start) = (limit, count + 1 - 2 ^ limit) ∨ Reached count limit level start := by
  have hle := Nat.le_of_dvd (Nat.succ_pos count) h
  rw [Reached, Reached, Prod.mk.injEq]
  constructor
  · rintro ⟨hlevel, hdvd, hin | ⟨heq, hlt⟩⟩
    · exact .inr ⟨hlevel, hdvd, .inl hin⟩
    · rcases Nat.lt_succ_iff_lt_or_eq.mp hlt with hlt | rfl
      · exact .inr ⟨hlevel, hdvd, .inr ⟨heq, hlt⟩⟩
      · exact .inl ⟨rfl, by omega⟩
  · rintro (⟨rfl, rfl⟩ | ⟨hlevel, hdvd, hin | ⟨heq, hlt⟩⟩)
    · exact ⟨hlimit, Nat.dvd_sub h dvd_rfl, .inr ⟨by omega, by omega⟩⟩
    · exact ⟨hlevel, hdvd, .inl hin⟩
    · exact ⟨hlevel, hdvd, .inr ⟨heq, by omega⟩⟩

/-! ### Reading the leaves -/

section

variable {H : Type} {rows : List (LeafRow H)}

/-- Rows indexed from `k` on, read by a range of their indices. -/
theorem filter_rows {k : ℕ} (h : rows.map (·.index) = List.range' k rows.length)
    (start finish : ℕ) :
    (rows.filter fun row => start ≤ row.index ∧ row.index < finish).map (·.leaf) =
      ((rows.map (·.leaf)).drop (start - k)).take (finish - max start k) := by
  induction rows generalizing k with
  | nil => simp
  | cons row rows ih =>
    rw [List.map_cons, List.length_cons, List.range'_succ, List.cons.injEq] at h
    obtain ⟨rfl, hrest⟩ := h
    have hnext := ih hrest
    rw [List.map_cons]
    rcases Nat.lt_or_ge row.index start with hlt | hge
    · rw [List.filter_cons_of_neg (by simp; omega), hnext,
        show start - row.index = start - (row.index + 1) + 1 by omega, List.drop_succ_cons,
        max_eq_left hlt, max_eq_left hlt.le]
    · rw [show start - row.index = 0 by omega, List.drop_zero]
      rw [show start - (row.index + 1) = 0 by omega, List.drop_zero] at hnext
      rcases Nat.lt_or_ge row.index finish with hin | hout
      · rw [List.filter_cons_of_pos (by simp; omega), List.map_cons, hnext,
          show finish - max start row.index = finish - max start (row.index + 1) + 1 by omega,
          List.take_succ_cons]
      · rw [List.filter_cons_of_neg (by simp; omega), hnext,
          show finish - max start (row.index + 1) = 0 by omega,
          show finish - max start row.index = 0 by omega, List.take_zero, List.take_zero]

/-- Rows indexed from `k` on, read by one index. -/
theorem find_rows {k i : ℕ} (h : rows.map (·.index) = List.range' k rows.length) (hi : k ≤ i) :
    (rows.find? fun row => row.index == i) = rows[i - k]? := by
  induction rows generalizing k with
  | nil => simp
  | cons row rows ih =>
    rw [List.map_cons, List.length_cons, List.range'_succ, List.cons.injEq] at h
    obtain ⟨rfl, hrest⟩ := h
    rcases hi.eq_or_lt with rfl | hlt
    · simp
    · rw [List.find?_cons_of_neg (by simp; omega), ih hrest hlt,
        show i - row.index = i - (row.index + 1) + 1 by omega, List.getElem?_cons_succ]

variable {data : Database H} {leaves : List H}

theorem Database.Holds.length_eq (h : data.Holds leaves) : data.leaves.length = leaves.length := by
  rw [← h.leaf_eq, List.length_map]

theorem Database.Holds.range_eq (h : data.Holds leaves) :
    data.leaves.map (·.index) = List.range' 0 data.leaves.length := by
  rw [h.index_eq, h.length_eq, List.range_eq_range']

/-- The leaves of a range are a slice. -/
theorem Database.Holds.leavesBetween_eq (h : data.Holds leaves) (start n : ℕ) :
    data.leavesBetween start (start + n) = slice leaves start n := by
  rw [leavesBetween, filter_rows h.range_eq, h.leaf_eq, slice]
  simp

/-- The leaf of an index. -/
theorem Database.Holds.leaf_ok (h : data.Holds leaves) {i : ℕ} (hi : i < leaves.length) :
    data.leaf i = .ok leaves[i] := by
  have hrow : i < data.leaves.length := h.length_eq ▸ hi
  have hleaf : leaves[i]? = some data.leaves[i].leaf := by
    rw [← h.leaf_eq, List.getElem?_map, List.getElem?_eq_getElem hrow]
    rfl
  rw [leaf, find_rows h.range_eq (Nat.zero_le i), Nat.sub_zero, List.getElem?_eq_getElem hrow]
  rw [List.getElem?_eq_getElem hi, Option.some.injEq] at hleaf
  rw [hleaf]

/-! ### Adding rows -/

/-- A row past the last goes to the end. -/
theorem orderedInsert_last {row : LeafRow H} (h : ∀ r ∈ rows, r.index < row.index) :
    rows.orderedInsert (fun r s => r.index ≤ s.index) row = rows ++ [row] := by
  induction rows with
  | nil => rfl
  | cons r rows ih =>
    have hr := h r List.mem_cons_self
    rw [List.orderedInsert_cons, if_neg (by omega), ih fun s hs => h s (List.mem_cons_of_mem _ hs)]
    rfl

theorem Database.Holds.index_lt (h : data.Holds leaves) {r : LeafRow H} (hr : r ∈ data.leaves) :
    r.index < leaves.length := by
  have : r.index ∈ data.leaves.map (·.index) := List.mem_map_of_mem hr
  rwa [h.index_eq, List.mem_range] at this

/-- The database with one more row. -/
def Database.push (data : Database H) (row : LeafRow H) : Database H :=
  { data with leaves := data.leaves ++ [row] }

theorem Database.Holds.push (h : data.Holds leaves) {row : LeafRow H}
    (hrow : row.index = leaves.length) : (data.push row).Holds (leaves ++ [row.leaf]) where
  index_eq := by
    rw [Database.push, List.map_append, h.index_eq, List.length_append, List.length_singleton,
      List.range_succ, List.map_singleton, hrow]
  leaf_eq := by rw [Database.push, List.map_append, h.leaf_eq, List.map_singleton]

/-- A row after the last is refused only for its receipt id. -/
theorem Database.Holds.insert_eq (h : data.Holds leaves) {row : LeafRow H}
    (hrow : row.index = leaves.length) :
    data.insert row =
      if data.leaves.any fun r => r.receiptId == row.receiptId then
        .error "UNIQUE constraint failed: leaves.receipt_id"
      else .ok (data.push row) := by
  have hnew : (data.leaves.any fun r => r.index == row.index) = false := by
    rw [List.any_eq_false]
    intro r hr
    have := h.index_lt hr
    simp only [beq_iff_eq]
    omega
  rw [insert, hnew, orderedInsert_last fun r hr => hrow ▸ h.index_lt hr]
  rfl

/-- Rows after the last: those of the table are these and no others. -/
theorem Database.Holds.insertAll {data' : Database H} (h : data.Holds leaves)
    (hrows : rows.map (·.index) = List.range' leaves.length rows.length)
    (hok : rows.foldlM Database.insert data = .ok data') :
    data' = { data with leaves := data.leaves ++ rows } ∧
      data'.Holds (leaves ++ rows.map (·.leaf)) := by
  induction rows generalizing data leaves with
  | nil =>
    obtain rfl : data = data' := Except.ok.inj hok
    simpa using h
  | cons row rows ih =>
    rw [List.map_cons, List.length_cons, List.range'_succ, List.cons.injEq] at hrows
    obtain ⟨hrow, hrest⟩ := hrows
    rw [List.foldlM_cons, h.insert_eq hrow] at hok
    split_ifs at hok with hid
    · cases hok
    · obtain ⟨rfl, hholds⟩ := ih (h.push hrow) (by simpa using hrest) hok
      refine ⟨?_, ?_⟩
      · rw [Database.push, List.append_assoc, List.singleton_append]
      · simpa using hholds

/-- Rows after the last whose receipt ids are new are inserted. -/
theorem Database.Holds.exists_insertAll (h : data.Holds leaves)
    (hrows : rows.map (·.index) = List.range' leaves.length rows.length)
    (hids : (data.leaves.map (·.receiptId) ++ rows.map (·.receiptId)).Nodup) :
    ∃ data', rows.foldlM Database.insert data = .ok data' := by
  induction rows generalizing data leaves with
  | nil => exact ⟨data, rfl⟩
  | cons row rows ih =>
    rw [List.map_cons, List.length_cons, List.range'_succ, List.cons.injEq] at hrows
    obtain ⟨hrow, hrest⟩ := hrows
    have hnew : (data.leaves.any fun r => r.receiptId == row.receiptId) = false := by
      rw [List.any_eq_false]
      intro r hr
      have hne := (List.nodup_append.mp hids).2.2 r.receiptId (List.mem_map_of_mem hr)
        row.receiptId List.mem_cons_self
      simpa using hne
    rw [List.foldlM_cons, h.insert_eq hrow, hnew]
    refine ih (h.push hrow) (by simpa using hrest) ?_
    rw [Database.push, List.map_append, List.append_assoc]
    simpa using hids

variable (node : H → H → H) (empty : H)

/-- The root of a subtree that the next leaf completes. -/
theorem Database.Holds.rootOf_eq (h : data.Holds leaves) {count level : ℕ}
    (hcount : count < leaves.length) (hlevel : block ≤ level) (hdvd : 2 ^ level ∣ count + 1)
    (hstores : Stores node empty leaves data.nodes (Reached count level)) :
    data.rootOf node level (count + 1 - 2 ^ level) (count + 1) =
      .ok (mth node empty (slice leaves (count + 1 - 2 ^ level) (2 ^ level))) := by
  have hle := Nat.le_of_dvd (Nat.succ_pos count) hdvd
  set start := count + 1 - 2 ^ level with hstart
  have hlen : (slice leaves start (2 ^ level)).length = 2 ^ level := length_slice (by omega)
  rw [rootOf]
  split_ifs with hblock
  · rw [show count + 1 = start + 2 ^ level by omega, h.leavesBetween_eq,
      perfectRoot_eq node empty level hlen]
  · obtain ⟨k, rfl⟩ : ∃ k, level = k + 1 := ⟨level - 1, by omega⟩
    have hdouble : (2 : ℕ) ^ (k + 1) = 2 ^ k + 2 ^ k := by rw [pow_succ]; omega
    have hhalf : (2 : ℕ) ^ (k + 1) / 2 = 2 ^ k := by omega
    have hstep : 2 ^ k ∣ start :=
      (pow_dvd_pow 2 k.le_succ).trans (Nat.dvd_sub hdvd dvd_rfl)
    -- the left half was complete before this leaf, the right one is on the level below
    have hleft := (hstores k start _).mpr
      ⟨⟨by omega, hstep, .inl (by have := Nat.two_pow_pos k; omega)⟩, rfl⟩
    have hright := (hstores k (start + 2 ^ k) _).mpr
      ⟨⟨by omega, Nat.dvd_add hstep dvd_rfl, .inr ⟨by omega, by omega⟩⟩, rfl⟩
    rw [Nat.add_sub_cancel, hhalf, hleft, hright]
    simp only
    rw [mth_double node empty hlen, take_slice (by omega), drop_slice,
      show 2 ^ (k + 1) - 2 ^ k = 2 ^ k by omega]

/-- One more leaf: the loop stores every perfect subtree it completes, and nothing else. -/
theorem Database.Holds.completeFrom_spec (h : data.Holds leaves) {count level : ℕ}
    (hcount : count < leaves.length) (hlevel : block ≤ level)
    (hstores : Stores node empty leaves data.nodes (Reached count level)) :
    ∃ nodes, data.completeFrom node count level = .ok { data with nodes } ∧
      Stores node empty leaves nodes (Aligned (count + 1)) := by
  induction hn : count + 1 - level using Nat.strong_induction_on generalizing data level with
  | _ n ih =>
    rw [completeFrom]
    by_cases hdvd : (count + 1) % 2 ^ level = 0
    · rw [dif_pos hdvd]
      have hwhole := Nat.dvd_of_mod_eq_zero hdvd
      have hle := Nat.le_of_dvd (Nat.succ_pos count) hwhole
      have hlt := Nat.lt_two_pow_self (n := level)
      simp only [h.rootOf_eq node empty hcount hlevel hwhole hstores, bind, Except.bind]
      set nodes := Function.update data.nodes (level, count + 1 - 2 ^ level)
        (some (mth node empty (slice leaves (count + 1 - 2 ^ level) (2 ^ level)))) with hnodes
      have hnext : Stores node empty leaves nodes (Reached count (level + 1)) := by
        intro l s d
        rw [reached_succ hlevel hwhole, hnodes]
        by_cases heq : (l, s) = (level, count + 1 - 2 ^ level)
        · obtain ⟨rfl, rfl⟩ := Prod.mk.inj heq
          rw [Function.update_self, Option.some.injEq, eq_comm]
          simp
        · rw [Function.update_of_ne heq, hstores l s d]
          simp [heq]
      have hkept : ({ data with nodes } : Database H).Holds leaves := ⟨h.index_eq, h.leaf_eq⟩
      exact ih _ (by omega) hkept
        (hlevel.trans level.le_succ) hnext rfl
    · rw [dif_neg hdvd]
      refine ⟨data.nodes, rfl, ?_⟩
      rwa [← reached_of_not_dvd fun hwhole => hdvd (Nat.mod_eq_zero_of_dvd hwhole)]

/-- Several leaves in a row, each with the subtrees it completes. -/
theorem Database.Holds.completeAll (h : data.Holds leaves) {count : ℕ}
    (hrows : rows.map (·.index) = List.range' count rows.length)
    (hle : count + rows.length ≤ leaves.length)
    (hstores : Stores node empty leaves data.nodes (Aligned count)) :
    ∃ nodes, rows.foldlM (fun data row => data.completeFrom node row.index block) data =
        .ok { data with nodes } ∧
      Stores node empty leaves nodes (Aligned (count + rows.length)) := by
  induction rows generalizing data count with
  | nil => exact ⟨data.nodes, rfl, hstores⟩
  | cons row rows ih =>
    rw [List.map_cons, List.length_cons, List.range'_succ, List.cons.injEq] at hrows
    obtain ⟨rfl, hrest⟩ := hrows
    rw [List.length_cons] at hle ⊢
    rw [← reached_block] at hstores
    obtain ⟨nodes, hok, hnext⟩ := h.completeFrom_spec node empty (by omega) le_rfl hstores
    have hkept : ({ data with nodes } : Database H).Holds leaves := ⟨h.index_eq, h.leaf_eq⟩
    obtain ⟨nodes', hok', hall⟩ := ih hkept hrest (by omega) hnext
    refine ⟨nodes', ?_, ?_⟩
    · rw [List.foldlM_cons, hok]
      exact hok'
    · rwa [show row.index + (rows.length + 1) = row.index + 1 + rows.length by omega]

/-- More leaves change no head of the ones before. -/
theorem Stores.append {nodes : ℕ × ℕ → Option H} {count : ℕ} (hcount : count ≤ leaves.length)
    (h : Stores node empty leaves nodes (Aligned count)) (more : List H) :
    Stores node empty (leaves ++ more) nodes (Aligned count) := by
  intro level start d
  rw [h level start d]
  refine and_congr_right fun hin => ?_
  have hend := hin.2.2.trans hcount
  have hstart := (Nat.le_add_right start (2 ^ level)).trans hend
  rw [slice, slice, List.drop_append_of_le_length hstart,
    List.take_append_of_le_length (by rw [List.length_drop]; omega)]

/-! ### Hashing with stored nodes -/

theorem eq_two_pow {n : ℕ} (hn : n ≠ 0) (h : n &&& (n - 1) = 0) : n = 2 ^ Nat.log2 n := by
  obtain ⟨k, rfl⟩ := (Nat.and_sub_one_eq_zero_iff_isPowerOfTwo hn).mp h
  rw [Nat.log2_two_pow]

/-- A cache with one more head in it. -/
theorem Cache.Sound.update {cache : Cache H} (hcache : cache.Sound node empty leaves)
    {start n : ℕ} {d : H} (hn : 0 < n) (hpow : n &&& (n - 1) = 0)
    (hle : start + n ≤ leaves.length) (hd : d = mth node empty (slice leaves start n)) :
    Cache.Sound node empty leaves (Function.update cache (start, n) (some d)) := by
  have := hcache.put node empty hn hle hd
  rwa [Cache.put, if_pos hpow] at this

/-- A way to hash subtrees that gives heads, whatever it has remembered. -/
def Hashes {S : Type} (hashed : S → ℕ → ℕ → Except String (H × S)) (Good : S → Prop)
    (leaves : List H) : Prop :=
  ∀ s, Good s → ∀ start n, 0 < n → start + n ≤ leaves.length →
    ∃ s', hashed s start n = .ok (mth node empty (slice leaves start n), s') ∧ Good s'

/-- The hashes of a tree over an index are heads of its leaves. -/
theorem Database.Holds.hashes (h : data.Holds leaves)
    (hstores : Stores node empty leaves data.nodes (Aligned leaves.length)) :
    Hashes node empty (hashStored node data) (Cache.Sound node empty leaves) leaves := by
  intro cache hcache start n hn hle
  induction n using Nat.strong_induction_on generalizing cache start with
  | _ n ih =>
    have hlen := length_slice hle
    rw [hashStored]
    split_ifs with hone hpow hsmall
    · subst hone
      rw [h.leaf_ok (by omega), slice_one empty (by omega), mth_singleton,
        List.getD_eq_getElem?_getD, List.getElem?_eq_getElem (by omega)]
      exact ⟨cache, rfl, hcache⟩
    · rw [h.leavesBetween_eq, perfectRoot_eq node empty (Nat.log2 n)
        (hlen.trans (eq_two_pow hn.ne' hpow))]
      exact ⟨cache, rfl, hcache⟩
    · have hsize := eq_two_pow hn.ne' hpow
      match hcached : cache (start, n) with
      | some cached =>
        obtain ⟨-, -, rfl⟩ := hcache start n cached hcached
        exact ⟨cache, rfl, hcache⟩
      | none =>
        match hstored : data.nodes (Nat.log2 n, start) with
        | some stored =>
          have hd := ((hstores _ _ _).mp hstored).2
          rw [← hsize] at hd
          exact ⟨_, by rw [hd], hcache.update node empty hn hpow hle hd⟩
        | none =>
          obtain ⟨k, hk⟩ : ∃ k, Nat.log2 n = k + 1 :=
            ⟨Nat.log2 n - 1, by rw [block] at hsmall; omega⟩
          rw [hk] at hsize
          have hhalf : n / 2 = 2 ^ k := by rw [hsize, pow_succ]; omega
          have hpos := Nat.two_pow_pos k
          obtain ⟨cacheL, hleft, hcacheL⟩ := ih (n / 2) (by omega) cache hcache start (by omega)
            (by omega)
          obtain ⟨cacheR, hright, hcacheR⟩ := ih (n / 2) (by omega) cacheL hcacheL
            (start + n / 2) (by omega) (by omega)
          have hresult : node (mth node empty (slice leaves start (n / 2)))
              (mth node empty (slice leaves (start + n / 2) (n / 2))) =
              mth node empty (slice leaves start n) := by
            rw [mth_double node empty (hlen.trans hsize), take_slice (by omega), drop_slice, hhalf,
              show n - 2 ^ k = 2 ^ k by omega]
          simp only [hleft, hright, bind, Except.bind, hresult]
          exact ⟨_, rfl, hcacheR.update node empty hn hpow hle rfl⟩
    · have htwo : 2 ≤ n := by omega
      have hlt := split_lt htwo
      have hpos := split_pos n
      obtain ⟨cacheL, hleft, hcacheL⟩ := ih (split n) hlt cache hcache start hpos (by omega)
      obtain ⟨cacheR, hright, hcacheR⟩ := ih (n - split n) (by omega) cacheL hcacheL
        (start + split n) (by omega) (by omega)
      simp only [hleft, hright, bind, Except.bind]
      refine ⟨cacheR, ?_, hcacheR⟩
      rw [mth_split node empty (D := slice leaves start n) (by omega), hlen, take_slice hlt.le,
        drop_slice]

variable {S : Type} {hashed : S → ℕ → ℕ → Except String (H × S)} {Good : S → Prop}

/-- A path over hashes of subtrees is the one of the leaves. -/
theorem Hashes.pathOver_eq (hhash : Hashes node empty hashed Good leaves) {s : S} (hs : Good s)
    (index start n : ℕ) (hle : start + n ≤ leaves.length) :
    ∃ s', pathOver hashed s index start n =
      .ok (path node empty (slice leaves start n) index, s') ∧ Good s' := by
  induction n using Nat.strong_induction_on generalizing s index start with
  | _ n ih =>
    have hlen := length_slice hle
    rw [pathOver]
    split_ifs with htwo hside
    · have hlt := split_lt htwo
      obtain ⟨s₁, hrest, hs₁⟩ := ih (split n) hlt hs index start (by omega)
      obtain ⟨s₂, hlast, hs₂⟩ := hhash s₁ hs₁ (start + split n) (n - split n) (by omega) (by omega)
      simp only [hrest, hlast, bind, Except.bind]
      refine ⟨s₂, ?_, hs₂⟩
      rw [path_of_lt node empty (D := slice leaves start n) (by omega) (by rwa [hlen]), hlen,
        take_slice hlt.le, drop_slice]
    · have hlt := split_lt htwo
      have hpos := split_pos n
      obtain ⟨s₁, hrest, hs₁⟩ := ih (n - split n) (by omega) hs (index - split n)
        (start + split n) (by omega)
      obtain ⟨s₂, hlast, hs₂⟩ := hhash s₁ hs₁ start (split n) hpos (by omega)
      simp only [hrest, hlast, bind, Except.bind]
      refine ⟨s₂, ?_, hs₂⟩
      rw [path_of_le node empty (D := slice leaves start n) (by omega) (by rw [hlen]; omega), hlen,
        take_slice hlt.le, drop_slice]
    · rw [path, dif_neg (by omega)]
      exact ⟨s, rfl, hs⟩

/-- A proof over hashes of subtrees is the one of the leaves. -/
theorem Hashes.subproofOver_eq (hhash : Hashes node empty hashed Good leaves) {s : S}
    (hs : Good s) {m : ℕ} (start n : ℕ) (complete : Bool) (hm : 0 < m) (hmn : m ≤ n)
    (hle : start + n ≤ leaves.length) :
    ∃ s', subproofOver hashed s m start n complete =
      .ok (subproof node empty m (slice leaves start n) complete, s') ∧ Good s' := by
  induction n using Nat.strong_induction_on generalizing s m start complete with
  | _ n ih =>
    have hlen := length_slice hle
    rw [subproofOver]
    split_ifs with hwhole hcomplete htwo hside
    · rw [subproof, if_pos (by omega), if_pos hcomplete]
      exact ⟨s, rfl, hs⟩
    · rw [subproof, if_pos (by omega), if_neg hcomplete]
      obtain ⟨s₁, hlast, hs₁⟩ := hhash s hs start n (by omega) hle
      simp only [hlast, bind, Except.bind]
      exact ⟨s₁, rfl, hs₁⟩
    · have hlt := split_lt htwo
      obtain ⟨s₁, hrest, hs₁⟩ := ih (split n) hlt hs start complete hm hside (by omega)
      obtain ⟨s₂, hlast, hs₂⟩ := hhash s₁ hs₁ (start + split n) (n - split n) (by omega) (by omega)
      simp only [hrest, hlast, bind, Except.bind]
      refine ⟨s₂, ?_, hs₂⟩
      rw [subproof_of_le node empty (D := slice leaves start n) (by omega) (by rwa [hlen]), hlen,
        take_slice hlt.le, drop_slice]
    · have hlt := split_lt htwo
      have hpos := split_pos n
      obtain ⟨s₁, hrest, hs₁⟩ := ih (n - split n) (by omega) hs (start + split n) false
        (show 0 < m - split n by omega) (by omega) (by omega)
      obtain ⟨s₂, hlast, hs₂⟩ := hhash s₁ hs₁ start (split n) hpos (by omega)
      simp only [hrest, hlast, bind, Except.bind]
      refine ⟨s₂, ?_, hs₂⟩
      rw [subproof_of_lt node empty (D := slice leaves start n) (by omega) (by rw [hlen]; omega)
        (by omega), hlen, take_slice hlt.le, drop_slice]
    · omega

end

/-! ### What the leaves alone give -/

section

variable {H : Type} (node : H → H → H) (empty : H) (leaves : List H)

/-- The size asked for of a number of leaves, all of them by default. -/
def sizeOf (count : ℕ) : Option ℤ → Except String ℕ
  | none => .ok count
  | some size =>
    if 0 ≤ size ∧ size ≤ count then .ok size.toNat
    else .error ("the tree has " ++ toString count ++ " leaves, not " ++ toString size)

/-- The head of the first leaves. -/
def headOf (size : Option ℤ) : Except String H :=
  (fun n => mth node empty (leaves.take n)) <$> sizeOf leaves.length size

/-- The path of a leaf among the first leaves. -/
def inclusionOf (index : ℤ) (size : Option ℤ) : Except String (List H) :=
  match sizeOf leaves.length size with
  | .error e => .error e
  | .ok n =>
    if 0 ≤ index ∧ index < n then .ok (path node empty (leaves.take n) index.toNat)
    else .error ("leaf " ++ toString index ++ " is not in a tree of size " ++ toString n)

/-- The proof that some of the first leaves are the first of them. -/
def consistencyOf (oldSize : ℤ) (newSize : Option ℤ) : Except String (List H) :=
  match sizeOf leaves.length newSize with
  | .error e => .error e
  | .ok n =>
    if 0 ≤ oldSize ∧ oldSize ≤ n then
      if oldSize = 0 ∨ oldSize = n then .ok []
      else .ok (subproof node empty oldSize.toNat (leaves.take n) true)
    else
      .error ("cannot prove a tree of size " ++ toString oldSize ++ " is a prefix of size " ++
        toString n)

theorem sizeOf_le {count n : ℕ} {size : Option ℤ} (h : sizeOf count size = .ok n) : n ≤ count := by
  cases size with
  | none => exact (Except.ok.inj h).ge
  | some size =>
    rw [sizeOf] at h
    split_ifs at h with hsize
    obtain rfl := Except.ok.inj h
    omega

end

namespace MerkleTree

variable (t : MerkleTree)

theorem size_cases (size : Option ℤ) :
    (∃ e, t.size size = .error e ∧ sizeOf t.leaves.length size = .error e) ∨
      ∃ n, t.size size = .ok n ∧ sizeOf t.leaves.length size = .ok n.1 := by
  cases size with
  | none => exact .inr ⟨_, rfl, rfl⟩
  | some size =>
    rw [MerkleTree.size, sizeOf]
    split_ifs with h
    · exact .inr ⟨_, rfl, rfl⟩
    · exact .inl ⟨_, rfl, rfl⟩

/-- A tree gives the head of its leaves, whatever it remembers. -/
theorem fst_root (size : Option ℤ) :
    Prod.fst <$> t.root size = headOf nodeHash emptyRoot t.leaves size := by
  rcases t.size_cases size with ⟨e, hsize, hof⟩ | ⟨⟨n, hn⟩, hsize, hof⟩
  · rw [root, headOf, hsize, hof]
    rfl
  · rw [headOf, hof, root, hsize]
    simp only [bind, Except.bind]
    split_ifs with hzero
    · subst hzero
      exact congrArg Except.ok (mth_nil _ _).symm
    · have hspec := hash_spec nodeHash emptyRoot t.sound 0 n (Nat.pos_of_ne_zero hzero) (by omega)
      rw [slice_eq_take] at hspec
      exact congrArg Except.ok hspec.1

/-- A tree gives the paths of its leaves, whatever it remembers. -/
theorem fst_inclusionProof (index : ℤ) (size : Option ℤ) :
    Prod.fst <$> t.inclusionProof index size =
      inclusionOf nodeHash emptyRoot t.leaves index size := by
  rcases t.size_cases size with ⟨e, hsize, hof⟩ | ⟨⟨n, hn⟩, hsize, hof⟩
  · rw [inclusionProof, inclusionOf, hsize, hof]
    rfl
  · rw [inclusionOf, hof, inclusionProof, hsize]
    simp only [bind, Except.bind]
    split_ifs with hin
    · have hspec := pathIn_spec nodeHash emptyRoot t.sound index.toNat 0 n (by omega)
      rw [slice_eq_take] at hspec
      exact congrArg Except.ok hspec.1
    · rfl

/-- A tree gives the proofs of its leaves, whatever it remembers. -/
theorem fst_consistencyProof (oldSize : ℤ) (newSize : Option ℤ) :
    Prod.fst <$> t.consistencyProof oldSize newSize =
      consistencyOf nodeHash emptyRoot t.leaves oldSize newSize := by
  rcases t.size_cases newSize with ⟨e, hsize, hof⟩ | ⟨⟨n, hn⟩, hsize, hof⟩
  · rw [consistencyProof, consistencyOf, hsize, hof]
    rfl
  · rw [consistencyOf, hof, consistencyProof, hsize]
    simp only [bind, Except.bind]
    split_ifs with hle hends
    · rfl
    · have hspec := subproofIn_spec nodeHash emptyRoot t.sound (m := oldSize.toNat) 0 n true
        (by omega) (by omega) (by omega)
      rw [slice_eq_take] at hspec
      exact congrArg Except.ok hspec.1
    · rfl

end MerkleTree

/-! ### Runs of the index -/

section

variable {H : Type} (node : H → H → H) (empty : H)

/-- What every run of an index keeps: the leaves recorded since the last reset, the heads of
exactly their aligned perfect subtrees, and nothing false in the cache of the tree. -/
structure Kept (t : IndexedTree H) (leaves : List H) : Prop where
  holds : t.index.data.Holds leaves
  stores : Stores node empty leaves t.index.data.nodes (Aligned leaves.length)
  count_eq : t.index.count = leaves.length
  version_eq : t.index.data.version = some indexVersion
  sound : t.cache.Sound node empty leaves

/-- The index and its tree after any batches, resets, reopenings and questions, with the leaves of
the batches recorded since the last reset. -/
inductive Recorded : IndexedTree H → List H → Prop
  | opened : Recorded (.opened .init) []
  | add {t t' leaves} (receipts : List (String × ℕ × ℕ × H)) (fileState : Option (ℕ × ℕ)) :
    Recorded t leaves → t.add node receipts fileState = .ok t' →
      Recorded t' (leaves ++ receipts.map fun r => r.2.2.2)
  | reset {t leaves} : Recorded t leaves → Recorded t.reset []
  | reopened {t leaves} : Recorded t leaves → Recorded (.opened t.index.data) leaves
  | root {t t' leaves} (size : Option ℤ) (d : H) : Recorded t leaves →
      t.root node empty size = .ok (d, t') → Recorded t' leaves
  | inclusionProof {t t' leaves} (index : ℤ) (size : Option ℤ) (proof : List H) :
    Recorded t leaves → t.inclusionProof node index size = .ok (proof, t') → Recorded t' leaves
  | consistencyProof {t t' leaves} (oldSize : ℤ) (newSize : Option ℤ) (proof : List H) :
    Recorded t leaves → t.consistencyProof node oldSize newSize = .ok (proof, t') →
      Recorded t' leaves

variable {node empty} {t : IndexedTree H} {leaves : List H}

theorem Stores.nil (count : ℕ) (hcount : count = 0) :
    Stores node empty ([] : List H) (fun _ => none) (Aligned count) := by
  intro level start d
  have := Nat.two_pow_pos level
  simp only [Aligned, reduceCtorEq, false_iff, not_and]
  intro hin
  omega

theorem Kept.reset (t : IndexedTree H) : Kept node empty t.reset [] where
  holds := ⟨rfl, rfl⟩
  stores := Stores.nil _ rfl
  count_eq := rfl
  version_eq := rfl
  sound := nofun

theorem Kept.opened : Kept node empty (IndexedTree.opened (.init : Database H)) [] where
  holds := ⟨rfl, rfl⟩
  stores := Stores.nil _ rfl
  count_eq := rfl
  version_eq := rfl
  sound := nofun

/-- Opening a database again reads the counters back from its last row. -/
theorem Kept.reopened (h : Kept node empty t leaves) :
    Kept node empty (.opened t.index.data) leaves := by
  have hopened : Index.opened t.index.data = Index.refresh t.index.data := by
    rw [Index.opened, if_pos h.version_eq]
  have hdata : (Index.refresh t.index.data).data = t.index.data := by
    rw [Index.refresh]
    split <;> rfl
  have hcount : (Index.refresh t.index.data).count = leaves.length := by
    rw [← h.holds.length_eq, Index.refresh]
    match hlast : t.index.data.leaves.getLast? with
    | none => rw [List.getLast?_eq_none_iff.mp hlast, List.length_nil]
    | some row =>
      have hindex := congrArg List.getLast? h.holds.index_eq
      rw [List.getLast?_map, hlast, ← h.holds.length_eq, List.getLast?_range] at hindex
      split_ifs at hindex with hzero
      · cases hindex
      · rw [Option.map_some, Option.some.injEq] at hindex
        simp only
        omega
  refine ⟨?_, ?_, ?_, ?_, nofun⟩
  · rw [IndexedTree.opened, hopened, hdata]
    exact h.holds
  · rw [IndexedTree.opened, hopened, hdata]
    exact h.stores
  · rw [IndexedTree.opened, hopened, hcount]
  · rw [IndexedTree.opened, hopened, hdata, h.version_eq]

theorem Index.rowsOf_index (index : Index H) (receipts : List (String × ℕ × ℕ × H)) :
    (index.rowsOf receipts).map (·.index) =
      List.range' index.count (index.rowsOf receipts).length := by
  rw [rowsOf, List.map_map, List.length_map, List.length_zipIdx]
  exact List.zipIdx_map_snd index.count receipts

theorem Index.rowsOf_leaf (index : Index H) (receipts : List (String × ℕ × ℕ × H)) :
    (index.rowsOf receipts).map (·.leaf) = receipts.map fun r => r.2.2.2 := by
  rw [rowsOf, List.map_map]
  conv_rhs => rw [← List.zipIdx_map_fst index.count receipts, List.map_map]
  rfl

theorem Index.rowsOf_receiptId (index : Index H) (receipts : List (String × ℕ × ℕ × H)) :
    (index.rowsOf receipts).map (·.receiptId) = receipts.map Prod.fst := by
  rw [rowsOf, List.map_map]
  conv_rhs => rw [← List.zipIdx_map_fst index.count receipts, List.map_map]
  rfl

theorem Index.add_of_completed {index : Index H} {rows : List (LeafRow H)} {last : LeafRow H}
    {fileState : Option (ℕ × ℕ)} {inserted completed : Database H}
    (hlast : rows.getLast? = some last)
    (hins : rows.foldlM Database.insert (index.data.recordFile fileState) = .ok inserted)
    (hcompleted : rows.foldlM (fun data row => data.completeFrom node row.index block) inserted =
      .ok completed) :
    index.add node rows fileState =
      .ok ⟨completed, last.index + 1, last.offset + last.length + 1⟩ := by
  rw [Index.add, hlast]
  simp only [hins, hcompleted, bind, Except.bind]

theorem Cache.Sound.append {cache : Cache H} (h : cache.Sound node empty leaves) (more : List H) :
    cache.Sound node empty (leaves ++ more) := by
  intro start n d hd
  obtain ⟨hn, hle, heq⟩ := h start n d hd
  refine ⟨hn, by rw [List.length_append]; omega, ?_⟩
  rw [heq, slice, slice, List.drop_append_of_le_length (by omega),
    List.take_append_of_le_length (by rw [List.length_drop]; omega)]

/-- The index of the last of some rows in a row. -/
theorem index_getLast {rows : List (LeafRow H)} {count : ℕ} {last : LeafRow H}
    (h : rows.map (·.index) = List.range' count rows.length) (hlast : rows.getLast? = some last) :
    last.index + 1 = count + rows.length := by
  obtain ⟨front, rfl⟩ := List.getLast?_eq_some_iff.mp hlast
  rw [List.length_append, List.length_singleton, List.range'_1_concat, List.map_append] at h
  have hindex := (List.append_inj' h rfl).2
  rw [List.map_singleton, List.singleton_inj] at hindex
  rw [hindex, List.length_append, List.length_singleton, Nat.add_assoc]

/-- A batch that the table of leaves takes is recorded with every subtree it completes. -/
theorem Kept.add_of_inserted (h : Kept node empty t leaves)
    {receipts : List (String × ℕ × ℕ × H)} {fileState : Option (ℕ × ℕ)} {inserted : Database H}
    (hins : (t.index.rowsOf receipts).foldlM Database.insert (t.index.data.recordFile fileState) =
      .ok inserted) :
    ∃ t', t.add node receipts fileState = .ok t' ∧
      Kept node empty t' (leaves ++ receipts.map fun r => r.2.2.2) ∧
      t'.index.data.leaves.map (·.receiptId) =
        t.index.data.leaves.map (·.receiptId) ++ receipts.map Prod.fst := by
  have hholds : (t.index.data.recordFile fileState).Holds leaves :=
    ⟨h.holds.index_eq, h.holds.leaf_eq⟩
  set rows := t.index.rowsOf receipts with hrows
  have hleaf : rows.map (·.leaf) = receipts.map fun r => r.2.2.2 := t.index.rowsOf_leaf receipts
  have hlength : rows.length = (receipts.map fun r => r.2.2.2).length := by
    rw [← hleaf, List.length_map]
  have hindex : rows.map (·.index) = List.range' leaves.length rows.length :=
    h.count_eq ▸ t.index.rowsOf_index receipts
  match hlast : rows.getLast? with
  | none =>
    have hnone : receipts.map (fun r => r.2.2.2) = [] := by
      rw [← hleaf, List.getLast?_eq_none_iff.mp hlast, List.map_nil]
    refine ⟨_, by rw [IndexedTree.add, Index.add, ← hrows, hlast]; rfl, ?_⟩
    have hids : receipts.map Prod.fst = [] := by
      rw [← t.index.rowsOf_receiptId, ← hrows, List.getLast?_eq_none_iff.mp hlast, List.map_nil]
    rw [hnone, hids, List.append_nil, List.append_nil]
    exact ⟨⟨hholds, h.stores, h.count_eq, h.version_eq, h.sound⟩, rfl⟩
  | some last =>
    obtain ⟨hinserted, hall⟩ := hholds.insertAll hindex hins
    have hstores : Stores node empty (leaves ++ rows.map (·.leaf)) inserted.nodes
        (Aligned leaves.length) := by
      rw [hinserted]
      exact h.stores.append node empty le_rfl _
    rw [hleaf] at hall hstores
    obtain ⟨nodes, hcompleted, hdone⟩ := hall.completeAll node empty hindex
      (by rw [List.length_append, hlength]) hstores
    refine ⟨⟨⟨{ inserted with nodes }, last.index + 1, last.offset + last.length + 1⟩, t.cache⟩,
      ?_, ⟨⟨hall.index_eq, hall.leaf_eq⟩, ?_, ?_, ?_, h.sound.append _⟩, ?_⟩
    · rw [IndexedTree.add, Index.add_of_completed hlast hins hcompleted]
      rfl
    · rwa [List.length_append, ← hlength]
    · rw [List.length_append, ← hlength]
      exact index_getLast hindex hlast
    · rw [hinserted]
      exact h.version_eq
    · change inserted.leaves.map (·.receiptId) = _
      rw [hinserted, ← t.index.rowsOf_receiptId, ← hrows]
      exact List.map_append

/-- A batch of receipts with new ids is recorded. -/
theorem Kept.exists_add (h : Kept node empty t leaves) {receipts : List (String × ℕ × ℕ × H)}
    (fileState : Option (ℕ × ℕ))
    (hids : (t.index.data.leaves.map (·.receiptId) ++ receipts.map Prod.fst).Nodup) :
    ∃ t', t.add node receipts fileState = .ok t' := by
  have hholds : (t.index.data.recordFile fileState).Holds leaves :=
    ⟨h.holds.index_eq, h.holds.leaf_eq⟩
  obtain ⟨inserted, hins⟩ : ∃ inserted, (t.index.rowsOf receipts).foldlM Database.insert
      (t.index.data.recordFile fileState) = .ok inserted := hholds.exists_insertAll
    (h.count_eq ▸ t.index.rowsOf_index receipts) (by rwa [t.index.rowsOf_receiptId])
  obtain ⟨t', ht', -⟩ := h.add_of_inserted hins
  exact ⟨t', ht'⟩

/-- A batch that is recorded adds its leaves and its receipt ids. -/
theorem Kept.added (h : Kept node empty t leaves) {receipts : List (String × ℕ × ℕ × H)}
    {fileState : Option (ℕ × ℕ)} {t' : IndexedTree H}
    (hadd : t.add node receipts fileState = .ok t') :
    Kept node empty t' (leaves ++ receipts.map fun r => r.2.2.2) ∧
      t'.index.data.leaves.map (·.receiptId) =
        t.index.data.leaves.map (·.receiptId) ++ receipts.map Prod.fst := by
  have hinserted : ∃ inserted, (t.index.rowsOf receipts).foldlM Database.insert
      (t.index.data.recordFile fileState) = .ok inserted := by
    match hins : (t.index.rowsOf receipts).foldlM Database.insert
        (t.index.data.recordFile fileState) with
    | .ok inserted => exact ⟨inserted, rfl⟩
    | .error e =>
      rw [IndexedTree.add, Index.add] at hadd
      match hlast : (t.index.rowsOf receipts).getLast? with
      | none =>
        rw [List.getLast?_eq_none_iff.mp hlast] at hins
        cases hins
      | some last =>
        rw [hlast] at hadd
        simp only [hins, bind, Except.bind] at hadd
        cases hadd
  obtain ⟨inserted, hins⟩ := hinserted
  obtain ⟨t'', ht'', hkept⟩ := h.add_of_inserted hins
  obtain rfl : t'' = t' := Except.ok.inj (ht''.symm.trans hadd)
  exact hkept

theorem Kept.add (h : Kept node empty t leaves) {receipts : List (String × ℕ × ℕ × H)}
    {fileState : Option (ℕ × ℕ)} {t' : IndexedTree H}
    (hadd : t.add node receipts fileState = .ok t') :
    Kept node empty t' (leaves ++ receipts.map fun r => r.2.2.2) := (h.added hadd).1

/-! ### Questions to the tree -/

theorem IndexedTree.size_eq (h : Kept node empty t leaves) (size : Option ℤ) :
    t.size size = sizeOf leaves.length size := by
  cases size with
  | none => exact congrArg Except.ok h.count_eq
  | some size => rw [IndexedTree.size, sizeOf, h.count_eq]

theorem Kept.hashes (h : Kept node empty t leaves) :
    Hashes node empty (hashStored node t.index.data) (Cache.Sound node empty leaves) leaves :=
  h.holds.hashes node empty h.stores

/-- What a question answers, and what the tree is afterwards. -/
def Answers {α : Type} (node : H → H → H) (empty : H) (leaves : List H)
    (asked : Except String (α × IndexedTree H)) (answer : Except String α) : Prop :=
  match answer with
  | .error e => asked = .error e
  | .ok a => ∃ t', asked = .ok (a, t') ∧ Kept node empty t' leaves

theorem Kept.remember (h : Kept node empty t leaves) {cache : Cache H}
    (hcache : cache.Sound node empty leaves) : Kept node empty { t with cache } leaves :=
  ⟨h.holds, h.stores, h.count_eq, h.version_eq, hcache⟩

theorem Kept.root (h : Kept node empty t leaves) (size : Option ℤ) :
    Answers node empty leaves (t.root node empty size) (headOf node empty leaves size) := by
  rw [IndexedTree.root, headOf, t.size_eq h]
  match hsize : sizeOf leaves.length size with
  | .error e => rfl
  | .ok n =>
    have hle := sizeOf_le hsize
    show ∃ t', _
    simp only [bind, Except.bind]
    split_ifs with hzero
    · exact ⟨t, by rw [hzero, List.take_zero, mth_nil], h⟩
    · obtain ⟨cache, hhash, hcache⟩ := h.hashes t.cache h.sound 0 n (Nat.pos_of_ne_zero hzero)
        (by omega)
      refine ⟨_, ?_, h.remember hcache⟩
      rw [hhash, slice, List.drop_zero]
      rfl

theorem Kept.inclusionProof (h : Kept node empty t leaves) (index : ℤ) (size : Option ℤ) :
    Answers node empty leaves (t.inclusionProof node index size)
      (inclusionOf node empty leaves index size) := by
  rw [IndexedTree.inclusionProof, inclusionOf, t.size_eq h]
  match hsize : sizeOf leaves.length size with
  | .error e => rfl
  | .ok n =>
    have hle := sizeOf_le hsize
    simp only [bind, Except.bind]
    split_ifs with hin
    · obtain ⟨cache, hpath, hcache⟩ := h.hashes.pathOver_eq node empty h.sound index.toNat 0 n
        (by omega)
      refine ⟨_, ?_, h.remember hcache⟩
      rw [hpath, slice, List.drop_zero]
      rfl
    · rfl

theorem Kept.consistencyProof (h : Kept node empty t leaves) (oldSize : ℤ)
    (newSize : Option ℤ) :
    Answers node empty leaves (t.consistencyProof node oldSize newSize)
      (consistencyOf node empty leaves oldSize newSize) := by
  rw [IndexedTree.consistencyProof, consistencyOf, t.size_eq h]
  match hsize : sizeOf leaves.length newSize with
  | .error e => rfl
  | .ok n =>
    have hle := sizeOf_le hsize
    simp only [bind, Except.bind]
    split_ifs with hsizes hends
    · exact ⟨t, rfl, h⟩
    · obtain ⟨cache, hproof, hcache⟩ := h.hashes.subproofOver_eq node empty h.sound
        (m := oldSize.toNat) 0 n true (by omega) (by omega) (by omega)
      refine ⟨_, ?_, h.remember hcache⟩
      rw [hproof, slice, List.drop_zero]
      rfl
    · rfl

variable {α : Type} {asked : Except String (α × IndexedTree H)} {answer : Except String α}

theorem Answers.fst_eq (h : Answers node empty leaves asked answer) :
    Prod.fst <$> asked = answer := by
  match answer, h with
  | .error e, h => rw [show asked = .error e from h]; rfl
  | .ok a, ⟨t', h, _⟩ => rw [h]; rfl

theorem Answers.kept (h : Answers node empty leaves asked answer) {a : α} {t' : IndexedTree H}
    (hasked : asked = .ok (a, t')) : Kept node empty t' leaves := by
  match answer, h with
  | .error e, h => exact absurd (hasked.symm.trans h) nofun
  | .ok b, ⟨u, h, hkept⟩ =>
    obtain ⟨-, rfl⟩ := Prod.mk.inj (Except.ok.inj (hasked.symm.trans h))
    exact hkept

/-- Every run keeps it. -/
theorem Recorded.kept (h : Recorded node empty t leaves) : Kept node empty t leaves := by
  induction h with
  | opened => exact Kept.opened
  | add receipts fileState _ hadd ih => exact ih.add hadd
  | reset _ _ => exact Kept.reset _
  | reopened _ ih => exact ih.reopened
  | root size d _ hasked ih => exact (ih.root size).kept hasked
  | inclusionProof index size proof _ hasked ih => exact (ih.inclusionProof index size).kept hasked
  | consistencyProof oldSize newSize proof _ hasked ih =>
    exact (ih.consistencyProof oldSize newSize).kept hasked

end

/-- After any run the tree over the index answers every question as a tree over the leaves recorded
since the last reset, the index holds the head of exactly every aligned perfect subtree of
`2 ^ BLOCK` leaves or more, and it takes every batch whose receipt ids are new. -/
theorem IndexedTree.stored_tree {t : IndexedTree (List Byte)} {leaves : List (List Byte)}
    (h : Recorded nodeHash emptyRoot t leaves) :
    (∀ m : MerkleTree, m.leaves = leaves →
      (∀ size, Prod.fst <$> t.root nodeHash emptyRoot size = Prod.fst <$> m.root size) ∧
      (∀ index size,
        Prod.fst <$> t.inclusionProof nodeHash index size =
          Prod.fst <$> m.inclusionProof index size) ∧
      ∀ oldSize newSize,
        Prod.fst <$> t.consistencyProof nodeHash oldSize newSize =
          Prod.fst <$> m.consistencyProof oldSize newSize) ∧
    (∀ level start d, t.index.data.nodes (level, start) = some d ↔
      (block ≤ level ∧ 2 ^ level ∣ start ∧ start + 2 ^ level ≤ leaves.length) ∧
        d = mth nodeHash emptyRoot (slice leaves start (2 ^ level))) ∧
    ∀ receipts fileState,
      (t.index.data.leaves.map (·.receiptId) ++ receipts.map Prod.fst).Nodup →
        ∃ t', t.add nodeHash receipts fileState = .ok t' := by
  have hkept := h.kept
  refine ⟨?_, hkept.stores, fun receipts fileState hids => hkept.exists_add fileState hids⟩
  rintro m rfl
  refine ⟨fun size => ?_, fun index size => ?_, fun oldSize newSize => ?_⟩
  · rw [(hkept.root size).fst_eq, m.fst_root]
  · rw [(hkept.inclusionProof index size).fst_eq, m.fst_inclusionProof]
  · rw [(hkept.consistencyProof oldSize newSize).fst_eq, m.fst_consistencyProof]

/-- Some receipts from an index on, with ids of their own. -/
def sampleReceipts (start n : ℕ) : List (String × ℕ × ℕ × List Byte) :=
  (List.range' start n).map fun i =>
    (String.ofList (List.replicate i 'r'), 10 * i, 9, List.replicate 32 (Fin.ofNat 256 i))

theorem sampleReceipts_ids (n m : ℕ) :
    ((sampleReceipts 0 n).map Prod.fst ++ (sampleReceipts n m).map Prod.fst).Nodup := by
  have happend : sampleReceipts 0 n ++ sampleReceipts n m = sampleReceipts 0 (n + m) := by
    rw [sampleReceipts, sampleReceipts, ← List.map_append]
    have hrange := List.range'_append_1 (s := 0) (m := n) (n := m)
    rw [Nat.zero_add] at hrange
    rw [hrange, sampleReceipts]
  rw [← List.map_append, happend, sampleReceipts, List.map_map]
  refine List.Nodup.map (fun i j h => ?_) (List.nodup_range')
  have hlength := congrArg (fun s : String => s.toList.length) h
  simpa using hlength

/-- A tree in memory over the leaves of six hundred. -/
def sampleMemory : MerkleTree where
  leaves := (sampleReceipts 0 300 ++ sampleReceipts 300 300).map fun r => r.2.2.2
  cache := fun _ => none
  length_leaf := by
    intro l hl
    obtain ⟨r, hr, rfl⟩ := List.mem_map.mp hl
    rcases List.mem_append.mp hr with hr | hr
    · obtain ⟨i, -, rfl⟩ := List.mem_map.mp hr
      exact List.length_replicate ..
    · obtain ⟨i, -, rfl⟩ := List.mem_map.mp hr
      exact List.length_replicate ..
  sound := nofun

/-- Two batches after a reset: the heads of the first and the second 256 leaves are stored, no
other, and a leaf of the second batch is proved as in memory. -/
theorem IndexedTree.stored_tree_batches :
    ∃ t : IndexedTree (List Byte), Recorded nodeHash emptyRoot t sampleMemory.leaves ∧
      t.index.data.nodes (8, 256) =
        some (mth nodeHash emptyRoot (slice sampleMemory.leaves 256 256)) ∧
      t.index.data.nodes (8, 512) = none ∧
      Prod.fst <$> t.inclusionProof nodeHash 555 none =
        Prod.fst <$> sampleMemory.inclusionProof 555 none ∧
      Prod.fst <$> t.consistencyProof nodeHash 300 none =
        Prod.fst <$> sampleMemory.consistencyProof 300 none := by
  have hopened : Recorded nodeHash emptyRoot (opened .init) [] := .opened
  obtain ⟨t₀, hadd₀⟩ := (stored_tree hopened).2.2 (sampleReceipts 0 1) none
    (by simp [opened, Index.opened, Index.refresh, Index.reset, Database.init, sampleReceipts])
  have hreset := Recorded.reset (.add _ none hopened hadd₀)
  have hids := sampleReceipts_ids 300 300
  obtain ⟨t₁, hadd₁⟩ := (stored_tree hreset).2.2 (sampleReceipts 0 300) none
    (List.Nodup.of_append_left hids)
  have hfirst := Recorded.add _ none hreset hadd₁
  obtain ⟨t, hadd⟩ := (stored_tree hfirst).2.2 (sampleReceipts 300 300) none
    (by rwa [(hreset.kept.added hadd₁).2])
  have hrecorded : Recorded nodeHash emptyRoot t sampleMemory.leaves := by
    have hboth := Recorded.add _ none hfirst hadd
    rw [List.nil_append, ← List.map_append] at hboth
    exact hboth
  obtain ⟨hanswers, hstores, -⟩ := stored_tree hrecorded
  have hlength : sampleMemory.leaves.length = 600 := by simp [sampleMemory, sampleReceipts]
  obtain ⟨-, hinclusion, hconsistency⟩ := hanswers sampleMemory rfl
  refine ⟨t, hrecorded, (hstores 8 256 _).mpr ⟨⟨le_rfl, by decide, by rw [hlength]; decide⟩, rfl⟩,
    ?_, hinclusion 555 none, hconsistency 300 none⟩
  refine Option.eq_none_iff_forall_ne_some.mpr fun d hd => ?_
  have hin := ((hstores 8 512 d).mp hd).1.2.2
  rw [hlength] at hin
  exact absurd hin (by decide)

end AgentGov.Receipts
