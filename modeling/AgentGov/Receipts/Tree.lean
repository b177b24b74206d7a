import AgentGov.Receipts.Proofs

/-!
# The tree of a log

A tree of leaf hashes that remembers the hashes of the whole, aligned subtrees it was asked for.
What it remembers never changes as the tree grows, so every root and every proof is the one the
recursions over its leaves give.

## Main definitions

* `AgentGov.Receipts.Cache`, `AgentGov.Receipts.Cache.Sound`: hashes by start and size.
* `AgentGov.Receipts.hash`, `AgentGov.Receipts.pathIn`, `AgentGov.Receipts.subproofIn`: the
  recursions with a cache.
* `AgentGov.Receipts.MerkleTree`: a tree, every leaf as long as a hash and its cache sound.

## Main results

* `AgentGov.Receipts.hash_spec`: a hash with a cache is a head.
* `AgentGov.Receipts.MerkleTree.inclusion_proofs`: inclusion proofs are complete and sound.
* `AgentGov.Receipts.MerkleTree.consistency_proofs`: consistency proofs are complete and sound.
-/

namespace AgentGov.Receipts

open Foundation Foundation.Merkle

/-! ### The recursions with a cache -/

/-- The hashes of some subtrees, by start and size. -/
abbrev Cache (H : Type*) := ℕ × ℕ → Option H

section

variable {H : Type*} (node : H → H → H) (empty : H) (leaves : List H)

/-- `n` leaves from a start on. -/
def slice (start n : ℕ) : List H := (leaves.drop start).take n

/-- What a cache holds are heads of the leaves. -/
def Cache.Sound (cache : Cache H) : Prop :=
  ∀ start n d, cache (start, n) = some d →
    0 < n ∧ start + n ≤ leaves.length ∧ d = mth node empty (slice leaves start n)

/-- What a cache holds for a subtree of an aligned size. -/
def Cache.get (cache : Cache H) (start n : ℕ) : Option H :=
  if n &&& (n - 1) = 0 then cache (start, n) else none

/-- The cache with the hash of a subtree, where its size is aligned. -/
def Cache.put (cache : Cache H) (start n : ℕ) (d : H) : Cache H :=
  if n &&& (n - 1) = 0 then Function.update cache (start, n) (some d) else cache

/-- `_hash`: the head of `n` leaves from a start on, and what the cache holds afterwards. -/
def hash (cache : Cache H) (start n : ℕ) : H × Cache H :=
  if _ : 2 ≤ n then
    match cache.get start n with
    | some cached => (cached, cache)
    | none =>
      let left := hash cache start (split n)
      let right := hash left.2 (start + split n) (n - split n)
      let result := node left.1 right.1
      (result, right.2.put start n result)
  else (leaves.getD start empty, cache)
termination_by n
decreasing_by
  · exact split_lt ‹2 ≤ n›
  · have := split_pos n
    omega

/-- `_path`. -/
def pathIn (cache : Cache H) (index start n : ℕ) : List H × Cache H :=
  if _ : 2 ≤ n then
    if index < split n then
      let rest := pathIn cache index start (split n)
      let last := hash node empty leaves rest.2 (start + split n) (n - split n)
      (rest.1 ++ [last.1], last.2)
    else
      let rest := pathIn cache (index - split n) (start + split n) (n - split n)
      let last := hash node empty leaves rest.2 start (split n)
      (rest.1 ++ [last.1], last.2)
  else ([], cache)
termination_by n
decreasing_by
  · exact split_lt ‹2 ≤ n›
  · have := split_pos n
    omega

/-- `_subproof`. -/
def subproofIn (cache : Cache H) (m start n : ℕ) (complete : Bool) : List H × Cache H :=
  if m = n then
    if complete then ([], cache)
    else
      let last := hash node empty leaves cache start n
      ([last.1], last.2)
  else if _ : 2 ≤ n then
    if m ≤ split n then
      let rest := subproofIn cache m start (split n) complete
      let last := hash node empty leaves rest.2 (start + split n) (n - split n)
      (rest.1 ++ [last.1], last.2)
    else
      let rest := subproofIn cache (m - split n) (start + split n) (n - split n) false
      let last := hash node empty leaves rest.2 start (split n)
      (rest.1 ++ [last.1], last.2)
  else ([], cache)
termination_by n
decreasing_by
  · exact split_lt ‹2 ≤ n›
  · have := split_pos n
    omega

variable {leaves}

theorem length_slice {start n : ℕ} (h : start + n ≤ leaves.length) :
    (slice leaves start n).length = n := by
  rw [slice, List.length_take, List.length_drop]
  omega

theorem take_slice {start n k : ℕ} (h : k ≤ n) :
    (slice leaves start n).take k = slice leaves start k := by
  rw [slice, slice, List.take_take, min_eq_left h]

theorem drop_slice (start n k : ℕ) :
    (slice leaves start n).drop k = slice leaves (start + k) (n - k) := by
  rw [slice, slice, List.drop_take, List.drop_drop]

theorem slice_one {start : ℕ} (h : start < leaves.length) :
    slice leaves start 1 = [leaves.getD start empty] := by
  rw [slice, List.drop_eq_getElem_cons h, List.getD_eq_getElem?_getD, List.getElem?_eq_getElem h]
  rfl

theorem Cache.Sound.get {cache : Cache H} (hcache : cache.Sound node empty leaves) {start n : ℕ}
    {d : H} (h : cache.get start n = some d) : d = mth node empty (slice leaves start n) := by
  rw [Cache.get] at h
  split_ifs at h
  exact (hcache _ _ _ h).2.2

theorem Cache.Sound.put {cache : Cache H} (hcache : cache.Sound node empty leaves) {start n : ℕ}
    {d : H} (hn : 0 < n) (hle : start + n ≤ leaves.length)
    (hd : d = mth node empty (slice leaves start n)) :
    Cache.Sound node empty leaves (cache.put start n d) := by
  rw [Cache.put]
  split_ifs
  · intro start' n' d' h
    by_cases heq : (start', n') = (start, n)
    · rw [heq, Function.update_self, Option.some.injEq] at h
      obtain ⟨rfl, rfl⟩ := Prod.mk.inj heq
      exact ⟨hn, hle, h ▸ hd⟩
    · rw [Function.update_of_ne heq] at h
      exact hcache _ _ _ h
  · exact hcache

/-- With a sound cache a hash is a head, and the cache stays sound. -/
theorem hash_spec {cache : Cache H} (hcache : cache.Sound node empty leaves) (start n : ℕ)
    (hn : 0 < n) (hle : start + n ≤ leaves.length) :
    (hash node empty leaves cache start n).1 = mth node empty (slice leaves start n) ∧
      (hash node empty leaves cache start n).2.Sound node empty leaves := by
  induction n using Nat.strong_induction_on generalizing cache start with
  | _ n ih =>
    rw [hash]
    by_cases htwo : 2 ≤ n
    · rw [dif_pos htwo]
      have hlt := split_lt htwo
      have hpos := split_pos n
      match hit : cache.get start n with
      | some cached => exact ⟨hcache.get node empty hit, hcache⟩
      | none =>
        obtain ⟨hleft, hcacheL⟩ := ih (split n) hlt hcache start hpos (by omega)
        obtain ⟨hright, hcacheR⟩ := ih (n - split n) (by omega) hcacheL
          (start + split n) (by omega) (by omega)
        have hlen := length_slice hle
        have hresult : node (hash node empty leaves cache start (split n)).1
            (hash node empty leaves (hash node empty leaves cache start (split n)).2
              (start + split n) (n - split n)).1 = mth node empty (slice leaves start n) := by
          rw [mth_split node empty (by omega), hlen, take_slice hlt.le, drop_slice, hleft, hright]
        exact ⟨hresult, hcacheR.put node empty hn hle hresult⟩
    · obtain rfl : n = 1 := by omega
      rw [dif_neg htwo, slice_one empty (by omega), mth_singleton]
      exact ⟨rfl, hcache⟩

/-- With a sound cache a path is the one of the leaves. -/
theorem pathIn_spec {cache : Cache H} (hcache : cache.Sound node empty leaves) (index start n : ℕ)
    (hle : start + n ≤ leaves.length) :
    (pathIn node empty leaves cache index start n).1 =
        path node empty (slice leaves start n) index ∧
      (pathIn node empty leaves cache index start n).2.Sound node empty leaves := by
  induction n using Nat.strong_induction_on generalizing cache index start with
  | _ n ih =>
    have hlen := length_slice hle
    rw [pathIn]
    split_ifs with htwo hside
    · have hlt := split_lt htwo
      obtain ⟨hrest, hcacheL⟩ := ih (split n) hlt hcache index start (by omega)
      obtain ⟨hlast, hcacheR⟩ := hash_spec node empty hcacheL (start + split n) (n - split n)
        (by omega) (by omega)
      refine ⟨?_, hcacheR⟩
      rw [path_of_lt node empty (by omega) (by rwa [hlen]), hlen, take_slice hlt.le, drop_slice,
        ← hrest, ← hlast]
    · have hlt := split_lt htwo
      have hpos := split_pos n
      obtain ⟨hrest, hcacheL⟩ := ih (n - split n) (by omega) hcache (index - split n)
        (start + split n) (by omega)
      obtain ⟨hlast, hcacheR⟩ := hash_spec node empty hcacheL start _ hpos (by omega)
      refine ⟨?_, hcacheR⟩
      rw [path_of_le node empty (by omega) (by rw [hlen]; omega), hlen, take_slice hlt.le, drop_slice,
        ← hrest, ← hlast]
    · rw [path, dif_neg (by omega)]
      exact ⟨rfl, hcache⟩

/-- With a sound cache a proof is the one of the leaves. -/
theorem subproofIn_spec {cache : Cache H} (hcache : cache.Sound node empty leaves)
    {m : ℕ} (start n : ℕ) (complete : Bool) (hm : 0 < m) (hmn : m ≤ n)
    (hle : start + n ≤ leaves.length) :
    (subproofIn node empty leaves cache m start n complete).1 =
        subproof node empty m (slice leaves start n) complete ∧
      (subproofIn node empty leaves cache m start n complete).2.Sound node empty leaves := by
  induction n using Nat.strong_induction_on generalizing cache m start complete with
  | _ n ih =>
    have hlen := length_slice hle
    rw [subproofIn]
    split_ifs with hwhole hcomplete htwo hside
    · rw [subproof, if_pos (by omega), if_pos hcomplete]
      exact ⟨rfl, hcache⟩
    · rw [subproof, if_pos (by omega), if_neg hcomplete]
      obtain ⟨hlast, hcacheR⟩ := hash_spec node empty hcache start n (by omega) hle
      exact ⟨by rw [← hlast], hcacheR⟩
    · have hlt := split_lt htwo
      obtain ⟨hrest, hcacheL⟩ := ih (split n) hlt hcache start complete hm hside (by omega)
      obtain ⟨hlast, hcacheR⟩ := hash_spec node empty hcacheL (start + split n) (n - split n)
        (by omega) (by omega)
      refine ⟨?_, hcacheR⟩
      rw [subproof_of_le node empty (by omega) (by rwa [hlen]), hlen, take_slice hlt.le, drop_slice,
        ← hrest, ← hlast]
    · have hlt := split_lt htwo
      have hpos := split_pos n
      obtain ⟨hrest, hcacheL⟩ := ih (n - split n) (by omega) hcache (start + split n) false
        (show 0 < m - split n by omega) (by omega) (by omega)
      obtain ⟨hlast, hcacheR⟩ := hash_spec node empty hcacheL start _ hpos (by omega)
      refine ⟨?_, hcacheR⟩
      rw [subproof_of_lt node empty (by omega) (by rw [hlen]; omega) (by omega), hlen, take_slice hlt.le,
        drop_slice, ← hrest, ← hlast]
    · omega

end

/-! ### The tree -/

/-- An append-only tree over leaf hashes, with a cache. -/
structure MerkleTree where
  leaves : List (List Byte)
  cache : Cache (List Byte)
  /-- A leaf is as long as a hash. -/
  length_leaf : ∀ l ∈ leaves, l.length = 32
  /-- The cache holds what the leaves give. -/
  sound : cache.Sound nodeHash emptyRoot leaves

namespace MerkleTree

/-- The tree before any leaf. -/
def init : MerkleTree where
  leaves := []
  cache := fun _ => none
  length_leaf := by simp
  sound := nofun

theorem sound_append {leaves : List (List Byte)} {cache : Cache (List Byte)}
    (h : cache.Sound nodeHash emptyRoot leaves) (leaf : List Byte) :
    cache.Sound nodeHash emptyRoot (leaves ++ [leaf]) := by
  intro start n d hd
  obtain ⟨hn, hle, heq⟩ := h start n d hd
  refine ⟨hn, by rw [List.length_append]; omega, ?_⟩
  rw [heq, slice, slice, List.drop_append_of_le_length (by omega),
    List.take_append_of_le_length (by rw [List.length_drop]; omega)]

/-- `append`: the tree with one more leaf, and its index. -/
def append (t : MerkleTree) (leaf : List Byte) : Except String (ℕ × MerkleTree) :=
  if h : leaf.length = 32 then
    .ok (t.leaves.length,
      { leaves := t.leaves ++ [leaf]
        cache := t.cache
        length_leaf := fun l hl => (List.mem_append.mp hl).elim (t.length_leaf l) fun hl => by
          rwa [List.mem_singleton.mp hl]
        sound := sound_append t.sound leaf })
  else .error ("a leaf hash is 32 bytes, got " ++ toString leaf.length)

/-- `MerkleTree(leaf_hashes)`. -/
def ofLeaves (leaves : List (List Byte)) : Except String MerkleTree :=
  leaves.foldlM (fun t leaf => Prod.snd <$> t.append leaf) init

/-- The tree with more in its cache. -/
def remember (t : MerkleTree) {α : Type*} (r : α × Cache (List Byte))
    (h : r.2.Sound nodeHash emptyRoot t.leaves) : α × MerkleTree :=
  (r.1, { t with cache := r.2, sound := h })

/-- `_size`: the size asked for, or that of the tree. -/
def size (t : MerkleTree) : Option ℤ → Except String {n : ℕ // n ≤ t.leaves.length}
  | none => .ok ⟨t.leaves.length, le_rfl⟩
  | some size =>
    if h : 0 ≤ size ∧ size ≤ t.leaves.length then .ok ⟨size.toNat, Int.toNat_le.mpr h.2⟩
    else .error ("the tree has " ++ toString t.leaves.length ++ " leaves, not " ++ toString size)

/-- `root`: the head of the first leaves, all of them by default. -/
def root (t : MerkleTree) (size : Option ℤ) : Except String (List Byte × MerkleTree) := do
  let n ← t.size size
  if h : n.1 = 0 then .ok (emptyRoot, t)
  else
    .ok (t.remember (hash nodeHash emptyRoot t.leaves t.cache 0 n)
      (hash_spec nodeHash emptyRoot t.sound _ _ (Nat.pos_of_ne_zero h) (by simpa using n.2)).2)

/-- `inclusion_proof`. -/
def inclusionProof (t : MerkleTree) (index : ℤ) (size : Option ℤ) :
    Except String (List (List Byte) × MerkleTree) := do
  let n ← t.size size
  if 0 ≤ index ∧ index < n.1 then
    .ok (t.remember (pathIn nodeHash emptyRoot t.leaves t.cache index.toNat 0 n)
      (pathIn_spec nodeHash emptyRoot t.sound _ _ _ (by simpa using n.2)).2)
  else
    .error ("leaf " ++ toString index ++ " is not in a tree of size " ++ toString n.1)

/-- `consistency_proof`. -/
def consistencyProof (t : MerkleTree) (oldSize : ℤ) (newSize : Option ℤ) :
    Except String (List (List Byte) × MerkleTree) := do
  let n ← t.size newSize
  if hle : 0 ≤ oldSize ∧ oldSize ≤ n.1 then
    if h : oldSize = 0 ∨ oldSize = n.1 then .ok ([], t)
    else
      .ok (t.remember (subproofIn nodeHash emptyRoot t.leaves t.cache oldSize.toNat 0 n true)
        (subproofIn_spec nodeHash emptyRoot t.sound _ _ _ (by omega) (by omega)
          (by simpa using n.2)).2)
  else
    .error ("cannot prove a tree of size " ++ toString oldSize ++ " is a prefix of size " ++
      toString n.1)

variable {t : MerkleTree} {n : ℕ}

theorem size_some (hn : n ≤ t.leaves.length) : t.size (some n) = .ok ⟨n, hn⟩ := by
  rw [size, dif_pos (by omega)]
  rfl

theorem slice_eq_take (leaves : List (List Byte)) (n : ℕ) : slice leaves 0 n = leaves.take n := by
  rw [slice, List.drop_zero]

theorem exists_remember {α : Type*} {r : α × Cache (List Byte)} {a : α}
    (h : r.2.Sound nodeHash emptyRoot t.leaves) (ha : r.1 = a) :
    ∃ t' : MerkleTree, t'.leaves = t.leaves ∧
      (Except.ok (t.remember r h) : Except String (α × MerkleTree)) = .ok (a, t') :=
  ⟨(t.remember r h).2, rfl, by rw [← ha]; rfl⟩

/-- The root of the first leaves is their head. -/
theorem root_spec (hn : n ≤ t.leaves.length) : ∃ t' : MerkleTree, t'.leaves = t.leaves ∧
    t.root (some n) = .ok (mth nodeHash emptyRoot (t.leaves.take n), t') := by
  simp only [root, size_some hn, bind, Except.bind]
  rcases Nat.eq_zero_or_pos n with rfl | hpos
  · exact ⟨t, rfl, by simp⟩
  · have hspec := hash_spec nodeHash emptyRoot t.sound 0 n hpos (by omega)
    rw [slice_eq_take] at hspec
    rw [dif_neg hpos.ne']
    exact exists_remember _ hspec.1

theorem inclusionProof_spec {i : ℕ} (hn : n ≤ t.leaves.length) (hi : i < n) :
    ∃ t' : MerkleTree, t'.leaves = t.leaves ∧ t.inclusionProof i (some n) =
      .ok (path nodeHash emptyRoot (t.leaves.take n) i, t') := by
  have hspec := pathIn_spec nodeHash emptyRoot t.sound i 0 n (by omega)
  rw [slice_eq_take] at hspec
  simp only [inclusionProof, size_some hn, bind, Except.bind]
  rw [if_pos (by omega)]
  exact exists_remember _ hspec.1

theorem consistencyProof_spec {m : ℕ} (hn : n ≤ t.leaves.length) (hm : m ≤ n) :
    ∃ t' : MerkleTree, t'.leaves = t.leaves ∧ t.consistencyProof m (some n) =
      .ok (if m = 0 ∨ m = n then [] else subproof nodeHash emptyRoot m (t.leaves.take n) true,
        t') := by
  simp only [consistencyProof, size_some hn, bind, Except.bind]
  rw [dif_pos (by omega)]
  by_cases hedge : m = 0 ∨ m = n
  · rw [dif_pos (by omega), if_pos hedge]
    exact ⟨_, rfl, rfl⟩
  · have hspec := subproofIn_spec nodeHash emptyRoot t.sound (m := m) 0 n true
      (by omega) hm (by omega)
    rw [slice_eq_take] at hspec
    rw [dif_neg (by omega), if_neg hedge]
    exact exists_remember _ hspec.1

theorem ofLeaves_eq {leaves : List (List Byte)} (h : ∀ l ∈ leaves, l.length = 32) :
    ∃ t : MerkleTree, ofLeaves leaves = .ok t ∧ t.leaves = leaves := by
  have hfold : ∀ t : MerkleTree, ∃ t' : MerkleTree,
      leaves.foldlM (fun t leaf => Prod.snd <$> t.append leaf) t = .ok t' ∧
        t'.leaves = t.leaves ++ leaves := by
    induction leaves with
    | nil => exact fun t => ⟨t, rfl, (List.append_nil _).symm⟩
    | cons leaf leaves ih =>
      intro t
      obtain ⟨t', hrest, hleaves⟩ := ih (fun l hl => h l (List.mem_cons_of_mem _ hl))
        { leaves := t.leaves ++ [leaf]
          cache := t.cache
          length_leaf := fun l hl => (List.mem_append.mp hl).elim (t.length_leaf l) fun hl => by
            rw [List.mem_singleton.mp hl]
            exact h leaf List.mem_cons_self
          sound := sound_append t.sound leaf }
      refine ⟨t', ?_, by rw [hleaves, List.append_assoc, List.singleton_append]⟩
      rw [List.foldlM_cons, append, dif_pos (h leaf List.mem_cons_self)]
      exact hrest
  obtain ⟨t, ht, hleaves⟩ := hfold init
  exact ⟨t, ht, hleaves⟩

/-! ### Proofs of inclusion and of consistency -/

/-- The messages the check of an inclusion proof hashes. -/
def walkMessages (leaf : List Byte) (index size : ℤ) (proof : List (List Byte)) :
    List (List Byte) :=
  (walked nodeHash proof index.toNat (size.toNat - 1) leaf).map nodeMessage

/-- From a node as long as a hash, the loop joins nothing that collides. -/
theorem walked_tied {hashed : Set (List Byte)} (hinj : hashed.InjOn sha256)
    {P : Set (List Byte × List Byte)} (hlen : ∀ p ∈ P, p.1.length = 32 ∧ p.2.length = 32)
    (hmem : ∀ p ∈ P, nodeMessage p ∈ hashed) (proof : List (List Byte)) (fn sn : ℕ)
    {r : List Byte} (hr : r.length = 32)
    (hproof : ∀ p ∈ walked nodeHash proof fn sn r, nodeMessage p ∈ hashed) :
    ∀ p ∈ walked nodeHash proof fn sn r, Tied nodeHash P p := by
  induction proof generalizing fn sn r with
  | nil => simp [walked]
  | cons c proof ih =>
    rw [walked] at hproof ⊢
    split_ifs at hproof ⊢
    · simp
    · rintro p (_ | ⟨_, hp⟩)
      · exact tied_of_length hinj hlen hmem (hproof _ List.mem_cons_self) (Or.inr hr)
      · exact ih _ _ (length_nodeHash _ _) (fun q hq => hproof q (List.mem_cons_of_mem _ hq)) p hp
    · rintro p (_ | ⟨_, hp⟩)
      · exact tied_of_length hinj hlen hmem (hproof _ List.mem_cons_self) (Or.inl hr)
      · exact ih _ _ (length_nodeHash _ _) (fun q hq => hproof q (List.mem_cons_of_mem _ hq)) p hp

theorem length_of_mem_take {l : List Byte} (hl : l ∈ t.leaves.take n) : l.length = 32 :=
  t.length_leaf l (List.mem_of_mem_take hl)

theorem root_none (t : MerkleTree) :
    ∃ t', t.root none = .ok (mth nodeHash emptyRoot t.leaves, t') := by
  obtain ⟨t', -, h⟩ := root_spec (t := t) le_rfl
  rw [List.take_length, root, size_some le_rfl] at h
  exact ⟨t', h⟩

/-- A tree of two leaves. -/
def sample : MerkleTree where
  leaves := [List.replicate 32 0, List.replicate 32 1]
  cache := fun _ => none
  length_leaf := by decide
  sound := nofun

/-- Its first leaf alone. -/
def first : MerkleTree where
  leaves := [List.replicate 32 0]
  cache := fun _ => none
  length_leaf := by decide
  sound := nofun

theorem pairs_pair (a b : List Byte) : pairs nodeHash emptyRoot [a, b] = {(a, b)} := by
  have hsplit : split 2 = 1 := by decide
  simp [pairs, hsplit]

/-- A leaf that is accepted under a head of the tree is the leaf at that index. -/
theorem getElem?_of_accepted (hn : n ≤ t.leaves.length) {hashed : Set (List Byte)}
    (hinj : hashed.InjOn sha256) (htree : pairMessages (t.leaves.take n) ⊆ hashed)
    {leaf : List Byte} {i : ℤ} {proof : List (List Byte)} (hleaf : leaf.length = 32)
    (hwalk : ∀ m ∈ walkMessages leaf i n proof, m ∈ hashed)
    (hverify : verifyInclusion nodeHash leaf i n proof
      (mth nodeHash emptyRoot (t.leaves.take n)) = true) :
    0 ≤ i ∧ i < n ∧ t.leaves[i.toNat]? = some leaf := by
  have hsize : (t.leaves.take n).length = n := by
    rw [List.length_take]
    omega
  have hlen := length_pairs (D := t.leaves.take n) fun l hl => length_of_mem_take hl
  have hmem : ∀ p ∈ pairs nodeHash emptyRoot (t.leaves.take n), nodeMessage p ∈ hashed :=
    fun p hp => htree ⟨p, hp, rfl⟩
  have htied := walked_tied hinj hlen hmem proof i.toNat
    ((t.leaves.take n).length - 1) hleaf fun p hp =>
      hwalk _ (List.mem_map_of_mem (by rwa [hsize] at hp))
  nth_rewrite 1 [← hsize] at hverify
  obtain ⟨hi, hget⟩ := getElem?_of_verifyInclusion emptyRoot subset_rfl htied hverify
  have hlt : i.toNat < n := by
    have := (List.getElem?_eq_some_iff.mp hget).1
    omega
  rw [List.getElem?_take_of_lt hlt] at hget
  exact ⟨hi, by omega, hget⟩

/-- **Inclusion proofs are complete and sound.** The proof of a leaf is accepted; among messages
SHA-256 tells apart, no proof shows another leaf. -/
theorem inclusion_proofs (t : MerkleTree) {n : ℕ} (hn : n ≤ t.leaves.length) :
    (∀ i, ∀ hi : i < n, ∃ proof t₁ r t₂, t.inclusionProof i (some n) = .ok (proof, t₁) ∧
      t₁.root (some n) = .ok (r, t₂) ∧ verifyInclusion nodeHash t.leaves[i] i n proof r = true) ∧
    ∀ hashed : Set (List Byte), hashed.InjOn sha256 → pairMessages (t.leaves.take n) ⊆ hashed →
      ∀ (leaf : List Byte) (i : ℤ) (proof : List (List Byte)) (r : List Byte) (t₁ : MerkleTree),
        leaf.length = 32 → (∀ m ∈ walkMessages leaf i n proof, m ∈ hashed) →
        t.root (some n) = .ok (r, t₁) → verifyInclusion nodeHash leaf i n proof r = true →
        0 ≤ i ∧ i < n ∧ t.leaves[i.toNat]? = some leaf := by
  have hsize : (t.leaves.take n).length = n := by
    rw [List.length_take]
    omega
  constructor
  · intro i hi
    obtain ⟨t₁, hleaves, hproof⟩ := inclusionProof_spec hn hi
    obtain ⟨t₂, -, hroot⟩ := root_spec (t := t₁) (n := n) (hleaves ▸ hn)
    rw [hleaves] at hroot
    have hpath := verifyInclusion_path nodeHash emptyRoot (D := t.leaves.take n) (i := i) (by omega)
    simp only [List.getElem_take, hsize] at hpath
    exact ⟨_, t₁, _, t₂, hproof, hroot, hpath⟩
  · intro hashed hinj htree leaf i proof r t₁ hleaf hwalk hroot hverify
    obtain ⟨t₂, -, hroot'⟩ := root_spec hn
    obtain ⟨rfl, -⟩ := Prod.mk.inj (Except.ok.inj (hroot.symm.trans hroot'))
    exact getElem?_of_accepted hn hinj htree hleaf hwalk hverify

/-- The other leaf is a proof of the first. -/
theorem inclusion_proofs_sample :
    (∃ proof t₁ r t₂, sample.inclusionProof 0 (some 2) = .ok (proof, t₁) ∧
      t₁.root (some 2) = .ok (r, t₂) ∧
      verifyInclusion nodeHash (List.replicate 32 0) 0 2 proof r = true) ∧
    sample.leaves[0]? = some (List.replicate 32 0) := by
  obtain ⟨hcomplete, hsound⟩ := inclusion_proofs sample (n := 2) le_rfl
  obtain ⟨t₁, -, hroot⟩ := root_spec (t := sample) (n := 2) le_rfl
  refine ⟨hcomplete 0 two_pos, ?_⟩
  refine (hsound {nodeMessage (List.replicate 32 0, List.replicate 32 1)} (Set.injOn_singleton _ _)
    ?_ (List.replicate 32 0) 0 [List.replicate 32 1] _ t₁ List.length_replicate ?_ hroot ?_).2.2
  · rintro m ⟨p, hp, rfl⟩
    change p ∈ pairs nodeHash emptyRoot [List.replicate 32 0, List.replicate 32 1] at hp
    rw [pairs_pair] at hp
    rw [Set.mem_singleton_iff.mp hp]
    rfl
  · simp [walkMessages, walked]
  · have hsplit : split 2 = 1 := by decide
    simp [verifyInclusion, walk_cons, walk_nil, sample, mth, hsplit]

/-- **Consistency proofs are complete and sound.** The proof of a smaller size is accepted; among
messages SHA-256 tells apart, no proof shows a tree that is not a prefix. -/
theorem consistency_proofs (t : MerkleTree) :
    (∀ m n : ℕ, m ≤ n → n ≤ t.leaves.length → ∃ proof t₁ r t₂ s t₃,
      t.consistencyProof m (some n) = .ok (proof, t₁) ∧ t₁.root (some m) = .ok (r, t₂) ∧
      t₂.root (some n) = .ok (s, t₃) ∧
      verifyConsistency nodeHash emptyRoot m n r s proof = true) ∧
    ∀ u : MerkleTree, ∀ hashed : Set (List Byte), hashed.InjOn sha256 →
      pairMessages t.leaves ⊆ hashed → pairMessages u.leaves ⊆ hashed →
      ∀ (r s : List Byte) (t₁ u₁ : MerkleTree) (proof : List (List Byte)),
        t.root none = .ok (r, t₁) → u.root none = .ok (s, u₁) →
        (t.leaves.length < u.leaves.length →
          ∀ m ∈ checkMessages t.leaves.length u.leaves.length r proof, m ∈ hashed) →
        verifyConsistency nodeHash emptyRoot t.leaves.length u.leaves.length r s proof = true →
        t.leaves <+: u.leaves := by
  constructor
  · intro m n hm hn
    obtain ⟨t₁, ht₁, hproof⟩ := consistencyProof_spec hn hm
    obtain ⟨t₂, ht₂, hold⟩ := root_spec (t := t₁) (n := m) (ht₁ ▸ hm.trans hn)
    obtain ⟨t₃, -, hnew⟩ := root_spec (t := t₂) (n := n) (by rw [ht₂, ht₁]; exact hn)
    rw [ht₂, ht₁] at hnew
    rw [ht₁] at hold
    refine ⟨_, t₁, _, t₂, _, t₃, hproof, hold, hnew, ?_⟩
    have hsize : (t.leaves.take n).length = n := by
      rw [List.length_take]
      omega
    rcases Nat.eq_zero_or_pos m with rfl | hpos
    · rcases Nat.eq_zero_or_pos n with rfl | hn
      · simp [verifyConsistency]
      · simp [verifyConsistency, show (0 : ℤ) ≠ n by omega]
    · rcases hm.eq_or_lt with rfl | hlt
      · simp [verifyConsistency]
      · rw [if_neg (by omega)]
        have := verifyConsistency_subproof nodeHash emptyRoot (D := t.leaves.take n) hpos (by omega)
        rwa [List.take_take, min_eq_left hm, hsize] at this
  · intro u hashed hinj ht hu r s t₁ u₁ proof hr hs hcheck h
    obtain ⟨t₂, hr'⟩ := root_none t
    obtain ⟨u₂, hs'⟩ := root_none u
    obtain ⟨rfl, -⟩ := Prod.mk.inj (Except.ok.inj (hr.symm.trans hr'))
    obtain ⟨rfl, -⟩ := Prod.mk.inj (Except.ok.inj (hs.symm.trans hs'))
    exact prefix_of_hashes hinj t.length_leaf u.length_leaf ht hu hcheck h

/-- A tree of one leaf is a prefix of one of two. -/
theorem consistency_proofs_sample :
    (∃ proof t₁ r t₂ s t₃, sample.consistencyProof 1 (some 2) = .ok (proof, t₁) ∧
      t₁.root (some 1) = .ok (r, t₂) ∧ t₂.root (some 2) = .ok (s, t₃) ∧
      verifyConsistency nodeHash emptyRoot 1 2 r s proof = true) ∧ first.leaves <+: sample.leaves := by
  obtain ⟨t₁, hfirst⟩ := root_none first
  obtain ⟨u₁, hsample⟩ := root_none sample
  refine ⟨(consistency_proofs sample).1 1 2 one_le_two le_rfl, ?_⟩
  have hmessage : ∀ m ∈ checkMessages first.leaves.length sample.leaves.length
      (mth nodeHash emptyRoot first.leaves) [List.replicate 32 1],
      m = nodeMessage (List.replicate 32 0, List.replicate 32 1) := by
    simp [checkMessages, joined, pathOf, dropOnes, climbed, first, sample]
  refine (consistency_proofs first).2 sample {nodeMessage (List.replicate 32 0, List.replicate 32 1)}
    (Set.injOn_singleton _ _) ?_ ?_ _ _ t₁ u₁ [List.replicate 32 1] hfirst hsample
    (fun _ => hmessage) ?_
  · rintro m ⟨p, hp, rfl⟩
    simp [first, pairs] at hp
  · rintro m ⟨p, hp, rfl⟩
    rw [sample, pairs_pair] at hp
    rw [Set.mem_singleton_iff.mp hp]
    rfl
  · have hsplit : split 2 = 1 := by decide
    simp [verifyConsistency, pathOf, dropOnes, climb, first, sample, mth, hsplit]

end MerkleTree

end AgentGov.Receipts
