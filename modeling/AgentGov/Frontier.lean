import AgentGov.Foundation.CompactRange
import AgentGov.Receipts.Tree
import AgentGov.State

/-!
# The frontier of a chain

A chain keeps the nodes of a compact range over its entry hashes. Their root is that of the tree
a published checkpoint signs, at every length (`src/src/agentgov/core.py`, lines 928–958).

## Main definitions

* `AgentGov.frontierRoot`: the root of the entries a frontier covers.
* `AgentGov.frontierOf`: the frontier after some entries, from the empty one.

## Main results

* `AgentGov.frontierOf_eq`: the frontier is the compact range, and no carry runs out of nodes.
* `AgentGov.frontier_is_tree`: the frontier's root is that of the tree of the entry hashes.
-/

open Foundation Foundation.Merkle

namespace AgentGov

open Receipts

/-- `_frontier_root`. -/
def frontierRoot (frontier : List (List Byte)) : List Byte :=
  match frontier.reverse with
  | [] => emptyRoot
  | root :: rest => rest.foldl (fun root node => nodeHash node root) root

/-- The frontier after some more entries, and the length of the chain then. -/
def frontierOf (entryHashes : List Text) : Except Error (List (List Byte) × ℕ) :=
  entryHashes.foldlM
    (fun s entryHash => (·, s.2 + 1) <$> frontierAppend s.1 s.2 entryHash) ([], 0)

theorem frontierRoot_eq (stack : List (List Byte)) :
    frontierRoot stack.reverse = bag nodeHash emptyRoot stack := by
  rw [frontierRoot, List.reverse_reverse]
  cases stack <;> rfl

/-- A carry that does not run out of nodes is the chain's. -/
theorem frontierCarry_of_carry {stack stack' : List (List Byte)} {c : ℕ} {d : List Byte}
    (h : carry nodeHash stack c d = some stack') : frontierCarry stack c d = stack' := by
  induction stack generalizing c d with
  | nil =>
    rw [carry] at h
    split_ifs at h
    rw [frontierCarry, Option.some.inj h]
  | cons top stack ih =>
    rw [carry] at h
    rw [frontierCarry]
    split_ifs at h ⊢
    · exact ih h
    · exact Option.some.inj h

/-- The compact range of some leaves, the largest first. -/
def range (leaves : List (List Byte)) : List (List Byte) :=
  (peaks nodeHash emptyRoot leaves 0 leaves.length).reverse

theorem frontierAppend_range (leaves : List (List Byte)) (hash : List Byte) :
    frontierAppend (range leaves) leaves.length (toHex hash) =
      .ok (range (leaves ++ [leafHash hash])) := by
  have hcarry := carry_peaks nodeHash emptyRoot leaves (leafHash hash)
  rw [frontierAppend, fromHex_toHex, range, range, List.reverse_reverse, List.length_append,
    List.length_singleton]
  exact congrArg (fun s => Except.ok s.reverse) (frontierCarry_of_carry hcarry)

/-- The frontier of some entries is the compact range of their leaves. -/
theorem frontierOf_eq (hashes : List (List Byte)) :
    frontierOf (hashes.map toHex) = .ok (range (hashes.map leafHash), hashes.length) := by
  have hfold : ∀ leaves : List (List Byte), (hashes.map toHex).foldlM
      (fun s entryHash => (·, s.2 + 1) <$> frontierAppend s.1 s.2 entryHash)
        (range leaves, leaves.length) =
      .ok (range (leaves ++ hashes.map leafHash), leaves.length + hashes.length) := by
    induction hashes with
    | nil =>
      intro leaves
      rw [List.map_nil, List.map_nil, List.append_nil, List.length_nil, Nat.add_zero]
      rfl
    | cons hash hashes ih =>
      intro leaves
      have hrest := ih (leaves ++ [leafHash hash])
      rw [List.append_assoc, List.singleton_append, List.length_append, List.length_singleton,
        Nat.add_assoc, Nat.add_comm 1] at hrest
      rw [List.map_cons, List.foldlM_cons, frontierAppend_range]
      exact hrest
  have hempty : range [] = [] := by
    rw [range, List.length_nil, peaks_zero, List.reverse_nil]
  have := hfold []
  rwa [hempty, List.length_nil, Nat.zero_add] at this

/-- **The frontier is the tree.** After any entries the frontier has a node for each one among the
binary digits of their number, and its root is the tree head of the leaves of the entry hashes,
that of the tree built of them. -/
theorem frontier_is_tree (hashes : List (List Byte)) :
    ∃ frontier, frontierOf (hashes.map toHex) = .ok (frontier, hashes.length) ∧
      frontier.length = (Nat.digits 2 hashes.length).sum ∧
      frontierRoot frontier = mth nodeHash emptyRoot (hashes.map leafHash) ∧
      ∃ tree tree', MerkleTree.ofLeaves (hashes.map leafHash) = .ok tree ∧
        tree.root none = .ok (frontierRoot frontier, tree') := by
  have hroot : frontierRoot (range (hashes.map leafHash)) =
      mth nodeHash emptyRoot (hashes.map leafHash) := by
    rw [range, frontierRoot_eq, bag_peaks]
  refine ⟨_, frontierOf_eq hashes, ?_, hroot, ?_⟩
  · rw [range, List.length_reverse, length_peaks, List.length_map]
  · obtain ⟨tree, htree, hleaves⟩ := MerkleTree.ofLeaves_eq length_map_leafHash
    obtain ⟨tree', htree'⟩ := tree.root_none
    rw [hleaves] at htree'
    exact ⟨tree, tree', htree, hroot ▸ htree'⟩

end AgentGov
