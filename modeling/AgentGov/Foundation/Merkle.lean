import Mathlib.Data.Nat.Log
import Mathlib.Data.Set.Function
import Mathlib.Tactic.Common
import Mathlib.Tactic.Linarith
import Mathlib.Tactic.Ring

/-!
# Merkle trees over lists

The tree head of RFC 9162: a list of at least two leaves is cut at the largest power of two
below its length, and the heads of the two parts are joined. The head of the leaves from
`i * 2 ^ h` on, `2 ^ h` of them or as many as there are, is the node of level `h` at index `i`.

Joining two values need not be injective: every result is relative to the pairs that a tree
joins.

## Main definitions

* `Foundation.Merkle.mth`: the head of a list of leaves.
* `Foundation.Merkle.subtree`: the node of a level at an index.
* `Foundation.Merkle.pairs`: the pairs of values joined on the way to a head.

## Main results

* `Foundation.Merkle.subtree_succ`, `Foundation.Merkle.subtree_succ_of_le`: a node from the
  nodes one level below.
* `Foundation.Merkle.mem_pairs`: two sibling nodes are one of the pairs.
* `Foundation.Merkle.chunk_eq`: equal nodes over whole chunks are over equal leaves.
-/

namespace Foundation.Merkle

variable {H : Type*}

/-! ### The tree head -/

/-- The largest power of two below `n`, for `n` at least two. -/
def split (n : ℕ) : ℕ := 2 ^ Nat.log2 (n - 1)

theorem split_pos (n : ℕ) : 0 < split n := Nat.two_pow_pos _

theorem split_lt {n : ℕ} (h : 2 ≤ n) : split n < n := by
  have := Nat.log2_self_le (n := n - 1) (by omega)
  unfold split
  omega

theorem le_two_mul_split {n : ℕ} (h : 2 ≤ n) : n ≤ 2 * split n := by
  have := Nat.lt_log2_self (n := n - 1)
  unfold split
  rw [pow_succ] at this
  omega

/-- The split of a length between `2 ^ h` and `2 ^ (h + 1)`. -/
theorem split_eq {n h : ℕ} (hlt : 2 ^ h < n) (hle : n ≤ 2 ^ (h + 1)) : split n = 2 ^ h := by
  unfold split
  have : Nat.log2 (n - 1) = h := by
    rw [Nat.log2_eq_log_two]
    exact Nat.log_eq_of_pow_le_of_lt_pow (by omega) (by omega)
  rw [this]

/-- The tree head of a list of leaves. -/
def mth (node : H → H → H) (empty : H) : List H → H
  | [] => empty
  | [d] => d
  | d :: e :: ds =>
    node (mth node empty ((d :: e :: ds).take (split (ds.length + 2))))
      (mth node empty ((d :: e :: ds).drop (split (ds.length + 2))))
termination_by l => l.length
decreasing_by
  · have := split_lt (n := ds.length + 2) (by omega)
    simp only [List.length_take, List.length_cons]
    omega
  · have := split_pos (ds.length + 2)
    simp only [List.length_drop, List.length_cons]
    omega

/-- The pairs of values joined on the way to a head. -/
def pairs (node : H → H → H) (empty : H) : List H → Set (H × H)
  | [] => ∅
  | [_] => ∅
  | d :: e :: ds =>
    insert (mth node empty ((d :: e :: ds).take (split (ds.length + 2))),
        mth node empty ((d :: e :: ds).drop (split (ds.length + 2))))
      (pairs node empty ((d :: e :: ds).take (split (ds.length + 2))) ∪
        pairs node empty ((d :: e :: ds).drop (split (ds.length + 2))))
termination_by l => l.length
decreasing_by
  · have := split_lt (n := ds.length + 2) (by omega)
    simp only [List.length_take, List.length_cons]
    omega
  · have := split_pos (ds.length + 2)
    simp only [List.length_drop, List.length_cons]
    omega

section

variable (node : H → H → H) (empty : H)

@[simp] theorem mth_nil : mth node empty [] = empty := by rw [mth]

@[simp] theorem mth_singleton (d : H) : mth node empty [d] = d := by rw [mth]

/-- A list of at least two leaves is cut at its split. -/
theorem mth_split {D : List H} (h : 2 ≤ D.length) :
    mth node empty D = node (mth node empty (D.take (split D.length)))
      (mth node empty (D.drop (split D.length))) := by
  match D, h with
  | d :: e :: ds, _ => rw [mth]; rfl

theorem pairs_split {D : List H} (h : 2 ≤ D.length) :
    pairs node empty D =
      insert (mth node empty (D.take (split D.length)), mth node empty (D.drop (split D.length)))
        (pairs node empty (D.take (split D.length)) ∪
          pairs node empty (D.drop (split D.length))) := by
  match D, h with
  | d :: e :: ds, _ => rw [pairs]; rfl

/-! ### Nodes by level and index -/

/-- The leaves under the node of level `h` at index `i`. -/
def chunk (D : List H) (h i : ℕ) : List H := (D.drop (i * 2 ^ h)).take (2 ^ h)

/-- The node of level `h` at index `i`. -/
def subtree (D : List H) (h i : ℕ) : H := mth node empty (chunk D h i)

theorem length_chunk (D : List H) (h i : ℕ) :
    (chunk D h i).length = min (2 ^ h) (D.length - i * 2 ^ h) := by
  simp [chunk]

/-- The leaves up to the end of a chunk are those before it and the chunk. -/
theorem take_append_chunk (D : List H) (h i : ℕ) :
    D.take (i * 2 ^ h) ++ chunk D h i = D.take ((i + 1) * 2 ^ h) := by
  rw [chunk, add_mul, one_mul, List.take_add]

/-- A chunk is the two chunks of the level below. -/
theorem chunk_succ (D : List H) (h i : ℕ) :
    chunk D (h + 1) i = chunk D h (2 * i) ++ chunk D h (2 * i + 1) := by
  unfold chunk
  rw [show i * 2 ^ (h + 1) = 2 * i * 2 ^ h by ring, show 2 ^ (h + 1) = 2 ^ h + 2 ^ h by ring,
    List.take_add, List.drop_drop, show (2 * i + 1) * 2 ^ h = 2 * i * 2 ^ h + 2 ^ h by ring]

/-- A node whose right half is there joins the two nodes below it. -/
theorem subtree_succ {D : List H} {h i : ℕ} (hi : (2 * i + 1) * 2 ^ h < D.length) :
    subtree node empty D (h + 1) i =
      node (subtree node empty D h (2 * i)) (subtree node empty D h (2 * i + 1)) := by
  have hpos : 0 < 2 ^ h := Nat.two_pow_pos h
  have hfull : (chunk D h (2 * i)).length = 2 ^ h := by
    rw [length_chunk]
    rw [add_mul, one_mul] at hi
    omega
  have hmore : 0 < (chunk D h (2 * i + 1)).length := by
    rw [length_chunk]
    omega
  have hless : (chunk D h (2 * i + 1)).length ≤ 2 ^ h := by
    rw [length_chunk]
    omega
  have hlen : (chunk D (h + 1) i).length =
      2 ^ h + (chunk D h (2 * i + 1)).length := by
    rw [chunk_succ, List.length_append, hfull]
  have hsplit : split (chunk D (h + 1) i).length = 2 ^ h :=
    split_eq (by omega) (by rw [pow_succ]; omega)
  unfold subtree
  rw [mth_split node empty (by omega), hsplit, chunk_succ,
    List.take_left' hfull, List.drop_left' hfull]

/-- A node whose right half is missing is the node below it. -/
theorem subtree_succ_of_le {D : List H} {h i : ℕ} (hi : D.length ≤ (2 * i + 1) * 2 ^ h) :
    subtree node empty D (h + 1) i = subtree node empty D h (2 * i) := by
  have hnil : chunk D h (2 * i + 1) = [] := by
    apply List.eq_nil_of_length_eq_zero
    rw [length_chunk, Nat.sub_eq_zero_of_le hi, Nat.min_zero]
  unfold subtree
  rw [chunk_succ, hnil, List.append_nil]

/-- The only node of a level high enough is the head. -/
theorem subtree_zero_of_le {D : List H} {h : ℕ} (hD : D.length ≤ 2 ^ h) :
    subtree node empty D h 0 = mth node empty D := by
  simp [subtree, chunk, List.take_of_length_le hD]

/-- A last node without a right neighbour is the same on every level it climbs alone. -/
theorem subtree_add_of_le {D : List H} {h i : ℕ} (k : ℕ)
    (hi : D.length ≤ (2 ^ k * i + 1) * 2 ^ h) :
    subtree node empty D (h + k) i = subtree node empty D h (2 ^ k * i) := by
  induction k generalizing h with
  | zero => simp
  | succ k ih =>
    have hle : (2 ^ (k + 1) * i + 1) * 2 ^ h ≤ (2 ^ k * i + 1) * 2 ^ (h + 1) := by
      rw [pow_succ 2 h, pow_succ 2 k]
      have := Nat.two_pow_pos h
      nlinarith
    rw [show h + (k + 1) = h + 1 + k by omega, ih (hi.trans hle),
      subtree_succ_of_le node empty (by rw [← mul_assoc, ← pow_succ']; exact hi),
      ← mul_assoc, ← pow_succ']

/-! ### The pairs of a tree -/

/-- A chunk inside the first `k` leaves, `k` a multiple of its size. -/
theorem chunk_take {D : List H} {h i k : ℕ} (hk : (i + 1) * 2 ^ h ≤ k) :
    chunk (D.take k) h i = chunk D h i := by
  unfold chunk
  rw [List.drop_take, List.take_take, Nat.min_eq_left]
  rw [add_mul, one_mul] at hk
  omega

/-- A chunk past the first `j * 2 ^ h` leaves. -/
theorem chunk_drop (D : List H) (h i j : ℕ) :
    chunk (D.drop (j * 2 ^ h)) h i = chunk D h (j + i) := by
  unfold chunk
  rw [List.drop_drop, ← add_mul]

/-- The pairs of a part of a tree are pairs of the tree. -/
theorem pairs_take_subset {D : List H} (h : 2 ≤ D.length) :
    pairs node empty (D.take (split D.length)) ⊆ pairs node empty D := by
  rw [pairs_split node empty h]
  exact fun p hp => Set.mem_insert_of_mem _ (Or.inl hp)

theorem pairs_drop_subset {D : List H} (h : 2 ≤ D.length) :
    pairs node empty (D.drop (split D.length)) ⊆ pairs node empty D := by
  rw [pairs_split node empty h]
  exact fun p hp => Set.mem_insert_of_mem _ (Or.inr hp)

/-- Two sibling nodes are one of the pairs joined on the way to the head. -/
theorem mem_pairs {D : List H} {h i : ℕ} (hi : (2 * i + 1) * 2 ^ h < D.length) :
    (subtree node empty D h (2 * i), subtree node empty D h (2 * i + 1)) ∈
      pairs node empty D := by
  -- the induction is on the length: the pair is the last one joined, or lies in one of the parts
  induction hn : D.length using Nat.strong_induction_on generalizing D i with
  | _ n ih =>
    subst hn
    have hpos : 0 < 2 ^ h := Nat.two_pow_pos h
    have htwo : 2 ≤ D.length := by
      have : 1 * 1 ≤ (2 * i + 1) * 2 ^ h := Nat.mul_le_mul (by omega) hpos
      omega
    obtain ⟨k, hsplit⟩ : ∃ k, split D.length = 2 ^ k := ⟨_, rfl⟩
    have hlt : 2 ^ k < D.length := hsplit ▸ split_lt htwo
    have hle : D.length ≤ 2 * 2 ^ k := hsplit ▸ le_two_mul_split htwo
    have hkh : h ≤ k := by
      by_contra hc
      have : 2 * 2 ^ k ≤ 2 ^ h := by
        rw [← pow_succ']
        exact Nat.pow_le_pow_right (by omega) (by omega)
      nlinarith
    obtain ⟨d, rfl⟩ := Nat.exists_eq_add_of_le hkh
    rcases d with _ | d
    · -- the split itself
      have hzero : i = 0 := by
        by_contra hc
        have : 3 * 2 ^ h ≤ (2 * i + 1) * 2 ^ h := Nat.mul_le_mul_right _ (by omega)
        simp only [add_zero] at hle
        omega
      subst hzero
      simp only [add_zero] at hsplit hlt hle
      rw [pairs_split node empty htwo, hsplit]
      apply Set.mem_insert_iff.mpr (Or.inl _)
      have hrest : chunk D h (2 * 0 + 1) = D.drop (2 ^ h) := by
        unfold chunk
        rw [show (2 * 0 + 1) * 2 ^ h = 2 ^ h by ring]
        exact List.take_of_length_le (by rw [List.length_drop]; omega)
      have hfirst : chunk D h (2 * 0) = D.take (2 ^ h) := by simp [chunk]
      rw [subtree, subtree, hrest, hfirst]
    · have hpow : 2 ^ (h + (d + 1)) = 2 ^ d * 2 * 2 ^ h := by ring
      by_cases hside : 2 * i + 2 ≤ 2 ^ d * 2
      · -- inside the left part
        have hin : (2 * i + 1 + 1) * 2 ^ h ≤ 2 ^ (h + (d + 1)) := by
          rw [hpow]
          exact Nat.mul_le_mul_right _ (by omega)
        have hlen : (D.take (split D.length)).length = 2 ^ (h + (d + 1)) := by
          rw [hsplit, List.length_take]
          omega
        have hstep := ih _ (by omega) (D := D.take (split D.length)) (i := i)
          (by rw [hlen]; rw [add_mul _ 1, one_mul] at hin; omega) rfl
        have hpart := pairs_take_subset node empty htwo hstep
        rw [hsplit] at hpart
        unfold subtree at hpart ⊢
        rw [chunk_take hin, chunk_take ((Nat.mul_le_mul_right _ (by omega)).trans hin)] at hpart
        exact hpart
      · -- inside the right part
        obtain ⟨j, rfl⟩ := Nat.exists_eq_add_of_le (show 2 ^ d ≤ i by omega)
        have hcut : split D.length = 2 ^ d * 2 * 2 ^ h := by rw [hsplit, hpow]
        have hlen : (D.drop (split D.length)).length = D.length - 2 ^ d * 2 * 2 ^ h := by
          rw [hcut, List.length_drop]
        have hroom : (2 * j + 1) * 2 ^ h < D.length - 2 ^ d * 2 * 2 ^ h := by
          have : (2 * (2 ^ d + j) + 1) * 2 ^ h = 2 ^ d * 2 * 2 ^ h + (2 * j + 1) * 2 ^ h := by ring
          omega
        have hless : D.length - 2 ^ d * 2 * 2 ^ h < D.length := by
          have := Nat.two_pow_pos (h + (d + 1))
          omega
        have hstep := ih _ (by rw [hlen]; exact hless) (D := D.drop (split D.length)) (i := j)
          (by rw [hlen]; exact hroom) rfl
        have hpart := pairs_drop_subset node empty htwo hstep
        rw [hcut] at hpart
        unfold subtree at hpart ⊢
        rw [chunk_drop, chunk_drop] at hpart
        rwa [show 2 * (2 ^ d + j) = 2 ^ d * 2 + 2 * j by ring,
          show 2 ^ d * 2 + 2 * j + 1 = 2 ^ d * 2 + (2 * j + 1) by ring]

variable {node} {P : Set (H × H)}

/-- What holds of every leaf and of every joined value holds of a head. -/
theorem mth_of_forall {Q : H → Prop} (hnode : ∀ a b, Q (node a b)) {D : List H} (hne : D ≠ [])
    (hD : ∀ d ∈ D, Q d) : Q (mth node empty D) := by
  match D, hne with
  | [d], _ => simpa using hD d
  | d :: e :: ds, _ =>
    rw [mth]
    exact hnode _ _

/-- What holds of every leaf and of every joined value holds of both parts of every pair. -/
theorem pairs_of_forall {Q : H → Prop} (hnode : ∀ a b, Q (node a b)) {D : List H}
    (hD : ∀ d ∈ D, Q d) : ∀ p ∈ pairs node empty D, Q p.1 ∧ Q p.2 := by
  induction hn : D.length using Nat.strong_induction_on generalizing D with
  | _ n ih =>
    subst hn
    intro p hp
    by_cases htwo : 2 ≤ D.length
    · have hlt := split_lt htwo
      have hpos := split_pos D.length
      have htake : ∀ d ∈ D.take (split D.length), Q d := fun d hd => hD d (List.mem_of_mem_take hd)
      have hdrop : ∀ d ∈ D.drop (split D.length), Q d := fun d hd => hD d (List.mem_of_mem_drop hd)
      have hlenTake : (D.take (split D.length)).length = split D.length := by
        rw [List.length_take]
        omega
      have hlenDrop : (D.drop (split D.length)).length = D.length - split D.length :=
        List.length_drop
      rw [pairs_split node empty htwo] at hp
      rcases hp with rfl | hp | hp
      · exact ⟨mth_of_forall empty hnode (List.ne_nil_of_length_pos (by omega)) htake,
          mth_of_forall empty hnode (List.ne_nil_of_length_pos (by omega)) hdrop⟩
      · exact ih _ (by omega) htake rfl p hp
      · exact ih _ (by omega) hdrop rfl p hp
    · match D with
      | [] => simp [pairs] at hp
      | [_] => simp [pairs] at hp
      | _ :: _ :: _ => simp at htwo

/-- Two joined values are equal only if their parts are, among the pairs `P`. -/
def Clear (node : H → H → H) (P : Set (H × H)) : Prop := P.InjOn fun p => node p.1 p.2

theorem Clear.eq (hP : Clear node P) {a b c d : H} (hab : (a, b) ∈ P) (hcd : (c, d) ∈ P)
    (h : node a b = node c d) : a = c ∧ b = d :=
  Prod.ext_iff.mp (hP hab hcd h)

/-- Equal nodes over whole chunks are over equal leaves. -/
theorem chunk_eq (hP : Clear node P) {D E : List H} (hD : pairs node empty D ⊆ P)
    (hE : pairs node empty E ⊆ P) {h i : ℕ} (hDi : (i + 1) * 2 ^ h ≤ D.length)
    (hEi : (i + 1) * 2 ^ h ≤ E.length)
    (heq : subtree node empty D h i = subtree node empty E h i) : chunk D h i = chunk E h i := by
  induction h generalizing i with
  | zero =>
    have hsingle : ∀ L : List H, (i + 1) * 2 ^ 0 ≤ L.length →
        ∃ d, chunk L 0 i = [d] := fun L hL =>
      List.length_eq_one_iff.mp (by rw [length_chunk]; simp at hL ⊢; omega)
    obtain ⟨d, hd⟩ := hsingle D hDi
    obtain ⟨e, he⟩ := hsingle E hEi
    simp only [subtree, hd, he, mth_singleton] at heq
    rw [hd, he, heq]
  | succ h ih =>
    have hpos : 0 < 2 ^ h := Nat.two_pow_pos h
    have hsize : (i + 1) * 2 ^ (h + 1) = (2 * i + 1 + 1) * 2 ^ h := by ring
    have hstep : (2 * i + 1 + 1) * 2 ^ h = (2 * i + 1) * 2 ^ h + 2 ^ h := by ring
    have hDr : (2 * i + 1) * 2 ^ h < D.length := by omega
    have hEr : (2 * i + 1) * 2 ^ h < E.length := by omega
    rw [subtree_succ node empty hDr, subtree_succ node empty hEr] at heq
    obtain ⟨hleft, hright⟩ := hP.eq (hD (mem_pairs node empty hDr)) (hE (mem_pairs node empty hEr))
      heq
    rw [chunk_succ, chunk_succ, ih (i := 2 * i) hDr.le hEr.le hleft,
      ih (i := 2 * i + 1) (by omega) (by omega) hright]

/-- Two lists of one length with one head are equal. -/
theorem mth_inj (hP : Clear node P) {D E : List H} (hD : pairs node empty D ⊆ P)
    (hE : pairs node empty E ⊆ P) (hlen : D.length = E.length)
    (heq : mth node empty D = mth node empty E) : D = E := by
  induction hn : D.length using Nat.strong_induction_on generalizing D E with
  | _ n ih =>
    subst hn
    by_cases htwo : 2 ≤ D.length
    · have htwo' : 2 ≤ E.length := hlen ▸ htwo
      have hlt := split_lt htwo
      have hpos := split_pos D.length
      rw [mth_split node empty htwo, mth_split node empty htwo', ← hlen] at heq
      have hDP := pairs_split node empty htwo
      have hEP := pairs_split node empty htwo'
      rw [← hlen] at hEP
      obtain ⟨hl, hr⟩ := hP.eq (hD (hDP ▸ Set.mem_insert _ _)) (hE (hEP ▸ Set.mem_insert _ _)) heq
      have htake := ih (D.take (split D.length)).length (by rw [List.length_take]; omega)
        ((pairs_take_subset node empty htwo).trans hD)
        (E := E.take (split D.length)) (hlen ▸ (pairs_take_subset node empty htwo').trans hE)
        (by simp [hlen]) hl rfl
      have hdrop := ih (D.drop (split D.length)).length (by rw [List.length_drop]; omega)
        ((pairs_drop_subset node empty htwo).trans hD)
        (E := E.drop (split D.length)) (hlen ▸ (pairs_drop_subset node empty htwo').trans hE)
        (by simp [hlen]) hr rfl
      rw [← List.take_append_drop (split D.length) D, htake, hdrop, List.take_append_drop]
    · match D, E, hlen with
      | [], [], _ => rfl
      | [d], [e], _ => simpa using heq
      | _ :: _ :: _, _, _ => simp at htwo

end

end Foundation.Merkle
