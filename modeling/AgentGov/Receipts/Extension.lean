import AgentGov.Receipts.Merkle

/-!
# What an accepted consistency proof says of two histories

Leaves and nodes are hashed under a byte of their own. Among messages that SHA-256 tells apart, an
accepted proof shows that the leaves of the older head are a prefix of the leaves of the newer.
The entries of a proof may be of any length: an accepted path starts with a node of the old tree.

## Main definitions

* `AgentGov.Receipts.rootOf`: the root of a history.
* `AgentGov.Receipts.treeMessages`, `AgentGov.Receipts.checkMessages`: the messages hashed for a
  tree, and by the check.

## Main results

* `AgentGov.Receipts.length_of_climb`: the node a path starts with is as long as a hash.
* `AgentGov.Receipts.prefix_of_hashes`, `AgentGov.Receipts.prefix_of_check`: an accepted tree, or
  history, is a prefix.
-/

namespace AgentGov.Receipts

open Foundation Foundation.Merkle

/-- The root of a history. -/
def rootOf (ls : List (List Byte)) : List Byte := mth nodeHash emptyRoot (ls.map leafHash)

/-- The message hashed for a pair. -/
def nodeMessage (p : List Byte × List Byte) : List Byte := 1 :: (p.1 ++ p.2)

/-- The messages hashed for the tree of a history. -/
def treeMessages (ls : List (List Byte)) : Set (List Byte) :=
  {m | (∃ l ∈ ls, m = 0 :: l) ∨
    ∃ p ∈ pairs nodeHash emptyRoot (ls.map leafHash), m = nodeMessage p}

/-- The messages the check hashes. -/
def checkMessages (oldSize newSize : ℤ) (oldRoot : List Byte) (proof : List (List Byte)) :
    List (List Byte) :=
  (joined nodeHash oldSize newSize oldRoot proof).map nodeMessage

theorem length_leafHash (l : List Byte) : (leafHash l).length = 32 := length_sha256 _

theorem length_nodeHash (a b : List Byte) : (nodeHash a b).length = 32 := length_sha256 _

theorem length_map_leafHash {ls : List (List Byte)} :
    ∀ d ∈ ls.map leafHash, List.length d = 32 := by
  intro d hd
  obtain ⟨l, -, rfl⟩ := List.mem_map.mp hd
  exact length_leafHash l

/-- The parts of a pair of a tree of hashes are as long as a hash. -/
theorem length_pairs {D : List (List Byte)} (hD : ∀ d ∈ D, d.length = 32) :
    ∀ p ∈ pairs nodeHash emptyRoot D, p.1.length = 32 ∧ p.2.length = 32 :=
  pairs_of_forall (Q := fun d => d.length = 32) emptyRoot length_nodeHash hD

section

variable {hashed : Set (List Byte)} (hinj : hashed.InjOn sha256) {P : Set (List Byte × List Byte)}
  (hlen : ∀ p ∈ P, p.1.length = 32 ∧ p.2.length = 32) (hmem : ∀ p ∈ P, nodeMessage p ∈ hashed)

include hinj hmem

/-- Two joined values are equal only if the bytes joined are. -/
theorem append_eq_of_nodeHash {p q : List Byte × List Byte} (hp : nodeMessage p ∈ hashed)
    (hq : q ∈ P) (h : nodeHash p.1 p.2 = nodeHash q.1 q.2) : p.1 ++ p.2 = q.1 ++ q.2 :=
  (List.cons.inj (hinj hp (hmem q hq) h)).2

include hlen

/-- A pair one part of which is as long as a hash collides with no other. -/
theorem tied_of_length {p : List Byte × List Byte} (hp : nodeMessage p ∈ hashed)
    (h : p.1.length = 32 ∨ p.2.length = 32) : Tied nodeHash P p := by
  intro q hq heq
  have happ := append_eq_of_nodeHash hinj hmem hp hq heq
  obtain ⟨h1, h2⟩ := hlen q hq
  have hsum := congrArg List.length happ
  simp only [List.length_append] at hsum
  obtain ⟨hl, hr⟩ := List.append_inj happ (by omega)
  exact Prod.ext hl hr

theorem clear_of_length : Clear nodeHash P := fun p hp q hq heq =>
  tied_of_length hinj hlen hmem (hmem p hp) (Or.inl (hlen p hp).1) q hq heq

/-- From nodes as long as a hash, the loop joins nothing that collides. -/
theorem climbed_tied {path : List (List Byte)} {fn sn : ℕ} {fr sr : List Byte}
    (hfr : fr.length = 32) (hsr : sr.length = 32)
    (hpath : ∀ p ∈ climbed nodeHash path fn sn fr sr, nodeMessage p ∈ hashed) :
    ∀ p ∈ climbed nodeHash path fn sn fr sr, Tied nodeHash P p := by
  induction path generalizing fn sn fr sr with
  | nil => simp [climbed]
  | cons c path ih =>
    by_cases hzero : sn = 0
    · simp [climbed, hzero]
    by_cases hjoin : fn % 2 = 1 ∨ fn = sn
    · simp only [climbed, if_neg hzero, if_pos hjoin, List.mem_cons] at hpath ⊢
      rintro p (rfl | rfl | hp)
      · exact tied_of_length hinj hlen hmem (hpath _ (Or.inl rfl)) (Or.inr hfr)
      · exact tied_of_length hinj hlen hmem (hpath _ (Or.inr (Or.inl rfl))) (Or.inr hsr)
      · exact ih (length_nodeHash _ _) (length_nodeHash _ _)
          (fun q hq => hpath q (Or.inr (Or.inr hq))) p hp
    · simp only [climbed, if_neg hzero, if_neg hjoin, List.mem_cons] at hpath ⊢
      rintro p (rfl | hp)
      · exact tied_of_length hinj hlen hmem (hpath _ (Or.inl rfl)) (Or.inl hsr)
      · exact ih hfr (length_nodeHash _ _) (fun q hq => hpath q (Or.inr hq)) p hp

/-- The node an accepted path starts with is as long as a hash. -/
theorem length_of_climb {D E : List (List Byte)} (hD : pairs nodeHash emptyRoot D ⊆ P)
    (hE : pairs nodeHash emptyRoot E ⊆ P) (hD32 : ∀ d ∈ D, d.length = 32) (hpos : 0 < D.length)
    (hlt : D.length < E.length) {path : List (List Byte)} {h fn sn : ℕ} {fr sr : List Byte}
    (hfn : fn = (D.length - 1) / 2 ^ h) (hsn : sn = (E.length - 1) / 2 ^ h)
    (hsr : sr.length = 32)
    (hpath : ∀ p ∈ climbed nodeHash path fn sn fr sr, nodeMessage p ∈ hashed)
    (hclimb : climb nodeHash path fn sn fr sr =
      some (mth nodeHash emptyRoot D, mth nodeHash emptyRoot E)) : fr.length = 32 := by
  -- until the old tree's node is joined it is what the path starts with
  induction path generalizing h fn sn fr sr with
  | nil =>
    by_cases hzero : sn = 0
    · simp only [climb, if_pos hzero, Option.some.injEq, Prod.mk.injEq] at hclimb
      rw [hclimb.1]
      exact mth_of_forall (Q := fun d => d.length = 32) emptyRoot length_nodeHash
        (List.ne_nil_of_length_pos hpos) hD32
    · simp [climb, hzero] at hclimb
  | cons c path ih =>
    obtain ⟨hDfirst, -⟩ := bounds_of_div hfn
    obtain ⟨hEfirst, -⟩ := bounds_of_div hsn
    have hle : fn ≤ sn := hfn ▸ hsn ▸ Nat.div_le_div_right (by omega)
    by_cases hzero : sn = 0
    · simp [climb, hzero] at hclimb
    by_cases hjoin : fn % 2 = 1 ∨ fn = sn
    · simp only [climb, climbed, if_neg hzero, if_pos hjoin, List.mem_cons] at hclimb hpath
      obtain ⟨k, g, hk, habove, hg, hs, -⟩ := above_spec hfn hsn hzero hjoin
      rw [habove] at hclimb hpath
      have hlevel : fn * 2 ^ h = (2 * g + 1) * 2 ^ (h + k) := by rw [hk]; ring
      have hlevel' : fn * 2 ^ h ≤ sn * 2 ^ h := Nat.mul_le_mul_right _ hle
      obtain ⟨hnodeD, hnodeE, -⟩ := climb_sound emptyRoot (clear_of_length hinj hlen hmem) hD hE
        hpos hlt hg hs (climbed_tied hinj hlen hmem (length_nodeHash _ _) (length_nodeHash _ _)
          fun p hp => hpath p (Or.inr (Or.inr hp))) hclimb
      rw [subtree_succ nodeHash emptyRoot (h := h + k) (by omega)] at hnodeD hnodeE
      have hDpair := hD (mem_pairs nodeHash emptyRoot (D := D) (h := h + k) (i := g) (by omega))
      have hEpair := hE (mem_pairs nodeHash emptyRoot (D := E) (h := h + k) (i := g) (by omega))
      have hDsum := congrArg List.length
        (append_eq_of_nodeHash hinj hmem (hpath _ (Or.inl rfl)) hDpair hnodeD)
      have hEsum := congrArg List.length
        (append_eq_of_nodeHash hinj hmem (hpath _ (Or.inr (Or.inl rfl))) hEpair hnodeE)
      simp only [List.length_append, hlen _ hDpair, hlen _ hEpair] at hDsum hEsum
      omega
    · simp only [climb, climbed, if_neg hzero, if_neg hjoin, List.mem_cons] at hclimb hpath
      refine ih (h := h + 1) ?_ ?_ (length_nodeHash _ _) (fun p hp => hpath p (Or.inr hp)) hclimb
      · rw [pow_succ, ← Nat.div_div_eq_div_mul, ← hfn]
      · rw [pow_succ, ← Nat.div_div_eq_div_mul, ← hsn]

/-- A path that starts with an even node, the last of its level in the old tree only, starts with
one as long as a hash. -/
theorem length_first {D E : List (List Byte)} (hD : pairs nodeHash emptyRoot D ⊆ P)
    (hE : pairs nodeHash emptyRoot E ⊆ P) (hD32 : ∀ d ∈ D, d.length = 32) (hpos : 0 < D.length)
    (hlt : D.length < E.length) {path : List (List Byte)} {h fn sn : ℕ} {first : List Byte}
    (hfn : fn = (D.length - 1) / 2 ^ h) (hsn : sn = (E.length - 1) / 2 ^ h)
    (heven : fn % 2 = 0) (hne : fn < sn)
    (hpath : ∀ p ∈ climbed nodeHash path fn sn first first, nodeMessage p ∈ hashed)
    (hclimb : climb nodeHash path fn sn first first =
      some (mth nodeHash emptyRoot D, mth nodeHash emptyRoot E)) : first.length = 32 := by
  have hzero : sn ≠ 0 := by omega
  have hnot : ¬(fn % 2 = 1 ∨ fn = sn) := by omega
  cases path with
  | nil => simp [climb, hzero] at hclimb
  | cons c path =>
    -- the first step joins the node with its right neighbour in the new tree
    simp only [climb, climbed, if_neg hzero, if_neg hnot, List.mem_cons] at hclimb hpath
    refine length_of_climb hinj hlen hmem hD hE hD32 hpos hlt (h := h + 1) ?_ ?_
      (length_nodeHash _ _) (fun p hp => hpath p (Or.inr hp)) hclimb
    · rw [pow_succ, ← Nat.div_div_eq_div_mul, ← hfn]
    · rw [pow_succ, ← Nat.div_div_eq_div_mul, ← hsn]

end

/-- Equal images of lists on whose members a function is injective. -/
theorem eq_of_map_eq {α β : Type*} {f : α → β} {S : Set α} (hf : S.InjOn f) {l m : List α}
    (hl : ∀ a ∈ l, a ∈ S) (hm : ∀ a ∈ m, a ∈ S) (h : l.map f = m.map f) : l = m := by
  induction l generalizing m with
  | nil => exact (List.map_eq_nil_iff.mp h.symm).symm
  | cons a l ih =>
    match m, h with
    | b :: m, h =>
      obtain ⟨hab, hrest⟩ := List.cons.inj h
      rw [hf (hl a (by simp)) (hm b (by simp)) hab,
        ih (fun c hc => hl c (by simp [hc])) (fun c hc => hm c (by simp [hc])) hrest]

/-- Leaves SHA-256 tells apart have hashes of their own. -/
theorem injOn_leafHash {hashed : Set (List Byte)} (hinj : hashed.InjOn sha256) :
    Set.InjOn leafHash {l | 0 :: l ∈ hashed} :=
  fun _ ha _ hb h => (List.cons.inj (hinj ha hb h)).2

/-- The messages hashed for the pairs of a tree of hashes. -/
def pairMessages (D : List (List Byte)) : Set (List Byte) :=
  {m | ∃ p ∈ pairs nodeHash emptyRoot D, m = nodeMessage p}

/-- Among messages SHA-256 tells apart, the hashes of an accepted older tree are a prefix of the
newer one's. -/
theorem prefix_of_hashes {hashed : Set (List Byte)} (hinj : hashed.InjOn sha256)
    {D E proof : List (List Byte)} (hD32 : ∀ d ∈ D, d.length = 32) (hE32 : ∀ d ∈ E, d.length = 32)
    (hD : pairMessages D ⊆ hashed) (hE : pairMessages E ⊆ hashed)
    (hcheck : D.length < E.length →
      ∀ m ∈ checkMessages D.length E.length (mth nodeHash emptyRoot D) proof, m ∈ hashed)
    (h : verifyConsistency nodeHash emptyRoot D.length E.length (mth nodeHash emptyRoot D)
      (mth nodeHash emptyRoot E) proof = true) : D <+: E := by
  set P := pairs nodeHash emptyRoot D ∪ pairs nodeHash emptyRoot E with hP
  have hlen : ∀ p ∈ P, p.1.length = 32 ∧ p.2.length = 32 := by
    rintro p (hp | hp)
    · exact length_pairs hD32 p hp
    · exact length_pairs hE32 p hp
  have hmem : ∀ p ∈ P, nodeMessage p ∈ hashed := by
    rintro p (hp | hp)
    · exact hD ⟨p, hp, rfl⟩
    · exact hE ⟨p, hp, rfl⟩
  refine prefix_of_verifyConsistency emptyRoot (clear_of_length hinj hlen hmem)
    Set.subset_union_left Set.subset_union_right (fun hpos hlt => ?_) h
  have hjoined : ∀ p ∈ joined nodeHash D.length E.length (mth nodeHash emptyRoot D) proof,
      nodeMessage p ∈ hashed := fun p hp => hcheck hlt _ (List.mem_map_of_mem hp)
  obtain ⟨first, path, t, heq, hclimb, heven, hend⟩ := climb_of_verifyConsistency emptyRoot hpos hlt h
  rw [heq] at hjoined ⊢
  have hless : (D.length - 1) / 2 ^ t < (E.length - 1) / 2 ^ t := by
    refine lt_of_le_of_ne (Nat.div_le_div_right (by omega)) fun hsame => ?_
    have := (bounds_of_div (n := E.length - 1) (h := t) rfl).2
    rw [← hsame, hend] at this
    omega
  have hfirst := length_first hinj hlen hmem Set.subset_union_left Set.subset_union_right
    hD32 hpos hlt rfl rfl heven hless hjoined hclimb
  exact climbed_tied hinj hlen hmem hfirst hfirst hjoined

/-- **An accepted consistency proof is sound.** Among messages SHA-256 tells apart, the older
history is a prefix of the newer. -/
theorem prefix_of_check {hashed : Set (List Byte)} (hinj : hashed.InjOn sha256)
    {ls ms : List (List Byte)} {proof : List (List Byte)} (hls : treeMessages ls ⊆ hashed)
    (hms : treeMessages ms ⊆ hashed)
    (hcheck : ls.length < ms.length →
      ∀ m ∈ checkMessages ls.length ms.length (rootOf ls) proof, m ∈ hashed)
    (h : verifyConsistency nodeHash emptyRoot ls.length ms.length (rootOf ls) (rootOf ms) proof =
      true) : ls <+: ms := by
  have hpairs : ∀ ks : List (List Byte), treeMessages ks ⊆ hashed →
      pairMessages (ks.map leafHash) ⊆ hashed := fun ks hks m hm => hks (Or.inr hm)
  have hprefix : ls.map leafHash <+: ms.map leafHash := by
    refine prefix_of_hashes hinj length_map_leafHash length_map_leafHash (hpairs ls hls)
      (hpairs ms hms) (show _ → ∀ m ∈ checkMessages _ _ _ proof, m ∈ hashed from ?_) ?_
    · rwa [List.length_map, List.length_map]
    · rwa [List.length_map, List.length_map]
  -- the leaves are told apart by their hashes
  have hmap : ls.map leafHash = (ms.take ls.length).map leafHash := by
    rw [List.map_take, ← List.length_map leafHash]
    exact List.prefix_iff_eq_take.mp hprefix
  have hleaves := eq_of_map_eq (injOn_leafHash hinj) (fun l hl => hls (Or.inl ⟨l, hl, rfl⟩))
    (fun l hl => hms (Or.inl ⟨l, List.mem_of_mem_take hl, rfl⟩)) hmap
  rw [hleaves]
  exact List.take_prefix _ _

/-- Among messages SHA-256 tells apart, histories of one size and root are one. -/
theorem eq_of_rootOf_eq {hashed : Set (List Byte)} (hinj : hashed.InjOn sha256)
    {ls ms : List (List Byte)} (hls : treeMessages ls ⊆ hashed) (hms : treeMessages ms ⊆ hashed)
    (hlen : ls.length = ms.length) (h : rootOf ls = rootOf ms) : ls = ms := by
  have haccept : verifyConsistency nodeHash emptyRoot ls.length ms.length (rootOf ls) (rootOf ms)
      [] = true := by
    simp [verifyConsistency, hlen, h]
  exact (prefix_of_check hinj hls hms (by omega) haccept).eq_of_length hlen

end AgentGov.Receipts
