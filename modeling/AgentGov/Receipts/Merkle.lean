import AgentGov.Foundation.Merkle
import AgentGov.Foundation.Sha256

/-!
# Consistency proofs

The check that one tree is a prefix of another, over any way to join two hashes. The check joins
hashes on its way up; where these joins and those of the two trees are clear of collisions, it
accepts only a prefix.

## Main definitions

* `AgentGov.Receipts.leafHash`, `AgentGov.Receipts.nodeHash`, `AgentGov.Receipts.emptyRoot`: the
  hashes of the log's tree.
* `AgentGov.Receipts.verifyConsistency`: the check, with `AgentGov.Receipts.climb` its loop.
* `AgentGov.Receipts.joined`: the pairs the check joins.

## Main results

* `AgentGov.Receipts.climb_sound`: what the loop has in hand is the last node of the level in
  both trees, and these agree to the left of it.
* `AgentGov.Receipts.prefix_of_verifyConsistency`: an accepted tree is a prefix.
-/

namespace AgentGov.Receipts

open Foundation Foundation.Merkle

/-- The hash of one leaf. -/
def leafHash (data : List Byte) : List Byte := sha256 (0 :: data)

/-- The hash of an inner node. -/
def nodeHash (left right : List Byte) : List Byte := sha256 (1 :: (left ++ right))

/-- The root of the empty tree. -/
def emptyRoot : List Byte := sha256 []

/-! ### The check -/

section

variable {H : Type*}

/-- Both indices shifted while the first is odd; `fuel` is at least the first. -/
def dropOnes : (fuel fn sn : ℕ) → ℕ × ℕ
  | 0, fn, sn => (fn, sn)
  | fuel + 1, fn, sn => if fn % 2 = 1 then dropOnes fuel (fn / 2) (sn / 2) else (fn, sn)

/-- Both indices shifted while the first is even and not zero; `fuel` is at least the first. -/
def dropZeros : (fuel fn sn : ℕ) → ℕ × ℕ
  | 0, fn, sn => (fn, sn)
  | fuel + 1, fn, sn =>
    if fn ≠ 0 ∧ fn % 2 = 0 then dropZeros fuel (fn / 2) (sn / 2) else (fn, sn)

/-- The indices one level up from a node joined with its left neighbour. -/
def above (fn sn : ℕ) : ℕ × ℕ :=
  let (fn, sn) := if fn % 2 = 0 then dropZeros fn fn sn else (fn, sn)
  (fn / 2, sn / 2)

/-- The loop over the rest of the path: the old and the new root it arrives at, or nothing where
the path is too long or too short. -/
def climb (node : H → H → H) : List H → ℕ → ℕ → H → H → Option (H × H)
  | [], _, sn, fr, sr => if sn = 0 then some (fr, sr) else none
  | c :: path, fn, sn, fr, sr =>
    if sn = 0 then none
    else if fn % 2 = 1 ∨ fn = sn then
      climb node path (above fn sn).1 (above fn sn).2 (node c fr) (node c sr)
    else climb node path (fn / 2) (sn / 2) fr (node sr c)

/-- The pairs the loop joins. -/
def climbed (node : H → H → H) : List H → ℕ → ℕ → H → H → List (H × H)
  | [], _, _, _, _ => []
  | c :: path, fn, sn, fr, sr =>
    if sn = 0 then []
    else if fn % 2 = 1 ∨ fn = sn then
      (c, fr) :: (c, sr) ::
        climbed node path (above fn sn).1 (above fn sn).2 (node c fr) (node c sr)
    else (sr, c) :: climbed node path (fn / 2) (sn / 2) fr (node sr c)

/-- The path of a proof: a whole old tree is its own first node. -/
def pathOf (oldSize : ℕ) (oldRoot : H) (proof : List H) : List H :=
  if oldSize &&& (oldSize - 1) = 0 then oldRoot :: proof else proof

/-- Whether the tree of `oldRoot` is a prefix of the tree of `newRoot`. -/
def verifyConsistency [DecidableEq H] (node : H → H → H) (empty : H) (oldSize newSize : ℤ)
    (oldRoot newRoot : H) (proof : List H) : Bool :=
  if ¬(0 ≤ oldSize ∧ oldSize ≤ newSize) then false
  else if oldSize = newSize then proof.isEmpty && oldRoot == newRoot
  else if oldSize = 0 then proof.isEmpty && oldRoot == empty
  else if proof.isEmpty then false
  else
    match pathOf oldSize.toNat oldRoot proof with
    | [] => false
    | first :: path =>
      let (fn, sn) := dropOnes (oldSize.toNat - 1) (oldSize.toNat - 1) (newSize.toNat - 1)
      climb node path fn sn first first == some (oldRoot, newRoot)

/-- The pairs the check joins. -/
def joined (node : H → H → H) (oldSize newSize : ℤ) (oldRoot : H) (proof : List H) :
    List (H × H) :=
  match pathOf oldSize.toNat oldRoot proof with
  | [] => []
  | first :: path =>
    let (fn, sn) := dropOnes (oldSize.toNat - 1) (oldSize.toNat - 1) (newSize.toNat - 1)
    climbed node path fn sn first first

end

/-! ### Shifting -/

/-- The first index shifted past its trailing ones is even, the last whole node of its level. -/
theorem dropOnes_spec (fuel fn sn : ℕ) (h : fn ≤ fuel) :
    ∃ t, dropOnes fuel fn sn = (fn / 2 ^ t, sn / 2 ^ t) ∧ fn / 2 ^ t % 2 = 0 ∧
      (fn / 2 ^ t + 1) * 2 ^ t = fn + 1 := by
  induction fuel generalizing fn sn with
  | zero => exact ⟨0, by simp [dropOnes], by simp; omega, by simp⟩
  | succ fuel ih =>
    by_cases hodd : fn % 2 = 1
    · obtain ⟨t, ht, heven, hsize⟩ := ih (fn / 2) (sn / 2) (by omega)
      refine ⟨t + 1, ?_, ?_, ?_⟩
      · rw [dropOnes, if_pos hodd, ht, Nat.div_div_eq_div_mul, Nat.div_div_eq_div_mul, pow_succ']
      · rwa [pow_succ', ← Nat.div_div_eq_div_mul]
      · rw [pow_succ', ← Nat.div_div_eq_div_mul, ← mul_assoc, mul_comm _ 2, mul_assoc, hsize]
        omega
    · exact ⟨0, by simp [dropOnes, hodd], by simp; omega, by simp⟩

/-- A positive index shifted past its trailing zeros is odd. -/
theorem dropZeros_spec (fuel fn sn : ℕ) (hpos : 0 < fn) (h : fn ≤ fuel) :
    ∃ k g, fn = 2 ^ k * g ∧ g % 2 = 1 ∧ dropZeros fuel fn sn = (g, sn / 2 ^ k) := by
  induction fuel generalizing fn sn with
  | zero => omega
  | succ fuel ih =>
    by_cases heven : fn % 2 = 0
    · obtain ⟨k, g, hfn, hg, hstep⟩ := ih (fn / 2) (sn / 2) (by omega) (by omega)
      refine ⟨k + 1, g, ?_, hg, ?_⟩
      · rw [pow_succ', mul_assoc, ← hfn]
        omega
      · rw [dropZeros, if_pos ⟨by omega, heven⟩, hstep, Nat.div_div_eq_div_mul, pow_succ']
    · exact ⟨0, fn, by simp, by omega, by simp [dropZeros, heven]⟩

/-! ### Soundness -/

/-- The node a leaf lies under reaches from its first leaf to its last. -/
theorem bounds_of_div {n h f : ℕ} (hf : f = n / 2 ^ h) : f * 2 ^ h ≤ n ∧ n < (f + 1) * 2 ^ h := by
  subst hf
  exact ⟨Nat.div_mul_le_self _ _, by
    rw [mul_comm]
    exact Nat.lt_mul_div_succ _ (Nat.two_pow_pos h)⟩

/-- A node that is joined with its left neighbour first climbs alone, as the last of its level in
both lengths, to a level where it is a right one. -/
theorem above_spec {h fn sn m n : ℕ} (hfn : fn = m / 2 ^ h) (hsn : sn = n / 2 ^ h) (hsn0 : sn ≠ 0)
    (hjoin : fn % 2 = 1 ∨ fn = sn) : ∃ k g, fn = 2 ^ k * (2 * g + 1) ∧
      above fn sn = (g, sn / 2 ^ (k + 1)) ∧ g = m / 2 ^ (h + k + 1) ∧
      sn / 2 ^ (k + 1) = n / 2 ^ (h + k + 1) ∧ (k = 0 ∨ fn = sn) := by
  obtain ⟨k, g, hk, habove, hkz⟩ : ∃ k g, fn = 2 ^ k * (2 * g + 1) ∧
      above fn sn = (g, sn / 2 ^ (k + 1)) ∧ (k = 0 ∨ fn = sn) := by
    by_cases hodd : fn % 2 = 1
    · refine ⟨0, fn / 2, by omega, ?_, Or.inl rfl⟩
      simp [above, hodd]
    · have heq : fn = sn := hjoin.resolve_left hodd
      obtain ⟨k, g, hkg, hg, hdrop⟩ := dropZeros_spec fn fn sn (by omega) le_rfl
      refine ⟨k, g / 2, by rw [hkg]; congr 1; omega, ?_, Or.inr heq⟩
      simp only [above, if_pos (show fn % 2 = 0 by omega), hdrop, Nat.div_div_eq_div_mul, pow_succ]
  refine ⟨k, g, hk, habove, ?_, ?_, hkz⟩
  · rw [add_assoc, pow_add 2 h, ← Nat.div_div_eq_div_mul, ← hfn, hk, pow_succ,
      ← Nat.div_div_eq_div_mul, Nat.mul_div_cancel_left _ (Nat.two_pow_pos k)]
    omega
  · rw [add_assoc, pow_add 2 h, ← Nat.div_div_eq_div_mul, ← hsn]

section

variable {H : Type*} {node : H → H → H} (empty : H) {P : Set (H × H)} {D E : List H}

/-- A pair that no other pair of `P` collides with. -/
def Tied (node : H → H → H) (P : Set (H × H)) (p : H × H) : Prop :=
  ∀ q ∈ P, node p.1 p.2 = node q.1 q.2 → p = q

theorem Tied.eq {a b c d : H} (h : Tied node P (a, b)) (hcd : (c, d) ∈ P)
    (heq : node a b = node c d) : a = c ∧ b = d :=
  Prod.ext_iff.mp (h (c, d) hcd heq)

/-- Where a node joined with its left neighbour is the last of its level in both trees, so are
the two, and the trees agree to their left. -/
theorem joined_sound (hP : Clear node P) (hD : pairs node empty D ⊆ P)
    (hE : pairs node empty E ⊆ P) {h g : ℕ} {c fr sr : H} (hDg : (2 * g + 1) * 2 ^ h < D.length)
    (hEg : (2 * g + 1) * 2 ^ h < E.length) (hfr : Tied node P (c, fr)) (hsr : Tied node P (c, sr))
    (hnodeD : node c fr = subtree node empty D (h + 1) g)
    (hnodeE : node c sr = subtree node empty E (h + 1) g)
    (hleft : D.take (g * 2 ^ (h + 1)) = E.take (g * 2 ^ (h + 1))) :
    fr = subtree node empty D h (2 * g + 1) ∧ sr = subtree node empty E h (2 * g + 1) ∧
      D.take ((2 * g + 1) * 2 ^ h) = E.take ((2 * g + 1) * 2 ^ h) := by
  rw [subtree_succ node empty hDg] at hnodeD
  rw [subtree_succ node empty hEg] at hnodeE
  obtain ⟨hcD, hfrD⟩ := hfr.eq (hD (mem_pairs node empty hDg)) hnodeD
  obtain ⟨hcE, hsrE⟩ := hsr.eq (hE (mem_pairs node empty hEg)) hnodeE
  refine ⟨hfrD, hsrE, ?_⟩
  have hchunk : chunk D h (2 * g) = chunk E h (2 * g) :=
    chunk_eq empty hP hD hE hDg.le hEg.le (hcD.symm.trans hcE)
  have hsize : g * 2 ^ (h + 1) = 2 * g * 2 ^ h := by ring
  rw [hsize] at hleft
  rw [← take_append_chunk, ← take_append_chunk, hchunk, hleft]

/-- What the loop has in hand is the last node of its level in the old tree, and the node there
in the new one. -/
theorem climb_sound (hP : Clear node P) (hD : pairs node empty D ⊆ P)
    (hE : pairs node empty E ⊆ P) (hpos : 0 < D.length) (hlt : D.length < E.length)
    {path : List H} {h fn sn : ℕ} {fr sr : H} (hfn : fn = (D.length - 1) / 2 ^ h)
    (hsn : sn = (E.length - 1) / 2 ^ h)
    (htied : ∀ p ∈ climbed node path fn sn fr sr, Tied node P p)
    (hclimb : climb node path fn sn fr sr = some (mth node empty D, mth node empty E)) :
    fr = subtree node empty D h fn ∧ sr = subtree node empty E h fn ∧
      D.take (fn * 2 ^ h) = E.take (fn * 2 ^ h) := by
  -- the induction is on the path: its end is the two roots, and each step is undone
  induction path generalizing h fn sn fr sr with
  | nil =>
    obtain ⟨-, hDlast⟩ := bounds_of_div hfn
    obtain ⟨-, hElast⟩ := bounds_of_div hsn
    have hle : fn ≤ sn := hfn ▸ hsn ▸ Nat.div_le_div_right (by omega)
    by_cases hzero : sn = 0
    · subst hzero
      obtain rfl : fn = 0 := by omega
      simp only [climb, ↓reduceIte, Option.some.injEq, Prod.mk.injEq] at hclimb
      refine ⟨?_, ?_, by simp⟩
      · rw [hclimb.1, subtree_zero_of_le node empty (by omega)]
      · rw [hclimb.2, subtree_zero_of_le node empty (by omega)]
    · simp [climb, hzero] at hclimb
  | cons c path ih =>
    obtain ⟨hDfirst, hDlast⟩ := bounds_of_div hfn
    obtain ⟨hEfirst, hElast⟩ := bounds_of_div hsn
    have hle : fn ≤ sn := hfn ▸ hsn ▸ Nat.div_le_div_right (by omega)
    by_cases hzero : sn = 0
    · simp [climb, hzero] at hclimb
    by_cases hjoin : fn % 2 = 1 ∨ fn = sn
    · simp only [climb, climbed, if_neg hzero, if_pos hjoin] at hclimb htied
      obtain ⟨k, g, hk, habove, hg, hs, halone⟩ := above_spec hfn hsn hzero hjoin
      rw [habove] at hclimb htied
      have hlevel : fn * 2 ^ h = (2 * g + 1) * 2 ^ (h + k) := by rw [hk]; ring
      obtain ⟨hnodeD, hnodeE, hleft⟩ := ih hg hs
        (fun p hp => htied p (List.mem_cons_of_mem _ (List.mem_cons_of_mem _ hp))) hclimb
      obtain ⟨hfrD, hsrE, htake⟩ := joined_sound empty hP hD hE (h := h + k) (g := g)
        (by omega) (by omega) (htied _ (by simp)) (htied _ (by simp)) hnodeD hnodeE hleft
      have hclimbs : ∀ L : List H, (k = 0 ∨ L.length ≤ (fn + 1) * 2 ^ h) →
          subtree node empty L (h + k) (2 * g + 1) = subtree node empty L h fn := by
        intro L hL
        rcases hL with rfl | hL
        · simp [hk]
        · rw [hk] at hL ⊢
          exact subtree_add_of_le node empty k hL
      have hElone : k = 0 ∨ E.length ≤ (fn + 1) * 2 ^ h :=
        halone.imp_right fun heq => by rw [heq]; omega
      refine ⟨hfrD.trans (hclimbs D (hElone.imp_right (by omega))),
        hsrE.trans (hclimbs E hElone), ?_⟩
      rw [hlevel, htake]
    · -- the old tree's last node climbs alone, the new tree's is joined with its right neighbour
      simp only [climb, climbed, if_neg hzero, if_neg hjoin] at hclimb htied
      obtain ⟨heven, hne⟩ := not_or.mp hjoin
      obtain ⟨g, rfl⟩ : ∃ g, fn = 2 * g := ⟨fn / 2, by omega⟩
      have hEg : (2 * g + 1) * 2 ^ h < E.length := by
        have : (2 * g + 1) * 2 ^ h ≤ sn * 2 ^ h := Nat.mul_le_mul_right _ (by omega)
        omega
      have hg : 2 * g / 2 = (D.length - 1) / 2 ^ (h + 1) := by
        rw [pow_succ, ← Nat.div_div_eq_div_mul, ← hfn]
      have hs : sn / 2 = (E.length - 1) / 2 ^ (h + 1) := by
        rw [pow_succ, ← Nat.div_div_eq_div_mul, ← hsn]
      obtain ⟨hfrD, hnodeE, hleft⟩ := ih hg hs
        (fun p hp => htied p (List.mem_cons_of_mem _ hp)) hclimb
      rw [Nat.mul_div_cancel_left g two_pos] at hfrD hnodeE hleft
      rw [subtree_succ_of_le node empty (by omega)] at hfrD
      rw [subtree_succ node empty hEg] at hnodeE
      refine ⟨hfrD, ((htied _ (by simp)).eq (hE (mem_pairs node empty hEg)) hnodeE).1, ?_⟩
      rwa [show g * 2 ^ (h + 1) = 2 * g * 2 ^ h by ring] at hleft

/-- Where the check accepts a smaller tree that is not empty, its loop arrives at the two roots,
from the last whole node of the old tree. -/
theorem climb_of_verifyConsistency [DecidableEq H] {m n : ℕ} {r s : H} {proof : List H}
    (hpos : 0 < m) (hlt : m < n) (h : verifyConsistency node empty m n r s proof = true) :
    ∃ first path t, joined node m n r proof =
        climbed node path ((m - 1) / 2 ^ t) ((n - 1) / 2 ^ t) first first ∧
      climb node path ((m - 1) / 2 ^ t) ((n - 1) / 2 ^ t) first first = some (r, s) ∧
      (m - 1) / 2 ^ t % 2 = 0 ∧ ((m - 1) / 2 ^ t + 1) * 2 ^ t = m := by
  obtain ⟨t, ht, heven, hwhole⟩ := dropOnes_spec (m - 1) (m - 1) (n - 1) le_rfl
  simp only [verifyConsistency, Nat.cast_nonneg, Nat.cast_le, true_and, Nat.cast_inj,
    Int.toNat_natCast, Nat.cast_eq_zero, if_neg (show ¬¬m ≤ n by omega),
    if_neg (show ¬m = n by omega), if_neg (show ¬m = 0 by omega)] at h
  split_ifs at h with hproof
  match hpath : pathOf m r proof with
  | [] => simp [hpath] at h
  | first :: path =>
    simp only [hpath, beq_iff_eq, ht] at h
    exact ⟨first, path, t, by simp only [joined, Int.toNat_natCast, hpath, ht], h, heven, by omega⟩

/-- The check accepts the head of a list as older than the head of another only where the one is
a prefix of the other. -/
theorem prefix_of_verifyConsistency [DecidableEq H] (hP : Clear node P)
    (hD : pairs node empty D ⊆ P) (hE : pairs node empty E ⊆ P) {proof : List H}
    (hjoined : 0 < D.length → D.length < E.length →
      ∀ p ∈ joined node D.length E.length (mth node empty D) proof, Tied node P p)
    (h : verifyConsistency node empty D.length E.length (mth node empty D) (mth node empty E)
      proof = true) : D <+: E := by
  rcases Nat.eq_zero_or_pos D.length with hzero | hpos
  · rw [List.eq_nil_of_length_eq_zero hzero]
    exact List.nil_prefix
  rcases Nat.lt_or_ge D.length E.length with hlt | hge
  · obtain ⟨first, path, t, heq, hclimb, -, hend⟩ :=
      climb_of_verifyConsistency empty hpos hlt h
    obtain ⟨hfirstD, hfirstE, hleft⟩ :=
      climb_sound empty hP hD hE hpos hlt rfl rfl (heq ▸ hjoined hpos hlt) hclimb
    have hchunk := chunk_eq empty hP hD hE hend.le (by omega) (hfirstD.symm.trans hfirstE)
    have htake : D.take D.length = E.take D.length := by
      conv_lhs => rw [← hend, ← take_append_chunk, hchunk, hleft, take_append_chunk, hend]
    rw [List.take_length] at htake
    rw [htake]
    exact List.take_prefix _ _
  · simp only [verifyConsistency, Nat.cast_nonneg, Nat.cast_le, true_and, Nat.cast_inj] at h
    split_ifs at h with hle hsize
    · have heq : mth node empty D = mth node empty E := by simp_all
      rw [mth_inj empty hP hD hE hsize heq]
    all_goals omega

end

end AgentGov.Receipts
