import AgentGov.Receipts.Extension

/-!
# Inclusion and consistency proofs

The proofs a tree gives by the recursions of its splits, and the iterative checks of them. A walk
up from a node takes the siblings the recursion lists, whether the node lies in a whole subtree or
at the tree's right edge, where it climbs alone until it is a right node.

## Main definitions

* `AgentGov.Receipts.path`, `AgentGov.Receipts.subproof`: the recursions.
* `AgentGov.Receipts.verifyInclusion`: the check of an inclusion proof, with
  `AgentGov.Receipts.walk` its loop.

## Main results

* `AgentGov.Receipts.getElem?_of_verifyInclusion`: an accepted leaf is the tree's.
* `AgentGov.Receipts.verifyInclusion_path`: the path of a leaf is accepted.
* `AgentGov.Receipts.verifyConsistency_subproof`: the proof of a smaller tree is accepted.
-/

namespace AgentGov.Receipts

open Foundation Foundation.Merkle

/-! ### The proofs of a tree -/

section

variable {H : Type*} (node : H → H → H) (empty : H)

/-- `_path`: the siblings on the way from a leaf to the head of some leaves. -/
def path (D : List H) (index : ℕ) : List H :=
  if _ : 2 ≤ D.length then
    if index < split D.length then
      path (D.take (split D.length)) index ++ [mth node empty (D.drop (split D.length))]
    else
      path (D.drop (split D.length)) (index - split D.length) ++
        [mth node empty (D.take (split D.length))]
  else []
termination_by D.length
decreasing_by
  · have := split_lt ‹2 ≤ D.length›
    rw [List.length_take]
    omega
  · have := split_pos D.length
    rw [List.length_drop]
    omega

/-- `_subproof`: from the head of the first `m` leaves, where it is not known whole, the siblings
on the way to the head of all. -/
def subproof (m : ℕ) (D : List H) (complete : Bool) : List H :=
  if m = D.length then
    if complete then [] else [mth node empty D]
  else if _ : 2 ≤ D.length then
    if m ≤ split D.length then
      subproof m (D.take (split D.length)) complete ++ [mth node empty (D.drop (split D.length))]
    else
      subproof (m - split D.length) (D.drop (split D.length)) false ++
        [mth node empty (D.take (split D.length))]
  else []
termination_by D.length
decreasing_by
  · have := split_lt ‹2 ≤ D.length›
    rw [List.length_take]
    omega
  · have := split_pos D.length
    rw [List.length_drop]
    omega

end

/-! ### The check of an inclusion proof -/

section

variable {H : Type*}

/-- The state of the loop after some of the proof: the indices and the node in hand, or nothing
where the top was reached before. -/
def steps (node : H → H → H) : List H → ℕ → ℕ → H → Option (ℕ × ℕ × H)
  | [], fn, sn, r => some (fn, sn, r)
  | p :: proof, fn, sn, r =>
    if sn = 0 then none
    else if fn % 2 = 1 ∨ fn = sn then
      steps node proof (above fn sn).1 (above fn sn).2 (node p r)
    else steps node proof (fn / 2) (sn / 2) (node r p)

/-- The loop of the check: the root it arrives at, or nothing where the proof is too long or too
short. -/
def walk (node : H → H → H) (proof : List H) (fn sn : ℕ) (r : H) : Option H :=
  match steps node proof fn sn r with
  | some (_, 0, r) => some r
  | _ => none

/-- The pairs the loop joins. -/
def walked (node : H → H → H) : List H → ℕ → ℕ → H → List (H × H)
  | [], _, _, _ => []
  | p :: proof, fn, sn, r =>
    if sn = 0 then []
    else if fn % 2 = 1 ∨ fn = sn then
      (p, r) :: walked node proof (above fn sn).1 (above fn sn).2 (node p r)
    else (r, p) :: walked node proof (fn / 2) (sn / 2) (node r p)

/-- `verify_inclusion`: whether a leaf is at an index of the tree of a root. -/
def verifyInclusion [DecidableEq H] (node : H → H → H) (leaf : H) (index size : ℤ)
    (proof : List H) (root : H) : Bool :=
  if 0 ≤ index ∧ index < size then
    walk node proof index.toNat (size.toNat - 1) leaf == some root
  else false

variable (node : H → H → H)

/-- One more entry of the proof. -/
theorem steps_snoc {proof : List H} {fn sn a b : ℕ} {r s p : H}
    (h : steps node proof fn sn r = some (a, b, s)) :
    steps node (proof ++ [p]) fn sn r = steps node [p] a b s := by
  induction proof generalizing fn sn r with
  | nil =>
    simp only [steps, Option.some.injEq, Prod.mk.injEq] at h
    obtain ⟨rfl, rfl, rfl⟩ := h
    rfl
  | cons q proof ih =>
    rw [steps] at h
    rw [List.cons_append, steps]
    split_ifs at h ⊢
    · exact ih h
    · exact ih h

theorem walk_nil (fn sn : ℕ) (r : H) : walk node [] fn sn r = if sn = 0 then some r else none := by
  cases sn <;> simp [walk, steps]

theorem walk_cons (p : H) (proof : List H) (fn sn : ℕ) (r : H) :
    walk node (p :: proof) fn sn r =
      if sn = 0 then none
      else if fn % 2 = 1 ∨ fn = sn then
        walk node proof (above fn sn).1 (above fn sn).2 (node p r)
      else walk node proof (fn / 2) (sn / 2) (node r p) := by
  simp only [walk, steps]
  split_ifs <;> rfl

/-! ### Soundness -/

variable {node} (empty : H) {P : Set (H × H)} {D : List H}

/-- The node an accepted walk starts from is the node of the tree there. -/
theorem walk_sound (hD : pairs node empty D ⊆ P) {proof : List H} {h i fn sn : ℕ} {r : H}
    (hi : i < D.length) (hfn : fn = i / 2 ^ h) (hsn : sn = (D.length - 1) / 2 ^ h)
    (htied : ∀ p ∈ walked node proof fn sn r, Tied node P p)
    (hwalk : walk node proof fn sn r = some (mth node empty D)) :
    r = subtree node empty D h fn := by
  -- the induction is on the proof: its end is the root, and each step is undone
  induction proof generalizing h fn sn r with
  | nil =>
    obtain ⟨-, hlast⟩ := bounds_of_div hsn
    have hle : fn ≤ sn := hfn ▸ hsn ▸ Nat.div_le_div_right (by omega)
    rw [walk_nil] at hwalk
    split_ifs at hwalk with hzero
    obtain rfl : fn = 0 := by omega
    rw [Option.some.inj hwalk, subtree_zero_of_le node empty (by rw [hzero] at hlast; omega)]
  | cons p proof ih =>
    obtain ⟨hfirst, hlast⟩ := bounds_of_div hsn
    have hle : fn ≤ sn := hfn ▸ hsn ▸ Nat.div_le_div_right (by omega)
    have hlevel : fn * 2 ^ h ≤ sn * 2 ^ h := Nat.mul_le_mul_right _ hle
    rw [walk_cons] at hwalk
    by_cases hzero : sn = 0
    · simp [hzero] at hwalk
    by_cases hjoin : fn % 2 = 1 ∨ fn = sn
    · simp only [walked, if_neg hzero, if_pos hjoin] at hwalk htied
      obtain ⟨k, g, hk, habove, hg, hs, halone⟩ := above_spec hfn hsn hzero hjoin
      rw [habove] at hwalk htied
      have hnode := ih hg hs (fun q hq => htied q (List.mem_cons_of_mem _ hq)) hwalk
      have hgl : (2 * g + 1) * 2 ^ (h + k) < D.length := by
        have : fn * 2 ^ h = (2 * g + 1) * 2 ^ (h + k) := by rw [hk]; ring
        omega
      rw [subtree_succ node empty hgl] at hnode
      rw [((htied _ (by simp)).eq (hD (mem_pairs node empty hgl)) hnode).2]
      rcases halone with rfl | heq
      · simp [hk]
      · have hwhole : D.length ≤ (2 ^ k * (2 * g + 1) + 1) * 2 ^ h := by
          rw [← hk, heq]
          omega
        rw [subtree_add_of_le node empty k hwhole, ← hk]
    · simp only [walked, if_neg hzero, if_neg hjoin] at hwalk htied
      obtain ⟨heven, hne⟩ := not_or.mp hjoin
      obtain ⟨g, rfl⟩ : ∃ g, fn = 2 * g := ⟨fn / 2, by omega⟩
      have hgl : (2 * g + 1) * 2 ^ h < D.length := by
        have : (2 * g + 1) * 2 ^ h ≤ sn * 2 ^ h := Nat.mul_le_mul_right _ (by omega)
        omega
      have hg : 2 * g / 2 = i / 2 ^ (h + 1) := by
        rw [pow_succ, ← Nat.div_div_eq_div_mul, ← hfn]
      have hs : sn / 2 = (D.length - 1) / 2 ^ (h + 1) := by
        rw [pow_succ, ← Nat.div_div_eq_div_mul, ← hsn]
      have hnode := ih hg hs (fun q hq => htied q (List.mem_cons_of_mem _ hq)) hwalk
      rw [Nat.mul_div_cancel_left g two_pos, subtree_succ node empty hgl] at hnode
      exact ((htied _ (by simp)).eq (hD (mem_pairs node empty hgl)) hnode).1

theorem subtree_zero {i : ℕ} (hi : i < D.length) : subtree node empty D 0 i = D[i] := by
  have hchunk : chunk D 0 i = [D[i]] := by
    rw [chunk, pow_zero, mul_one, List.drop_eq_getElem_cons hi]
    rfl
  rw [subtree, hchunk, mth_singleton]

/-- A leaf that is accepted at an index of a tree is the leaf there. -/
theorem getElem?_of_verifyInclusion [DecidableEq H] (hD : pairs node empty D ⊆ P) {leaf : H}
    {i : ℤ} {proof : List H}
    (htied : ∀ p ∈ walked node proof i.toNat (D.length - 1) leaf, Tied node P p)
    (h : verifyInclusion node leaf i D.length proof (mth node empty D) = true) :
    0 ≤ i ∧ D[i.toNat]? = some leaf := by
  unfold verifyInclusion at h
  split_ifs at h with hi
  rw [Int.toNat_natCast, beq_iff_eq] at h
  have hlt : i.toNat < D.length := by omega
  have hleaf := walk_sound empty hD (h := 0) hlt (by rw [pow_zero, Nat.div_one])
    (by rw [pow_zero, Nat.div_one]) htied h
  rw [subtree_zero empty hlt] at hleaf
  rw [hleaf, List.getElem?_eq_getElem hlt]
  exact ⟨hi.1, rfl⟩

end

/-! ### Completeness -/

/-- A node joined with its left neighbour climbs alone to a right node and then past it. -/
theorem above_eq (j g sn : ℕ) : above (2 ^ j * (2 * g + 1)) sn = (g, sn / 2 ^ (j + 1)) := by
  have hdrop : ∀ fuel, 2 ^ j * (2 * g + 1) ≤ fuel →
      dropZeros fuel (2 ^ j * (2 * g + 1)) sn = (2 * g + 1, sn / 2 ^ j) := by
    induction j generalizing sn with
    | zero =>
      intro fuel hfuel
      obtain ⟨fuel, rfl⟩ : ∃ n, fuel = n + 1 := ⟨fuel - 1, by omega⟩
      rw [dropZeros, if_neg (by omega)]
      simp
    | succ j ih =>
      intro fuel hfuel
      have htwice : 2 ^ (j + 1) * (2 * g + 1) = 2 * (2 ^ j * (2 * g + 1)) := by ring
      have hpos : 0 < 2 ^ j * (2 * g + 1) := Nat.mul_pos (Nat.two_pow_pos j) (by omega)
      rw [htwice] at hfuel ⊢
      obtain ⟨fuel, rfl⟩ : ∃ n, fuel = n + 1 := ⟨fuel - 1, by omega⟩
      rw [dropZeros, if_pos ⟨by omega, by omega⟩, Nat.mul_div_cancel_left _ two_pos,
        ih _ _ (by omega), Nat.div_div_eq_div_mul, pow_succ']
  rcases j with _ | j
  · rw [above]
    simp only [pow_zero, one_mul, if_neg (show ¬(2 * g + 1) % 2 = 0 by omega)]
    exact Prod.ext (by simp; omega) (by simp)
  · have heven : 2 ^ (j + 1) * (2 * g + 1) % 2 = 0 := by
      rw [pow_succ', mul_assoc]
      exact Nat.mul_mod_right _ _
    simp only [above, if_pos heven, hdrop _ le_rfl]
    exact Prod.ext (by simp; omega) (by rw [pow_succ 2 (j + 1), ← Nat.div_div_eq_div_mul])

/-- The last index of the first part of a list is one below its length. -/
theorem exists_split {n : ℕ} (h : 2 ≤ n) :
    ∃ e, split n = 2 ^ e ∧ 2 ^ e < n ∧ n ≤ 2 ^ (e + 1) :=
  ⟨_, rfl, split_lt h, by
    rw [pow_succ']
    exact le_two_mul_split h⟩

section

variable {H : Type*} (node : H → H → H) (empty : H)

theorem path_of_lt {D : List H} {index : ℕ} (h : 2 ≤ D.length) (hi : index < split D.length) :
    path node empty D index = path node empty (D.take (split D.length)) index ++
      [mth node empty (D.drop (split D.length))] := by
  rw [path, dif_pos h, if_pos hi]

theorem path_of_le {D : List H} {index : ℕ} (h : 2 ≤ D.length) (hi : split D.length ≤ index) :
    path node empty D index = path node empty (D.drop (split D.length)) (index - split D.length) ++
      [mth node empty (D.take (split D.length))] := by
  rw [path, dif_pos h, if_neg (by omega)]

/-- In a whole subtree with leaves to its right the walk arrives at the subtree's node. -/
theorem steps_whole {D : List H} {e base sn i : ℕ} (hD : D.length = 2 ^ e)
    (hbase : base < sn / 2 ^ e) (hi : i < D.length) :
    steps node (path node empty D i) (base * 2 ^ e + i) sn D[i] =
      some (base, sn / 2 ^ e, mth node empty D) := by
  induction e generalizing D base i with
  | zero =>
    match D, hD with
    | [d], _ =>
      obtain rfl : i = 0 := by simp at hi; omega
      simp [path, steps]
  | succ e ih =>
    have htwo : 2 ≤ D.length := by
      have := Nat.two_pow_pos e
      rw [hD, pow_succ]
      omega
    have hsplit : split D.length = 2 ^ e := by
      rw [hD]
      exact split_eq (Nat.pow_lt_pow_succ one_lt_two) le_rfl
    have hhalf : sn / 2 ^ (e + 1) = sn / 2 ^ e / 2 := by
      rw [pow_succ, Nat.div_div_eq_div_mul]
    have hpow : 2 ^ (e + 1) = 2 ^ e + 2 ^ e := by ring
    rw [hhalf] at hbase ⊢
    rw [mth_split node empty htwo]
    rcases Nat.lt_or_ge i (split D.length) with hlt | hge
    · have hlen : (D.take (split D.length)).length = 2 ^ e := by
        rw [List.length_take]
        omega
      have hpart := @ih (D.take (split D.length)) (2 * base) i hlen (by omega) (by omega)
      rw [List.getElem_take] at hpart
      rw [path_of_lt node empty htwo hlt,
        show base * 2 ^ (e + 1) + i = 2 * base * 2 ^ e + i by ring, steps_snoc node hpart, steps,
        if_neg (by omega), if_neg (by omega), steps, Nat.mul_div_cancel_left _ two_pos]
    · have hlen : (D.drop (split D.length)).length = 2 ^ e := by
        rw [List.length_drop]
        omega
      have hpart := @ih (D.drop (split D.length)) (2 * base + 1) (i - split D.length) hlen
        (by omega) (by omega)
      rw [List.getElem_drop] at hpart
      have hplace : base * 2 ^ (e + 1) + i = (2 * base + 1) * 2 ^ e + (i - split D.length) := by
        have : base * 2 ^ (e + 1) + 2 ^ e = (2 * base + 1) * 2 ^ e := by ring
        omega
      have habove := above_eq 0 base (sn / 2 ^ e)
      rw [pow_zero, one_mul, zero_add, pow_one] at habove
      simp only [show split D.length + (i - split D.length) = i by omega] at hpart
      rw [path_of_le node empty htwo hge, hplace, steps_snoc node hpart, steps, if_neg (by omega),
        if_pos (by omega), habove, steps]

/-- In the subtree at the right edge the walk arrives at a last node. -/
theorem steps_last {D : List H} {E base sn i : ℕ} (hE : D.length ≤ 2 ^ E)
    (hsn : sn + 1 = base * 2 ^ E + D.length) (hi : i < D.length) :
    ∃ j, steps node (path node empty D i) (base * 2 ^ E + i) sn D[i] =
      some (base * 2 ^ j, base * 2 ^ j, mth node empty D) := by
  -- the induction is on the length: a leaf to the left of the split is in a whole subtree
  induction hn : D.length using Nat.strong_induction_on generalizing D E base i with
  | _ n ih =>
    subst hn
    by_cases htwo : 2 ≤ D.length
    · obtain ⟨e, hsplit, hlow, hhigh⟩ := exists_split htwo
      obtain ⟨q, rfl⟩ : ∃ q, E = e + 1 + q := by
        refine ⟨E - (e + 1), ?_⟩
        have := (Nat.pow_lt_pow_iff_right one_lt_two).mp (hlow.trans_le hE)
        omega
      have hplace : base * 2 ^ (e + 1 + q) = 2 * (base * 2 ^ q) * 2 ^ e := by ring
      refine ⟨q, ?_⟩
      rw [mth_split node empty htwo]
      rcases Nat.lt_or_ge i (split D.length) with hlt | hge
      · have hlen : (D.take (split D.length)).length = 2 ^ e := by
          rw [List.length_take]
          omega
        have hquot : sn / 2 ^ e = 2 * (base * 2 ^ q) + 1 := by
          apply Nat.div_eq_of_lt_le
          · rw [add_mul, one_mul]
            omega
          · rw [add_mul, add_mul, one_mul]
            rw [pow_succ] at hhigh
            omega
        have hpart := @steps_whole H node empty _ e (2 * (base * 2 ^ q)) sn i hlen (by omega)
          (by omega)
        rw [List.getElem_take] at hpart
        rw [path_of_lt node empty htwo hlt, hplace, steps_snoc node hpart, steps,
          if_neg (by omega), if_neg (by omega), steps, hquot, Nat.mul_div_cancel_left _ two_pos,
          show (2 * (base * 2 ^ q) + 1) / 2 = base * 2 ^ q by omega]
      · have hlen : (D.drop (split D.length)).length = D.length - 2 ^ e := by
          rw [List.length_drop, hsplit]
        obtain ⟨j, hpart⟩ := @ih (D.drop (split D.length)).length
          (by have := Nat.two_pow_pos e; omega) (D.drop (split D.length)) e
          (2 * (base * 2 ^ q) + 1) (i - split D.length)
          (by rw [pow_succ] at hhigh; omega) (by rw [add_mul, one_mul]; omega) (by omega) rfl
        rw [List.getElem_drop] at hpart
        simp only [show split D.length + (i - split D.length) = i by omega] at hpart
        have hindex : base * 2 ^ (e + 1 + q) + i =
            (2 * (base * 2 ^ q) + 1) * 2 ^ e + (i - split D.length) := by
          rw [add_mul, one_mul]
          omega
        have hpos : (2 * (base * 2 ^ q) + 1) * 2 ^ j ≠ 0 :=
          Nat.mul_ne_zero (by omega) (Nat.two_pow_pos j).ne'
        rw [path_of_le node empty htwo hge, hindex, steps_snoc node hpart, steps, if_neg hpos,
          if_pos (Or.inr rfl), mul_comm _ (2 ^ j), above_eq, steps, pow_succ,
          Nat.mul_div_mul_left _ _ (Nat.two_pow_pos j),
          show (2 * (base * 2 ^ q) + 1) / 2 = base * 2 ^ q by omega]
    · match D, hi, htwo with
      | [d], hi, _ =>
        obtain rfl : i = 0 := by simpa using hi
        refine ⟨E, ?_⟩
        obtain rfl : sn = base * 2 ^ E := by simpa using hsn
        simp [path, steps]
      | _ :: _ :: _, _, htwo => simp at htwo

/-- The path of a leaf leads to the head. -/
theorem verifyInclusion_path [DecidableEq H] {D : List H} {i : ℕ} (hi : i < D.length) :
    verifyInclusion node D[i] i D.length (path node empty D i) (mth node empty D) = true := by
  obtain ⟨j, hj⟩ := @steps_last H node empty D D.length 0 (D.length - 1) i
    Nat.lt_two_pow_self.le (by omega) hi
  rw [Nat.zero_mul, Nat.zero_mul, Nat.zero_add] at hj
  simp [verifyInclusion, walk, hj, hi]

/-! ### Completeness of consistency proofs -/

/-- The first index shifted past its trailing ones, from the size it is one below. -/
theorem dropOnes_eq {t f fuel : ℕ} (sn : ℕ) (hf : f % 2 = 0) (h : (f + 1) * 2 ^ t ≤ fuel + 1) :
    dropOnes fuel ((f + 1) * 2 ^ t - 1) sn = (f, sn / 2 ^ t) := by
  induction t generalizing fuel sn with
  | zero =>
    cases fuel with
    | zero => simp [dropOnes]
    | succ fuel => simp [dropOnes, hf]
  | succ t ih =>
    have htwice : (f + 1) * 2 ^ (t + 1) = 2 * ((f + 1) * 2 ^ t) := by ring
    have hpos : 0 < (f + 1) * 2 ^ t := Nat.mul_pos (Nat.succ_pos f) (Nat.two_pow_pos t)
    rw [htwice] at h ⊢
    obtain ⟨fuel, rfl⟩ : ∃ n, fuel = n + 1 := ⟨fuel - 1, by omega⟩
    rw [dropOnes, if_pos (by omega),
      show (2 * ((f + 1) * 2 ^ t) - 1) / 2 = (f + 1) * 2 ^ t - 1 by omega, ih _ (by omega),
      Nat.div_div_eq_div_mul, pow_succ']

/-- The state of the consistency check's loop after some of the path. -/
def climbs (node : H → H → H) : List H → ℕ → ℕ → H → H → Option (ℕ × ℕ × H × H)
  | [], fn, sn, fr, sr => some (fn, sn, fr, sr)
  | c :: path, fn, sn, fr, sr =>
    if sn = 0 then none
    else if fn % 2 = 1 ∨ fn = sn then
      climbs node path (above fn sn).1 (above fn sn).2 (node c fr) (node c sr)
    else climbs node path (fn / 2) (sn / 2) fr (node sr c)

variable {node}

theorem climbs_snoc {path : List H} {fn sn a b : ℕ} {fr sr x y c : H}
    (h : climbs node path fn sn fr sr = some (a, b, x, y)) :
    climbs node (path ++ [c]) fn sn fr sr = climbs node [c] a b x y := by
  induction path generalizing fn sn fr sr with
  | nil =>
    simp only [climbs, Option.some.injEq, Prod.mk.injEq] at h
    obtain ⟨rfl, rfl, rfl, rfl⟩ := h
    rfl
  | cons q path ih =>
    rw [climbs] at h
    rw [List.cons_append, climbs]
    split_ifs at h ⊢
    · exact ih h
    · exact ih h

/-- A climb to the top is a result of the loop. -/
theorem climb_of_climbs {path : List H} {fn sn a : ℕ} {fr sr x y : H}
    (h : climbs node path fn sn fr sr = some (a, 0, x, y)) :
    climb node path fn sn fr sr = some (x, y) := by
  induction path generalizing fn sn fr sr with
  | nil =>
    simp only [climbs, Option.some.injEq, Prod.mk.injEq] at h
    obtain ⟨-, rfl, rfl, rfl⟩ := h
    rw [climb, if_pos rfl]
  | cons q path ih =>
    rw [climbs] at h
    rw [climb]
    split_ifs at h ⊢
    · exact ih h
    · exact ih h

variable (node)

theorem subproof_length (D : List H) (complete : Bool) :
    subproof node empty D.length D complete = if complete then [] else [mth node empty D] := by
  rw [subproof, if_pos rfl]

theorem subproof_of_le {D : List H} {m : ℕ} {complete : Bool} (h : 2 ≤ D.length)
    (hm : m ≤ split D.length) : subproof node empty m D complete =
      subproof node empty m (D.take (split D.length)) complete ++
        [mth node empty (D.drop (split D.length))] := by
  have := split_lt h
  rw [subproof, if_neg (by omega), dif_pos h, if_pos hm]

theorem subproof_of_lt {D : List H} {m : ℕ} {complete : Bool} (h : 2 ≤ D.length)
    (hm : split D.length < m) (hlt : m < D.length) : subproof node empty m D complete =
      subproof node empty (m - split D.length) (D.drop (split D.length)) false ++
        [mth node empty (D.take (split D.length))] := by
  rw [subproof, if_neg hlt.ne, dif_pos h, if_neg (by omega)]

/-- The head of the first leaves of a list that reach past its split. -/
theorem mth_take_of_lt {D : List H} {m : ℕ} (h : 2 ≤ D.length) (hm : split D.length < m)
    (hlt : m ≤ D.length) : mth node empty (D.take m) =
      node (mth node empty (D.take (split D.length)))
        (mth node empty ((D.drop (split D.length)).take (m - split D.length))) := by
  obtain ⟨e, hsplit, -, hhigh⟩ := exists_split h
  have hlen : (D.take m).length = m := by
    rw [List.length_take]
    omega
  have hpos := split_pos D.length
  have hcut : split (D.take m).length = split D.length := by
    rw [hlen, hsplit]
    exact split_eq (by omega) (by omega)
  rw [mth_split node empty (D := D.take m) (by omega), hcut, List.take_take, min_eq_left hm.le,
    List.drop_take]

/-- In a whole subtree with leaves to its right the loop starts at the last whole node of the old
tree and arrives at the subtree's node in both trees. -/
theorem climbs_whole {D : List H} {e base sn m : ℕ} (hD : D.length = 2 ^ e)
    (hbase : base < sn / 2 ^ e) (hpos : 0 < m) (hm : m ≤ D.length)
    (hwhole : m < D.length ∨ base % 2 = 0) :
    ∃ first rest f t, subproof node empty m D false = first :: rest ∧ f % 2 = 0 ∧
      (f + 1) * 2 ^ t = base * 2 ^ e + m ∧ climbs node rest f (sn / 2 ^ t) first first =
        some (base, sn / 2 ^ e, mth node empty (D.take m), mth node empty D) := by
  induction e generalizing D base m with
  | zero =>
    obtain rfl : m = D.length := by omega
    refine ⟨mth node empty D, [], base, 0, subproof_length node empty D false, by omega,
      by rw [hD]; ring, ?_⟩
    rw [climbs, List.take_length]
  | succ e ih =>
    rcases hm.eq_or_lt with rfl | hlt
    · refine ⟨mth node empty D, [], base, e + 1, subproof_length node empty D false, by omega,
        by rw [hD]; ring, ?_⟩
      rw [climbs, List.take_length]
    have htwo : 2 ≤ D.length := by
      have := Nat.two_pow_pos e
      rw [hD, pow_succ]
      omega
    have hsplit : split D.length = 2 ^ e := by
      rw [hD]
      exact split_eq (Nat.pow_lt_pow_succ one_lt_two) le_rfl
    have hhalf : sn / 2 ^ (e + 1) = sn / 2 ^ e / 2 := by
      rw [pow_succ, Nat.div_div_eq_div_mul]
    have hpow : 2 ^ (e + 1) = 2 ^ e + 2 ^ e := by ring
    rw [hhalf] at hbase ⊢
    rw [mth_split node empty htwo]
    rcases Nat.lt_or_ge (split D.length) m with hover | hle
    · have hlen : (D.drop (split D.length)).length = 2 ^ e := by
        rw [List.length_drop]
        omega
      obtain ⟨first, rest, f, t, hsub, hf, hft, hclimbs⟩ := @ih (D.drop (split D.length))
        (2 * base + 1) (m - split D.length) hlen (by omega) (by omega) (by omega)
        (Or.inl (by omega))
      have habove := above_eq 0 base (sn / 2 ^ e)
      rw [pow_zero, one_mul, zero_add, pow_one] at habove
      refine ⟨first, rest ++ [mth node empty (D.take (split D.length))], f, t, ?_, hf, ?_, ?_⟩
      · rw [subproof_of_lt node empty htwo hover hlt, hsub, List.cons_append]
      · have : base * 2 ^ (e + 1) + 2 ^ e = (2 * base + 1) * 2 ^ e := by ring
        omega
      · rw [climbs_snoc hclimbs, climbs, if_neg (by omega), if_pos (by omega), habove, climbs,
          mth_take_of_lt node empty htwo hover hlt.le]
    · have hlen : (D.take (split D.length)).length = 2 ^ e := by
        rw [List.length_take]
        omega
      obtain ⟨first, rest, f, t, hsub, hf, hft, hclimbs⟩ := @ih (D.take (split D.length))
        (2 * base) m hlen (by omega) hpos (by omega) (Or.inr (by omega))
      rw [List.take_take, min_eq_left hle] at hclimbs
      refine ⟨first, rest ++ [mth node empty (D.drop (split D.length))], f, t, ?_, hf, ?_, ?_⟩
      · rw [subproof_of_le node empty htwo hle, hsub, List.cons_append]
      · rw [hft]
        ring
      · rw [climbs_snoc hclimbs, climbs, if_neg (by omega), if_neg (by omega), climbs,
          Nat.mul_div_cancel_left _ two_pos]

/-- In the subtree at the right edge the loop arrives at a last node. -/
theorem climbs_last {D : List H} {E base sn m : ℕ} (hE : D.length ≤ 2 ^ E)
    (hsn : sn + 1 = base * 2 ^ E + D.length) (hpos : 0 < m) (hm : m < D.length) :
    ∃ first rest f t j, subproof node empty m D false = first :: rest ∧ f % 2 = 0 ∧
      (f + 1) * 2 ^ t = base * 2 ^ E + m ∧ climbs node rest f (sn / 2 ^ t) first first =
        some (base * 2 ^ j, base * 2 ^ j, mth node empty (D.take m), mth node empty D) := by
  -- the induction is on the length: an old tree up to the split is of a whole subtree
  induction hn : D.length using Nat.strong_induction_on generalizing D E base m with
  | _ n ih =>
    subst hn
    have htwo : 2 ≤ D.length := by omega
    obtain ⟨e, hsplit, hlow, hhigh⟩ := exists_split htwo
    obtain ⟨q, rfl⟩ : ∃ q, E = e + 1 + q := by
      refine ⟨E - (e + 1), ?_⟩
      have := (Nat.pow_lt_pow_iff_right one_lt_two).mp (hlow.trans_le hE)
      omega
    have hplace : base * 2 ^ (e + 1 + q) = 2 * (base * 2 ^ q) * 2 ^ e := by ring
    rw [mth_split node empty htwo]
    rcases Nat.lt_or_ge (split D.length) m with hover | hle
    · have hlen : (D.drop (split D.length)).length = D.length - 2 ^ e := by
        rw [List.length_drop, hsplit]
      obtain ⟨first, rest, f, t, j, hsub, hf, hft, hclimbs⟩ :=
        @ih (D.drop (split D.length)).length (by have := Nat.two_pow_pos e; omega)
          (D.drop (split D.length)) e (2 * (base * 2 ^ q) + 1) (m - split D.length)
          (by rw [pow_succ] at hhigh; omega) (by rw [add_mul, one_mul]; omega)
          (show 0 < m - split D.length by omega) (by omega) rfl
      have hne : (2 * (base * 2 ^ q) + 1) * 2 ^ j ≠ 0 :=
        Nat.mul_ne_zero (by omega) (Nat.two_pow_pos j).ne'
      refine ⟨first, rest ++ [mth node empty (D.take (split D.length))], f, t, q, ?_, hf, ?_, ?_⟩
      · rw [subproof_of_lt node empty htwo hover hm, hsub, List.cons_append]
      · rw [hft, add_mul, one_mul]
        omega
      · rw [climbs_snoc hclimbs, climbs, if_neg hne, if_pos (Or.inr rfl), mul_comm _ (2 ^ j),
          above_eq, climbs, mth_take_of_lt node empty htwo hover hm.le, pow_succ,
          Nat.mul_div_mul_left _ _ (Nat.two_pow_pos j),
          show (2 * (base * 2 ^ q) + 1) / 2 = base * 2 ^ q by omega]
    · have hlen : (D.take (split D.length)).length = 2 ^ e := by
        rw [List.length_take]
        omega
      have hquot : sn / 2 ^ e = 2 * (base * 2 ^ q) + 1 := by
        apply Nat.div_eq_of_lt_le
        · rw [add_mul, one_mul]
          omega
        · rw [add_mul, add_mul, one_mul]
          rw [pow_succ] at hhigh
          omega
      obtain ⟨first, rest, f, t, hsub, hf, hft, hclimbs⟩ := @climbs_whole H node empty _ e
        (2 * (base * 2 ^ q)) sn m hlen (by omega) hpos (by omega) (Or.inr (by omega))
      rw [List.take_take, min_eq_left hle] at hclimbs
      refine ⟨first, rest ++ [mth node empty (D.drop (split D.length))], f, t, q, ?_, hf, ?_, ?_⟩
      · rw [subproof_of_le node empty htwo hle, hsub, List.cons_append]
      · rw [hft, hplace]
      · rw [climbs_snoc hclimbs, climbs, if_neg (by omega), if_neg (by omega), climbs, hquot,
          Nat.mul_div_cancel_left _ two_pos,
          show (2 * (base * 2 ^ q) + 1) / 2 = base * 2 ^ q by omega]

/-- The path of a proof is the whole way from the last whole node of the old tree. -/
theorem pathOf_subproof {D : List H} {m : ℕ} (hpos : 0 < m)
    (hm : m < D.length ∨ m = D.length ∧ m.isPowerOfTwo) :
    pathOf m (mth node empty (D.take m)) (subproof node empty m D true) =
      subproof node empty m D false := by
  induction hn : D.length using Nat.strong_induction_on generalizing D with
  | _ n ih =>
    subst hn
    have hpower := Nat.and_sub_one_eq_zero_iff_isPowerOfTwo hpos.ne'
    rcases hm with hlt | ⟨rfl, hp⟩
    · have htwo : 2 ≤ D.length := by omega
      obtain ⟨e, hsplit, hlow, hhigh⟩ := exists_split htwo
      rcases Nat.lt_or_ge (split D.length) m with hover | hle
      · have hnot : ¬m.isPowerOfTwo := by
          rintro ⟨k, rfl⟩
          rw [hsplit] at hover
          have h1 := (Nat.pow_lt_pow_iff_right one_lt_two).mp hover
          have h2 := (Nat.pow_lt_pow_iff_right one_lt_two).mp (hlt.trans_le hhigh)
          omega
        rw [pathOf, if_neg (mt hpower.mp hnot), subproof_of_lt node empty htwo hover hlt,
          subproof_of_lt node empty htwo hover hlt]
      · have hlen : (D.take (split D.length)).length = 2 ^ e := by
          rw [List.length_take]
          omega
        have hpart := ih (D.take (split D.length)).length (by omega) (D := D.take (split D.length))
          (hle.lt_or_eq.imp (by omega) fun heq => ⟨by omega, e, by omega⟩) rfl
        rw [List.take_take, min_eq_left hle] at hpart
        rw [subproof_of_le node empty htwo hle, subproof_of_le node empty htwo hle, ← hpart]
        unfold pathOf
        split_ifs <;> rfl
    · rw [subproof_length, subproof_length, pathOf, if_pos (hpower.mpr hp), List.take_length]
      rfl

theorem subproof_ne_nil {D : List H} {m : ℕ} {complete : Bool} (hm : m < D.length)
    (hpos : 0 < m) : subproof node empty m D complete ≠ [] := by
  rcases Nat.lt_or_ge (split D.length) m with hover | hle
  · rw [subproof_of_lt node empty (by omega) hover hm]
    simp
  · rw [subproof_of_le node empty (by omega) hle]
    simp

/-- The proof of a smaller tree leads to both heads. -/
theorem verifyConsistency_subproof [DecidableEq H] {D : List H} {m : ℕ} (hpos : 0 < m)
    (hm : m < D.length) : verifyConsistency node empty m D.length (mth node empty (D.take m))
      (mth node empty D) (subproof node empty m D true) = true := by
  obtain ⟨first, rest, f, t, j, hsub, hf, hft, hclimbs⟩ := @climbs_last H node empty D D.length
    0 (D.length - 1) m Nat.lt_two_pow_self.le (by omega) hpos hm
  rw [Nat.zero_mul, Nat.zero_add] at hft
  rw [Nat.zero_mul] at hclimbs
  have hpath : pathOf m (mth node empty (D.take m)) (subproof node empty m D true) =
      first :: rest := by
    rw [pathOf_subproof node empty hpos (Or.inl hm), hsub]
  have hdrop : dropOnes (m - 1) (m - 1) (D.length - 1) = (f, (D.length - 1) / 2 ^ t) := by
    have := @dropOnes_eq t f (m - 1) (D.length - 1) hf (by omega)
    rwa [hft] at this
  have hne : (subproof node empty m D true).isEmpty = false := by
    simpa using subproof_ne_nil node empty hm hpos
  simp [verifyConsistency, hm.le, hm.ne, hpos.ne', hne, hpath, hdrop, climb_of_climbs hclimbs]

end

end AgentGov.Receipts
