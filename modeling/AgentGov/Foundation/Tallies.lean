import Mathlib.Algebra.BigOperators.Group.Finset.Piecewise
import Mathlib.Algebra.BigOperators.Group.List.Lemmas

/-!
# Tallies

What the items of a list that have a key add up to.

## Main definitions

* `Foundation.tally`: the sum over the items of a list that have a key.

## Main results

* `Foundation.sum_tally`: a tally by one key is the sum of the tallies by a second.
* `Foundation.perm_cons_filter`: an item among items of distinct keys.
-/

namespace Foundation

variable {α κ ι M : Type*} [DecidableEq κ] [DecidableEq ι] [AddCommMonoid M]

/-- What the items of a list that have a key add up to. -/
def tally (f : α → M) (key : α → κ) (l : List α) (k : κ) : M :=
  (l.map fun a => if key a = k then f a else 0).sum

variable {f g : α → M} {key : α → κ} {l : List α} {k : κ}

@[simp] theorem tally_nil : tally f key [] k = 0 := rfl

theorem tally_cons {a : α} :
    tally f key (a :: l) k = (if key a = k then f a else 0) + tally f key l k := by
  rw [tally, List.map_cons, List.sum_cons, tally]

theorem tally_append {m : List α} :
    tally f key (l ++ m) k = tally f key l k + tally f key m k := by
  rw [tally, List.map_append, List.sum_append, tally, tally]

theorem tally_concat {a : α} :
    tally f key (l ++ [a]) k = tally f key l k + if key a = k then f a else 0 := by
  rw [tally_append, tally_cons, tally_nil, add_zero]

theorem tally_perm {l' : List α} (h : l.Perm l') (k : κ) : tally f key l k = tally f key l' k :=
  (h.map _).sum_eq

theorem tally_eq_zero (h : ∀ a ∈ l, key a = k → f a = 0) : tally f key l k = 0 := by
  refine List.sum_eq_zero fun x hx => ?_
  obtain ⟨a, ha, rfl⟩ := List.mem_map.mp hx
  split_ifs with hk
  · exact h a ha hk
  · rfl

theorem tally_add : tally (fun a => f a + g a) key l k = tally f key l k + tally g key l k := by
  rw [tally, tally, tally, ← List.sum_map_add]
  refine congrArg List.sum (List.map_congr_left fun a _ => ?_)
  split_ifs
  · rfl
  · rw [add_zero]

/-- A tally by one key is the sum of the tallies by a second, over the second keys there are. -/
theorem sum_tally (other : α → ι) (s : Finset ι)
    (h : ∀ a ∈ l, key a = k → f a ≠ 0 → other a ∈ s) :
    tally f key l k = ∑ i ∈ s, tally f (fun a => (key a, other a)) l (k, i) := by
  induction l with
  | nil => simp
  | cons a l ih =>
    simp only [tally_cons, Finset.sum_add_distrib]
    rw [ih fun b hb => h b (List.mem_cons_of_mem _ hb)]
    congr 1
    by_cases hk : key a = k
    · simp only [Prod.mk.injEq, hk, true_and, if_true, Finset.sum_ite_eq]
      split_ifs with hs
      · rfl
      · exact not_not.mp fun hf => hs (h a List.mem_cons_self hk hf)
    · simp [hk]

omit [DecidableEq ι] [AddCommMonoid M] in
/-- Among items of distinct keys, an item is the one of its key, and the others are left. -/
theorem perm_cons_filter (hkeys : (l.map key).Nodup) {a : α} (ha : a ∈ l) :
    l.Perm (a :: l.filter fun b => key b ≠ key a) ∧ l.countP (fun b => key b = key a) = 1 := by
  induction l with
  | nil => cases ha
  | cons b rest ih =>
    rw [List.map_cons, List.nodup_cons] at hkeys
    rcases List.mem_cons.mp ha with rfl | ha
    · have hrest : ∀ x ∈ rest, key x ≠ key a := fun x hx heq =>
        hkeys.1 (heq ▸ List.mem_map_of_mem hx)
      have hfilter : rest.filter (fun x => key x ≠ key a) = rest :=
        List.filter_eq_self.mpr fun x hx => by simpa using hrest x hx
      refine ⟨?_, ?_⟩
      · rw [List.filter_cons_of_neg (by simp), hfilter]
      · rw [List.countP_cons_of_pos (by simp), List.countP_eq_zero.mpr]
        simpa using hrest
    · have hne : key b ≠ key a := fun heq => hkeys.1 (heq ▸ List.mem_map_of_mem ha)
      obtain ⟨hperm, hcount⟩ := ih hkeys.2 ha
      refine ⟨?_, ?_⟩
      · rw [List.filter_cons_of_pos (by simpa using hne)]
        exact (hperm.cons b).trans (.swap a b _)
      · rw [List.countP_cons_of_neg (by simpa using hne), hcount]

end Foundation
