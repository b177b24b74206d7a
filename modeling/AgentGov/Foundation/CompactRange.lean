import AgentGov.Foundation.Merkle
import Mathlib.Data.Nat.Digits.Defs

/-!
# Compact ranges

The nodes of the whole subtrees that the binary digits of a length give, the smallest first. One
more leaf is carried past the trailing ones of the length, each time joined with the smallest
subtree; the head of all leaves is the fold of the nodes, from the smallest up.

## Main definitions

* `Foundation.Merkle.peaks`: the nodes of a list at the digits of a count.
* `Foundation.Merkle.carry`: the nodes after one more leaf.
* `Foundation.Merkle.bag`: the head the nodes give.

## Main results

* `Foundation.Merkle.carry_peaks`: the nodes of a list and one leaf more.
* `Foundation.Merkle.bag_peaks`: the nodes of a list give its head.
* `Foundation.Merkle.length_peaks`: there is one node for each one of the length.
-/

namespace Foundation.Merkle

section

variable {H : Type*} (node : H → H → H) (empty : H)

/-- The nodes of level `h` and above at the digits of `c`, the smallest first. -/
def peaks (D : List H) (h c : ℕ) : List H :=
  if _ : c = 0 then []
  else if c % 2 = 1 then subtree node empty D h (c - 1) :: peaks D (h + 1) (c / 2)
  else peaks D (h + 1) (c / 2)
termination_by c
decreasing_by all_goals omega

/-- A node carried past the trailing ones of a count, joined with one of the stack each time; or
nothing where the stack is too short. -/
def carry : List H → ℕ → H → Option (List H)
  | [], c, d => if c % 2 = 1 then none else some [d]
  | top :: stack, c, d =>
    if c % 2 = 1 then carry stack (c / 2) (node top d) else some (d :: top :: stack)

/-- The head the nodes of a stack give, or the head of no leaves. -/
def bag : List H → H
  | [] => empty
  | top :: stack => stack.foldl (fun root d => node d root) top

theorem peaks_zero (D : List H) (h : ℕ) : peaks node empty D h 0 = [] := by
  rw [peaks, dif_pos rfl]

theorem peaks_even (D : List H) (h g : ℕ) :
    peaks node empty D h (2 * g) = peaks node empty D (h + 1) g := by
  rcases Nat.eq_zero_or_pos g with rfl | hpos
  · rw [mul_zero, peaks_zero, peaks_zero]
  · rw [peaks, dif_neg (by omega), if_neg (by omega), Nat.mul_div_cancel_left g two_pos]

theorem peaks_odd (D : List H) (h g : ℕ) : peaks node empty D h (2 * g + 1) =
    subtree node empty D h (2 * g) :: peaks node empty D (h + 1) g := by
  rw [peaks, dif_neg (by omega), if_pos (by omega), Nat.add_sub_cancel,
    show (2 * g + 1) / 2 = g by omega]

/-- A node over leaves that are there is unchanged by more. -/
theorem subtree_append {D : List H} {h i : ℕ} (E : List H) (hi : (i + 1) * 2 ^ h ≤ D.length) :
    subtree node empty (D ++ E) h i = subtree node empty D h i := by
  have hpos := Nat.two_pow_pos h
  rw [add_mul, one_mul] at hi
  rw [subtree, subtree, chunk, chunk, List.drop_append_of_le_length (by omega),
    List.take_append_of_le_length (by rw [List.length_drop]; omega)]

theorem peaks_append {D : List H} {h c : ℕ} (E : List H) (hc : c * 2 ^ h ≤ D.length) :
    peaks node empty (D ++ E) h c = peaks node empty D h c := by
  induction c using Nat.strong_induction_on generalizing h with
  | _ c ih =>
    obtain ⟨g, rfl | rfl⟩ : ∃ g, c = 2 * g ∨ c = 2 * g + 1 := ⟨c / 2, by omega⟩
    · rcases Nat.eq_zero_or_pos g with rfl | hpos
      · rw [mul_zero, peaks_zero, peaks_zero]
      · rw [peaks_even, peaks_even, ih g (by omega) (by rwa [pow_succ', ← mul_assoc, mul_comm g 2])]
    · have hg : g * 2 ^ (h + 1) ≤ D.length := by
        refine le_trans ?_ hc
        rw [pow_succ', ← mul_assoc, mul_comm g 2]
        exact Nat.mul_le_mul_right _ (by omega)
      rw [peaks_odd, peaks_odd, subtree_append node empty E hc, ih g (by omega) hg]

/-- A node that completes the leaves, carried into the nodes before it, gives the nodes of all. -/
theorem carry_peaks_of_level {D : List H} {h c : ℕ} (d : H)
    (hc : (c + 1) * 2 ^ h = D.length + 1) :
    carry node (peaks node empty D h c) c (subtree node empty (D ++ [d]) h c) =
      some (peaks node empty (D ++ [d]) h (c + 1)) := by
  have hlen : (D ++ [d]).length = D.length + 1 := by simp
  induction c using Nat.strong_induction_on generalizing h with
  | _ c ih =>
    have hpos := Nat.two_pow_pos h
    have hle : c * 2 ^ h ≤ D.length := by
      rw [add_mul, one_mul] at hc
      omega
    obtain ⟨g, rfl | rfl⟩ : ∃ g, c = 2 * g ∨ c = 2 * g + 1 := ⟨c / 2, by omega⟩
    · have hstop : ∀ stack : List H, ∀ x : H, carry node stack (2 * g) x = some (x :: stack) := by
        intro stack x
        cases stack with
        | nil => rw [carry, if_neg (by omega)]
        | cons top stack => rw [carry, if_neg (by omega)]
      rw [hstop, peaks_odd, ← peaks_even, peaks_append node empty [d] hle]
    · have hjoin : subtree node empty (D ++ [d]) (h + 1) g =
          node (subtree node empty D h (2 * g)) (subtree node empty (D ++ [d]) h (2 * g + 1)) := by
        rw [subtree_succ node empty (by omega), subtree_append node empty [d] (i := 2 * g) hle]
      rw [peaks_odd, carry, if_pos (by omega), show (2 * g + 1) / 2 = g by omega, ← hjoin,
        ih g (by omega) (by rw [← hc]; ring), ← peaks_even]
      rfl

/-- One more leaf carried into the nodes of a list gives the nodes of both. -/
theorem carry_peaks (D : List H) (d : H) :
    carry node (peaks node empty D 0 D.length) D.length d =
      some (peaks node empty (D ++ [d]) 0 (D.length + 1)) := by
  have hleaf : subtree node empty (D ++ [d]) 0 D.length = d := by
    rw [subtree, chunk, pow_zero, mul_one, List.drop_left, List.take_of_length_le (by simp),
      mth_singleton]
  have := carry_peaks_of_level node empty (h := 0) (c := D.length) d (by rw [pow_zero, mul_one])
  rwa [hleaf] at this

/-- The nodes of a level and above, folded over the head of fewer leaves to their right. -/
theorem foldl_peaks {D : List H} {h c : ℕ} {rest : H} (hc : c * 2 ^ h < D.length)
    (hlast : D.length < (c + 1) * 2 ^ h) (hrest : rest = mth node empty (D.drop (c * 2 ^ h))) :
    (peaks node empty D h c).foldl (fun root d => node d root) rest = mth node empty D := by
  induction c using Nat.strong_induction_on generalizing h rest with
  | _ c ih =>
    have hpos := Nat.two_pow_pos h
    obtain ⟨g, rfl | rfl⟩ : ∃ g, c = 2 * g ∨ c = 2 * g + 1 := ⟨c / 2, by omega⟩
    · have hplace : 2 * g * 2 ^ h = g * 2 ^ (h + 1) := by ring
      rcases Nat.eq_zero_or_pos g with rfl | hg
      · rw [mul_zero, peaks_zero, List.foldl_nil, hrest, mul_zero, zero_mul, List.drop_zero]
      · rw [peaks_even]
        refine ih g (by omega) (hplace ▸ hc) ?_ (hplace ▸ hrest)
        rw [add_mul, one_mul, ← hplace, pow_succ]
        rw [add_mul, one_mul] at hlast
        omega
    · have hplace : (2 * g + 1) * 2 ^ h = g * 2 ^ (h + 1) + 2 ^ h := by ring
      have hwidth : 2 ^ (h + 1) = 2 ^ h + 2 ^ h := by ring
      rw [add_mul _ 1, one_mul, hplace] at hlast
      have hlen : (D.drop (g * 2 ^ (h + 1))).length = D.length - g * 2 ^ (h + 1) :=
        List.length_drop
      have hsplit : split (D.drop (g * 2 ^ (h + 1))).length = 2 ^ h :=
        split_eq (by omega) (by omega)
      have hjoin : node (subtree node empty D h (2 * g)) rest =
          mth node empty (D.drop (g * 2 ^ (h + 1))) := by
        rw [mth_split node empty (by omega), hsplit, List.drop_drop, ← hplace, ← hrest, subtree,
          chunk, show 2 * g * 2 ^ h = g * 2 ^ (h + 1) by ring]
      rw [peaks_odd, List.foldl_cons]
      refine ih g (by omega) (by omega) ?_ hjoin
      rw [add_mul, one_mul]
      omega

theorem bag_peaks_of_level {D : List H} {h c : ℕ} (hpos : 0 < c) (hc : c * 2 ^ h = D.length) :
    bag node empty (peaks node empty D h c) = mth node empty D := by
  induction c using Nat.strong_induction_on generalizing h with
  | _ c ih =>
    obtain ⟨g, rfl | rfl⟩ : ∃ g, c = 2 * g ∨ c = 2 * g + 1 := ⟨c / 2, by omega⟩
    · rw [peaks_even]
      exact ih g (by omega) (by omega) (by rw [← hc]; ring)
    · have hplace : (2 * g + 1) * 2 ^ h = g * 2 ^ (h + 1) + 2 ^ h := by ring
      have hpos := Nat.two_pow_pos h
      have hwidth : 2 ^ (h + 1) = 2 ^ h + 2 ^ h := by ring
      have hwhole : subtree node empty D h (2 * g) = mth node empty (D.drop (g * 2 ^ (h + 1))) := by
        rw [subtree, chunk, show 2 * g * 2 ^ h = g * 2 ^ (h + 1) by ring,
          List.take_of_length_le (by rw [List.length_drop]; omega)]
      rw [peaks_odd, bag]
      refine foldl_peaks node empty (by omega) ?_ hwhole
      rw [add_mul, one_mul]
      omega

/-- The nodes at the digits of a length give the head. -/
theorem bag_peaks (D : List H) : bag node empty (peaks node empty D 0 D.length) =
    mth node empty D := by
  rcases Nat.eq_zero_or_pos D.length with hzero | hpos
  · rw [hzero, peaks_zero, List.eq_nil_of_length_eq_zero hzero, mth_nil, bag]
  · exact bag_peaks_of_level node empty hpos (by rw [pow_zero, mul_one])

/-- There is one node for each one among the digits. -/
theorem length_peaks (D : List H) (h c : ℕ) :
    (peaks node empty D h c).length = (Nat.digits 2 c).sum := by
  induction c using Nat.strong_induction_on generalizing h with
  | _ c ih =>
    rcases Nat.eq_zero_or_pos c with rfl | hpos
    · rw [peaks_zero, Nat.digits_zero]
      rfl
    · rw [Nat.digits_def' one_lt_two hpos, List.sum_cons]
      obtain ⟨g, rfl | rfl⟩ : ∃ g, c = 2 * g ∨ c = 2 * g + 1 := ⟨c / 2, by omega⟩
      · rw [peaks_even, ih g (by omega), Nat.mul_mod_right, Nat.mul_div_cancel_left g two_pos,
          zero_add]
      · rw [peaks_odd, List.length_cons, ih g (by omega), show (2 * g + 1) % 2 = 1 by omega,
          show (2 * g + 1) / 2 = g by omega, add_comm]

end

end Foundation.Merkle
