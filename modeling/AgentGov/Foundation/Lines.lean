import Mathlib.Data.List.DropRight

/-!
# Files of lines

A file to which lines are appended, each closed by a separator. What stands after the last
separator is a line that was not finished. What is read of lines and an unfinished one are the
lines.

## Main definitions

* `Foundation.Lines.joinLines`: lines, each closed by the separator.
* `Foundation.Lines.complete`: a sequence up to its last separator.

## Main results

* `Foundation.Lines.complete_join`: up to the last separator, an unfinished line is cut off.
* `Foundation.Lines.splitOn_join`: the lines come back, and an empty one.
-/

namespace Foundation.Lines

variable {α : Type*} {sep : α}

/-- Lines, each closed by the separator. -/
def joinLines (sep : α) (ls : List (List α)) : List α := ls.flatMap fun l => l ++ [sep]

@[simp] theorem joinLines_nil : joinLines sep [] = [] := rfl

@[simp] theorem joinLines_cons (l : List α) (ls : List (List α)) :
    joinLines sep (l :: ls) = l ++ sep :: joinLines sep ls := by
  simp [joinLines]

theorem joinLines_concat (ls : List (List α)) (l : List α) :
    joinLines sep (ls ++ [l]) = joinLines sep ls ++ (l ++ [sep]) := by
  simp [joinLines]

/-- A last part that is dropped whole. -/
theorem rdropWhile_append_of_pos {p : α → Bool} (l : List α) {m : List α}
    (hm : ∀ x ∈ m, p x = true) : (l ++ m).rdropWhile p = l.rdropWhile p := by
  induction m using List.reverseRecOn with
  | nil => rw [List.append_nil]
  | append_singleton m x ih =>
    rw [← List.append_assoc, List.rdropWhile_concat_pos _ _ _ (hm x (by simp))]
    exact ih fun y hy => hm y (by simp [hy])

variable [DecidableEq α]

/-- A sequence up to its last separator. -/
def complete (sep : α) (data : List α) : List α := data.rdropWhile fun x => x ≠ sep

/-- Lines and an unfinished one, up to the last separator, are the lines. -/
theorem complete_join (ls : List (List α)) {torn : List α} (htorn : sep ∉ torn) :
    complete sep (joinLines sep ls ++ torn) = joinLines sep ls := by
  have hall : ∀ x ∈ torn, decide (x ≠ sep) = true := by
    intro x hx
    rw [decide_eq_true_eq]
    rintro rfl
    exact htorn hx
  rw [complete, rdropWhile_append_of_pos _ hall]
  rcases List.eq_nil_or_concat' ls with rfl | ⟨ms, l, rfl⟩
  · rfl
  · rw [joinLines_concat, ← List.append_assoc, List.rdropWhile_concat_neg _ _ _ (by simp)]

/-- Cut at every separator, lines are the lines and an empty one. -/
theorem splitOn_join {ls : List (List α)} (hls : ∀ l ∈ ls, sep ∉ l) :
    (joinLines sep ls).splitOn sep = ls ++ [[]] := by
  induction ls with
  | nil => rfl
  | cons l ls ih =>
    rw [joinLines_cons, List.splitOn_append_cons_self_of_not_mem (hls l (by simp)),
      ih fun m hm => hls m (by simp [hm]), List.cons_append]

end Foundation.Lines
