import Mathlib.Data.List.Basic
import Mathlib.Tactic.Common

/-!
# Lists read in order

A history is a list of events, oldest first. What each event owes to the ones before it, and what
has happened since another, is followed event by event.

## Main definitions

* `Foundation.Throughout`: every event is as it should be after the ones before it.
* `Foundation.Since`: an event of one kind has happened, and none of another kind since.
* `Foundation.Along`: every event is as it should be between the ones before it and after it.

## Main results

* `Foundation.throughout_concat`, `Foundation.since_concat`: one more event.
* `Foundation.along_append`: more events, where what comes later does not undo what was owed.
-/

namespace Foundation

universe u

variable {ι : Type u} {Q : List ι → ι → Prop} {P R : ι → Prop} {l : List ι} {i : ι}

/-- Where a list is split by an element, the element is the last one or is of the rest. -/
theorem concat_eq_split {before after : List ι} {j : ι} (h : l ++ [i] = before ++ j :: after) :
    (after = [] ∧ l = before ∧ i = j) ∨ ∃ after', after = after' ++ [i] ∧
      l = before ++ j :: after' := by
  rcases List.eq_nil_or_concat' after with rfl | ⟨after', k, rfl⟩
  · obtain ⟨rfl, hj⟩ := List.append_inj' h rfl
    exact Or.inl ⟨rfl, rfl, List.singleton_inj.mp hj⟩
  · have h' : l ++ [i] = (before ++ j :: after') ++ [k] := by simp [h]
    obtain ⟨rfl, hk⟩ := List.append_inj' h' rfl
    obtain rfl := List.singleton_inj.mp hk
    exact Or.inr ⟨after', rfl, rfl⟩

/-- Whether every event is as it should be after the ones before it. -/
def Throughout (Q : List ι → ι → Prop) (l : List ι) : Prop :=
  ∀ before i after, l = before ++ i :: after → Q before i

theorem throughout_nil (Q : List ι → ι → Prop) : Throughout Q [] := by
  intro before i after h
  simp at h

/-- One more event is as it should be, and so was every one before. -/
theorem throughout_concat : Throughout Q (l ++ [i]) ↔ Throughout Q l ∧ Q l i := by
  constructor
  · intro h
    refine ⟨fun before j after hl => h before j (after ++ [i]) ?_, h l i [] rfl⟩
    rw [hl, List.append_assoc, List.cons_append]
  · rintro ⟨h, hi⟩ before j after hl
    rcases concat_eq_split hl with ⟨-, rfl, rfl⟩ | ⟨after', -, hl'⟩
    · exact hi
    · exact h before j after' hl'

/-- Whether an event of one kind has happened, and none of another kind since. -/
def Since (P R : ι → Prop) (l : List ι) : Prop :=
  ∃ before i after, l = before ++ i :: after ∧ P i ∧ ∀ j ∈ after, ¬R j

theorem not_since_nil : ¬Since P R [] := by
  rintro ⟨before, i, after, h, -⟩
  simp at h

theorem since_concat : Since P R (l ++ [i]) ↔ P i ∨ ¬R i ∧ Since P R l := by
  constructor
  · rintro ⟨before, j, after, hl, hj, hafter⟩
    rcases concat_eq_split hl with ⟨-, -, rfl⟩ | ⟨after', rfl, hl'⟩
    · exact Or.inl hj
    · refine Or.inr ⟨hafter i (by simp), before, j, after', hl', hj, fun k hk => ?_⟩
      exact hafter k (List.mem_append_left _ hk)
  · rintro (hi | ⟨hi, before, j, after, rfl, hj, hafter⟩)
    · exact ⟨l, i, [], rfl, hi, fun _ h => absurd h List.not_mem_nil⟩
    · refine ⟨before, j, after ++ [i], by simp, hj, fun k hk => ?_⟩
      rcases List.mem_append.mp hk with hk | hk
      · exact hafter k hk
      · exact List.mem_singleton.mp hk ▸ hi

theorem Since.mem (h : Since P R l) : ∃ i ∈ l, P i := by
  obtain ⟨before, i, after, rfl, hi, -⟩ := h
  exact ⟨i, by simp, hi⟩

/-- Where an event had happened and has not since, one of the other kind came between. -/
theorem exists_of_not_since {more : List ι} (h : Since P R l) (hmore : ¬Since P R (l ++ more)) :
    ∃ j ∈ more, R j := by
  by_contra hnone
  push Not at hnone
  obtain ⟨before, i, after, rfl, hi, hafter⟩ := h
  refine hmore ⟨before, i, after ++ more, by simp, hi, fun j hj => ?_⟩
  exact (List.mem_append.mp hj).elim (hafter j) (hnone j)

/-! ### Looking ahead -/

/-- Whether every event is as it should be between the ones before it and the ones after it. -/
def Along (S : List ι → ι → List ι → Prop) (l : List ι) : Prop :=
  ∀ before i after, l = before ++ i :: after → S before i after

variable {S : List ι → ι → List ι → Prop} {m : List ι}

theorem along_nil (S : List ι → ι → List ι → Prop) : Along S [] := by
  intro before i after h
  simp at h

theorem along_cons : Along S (i :: l) ↔ S [] i l ∧ Along (fun before => S (i :: before)) l := by
  constructor
  · exact fun h => ⟨h [] i l rfl, fun before j after hl => h (i :: before) j after (by rw [hl]; rfl)⟩
  · rintro ⟨hi, h⟩ before j after hl
    cases before with
    | nil =>
      cases hl
      exact hi
    | cons k before =>
      cases hl
      exact h before j after rfl

/-- More events are as they should be, and what comes later does not undo what was owed. -/
theorem along_append
    (mono : ∀ before i after more, S before i after → S before i (after ++ more))
    (h : Along S l) (h' : Along (fun before => S (l ++ before)) m) : Along S (l ++ m) := by
  intro before i after heq
  rcases List.append_eq_append_iff.mp heq with ⟨mid, hbefore, hm⟩ | ⟨mid, hl, hm⟩
  · rw [hbefore]
    exact h' mid i after hm
  · cases mid with
    | nil =>
      rw [List.append_nil] at hl
      have h₀ : S (l ++ []) i after := h' [] i after hm.symm
      rwa [List.append_nil, hl] at h₀
    | cons j mid =>
      cases hm
      exact mono before i mid m (h before i mid hl)

end Foundation
