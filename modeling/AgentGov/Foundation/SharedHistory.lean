import Mathlib.Logic.Function.Basic
import Mathlib.Logic.Relation
import Mathlib.Order.Basic
import Mathlib.Data.Set.Insert

/-!
# A shared history

One history is shared by replicas, each with a copy of what it has followed. One replica at a time
holds the history: it is current then, and goes on from there with what nobody else sees before it
commits. A commit may be refused, and its outcome may be lost, on which the replica no longer knows
whether its copy is of the history.

## Main definitions

* `Foundation.SharedHistory`: the history, the copies, and who holds it.
* `Foundation.SharedHistory.Step`: what a replica does.
* `Foundation.SharedHistory.Coherent`: every copy that is not stale is of the history.

## Main results

* `Foundation.SharedHistory.Coherent.of_run`: every run keeps the copies of the history.
* `Foundation.SharedHistory.committed_le_of_run`: what is committed is only gone on from.
-/

namespace Foundation

variable {ι H : Type*} [DecidableEq ι]

/-- A history shared by replicas, ordered by how histories go on from one another. -/
@[ext] structure SharedHistory (ι H : Type*) where
  committed : H
  copy : ι → H
  /-- The replicas that do not know whether their copy is of the history. -/
  stale : Set ι
  /-- The replica that may go on with the history. -/
  holder : Option ι

namespace SharedHistory

/-- The history once a replica has a copy of what is committed. -/
def follow (s : SharedHistory ι H) (i : ι) : SharedHistory ι H :=
  { s with copy := Function.update s.copy i s.committed, stale := s.stale \ {i} }

/-- What a replica does with the history. -/
inductive Step [Preorder H] (s : SharedHistory ι H) : SharedHistory ι H → Prop
  /-- Nothing that others see. -/
  | rest : Step s s
  /-- A replica that does not hold the history copies what is committed. -/
  | follow (i : ι) (away : s.holder ≠ some i) : Step s (s.follow i)
  /-- The history is free, and a replica takes it. -/
  | enter (i : ι) (free : s.holder = none) : Step s { s.follow i with holder := some i }
  /-- The replica that holds the history goes on with its copy. -/
  | goOn (i : ι) (h : H) (holds : s.holder = some i) (le : s.copy i ≤ h) :
      Step s { s with copy := Function.update s.copy i h }
  /-- It commits its copy. -/
  | commit (i : ι) (holds : s.holder = some i) :
      Step s { s with committed := s.copy i, holder := none }
  /-- Its commit is refused, or was never sent. -/
  | refuse (i : ι) (holds : s.holder = some i) :
      Step s { s with stale := insert i s.stale, holder := none }
  /-- It commits its copy, and does not learn so. -/
  | lose (i : ι) (holds : s.holder = some i) :
      Step s { s with committed := s.copy i, stale := insert i s.stale, holder := none }

/-- Whether every copy that is not stale is of the history: what the holder has goes on from what is
committed, and what is committed goes on from what any other has. -/
structure Coherent [Preorder H] (s : SharedHistory ι H) : Prop where
  behind : ∀ i, i ∉ s.stale → s.holder ≠ some i → s.copy i ≤ s.committed
  ahead : ∀ i, s.holder = some i → s.committed ≤ s.copy i
  current : ∀ i, s.holder = some i → i ∉ s.stale

variable {s t : SharedHistory ι H}

theorem copy_follow (s : SharedHistory ι H) (i j : ι) :
    (s.follow i).copy j = if j = i then s.committed else s.copy j := by
  simp only [follow, Function.update_apply]

theorem mem_stale_follow {i j : ι} : j ∉ (s.follow i).stale ↔ j ∉ s.stale ∨ j = i := by
  simp only [follow, Set.mem_sdiff, Set.mem_singleton_iff, not_and, not_not, imp_iff_not_or]

variable [Preorder H]

theorem Coherent.follow (h : s.Coherent) (i : ι) : (s.follow i).Coherent where
  behind j hj hholder := by
    rw [copy_follow]
    split_ifs with hji
    · exact le_rfl
    · exact h.behind j ((mem_stale_follow.mp hj).resolve_right hji) hholder
  ahead j hj := by
    rw [copy_follow]
    split_ifs with hji
    · exact le_rfl
    · exact h.ahead j hj
  current j hj := mem_stale_follow.mpr (Or.inl (h.current j hj))

/-- What is committed is gone on from by what the holder has. -/
theorem Step.committed_le (h : s.Coherent) (hstep : s.Step t) : s.committed ≤ t.committed := by
  cases hstep with
  | commit i holds => exact h.ahead i holds
  | lose i holds => exact h.ahead i holds
  | rest | follow | enter | goOn | refuse => exact le_rfl

/-- Where the holder has left, what is committed goes on from what it was. -/
theorem Coherent.leave (h : s.Coherent) {i : ι} (holds : s.holder = some i) {committed : H}
    (le : s.committed ≤ committed) {stale : Set ι} (hstale : s.stale ⊆ stale)
    (hi : i ∉ stale → s.copy i ≤ committed) :
    ({ s with committed := committed, stale := stale, holder := none } :
      SharedHistory ι H).Coherent where
  behind j hj _ := by
    by_cases hji : j = i
    · exact hji ▸ hi (hji ▸ hj)
    · refine (h.behind j (fun hm => hj (hstale hm)) fun heq => hji ?_).trans le
      rw [holds] at heq
      exact (Option.some.inj heq).symm
  ahead j hj := by cases hj
  current j hj := by cases hj

/-- Every step keeps the copies of the history. -/
theorem Coherent.step (h : s.Coherent) (hstep : s.Step t) : t.Coherent := by
  cases hstep with
  | rest => exact h
  | follow i away => exact h.follow i
  | enter i free =>
    have hfollow := h.follow i
    refine ⟨fun j hj _ => ?_, fun j hj => ?_, fun j hj => ?_⟩
    · refine hfollow.behind j hj ?_
      change s.holder ≠ some j
      rw [free]
      exact fun hn => by cases hn
    · obtain rfl : i = j := Option.some.inj hj
      change s.committed ≤ (s.follow i).copy i
      rw [copy_follow, if_pos rfl]
    · obtain rfl : i = j := Option.some.inj hj
      exact mem_stale_follow.mpr (Or.inr rfl)
  | goOn i h' holds le =>
    refine ⟨fun j hj hholder => ?_, fun j hj => ?_, h.current⟩
    · have hji : j ≠ i := fun hji => hholder (hji ▸ holds)
      change Function.update s.copy i h' j ≤ s.committed
      rw [Function.update_of_ne hji]
      exact h.behind j hj hholder
    · obtain rfl : i = j := Option.some.inj (holds.symm.trans hj)
      change s.committed ≤ Function.update s.copy i h' i
      rw [Function.update_self]
      exact (h.ahead i holds).trans le
  | commit i holds => exact h.leave holds (h.ahead i holds) subset_rfl fun _ => le_rfl
  | refuse i holds =>
    exact h.leave holds le_rfl (Set.subset_insert i _) fun hi => absurd (Set.mem_insert i _) hi
  | lose i holds =>
    exact h.leave holds (h.ahead i holds) (Set.subset_insert i _) fun _ => le_rfl

/-- Every run keeps the copies of the history. -/
theorem Coherent.of_run (h : s.Coherent) (hrun : Relation.ReflTransGen Step s t) : t.Coherent := by
  induction hrun with
  | refl => exact h
  | tail _ hstep ih => exact ih.step hstep

/-- What is committed is only gone on from. -/
theorem committed_le_of_run (h : s.Coherent) (hrun : Relation.ReflTransGen Step s t) :
    s.committed ≤ t.committed := by
  induction hrun with
  | refl => exact le_rfl
  | tail hinit hstep ih => exact ih.trans (hstep.committed_le (h.of_run hinit))

end SharedHistory

end Foundation
