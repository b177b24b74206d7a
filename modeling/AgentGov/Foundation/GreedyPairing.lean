import Mathlib.Data.Finset.Card
import Mathlib.Data.List.Nodup

/-!
# Greedy pairing

Pairs of a list taken in turn, each where neither end was taken before. No end is taken twice, and
no pair of the list is left whose ends are both free: one that comes no later has taken an end of
it. Where the pairs hold an assignment of their own to every left end, at least half of the left
ends are taken.

## Main definitions

* `Foundation.greedy`: the pairs that are taken.

## Main results

* `Foundation.nodup_fst_greedy`, `Foundation.nodup_snd_greedy`: no end is taken twice.
* `Foundation.taken_or_before`: what takes an end of a pair comes no later than the pair.
* `Foundation.card_left_out_le`: no more left ends are left out than pairs are taken.
-/

namespace Foundation

variable {α β : Type*} [DecidableEq α] [DecidableEq β]

/-- The pairs taken in turn, those left out an end of which is taken. -/
def greedy : List α → List β → List (α × β) → List (α × β)
  | _, _, [] => []
  | as, bs, p :: ps =>
    if p.1 ∈ as ∨ p.2 ∈ bs then greedy as bs ps else p :: greedy (p.1 :: as) (p.2 :: bs) ps

variable {as : List α} {bs : List β} {ps : List (α × β)} {p q : α × β}

theorem greedy_sublist (as : List α) (bs : List β) (ps : List (α × β)) :
    (greedy as bs ps).Sublist ps := by
  induction ps generalizing as bs with
  | nil => exact List.Sublist.refl _
  | cons p ps ih =>
    rw [greedy]
    split_ifs
    · exact (ih as bs).cons p
    · exact (ih _ _).cons_cons p

/-- What is taken has both ends free. -/
theorem free_of_mem_greedy (hp : p ∈ greedy as bs ps) : p.1 ∉ as ∧ p.2 ∉ bs := by
  induction ps generalizing as bs with
  | nil => exact absurd hp List.not_mem_nil
  | cons q ps ih =>
    rw [greedy] at hp
    split_ifs at hp with hq
    · exact ih hp
    · rcases List.mem_cons.mp hp with rfl | hp
      · exact not_or.mp hq
      · obtain ⟨h₁, h₂⟩ := ih hp
        exact ⟨fun h => h₁ (List.mem_cons_of_mem _ h), fun h => h₂ (List.mem_cons_of_mem _ h)⟩

theorem nodup_fst_greedy (as : List α) (bs : List β) (ps : List (α × β)) :
    ((greedy as bs ps).map Prod.fst).Nodup := by
  induction ps generalizing as bs with
  | nil => exact List.nodup_nil
  | cons p ps ih =>
    rw [greedy]
    split_ifs
    · exact ih as bs
    · refine List.nodup_cons.mpr ⟨fun h => ?_, ih _ _⟩
      obtain ⟨q, hq, heq⟩ := List.mem_map.mp h
      exact (free_of_mem_greedy hq).1 (heq ▸ List.mem_cons_self)

theorem nodup_snd_greedy (as : List α) (bs : List β) (ps : List (α × β)) :
    ((greedy as bs ps).map Prod.snd).Nodup := by
  induction ps generalizing as bs with
  | nil => exact List.nodup_nil
  | cons p ps ih =>
    rw [greedy]
    split_ifs
    · exact ih as bs
    · refine List.nodup_cons.mpr ⟨fun h => ?_, ih _ _⟩
      obtain ⟨q, hq, heq⟩ := List.mem_map.mp h
      exact (free_of_mem_greedy hq).2 (heq ▸ List.mem_cons_self)

/-- An end of every pair is taken, and by a pair that comes no later. -/
theorem taken_or_before {R : α × β → α × β → Prop} (hps : ps.Pairwise R) (hp : p ∈ ps) :
    p.1 ∈ as ∨ p.2 ∈ bs ∨ ∃ q ∈ greedy as bs ps, (q.1 = p.1 ∨ q.2 = p.2) ∧ (q = p ∨ R q p) := by
  induction ps generalizing as bs with
  | nil => exact absurd hp List.not_mem_nil
  | cons x ps ih =>
    obtain ⟨hx, hps⟩ := List.pairwise_cons.mp hps
    rw [greedy]
    split_ifs with hfree
    · rcases List.mem_cons.mp hp with rfl | hp
      · exact hfree.imp_right Or.inl
      · exact ih hps hp
    · rcases List.mem_cons.mp hp with rfl | hp
      · exact Or.inr (Or.inr ⟨p, List.mem_cons_self, Or.inl rfl, Or.inl rfl⟩)
      -- an end that is taken since `x` is an end of `x`, which comes before
      rcases ih hps hp with h | h | ⟨q, hq, hends, hbefore⟩
      · rcases List.mem_cons.mp h with heq | h
        · exact Or.inr (Or.inr ⟨x, List.mem_cons_self, Or.inl heq.symm, Or.inr (hx p hp)⟩)
        · exact Or.inl h
      · rcases List.mem_cons.mp h with heq | h
        · exact Or.inr (Or.inr ⟨x, List.mem_cons_self, Or.inr heq.symm, Or.inr (hx p hp)⟩)
        · exact Or.inr (Or.inl h)
      · exact Or.inr (Or.inr ⟨q, List.mem_cons_of_mem _ hq, hends, hbefore⟩)

/-- An end of every pair is taken. -/
theorem taken_of_mem (hp : p ∈ ps) :
    ∃ q ∈ greedy [] [] ps, q.1 = p.1 ∨ q.2 = p.2 := by
  have htaken : p.1 ∈ ([] : List α) ∨ p.2 ∈ ([] : List β) ∨ _ :=
    taken_or_before (R := fun _ _ => True) (List.pairwise_of_forall fun _ _ => trivial) hp
  rcases htaken with h | h | ⟨q, hq, hends, -⟩
  · exact absurd h List.not_mem_nil
  · exact absurd h List.not_mem_nil
  · exact ⟨q, hq, hends⟩

/-- A pair that comes before every other pair of its ends is taken. -/
theorem mem_greedy_of_first {R : α × β → α × β → Prop} (hps : ps.Pairwise R) (hp : p ∈ ps)
    (first : ∀ q ∈ ps, q.1 = p.1 ∨ q.2 = p.2 → q ≠ p → ¬R q p) : p ∈ greedy [] [] ps := by
  have htaken : p.1 ∈ ([] : List α) ∨ p.2 ∈ ([] : List β) ∨ _ := taken_or_before hps hp
  rcases htaken with h | h | ⟨q, hq, hends, hbefore⟩
  · exact absurd h List.not_mem_nil
  · exact absurd h List.not_mem_nil
  · by_cases heq : q = p
    · exact heq ▸ hq
    · exact absurd (hbefore.resolve_left heq)
        (first q ((greedy_sublist _ _ _).subset hq) hends heq)

/-- Where every one of some left ends has a pair of its own, no more of them are left out than
pairs are taken: the other end of a pair left out is taken. -/
theorem card_left_out_le {s : Finset α} {f : α → β} (hf : Set.InjOn f s)
    (hs : ∀ a ∈ s, (a, f a) ∈ ps) :
    (s.filter fun a => a ∉ (greedy [] [] ps).map Prod.fst).card ≤ (greedy [] [] ps).length := by
  have hsub : (s.filter fun a => a ∉ (greedy [] [] ps).map Prod.fst).image f ⊆
      ((greedy [] [] ps).map Prod.snd).toFinset := by
    intro b hb
    obtain ⟨a, ha, rfl⟩ := Finset.mem_image.mp hb
    obtain ⟨ha, hout⟩ := Finset.mem_filter.mp ha
    obtain ⟨q, hq, hends⟩ := taken_of_mem (hs a ha)
    rw [List.mem_toFinset]
    rcases hends with heq | heq
    · exact absurd (List.mem_map.mpr ⟨q, hq, heq⟩) hout
    · exact List.mem_map.mpr ⟨q, hq, heq⟩
  calc (s.filter fun a => a ∉ (greedy [] [] ps).map Prod.fst).card
      = ((s.filter fun a => a ∉ (greedy [] [] ps).map Prod.fst).image f).card :=
        (Finset.card_image_of_injOn fun a ha b hb =>
          hf (Finset.mem_filter.mp ha).1 (Finset.mem_filter.mp hb).1).symm
    _ ≤ ((greedy [] [] ps).map Prod.snd).toFinset.card := Finset.card_le_card hsub
    _ ≤ ((greedy [] [] ps).map Prod.snd).length := List.toFinset_card_le _
    _ = (greedy [] [] ps).length := List.length_map _

end Foundation
