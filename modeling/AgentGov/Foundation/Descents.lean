import Mathlib.Order.OrderIsoNat
import Mathlib.Tactic.Common

/-!
# Descents

A quantity in a well-founded order that never grows is constant from some time on. Where somebody
can always make it smaller, and nobody else changes it or takes over from them, that somebody does
nothing from then on.

## Main results

* `Foundation.eventually_still`: whoever could go on does not, from some time on.
-/

namespace Foundation

variable {ι R : Type*} [PartialOrder R] [WellFoundedLT R]

/-- Whoever is to go on at each time goes down by going on; no other step changes the rank, or who
is to go on. Then somebody is to go on from some time on, and does not. -/
theorem eventually_still (rank : ℕ → R) (next : ℕ → ι) (acts : ℕ → ι → Prop) (i : ℕ)
    (hacts : ∀ k, i ≤ k → acts k (next k) → rank (k + 1) < rank k)
    (hrest : ∀ k, i ≤ k → ¬acts k (next k) → rank (k + 1) = rank k ∧ next (k + 1) = next k) :
    ∃ j, i ≤ j ∧ ∀ k, j ≤ k → next k = next j ∧ ¬acts k (next j) := by
  have hdown : Antitone fun k => rank (i + k) := by
    refine antitone_nat_of_succ_le fun k => ?_
    by_cases hk : acts (i + k) (next (i + k))
    · exact (hacts (i + k) (Nat.le_add_right ..) hk).le
    · exact (hrest (i + k) (Nat.le_add_right ..) hk).1.le
  obtain ⟨n, hn⟩ := WellFoundedLT.antitone_chain_condition hdown
  have hconst : ∀ k, i + n ≤ k → rank k = rank (i + n) := by
    intro k hk
    obtain ⟨m, rfl⟩ := Nat.exists_eq_add_of_le hk
    rw [hn (n + m) (Nat.le_add_right ..), ← Nat.add_assoc]
  have hstill : ∀ k, i + n ≤ k → ¬acts k (next k) := by
    intro k hk hact
    have hlt := hacts k (by omega) hact
    rw [hconst k hk, hconst (k + 1) (by omega)] at hlt
    exact lt_irrefl _ hlt
  have hsame : ∀ k, i + n ≤ k → next k = next (i + n) := by
    intro k hk
    induction k, hk using Nat.le_induction with
    | base => rfl
    | succ k hk ih => rw [(hrest k (by omega) (hstill k hk)).2, ih]
  refine ⟨i + n, Nat.le_add_right .., fun k hk => ⟨hsame k hk, ?_⟩⟩
  rw [← hsame k hk]
  exact hstill k hk

end Foundation
