import AgentGov.Foundation.OrderedDict

/-!
# Slices, tests, bounded queues and bounded tables

The parts of a sequence a slice picks, where a negative index counts from the end; those that
tests pick; a queue that keeps its newest items; and a table that drops its oldest items while it
holds too many.

## Main definitions

* `Foundation.slice`, `Foundation.sliceFrom`: the items between two indices of either sign.
* `Foundation.pushLast`: one more item on a queue of bounded length.
* `Foundation.Dict.moveToEnd`, `Foundation.Dict.popOver`: a table in order of last use, cut to a
  size.

## Main results

* `Foundation.flatMap_filter_perm`: what disjoint tests pick, one after the other.
* `Foundation.Dict.get?_popOver`: a key that is not popped keeps its value.
-/

namespace Foundation

universe u v

section Slices

variable {α : Type u}

/-- The position an index of either sign stands for in a sequence of `n` items. -/
def sliceIndex (n : ℕ) (i : ℤ) : ℕ := if i < 0 then (n + i).toNat else min i.toNat n

/-- The items from one index up to another. -/
def slice (l : List α) (i j : ℤ) : List α :=
  (l.take (sliceIndex l.length j)).drop (sliceIndex l.length i)

/-- The items from an index on. -/
def sliceFrom (l : List α) (i : ℤ) : List α := l.drop (sliceIndex l.length i)

/-- One more item at the end of a queue that keeps the newest `limit`. -/
def pushLast (limit : ℕ) (l : List α) (a : α) : List α :=
  (l ++ [a]).drop (l.length + 1 - limit)

end Slices

section Tests

variable {κ : Type u} {α : Type v}

/-- The items that one of several tests picks, no two of which pick the same, test by test. -/
theorem flatMap_filter_perm {p : κ → α → Bool} {tests : List κ}
    (h : tests.Pairwise fun a b => ∀ x, p a x = true → p b x = false) (l : List α) :
    (tests.flatMap fun k => l.filter (p k)).Perm (l.filter fun x => tests.any fun k => p k x) := by
  induction tests with
  | nil => simp
  | cons k tests ih =>
    rw [List.pairwise_cons] at h
    rw [List.flatMap_cons]
    have hfirst : l.filter (p k) =
        (l.filter fun x => (k :: tests).any fun k => p k x).filter (p k) := by
      rw [List.filter_filter]
      refine List.filter_congr fun x _ => ?_
      cases hx : p k x <;> simp [hx]
    have hrest : (l.filter fun x => tests.any fun k => p k x) =
        (l.filter fun x => (k :: tests).any fun k => p k x).filter (fun x => !p k x) := by
      rw [List.filter_filter]
      refine List.filter_congr fun x _ => ?_
      cases hx : p k x with
      | false => simp [hx]
      | true =>
        have hnone : tests.any (fun k => p k x) = false := by
          simpa using fun k' hk' => h.1 k' hk' x hx
        simp [hx, hnone]
    refine ((ih h.2).append_left _).trans ?_
    rw [hrest, hfirst]
    exact List.filter_append_perm _ _

end Tests

namespace Dict

variable {κ : Type u} {α : Type v}

/-- What is popped from the front of a list while it is longer than `limit`, and what is left. -/
def splitOver (limit : ℤ) : List (κ × α) → List (κ × α) × List (κ × α)
  | [] => ([], [])
  | p :: l =>
    if limit < l.length + 1 then (p :: (splitOver limit l).1, (splitOver limit l).2)
    else ([], p :: l)

theorem splitOver_append (limit : ℤ) (l : List (κ × α)) :
    (splitOver limit l).1 ++ (splitOver limit l).2 = l := by
  induction l with
  | nil => rfl
  | cons p l ih =>
    simp only [splitOver]
    split_ifs
    · simp only [List.cons_append, ih]
    · rfl

/-- With room for one item, the newest is not popped. -/
theorem mem_splitOver_concat {limit : ℤ} (hlimit : 1 ≤ limit) (l : List (κ × α)) (p : κ × α) :
    p ∈ (splitOver limit (l ++ [p])).2 := by
  induction l with
  | nil =>
    have h : ¬limit < (([] : List (κ × α)).length : ℤ) + 1 := by simp; omega
    simp only [List.nil_append, splitOver, if_neg h, List.mem_singleton]
  | cons q l ih =>
    simp only [List.cons_append, splitOver]
    split_ifs
    · exact ih
    · simp

/-- The items popped, oldest first, while the table holds more than `limit`. -/
def popped (d : Dict κ α) (limit : ℤ) : List (κ × α) := (splitOver limit d.items).1

/-- The table after its oldest items are popped while it holds more than `limit`. -/
def popOver (d : Dict κ α) (limit : ℤ) : Dict κ α where
  items := (splitOver limit d.items).2
  nodup := by
    have h := d.nodup
    rw [← splitOver_append limit d.items, List.map_append] at h
    exact (List.nodup_append.mp h).2.1

theorem popped_append_items (d : Dict κ α) (limit : ℤ) :
    d.popped limit ++ (d.popOver limit).items = d.items :=
  splitOver_append limit d.items

variable [DecidableEq κ]

/-- The table with a key it holds moved to the end. -/
def moveToEnd (d : Dict κ α) (k : κ) : Dict κ α :=
  match d.get? k with
  | some a => (d.erase k).set k a
  | none => d

@[simp] theorem get?_moveToEnd (d : Dict κ α) (k k' : κ) : (d.moveToEnd k).get? k' = d.get? k' := by
  unfold moveToEnd
  cases h : d.get? k with
  | none => rfl
  | some a =>
    by_cases hk : k' = k
    · subst hk
      simp [h]
    · simp [hk]

/-- What is left in the table is what it held. -/
theorem get?_of_popOver {d : Dict κ α} {limit : ℤ} {k : κ} {a : α}
    (h : (d.popOver limit).get? k = some a) : d.get? k = some a := by
  rw [get?_eq_some_iff] at h ⊢
  rw [← popped_append_items d limit]
  exact List.mem_append_right _ h

/-- A key that is not popped keeps its value. -/
theorem get?_popOver {d : Dict κ α} {limit : ℤ} {k : κ} {a : α} (h : d.get? k = some a)
    (hk : (k, a) ∉ d.popped limit) : (d.popOver limit).get? k = some a := by
  rw [get?_eq_some_iff] at h ⊢
  rw [← popped_append_items d limit] at h
  exact (List.mem_append.mp h).resolve_left hk

/-- With room for one item, a key set anew is not popped. -/
theorem get?_popOver_set {d : Dict κ α} {limit : ℤ} (hlimit : 1 ≤ limit) {k : κ}
    (h : d.get? k = none) (a : α) : ((d.set k a).popOver limit).get? k = some a := by
  rw [get?_eq_some_iff]
  show (k, a) ∈ (splitOver limit (d.set k a).items).2
  rw [items_set_of_get?_eq_none h]
  exact mem_splitOver_concat hlimit d.items (k, a)

end Dict

end Foundation
