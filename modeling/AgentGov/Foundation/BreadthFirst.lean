import Mathlib.Algebra.BigOperators.Group.List.Basic
import Mathlib.Algebra.Ring.Nat
import Mathlib.Data.List.Perm.Subperm
import Mathlib.Logic.Relation

/-!
# Breadth-first order

The order in which a queue of items is worked off when each item puts its own list of items at the
end. In a forest, where every item is listed once and by its parent only, the order comes to an
end and holds everything below where it started, once. An order that has come to an end holds
every item as often as it was listed.

## Main definitions

* `Foundation.breadthFirst`: the order, where it comes to an end.
* `Foundation.Forest`: lists and parents that agree, with a rank that grows downwards.
* `Foundation.Forest.Below`: the items below an item.

## Main results

* `Foundation.count_breadthFirst`: how often an item comes in the order.
* `Foundation.sum_shares`: what an item has is shared out over the order below it.
* `Foundation.Forest.breadthFirst_below`: in a forest the order is of the items below.
-/

namespace Foundation

variable {κ : Type*} (kids : κ → Option (List κ))

/-- The items a queue leads to, in the order they are taken from it: nothing where there are more
than `fuel`, and the item that is not known where there is one. -/
def breadthFirst : (fuel : ℕ) → List κ → Option (Except κ (List κ))
  | _, [] => some (.ok [])
  | 0, _ :: _ => none
  | fuel + 1, c :: rest =>
    match kids c with
    | none => some (.error c)
    | some cs => (breadthFirst fuel (rest ++ cs)).map (Except.map (c :: ·))

variable {kids}

theorem breadthFirst_nil (fuel : ℕ) : breadthFirst kids fuel [] = some (.ok []) := by
  cases fuel <;> rfl

/-- A queue that is worked off starts with a known item, and so is the rest. -/
theorem breadthFirst_cons {fuel : ℕ} {c : κ} {rest order : List κ}
    (h : breadthFirst kids (fuel + 1) (c :: rest) = some (.ok order)) :
    ∃ cs order', kids c = some cs ∧ breadthFirst kids fuel (rest ++ cs) = some (.ok order') ∧
      order = c :: order' := by
  rw [breadthFirst] at h
  match hc : kids c with
  | none => simp [hc] at h
  | some cs =>
    simp only [hc, Option.map_eq_some_iff] at h
    obtain ⟨result, hresult, hok⟩ := h
    match result with
    | .error x => simp [Except.map] at hok
    | .ok order' =>
      exact ⟨cs, order', rfl, hresult, by simpa [Except.map] using hok.symm⟩

theorem mem_of_mem_queue {fuel : ℕ} {queue order : List κ}
    (h : breadthFirst kids fuel queue = some (.ok order)) {x : κ} (hx : x ∈ queue) :
    x ∈ order := by
  induction fuel generalizing queue order with
  | zero =>
    match queue with
    | [] => simp at hx
    | c :: rest => simp [breadthFirst] at h
  | succ fuel ih =>
    match queue with
    | [] => simp at hx
    | c :: rest =>
      obtain ⟨cs, order', -, hrest, rfl⟩ := breadthFirst_cons h
      rcases List.mem_cons.mp hx with rfl | hx
      · exact List.mem_cons_self
      · exact List.mem_cons_of_mem _ (ih hrest (List.mem_append_left _ hx))

/-- Everything in the order is known. -/
theorem known_of_mem {fuel : ℕ} {queue order : List κ}
    (h : breadthFirst kids fuel queue = some (.ok order)) : ∀ x ∈ order, (kids x).isSome := by
  induction fuel generalizing queue order with
  | zero =>
    match queue with
    | [] =>
      rw [breadthFirst_nil, Option.some.injEq, Except.ok.injEq] at h
      simp [← h]
    | c :: rest => simp [breadthFirst] at h
  | succ fuel ih =>
    match queue with
    | [] =>
      rw [breadthFirst_nil, Option.some.injEq, Except.ok.injEq] at h
      simp [← h]
    | c :: rest =>
      obtain ⟨cs, order', hc, hrest, rfl⟩ := breadthFirst_cons h
      intro x hx
      rcases List.mem_cons.mp hx with rfl | hx
      · rw [hc]
        rfl
      · exact ih hrest x hx

/-- An item comes in the order as often as it was queued and listed. -/
theorem count_breadthFirst [BEq κ] {fuel : ℕ} {queue order : List κ}
    (h : breadthFirst kids fuel queue = some (.ok order)) (x : κ) :
    order.count x = queue.count x + (order.map fun y => ((kids y).getD []).count x).sum := by
  induction fuel generalizing queue order with
  | zero =>
    match queue with
    | [] =>
      rw [breadthFirst_nil, Option.some.injEq, Except.ok.injEq] at h
      simp [← h]
    | c :: rest => simp [breadthFirst] at h
  | succ fuel ih =>
    match queue with
    | [] =>
      rw [breadthFirst_nil, Option.some.injEq, Except.ok.injEq] at h
      simp [← h]
    | c :: rest =>
      obtain ⟨cs, order', hc, hrest, rfl⟩ := breadthFirst_cons h
      rw [List.count_cons, ih hrest, List.count_append, List.count_cons, List.map_cons,
        List.sum_cons, hc, Option.getD_some]
      omega

/-- What the order adds up to is what the queue and the lists in it do. -/
theorem sum_breadthFirst {M : Type*} [AddCommMonoid M] (f : κ → M) {fuel : ℕ}
    {queue order : List κ} (h : breadthFirst kids fuel queue = some (.ok order)) :
    (order.map f).sum =
      (queue.map f).sum + (order.map fun y => (((kids y).getD []).map f).sum).sum := by
  induction fuel generalizing queue order with
  | zero =>
    cases queue with
    | nil =>
      rw [breadthFirst_nil, Option.some.injEq, Except.ok.injEq] at h
      simp [← h]
    | cons c rest => simp [breadthFirst] at h
  | succ fuel ih =>
    cases queue with
    | nil =>
      rw [breadthFirst_nil, Option.some.injEq, Except.ok.injEq] at h
      simp [← h]
    | cons c rest =>
      obtain ⟨cs, order', hc, hrest, rfl⟩ := breadthFirst_cons h
      simp only [List.map_cons, List.sum_cons, ih hrest, List.map_append, List.sum_append, hc,
        Option.getD_some, add_assoc]

/-- Where everything an item has is in its own share and in what its list has, the shares of an
item and of the order below it add up to what the item has. -/
theorem sum_shares {M : Type*} [AddCancelCommMonoid M] (share total : κ → M) {fuel : ℕ} {s : κ}
    {cs order : List κ} (hs : kids s = some cs)
    (h : breadthFirst kids fuel cs = some (.ok order))
    (hshares : ∀ x ∈ s :: order, share x + (((kids x).getD []).map total).sum = total x) :
    ((s :: order).map share).sum = total s := by
  have hall : ((s :: order).map share).sum +
      ((s :: order).map fun x => (((kids x).getD []).map total).sum).sum =
        ((s :: order).map total).sum := by
    rw [← List.sum_map_add]
    exact congrArg List.sum (List.map_congr_left hshares)
  have hbelow := sum_breadthFirst total h
  simp only [List.map_cons, List.sum_cons, hs, Option.getD_some] at hall
  rw [← hbelow] at hall
  exact add_right_cancel hall

/-! ### Forests -/

/-- Every list is of the known items whose parent lists them, each once; and a rank grows from
parent to child. -/
structure Forest (kids : κ → Option (List κ)) (parent : κ → Option κ) (rank : κ → ℤ) : Prop where
  nodup : ∀ p cs, kids p = some cs → cs.Nodup
  listed : ∀ p cs c, kids p = some cs → (c ∈ cs ↔ (kids c).isSome ∧ parent c = some p)
  rank : ∀ c p, (kids c).isSome → parent c = some p → rank c = rank p + 1

variable {parent : κ → Option κ} {rank : κ → ℤ}

/-- Whether an item is below another: the other is its parent, or above its parent. -/
def Below (kids : κ → Option (List κ)) (parent : κ → Option κ) (s : κ) : κ → Prop :=
  Relation.TransGen (fun p c => (kids c).isSome ∧ parent c = some p) s

namespace Forest

/-- What the queue holds, and what was taken from it, when it started with the list of `s`. -/
structure Spread (kids : κ → Option (List κ)) (parent : κ → Option κ) (s : κ)
    (done queue : List κ) : Prop where
  nodup : (done ++ queue).Nodup
  below : ∀ x ∈ done ++ queue, Below kids parent s x
  children : ∀ x p, (kids x).isSome → parent x = some p →
    (x ∈ done ++ queue ↔ p = s ∨ p ∈ done)

theorem rank_lt (h : Forest kids parent rank) {s x : κ} (hx : Below kids parent s x) :
    rank s < rank x := by
  induction hx with
  | single hc =>
    have := h.rank _ _ hc.1 hc.2
    omega
  | tail _ hc ih =>
    have := h.rank _ _ hc.1 hc.2
    omega

theorem known_of_below {s x : κ} (hx : Below kids parent s x) : (kids x).isSome := by
  cases hx with
  | single hc => exact hc.1
  | tail _ hc => exact hc.1

theorem spread_init (h : Forest kids parent rank) {s : κ} {cs : List κ} (hs : kids s = some cs) :
    Spread kids parent s [] cs where
  nodup := h.nodup s cs hs
  below x hx := .single ((h.listed s cs x hs).mp hx)
  children x p hknown hparent := by
    rw [List.nil_append, h.listed s cs x hs, hparent, Option.some.injEq]
    simp [hknown]

/-- Taking the first of the queue keeps it so. -/
theorem Spread.step (h : Forest kids parent rank) {s c : κ} {done rest cs : List κ}
    (hspread : Spread kids parent s done (c :: rest)) (hc : kids c = some cs) :
    Spread kids parent s (done ++ [c]) (rest ++ cs) := by
  have hsplit : done ++ [c] ++ (rest ++ cs) = done ++ c :: rest ++ cs := by simp
  have hbelow := hspread.below c (by simp)
  have hne : c ≠ s := fun heq => absurd (h.rank_lt hbelow) (by rw [heq]; omega)
  have hnew : c ∉ done := by
    have := List.nodup_append.mp hspread.nodup
    exact fun hmem => this.2.2 c hmem c List.mem_cons_self rfl
  constructor
  · -- a child of the item was not there before, its parent having been in the queue
    rw [hsplit, List.nodup_append]
    refine ⟨hspread.nodup, h.nodup c cs hc, ?_⟩
    rintro x hx y hy rfl
    obtain ⟨hknown, hparent⟩ := (h.listed c cs x hc).mp hy
    exact ((hspread.children x c hknown hparent).mp hx).elim hne hnew
  · rw [hsplit]
    intro x hx
    rcases List.mem_append.mp hx with hx | hx
    · exact hspread.below x hx
    · exact .tail hbelow ((h.listed c cs x hc).mp hx)
  · intro x p hknown hparent
    rw [hsplit, List.mem_append, hspread.children x p hknown hparent, h.listed c cs x hc, hparent,
      Option.some.injEq, List.mem_append, List.mem_singleton]
    simp only [hknown, true_and]
    tauto

/-- A queue in a forest of finitely many items is worked off. -/
theorem Spread.order [DecidableEq κ] (h : Forest kids parent rank) {s : κ} {keys : List κ}
    (hkeys : ∀ x, (kids x).isSome → x ∈ keys) {fuel : ℕ} {done queue : List κ}
    (hspread : Spread kids parent s done queue) (hfuel : keys.length ≤ done.length + fuel) :
    ∃ order, breadthFirst kids fuel queue = some (.ok order) ∧
      Spread kids parent s (done ++ order) [] := by
  have hroom : (done ++ queue).length ≤ keys.length :=
    (List.Nodup.subperm hspread.nodup fun x hx =>
      hkeys x (known_of_below (hspread.below x hx))).length_le
  induction fuel generalizing done queue with
  | zero =>
    match queue with
    | [] => exact ⟨[], rfl, by rwa [List.append_nil]⟩
    | c :: rest =>
      rw [List.length_append, List.length_cons] at hroom
      omega
  | succ fuel ih =>
    match queue with
    | [] => exact ⟨[], rfl, by rwa [List.append_nil]⟩
    | c :: rest =>
      obtain ⟨cs, hc⟩ := Option.isSome_iff_exists.mp
        (known_of_below (hspread.below c (by simp)))
      have hstep := hspread.step h hc
      obtain ⟨order, horder, hend⟩ := ih hstep (by simp; omega)
        (List.Nodup.subperm hstep.nodup fun x hx =>
          hkeys x (known_of_below (hstep.below x hx))).length_le
      refine ⟨c :: order, ?_, by rwa [List.append_assoc, List.singleton_append] at hend⟩
      rw [breadthFirst, hc]
      simp [horder, Except.map]

/-- **In a forest the breadth-first order is of the items below**, each once. -/
theorem breadthFirst_below [DecidableEq κ] (h : Forest kids parent rank) {s : κ} {cs : List κ}
    (keys : List κ) (hkeys : ∀ x, (kids x).isSome → x ∈ keys) (hs : kids s = some cs) :
    ∃ order, breadthFirst kids keys.length cs = some (.ok order) ∧ order.Nodup ∧
      ∀ x, x ∈ order ↔ Below kids parent s x := by
  obtain ⟨order, horder, hend⟩ := (h.spread_init hs).order h hkeys (Nat.le_add_left _ _)
  rw [List.nil_append] at hend
  have hnodup := hend.nodup
  have hbelow := hend.below
  have hchildren := hend.children
  simp only [List.append_nil] at hnodup hbelow hchildren
  refine ⟨order, horder, hnodup, fun x => ⟨hbelow x, fun hx => ?_⟩⟩
  induction hx with
  | single hc => exact (hchildren _ _ hc.1 hc.2).mpr (Or.inl rfl)
  | tail _ hc ih => exact (hchildren _ _ hc.1 hc.2).mpr (Or.inr ih)

end Forest

end Foundation
