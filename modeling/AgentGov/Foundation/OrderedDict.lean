import Mathlib.Algebra.BigOperators.Group.List.Basic
import Mathlib.Data.List.Nodup
import Mathlib.Data.List.Perm.Basic
import Mathlib.Tactic.Common

/-!
# Dictionaries that remember insertion order

A dictionary is a list of key-value pairs in which no key occurs twice. Setting a key that is
present replaces its value in place; setting a new key appends it; deleting a key leaves the
order of the others. Two dictionaries with the same lookups are equal as mappings
(`Dict.Same`) whatever the order of their items.

## Main definitions

* `Foundation.Dict`: the dictionaries, with `get?`, `set`, `erase`, `update` and `keys`.
* `Foundation.Dict.Same`: equality as mappings.

## Main results

* `Foundation.Dict.get?_set`, `Foundation.Dict.get?_erase`, `Foundation.Dict.get?_update`: the
  lookups of a changed dictionary.
* `Foundation.Dict.items_set_of_get?_eq_none`: a new key is appended.
* `Foundation.Dict.Same.items_perm`: dictionaries equal as mappings hold the same items.
* `Foundation.Dict.items_perm_of_get?`, `Foundation.Dict.items_set_perm`: the items around a key.
-/

namespace Foundation

universe u v

/-- A dictionary whose items keep the order in which their keys were first set. -/
structure Dict (κ : Type u) (α : Type v) where
  /-- The items, oldest key first. -/
  items : List (κ × α)
  nodup : (items.map Prod.fst).Nodup
deriving DecidableEq

namespace Dict

variable {κ : Type u} {α : Type v}

@[ext] theorem ext {d e : Dict κ α} (h : d.items = e.items) : d = e := by
  cases d; cases e; simp_all

/-- The dictionary with no items. -/
def empty : Dict κ α := ⟨[], List.nodup_nil⟩

instance : EmptyCollection (Dict κ α) := ⟨empty⟩

instance : Inhabited (Dict κ α) := ⟨empty⟩

@[simp] theorem items_empty : (∅ : Dict κ α).items = [] := rfl

/-- The keys, oldest first. -/
def keys (d : Dict κ α) : List κ := d.items.map Prod.fst

/-- The values, in the order of their keys. -/
def values (d : Dict κ α) : List α := d.items.map Prod.snd

theorem nodup_keys (d : Dict κ α) : d.keys.Nodup := d.nodup

@[simp] theorem keys_empty : (∅ : Dict κ α).keys = [] := rfl

variable [DecidableEq κ]

/-- The value at a key in a list of pairs: that of its first occurrence. -/
def assoc : List (κ × α) → κ → Option α
  | [], _ => none
  | p :: l, k => if p.1 = k then some p.2 else assoc l k

/-- The list with the value at `k` replaced, or with `k` appended. -/
def assocSet (k : κ) (a : α) : List (κ × α) → List (κ × α)
  | [] => [(k, a)]
  | p :: l => if p.1 = k then (k, a) :: l else p :: assocSet k a l

theorem assoc_eq_none_iff {l : List (κ × α)} {k : κ} :
    assoc l k = none ↔ k ∉ l.map Prod.fst := by
  induction l with
  | nil => simp [assoc]
  | cons p l ih =>
    by_cases h : p.1 = k
    · simp [assoc, h]
    · simp [assoc, h, ih, Ne.symm h]

theorem mem_of_assoc {l : List (κ × α)} {k : κ} {a : α} (h : assoc l k = some a) :
    (k, a) ∈ l := by
  induction l with
  | nil => simp [assoc] at h
  | cons p l ih =>
    by_cases hp : p.1 = k
    · simp only [assoc, hp, ↓reduceIte, Option.some.injEq] at h
      subst hp h
      exact List.mem_cons_self
    · simp only [assoc, hp, ↓reduceIte] at h
      exact List.mem_cons_of_mem _ (ih h)

theorem assoc_of_mem {l : List (κ × α)} (hl : (l.map Prod.fst).Nodup) {k : κ} {a : α}
    (h : (k, a) ∈ l) : assoc l k = some a := by
  induction l with
  | nil => simp at h
  | cons p l ih =>
    rw [List.map_cons, List.nodup_cons] at hl
    rcases List.mem_cons.mp h with rfl | h
    · simp [assoc]
    · have hne : p.1 ≠ k := fun he => hl.1 (he ▸ List.mem_map_of_mem h)
      simpa [assoc, hne] using ih hl.2 h

theorem map_fst_assocSet (k : κ) (a : α) (l : List (κ × α)) :
    (assocSet k a l).map Prod.fst =
      if k ∈ l.map Prod.fst then l.map Prod.fst else l.map Prod.fst ++ [k] := by
  induction l with
  | nil => simp [assocSet]
  | cons p l ih =>
    by_cases h : p.1 = k
    · simp [assocSet, h]
    · simp only [assocSet, h, ↓reduceIte, List.map_cons, ih, List.mem_cons, Ne.symm h, false_or]
      split <;> simp

theorem nodup_assocSet (k : κ) (a : α) {l : List (κ × α)} (hl : (l.map Prod.fst).Nodup) :
    ((assocSet k a l).map Prod.fst).Nodup := by
  rw [map_fst_assocSet]
  split
  · exact hl
  · rename_i h
    exact List.nodup_append.mpr ⟨hl, List.nodup_singleton k, by
      intro x hx y hy hxy
      rw [List.mem_singleton] at hy
      exact h (hy ▸ hxy ▸ hx)⟩

theorem assoc_assocSet (k k' : κ) (a : α) (l : List (κ × α)) :
    assoc (assocSet k a l) k' = if k' = k then some a else assoc l k' := by
  induction l with
  | nil => simp [assocSet, assoc, eq_comm]
  | cons p l ih =>
    by_cases h : p.1 = k
    · by_cases hk : k' = k
      · simp [assocSet, assoc, h, hk]
      · simp [assocSet, assoc, h, hk, Ne.symm hk]
    · by_cases hp : p.1 = k'
      · have hk : k' ≠ k := fun he => h (hp.trans he)
        simp [assocSet, assoc, hp, hk]
      · simp [assocSet, assoc, h, hp, ih]

/-- The value at a key. -/
def get? (d : Dict κ α) (k : κ) : Option α := assoc d.items k

/-- Whether the key is present. -/
def contains (d : Dict κ α) (k : κ) : Bool := (d.get? k).isSome

/-- The dictionary with `k` set to `a`: in place if `k` is present, appended otherwise. -/
def set (d : Dict κ α) (k : κ) (a : α) : Dict κ α :=
  ⟨assocSet k a d.items, nodup_assocSet k a d.nodup⟩

/-- The dictionary without the key `k`. -/
def erase (d : Dict κ α) (k : κ) : Dict κ α :=
  ⟨d.items.filter fun p => p.1 ≠ k, d.nodup.sublist (List.filter_sublist.map _)⟩

/-- Set every item of a list, in order. -/
def setAll (d : Dict κ α) (l : List (κ × α)) : Dict κ α :=
  l.foldl (fun d p => d.set p.1 p.2) d

/-- Set every item of `e`, in order. -/
def update (d e : Dict κ α) : Dict κ α := d.setAll e.items

/-- The keys of a list that the dictionary has not. -/
def newKeys (d : Dict κ α) (l : List κ) : List κ := l.filter fun k => !d.contains k

/-- Remove every key of a list. -/
def eraseAll (d : Dict κ α) (l : List κ) : Dict κ α := l.foldl erase d

@[simp] theorem get?_empty (k : κ) : (∅ : Dict κ α).get? k = none := rfl

theorem get?_eq_none_iff {d : Dict κ α} {k : κ} : d.get? k = none ↔ k ∉ d.keys :=
  assoc_eq_none_iff

theorem get?_eq_some_iff {d : Dict κ α} {k : κ} {a : α} :
    d.get? k = some a ↔ (k, a) ∈ d.items :=
  ⟨mem_of_assoc, assoc_of_mem d.nodup⟩

theorem mem_keys_iff {d : Dict κ α} {k : κ} : k ∈ d.keys ↔ ∃ a, d.get? k = some a := by
  rw [← Option.ne_none_iff_exists', Ne, get?_eq_none_iff, not_not]

theorem mem_values_iff {d : Dict κ α} {a : α} : a ∈ d.values ↔ ∃ k, d.get? k = some a := by
  simp [values, get?_eq_some_iff]

@[simp] theorem contains_iff {d : Dict κ α} {k : κ} : d.contains k = true ↔ k ∈ d.keys := by
  rw [contains, Option.isSome_iff_exists, mem_keys_iff]

theorem contains_eq_false_iff {d : Dict κ α} {k : κ} : d.contains k = false ↔ k ∉ d.keys := by
  rw [← contains_iff, Bool.not_eq_true]

/-- The lookups after setting a key. -/
@[simp] theorem get?_set (d : Dict κ α) (k k' : κ) (a : α) :
    (d.set k a).get? k' = if k' = k then some a else d.get? k' :=
  assoc_assocSet k k' a d.items

@[simp] theorem get?_set_self (d : Dict κ α) (k : κ) (a : α) : (d.set k a).get? k = some a := by
  simp

theorem keys_set (d : Dict κ α) (k : κ) (a : α) :
    (d.set k a).keys = if k ∈ d.keys then d.keys else d.keys ++ [k] :=
  map_fst_assocSet k a d.items

theorem mem_keys_set {d : Dict κ α} {k k' : κ} {a : α} :
    k' ∈ (d.set k a).keys ↔ k' = k ∨ k' ∈ d.keys := by
  rw [keys_set]
  split
  · rename_i h
    constructor
    · exact Or.inr
    · rintro (rfl | h')
      exacts [h, h']
  · simp [or_comm]

/-- A key that was not present is appended. -/
theorem items_set_of_get?_eq_none {d : Dict κ α} {k : κ} (h : d.get? k = none) (a : α) :
    (d.set k a).items = d.items ++ [(k, a)] := by
  have key : ∀ l : List (κ × α), assoc l k = none → assocSet k a l = l ++ [(k, a)] := by
    intro l
    induction l with
    | nil => intro _; rfl
    | cons p l ih =>
      intro hl
      by_cases hp : p.1 = k
      · simp [assoc, hp] at hl
      · simp only [assoc, hp, ↓reduceIte] at hl
        simp [assocSet, hp, ih hl]
  exact key d.items h

/-- The lookups after removing a key. -/
@[simp] theorem get?_erase (d : Dict κ α) (k k' : κ) :
    (d.erase k).get? k' = if k' = k then none else d.get? k' := by
  have key : ∀ l : List (κ × α),
      assoc (l.filter fun p => p.1 ≠ k) k' = if k' = k then none else assoc l k' := by
    intro l
    induction l with
    | nil => simp [assoc]
    | cons p l ih =>
      by_cases hp : p.1 = k
      · rw [List.filter_cons_of_neg (by simp [hp]), ih]
        by_cases hk : k' = k
        · simp [hk]
        · simp [hk, assoc, hp, Ne.symm hk]
      · rw [List.filter_cons_of_pos (by simp [hp])]
        by_cases hk : p.1 = k'
        · have hne : k' ≠ k := hk ▸ hp
          simp [assoc, hk, hne]
        · simp only [assoc, hk, ↓reduceIte, ih]
  exact key d.items

@[simp] theorem items_erase (d : Dict κ α) (k : κ) :
    (d.erase k).items = d.items.filter fun p => p.1 ≠ k := rfl

theorem keys_erase (d : Dict κ α) (k : κ) : (d.erase k).keys = d.keys.filter (· ≠ k) := by
  simp only [keys, items_erase, List.filter_map]
  rfl

theorem erase_of_not_mem {d : Dict κ α} {k : κ} (h : k ∉ d.keys) : d.erase k = d := by
  apply ext
  rw [items_erase, List.filter_eq_self]
  intro p hp
  have hne : p.1 ≠ k := fun he => h (he ▸ List.mem_map_of_mem hp)
  simpa using hne

theorem get?_setAll (d : Dict κ α) (l : List (κ × α)) (hl : (l.map Prod.fst).Nodup) (k : κ) :
    (d.setAll l).get? k = (assoc l k).or (d.get? k) := by
  induction l generalizing d with
  | nil => simp [setAll, assoc]
  | cons p l ih =>
    rw [List.map_cons, List.nodup_cons] at hl
    have h := ih (d.set p.1 p.2) hl.2
    simp only [setAll, List.foldl_cons] at h ⊢
    rw [h, get?_set]
    by_cases hp : p.1 = k
    · subst hp
      simp [assoc, assoc_eq_none_iff.mpr hl.1]
    · simp [assoc, hp, Ne.symm hp]

theorem get?_setAll_of_notMem (d : Dict κ α) {l : List (κ × α)} {k : κ}
    (h : k ∉ l.map Prod.fst) : (d.setAll l).get? k = d.get? k := by
  induction l generalizing d with
  | nil => rfl
  | cons p l ih =>
    rw [List.map_cons, List.mem_cons, not_or] at h
    have hrest := ih (d.set p.1 p.2) h.2
    rw [get?_set, if_neg h.1] at hrest
    exact hrest

/-- A key that is set to one value only, is set to it. -/
theorem get?_setAll_of_mem (d : Dict κ α) {l : List (κ × α)} {k : κ} {a : α} (h : (k, a) ∈ l)
    (hone : ∀ p ∈ l, p.1 = k → p.2 = a) : (d.setAll l).get? k = some a := by
  induction l generalizing d with
  | nil => cases h
  | cons p l ih =>
    have hrest := ih (d.set p.1 p.2)
    by_cases hmem : (k, a) ∈ l
    · exact hrest hmem fun q hq => hone q (List.mem_cons_of_mem _ hq)
    · obtain rfl := (List.mem_cons.mp h).resolve_right hmem
      have hnot : k ∉ l.map Prod.fst := by
        intro hk
        obtain ⟨q, hq, rfl⟩ := List.mem_map.mp hk
        rw [← hone q (List.mem_cons_of_mem _ hq) rfl] at hmem
        exact hmem hq
      exact (get?_setAll_of_notMem _ hnot).trans (get?_set_self _ _ _)

/-- The lookups after an update: those of `e`, then those of `d`. -/
@[simp] theorem get?_update (d e : Dict κ α) (k : κ) :
    (d.update e).get? k = (e.get? k).or (d.get? k) :=
  get?_setAll d e.items e.nodup k

/-- Updating with new keys only appends them. -/
theorem items_setAll_of_disjoint (d : Dict κ α) (l : List (κ × α))
    (hl : (l.map Prod.fst).Nodup) (h : ∀ p ∈ l, p.1 ∉ d.keys) :
    (d.setAll l).items = d.items ++ l := by
  induction l generalizing d with
  | nil => simp [setAll]
  | cons p l ih =>
    rw [List.map_cons, List.nodup_cons] at hl
    have hp : d.get? p.1 = none := get?_eq_none_iff.mpr (h p List.mem_cons_self)
    have hrest : ∀ q ∈ l, q.1 ∉ (d.set p.1 p.2).keys := by
      intro q hq hmem
      rcases mem_keys_set.mp hmem with he | hm
      · exact hl.1 (he ▸ List.mem_map_of_mem hq)
      · exact h q (List.mem_cons_of_mem _ hq) hm
    have hi := ih (d.set p.1 p.2) hl.2 hrest
    simp only [setAll, List.foldl_cons] at hi ⊢
    rw [hi, items_set_of_get?_eq_none hp, List.append_assoc]
    rfl

theorem keys_setAll (d : Dict κ α) (l : List (κ × α)) (hl : (l.map Prod.fst).Nodup) :
    (d.setAll l).keys = d.keys ++ d.newKeys (l.map Prod.fst) := by
  induction l generalizing d with
  | nil => simp [setAll, newKeys]
  | cons p l ih =>
    rw [List.map_cons, List.nodup_cons] at hl
    have h := ih (d.set p.1 p.2) hl.2
    simp only [setAll, List.foldl_cons] at h ⊢
    have hf : (d.set p.1 p.2).newKeys (l.map Prod.fst) = d.newKeys (l.map Prod.fst) := by
      refine List.filter_congr fun k hk => ?_
      have hne : k ≠ p.1 := fun he => hl.1 (he ▸ hk)
      simp [contains, hne]
    rw [h, hf, keys_set]
    by_cases hp : p.1 ∈ d.keys
    · simp [hp, newKeys, contains_iff.mpr hp]
    · simp [hp, newKeys, contains_eq_false_iff.mpr hp]

@[simp] theorem get?_eraseAll (d : Dict κ α) (l : List κ) (k : κ) :
    (d.eraseAll l).get? k = if k ∈ l then none else d.get? k := by
  induction l generalizing d with
  | nil => simp [eraseAll]
  | cons j l ih =>
    have h := ih (d.erase j)
    simp only [eraseAll, List.foldl_cons] at h ⊢
    rw [h, get?_erase]
    by_cases hl : k ∈ l
    · simp [hl]
    · by_cases hj : k = j
      · simp [hj]
      · simp [hl, hj]

theorem get?_eraseAll_of_mem (d : Dict κ α) {l : List κ} {k : κ} (h : k ∈ l) :
    (d.eraseAll l).get? k = none := by
  rw [get?_eraseAll, if_pos h]

theorem get?_eraseAll_of_notMem (d : Dict κ α) {l : List κ} {k : κ} (h : k ∉ l) :
    (d.eraseAll l).get? k = d.get? k := by
  rw [get?_eraseAll, if_neg h]

theorem items_eraseAll (d : Dict κ α) (l : List κ) :
    (d.eraseAll l).items = d.items.filter fun p => p.1 ∉ l := by
  induction l generalizing d with
  | nil => simp [eraseAll]
  | cons j l ih =>
    have h := ih (d.erase j)
    simp only [eraseAll, List.foldl_cons] at h ⊢
    rw [h, items_erase, List.filter_filter]
    refine List.filter_congr fun p _ => ?_
    by_cases hj : p.1 = j <;> simp [hj]

/-- Dictionaries with the same keys in the same order and the same lookups are equal. -/
theorem ext_keys {d e : Dict κ α} (hk : d.keys = e.keys) (hg : ∀ k, d.get? k = e.get? k) :
    d = e := by
  have items_eq : ∀ f : Dict κ α,
      f.items = f.keys.filterMap fun k => (f.get? k).map fun a => (k, a) := by
    intro f
    have hf : f.items.filterMap (fun p => (f.get? p.1).map fun a => (p.1, a)) = f.items := by
      conv_rhs => rw [← List.filterMap_some (l := f.items)]
      refine List.filterMap_congr fun p hp => ?_
      rw [get?_eq_some_iff.mpr hp]
      rfl
    rw [keys, List.filterMap_map]
    exact hf.symm
  apply ext
  rw [items_eq d, items_eq e, hk]
  exact List.filterMap_congr fun k _ => by rw [hg]

theorem keys_update (d e : Dict κ α) : (d.update e).keys = d.keys ++ d.newKeys e.keys :=
  keys_setAll d e.items e.nodup

theorem mem_keys_update {d e : Dict κ α} {k : κ} :
    k ∈ (d.update e).keys ↔ k ∈ d.keys ∨ k ∈ e.keys := by
  by_cases h : k ∈ d.keys <;> simp [keys_update, newKeys, contains_eq_false_iff, h]

/-- Setting a key of the update is setting it in the result. -/
theorem update_set (d e : Dict κ α) (k : κ) (a : α) :
    d.update (e.set k a) = (d.update e).set k a := by
  refine ext_keys ?_ fun j => ?_
  · rw [keys_set, keys_update, keys_set]
    by_cases he : k ∈ e.keys
    · rw [if_pos he, if_pos (mem_keys_update.mpr (Or.inr he)), keys_update]
    · by_cases hd : k ∈ d.keys
      · simp [he, hd, keys_update, newKeys, contains_iff.mpr hd]
      · simp [he, hd, keys_update, newKeys, contains_eq_false_iff.mpr hd]
  · simp only [get?_update, get?_set]
    split <;> simp

/-- Removing from the update a key the dictionary has not is removing it from the result. -/
theorem update_erase {d e : Dict κ α} {k : κ} (hd : k ∉ d.keys) :
    d.update (e.erase k) = (d.update e).erase k := by
  refine ext_keys ?_ fun j => ?_
  · rw [keys_update, keys_erase, keys_erase, keys_update, List.filter_append]
    have h1 : d.keys.filter (fun x => decide (x ≠ k)) = d.keys := by
      rw [List.filter_eq_self]
      intro x hx
      have : x ≠ k := fun he => hd (he ▸ hx)
      simpa using this
    rw [h1, newKeys, newKeys, List.filter_filter, List.filter_filter]
    congr 1
    exact List.filter_congr fun x _ => by rw [Bool.and_comm]
  · simp only [get?_update, get?_erase]
    split
    · rename_i h
      subst h
      simp [get?_eq_none_iff.mpr hd]
    · rfl

@[simp] theorem keys_eraseAll (d : Dict κ α) (l : List κ) :
    (d.eraseAll l).keys = d.keys.filter (· ∉ l) := by
  simp only [keys, items_eraseAll, List.filter_map]
  rfl

/-- Removing one more key before an update that does not set it. -/
theorem update_eraseAll_append {d e : Dict κ α} {l : List κ} {k : κ} (he : k ∉ e.keys) :
    (d.eraseAll (l ++ [k])).update e = ((d.eraseAll l).update e).erase k := by
  have hl : d.eraseAll (l ++ [k]) = (d.eraseAll l).erase k := by
    simp [eraseAll, List.foldl_append]
  rw [hl]
  refine ext_keys ?_ fun j => ?_
  · rw [keys_update, keys_erase, keys_erase, keys_update, List.filter_append]
    congr 1
    have h1 : ((d.eraseAll l).newKeys e.keys).filter (fun x => decide (x ≠ k)) =
        (d.eraseAll l).newKeys e.keys := by
      rw [List.filter_eq_self]
      intro x hx
      have : x ≠ k := fun h => he (h ▸ (List.mem_filter.mp hx).1)
      simpa using this
    rw [h1]
    refine List.filter_congr fun x hx => ?_
    have : x ≠ k := fun h => he (h ▸ hx)
    simp [contains, this]
  · simp only [get?_update, get?_erase]
    split
    · rename_i h
      subst h
      simp [get?_eq_none_iff.mpr he]
    · rfl

/-! ### Mapping the values -/

section Map

variable {β : Type v}

/-- The dictionary with every value mapped. -/
def mapValues (f : α → β) (d : Dict κ α) : Dict κ β :=
  ⟨d.items.map fun p => (p.1, f p.2), by simpa [Function.comp_def] using d.nodup⟩

omit [DecidableEq κ] in
@[simp] theorem items_mapValues (f : α → β) (d : Dict κ α) :
    (d.mapValues f).items = d.items.map fun p => (p.1, f p.2) := rfl

omit [DecidableEq κ] in
@[simp] theorem keys_mapValues (f : α → β) (d : Dict κ α) : (d.mapValues f).keys = d.keys := by
  simp [keys, Function.comp_def]

@[simp] theorem get?_mapValues (f : α → β) (d : Dict κ α) (k : κ) :
    (d.mapValues f).get? k = (d.get? k).map f := by
  have key : ∀ l : List (κ × α), assoc (l.map fun p => (p.1, f p.2)) k = (assoc l k).map f := by
    intro l
    induction l with
    | nil => rfl
    | cons p l ih =>
      by_cases hp : p.1 = k <;> simp [assoc, hp, ih]
  exact key d.items

theorem mapValues_set (f : α → β) (d : Dict κ α) (k : κ) (a : α) :
    (d.set k a).mapValues f = (d.mapValues f).set k (f a) := by
  refine ext_keys ?_ fun j => ?_
  · simp [keys_set]
  · simp only [get?_mapValues, get?_set]
    split <;> rfl

theorem mapValues_erase (f : α → β) (d : Dict κ α) (k : κ) :
    (d.erase k).mapValues f = (d.mapValues f).erase k := by
  refine ext_keys ?_ fun j => ?_
  · simp [keys_erase]
  · simp only [get?_mapValues, get?_erase]
    split <;> rfl

theorem mapValues_setAll (f : α → β) (d : Dict κ α) (l : List (κ × α)) :
    (d.setAll l).mapValues f = (d.mapValues f).setAll (l.map fun p => (p.1, f p.2)) := by
  induction l generalizing d with
  | nil => rfl
  | cons p l ih =>
    change ((d.set p.1 p.2).setAll l).mapValues f = _
    rw [ih, mapValues_set]
    rfl

theorem mapValues_eraseAll (f : α → β) (d : Dict κ α) (l : List κ) :
    (d.eraseAll l).mapValues f = (d.mapValues f).eraseAll l := by
  induction l generalizing d with
  | nil => rfl
  | cons k l ih =>
    change ((d.erase k).eraseAll l).mapValues f = _
    rw [ih, mapValues_erase]
    rfl

omit [DecidableEq κ] in
@[simp] theorem mapValues_id (d : Dict κ α) : d.mapValues id = d := by
  apply Dict.ext
  simp

/-- The dictionary of the items whose values satisfy `p`. -/
def filterValues (p : α → Bool) (d : Dict κ α) : Dict κ α :=
  ⟨d.items.filter fun q => p q.2, d.nodup.sublist (List.filter_sublist.map _)⟩

@[simp] theorem get?_filterValues (p : α → Bool) (d : Dict κ α) (k : κ) :
    (d.filterValues p).get? k = (d.get? k).filter p := by
  ext a
  rw [get?_eq_some_iff, Option.filter_eq_some_iff, get?_eq_some_iff]
  exact List.mem_filter

end Map

section Folds

variable {β : Type v} {g : Dict κ α → κ × β → Dict κ α}

/-- The lookups after a list of changes, each of one key's value. -/
theorem get?_foldl {h : β → Option α → Option α}
    (hg : ∀ d p k, (g d p).get? k = if k = p.1 then h p.2 (d.get? k) else d.get? k)
    (d : Dict κ α) (l : List (κ × β)) (hl : (l.map Prod.fst).Nodup) (k : κ) :
    (l.foldl g d).get? k = match assoc l k with
      | none => d.get? k
      | some b => h b (d.get? k) := by
  induction l generalizing d with
  | nil => rfl
  | cons p l ih =>
    rw [List.map_cons, List.nodup_cons] at hl
    rw [List.foldl_cons, ih (g d p) hl.2, hg]
    by_cases hp : p.1 = k
    · have hn : assoc l k = none := assoc_eq_none_iff.mpr (hp ▸ hl.1)
      simp [assoc, hp, hn]
    · simp [assoc, hp, Ne.symm hp]

/-- The keys after a list of changes that set their keys. -/
theorem keys_foldl (hg : ∀ d p, (g d p).keys = if p.1 ∈ d.keys then d.keys else d.keys ++ [p.1])
    (d : Dict κ α) (l : List (κ × β)) (hl : (l.map Prod.fst).Nodup) :
    (l.foldl g d).keys = d.keys ++ d.newKeys (l.map Prod.fst) := by
  induction l generalizing d with
  | nil => simp [newKeys]
  | cons p l ih =>
    rw [List.map_cons, List.nodup_cons] at hl
    have hf : (g d p).newKeys (l.map Prod.fst) = d.newKeys (l.map Prod.fst) := by
      refine List.filter_congr fun k hk => ?_
      have hne : k ≠ p.1 := fun he => hl.1 (he ▸ hk)
      have hk' : k ∈ (g d p).keys ↔ k ∈ d.keys := by
        rw [hg]
        split <;> simp [hne]
      rw [Bool.eq_iff_iff.mpr (contains_iff.trans (hk'.trans contains_iff.symm))]
    rw [List.foldl_cons, ih (g d p) hl.2, hf, hg]
    by_cases hp : p.1 ∈ d.keys
    · simp [hp, newKeys, contains_iff.mpr hp]
    · simp [hp, newKeys, contains_eq_false_iff.mpr hp]

end Folds

/-- Equality as mappings: the same value at every key, in whatever order. -/
def Same (d e : Dict κ α) : Prop := ∀ k, d.get? k = e.get? k

theorem Same.refl (d : Dict κ α) : d.Same d := fun _ => rfl

theorem Same.symm {d e : Dict κ α} (h : d.Same e) : e.Same d := fun k => (h k).symm

theorem Same.trans {d e f : Dict κ α} (h : d.Same e) (h' : e.Same f) : d.Same f :=
  fun k => (h k).trans (h' k)

theorem Same.set {d e : Dict κ α} (h : d.Same e) (k : κ) (a : α) : (d.set k a).Same (e.set k a) := by
  intro k'
  rw [get?_set, get?_set, h k']

/-- Dictionaries equal as mappings hold the same items, up to order. -/
theorem Same.items_perm {d e : Dict κ α} (h : d.Same e) : d.items.Perm e.items := by
  refine (List.perm_ext_iff_of_nodup d.nodup.of_map e.nodup.of_map).mpr fun p => ?_
  rw [← get?_eq_some_iff, ← get?_eq_some_iff, h p.1]

/-- The items of a dictionary around one of its keys. -/
theorem items_perm_of_get? {d : Dict κ α} {k : κ} {a : α} (h : d.get? k = some a) :
    d.items.Perm ((k, a) :: (d.erase k).items) := by
  let e : Dict κ α := ⟨(k, a) :: (d.erase k).items, by
    rw [List.map_cons, List.nodup_cons]
    refine ⟨fun hm => ?_, (d.erase k).nodup⟩
    have hm' : k ∈ (d.erase k).keys := hm
    rw [keys_erase, List.mem_filter] at hm'
    simp at hm'⟩
  refine Same.items_perm (e := e) fun k' => ?_
  change d.get? k' = if k = k' then some a else (d.erase k).get? k'
  rw [get?_erase]
  by_cases hk : k = k'
  · rw [if_pos hk, ← hk, h]
  · rw [if_neg hk, if_neg (Ne.symm hk)]

/-- The items after setting a key: the new one, and those of the other keys. -/
theorem items_set_perm (d : Dict κ α) (k : κ) (a : α) :
    (d.set k a).items.Perm ((k, a) :: (d.erase k).items) := by
  have he : (d.set k a).erase k = d.erase k :=
    ext_keys (by
      rw [keys_erase, keys_erase, keys_set]
      split_ifs
      · rfl
      · rw [List.filter_append]
        simp) fun k' => by
      rw [get?_erase, get?_erase, get?_set]
      split_ifs <;> rfl
  have := items_perm_of_get? (get?_set_self d k a)
  rwa [he] at this

theorem values_perm_of_get? {d : Dict κ α} {k : κ} {a : α} (h : d.get? k = some a) :
    d.values.Perm (a :: (d.erase k).values) :=
  (items_perm_of_get? h).map Prod.snd

theorem values_set_perm (d : Dict κ α) (k : κ) (a : α) :
    (d.set k a).values.Perm (a :: (d.erase k).values) :=
  (items_set_perm d k a).map Prod.snd

/-- A sum over the values after setting a key. -/
theorem sum_values_set {β : Type*} [AddCommGroup β] (f : α → β) (d : Dict κ α) (k : κ) (a : α) :
    ((d.set k a).values.map f).sum =
      (d.values.map f).sum - ((d.get? k).map f).getD 0 + f a := by
  have hset : ((d.set k a).values.map f).sum = f a + ((d.erase k).values.map f).sum := by
    rw [((values_set_perm d k a).map f).sum_eq, List.map_cons, List.sum_cons]
  rw [hset]
  cases h : d.get? k with
  | none =>
    rw [erase_of_not_mem (get?_eq_none_iff.mp h)]
    simp [add_comm]
  | some b =>
    rw [((values_perm_of_get? h).map f).sum_eq, List.map_cons, List.sum_cons]
    simp [add_comm]

end Dict

end Foundation
