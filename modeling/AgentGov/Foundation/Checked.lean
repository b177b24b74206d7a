import Mathlib.Data.List.Forall2
import Mathlib.Data.List.Induction
import Mathlib.Tactic.Common

/-!
# Computations that may raise

Rules for computations in `Except`: how a successful or failing sequence splits, the runs of a
step over a list, the invariants a run keeps, and the relation of two computations that succeed
together, with related results, or raise together.

## Main definitions

* `Foundation.runAll`: a step applied to the members of a list in order.
* `Foundation.Together`: both succeed with related results, or both raise.

## Main results

* `Foundation.bind_eq_ok`: a sequence, taken apart.
* `Foundation.runAll_append`, `Foundation.runAll_induction`: runs over lists, and the invariants
  they keep.
* `Foundation.mapM_eq_ok`: what a computation made of every member of a list has given.
* `Foundation.Together.bind`, `Foundation.Together.runAll`: related computations compose.
-/

namespace Foundation

universe u v w

variable {ε : Type u} {α β γ δ : Type v}

/-- A sequence succeeds when both of its parts do. -/
theorem bind_eq_ok {x : Except ε α} {f : α → Except ε β} {b : β} :
    (x >>= f) = .ok b ↔ ∃ a, x = .ok a ∧ f a = .ok b := by
  cases x <;> simp [bind, Except.bind]

@[simp] theorem ok_bind (a : α) (f : α → Except ε β) : (Except.ok a >>= f) = f a := rfl

@[simp] theorem error_bind (e : ε) (f : α → Except ε β) :
    ((Except.error e : Except ε α) >>= f) = .error e := rfl

@[simp] theorem pure_eq_ok (a : α) : (pure a : Except ε α) = .ok a := rfl

theorem mapError_eq_ok {ε' : Type w} {x : Except ε α} {f : ε → ε'} {a : α} :
    x.mapError f = .ok a ↔ x = .ok a := by
  cases x <;> simp [Except.mapError]

theorem toOption_eq_some {x : Except ε α} {a : α} : x.toOption = some a ↔ x = .ok a := by
  cases x <;> simp [Except.toOption]

theorem exists_of_isOk {x : Except ε α} (h : x.isOk = true) : ∃ a, x = .ok a := by
  cases x with
  | error e => cases h
  | ok a => exact ⟨a, rfl⟩

theorem exists_of_any {x : Except ε α} {p : α → Bool} (h : x.toOption.any p = true) :
    ∃ a, x = .ok a ∧ p a = true := by
  cases x with
  | error e => cases h
  | ok a => exact ⟨a, rfl, h⟩

theorem isOk_of_eq {x : Except ε α} {a : α} (h : x = .ok a) : x.isOk = true := by
  rw [h]
  rfl

/-- A step applied to the members of a list in order. -/
def runAll (step : α → β → Except ε α) : α → List β → Except ε α
  | a, [] => .ok a
  | a, b :: l => do runAll step (← step a b) l

section Runs

variable {σ : Type v} {ι : Type v} {step : σ → ι → Except ε σ}

@[simp] theorem runAll_nil (s : σ) : runAll step s [] = .ok s := rfl

theorem runAll_cons (s : σ) (i : ι) (l : List ι) :
    runAll step s (i :: l) = step s i >>= fun t => runAll step t l := rfl

theorem runAll_cons_eq_ok {s t : σ} {i : ι} {l : List ι} :
    runAll step s (i :: l) = .ok t ↔ ∃ r, step s i = .ok r ∧ runAll step r l = .ok t :=
  bind_eq_ok

/-- A run over two lists is the run over the second from where the first ends. -/
theorem runAll_append (s : σ) (l m : List ι) :
    runAll step s (l ++ m) = runAll step s l >>= fun t => runAll step t m := by
  induction l generalizing s with
  | nil => rfl
  | cons i l ih =>
    rw [List.cons_append, runAll_cons, runAll_cons]
    cases step s i with
    | error e => rfl
    | ok t => exact ih t

theorem runAll_append_eq_ok {s t : σ} {l m : List ι} :
    runAll step s (l ++ m) = .ok t ↔ ∃ r, runAll step s l = .ok r ∧ runAll step r m = .ok t := by
  rw [runAll_append, bind_eq_ok]

theorem runAll_singleton (s : σ) (i : ι) : runAll step s [i] = step s i := by
  rw [runAll_cons]
  cases step s i <;> rfl

/-- Steps that do alike with the members of a list run alike over it. -/
theorem runAll_congr {step' : σ → ι → Except ε σ} {l : List ι}
    (h : ∀ i ∈ l, ∀ s, step s i = step' s i) (s : σ) : runAll step s l = runAll step' s l := by
  induction l generalizing s with
  | nil => rfl
  | cons i l ih =>
    rw [runAll_cons, runAll_cons, h i List.mem_cons_self]
    cases step' s i with
    | error e => rfl
    | ok t => exact ih (fun j hj => h j (List.mem_cons_of_mem i hj)) t

/-- An invariant of the list read so far and of the state, kept by every step, holds where a run
ends. -/
theorem runAll_induction {motive : List ι → σ → Prop} {s : σ} (nil : motive [] s)
    (snoc : ∀ (l : List ι) (i : ι) (t r : σ), runAll step s l = .ok t → motive l t →
      step t i = .ok r → motive (l ++ [i]) r)
    {l : List ι} {t : σ} (h : runAll step s l = .ok t) : motive l t := by
  induction l using List.reverseRecOn generalizing t with
  | nil => cases h; exact nil
  | append_singleton l i ih =>
    obtain ⟨r, hr, hi⟩ := runAll_append_eq_ok.mp h
    rw [runAll_singleton] at hi
    exact snoc l i r t hr (ih hr) hi

end Runs

section Maps

variable {f : α → Except ε β} {l : List α} {rs : List β}

/-- A computation made of every member of a list gives what it gives of each. -/
theorem mapM_eq_ok : l.mapM f = .ok rs ↔ List.Forall₂ (fun a r => f a = .ok r) l rs := by
  induction l generalizing rs with
  | nil =>
    rw [List.mapM_nil, pure_eq_ok, Except.ok.injEq, List.forall₂_nil_left_iff]
    exact eq_comm
  | cons a l ih =>
    rw [List.mapM_cons, bind_eq_ok]
    constructor
    · rintro ⟨r, hr, hrest⟩
      obtain ⟨rs', hrs', hcons⟩ := bind_eq_ok.mp hrest
      rw [pure_eq_ok, Except.ok.injEq] at hcons
      exact hcons ▸ .cons hr (ih.mp hrs')
    · intro h
      cases h with
      | cons hr hrest => exact ⟨_, hr, bind_eq_ok.mpr ⟨_, ih.mpr hrest, rfl⟩⟩

/-- What is given of a list is given of a member of it. -/
theorem exists_of_mem_mapM (h : l.mapM f = .ok rs) {r : β} (hr : r ∈ rs) :
    ∃ a ∈ l, f a = .ok r := by
  rw [mapM_eq_ok] at h
  induction h with
  | nil => exact absurd hr List.not_mem_nil
  | @cons a r' l rs hhead _ ih =>
    rcases List.mem_cons.mp hr with rfl | hr
    · exact ⟨a, List.mem_cons_self, hhead⟩
    · obtain ⟨b, hb, hbr⟩ := ih hr
      exact ⟨b, List.mem_cons_of_mem a hb, hbr⟩

/-- What is given of a member of a list is given of the list. -/
theorem exists_mem_mapM (h : l.mapM f = .ok rs) {a : α} (ha : a ∈ l) :
    ∃ r ∈ rs, f a = .ok r := by
  rw [mapM_eq_ok] at h
  induction h with
  | nil => exact absurd ha List.not_mem_nil
  | @cons b r l rs hhead _ ih =>
    rcases List.mem_cons.mp ha with rfl | ha
    · exact ⟨r, List.mem_cons_self, hhead⟩
    · obtain ⟨r', hr', har⟩ := ih ha
      exact ⟨r', List.mem_cons_of_mem r hr', har⟩

/-- What succeeds with every member of a list succeeds with the list. -/
theorem exists_mapM_eq_ok (h : ∀ a ∈ l, ∃ r, f a = .ok r) : ∃ rs, l.mapM f = .ok rs := by
  induction l with
  | nil => exact ⟨[], rfl⟩
  | cons a l ih =>
    obtain ⟨r, hr⟩ := h a List.mem_cons_self
    obtain ⟨rs, hrs⟩ := ih fun b hb => h b (List.mem_cons_of_mem a hb)
    exact ⟨r :: rs, mapM_eq_ok.mpr (.cons hr (mapM_eq_ok.mp hrs))⟩

end Maps

/-- Both computations succeed, with related results, or both raise. -/
def Together (R : α → β → Prop) : Except ε α → Except ε β → Prop
  | .ok a, .ok b => R a b
  | .error _, .error _ => True
  | _, _ => False

namespace Together

variable {R : α → β → Prop} {S : γ → δ → Prop}

theorem ok {a : α} {b : β} (h : R a b) : Together (ε := ε) R (.ok a) (.ok b) := h

@[simp] theorem error (e e' : ε) : Together R (.error e : Except ε α) (.error e' : Except ε β) :=
  trivial

/-- Related computations compose, with what they have given known. -/
theorem bind_of_eq {x : Except ε α} {y : Except ε β} {f : α → Except ε γ} {g : β → Except ε δ}
    (h : Together R x y)
    (hfg : ∀ a b, x = .ok a → y = .ok b → R a b → Together S (f a) (g b)) :
    Together S (x >>= f) (y >>= g) := by
  cases x with
  | error e => cases y with
    | error e' => exact trivial
    | ok b => exact h.elim
  | ok a => cases y with
    | error e' => exact h.elim
    | ok b => exact hfg a b rfl rfl h

/-- Related computations compose. -/
theorem bind {x : Except ε α} {y : Except ε β} {f : α → Except ε γ} {g : β → Except ε δ}
    (h : Together R x y) (hfg : ∀ a b, R a b → Together S (f a) (g b)) :
    Together S (x >>= f) (y >>= g) :=
  h.bind_of_eq fun a b _ _ => hfg a b

/-- The same computation, before related ones. -/
theorem bind_same {x : Except ε α} {f : α → Except ε γ} {g : α → Except ε δ}
    (hfg : ∀ a, x = .ok a → Together S (f a) (g a)) : Together S (x >>= f) (x >>= g) := by
  cases x with
  | error e => exact error e e
  | ok a => exact hfg a rfl

/-- The same check, before related computations. -/
theorem guard {c : Prop} [Decidable c] {e e' : ε} {x : Except ε α} {y : Except ε β}
    (h : ¬c → Together R x y) :
    Together R (if c then .error e else x) (if c then .error e' else y) := by
  by_cases hc : c
  · rw [if_pos hc, if_pos hc]
    exact error e e'
  · rw [if_neg hc, if_neg hc]
    exact h hc

theorem mono {R' : α → β → Prop} {x : Except ε α} {y : Except ε β} (h : Together R x y)
    (hR : ∀ a b, R a b → R' a b) : Together R' x y := by
  cases x <;> cases y <;> first | exact hR _ _ h | exact h

/-- What the first gives, the second gives too. -/
theorem exists_ok {x : Except ε α} {y : Except ε β} (h : Together R x y) {a : α}
    (hx : x = .ok a) : ∃ b, y = .ok b ∧ R a b := by
  subst hx
  cases y with
  | error e => exact h.elim
  | ok b => exact ⟨b, rfl, h⟩

/-- What the second gives, the first gives too. -/
theorem exists_ok' {x : Except ε α} {y : Except ε β} (h : Together R x y) {b : β}
    (hy : y = .ok b) : ∃ a, x = .ok a ∧ R a b := by
  subst hy
  cases x with
  | error e => exact h.elim
  | ok a => exact ⟨a, rfl, h⟩

/-- Steps that keep a relation keep it over a list. -/
theorem runAll {ι : Type v} {step : α → ι → Except ε α} {step' : β → ι → Except ε β} {l : List ι}
    (hstep : ∀ a b i, i ∈ l → R a b → Together R (step a i) (step' b i)) {a : α} {b : β}
    (h : R a b) : Together R (runAll step a l) (Foundation.runAll step' b l) := by
  induction l generalizing a b with
  | nil => exact h
  | cons i l ih =>
    exact bind (hstep a b i List.mem_cons_self h) fun a' b' h' =>
      ih (fun a b j hj => hstep a b j (List.mem_cons_of_mem i hj)) h'

end Together

end Foundation
