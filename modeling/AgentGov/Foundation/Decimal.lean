import Mathlib.Algebra.Order.Field.Rat
import Mathlib.Data.Int.Log
import Mathlib.Data.Rat.Floor
import Mathlib.Order.WithBot
import Mathlib.Tactic.Common
import Mathlib.Tactic.FieldSimp
import Mathlib.Tactic.Linarith
import Mathlib.Tactic.Positivity
import Mathlib.Tactic.Ring

/-!
# Decimal arithmetic that refuses to round

A decimal datum is a sign, a coefficient and an exponent, an infinity, or a NaN. What a datum
that is not a NaN stands for is a `Value`: a rational or a signed infinity. A context has a
precision and an exponent range; a sum whose exact result it cannot hold is refused, so every
sum that is given is the exact one.

## Main definitions

* `Foundation.Decimal`, `Foundation.Value`: the data, and the numbers they stand for.
* `Foundation.Value.plus`: the exact sum, undefined for opposite infinities.
* `Foundation.DecimalContext.add`: the exact sum, when the context can hold it.
* `Foundation.Decimal.quantize`: rounding to a number of decimal places.

## Main results

* `Foundation.DecimalContext.add_eq_some`: a sum that is given is the exact one.
* `Foundation.Decimal.quantize_finite_eq_some`: the coefficient of a quantized number.
-/

namespace Foundation

/-- A decimal datum. -/
inductive Decimal
  /-- `± coefficient · 10 ^ exponent`. -/
  | finite (negative : Bool) (coefficient : ℕ) (exponent : ℤ)
  | infinity (negative : Bool)
  /-- Not a number, quiet or signalling, with its diagnostic digits. -/
  | nan (negative signaling : Bool) (payload : ℕ)
deriving DecidableEq

/-- What a datum that is not a NaN stands for. -/
inductive Value
  | finite (q : ℚ)
  | infinite (negative : Bool)
deriving DecidableEq

namespace Value

instance : Zero Value := ⟨finite 0⟩

instance : Inhabited Value := ⟨0⟩

theorem zero_def : (0 : Value) = finite 0 := rfl

/-- A value in the order of the rationals between two infinities. -/
def toExtended : Value → WithBot (WithTop ℚ)
  | finite q => ((q : WithTop ℚ) : WithBot (WithTop ℚ))
  | infinite true => ⊥
  | infinite false => ((⊤ : WithTop ℚ) : WithBot (WithTop ℚ))

theorem toExtended_injective : Function.Injective toExtended := by
  intro a b h
  cases a with
  | finite p =>
    cases b with
    | finite q => simpa [toExtended] using h
    | infinite s => cases s <;> simp [toExtended] at h
  | infinite r =>
    cases b with
    | finite q => cases r <;> simp [toExtended] at h
    | infinite s => cases r <;> cases s <;> simp [toExtended] at h ⊢

instance : LinearOrder Value := LinearOrder.lift' toExtended toExtended_injective

theorem le_def (a b : Value) : a ≤ b ↔ a.toExtended ≤ b.toExtended := Iff.rfl

theorem lt_def (a b : Value) : a < b ↔ a.toExtended < b.toExtended := Iff.rfl

@[simp] theorem finite_le_finite {p q : ℚ} : finite p ≤ finite q ↔ p ≤ q := by
  simp [le_def, toExtended]

@[simp] theorem finite_lt_finite {p q : ℚ} : finite p < finite q ↔ p < q := by
  simp [lt_def, toExtended]

@[simp] theorem finite_le_zero {p : ℚ} : finite p ≤ 0 ↔ p ≤ 0 := finite_le_finite

@[simp] theorem zero_lt_finite {p : ℚ} : 0 < finite p ↔ 0 < p := finite_lt_finite

@[simp] theorem finite_lt_infinite {p : ℚ} : finite p < infinite false :=
  WithBot.coe_lt_coe.mpr (WithTop.coe_lt_top p)

@[simp] theorem infinite_lt_finite {p : ℚ} : infinite true < finite p := by
  simp [lt_def, toExtended]

theorem eq_infinite_of_zero_lt {s : Bool} (h : (0 : Value) < infinite s) : s = false := by
  cases s with
  | false => rfl
  | true => simp [lt_def, toExtended, zero_def] at h

/-- Whether the value is a rational. -/
def IsFinite : Value → Prop
  | finite _ => True
  | infinite _ => False

instance (a : Value) : Decidable a.IsFinite := by
  cases a <;> (unfold IsFinite; infer_instance)

/-- The rational a value is, zero for an infinity. -/
def toRat : Value → ℚ
  | finite q => q
  | infinite _ => 0

@[simp] theorem toRat_finite (q : ℚ) : (finite q).toRat = q := rfl

@[simp] theorem toRat_zero : (0 : Value).toRat = 0 := rfl

@[simp] theorem isFinite_zero : (0 : Value).IsFinite := trivial

@[simp] theorem isFinite_finite (q : ℚ) : (finite q).IsFinite := trivial

theorem IsFinite.eq {a : Value} (h : a.IsFinite) : a = finite a.toRat := by
  cases a with
  | finite q => rfl
  | infinite s => exact h.elim

instance : Neg Value where
  neg
    | finite q => finite (-q)
    | infinite s => infinite !s

@[simp] theorem neg_finite (q : ℚ) : -finite q = finite (-q) := rfl

@[simp] theorem neg_infinite (s : Bool) : -infinite s = infinite !s := rfl

/-- The exact sum. Opposite infinities have none. -/
def plus : Value → Value → Option Value
  | finite p, finite q => some (finite (p + q))
  | finite _, infinite s => some (infinite s)
  | infinite r, finite _ => some (infinite r)
  | infinite r, infinite s => if r = s then some (infinite r) else none

@[simp] theorem plus_finite (p q : ℚ) : plus (finite p) (finite q) = some (finite (p + q)) := rfl

theorem plus_comm (a b : Value) : plus a b = plus b a := by
  cases a with
  | finite p => cases b with
    | finite q => simp [add_comm]
    | infinite s => rfl
  | infinite r => cases b with
    | finite q => rfl
    | infinite s => cases r <;> cases s <;> rfl

@[simp] theorem zero_plus (a : Value) : plus 0 a = some a := by
  cases a with
  | finite p => simp [zero_def]
  | infinite s => rfl

@[simp] theorem plus_zero (a : Value) : plus a 0 = some a := by
  rw [plus_comm, zero_plus]

/-- The sum of amounts that are not negative: infinite where one of them is. -/
def sum (l : List Value) : Value :=
  if ∀ v ∈ l, v.IsFinite then finite (l.map toRat).sum else infinite false

@[simp] theorem sum_nil : sum [] = 0 := rfl

/-- The order of the amounts does not matter. -/
theorem sum_perm {l m : List Value} (h : l.Perm m) : sum l = sum m := by
  have hmem : (∀ v ∈ l, v.IsFinite) ↔ ∀ v ∈ m, v.IsFinite :=
    forall_congr' fun v => by rw [h.mem_iff]
  simp only [sum, hmem, (h.map toRat).sum_eq]

theorem sum_of_finite {l : List Value} (h : ∀ v ∈ l, v.IsFinite) :
    sum l = finite (l.map toRat).sum := if_pos h

theorem sum_of_infinite {l : List Value} (h : ¬∀ v ∈ l, v.IsFinite) : sum l = infinite false :=
  if_neg h

theorem ne_of_zero_lt {v : Value} (h : 0 < v) : v ≠ infinite true := by
  rintro rfl
  exact Bool.noConfusion (eq_infinite_of_zero_lt h)

/-- One more amount adds to the sum. -/
theorem plus_sum_cons {v : Value} (hv : v ≠ infinite true) (l : List Value) :
    plus (sum l) v = some (sum (v :: l)) := by
  by_cases hl : ∀ w ∈ l, w.IsFinite
  · cases v with
    | finite q =>
      have hc : ∀ w ∈ finite q :: l, w.IsFinite := List.forall_mem_cons.mpr ⟨trivial, hl⟩
      rw [sum_of_finite hl, sum_of_finite hc, plus_finite, List.map_cons, List.sum_cons,
        toRat_finite, add_comm]
    | infinite s =>
      obtain rfl : s = false := by simpa using hv
      have hc : ¬∀ w ∈ infinite false :: l, w.IsFinite := fun h => h _ List.mem_cons_self
      rw [sum_of_finite hl, sum_of_infinite hc]
      rfl
  · have hc : ¬∀ w ∈ v :: l, w.IsFinite := fun h => hl fun w hw => h w (List.mem_cons_of_mem _ hw)
    rw [sum_of_infinite hl, sum_of_infinite hc]
    cases v with
    | finite q => rfl
    | infinite s =>
      obtain rfl : s = false := by simpa using hv
      rfl

/-- A sum with an infinity is that infinity. -/
theorem plus_infinite {a r : Value} {s : Bool} (h : plus a (infinite s) = some r) :
    r = infinite s := by
  cases a with
  | finite p => simpa [plus, eq_comm] using h
  | infinite r =>
    simp only [plus] at h
    split at h
    · rename_i hr
      rw [← hr]
      exact (Option.some.inj h).symm
    · cases h
/-- An infinite sum has an infinite term. -/
theorem infinite_of_plus {a b : Value} {s : Bool} (h : plus a b = some (infinite s)) :
    a = infinite s ∨ b = infinite s := by
  cases a with
  | finite p => cases b with
    | finite q => cases h
    | infinite t => exact Or.inr (Option.some.inj h)
  | infinite r =>
    rw [plus_comm] at h
    exact Or.inl (plus_infinite h).symm

/-- A sum of rationals is their rational sum. -/
theorem plus_toRat {a b r : Value} (ha : a.IsFinite) (hb : b.IsFinite) (h : plus a b = some r) :
    r.IsFinite ∧ r.toRat = a.toRat + b.toRat := by
  rw [ha.eq, hb.eq, plus_finite, Option.some.injEq] at h
  subst h
  exact ⟨trivial, rfl⟩

/-- Only rationals sum to a rational. -/
theorem isFinite_of_plus {a b r : Value} (hr : r.IsFinite) (h : plus a b = some r) :
    a.IsFinite ∧ b.IsFinite := by
  constructor
  · cases a with
    | finite p => trivial
    | infinite s =>
      rw [plus_comm] at h
      rw [plus_infinite h] at hr
      exact hr
  · cases b with
    | finite q => trivial
    | infinite s =>
      rw [plus_infinite h] at hr
      exact hr

@[simp] theorem isFinite_neg {a : Value} : (-a).IsFinite ↔ a.IsFinite := by
  cases a <;> rfl

@[simp] theorem toRat_neg (a : Value) : (-a).toRat = -a.toRat := by
  cases a <;> simp [toRat]

/-- Sums that exist do not depend on how they are bracketed. -/
theorem plus_assoc {a b c x y t : Value} (hx : plus a b = some x) (ht : plus x c = some t)
    (hy : plus b c = some y) : plus a y = some t := by
  cases b with
  | infinite s =>
    obtain rfl := plus_infinite hx
    have h₁ := ht.symm.trans hy
    simp only [Option.some.injEq] at h₁
    subst h₁
    cases c with
    | finite r => cases hy; exact hx
    | infinite s' =>
      obtain rfl := plus_infinite hy
      obtain rfl : s = s' := by
        by_contra hne
        simp [plus, hne] at hy
      exact hx
  | finite q =>
    cases a with
    | finite p =>
      cases hx
      cases c with
      | finite r => cases ht; cases hy; simp [Rat.add_assoc]
      | infinite s => cases ht; cases hy; rfl
    | infinite r =>
      cases hx
      cases c with
      | finite r => cases ht; cases hy; rfl
      | infinite s => cases hy; exact ht
/-- What is not negative adds to a value. -/
theorem le_of_plus {a v r : Value} (hv : 0 ≤ v) (h : plus a v = some r) : a ≤ r := by
  cases v with
  | finite q =>
    cases a with
    | finite p =>
      cases h
      have hq : 0 ≤ q := finite_le_finite.mp hv
      exact finite_le_finite.mpr (by linarith)
    | infinite s =>
      cases h
      exact le_rfl
  | infinite s =>
    obtain rfl := plus_infinite h
    have hs : s = false := by
      cases s with
      | false => rfl
      | true => simp [le_def, toExtended, zero_def] at hv
    subst hs
    exact le_top (α := WithBot (WithTop ℚ))

/-- Taking an amount leaves no more. -/
theorem le_of_plus_neg {a v r : Value} (hv : 0 ≤ v) (h : plus a (-v) = some r) : r ≤ a := by
  cases v with
  | finite q =>
    cases a with
    | finite p =>
      rw [neg_finite, plus_finite, Option.some.injEq] at h
      have hq : (0 : ℚ) ≤ q := finite_le_finite.mp hv
      rw [← h, finite_le_finite]
      linarith
    | infinite s =>
      rw [plus_comm] at h
      exact (plus_infinite h).le
  | infinite s =>
    cases s with
    | true => exact absurd hv (not_le.mpr infinite_lt_finite)
    | false =>
      obtain rfl := plus_infinite h
      cases a with
      | finite p => exact le_of_lt infinite_lt_finite
      | infinite t =>
        cases t with
        | true => exact le_rfl
        | false => exact le_of_lt (lt_trans (infinite_lt_finite (p := 0)) finite_lt_infinite)

/-- What covers an amount is not below zero without it. -/
theorem nonneg_of_plus_neg {a v r : Value} (h : plus a (-v) = some r) (hv : v ≤ a) : 0 ≤ r := by
  cases a with
  | finite p =>
    cases v with
    | finite q =>
      rw [neg_finite, plus_finite, Option.some.injEq] at h
      rw [← h, zero_def, finite_le_finite]
      have := finite_le_finite.mp hv
      linarith
    | infinite s =>
      cases s with
      | false => exact absurd hv (not_le.mpr finite_lt_infinite)
      | true =>
        obtain rfl := plus_infinite h
        exact le_of_lt finite_lt_infinite
  | infinite s =>
    rw [plus_comm] at h
    obtain rfl := plus_infinite h
    cases s with
    | false => exact le_of_lt finite_lt_infinite
    | true =>
      cases v with
      | finite q => exact absurd hv (not_le.mpr infinite_lt_finite)
      | infinite t =>
        cases t with
        | true => cases h
        | false => exact absurd hv (not_le.mpr (lt_trans (infinite_lt_finite (p := 0)) finite_lt_infinite))

/-- What is added and then taken away leaves what there was, where both sums exist. -/
theorem eq_of_plus_neg {a v t r : Value} (h : plus a v = some t) (h' : plus t (-v) = some r) :
    r = a := by
  cases v with
  | finite q =>
    cases a with
    | finite p =>
      simp only [plus_finite, Option.some.injEq] at h
      subst h
      simp only [neg_finite, plus_finite, Option.some.injEq] at h'
      rw [← h', add_neg_cancel_right]
    | infinite s =>
      simp only [plus, Option.some.injEq] at h
      subst h
      exact (Option.some.inj h').symm
  | infinite s =>
    obtain rfl := plus_infinite h
    simp [plus] at h'

/-- Taking an amount out of a sum leaves the sum of the others, where it can be taken out. -/
theorem sum_of_plus_neg {v r : Value} (hv : v ≠ infinite true) {l : List Value}
    (h : plus (sum (v :: l)) (-v) = some r) : r = sum l :=
  eq_of_plus_neg (plus_sum_cons hv l) h

/-- The sum of values added one after the other, where it exists. -/
def total? (l : List Value) : Option Value := l.foldlM plus 0

theorem foldlM_plus_finite {p : ℚ} {l : List Value} (h : ∀ v ∈ l, v.IsFinite) :
    l.foldlM plus (finite p) = some (finite (p + (l.map toRat).sum)) := by
  induction l generalizing p with
  | nil => simp
  | cons v l ih =>
    rw [List.forall_mem_cons] at h
    rw [List.foldlM_cons, h.1.eq, plus_finite, Option.bind_eq_bind, Option.bind_some, ih h.2]
    simp [Rat.add_assoc]

/-- Rationals sum to their rational sum. -/
theorem total?_of_finite {l : List Value} (h : ∀ v ∈ l, v.IsFinite) :
    total? l = some (finite (l.map toRat).sum) := by
  rw [total?, zero_def, foldlM_plus_finite h, zero_add]

theorem foldlM_plus_infinite {a r : Value} {s : Bool} {l : List Value}
    (hs : a = infinite s ∨ infinite s ∈ l) (h : l.foldlM plus a = some r) : r = infinite s := by
  induction l generalizing a with
  | nil =>
    cases h
    simpa using hs
  | cons v l ih =>
    rw [List.foldlM_cons, Option.bind_eq_bind, Option.bind_eq_some_iff] at h
    obtain ⟨b, hb, h⟩ := h
    rcases hs with rfl | hs
    · rw [plus_comm] at hb
      exact ih (Or.inl (plus_infinite hb)) h
    · rcases List.mem_cons.mp hs with rfl | hs
      · exact ih (Or.inl (plus_infinite hb)) h
      · exact ih (Or.inr hs) h

/-- A sum with an infinity among its terms is that infinity. -/
theorem total?_infinite {r : Value} {s : Bool} {l : List Value} (hs : infinite s ∈ l)
    (h : total? l = some r) : r = infinite s :=
  foldlM_plus_infinite (Or.inr hs) h

/-- Infinities of one sign can be added. -/
theorem foldlM_plus_isSome {a : Value} {l : List Value} (ha : a ≠ infinite true)
    (hl : infinite true ∉ l) : ∃ r, l.foldlM plus a = some r := by
  induction l generalizing a with
  | nil => exact ⟨a, rfl⟩
  | cons v l ih =>
    rw [List.mem_cons, not_or] at hl
    have hb : ∃ b, plus a v = some b ∧ b ≠ infinite true := by
      cases a with
      | finite p => cases v with
        | finite q => exact ⟨_, rfl, by simp⟩
        | infinite t => exact ⟨_, rfl, fun h => hl.1 h.symm⟩
      | infinite t => cases v with
        | finite q => exact ⟨_, rfl, ha⟩
        | infinite t' =>
          obtain rfl : t = false := by simpa using ha
          obtain rfl : t' = false := by simpa using hl.1
          exact ⟨_, rfl, by simp⟩
    obtain ⟨b, hb, hne⟩ := hb
    obtain ⟨r, hr⟩ := ih hne hl.2
    exact ⟨r, by rw [List.foldlM_cons, hb]; exact hr⟩

end Value

/-- The precision and the exponent range of an arithmetic context. -/
structure DecimalContext where
  /-- The most digits a coefficient holds. -/
  prec : ℕ
  /-- The least adjusted exponent. -/
  emin : ℤ
  /-- The greatest adjusted exponent. -/
  emax : ℤ

namespace DecimalContext

/-- The least exponent of a result. -/
def etiny (c : DecimalContext) : ℤ := c.emin - c.prec + 1

/-- Whether a rational is a coefficient of at most `prec` digits times a power of ten in range. -/
def Representable (c : DecimalContext) (q : ℚ) : Prop :=
  q = 0 ∨ Int.log 10 |q| ≤ c.emax ∧
    (q / 10 ^ max (Int.log 10 |q| - c.prec + 1) c.etiny).den = 1

instance (c : DecimalContext) (q : ℚ) : Decidable (c.Representable q) := by
  unfold Representable; infer_instance

/-- The exact sum, or nothing where it does not exist or would be rounded. -/
def add (c : DecimalContext) (a b : Value) : Option Value :=
  match a.plus b with
  | none => none
  | some (.infinite s) => some (.infinite s)
  | some (.finite q) => if c.Representable q then some (.finite q) else none

/-- A sum that is given is the exact one. -/
theorem add_eq_some {c : DecimalContext} {a b r : Value} (h : c.add a b = some r) :
    a.plus b = some r := by
  unfold add at h
  split at h
  · cases h
  · rename_i s hs
    rw [hs]; exact h
  · rename_i q hq
    split at h
    · rw [hq]; exact h
    · cases h

theorem add_comm (c : DecimalContext) (a b : Value) : c.add a b = c.add b a := by
  unfold add
  rw [Value.plus_comm]

end DecimalContext

/-- How a rational is taken to an integer. -/
inductive Rounding
  | floor
  | ceiling
  | halfEven
deriving DecidableEq

namespace Rounding

/-- The integer a rational rounds to. -/
def round (r : Rounding) (q : ℚ) : ℤ :=
  match r with
  | .floor => ⌊q⌋
  | .ceiling => ⌈q⌉
  | .halfEven =>
    let below := ⌊q⌋
    if q - below < 1 / 2 then below
    else if 1 / 2 < q - below then below + 1
    else if below % 2 = 0 then below else below + 1

@[simp] theorem round_intCast (r : Rounding) (n : ℤ) : r.round n = n := by
  cases r <;> simp [round]

end Rounding

namespace Decimal

/-- The rational a finite datum stands for. -/
def rat (negative : Bool) (coefficient : ℕ) (exponent : ℤ) : ℚ :=
  (if negative then -(coefficient : ℚ) else coefficient) * 10 ^ exponent

/-- What the datum stands for, if it is a number. -/
def value? : Decimal → Option Value
  | finite s c e => some (.finite (rat s c e))
  | infinity s => some (.infinite s)
  | nan _ _ _ => none

/-- What a datum stands for, zero where it stands for nothing. -/
def worth (d : Decimal) : Value := d.value?.getD 0

/-- Equality of data as numbers. A quiet NaN equals nothing; comparing a signalling one is an
invalid operation. -/
def eq? (a b : Decimal) : Option Bool :=
  match a, b with
  | nan _ true _, _ => none
  | _, nan _ true _ => none
  | a, b =>
    match a.value?, b.value? with
    | some x, some y => some (decide (x = y))
    | _, _ => some false

/-- Data that are equal as numbers stand for the same. -/
theorem value?_eq_of_eq? {a b : Decimal} (h : a.eq? b = some true) : a.value? = b.value? := by
  match a, b with
  | finite .., finite .. | infinity _, infinity _ => simpa [eq?, value?] using h
  | finite .., infinity _ | infinity _, finite .. => simp [eq?, value?] at h
  | finite .., nan _ signaling _ | infinity _, nan _ signaling _ =>
    cases signaling <;> simp [eq?, value?] at h
  | nan _ true _, _ => simp [eq?] at h
  | nan _ false _, finite .. | nan _ false _, infinity _ => simp [eq?, value?] at h
  | nan _ false _, nan _ signaling _ => cases signaling <;> simp [eq?, value?] at h

/-- The datum for a whole number. -/
def ofInt (n : ℤ) : Decimal := finite (decide (n < 0)) n.natAbs 0

/-- The datum rounded to `places` decimal places, or nothing where the result does not fit the
precision, the datum is infinite, or it is a signalling NaN. A quiet NaN is handed on. -/
def quantize (prec : ℕ) (places : ℕ) (r : Rounding) : Decimal → Option Decimal
  | finite s c e =>
    let n := r.round (rat s c e * 10 ^ places)
    if n.natAbs < 10 ^ prec then some (finite s n.natAbs (-places)) else none
  | infinity _ => none
  | nan s false p => some (nan s false p)
  | nan _ true _ => none

/-- A quantized number keeps its sign; its coefficient is what the scaled number rounds to. -/
theorem quantize_finite_eq_some {prec places : ℕ} {r : Rounding} {s : Bool} {c : ℕ} {e : ℤ} {d : Decimal}
    (h : quantize prec places r (finite s c e) = some d) :
    d = finite s (r.round (rat s c e * 10 ^ places)).natAbs (-places) ∧
      (r.round (rat s c e * 10 ^ places)).natAbs < 10 ^ prec := by
  simp only [quantize] at h
  split at h
  · rename_i hlt
    exact ⟨(Option.some.inj h).symm, hlt⟩
  · cases h

end Decimal

end Foundation
