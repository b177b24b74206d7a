import Mathlib.Algebra.Field.Basic
import Mathlib.Algebra.Group.Even
import Mathlib.Tactic.FieldSimp
import Mathlib.Tactic.Linarith
import Mathlib.Tactic.LinearCombination
import Mathlib.Tactic.Ring

/-!
# Twisted Edwards curves

The curve `a x² + y² = 1 + d x² y²` over a field in which `a` is a square and `d` is none. The
addition law has no exceptions there, so the points are a commutative group under one pair of
formulas, which the extended coordinates `(X : Y : Z : T)` with `x = X / Z`, `y = Y / Z` and
`x y = T / Z` compute without a division.

## Main definitions

* `Foundation.TwistedEdwards`, `Foundation.TwistedEdwards.Point`: a curve and its points.
* `Foundation.Extended`: extended coordinates, with their sum on a curve of `a = -1`.
* `Foundation.Extended.Represents`: the coordinates of a point.

## Main results

* `Foundation.TwistedEdwards.sq_ne_one`: no denominator of a sum vanishes.
* `Foundation.TwistedEdwards.addCommGroup`: the points are a group.
* `Foundation.Extended.Represents.add`: the sum of coordinates is the sum of points.
* `Foundation.Extended.Represents.eq_iff`: coordinates of one point are proportional.
-/

namespace Foundation

/-- A twisted Edwards curve whose addition law is complete. -/
structure TwistedEdwards (F : Type*) [Field F] where
  a : F
  d : F
  two_ne : (2 : F) ≠ 0
  a_ne : a ≠ 0
  isSquare_a : IsSquare a
  not_isSquare_d : ¬IsSquare d

namespace TwistedEdwards

variable {F : Type*} [Field F]

/-- The equation of the curve. -/
def Equation (E : TwistedEdwards F) (x y : F) : Prop :=
  E.a * x ^ 2 + y ^ 2 = 1 + E.d * x ^ 2 * y ^ 2

/-- A point of the curve. -/
@[ext] structure Point (E : TwistedEdwards F) where
  x : F
  y : F
  on_curve : E.Equation x y

variable {E : TwistedEdwards F}

theorem Point.equation (P : E.Point) :
    E.a * P.x ^ 2 + P.y ^ 2 = 1 + E.d * P.x ^ 2 * P.y ^ 2 := P.on_curve

/-- What decides the denominators of the sum of two points. -/
def cross (P Q : E.Point) : F := E.d * P.x * Q.x * P.y * Q.y

theorem cross_comm (P Q : E.Point) : cross P Q = cross Q P := by
  rw [cross, cross]
  ring

/-! ### No denominator vanishes -/

section Completeness

variable {P Q : E.Point}

/-- Where the denominator vanished, a square times `d` would be a square. -/
theorem square_of_cross {r s : F} (hr : E.a = r * r) (hs : s * s = 1) (h : cross P Q ^ 2 = 1) :
    (r * P.x + s * cross P Q * P.y) ^ 2 =
      E.d * (P.x * P.y * (r * Q.x + s * Q.y)) ^ 2 := by
  have hP := P.equation
  have hQ := Q.equation
  rw [cross] at h ⊢
  rw [hr] at hP hQ
  grind

/-- The products that decide the denominators are neither one nor minus one. -/
theorem sq_ne_one (P Q : E.Point) : cross P Q ^ 2 ≠ 1 := by
  intro h
  obtain ⟨r, hr⟩ := E.isSquare_a
  have hcross : cross P Q ≠ 0 := by
    intro hzero
    rw [hzero] at h
    norm_num at h
  simp only [cross, mul_ne_zero_iff] at hcross
  obtain ⟨⟨⟨⟨-, hPx⟩, hQx⟩, hPy⟩, -⟩ := hcross
  have hr0 : r ≠ 0 := fun hzero => E.a_ne (by rw [hr, hzero, zero_mul])
  -- one of the two sums is not zero, and `d` is the square of a quotient by it
  have hsquare (s : F) (hs : s * s = 1) (hne : r * Q.x + s * Q.y ≠ 0) : IsSquare E.d := by
    refine ⟨(r * P.x + s * cross P Q * P.y) / (P.x * P.y * (r * Q.x + s * Q.y)), ?_⟩
    have hden : P.x * P.y * (r * Q.x + s * Q.y) ≠ 0 := mul_ne_zero (mul_ne_zero hPx hPy) hne
    rw [div_mul_div_comm, eq_div_iff (mul_ne_zero hden hden), ← sq, ← sq,
      square_of_cross hr hs h]
  by_cases hplus : r * Q.x + 1 * Q.y = 0
  · refine E.not_isSquare_d (hsquare (-1) (by ring) fun hminus => ?_)
    have htwo : 2 * (r * Q.x) = 0 := by linear_combination hplus + hminus
    exact mul_ne_zero E.two_ne (mul_ne_zero hr0 hQx) htwo
  · exact E.not_isSquare_d (hsquare 1 (by ring) hplus)

theorem one_add_ne (P Q : E.Point) : 1 + cross P Q ≠ 0 := fun h =>
  sq_ne_one P Q (by linear_combination (cross P Q - 1) * h)

theorem one_sub_ne (P Q : E.Point) : 1 - cross P Q ≠ 0 := fun h =>
  sq_ne_one P Q (by linear_combination (-1 - cross P Q) * h)

end Completeness

/-! ### The group of points -/

section Group

/-- The numerators of the coordinates of a sum. -/
def sumX (P Q : E.Point) : F := P.x * Q.y + P.y * Q.x

def sumY (P Q : E.Point) : F := P.y * Q.y - E.a * P.x * Q.x

/-- The equation of the sum, without its denominators. -/
theorem sum_equation (P Q : E.Point) :
    E.a * (sumX P Q * (1 - cross P Q)) ^ 2 + (sumY P Q * (1 + cross P Q)) ^ 2 =
      ((1 + cross P Q) * (1 - cross P Q)) ^ 2 + E.d * (sumX P Q * sumY P Q) ^ 2 := by
  have hP := P.equation
  have hQ := Q.equation
  simp only [sumX, sumY, cross]
  grind

instance : Zero E.Point := ⟨⟨0, 1, by simp [Equation]⟩⟩

instance : Neg E.Point := ⟨fun P => ⟨-P.x, P.y, by simpa [Equation] using P.equation⟩⟩

instance : Add E.Point where
  add P Q :=
    { x := sumX P Q / (1 + cross P Q)
      y := sumY P Q / (1 - cross P Q)
      on_curve := by
        have hplus := one_add_ne P Q
        have hminus := one_sub_ne P Q
        have heq := sum_equation P Q
        rw [Equation]
        field_simp
        linear_combination heq }

@[simp] theorem zero_x : (0 : E.Point).x = 0 := rfl

@[simp] theorem zero_y : (0 : E.Point).y = 1 := rfl

@[simp] theorem neg_x (P : E.Point) : (-P).x = -P.x := rfl

@[simp] theorem neg_y (P : E.Point) : (-P).y = P.y := rfl

theorem add_x (P Q : E.Point) : (P + Q).x = sumX P Q / (1 + cross P Q) := rfl

theorem add_y (P Q : E.Point) : (P + Q).y = sumY P Q / (1 - cross P Q) := rfl

/-- The cross product of a sum and a point, without its denominators. -/
theorem cross_add (P Q R : E.Point) : cross (P + Q) R * ((1 + cross P Q) * (1 - cross P Q)) =
    E.d * sumX P Q * sumY P Q * R.x * R.y := by
  have hplus := one_add_ne P Q
  have hminus := one_sub_ne P Q
  rw [cross, add_x, add_y]
  field_simp

theorem add_comm' (P Q : E.Point) : P + Q = Q + P := by
  ext
  · rw [add_x, add_x, cross_comm Q P, sumX, sumX, add_comm, mul_comm Q.x, mul_comm Q.y]
  · rw [add_y, add_y, cross_comm Q P, sumY, sumY, mul_comm P.y, mul_right_comm]

/-- The numerator of the first coordinate of a sum with a sum. -/
theorem sumX_add (P Q R : E.Point) : sumX (P + Q) R * ((1 + cross P Q) * (1 - cross P Q)) =
    sumX P Q * (1 - cross P Q) * R.y + sumY P Q * (1 + cross P Q) * R.x := by
  have hplus := one_add_ne P Q
  have hminus := one_sub_ne P Q
  rw [sumX, add_x, add_y]
  field_simp

/-- The numerator of the second coordinate of a sum with a sum. -/
theorem sumY_add (P Q R : E.Point) : sumY (P + Q) R * ((1 + cross P Q) * (1 - cross P Q)) =
    sumY P Q * (1 + cross P Q) * R.y - E.a * (sumX P Q * (1 - cross P Q)) * R.x := by
  have hplus := one_add_ne P Q
  have hminus := one_sub_ne P Q
  rw [sumY, add_x, add_y]
  field_simp

/-- The first coordinates of the two ways to bracket a sum, without their denominators. -/
theorem assoc_x (P Q R : E.Point) :
    (sumX P Q * (1 - cross P Q) * R.y + sumY P Q * (1 + cross P Q) * R.x) *
        ((1 + cross Q R) * (1 - cross Q R) + E.d * sumX Q R * sumY Q R * P.x * P.y) =
      (sumX Q R * (1 - cross Q R) * P.y + sumY Q R * (1 + cross Q R) * P.x) *
        ((1 + cross P Q) * (1 - cross P Q) + E.d * sumX P Q * sumY P Q * R.x * R.y) := by
  have hP := P.equation
  have hQ := Q.equation
  have hR := R.equation
  simp only [sumX, sumY, cross]
  grind

/-- The second coordinates of the two ways to bracket a sum, without their denominators. -/
theorem assoc_y (P Q R : E.Point) :
    (sumY P Q * (1 + cross P Q) * R.y - E.a * (sumX P Q * (1 - cross P Q)) * R.x) *
        ((1 + cross Q R) * (1 - cross Q R) - E.d * sumX Q R * sumY Q R * P.x * P.y) =
      (sumY Q R * (1 + cross Q R) * P.y - E.a * (sumX Q R * (1 - cross Q R)) * P.x) *
        ((1 + cross P Q) * (1 - cross P Q) - E.d * sumX P Q * sumY P Q * R.x * R.y) := by
  have hP := P.equation
  have hQ := Q.equation
  have hR := R.equation
  simp only [sumX, sumY, cross]
  grind

theorem add_assoc' (P Q R : E.Point) : P + Q + R = P + (Q + R) := by
  rw [add_comm' P (Q + R)]
  have hPQ : (1 + cross P Q) * (1 - cross P Q) ≠ 0 := mul_ne_zero (one_add_ne P Q) (one_sub_ne P Q)
  have hQR : (1 + cross Q R) * (1 - cross Q R) ≠ 0 := mul_ne_zero (one_add_ne Q R) (one_sub_ne Q R)
  have hdens := mul_ne_zero hPQ hQR
  ext
  · rw [add_x, add_x, div_eq_div_iff (one_add_ne _ _) (one_add_ne _ _)]
    apply mul_right_cancel₀ hdens
    calc sumX (P + Q) R * (1 + cross (Q + R) P) *
          ((1 + cross P Q) * (1 - cross P Q) * ((1 + cross Q R) * (1 - cross Q R)))
        = sumX (P + Q) R * ((1 + cross P Q) * (1 - cross P Q)) *
            ((1 + cross Q R) * (1 - cross Q R) +
              cross (Q + R) P * ((1 + cross Q R) * (1 - cross Q R))) := by ring
      _ = sumX (Q + R) P * ((1 + cross Q R) * (1 - cross Q R)) *
            ((1 + cross P Q) * (1 - cross P Q) +
              cross (P + Q) R * ((1 + cross P Q) * (1 - cross P Q))) := by
          rw [sumX_add, sumX_add, cross_add, cross_add, assoc_x]
      _ = _ := by ring
  · rw [add_y, add_y, div_eq_div_iff (one_sub_ne _ _) (one_sub_ne _ _)]
    apply mul_right_cancel₀ hdens
    calc sumY (P + Q) R * (1 - cross (Q + R) P) *
          ((1 + cross P Q) * (1 - cross P Q) * ((1 + cross Q R) * (1 - cross Q R)))
        = sumY (P + Q) R * ((1 + cross P Q) * (1 - cross P Q)) *
            ((1 + cross Q R) * (1 - cross Q R) -
              cross (Q + R) P * ((1 + cross Q R) * (1 - cross Q R))) := by ring
      _ = sumY (Q + R) P * ((1 + cross Q R) * (1 - cross Q R)) *
            ((1 + cross P Q) * (1 - cross P Q) -
              cross (P + Q) R * ((1 + cross P Q) * (1 - cross P Q))) := by
          rw [sumY_add, sumY_add, cross_add, cross_add, assoc_y]
      _ = _ := by ring

instance addCommGroup : AddCommGroup E.Point where
  add_assoc := add_assoc'
  zero_add P := by
    ext
    · simp [add_x, sumX, cross]
    · simp [add_y, sumY, cross]
  add_zero P := by
    ext
    · simp [add_x, sumX, cross]
    · simp [add_y, sumY, cross]
  nsmul := nsmulRec
  zsmul := zsmulRec
  neg_add_cancel P := by
    ext
    · rw [add_x, sumX, neg_x, neg_y, mul_comm P.y, neg_mul, neg_add_cancel, zero_div, zero_x]
    · have hne := one_sub_ne (-P) P
      rw [add_y, div_eq_iff hne, zero_y, one_mul, sumY, cross, neg_x, neg_y]
      linear_combination P.equation
  add_comm := add_comm'

end Group

end TwistedEdwards

/-! ### Extended coordinates -/

/-- Extended coordinates `(X : Y : Z : T)`. -/
@[ext] structure Extended (R : Type*) where
  x : R
  y : R
  z : R
  t : R
deriving DecidableEq

namespace Extended

/-- The sum of coordinates on a curve of `a = -1`. -/
def sum {R : Type*} [CommRing R] (d : R) (p q : Extended R) : Extended R :=
  let a := (p.y - p.x) * (q.y - q.x)
  let b := (p.y + p.x) * (q.y + q.x)
  let c := 2 * p.t * q.t * d
  let e := 2 * p.z * q.z
  ⟨(b - a) * (e - c), (e + c) * (b + a), (e - c) * (e + c), (b - a) * (b + a)⟩

/-- The coordinates taken along a function. -/
def map {R S : Type*} (f : R → S) (p : Extended R) : Extended S := ⟨f p.x, f p.y, f p.z, f p.t⟩

variable {F : Type*} [Field F] {E : TwistedEdwards F}

/-- Whether the coordinates are those of a point. -/
structure Represents (p : Extended F) (P : E.Point) : Prop where
  z_ne : p.z ≠ 0
  x_eq : p.x = P.x * p.z
  y_eq : p.y = P.y * p.z
  t_eq : p.t = P.x * P.y * p.z

/-- The coordinates of the neutral point. -/
theorem represents_zero : Represents (⟨0, 1, 1, 0⟩ : Extended F) (0 : E.Point) :=
  ⟨one_ne_zero, by simp, by simp, by simp⟩

/-- The coordinates of a point of `Z = 1`. -/
theorem represents_point (P : E.Point) : Represents ⟨P.x, P.y, 1, P.x * P.y⟩ P :=
  ⟨one_ne_zero, by simp, by simp, by simp⟩

namespace Represents

variable {p q : Extended F} {P Q : E.Point}

/-- The sum of coordinates of two points is that of their sum, doublings included. -/
theorem add (ha : E.a = -1) (hp : p.Represents P) (hq : q.Represents Q) :
    (p.sum E.d q).Represents (P + Q) := by
  have hplus := TwistedEdwards.one_add_ne P Q
  have hminus := TwistedEdwards.one_sub_ne P Q
  have hfactor : (2 * p.z * q.z) ≠ 0 := mul_ne_zero (mul_ne_zero E.two_ne hp.z_ne) hq.z_ne
  have hminus' : 2 * p.z * q.z - 2 * p.t * q.t * E.d =
      2 * p.z * q.z * (1 - TwistedEdwards.cross P Q) := by
    rw [hp.t_eq, hq.t_eq, TwistedEdwards.cross]
    ring
  have hplus' : 2 * p.z * q.z + 2 * p.t * q.t * E.d =
      2 * p.z * q.z * (1 + TwistedEdwards.cross P Q) := by
    rw [hp.t_eq, hq.t_eq, TwistedEdwards.cross]
    ring
  have hx : (p.y + p.x) * (q.y + q.x) - (p.y - p.x) * (q.y - q.x) =
      2 * p.z * q.z * TwistedEdwards.sumX P Q := by
    rw [hp.x_eq, hp.y_eq, hq.x_eq, hq.y_eq, TwistedEdwards.sumX]
    ring
  have hy : (p.y + p.x) * (q.y + q.x) + (p.y - p.x) * (q.y - q.x) =
      2 * p.z * q.z * TwistedEdwards.sumY P Q := by
    rw [hp.x_eq, hp.y_eq, hq.x_eq, hq.y_eq, TwistedEdwards.sumY, ha]
    ring
  constructor
  · simp only [sum, hminus', hplus']
    exact mul_ne_zero (mul_ne_zero hfactor hminus) (mul_ne_zero hfactor hplus)
  all_goals
    simp only [sum, hminus', hplus', hx, hy, TwistedEdwards.add_x, TwistedEdwards.add_y]
    field_simp

/-- Two triples of coordinates are proportional exactly where their points are the same. -/
theorem eq_iff (hp : p.Represents P) (hq : q.Represents Q) :
    P = Q ↔ p.x * q.z = q.x * p.z ∧ p.y * q.z = q.y * p.z := by
  have hz : p.z * q.z ≠ 0 := mul_ne_zero hp.z_ne hq.z_ne
  have hx : p.x * q.z = q.x * p.z ↔ P.x = Q.x := by
    rw [hp.x_eq, hq.x_eq, mul_assoc, mul_assoc, mul_comm q.z, mul_left_inj' hz]
  have hy : p.y * q.z = q.y * p.z ↔ P.y = Q.y := by
    rw [hp.y_eq, hq.y_eq, mul_assoc, mul_assoc, mul_comm q.z, mul_left_inj' hz]
  rw [hx, hy, TwistedEdwards.Point.ext_iff]

end Represents

end Extended

end Foundation
