import AgentGov.Foundation.Rounding

/-!
# Numbers of so many digits

A format holds the rationals of at most so many digits of an even base, with exponents in a range.
A rational is held as the nearest of them, between two as the even one, and as none where that is
out of range.

## Main definitions

* `Foundation.RadixFormat`: a base, a number of digits and a range of exponents.
* `Foundation.RadixFormat.nearest`: what a rational is held as.
* `Foundation.RadixFormat.limit`: the least rational that is not held.
* `Foundation.binary64`: the format of double precision.

## Main results

* `Foundation.RadixFormat.nearest_eq_none_iff`: the rationals that are not held.
* `Foundation.RadixFormat.nearest_whole`: integers of few digits are held as they are.
-/

namespace Foundation

namespace Rounding

/-- What is no more than an integer is not rounded above it. -/
theorem round_halfEven_le {n : ℤ} {q : ℚ} (h : q ≤ n) : halfEven.round q ≤ n := by
  have hfloor : (⌊q⌋ : ℚ) ≤ q := Int.floor_le q
  simp only [round]
  rcases h.lt_or_eq with hlt | rfl
  · have hbelow : ⌊q⌋ < n := Int.floor_lt.mpr hlt
    split_ifs <;> omega
  · rw [Int.floor_intCast, if_pos (by norm_num)]

/-- Just what is no more than half below an even integer rounds to it or above. -/
theorem le_round_halfEven_iff {n : ℤ} (hn : Even n) {q : ℚ} :
    n ≤ halfEven.round q ↔ (n : ℚ) - 1 / 2 ≤ q := by
  have hlow : (⌊q⌋ : ℚ) ≤ q := Int.floor_le q
  have hhigh : q < ⌊q⌋ + 1 := Int.lt_floor_add_one q
  obtain ⟨k, rfl⟩ := hn
  constructor
  · intro h
    by_contra hlt
    push Not at hlt
    have hbelow : ⌊q⌋ ≤ k + k - 1 := by
      have h' : (⌊q⌋ : ℚ) < ((k + k : ℤ) : ℚ) := by linarith
      have h'' : ⌊q⌋ < k + k := by exact_mod_cast h'
      omega
    -- only from the integer just below could it round up
    have hjust : ⌊q⌋ = k + k - 1 := by
      simp only [round] at h
      split_ifs at h <;> omega
    have hcast : (⌊q⌋ : ℚ) = ((k + k : ℤ) : ℚ) - 1 := by
      rw [hjust]
      push_cast
      ring
    simp only [round] at h
    rw [if_pos (by linarith)] at h
    omega
  · intro h
    by_contra hlt
    have hbelow : ⌊q⌋ < k + k := by
      simp only [round] at hlt
      split_ifs at hlt <;> omega
    have hjust : ⌊q⌋ = k + k - 1 := by
      have h' : ((k + k : ℤ) : ℚ) - 1 / 2 < ⌊q⌋ + 1 := by linarith
      have h'' : ((k + k : ℤ) : ℚ) < ((⌊q⌋ + 2 : ℤ) : ℚ) := by
        push_cast at h' ⊢
        linarith
      have h''' : k + k < ⌊q⌋ + 2 := by exact_mod_cast h''
      omega
    have hcast : (⌊q⌋ : ℚ) = ((k + k : ℤ) : ℚ) - 1 := by
      rw [hjust]
      push_cast
      ring
    simp only [round] at hlt
    split_ifs at hlt with h₁ h₂ h₃
    · linarith
    · omega
    · omega
    · omega

theorem round_halfEven_neg (q : ℚ) : halfEven.round (-q) = -halfEven.round q := by
  have hlow : (⌊q⌋ : ℚ) ≤ q := Int.floor_le q
  have hhigh : q < ⌊q⌋ + 1 := Int.lt_floor_add_one q
  rcases hlow.lt_or_eq with hlt | heq
  · have hfloor : ⌊-q⌋ = -⌊q⌋ - 1 := by
      refine Int.floor_eq_iff.mpr ⟨?_, ?_⟩
      · push_cast
        linarith
      · push_cast
        linarith
    simp only [round, hfloor]
    push_cast
    split_ifs <;> first | omega | (exfalso; linarith)
  · rw [← heq, ← Int.cast_neg, round_intCast, round_intCast]

end Rounding

/-- A floating-point format. -/
structure RadixFormat where
  base : ℕ
  /-- The most digits a number has. -/
  digits : ℕ
  /-- The least exponent of a last digit. -/
  tiny : ℤ
  /-- The greatest exponent of a first digit. -/
  top : ℤ
  base_gt : 1 < base
  base_even : Even base
  digits_pos : 0 < digits
  top_nonneg : 0 ≤ top
  range : tiny + digits ≤ top + 1

namespace RadixFormat

variable (f : RadixFormat)

/-- The exponent of the last digit a rational is held with. -/
def exponent (q : ℚ) : ℤ := max (Int.log f.base |q| - f.digits + 1) f.tiny

/-- The nearest number of the format, or nothing where it is out of range. -/
def nearest (q : ℚ) : Option ℚ :=
  if q = 0 then some 0
  else
    let r := Rounding.halfEven.round (q / f.base ^ f.exponent q) * (f.base : ℚ) ^ f.exponent q
    if f.top < Int.log f.base |r| then none else some r

/-- The least rational that is out of range, above every number of the format. -/
def limit : ℚ := f.base ^ (f.top + 1) - f.base ^ (f.top + 1 - f.digits) / 2

@[simp] theorem nearest_zero : f.nearest 0 = some 0 := if_pos rfl

theorem exponent_neg (q : ℚ) : f.exponent (-q) = f.exponent q := by
  rw [exponent, exponent, abs_neg]

/-- A rational and its opposite are held as opposites. -/
theorem nearest_neg (q : ℚ) : f.nearest (-q) = (f.nearest q).map Neg.neg := by
  rcases eq_or_ne q 0 with rfl | hne
  · simp
  · rw [nearest, nearest, if_neg (neg_ne_zero.mpr hne), if_neg hne, exponent_neg, neg_div,
      Rounding.round_halfEven_neg]
    push_cast
    rw [neg_mul, abs_neg]
    split_ifs <;> rfl

section Range

variable {f} {q : ℚ}

theorem base_pos : (0 : ℚ) < f.base := by
  have h := f.base_gt
  exact_mod_cast (show 0 < f.base by omega)

theorem one_le_base : (1 : ℚ) ≤ f.base := by
  exact_mod_cast f.base_gt.le

theorem pow_le {m n : ℤ} (h : m ≤ n) : (f.base : ℚ) ^ m ≤ f.base ^ n :=
  zpow_le_zpow_right₀ one_le_base h

/-- A power of the base no less than the last digit's is a whole number of it. -/
theorem exists_pow {m e : ℤ} (h : e ≤ m) :
    ∃ k : ℕ, ((f.base ^ k : ℕ) : ℚ) * f.base ^ e = f.base ^ m ∧ (k : ℤ) = m - e := by
  obtain ⟨k, hk⟩ : ∃ k : ℕ, m = k + e := ⟨(m - e).toNat, by omega⟩
  refine ⟨k, ?_, by omega⟩
  rw [hk, zpow_add₀ base_pos.ne', zpow_natCast]
  push_cast
  rfl

/-- A rational is not rounded above a power of the base that is no less than it. -/
theorem round_le_pow {m e : ℤ} (hle : e ≤ m) (h : q ≤ f.base ^ m) :
    (Rounding.halfEven.round (q / f.base ^ e) : ℚ) * f.base ^ e ≤ f.base ^ m := by
  obtain ⟨k, hk, -⟩ := exists_pow (f := f) hle
  rw [← hk] at h ⊢
  refine mul_le_mul_of_nonneg_right ?_ (zpow_nonneg base_pos.le _)
  have hround : Rounding.halfEven.round (q / f.base ^ e) ≤ ((f.base ^ k : ℕ) : ℤ) := by
    refine Rounding.round_halfEven_le ((div_le_iff₀ (zpow_pos base_pos _)).mpr ?_)
    exact_mod_cast h
  exact_mod_cast hround

/-- A rational is not rounded below a power of the base that is no more than it. -/
theorem pow_le_round {m e : ℤ} (hle : e ≤ m) (h : (f.base : ℚ) ^ m ≤ q) :
    (f.base : ℚ) ^ m ≤ Rounding.halfEven.round (q / f.base ^ e) * f.base ^ e := by
  obtain ⟨k, hk, -⟩ := exists_pow (f := f) hle
  rw [← hk] at h ⊢
  refine mul_le_mul_of_nonneg_right ?_ (zpow_nonneg base_pos.le _)
  have hround : ((f.base ^ k : ℕ) : ℤ) ≤ Rounding.halfEven.round (q / f.base ^ e) := by
    refine Rounding.le_round ((le_div_iff₀ (zpow_pos base_pos _)).mpr ?_)
    exact_mod_cast h
  exact_mod_cast hround

theorem pow_top_lt_limit : (f.base : ℚ) ^ f.top < f.limit := by
  have h2 : (2 : ℚ) ≤ f.base := by exact_mod_cast f.base_gt
  have hpos : (0 : ℚ) < f.base ^ f.top := zpow_pos base_pos _
  have hdigits := f.digits_pos
  have hsmall : (f.base : ℚ) ^ (f.top + 1 - f.digits) ≤ f.base ^ f.top := pow_le (by omega)
  have hlarge : (2 : ℚ) * f.base ^ f.top ≤ f.base ^ (f.top + 1) := by
    rw [zpow_add_one₀ base_pos.ne', mul_comm]
    exact mul_le_mul_of_nonneg_left h2 hpos.le
  rw [limit]
  linarith

theorem limit_lt_pow : f.limit < (f.base : ℚ) ^ (f.top + 1) := by
  have hpos : (0 : ℚ) < f.base ^ (f.top + 1 - f.digits) := zpow_pos base_pos _
  rw [limit]
  linarith

theorem log_le_iff {r : ℚ} (hr : 0 < r) : Int.log f.base |r| ≤ f.top ↔ r < f.base ^ (f.top + 1) := by
  rw [abs_of_pos hr, Int.lt_zpow_iff_log_lt f.base_gt hr, Int.lt_add_one_iff]

/-- Just the positive rationals from the limit on are out of range. -/
theorem nearest_eq_none_iff_of_pos (hq : 0 < q) : f.nearest q = none ↔ f.limit ≤ q := by
  set e := f.exponent q with he
  set r := (Rounding.halfEven.round (q / f.base ^ e) : ℚ) * f.base ^ e with hr
  have hnone : f.nearest q = none ↔ f.top < Int.log f.base |r| := by
    rw [nearest, if_neg hq.ne']
    dsimp only
    rw [← he, ← hr]
    split_ifs with h <;> simp [h]
  have hlow : (f.base : ℚ) ^ Int.log f.base q ≤ q := Int.zpow_log_le_self f.base_gt hq
  have hhigh : q < (f.base : ℚ) ^ (Int.log f.base q + 1) := Int.lt_zpow_succ_log_self f.base_gt q
  have hrange := f.range
  have hdigits := f.digits_pos
  rw [exponent, abs_of_pos hq] at he
  rw [hnone]
  rcases lt_trichotomy (Int.log f.base q) f.top with hlt | heq | hgt
  · -- below the last power, nothing rounds out of range
    have hsmall : r ≤ f.base ^ f.top :=
      (round_le_pow (m := f.top) (by omega) (hhigh.le.trans (pow_le (by omega))))
    have hin : Int.log f.base |r| ≤ f.top := by
      rcases eq_or_ne r 0 with hzero | hne
      · rw [hzero, abs_zero, Int.log_zero_right]
        exact f.top_nonneg
      · have hround : (0 : ℤ) ≤ Rounding.halfEven.round (q / f.base ^ e) :=
          Rounding.le_round (by
            rw [Int.cast_zero]
            exact div_nonneg hq.le (zpow_nonneg base_pos.le _))
        have hpos : 0 < r := lt_of_le_of_ne (mul_nonneg (by exact_mod_cast hround)
          (zpow_nonneg base_pos.le _)) hne.symm
        exact (log_le_iff hpos).mpr (hsmall.trans_lt (pow_top_lt_limit.trans limit_lt_pow))
    refine iff_of_false hin.not_gt (not_le.mpr ?_)
    exact (hhigh.le.trans (pow_le (by omega))).trans_lt pow_top_lt_limit
  · -- at the last power, what rounds up to the next is out of range
    have hexp : e = f.top + 1 - f.digits := by omega
    have hpow : ((f.base ^ f.digits : ℕ) : ℚ) * f.base ^ e = f.base ^ (f.top + 1) := by
      rw [hexp]
      push_cast
      rw [← zpow_natCast, ← zpow_add₀ base_pos.ne']
      congr 1
      omega
    have hpos : 0 < r :=
      lt_of_lt_of_le (zpow_pos base_pos _) (pow_le_round (m := Int.log f.base q) (by omega) hlow)
    have heven : Even ((f.base ^ f.digits : ℕ) : ℤ) :=
      (Int.even_coe_nat _).mpr (f.base_even.pow_of_ne_zero hdigits.ne')
    rw [← not_le, log_le_iff hpos, not_lt, ← hpow, hr,
      mul_le_mul_iff_left₀ (zpow_pos base_pos e)]
    have hround : ((f.base ^ f.digits : ℕ) : ℚ) ≤ Rounding.halfEven.round (q / f.base ^ e) ↔
        ((f.base ^ f.digits : ℕ) : ℤ) ≤ Rounding.halfEven.round (q / f.base ^ e) := by
      rw [← Int.cast_natCast, Int.cast_le]
    rw [hround, Rounding.le_round_halfEven_iff heven, le_div_iff₀ (zpow_pos base_pos e), sub_mul,
      Int.cast_natCast, hpow, limit, hexp, one_div, inv_mul_eq_div]
  · have hlarge : (f.base : ℚ) ^ Int.log f.base q ≤ r := pow_le_round (by omega) hlow
    have hnext : (f.base : ℚ) ^ (f.top + 1) ≤ f.base ^ Int.log f.base q := pow_le (by omega)
    have hpos : 0 < r := lt_of_lt_of_le (zpow_pos base_pos _) hlarge
    refine iff_of_true ?_ (limit_lt_pow.le.trans (hnext.trans hlow))
    rw [← not_le, log_le_iff hpos, not_lt]
    exact hnext.trans hlarge

theorem limit_pos : 0 < f.limit := (zpow_pos base_pos _).trans pow_top_lt_limit

/-- Just the rationals as far from zero as the limit are out of range. -/
theorem nearest_eq_none_iff : f.nearest q = none ↔ f.limit ≤ |q| := by
  rcases lt_trichotomy q 0 with hneg | rfl | hpos
  · rw [← neg_neg q, nearest_neg, Option.map_eq_none_iff, abs_neg,
      nearest_eq_none_iff_of_pos (neg_pos.mpr hneg), abs_of_pos (neg_pos.mpr hneg)]
  · simp [limit_pos.not_ge]
  · rw [nearest_eq_none_iff_of_pos hpos, abs_of_pos hpos]

theorem exists_nearest_iff : (∃ r, f.nearest q = some r) ↔ |q| < f.limit := by
  rw [← Option.ne_none_iff_exists', ne_eq, nearest_eq_none_iff, not_le]

theorem nearest_eq_some {r : ℚ} (hne : q ≠ 0) : f.nearest q = some r ↔
    (Rounding.halfEven.round (q / f.base ^ f.exponent q) : ℚ) * f.base ^ f.exponent q = r ∧
      Int.log f.base |r| ≤ f.top := by
  rw [nearest, if_neg hne]
  dsimp only
  split_ifs with h
  · refine iff_of_false (by simp) ?_
    rintro ⟨rfl, hin⟩
    exact absurd hin (not_le.mpr h)
  · constructor
    · rintro ⟨⟩
      exact ⟨rfl, not_lt.mp h⟩
    · rintro ⟨rfl, -⟩
      rfl

theorem nearest_nonneg {r : ℚ} (hq : 0 ≤ q) (h : f.nearest q = some r) : 0 ≤ r := by
  rcases hq.eq_or_lt with rfl | hpos
  · rw [nearest_zero] at h
    exact (Option.some.inj h).le
  · obtain ⟨rfl, -⟩ := (nearest_eq_some hpos.ne').mp h
    refine mul_nonneg (Int.cast_nonneg (Rounding.le_round ?_)) (zpow_nonneg base_pos.le _)
    rw [Int.cast_zero]
    exact div_nonneg hq (zpow_nonneg base_pos.le _)

/-- The magnitude of a rational is held as that of what the rational is held as. -/
theorem nearest_abs (q : ℚ) : f.nearest |q| = (f.nearest q).map abs := by
  have hpos : ∀ {p : ℚ}, 0 ≤ p → f.nearest p = (f.nearest p).map abs := by
    intro p hp
    cases h : f.nearest p with
    | none => rfl
    | some r => rw [Option.map_some, abs_of_nonneg (nearest_nonneg hp h)]
  rcases le_total 0 q with h | h
  · rw [abs_of_nonneg h]
    exact hpos h
  · rw [abs_of_nonpos h, hpos (neg_nonneg.mpr h), nearest_neg, Option.map_map]
    congr 1
    funext r
    exact abs_neg r

/-- What a positive rational is held as is in range itself. -/
theorem lt_limit_of_nearest {r : ℚ} (hq : 0 < q) (h : f.nearest q = some r) : r < f.limit := by
  obtain ⟨hr, hin⟩ := (nearest_eq_some hq.ne').mp h
  have hlow : (f.base : ℚ) ^ Int.log f.base q ≤ q := Int.zpow_log_le_self f.base_gt hq
  have hhigh : q < (f.base : ℚ) ^ (Int.log f.base q + 1) := Int.lt_zpow_succ_log_self f.base_gt q
  have hrange := f.range
  have hdigits := f.digits_pos
  have he : f.exponent q = max (Int.log f.base q - f.digits + 1) f.tiny := by
    rw [exponent, abs_of_pos hq]
  rcases lt_or_ge (Int.log f.base q) f.top with hlt | hge
  · refine (hr ▸ round_le_pow (m := f.top) (by omega) ?_ : r ≤ _).trans_lt pow_top_lt_limit
    exact hhigh.le.trans (pow_le (by omega))
  · have hpow : (f.base : ℚ) ^ Int.log f.base q ≤ r := hr ▸ pow_le_round (by omega) hlow
    have hpos : 0 < r := (zpow_pos base_pos _).trans_le hpow
    have hlt : r < (f.base : ℚ) ^ (f.top + 1) := (log_le_iff hpos).mp hin
    have htop : Int.log f.base q = f.top := by
      have hexp : Int.log f.base q < f.top + 1 :=
        (zpow_lt_zpow_iff_right₀ (by exact_mod_cast f.base_gt)).mp (hpow.trans_lt hlt)
      omega
    have hexp : f.exponent q = f.top + 1 - f.digits := by omega
    obtain ⟨k, hk, -⟩ := exists_pow (f := f) (m := f.top + 1) (e := f.exponent q) (by omega)
    rw [← hr, ← hk] at hlt
    -- a whole number of last digits below the next power is at least one of them below it
    have hround : Rounding.halfEven.round (q / f.base ^ f.exponent q) + 1 ≤
        ((f.base ^ k : ℕ) : ℤ) := by
      have hlt' := lt_of_mul_lt_mul_right hlt (zpow_nonneg base_pos.le _)
      exact Int.add_one_le_iff.mpr (by exact_mod_cast hlt')
    have hcast : (Rounding.halfEven.round (q / f.base ^ f.exponent q) : ℚ) + 1 ≤
        ((f.base ^ k : ℕ) : ℚ) := by
      exact_mod_cast hround
    have hunit : (0 : ℚ) < f.base ^ f.exponent q := zpow_pos base_pos _
    have hmul := mul_le_mul_of_nonneg_right hcast hunit.le
    rw [add_mul, one_mul, hr, hk] at hmul
    rw [limit, ← hexp]
    linarith

end Range

/-! ### A smaller range -/

/-- The format whose numbers have a first digit by so many places lower. -/
def lowered (k : ℕ) (hk : f.tiny + f.digits ≤ f.top - k + 1) (htop : (k : ℤ) ≤ f.top) :
    RadixFormat where
  __ := f
  top := f.top - k
  top_nonneg := by omega
  range := hk

section Lowered

variable {f} {k : ℕ} {hk : f.tiny + f.digits ≤ f.top - k + 1} {htop : (k : ℤ) ≤ f.top} {q : ℚ}

theorem limit_lowered : f.base ^ k * (f.lowered k hk htop).limit = f.limit := by
  have hshift : ∀ e : ℤ, (f.base : ℚ) ^ k * f.base ^ (e - k) = f.base ^ e := by
    intro e
    rw [← zpow_natCast, ← zpow_add₀ base_pos.ne']
    congr 1
    ring
  rw [limit, limit, mul_sub, mul_div_assoc']
  change (f.base : ℚ) ^ k * f.base ^ (f.top - k + 1) -
    f.base ^ k * f.base ^ (f.top - k + 1 - f.digits) / 2 = _
  rw [show f.top - k + 1 = f.top + 1 - k by ring, hshift,
    show f.top + 1 - k - f.digits = f.top + 1 - f.digits - k by ring, hshift]

/-- What is held in the smaller range is held as the same. -/
theorem nearest_lowered {r : ℚ} (hne : q ≠ 0) : (f.lowered k hk htop).nearest q = some r ↔
    f.nearest q = some r ∧ Int.log f.base |r| ≤ f.top - k := by
  rw [nearest_eq_some hne, nearest_eq_some hne]
  constructor
  · rintro ⟨hr, hin⟩
    exact ⟨⟨hr, hin.trans (sub_le_self _ (Int.natCast_nonneg k))⟩, hin⟩
  · rintro ⟨⟨hr, -⟩, hin⟩
    exact ⟨hr, hin⟩

/-- A positive rational is held, and what it is held as is in range after so many more digits,
just where the rational is. -/
theorem exists_nearest_scaled (hk : f.tiny + f.digits ≤ f.top - k + 1) (htop : (k : ℤ) ≤ f.top)
    (hq : 0 < q) :
    (∃ r, f.nearest q = some r ∧ f.base ^ k * r < f.limit) ↔ f.base ^ k * q < f.limit := by
  have hpow : (0 : ℚ) < f.base ^ k := pow_pos base_pos k
  have hlimit : f.base ^ k * (f.lowered k hk htop).limit = f.limit := limit_lowered
  simp only [← hlimit, mul_lt_mul_iff_right₀ hpow]
  constructor
  · rintro ⟨r, hr, hlt⟩
    by_contra hge
    -- held only in the wider range, it is above the smaller one
    have hnone : (f.lowered k hk htop).nearest q = none :=
      (nearest_eq_none_iff_of_pos hq).mpr (not_lt.mp hge)
    have hout : f.top - k < Int.log f.base |r| := by
      by_contra hin
      have hsome : (f.lowered k hk htop).nearest q = some r :=
        (nearest_lowered hq.ne').mpr ⟨hr, not_lt.mp hin⟩
      rw [hnone] at hsome
      cases hsome
    rcases (nearest_nonneg hq.le hr).eq_or_lt with hzero | hpos
    · rw [← hzero, abs_zero, Int.log_zero_right] at hout
      omega
    · have hin := (log_le_iff (f := f.lowered k hk htop) hpos).mpr (hlt.trans limit_lt_pow)
      exact absurd hin (not_le.mpr hout)
  · intro hlt
    obtain ⟨r, hr⟩ := exists_nearest_iff.mpr ((abs_of_pos hq).trans_lt hlt)
    exact ⟨r, ((nearest_lowered hq.ne').mp hr).1, lt_limit_of_nearest hq hr⟩

end Lowered

/-! ### Whole numbers -/

/-- An integer of few digits is held as it is. -/
theorem nearest_whole (htiny : f.tiny ≤ 0) (hdigits : f.digits ≤ f.top + 1) {n : ℕ}
    (hn : n < f.base ^ f.digits) : f.nearest n = some (n : ℚ) := by
  rcases Nat.eq_zero_or_pos n with rfl | hpos
  · rw [Nat.cast_zero, nearest_zero]
  have hq : (0 : ℚ) < n := by exact_mod_cast hpos
  have hlog : Int.log f.base (n : ℚ) < f.digits := by
    refine (Int.lt_zpow_iff_log_lt f.base_gt hq).mp ?_
    rw [zpow_natCast]
    exact_mod_cast hn
  refine (nearest_eq_some hq.ne').mpr ⟨?_, ?_⟩
  · have he : f.exponent n ≤ 0 := by
      rw [exponent, abs_of_pos hq]
      omega
    obtain ⟨k, hk, -⟩ := exists_pow (f := f) he
    rw [zpow_zero] at hk
    have hwhole : (n : ℚ) / f.base ^ f.exponent n = ((n * f.base ^ k : ℕ) : ℤ) := by
      rw [div_eq_iff (zpow_pos base_pos _).ne', Int.cast_natCast, Nat.cast_mul, mul_assoc, hk,
        mul_one]
    rw [hwhole, Rounding.round_intCast, ← hwhole, div_mul_cancel₀ _ (zpow_pos base_pos _).ne']
  · rw [abs_of_pos hq]
    omega

end RadixFormat

/-- Double precision. -/
def binary64 : RadixFormat := ⟨2, 53, -1074, 1023, by decide, by decide, by decide, by decide,
  by decide⟩

end Foundation
