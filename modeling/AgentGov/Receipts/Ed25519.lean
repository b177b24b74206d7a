import AgentGov.Foundation.Sha512
import AgentGov.Receipts.Curve25519

/-!
# Verifying a signature

Points are read from their encodings, and a signature is checked by one equation of the group
(`src/src/agentgov/receipts/_ed25519.py`, lines 54–109).

## Main definitions

* `AgentGov.Receipts.Ed25519.recoverX`, `AgentGov.Receipts.Ed25519.decompress`: a point from its
  encoding.
* `AgentGov.Receipts.Ed25519.verify`: whether a signature is one of a message.
* `AgentGov.Receipts.Ed25519.encode`: the canonical encoding of a point.
* `AgentGov.Receipts.Ed25519.Signed`: what a signature is to be.

## Main results

* `AgentGov.Receipts.Ed25519.decompress_iff`: what is read is the point that is encoded.
* `AgentGov.Receipts.Ed25519.addOrderOf_basePoint`: the order of the base point.
* `AgentGov.Receipts.Ed25519.verifies`: the arithmetic is that of the group, and what verifies is
  signed.
-/

open Foundation

namespace AgentGov.Receipts.Ed25519

/-! ### Bytes -/

/-- `int.from_bytes(bs, "little")`. -/
def fromLittle (bs : List Byte) : ℕ := bs.foldr (fun b n => b.val + 256 * n) 0

/-- The so many bytes of a number, the least significant first. -/
def toLittle : ℕ → ℕ → List Byte
  | 0, _ => []
  | length + 1, n => Fin.ofNat 256 n :: toLittle length (n / 256)

theorem length_toLittle (length n : ℕ) : (toLittle length n).length = length := by
  induction length generalizing n with
  | zero => rfl
  | succ length ih => rw [toLittle, List.length_cons, ih]

theorem fromLittle_lt (bs : List Byte) : fromLittle bs < 256 ^ bs.length := by
  induction bs with
  | nil => exact Nat.one_pos
  | cons b bs ih =>
    have hb := b.isLt
    rw [fromLittle, List.foldr_cons, ← fromLittle, List.length_cons, pow_succ]
    omega

theorem fromLittle_toLittle {length n : ℕ} (h : n < 256 ^ length) :
    fromLittle (toLittle length n) = n := by
  induction length generalizing n with
  | zero => exact (Nat.lt_one_iff.mp h).symm
  | succ length ih =>
    have hdiv : n / 256 < 256 ^ length := by
      rw [pow_succ] at h
      omega
    rw [toLittle, fromLittle, List.foldr_cons, ← fromLittle, ih hdiv]
    exact Nat.mod_add_div n 256

theorem toLittle_fromLittle (bs : List Byte) : toLittle bs.length (fromLittle bs) = bs := by
  induction bs with
  | nil => rfl
  | cons b bs ih =>
    have hb := b.isLt
    have hdiv : (b.val + 256 * fromLittle bs) / 256 = fromLittle bs := by omega
    rw [fromLittle, List.foldr_cons, ← fromLittle, List.length_cons, toLittle, hdiv, ih]
    congr 1
    ext
    simp [Fin.ofNat]

/-! ### Reading points -/

/-- `_recover_x`. -/
def recoverX (y sign : ℤ) : Option ℤ :=
  if fieldPrime ≤ y then none
  else
    let x2 := (y * y - 1) * pow (coefficientD * y * y + 1) (fieldPrime - 2) fieldPrime % fieldPrime
    if x2 = 0 then (if sign ≠ 0 then none else some 0)
    else
      let x := pow x2 ((fieldPrime + 3) / 8) fieldPrime
      let x := if (x * x - x2) % fieldPrime ≠ 0 then x * sqrtM1 % fieldPrime else x
      if (x * x - x2) % fieldPrime ≠ 0 then none
      else some (if x % 2 ≠ sign then fieldPrime - x else x)

/-- `_decompress`. -/
def decompress (encoded : List Byte) : Option (Extended ℤ) :=
  let y : ℕ := fromLittle encoded
  let sign : ℕ := y / 2 ^ 255
  let y : ℕ := y % 2 ^ 255
  match recoverX y sign with
  | none => none
  | some x => some ⟨x, y, 1, x * y % fieldPrime⟩

/-- `_G_Y`. -/
def baseY : ℤ := 4 * pow 5 (fieldPrime - 2) fieldPrime % fieldPrime

/-- `_G_X`, which is asserted to be there. -/
def baseX : Option ℤ := recoverX baseY 0

/-- `_BASE`. -/
def base : Extended ℤ := ⟨baseX.getD 0, baseY, 1, baseX.getD 0 * baseY % fieldPrime⟩

/-- `verify`. -/
def verify (publicKey message signature : List Byte) : Bool :=
  if publicKey.length ≠ 32 ∨ signature.length ≠ 64 then false
  else
    match decompress publicKey with
    | none => false
    | some a =>
      let rBytes := signature.take 32
      let sBytes := signature.drop 32
      match decompress rBytes with
      | none => false
      | some r =>
        let s := fromLittle sBytes
        if groupOrder ≤ s then false
        else
          let k := fromLittle (sha512 (rBytes ++ publicKey ++ message)) % groupOrder
          equal (multiply s base) (add r (multiply k a))

/-! ### Roots -/

section Roots

/-- What the square of the first coordinate is, given the second. -/
def squareOfX (y : Field25519) : Field25519 := (y * y - 1) / (coefficientD * y * y + 1)

/-- The denominator is never zero, since `-1` is a square and `d` is none. -/
theorem denominator_ne (y : Field25519) : (coefficientD : Field25519) * y * y + 1 ≠ 0 := by
  intro hzero
  have hy : y ≠ 0 := by
    rintro rfl
    simp at hzero
  refine not_isSquare_d ⟨sqrtM1 / y, ?_⟩
  rw [div_mul_div_comm, sqrtM1_sq, eq_div_iff (mul_ne_zero hy hy)]
  linear_combination hzero

theorem equation_iff (x y : Field25519) : curve.Equation x y ↔ x * x = squareOfX y := by
  have hden := denominator_ne y
  rw [squareOfX, eq_div_iff hden]
  change -1 * x ^ 2 + y ^ 2 = 1 + coefficientD * x ^ 2 * y ^ 2 ↔ _
  constructor
  · intro h
    linear_combination -h
  · intro h
    linear_combination -h

/-- The square that is computed. -/
theorem squareOfX_cast (y : ℤ) :
    (((y * y - 1) * pow (coefficientD * y * y + 1) (fieldPrime - 2) fieldPrime % fieldPrime : ℤ) :
      Field25519) = squareOfX y := by
  rw [ZMod.intCast_mod, Int.cast_mul, pow_inverse, squareOfX, div_eq_mul_inv]
  push_cast
  rfl

/-- An integer below the prime is the value of the number it stands for. -/
theorem val_cast {x : ℤ} (hpos : 0 ≤ x) (hlt : x < fieldPrime) :
    ((x : Field25519).val : ℤ) = x := by
  rw [ZMod.val_intCast, Int.emod_eq_of_lt hpos hlt]

theorem odd_fieldPrime : fieldPrime % 2 = 1 := by decide +kernel

/-- The two roots of a number differ in parity. -/
theorem val_neg_parity {x : Field25519} (h : x ≠ 0) : (-x).val = fieldPrime - x.val ∧
    (-x).val % 2 ≠ x.val % 2 := by
  have hval : (-x).val = fieldPrime - x.val := by rw [ZMod.neg_val, if_neg h]
  have hlt := ZMod.val_lt x
  have hodd := odd_fieldPrime
  exact ⟨hval, by omega⟩

/-- The root that `_recover_x` tries for. -/
def root (x2 : ℤ) : ℤ :=
  let x := pow x2 ((fieldPrime + 3) / 8) fieldPrime
  if (x * x - x2) % fieldPrime ≠ 0 then x * sqrtM1 % fieldPrime else x

theorem pow_range (base : ℤ) (exponent : ℕ) :
    0 ≤ pow base exponent fieldPrime ∧ pow base exponent fieldPrime < fieldPrime := by
  rw [pow, powMod_eq]
  exact ⟨Int.natCast_nonneg _, by exact_mod_cast Nat.mod_lt _ (by simp [fieldPrime])⟩

theorem emod_range (n : ℤ) : 0 ≤ n % fieldPrime ∧ n % fieldPrime < fieldPrime :=
  ⟨Int.emod_nonneg n (by simp [fieldPrime]), Int.emod_lt_of_pos n (by simp [fieldPrime])⟩

theorem root_range (x2 : ℤ) : 0 ≤ root x2 ∧ root x2 < fieldPrime := by
  rw [root]
  split_ifs
  · exact emod_range _
  · exact pow_range x2 _

/-- Whether the square of an integer is a number of the field. -/
theorem sub_emod_iff (x x2 : ℤ) :
    (x * x - x2) % fieldPrime = 0 ↔ (x : Field25519) * x = (x2 : Field25519) := by
  rw [← cast_eq_zero_iff]
  push_cast
  rw [sub_eq_zero]

/-- What is tried for is a root, where there is one. -/
theorem root_sq {x2 : ℤ} (hne : (x2 : Field25519) ≠ 0) :
    (root x2 : Field25519) * root x2 = x2 ↔ IsSquare (x2 : Field25519) := by
  refine ⟨fun h => ⟨_, h.symm⟩, fun hsquare => ?_⟩
  have hfirst := pow_cast x2 ((fieldPrime + 3) / 8)
  have hcandidate := candidate_sq (p := fieldPrime) (by decide +kernel) hsquare hne
  rw [← hfirst, sq] at hcandidate
  simp only [root, ne_eq, sub_emod_iff, ite_not]
  split_ifs with h
  · exact h
  · rw [ZMod.intCast_mod, Int.cast_mul]
    have hminus := hcandidate.resolve_left h
    linear_combination (sqrtM1 * sqrtM1 : Field25519) * hminus - x2 * sqrtM1_sq

/-- Of the two roots of a square, one has the given parity. -/
theorem root_of_parity {r : Field25519} (hne : r ≠ 0) {sign : ℤ} (hsign : sign = 0 ∨ sign = 1)
    (x : ℤ) : (∃ s : Field25519, s * s = r * r ∧ (s.val : ℤ) % 2 = sign ∧ x = s.val) ↔
      (if (r.val : ℤ) % 2 ≠ sign then fieldPrime - r.val else r.val : ℤ) = x := by
  obtain ⟨hneg, hparity⟩ := val_neg_parity hne
  have hlt := ZMod.val_lt r
  constructor
  · rintro ⟨s, hs, hsparity, rfl⟩
    rcases mul_self_eq_mul_self_iff.mp hs with rfl | rfl
    · rw [if_neg (not_not.mpr hsparity)]
    · rw [if_pos (by omega), hneg]
      omega
  · intro hx
    split_ifs at hx with h
    · exact ⟨-r, by ring, by omega, by omega⟩
    · exact ⟨r, rfl, not_not.mp h, hx.symm⟩

end Roots

/-! ### What is read -/

/-- `_recover_x` gives the first coordinate of the point of the curve with the given second
coordinate and sign, if there is one. -/
theorem recoverX_iff {y sign : ℤ} (hy : 0 ≤ y) (hsign : sign = 0 ∨ sign = 1) (x : ℤ) :
    recoverX y sign = some x ↔
      ∃ P : curve.Point, (P.y.val : ℤ) = y ∧ (P.x.val : ℤ) % 2 = sign ∧ x = P.x.val := by
  by_cases hlt : y < fieldPrime
  swap
  · rw [recoverX, if_pos (not_lt.mp hlt)]
    refine iff_of_false (by simp) ?_
    rintro ⟨P, hP, -⟩
    have hval := ZMod.val_lt P.y
    omega
  -- a point of that second coordinate is a root of the square
  have hpoint : (∃ P : curve.Point, (P.y.val : ℤ) = y ∧ (P.x.val : ℤ) % 2 = sign ∧
      x = P.x.val) ↔ ∃ X : Field25519, X * X = squareOfX y ∧ (X.val : ℤ) % 2 = sign ∧
        x = X.val := by
    constructor
    · rintro ⟨P, hP, hparity, rfl⟩
      have hPy : P.y = (y : Field25519) := by
        rw [← hP, Int.cast_natCast, ZMod.natCast_zmod_val]
      exact ⟨P.x, hPy ▸ (equation_iff _ _).mp P.on_curve, hparity, rfl⟩
    · rintro ⟨X, hX, hparity, rfl⟩
      exact ⟨⟨X, y, (equation_iff _ _).mpr hX⟩, val_cast hy hlt, hparity, rfl⟩
  rw [hpoint, recoverX, if_neg (not_le.mpr hlt)]
  dsimp only
  have hcast := squareOfX_cast y
  have hrange := emod_range
    ((y * y - 1) * pow (coefficientD * y * y + 1) (fieldPrime - 2) fieldPrime)
  generalize (y * y - 1) * pow (coefficientD * y * y + 1) (fieldPrime - 2) fieldPrime %
    fieldPrime = x2 at hcast hrange ⊢
  change (if x2 = 0 then (if sign ≠ 0 then none else some 0)
    else if (root x2 * root x2 - x2) % fieldPrime ≠ 0 then none
    else some (if root x2 % 2 ≠ sign then fieldPrime - root x2 else root x2)) = some x ↔ _
  rw [← hcast]
  split_ifs with hzero hone hnone hparity
  · -- zero has no odd root
    refine iff_of_false (by simp) ?_
    rintro ⟨X, hX, hparity, -⟩
    rw [hzero, Int.cast_zero, mul_self_eq_zero] at hX
    rw [hX, ZMod.val_zero] at hparity
    exact hone hparity.symm
  · rw [hzero, Int.cast_zero, Option.some.injEq]
    constructor
    · rintro rfl
      exact ⟨0, by simp, by simpa using (not_not.mp hone).symm, by simp⟩
    · rintro ⟨X, hX, -, rfl⟩
      rw [mul_self_eq_zero.mp hX, ZMod.val_zero, Nat.cast_zero]
  all_goals
    have hne : (x2 : Field25519) ≠ 0 := by
      rw [ne_eq, cast_eq_zero_iff, Int.emod_eq_of_lt hrange.1 hrange.2]
      exact hzero
  · refine iff_of_false (by simp) ?_
    rintro ⟨X, hX, -⟩
    exact hnone ((sub_emod_iff _ _).mpr ((root_sq hne).mpr ⟨X, hX.symm⟩))
  all_goals
    have hsq : (root x2 : Field25519) * root x2 = x2 := (sub_emod_iff _ _).mp (not_not.mp hnone)
    have hroot : (root x2 : Field25519) ≠ 0 := fun h => hne (by rw [← hsq, h, zero_mul])
    have hroots := root_of_parity hroot hsign x
    rw [val_cast (root_range x2).1 (root_range x2).2, hsq] at hroots
    rw [hroots, Option.some.injEq]
    simp [hparity]

/-! ### Encodings -/

/-- The canonical encoding of a point: its second coordinate, with the parity of the first in the
highest bit. -/
def encode (P : curve.Point) : List Byte := toLittle 32 (P.y.val + 2 ^ 255 * (P.x.val % 2))

/-- The coordinates a point is read as. -/
def coordinates (P : curve.Point) : Extended ℤ :=
  ⟨P.x.val, P.y.val, 1, P.x.val * P.y.val % fieldPrime⟩

theorem ofPoint_coordinates (P : curve.Point) : OfPoint (coordinates P) P := by
  have hmap : (coordinates P).map (Int.cast : ℤ → Field25519) = ⟨P.x, P.y, 1, P.x * P.y⟩ := by
    ext <;> simp [coordinates, Extended.map]
  rw [OfPoint, hmap]
  exact Extended.represents_point P

theorem coordinates_injective : Function.Injective coordinates := by
  intro P Q h
  rw [coordinates, coordinates, Extended.mk.injEq, Nat.cast_inj, Nat.cast_inj] at h
  ext
  · exact ZMod.val_injective fieldPrime h.1
  · exact ZMod.val_injective fieldPrime h.2.1

theorem val_lt (x : Field25519) : x.val < 2 ^ 255 :=
  (ZMod.val_lt x).trans_le (by simp [fieldPrime])

/-- The encoding of a point, told by its number. -/
theorem encode_iff {encoded : List Byte} (h : encoded.length = 32) (P : curve.Point) :
    encode P = encoded ↔
      P.y.val = fromLittle encoded % 2 ^ 255 ∧ P.x.val % 2 = fromLittle encoded / 2 ^ 255 := by
  have hy := val_lt P.y
  have hnumber : P.y.val + 2 ^ 255 * (P.x.val % 2) < 256 ^ 32 := by
    have hparity := Nat.mod_lt P.x.val Nat.two_pos
    omega
  have hbytes : encode P = encoded ↔
      P.y.val + 2 ^ 255 * (P.x.val % 2) = fromLittle encoded := by
    constructor
    · rintro rfl
      exact (fromLittle_toLittle hnumber).symm
    · intro heq
      rw [encode, heq, ← h, toLittle_fromLittle]
  rw [hbytes]
  omega

/-- `_decompress` gives the point whose canonical encoding it was given, or nothing. -/
theorem decompress_iff {encoded : List Byte} (h : encoded.length = 32) (p : Extended ℤ) :
    decompress encoded = some p ↔ ∃ P : curve.Point, encode P = encoded ∧ p = coordinates P := by
  have hlt := fromLittle_lt encoded
  rw [h] at hlt
  have hsign : ((fromLittle encoded / 2 ^ 255 : ℕ) : ℤ) = 0 ∨
      ((fromLittle encoded / 2 ^ 255 : ℕ) : ℤ) = 1 := by
    omega
  have hrecover := recoverX_iff (Int.natCast_nonneg (fromLittle encoded % 2 ^ 255)) hsign
  rw [decompress]
  cases hx : recoverX (fromLittle encoded % 2 ^ 255 : ℕ) (fromLittle encoded / 2 ^ 255 : ℕ) with
  | none =>
    refine iff_of_false (by simp) ?_
    rintro ⟨P, hP, -⟩
    obtain ⟨hy, hparity⟩ := (encode_iff h P).mp hP
    have hsome := (hrecover P.x.val).mpr ⟨P, by rw [hy], by exact_mod_cast hparity, rfl⟩
    cases hx.symm.trans hsome
  | some x =>
    obtain ⟨P, hy, hparity, rfl⟩ := (hrecover x).mp hx
    have hP : encode P = encoded :=
      (encode_iff h P).mpr ⟨by exact_mod_cast hy, by exact_mod_cast hparity⟩
    rw [Option.some.injEq, ← hy]
    constructor
    · rintro rfl
      exact ⟨P, hP, rfl⟩
    · rintro ⟨Q, hQ, rfl⟩
      obtain ⟨hQy, hQparity⟩ := (encode_iff h Q).mp hQ
      have hsome := (hrecover Q.x.val).mpr ⟨Q, by rw [hQy], by exact_mod_cast hQparity, rfl⟩
      have hxval := Option.some.inj (hx.symm.trans hsome)
      have hyval : (P.y.val : ℤ) = Q.y.val := by rw [hy, hQy]
      rw [coordinates, ← hxval, ← hyval]

/-- No two points are encoded alike. -/
theorem encode_injective : Function.Injective encode := by
  intro P Q h
  have hlength : (encode Q).length = 32 := length_toLittle _ _
  have hP := (decompress_iff hlength _).mpr ⟨P, h, rfl⟩
  have hQ := (decompress_iff hlength _).mpr ⟨Q, rfl, rfl⟩
  exact coordinates_injective (Option.some.inj (hP.symm.trans hQ))

/-! ### The base point -/

/-- The coordinates of the base point. -/
def basePointX : ℤ := 15112221349535400772501151409588531511454012693041857206046113283949847762202

def basePointY : ℤ := 46316835694926478169428394003475163141307993866256225615783033603165251855960

/-- The base point: its second coordinate is `4/5`, its first is even. -/
def basePoint : curve.Point where
  x := basePointX
  y := basePointY
  on_curve := by
    have hzero : (-basePointX * basePointX + basePointY * basePointY - 1 -
        coefficientD * basePointX * basePointX * basePointY * basePointY) % fieldPrime = 0 := by
      decide +kernel
    rw [← cast_eq_zero_iff] at hzero
    push_cast at hzero
    change (-1 : Field25519) * _ ^ 2 + _ ^ 2 = 1 + coefficientD * _ ^ 2 * _ ^ 2
    linear_combination hzero

/-- What `_BASE` is computed to are the coordinates of the base point. -/
theorem base_eq : base = coordinates basePoint := by
  have hx : (basePoint.x.val : ℤ) = basePointX := val_cast (by decide) (by decide +kernel)
  have hy : (basePoint.y.val : ℤ) = basePointY := val_cast (by decide) (by decide +kernel)
  rw [coordinates, hx, hy]
  decide +kernel

theorem ofPoint_base : OfPoint base basePoint := base_eq ▸ ofPoint_coordinates basePoint

/-- The group order is that of the base point. -/
theorem addOrderOf_basePoint : addOrderOf basePoint = groupOrder := by
  refine addOrderOf_eq_prime ?_ ?_
  · refine ((ofPoint_base.multiply groupOrder).equal_iff .identity).mp ?_
    decide +kernel
  · intro hzero
    have hequal := (ofPoint_base.equal_iff .identity).mpr hzero
    have hne : equal base identity = false := by decide +kernel
    exact Bool.noConfusion (hequal.symm.trans hne)

/-! ### Signatures -/

/-- Whether a signature is one of a message under a key: both have their length, the key and `R`
are the canonical encodings of points, `S` is below the order `L` of the base point, and
`[S]B = R + [k]A` with `k` the digest modulo `L`. -/
structure Signed (publicKey message signature : List Byte) : Prop where
  length_key : publicKey.length = 32
  length_signature : signature.length = 64
  below : fromLittle (signature.drop 32) < addOrderOf basePoint
  equation : ∃ A R : curve.Point, encode A = publicKey ∧ encode R = signature.take 32 ∧
    fromLittle (signature.drop 32) • basePoint =
      R + (fromLittle (sha512 (signature.take 32 ++ publicKey ++ message)) %
        addOrderOf basePoint) • A

/-- What verifies is signed, and nothing else. -/
theorem verify_iff (publicKey message signature : List Byte) :
    verify publicKey message signature = true ↔ Signed publicKey message signature := by
  by_cases hlength : publicKey.length ≠ 32 ∨ signature.length ≠ 64
  · rw [verify, if_pos hlength]
    refine iff_of_false Bool.false_ne_true fun h => ?_
    rcases hlength with hkey | hsignature
    · exact hkey h.length_key
    · exact hsignature h.length_signature
  obtain ⟨hkey, hsignature⟩ := not_or.mp hlength
  rw [not_not] at hkey hsignature
  have htake : (signature.take 32).length = 32 := by rw [List.length_take, hsignature]; rfl
  have hdecompressA := decompress_iff hkey
  have hdecompressR := decompress_iff htake
  rw [verify, if_neg hlength]
  cases ha : decompress publicKey with
  | none =>
    refine iff_of_false Bool.false_ne_true fun h => ?_
    obtain ⟨A, R, hA, -, -⟩ := h.equation
    cases ha.symm.trans ((hdecompressA _).mpr ⟨A, hA, rfl⟩)
  | some a =>
    obtain ⟨A, hA, rfl⟩ := (hdecompressA a).mp ha
    dsimp only
    cases hr : decompress (signature.take 32) with
    | none =>
      refine iff_of_false Bool.false_ne_true fun h => ?_
      obtain ⟨-, R, -, hR, -⟩ := h.equation
      cases hr.symm.trans ((hdecompressR _).mpr ⟨R, hR, rfl⟩)
    | some r =>
      obtain ⟨R, hR, rfl⟩ := (hdecompressR r).mp hr
      dsimp only
      rw [← addOrderOf_basePoint]
      by_cases habove : addOrderOf basePoint ≤ fromLittle (signature.drop 32)
      · rw [if_pos habove]
        exact iff_of_false Bool.false_ne_true fun h => habove.not_gt h.below
      rw [if_neg habove, (ofPoint_base.multiply _).equal_iff
        ((ofPoint_coordinates R).add ((ofPoint_coordinates A).multiply _))]
      constructor
      · exact fun h => ⟨hkey, hsignature, not_le.mp habove, A, R, hA, hR, h⟩
      · rintro ⟨-, -, -, A', R', hA', hR', h⟩
        rw [encode_injective (hA.trans hA'.symm), encode_injective (hR.trans hR'.symm)]
        exact h

/-- The arithmetic is that of the group of the curve, points are read from their canonical
encodings alone, and a signature verifies exactly where it is one. -/
theorem verifies :
    (∀ {p q : Extended ℤ} {P Q : curve.Point}, OfPoint p P → OfPoint q Q →
      OfPoint (add p q) (P + Q)) ∧
    (∀ {p : Extended ℤ} {P : curve.Point} (scalar : ℕ), OfPoint p P →
      OfPoint (multiply scalar p) (scalar • P)) ∧
    (∀ encoded : List Byte, encoded.length = 32 → ∀ p : Extended ℤ,
      decompress encoded = some p ↔
        ∃ P : curve.Point, encode P = encoded ∧ p = coordinates P ∧ OfPoint p P) ∧
    ∀ publicKey message signature : List Byte,
      verify publicKey message signature = true ↔ Signed publicKey message signature := by
  refine ⟨OfPoint.add, fun scalar => OfPoint.multiply scalar, fun encoded h p => ?_, verify_iff⟩
  rw [decompress_iff h]
  constructor
  · rintro ⟨P, hP, rfl⟩
    exact ⟨P, hP, rfl, ofPoint_coordinates P⟩
  · rintro ⟨P, hP, rfl, -⟩
    exact ⟨P, hP, rfl⟩

end AgentGov.Receipts.Ed25519
