import AgentGov.Entry
import AgentGov.Receipts.Fields
import Mathlib.Data.List.TakeWhile

/-!
# The texts of fields

The ids, instants, kinds, sequences and amounts of an entry are written in letters, digits and five
marks, and are read back from what is written (`src/src/agentgov/core.py`, lines 403–533 and
697–714).

## Main definitions

* `AgentGov.isToken`: what the texts of fields are made of.
* `AgentGov.uuidOf`, `AgentGov.kindOf`, `AgentGov.directionOf`, `AgentGov.integerOf`,
  `AgentGov.decimalOf`: what is read of a field.

## Main results

* `AgentGov.decimalOf_decimalText`, `AgentGov.decimalOf_fixed`: an amount is read back.
* `AgentGov.uuidOf_text`: an id is read back.
-/

open Foundation

namespace AgentGov

/-! ### What fields are made of -/

/-- Whether a code point is a letter, a digit or one of `+-.:_`. -/
def isToken (c : CodePoint) : Bool :=
  isDigit c || (65 ≤ c.val && c.val ≤ 90) || (97 ≤ c.val && c.val ≤ 122) || c.val = 43 ||
    c.val = 45 || c.val = 46 || c.val = 58 || c.val = 95

/-- What holds of every token character holds throughout a text of them. -/
theorem all_of_token {p : CodePoint → Bool} (h : ∀ c, isToken c = true → p c = true) {t : Text}
    (ht : t.all isToken = true) : t.all p = true :=
  List.all_eq_true.mpr fun c hc => h c (List.all_eq_true.mp ht c hc)

theorem all_token_of_subset {l m : Text} (h : m.all isToken = true) (hsub : l ⊆ m) :
    l.all isToken = true :=
  List.all_eq_true.mpr fun c hc => List.all_eq_true.mp h c (hsub hc)

theorem token_of_digit {c : CodePoint} (h : isDigit c = true) : isToken c = true := by
  simp [isToken, h]

theorem token_of_hexDigit {c : CodePoint} (h : isHexDigit c = true) : isToken c = true := by
  simp only [isHexDigit, Bool.or_eq_true, Bool.and_eq_true, decide_eq_true_eq] at h
  simp only [isToken, isDigit, Bool.or_eq_true, Bool.and_eq_true, decide_eq_true_eq]
  omega

/-- The marks between the parts of fields. -/
theorem all_token_marks : (txt "-").all isToken = true ∧ (txt "T").all isToken = true ∧
    (txt ":").all isToken = true ∧ (txt ".").all isToken = true ∧ (txt "Z").all isToken = true ∧
    (txt "E").all isToken = true ∧ (txt "+").all isToken = true ∧ (txt "0.").all isToken = true ∧
    (txt "Infinity").all isToken = true ∧ (txt "sNaN").all isToken = true ∧
    (txt "NaN").all isToken = true := by
  decide

theorem all_hex_hexDigits (width n : ℕ) : (hexDigits width n).all isHexDigit = true := by
  induction width generalizing n with
  | zero => rfl
  | succ width ih =>
    rw [hexDigits, List.all_append, ih, Bool.true_and, List.all_cons, List.all_nil, Bool.and_true]
    exact isHexDigit_hexDigit _

theorem all_token_of_hex {t : Text} (h : t.all isHexDigit = true) : t.all isToken = true :=
  List.all_eq_true.mpr fun c hc => token_of_hexDigit (List.all_eq_true.mp h c hc)

theorem all_token_hexDigits (width n : ℕ) : (hexDigits width n).all isToken = true :=
  all_token_of_hex (all_hex_hexDigits width n)

theorem all_digit_decimalDigits (n : ℕ) : (decimalDigits n).all isDigit = true :=
  List.all_eq_true.mpr fun _ hc => Json.isDigit_of_mem hc

theorem all_digit_zeros (n : ℕ) : (List.replicate n (digit 0)).all isDigit = true :=
  List.all_eq_true.mpr fun c hc => by rw [List.eq_of_mem_replicate hc]; decide

theorem all_digit_paddedDigits (width n : ℕ) : (paddedDigits width n).all isDigit = true := by
  rw [paddedDigits, List.all_append, all_digit_decimalDigits, all_digit_zeros, Bool.and_self]

theorem all_token_of_digit {t : Text} (h : t.all isDigit = true) : t.all isToken = true :=
  List.all_eq_true.mpr fun c hc => token_of_digit (List.all_eq_true.mp h c hc)

theorem all_token_decimalDigits (n : ℕ) : (decimalDigits n).all isToken = true :=
  all_token_of_digit (all_digit_decimalDigits n)

theorem all_token_zeros (n : ℕ) : (List.replicate n (digit 0)).all isToken = true :=
  all_token_of_digit (all_digit_zeros n)

theorem all_token_paddedDigits (width n : ℕ) : (paddedDigits width n).all isToken = true :=
  all_token_of_digit (all_digit_paddedDigits width n)

theorem UUID.all_token_text (u : UUID) : u.text.all isToken = true := by
  have hpart (i j : ℕ) : (((hexDigits 32 u.val).drop i).take j).all isToken = true :=
    all_token_of_subset (all_token_hexDigits 32 u.val) fun _ hc =>
      List.mem_of_mem_drop (List.mem_of_mem_take hc)
  have htake := all_token_of_subset (all_token_hexDigits 32 u.val) (List.take_subset 8 _)
  have hdrop := all_token_of_subset (all_token_hexDigits 32 u.val) (List.drop_subset 20 _)
  simp only [UUID.text, List.all_append, all_token_marks, hpart, htake, hdrop, Bool.and_self]

theorem Instant.all_token_iso (t : Instant) : t.iso.all isToken = true := by
  simp only [Instant.iso, List.all_append, all_token_paddedDigits, all_token_marks, Bool.and_self]

theorem EntryType.all_token_text (k : EntryType) : k.text.all isToken = true := by
  cases k <;> decide

theorem Direction.all_token_text (d : Direction) : d.text.all isToken = true := by
  cases d <;> decide

theorem all_token_signText (s : Bool) : (signText s).all isToken = true := by
  cases s <;> decide

theorem all_token_decimalText (d : Decimal) : (decimalText d).all isToken = true := by
  have htake (n i : ℕ) := all_token_of_subset (all_token_decimalDigits n) (List.take_subset i _)
  have hdrop (n i : ℕ) := all_token_of_subset (all_token_decimalDigits n) (List.drop_subset i _)
  match d with
  | .finite s c e =>
    simp only [decimalText]
    split_ifs <;> simp only [List.all_append, all_token_signText, all_token_decimalDigits, htake,
      hdrop, all_token_zeros, all_token_marks, List.all_nil, Bool.and_self]
  | .infinity s =>
    simp only [decimalText, List.all_append, all_token_signText, all_token_marks, Bool.and_self]
  | .nan s signaling p =>
    simp only [decimalText]
    split_ifs <;> simp only [List.all_append, all_token_signText, all_token_decimalDigits,
      all_token_marks, List.all_nil, Bool.and_self]

theorem all_token_fixedText (s : Bool) (n : ℕ) : (fixedText s n).all isToken = true := by
  simp only [fixedText, List.all_append, all_token_signText, all_token_decimalDigits,
    all_token_marks, all_token_paddedDigits, Bool.and_self]

/-- What AGOV3 writes of an amount is its quantized datum, which is worth the same. -/
theorem fixed_eq_ok {d : Decimal} {t : Text} (h : fixed d = .ok t) :
    (∃ s n, d.value? = (Decimal.finite s n (-quantumPlaces)).value? ∧
      t = if n = 0 then fixedText false 0 else fixedText s n) ∨
    ∃ s p, d = .nan s false p ∧ t = decimalText d := by
  unfold fixed at h
  split at h
  · cases h
  · rename_i q hq
    split_ifs at h with hworth
    cases d with
    | finite s c e =>
      obtain ⟨rfl, -⟩ := Decimal.quantize_finite_eq_some hq
      exact Or.inl ⟨_, _, not_not.mp hworth, (Except.ok.inj h).symm⟩
    | infinity s => cases hq
    | nan s signaling p =>
      cases signaling with
      | false =>
        cases hq
        exact Or.inr ⟨s, p, rfl, (Except.ok.inj h).symm⟩
      | true => cases hq

theorem all_token_fixed {d : Decimal} {t : Text} (h : fixed d = .ok t) : t.all isToken = true := by
  rcases fixed_eq_ok h with ⟨s, n, -, rfl⟩ | ⟨s, p, -, rfl⟩
  · split_ifs <;> exact all_token_fixedText _ _
  · exact all_token_decimalText d

/-! ### Reading ids and kinds -/

/-- The number a text of hexadecimal digits is. -/
def numberOfHex (t : Text) : Option ℕ :=
  t.foldl (fun n c => n.bind fun n => (hexValue c).map fun d => 16 * n + d.val) (some 0)

theorem numberOfHex_hexDigits {width n : ℕ} (h : n < 16 ^ width) :
    numberOfHex (hexDigits width n) = some n := by
  induction width generalizing n with
  | zero =>
    obtain rfl : n = 0 := by omega
    rfl
  | succ width ih =>
    rw [pow_succ] at h
    have hmore := ih (n := n / 16) (by omega)
    rw [numberOfHex] at hmore ⊢
    rw [hexDigits, List.foldl_append, hmore]
    simp only [List.foldl_cons, List.foldl_nil, hexValue_hexDigit, Option.bind_some,
      Option.map_some, Option.some.injEq, Fin.ofNat_eq_cast, Fin.val_natCast]
    omega

/-- A list in groups of 8, 4, 4, 4 and the rest. -/
theorem groups_eq (l : Text) : l.take 8 ++ ((l.drop 8).take 4 ++ ((l.drop 12).take 4 ++
    ((l.drop 16).take 4 ++ l.drop 20))) = l := by
  have hdrop (i : ℕ) : (l.drop i).take 4 ++ l.drop (i + 4) = l.drop i := by
    rw [← List.drop_drop, List.take_append_drop]
  rw [hdrop 16, hdrop 12, hdrop 8, List.take_append_drop]

/-- The id a text is, its hyphens left out. -/
def uuidOf (t : Text) : Option UUID :=
  (numberOfHex (t.filter fun c => c.val ≠ 45)).bind fun n =>
    if h : n < 2 ^ 128 then some ⟨n, h⟩ else none

/-- An id is read back. -/
theorem uuidOf_text (u : UUID) : uuidOf u.text = some u := by
  have hlt : u.val < 16 ^ 32 := u.isLt.trans_eq (by norm_num)
  have hkeep {l : Text} (hl : l ⊆ hexDigits 32 u.val) : (l.filter fun c => c.val ≠ 45) = l := by
    refine List.filter_eq_self.mpr fun c hc => ?_
    have hhex := List.all_eq_true.mp (all_hex_hexDigits 32 u.val) c (hl hc)
    simp only [isHexDigit, Bool.or_eq_true, Bool.and_eq_true, decide_eq_true_eq] at hhex
    simp only [decide_eq_true_eq]
    omega
  have hpart (i j : ℕ) := hkeep (l := ((hexDigits 32 u.val).drop i).take j) fun _ hc =>
    List.mem_of_mem_drop (List.mem_of_mem_take hc)
  have hdash : ((txt "-").filter fun c : CodePoint => c.val ≠ 45) = [] := by decide
  have hdigits : (u.text.filter fun c => c.val ≠ 45) = hexDigits 32 u.val := by
    simp only [UUID.text, List.filter_append, hdash, hpart,
      hkeep (List.take_subset 8 _), hkeep (List.drop_subset 20 _), List.append_assoc,
      List.nil_append]
    exact groups_eq _
  rw [uuidOf, hdigits, numberOfHex_hexDigits hlt, Option.bind_some, dif_pos u.isLt]

/-- The instant a text is. -/
def instantOf (t : Text) : Option Instant := (Receipts.parseInstant t []).toOption

theorem instantOf_iso (t : Instant) : instantOf t.iso = some t := by
  rw [instantOf, show t.iso = Receipts.instantText t from rfl, Receipts.parseInstant_instantText]
  rfl

/-- The direction a text is. -/
def directionOf (t : Text) : Option Direction :=
  [Direction.debit, .credit, .none].find? fun d => d.text = t

theorem directionOf_text (d : Direction) : directionOf d.text = some d := by
  cases d <;> decide

/-- The kind a text is. -/
def kindOf (t : Text) : Option EntryType :=
  [EntryType.funding, .allocation, .release, .hold, .holdVoid, .spend, .reversal, .circuitTripped,
    .circuitReset, .anchor, .migrationSeal, .checkpoint].find? fun k => k.text = t

theorem kindOf_text (k : EntryType) : kindOf k.text = some k := by
  cases k <;> decide

/-! ### Reading numbers -/

theorem ofDecimalDigits_append (s t : Text) :
    ofDecimalDigits (s ++ t) = ofDecimalDigits s * 10 ^ t.length + ofDecimalDigits t := by
  induction t using List.reverseRecOn with
  | nil => simp [ofDecimalDigits]
  | append_singleton t c ih =>
    have hlast (u : Text) : ofDecimalDigits (u ++ [c]) = 10 * ofDecimalDigits u + (c.val - 48) := by
      simp [ofDecimalDigits]
    rw [← List.append_assoc, hlast, hlast, ih, List.length_append, List.length_singleton, pow_succ]
    ring

theorem ofDecimalDigits_zeros (n : ℕ) : ofDecimalDigits (List.replicate n (digit 0)) = 0 := by
  induction n with
  | zero => rfl
  | succ n ih =>
    rw [List.replicate_succ', ofDecimalDigits_append, ih]
    decide

theorem ofDecimalDigits_paddedDigits (width n : ℕ) :
    ofDecimalDigits (paddedDigits width n) = n := by
  rw [paddedDigits, ofDecimalDigits_append, ofDecimalDigits_zeros,
    Json.ofDecimalDigits_decimalDigits, Nat.zero_mul, Nat.zero_add]

theorem length_decimalDigits_le {width n : ℕ} (hwidth : 0 < width) (h : n < 10 ^ width) :
    (decimalDigits n).length ≤ width := by
  unfold decimalDigits
  split_ifs with hzero
  · exact hwidth
  · rw [List.length_map, List.length_reverse]
    exact (Nat.digits_length_le_iff (by norm_num) n).mpr h

theorem length_paddedDigits {width n : ℕ} (hwidth : 0 < width) (h : n < 10 ^ width) :
    (paddedDigits width n).length = width := by
  have hle := length_decimalDigits_le hwidth h
  rw [paddedDigits, List.length_append, List.length_replicate]
  omega

/-- The integer a text is: digits, after a sign if there is one. -/
def integerOf : Text → ℤ
  | [] => 0
  | c :: t =>
    if c.val = 45 then -(ofDecimalDigits t : ℤ)
    else if c.val = 43 then ofDecimalDigits t
    else ofDecimalDigits (c :: t)

theorem integerOf_digits {t : Text} (h : t.all isDigit = true) :
    integerOf t = ofDecimalDigits t := by
  cases t with
  | nil => rfl
  | cons c t =>
    have hc := List.all_eq_true.mp h c List.mem_cons_self
    simp only [isDigit, Bool.and_eq_true, decide_eq_true_eq] at hc
    rw [integerOf, if_neg (by omega), if_neg (by omega)]

/-- What is before the first mark in a text, and what is after it. -/
def cutAt (mark : ℕ) (t : Text) : Text × Text :=
  (t.takeWhile fun c => c.val ≠ mark, (t.dropWhile fun c => c.val ≠ mark).drop 1)

theorem cutAt_append {mark : ℕ} {s : Text} {c : CodePoint} (hs : ∀ d ∈ s, d.val ≠ mark)
    (hc : c.val = mark) (t : Text) : cutAt mark (s ++ c :: t) = (s, t) := by
  have hall : ∀ d ∈ s, decide (d.val ≠ mark) = true := fun d hd => decide_eq_true (hs d hd)
  rw [cutAt, List.takeWhile_append_of_pos hall, List.dropWhile_append_of_pos hall,
    List.takeWhile_cons_of_neg (by simp [hc]), List.dropWhile_cons_of_neg (by simp [hc])]
  simp

theorem cutAt_of_not {mark : ℕ} {s : Text} (hs : ∀ d ∈ s, d.val ≠ mark) :
    cutAt mark s = (s, []) := by
  have hall : ∀ d ∈ s, decide (d.val ≠ mark) = true := fun d hd => decide_eq_true (hs d hd)
  rw [cutAt, List.takeWhile_eq_self_iff.mpr hall, List.dropWhile_eq_nil_iff.mpr hall]
  rfl

/-- The datum of a numeral: digits with a point among them, and an exponent. -/
def numeralOf (s : Bool) (t : Text) : Decimal :=
  let mantissa := cutAt 46 (cutAt 69 t).1
  .finite s (ofDecimalDigits (mantissa.1 ++ mantissa.2))
    (integerOf (cutAt 69 t).2 - mantissa.2.length)

/-- The datum of a text without a sign. -/
def unsignedOf (s : Bool) (t : Text) : Decimal :=
  match Text.stripPrefix? (txt "Infinity") t with
  | some _ => .infinity s
  | none =>
    match Text.stripPrefix? (txt "sNaN") t with
    | some payload => .nan s true (ofDecimalDigits payload)
    | none =>
      match Text.stripPrefix? (txt "NaN") t with
      | some payload => .nan s false (ofDecimalDigits payload)
      | none => numeralOf s t

/-- `Decimal(text)`, of a text that was written of an amount. -/
def decimalOf (t : Text) : Decimal :=
  match t with
  | [] => unsignedOf false []
  | c :: rest => if c.val = 45 then unsignedOf true rest else unsignedOf false (c :: rest)

theorem decimalOf_signText (s : Bool) {c : CodePoint} (hc : c.val ≠ 45) (t : Text) :
    decimalOf (signText s ++ c :: t) = unsignedOf s (c :: t) := by
  cases s with
  | false => exact if_neg hc
  | true => rfl

theorem decimalOf_numeral (s : Bool) {c : CodePoint} (hc : isDigit c = true) (t : Text) :
    decimalOf (signText s ++ c :: t) = numeralOf s (c :: t) := by
  simp only [isDigit, Bool.and_eq_true, decide_eq_true_eq] at hc
  have hI : (73 : CodePoint) ≠ c := fun h => by rw [← h] at hc; exact absurd hc (by decide)
  have hs : (115 : CodePoint) ≠ c := fun h => by rw [← h] at hc; exact absurd hc (by decide)
  have hN : (78 : CodePoint) ≠ c := fun h => by rw [← h] at hc; exact absurd hc (by decide)
  have hwords : (txt "Infinity").head? = some 73 ∧ (txt "sNaN").head? = some 115 ∧
      (txt "NaN").head? = some 78 := by decide
  have hstrip {w : Text} {d : CodePoint} (hw : w.head? = some d) (hne : d ≠ c) :
      Text.stripPrefix? w (c :: t) = none := by
    obtain ⟨w, rfl⟩ := List.head?_eq_some_iff.mp hw
    rw [Text.stripPrefix?, if_neg hne]
  rw [decimalOf_signText s (by omega), unsignedOf, hstrip hwords.1 hI, hstrip hwords.2.1 hs,
    hstrip hwords.2.2 hN]

section Numerals

variable {s : Bool} {whole fraction : Text} (hwhole : whole.all isDigit = true)
  (hfraction : fraction.all isDigit = true)

/-- No digit is a mark. -/
theorem ne_of_digits {t : Text} (h : t.all isDigit = true) (mark : ℕ)
    (hmark : mark < 48 ∨ 57 < mark) : ∀ d ∈ t, d.val ≠ mark := by
  intro d hd
  have hdigit := List.all_eq_true.mp h d hd
  simp only [isDigit, Bool.and_eq_true, decide_eq_true_eq] at hdigit
  omega

include hwhole

theorem numeralOf_whole : numeralOf s whole = .finite s (ofDecimalDigits whole) 0 := by
  rw [numeralOf, cutAt_of_not (ne_of_digits hwhole 69 (by decide)),
    cutAt_of_not (ne_of_digits hwhole 46 (by decide)), List.append_nil]
  rfl

include hfraction

theorem numeralOf_pointed : numeralOf s (whole ++ 46 :: fraction) =
    .finite s (ofDecimalDigits (whole ++ fraction)) (-fraction.length) := by
  have hnone : ∀ d ∈ whole ++ 46 :: fraction, d.val ≠ 69 := by
    intro d hd
    rcases List.mem_append.mp hd with hd | hd
    · exact ne_of_digits hwhole 69 (by decide) d hd
    · rcases List.mem_cons.mp hd with rfl | hd
      · decide
      · exact ne_of_digits hfraction 69 (by decide) d hd
  have hcut : cutAt 46 (whole ++ 46 :: fraction) = (whole, fraction) :=
    cutAt_append (ne_of_digits hwhole 46 (by decide)) rfl fraction
  rw [numeralOf, cutAt_of_not hnone]
  simp only [hcut, integerOf, Int.zero_sub]

omit hwhole hfraction

/-- An exponent is added to that of the mantissa. -/
theorem numeralOf_scientific {mantissa : Text} {c : ℕ} {e : ℤ}
    (hnone : ∀ d ∈ mantissa, d.val ≠ 69) (h : numeralOf s mantissa = .finite s c e)
    (exponent : Text) :
    numeralOf s (mantissa ++ 69 :: exponent) = .finite s c (integerOf exponent + e) := by
  rw [numeralOf, cutAt_of_not hnone] at h
  simp only [Decimal.finite.injEq, true_and, integerOf] at h
  rw [numeralOf, cutAt_append hnone rfl]
  simp only [h.1, Decimal.finite.injEq, true_and]
  omega

end Numerals

/-! ### Reading amounts -/

theorem integerOf_signed (n : ℤ) :
    integerOf ((if n < 0 then 45 else 43) :: decimalDigits n.natAbs) = n := by
  split_ifs with hneg
  · change -(ofDecimalDigits (decimalDigits n.natAbs) : ℤ) = n
    rw [Json.ofDecimalDigits_decimalDigits]
    omega
  · change (ofDecimalDigits (decimalDigits n.natAbs) : ℤ) = n
    rw [Json.ofDecimalDigits_decimalDigits]
    omega

/-- `str` of a finite datum is a numeral of it. -/
theorem decimalText_finite (s : Bool) (c : ℕ) (e : ℤ) : ∃ d t, isDigit d = true ∧
    decimalText (.finite s c e) = signText s ++ d :: t ∧ numeralOf s (d :: t) = .finite s c e := by
  have hmarks : txt "0." = [48, 46] ∧ txt "." = [46] ∧ txt "E" = [69] ∧ txt "-" = [45] ∧
      txt "+" = [43] := by decide
  obtain ⟨d, ds, hcons, -⟩ := Json.decimalDigits_eq_cons c
  have hall := all_digit_decimalDigits c
  have hread := Json.ofDecimalDigits_decimalDigits c
  rw [hcons] at hall hread
  obtain ⟨hd, hds⟩ := Bool.and_eq_true_iff.mp (List.all_cons ▸ hall)
  simp only [decimalText, hcons, hmarks, List.append_assoc]
  by_cases hfixed : e ≤ 0 ∧ -6 < e + (d :: ds).length
  · rw [if_pos hfixed]
    split_ifs with hzero hleft
    · -- a whole number
      refine ⟨d, ds, hd, rfl, ?_⟩
      rw [numeralOf_whole hall, hread, hzero]
    · -- all its digits are behind the point
      refine ⟨48, 46 :: (List.replicate (e + (d :: ds).length).natAbs (digit 0) ++ d :: ds),
        by decide, rfl, ?_⟩
      have hzeros : (List.replicate (e + (d :: ds).length).natAbs (digit 0) ++ d :: ds).all
          isDigit = true := by
        rw [List.all_append, hall, all_digit_zeros, Bool.and_self]
      have hpointed :=
        numeralOf_pointed (s := s) (show List.all [48] isDigit = true by decide) hzeros
      refine hpointed.trans ?_
      rw [ofDecimalDigits_append, ofDecimalDigits_append, ofDecimalDigits_zeros, hread,
        show ofDecimalDigits [48] = 0 by decide]
      simp only [List.length_append, List.length_replicate, Decimal.finite.injEq, true_and]
      omega
    · -- the point is among its digits
      obtain ⟨k, hk⟩ : ∃ k, (e + (d :: ds).length).toNat = k + 1 :=
        ⟨(e + (d :: ds).length).toNat - 1, by omega⟩
      have htake : ((d :: ds).take (k + 1)).all isDigit = true :=
        List.all_eq_true.mpr fun x hx => List.all_eq_true.mp hall x (List.mem_of_mem_take hx)
      have hdrop : ((d :: ds).drop (k + 1)).all isDigit = true :=
        List.all_eq_true.mpr fun x hx => List.all_eq_true.mp hall x (List.mem_of_mem_drop hx)
      refine ⟨d, ds.take k ++ 46 :: (d :: ds).drop (k + 1), hd, by rw [hk]; rfl, ?_⟩
      refine (numeralOf_pointed (s := s) htake hdrop).trans ?_
      rw [List.take_append_drop, hread, List.length_drop]
      simp only [Decimal.finite.injEq, true_and]
      omega
  · -- one digit before the point, and an exponent
    rw [if_neg hfixed]
    obtain ⟨mantissa, hmantissa, hnone, hnumeral⟩ : ∃ mantissa,
        (d :: ds).take 1 ++ (if (d :: ds).length ≤ 1 then [] else [46] ++ (d :: ds).drop 1) =
          d :: mantissa ∧ (∀ x ∈ d :: mantissa, x.val ≠ 69) ∧
          numeralOf s (d :: mantissa) = .finite s c (-ds.length) := by
      rw [← hread]
      cases ds with
      | nil => exact ⟨[], rfl, ne_of_digits hall 69 (by decide), numeralOf_whole hall⟩
      | cons x xs =>
        refine ⟨46 :: x :: xs, by simp, ?_, ?_⟩
        · rintro y (_ | ⟨_, _ | ⟨_, hy⟩⟩)
          · exact ne_of_digits hall 69 (by decide) d List.mem_cons_self
          · decide
          · exact ne_of_digits hds 69 (by decide) y hy
        · exact numeralOf_pointed (show List.all [d] isDigit = true by simpa using hd) hds
    refine ⟨d, mantissa ++ 69 :: ((if e + (d :: ds).length - 1 < 0 then 45 else 43) ::
      decimalDigits (e + (d :: ds).length - 1).natAbs), hd, ?_, ?_⟩
    · rw [← List.cons_append, ← hmantissa]
      split_ifs <;> simp
    · rw [← List.cons_append, numeralOf_scientific hnone hnumeral, integerOf_signed]
      simp only [List.length_cons, Decimal.finite.injEq, true_and]
      omega

/-- The text of an amount is read back. -/
theorem decimalOf_decimalText (d : Decimal) : decimalOf (decimalText d) = d := by
  cases d with
  | finite s c e =>
    obtain ⟨d, t, hd, htext, hread⟩ := decimalText_finite s c e
    rw [htext, decimalOf_numeral s hd, hread]
  | infinity s => cases s <;> decide
  | nan s signaling p =>
    have hpayload : ofDecimalDigits (if p = 0 then [] else decimalDigits p) = p := by
      split_ifs with hp
      · exact hp.symm
      · exact Json.ofDecimalDigits_decimalDigits p
    have hwords : txt "sNaN" = [115, 78, 97, 78] ∧ txt "NaN" = [78, 97, 78] ∧
        txt "Infinity" = [73, 110, 102, 105, 110, 105, 116, 121] := by decide
    cases signaling with
    | false =>
      simp only [decimalText, hwords, List.append_assoc, List.cons_append, Bool.false_eq_true,
        if_false]
      rw [decimalOf_signText s (by decide), unsignedOf]
      simp [hwords, Text.stripPrefix?, hpayload]
    | true =>
      simp only [decimalText, hwords, List.append_assoc, List.cons_append, if_true]
      rw [decimalOf_signText s (by decide), unsignedOf]
      simp [hwords, Text.stripPrefix?, hpayload]

/-- The fixed-point text of an amount is read back. -/
theorem decimalOf_fixedText (s : Bool) (n : ℕ) :
    decimalOf (fixedText s n) = .finite s n (-quantumPlaces) := by
  obtain ⟨d, ds, hcons, -⟩ := Json.decimalDigits_eq_cons (n / 10 ^ quantumPlaces)
  have hall := all_digit_decimalDigits (n / 10 ^ quantumPlaces)
  have hlength : (paddedDigits quantumPlaces (n % 10 ^ quantumPlaces)).length = quantumPlaces :=
    length_paddedDigits (by decide) (Nat.mod_lt _ (by positivity))
  have hd : isDigit d = true := List.all_eq_true.mp hall d (hcons ▸ List.mem_cons_self)
  have hread := numeralOf_pointed (s := s) hall
    (all_digit_paddedDigits quantumPlaces (n % 10 ^ quantumPlaces))
  rw [ofDecimalDigits_append, hlength, ofDecimalDigits_paddedDigits,
    Json.ofDecimalDigits_decimalDigits, Nat.div_add_mod'] at hread
  rw [← hread, hcons]
  rw [fixedText, hcons, show txt "." = [46] by decide, List.append_assoc, List.append_assoc]
  exact decimalOf_numeral s hd _

/-- What AGOV3 writes of an amount is read back as an amount that is worth the same. -/
theorem decimalOf_fixed {d : Decimal} {t : Text} (h : fixed d = .ok t) :
    (decimalOf t).value? = d.value? := by
  rcases fixed_eq_ok h with ⟨s, n, hd, rfl⟩ | ⟨s, p, rfl, rfl⟩
  · rw [hd]
    split_ifs with hzero
    · rw [decimalOf_fixedText, hzero]
      simp [Decimal.value?, Decimal.rat]
    · rw [decimalOf_fixedText]
  · rw [decimalOf_decimalText]

end AgentGov
