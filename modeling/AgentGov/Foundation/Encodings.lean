import AgentGov.Foundation.Text

/-!
# Decoding bytes into text

The decoders of UTF-8, UTF-16 and UTF-32 that let lone surrogates pass, and the UTF-16 units by
which texts are ordered.

## Main definitions

* `Foundation.Text.utf8Decode`, `Foundation.Text.utf16Decode`, `Foundation.Text.utf32Decode`.
* `Foundation.Text.utf16`: the UTF-16 units of a text.

## Main results

* `Foundation.Text.utf8Decode_append`: decoding goes on where the bytes of a text end.
* `Foundation.Text.utf8Decode_utf8`: a text comes back from its bytes.
* `Foundation.Text.utf8Decode_torn`: a part of a text's bytes before an ASCII byte.
-/

namespace Foundation.Text

/-- Whether the byte continues a UTF-8 sequence. -/
def isTail (b : Byte) : Bool := 0x80 ≤ b.val && b.val < 0xC0

/-- A code point before the rest of a text, if there is a rest. -/
def consPoint (n : ℕ) (t : Option Text) : Option Text := t.map fun t => Fin.ofNat 0x110000 n :: t

/-- The text of UTF-8 bytes, surrogates let through. -/
def utf8Decode : List Byte → Option Text
  | [] => some []
  | a :: t =>
    if a.val < 0x80 then consPoint a.val (utf8Decode t)
    else
      match t with
      | [] => none
      | b :: t =>
        if isTail b = false then none
        else if 0xC2 ≤ a.val ∧ a.val ≤ 0xDF then
          consPoint ((a.val - 0xC0) * 64 + (b.val - 0x80)) (utf8Decode t)
        else
          match t with
          | [] => none
          | c :: t =>
            if isTail c = false then none
            else if 0xE0 ≤ a.val ∧ a.val ≤ 0xEF then
              let n := (a.val - 0xE0) * 4096 + (b.val - 0x80) * 64 + (c.val - 0x80)
              if n < 0x800 then none else consPoint n (utf8Decode t)
            else
              match t with
              | [] => none
              | d :: t =>
                if isTail d = false then none
                else if 0xF0 ≤ a.val ∧ a.val ≤ 0xF4 then
                  let n := (a.val - 0xF0) * 262144 + (b.val - 0x80) * 4096 +
                    (c.val - 0x80) * 64 + (d.val - 0x80)
                  if n < 0x10000 ∨ 0x10FFFF < n then none else consPoint n (utf8Decode t)
                else none

/-- Whether the unit is the first half of a surrogate pair. -/
def isHigh (u : ℕ) : Bool := 0xD800 ≤ u && u < 0xDC00

/-- Whether the unit is the second half of a surrogate pair. -/
def isLow (u : ℕ) : Bool := 0xDC00 ≤ u && u < 0xE000

/-- The code point of a surrogate pair. -/
def joinUnits (high low : ℕ) : ℕ := 0x10000 + (high - 0xD800) * 1024 + (low - 0xDC00)

/-- The text of UTF-16 units, lone surrogates let through. -/
def ofUnits : List ℕ → Text
  | [] => []
  | [u] => [Fin.ofNat 0x110000 u]
  | u :: v :: t =>
    if isHigh u && isLow v then Fin.ofNat 0x110000 (joinUnits u v) :: ofUnits t
    else Fin.ofNat 0x110000 u :: ofUnits (v :: t)

/-- The text of UTF-16 bytes, most significant first or last. -/
def utf16Decode (big : Bool) (bs : List Byte) : Option Text := (units bs).map ofUnits
where
  units : List Byte → Option (List ℕ)
    | [] => some []
    | [_] => none
    | a :: b :: t =>
      (units t).map fun us => (if big then 256 * a.val + b.val else 256 * b.val + a.val) :: us

/-- The text of UTF-32 bytes, most significant first or last. -/
def utf32Decode (big : Bool) : List Byte → Option Text
  | [] => some []
  | a :: b :: c :: d :: t =>
    let n :=
      if big then ((a.val * 256 + b.val) * 256 + c.val) * 256 + d.val
      else ((d.val * 256 + c.val) * 256 + b.val) * 256 + a.val
    if 0x10FFFF < n then none else consPoint n (utf32Decode big t)
  | _ => none

/-- The UTF-16 units of a code point. -/
def utf16Char (c : CodePoint) : List ℕ :=
  if c.val < 0x10000 then [c.val]
  else [0xD800 + (c.val - 0x10000) / 1024, 0xDC00 + (c.val - 0x10000) % 1024]

/-- The UTF-16 units of a text. -/
def utf16 (t : Text) : List ℕ := t.flatMap utf16Char

/-- Decoding goes on where the bytes of a code point end. -/
theorem utf8Decode_utf8Char {c : CodePoint} {bs : List Byte} (h : utf8Char c = some bs)
    (rest : List Byte) : utf8Decode (bs ++ rest) = (utf8Decode rest).map (c :: ·) := by
  have hc := c.isLt
  have hpoint : ∀ {n : ℕ}, n = c.val → consPoint n (utf8Decode rest) =
      (utf8Decode rest).map (c :: ·) := by
    rintro n rfl
    simp [consPoint]
  unfold utf8Char isSurrogate at h
  simp only [Bool.and_eq_true, decide_eq_true_eq] at h
  -- one case for each number of bytes
  split_ifs at h with h1 h2 h3 h4 <;> obtain rfl := Option.some.inj h
  all_goals
    rw [List.cons_append, utf8Decode.eq_def]
    simp only [List.cons_append, List.nil_append, Fin.ofNat_eq_cast, Fin.val_natCast, isTail,
      Bool.and_eq_false_iff, decide_eq_false_iff_not]
  · rw [if_pos (by omega), hpoint (by omega)]
  · rw [if_neg (by omega), if_neg (by omega), if_pos (by omega), hpoint (by omega)]
  · rw [if_neg (by omega), if_neg (by omega), if_neg (by omega), if_neg (by omega),
      if_pos (by omega), if_neg (by omega), hpoint (by omega)]
  · rw [if_neg (by omega), if_neg (by omega), if_neg (by omega), if_neg (by omega),
      if_neg (by omega), if_neg (by omega), if_pos (by omega), if_neg (by omega),
      hpoint (by omega)]

/-- Decoding goes on where the bytes of a text end. -/
theorem utf8Decode_append {t : Text} {bs : List Byte} (h : utf8 t = some bs) (rest : List Byte) :
    utf8Decode (bs ++ rest) = (utf8Decode rest).map (t ++ ·) := by
  induction t generalizing bs with
  | nil =>
    obtain rfl : [] = bs := by simpa [utf8] using h
    simp
  | cons c t ih =>
    simp only [utf8] at h
    split at h
    · rename_i b bt hb ht
      obtain rfl := Option.some.inj h
      rw [List.append_assoc, utf8Decode_utf8Char hb, ih ht, Option.map_map]
      rfl
    · cases h

/-- A text comes back from its bytes. -/
theorem utf8Decode_utf8 {t : Text} {bs : List Byte} (h : utf8 t = some bs) :
    utf8Decode bs = some t := by
  have := utf8Decode_append h []
  simpa [utf8Decode] using this

/-- Decoding stops where the second, the third or the fourth byte of a code point is missing. -/
theorem utf8Decode_of_not_tail {a b : Byte} (hb : isTail b = false) (rest : List Byte) :
    (0x80 ≤ a.val → utf8Decode (a :: b :: rest) = none) ∧
    (∀ t, 0xE0 ≤ a.val → utf8Decode (a :: t :: b :: rest) = none) ∧
    ∀ t u, 0xF0 ≤ a.val → utf8Decode (a :: t :: u :: b :: rest) = none := by
  refine ⟨fun ha => ?_, fun t ha => ?_, fun t u ha => ?_⟩
  · rw [utf8Decode.eq_def]
    simp only [if_neg (show ¬a.val < 0x80 by omega), hb, if_true]
  · rw [utf8Decode.eq_def]
    simp only [if_neg (show ¬a.val < 0x80 by omega), hb, if_true,
      if_neg (show ¬(0xC2 ≤ a.val ∧ a.val ≤ 0xDF) by omega), ite_self]
  · rw [utf8Decode.eq_def]
    simp only [if_neg (show ¬a.val < 0x80 by omega), hb, if_true,
      if_neg (show ¬(0xC2 ≤ a.val ∧ a.val ≤ 0xDF) by omega),
      if_neg (show ¬(0xE0 ≤ a.val ∧ a.val ≤ 0xEF) by omega), ite_self]

/-- A part of the bytes of a code point, before an ASCII byte, is not decoded. -/
theorem utf8Decode_torn_utf8Char {c : CodePoint} {p q : List Byte}
    (h : utf8Char c = some (p ++ q)) (hp : p ≠ []) (hq : q ≠ []) {b : Byte} (hb : b.val < 0x80)
    (rest : List Byte) : utf8Decode (p ++ b :: rest) = none := by
  have hc := c.isLt
  have htail : isTail b = false := by simp [isTail]; omega
  obtain ⟨x, p, rfl⟩ := List.exists_cons_of_ne_nil hp
  obtain ⟨y, q, rfl⟩ := List.exists_cons_of_ne_nil hq
  obtain ⟨hone, htwo, hthree⟩ := utf8Decode_of_not_tail (a := x) htail rest
  have hlen : ∀ bs : List Byte, some bs = some (x :: p ++ y :: q) →
      bs.head? = some x ∧ bs.length = p.length + q.length + 2 := by
    intro bs hbs
    rw [Option.some.inj hbs]
    simp
    omega
  unfold utf8Char isSurrogate at h
  -- one case for each number of bytes, and for each place the part breaks off
  split_ifs at h with h1 h2 h3 h4 <;> obtain ⟨hx, hsize⟩ := hlen _ h <;>
    obtain rfl := Option.some.inj hx <;> simp only [List.length_cons, List.length_nil] at hsize
  · omega
  all_goals
    have hlead : ∀ n, (Fin.ofNat 256 n : Byte).val = n % 256 := fun n => rfl
    match p, hsize with
    | [], _ => exact hone (by rw [hlead]; omega)
    | [t], hsize =>
      simp only [List.length_cons, List.length_nil] at hsize
      exact htwo t (by rw [hlead]; omega)
    | [t, u], hsize =>
      simp only [List.length_cons, List.length_nil] at hsize
      exact hthree t u (by rw [hlead]; omega)
    | _ :: _ :: _ :: _, hsize =>
      simp only [List.length_cons] at hsize
      omega

/-- A part of a text's bytes, before an ASCII byte, is the bytes of a part of the text or is not
decoded. -/
theorem utf8Decode_torn {t : Text} {p q : List Byte} (h : utf8 t = some (p ++ q)) {b : Byte}
    (hb : b.val < 0x80) (rest : List Byte) :
    (∃ s u, t = s ++ u ∧ utf8 s = some p) ∨ utf8Decode (p ++ b :: rest) = none := by
  induction t generalizing p with
  | nil =>
    obtain ⟨rfl, -⟩ := List.append_eq_nil_iff.mp (Option.some.inj h).symm
    exact Or.inl ⟨[], [], rfl, rfl⟩
  | cons c t ih =>
    simp only [utf8] at h
    split at h
    · rename_i cs bs hc ht
      rcases List.append_eq_append_iff.mp (Option.some.inj h) with ⟨r, rfl, rfl⟩ | ⟨r, rfl, -⟩
      · -- the code point's bytes are all in the part
        rcases ih ht with ⟨s, u, rfl, hs⟩ | hnone
        · exact Or.inl ⟨c :: s, u, rfl, by simp [utf8, hc, hs]⟩
        · refine Or.inr ?_
          rw [List.append_assoc, utf8Decode_utf8Char hc, hnone]
          rfl
      · rcases eq_or_ne p [] with rfl | hp
        · exact Or.inl ⟨[], c :: t, rfl, rfl⟩
        rcases eq_or_ne r [] with rfl | hr
        · rw [List.append_nil] at hc
          exact Or.inl ⟨[c], t, rfl, by simp [utf8, hc]⟩
        · exact Or.inr (utf8Decode_torn_utf8Char hc hp hr hb rest)
    · cases h
/-- An ASCII byte of a text's bytes is one of its code points. -/
theorem mem_of_mem_utf8 {t : Text} {bs : List Byte} (h : utf8 t = some bs) {b : Byte}
    (hb : b ∈ bs) (hlt : b.val < 0x80) : ∃ c ∈ t, c.val = b.val := by
  induction t generalizing bs with
  | nil =>
    obtain rfl : [] = bs := by simpa [utf8] using h
    cases hb
  | cons c t ih =>
    simp only [utf8] at h
    split at h
    · rename_i cs bt hc ht
      obtain rfl := Option.some.inj h
      rcases List.mem_append.mp hb with hb | hb
      · refine ⟨c, List.mem_cons_self, ?_⟩
        unfold utf8Char at hc
        -- only the first case has a byte below `0x80`
        split_ifs at hc with h1 h2 h3 h4 <;> obtain rfl := Option.some.inj hc <;>
          simp only [List.mem_cons, List.not_mem_nil, or_false] at hb
        · subst hb
          simp only [Fin.ofNat_eq_cast, Fin.val_natCast]
          omega
        all_goals
          exfalso
          have hlast := c.isLt
          rcases hb with rfl | rfl | rfl | rfl
        all_goals
          simp only [Fin.ofNat_eq_cast, Fin.val_natCast] at hlt
          omega
      · obtain ⟨d, hd, hval⟩ := ih ht hb
        exact ⟨d, List.mem_cons_of_mem c hd, hval⟩
    · cases h

end Foundation.Text
