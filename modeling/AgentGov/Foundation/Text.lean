import Mathlib.Data.Nat.Digits.Defs
import Mathlib.Data.Fintype.Basic
import Mathlib.Tactic.Common
import Mathlib.Tactic.IntervalCases

/-!
# Text as code points

A text is a list of code points, lone surrogates included, so every string a program can hold
is one. UTF-8 encodes exactly the texts without surrogates.

## Main definitions

* `Foundation.Text`: texts, with `Text.ofString` for literals.
* `Foundation.Text.utf8`: the UTF-8 bytes of a text without surrogates.
* `Foundation.decimalDigits`, `Foundation.hexDigits`: numerals.
* `Foundation.toHex`, `Foundation.fromHex`: bytes in hexadecimal, and back.

## Main results

* `Foundation.fromHex_toHex`: the bytes come back from their hexadecimal text.
* `Foundation.Text.utf8_ofAscii`: an ASCII text is its own UTF-8.
-/

namespace Foundation

/-- A code point, surrogates included. -/
abbrev CodePoint := Fin 0x110000

/-- A byte. -/
abbrev Byte := Fin 256

/-- A string as the sequence of its code points. -/
abbrev Text := List CodePoint

-- Named once here, so that every literal and every comparison above finds the same instance.
instance neZero_codePoint : NeZero 0x110000 := ⟨by decide⟩

instance neZero_byte : NeZero 256 := ⟨by decide⟩

instance lawfulBEq_codePoint : LawfulBEq CodePoint := inferInstance

instance lawfulBEq_text : LawfulBEq Text := inferInstance

namespace Text

/-- The text of an ASCII literal, byte by byte. -/
def ofString (s : String) : Text :=
  s.toByteArray.data.toList.map fun b => Fin.ofNat 0x110000 b.toNat

/-- What follows a literal prefix of the text. -/
def stripPrefix? : Text → Text → Option Text
  | [], t => some t
  | _ :: _, [] => none
  | c :: p, d :: t => if c = d then stripPrefix? p t else none

theorem stripPrefix?_eq_some {p t r : Text} : stripPrefix? p t = some r ↔ t = p ++ r := by
  induction p generalizing t with
  | nil => simp [stripPrefix?]
  | cons c p ih =>
    cases t with
    | nil => simp [stripPrefix?]
    | cons d t =>
      by_cases h : c = d
      · subst h; simp [stripPrefix?, ih]
      · simp [stripPrefix?, h, Ne.symm h]

@[simp] theorem stripPrefix?_append (p r : Text) : stripPrefix? p (p ++ r) = some r :=
  stripPrefix?_eq_some.mpr rfl

/-- Whether the code point is one half of a surrogate pair. -/
def isSurrogate (c : CodePoint) : Bool := 0xD800 ≤ c.val && c.val ≤ 0xDFFF

/-- Whether the code point is ASCII. -/
def isAscii (c : CodePoint) : Bool := c.val < 0x80

/-- The UTF-8 bytes of a code point, or nothing for a surrogate. -/
def utf8Char (c : CodePoint) : Option (List Byte) :=
  if c.val < 0x80 then some [Fin.ofNat 256 c.val]
  else if c.val < 0x800 then
    some [Fin.ofNat 256 (0xC0 + c.val / 64), Fin.ofNat 256 (0x80 + c.val % 64)]
  else if isSurrogate c then none
  else if c.val < 0x10000 then
    some [Fin.ofNat 256 (0xE0 + c.val / 4096), Fin.ofNat 256 (0x80 + c.val / 64 % 64),
      Fin.ofNat 256 (0x80 + c.val % 64)]
  else
    some [Fin.ofNat 256 (0xF0 + c.val / 262144), Fin.ofNat 256 (0x80 + c.val / 4096 % 64),
      Fin.ofNat 256 (0x80 + c.val / 64 % 64), Fin.ofNat 256 (0x80 + c.val % 64)]

/-- The UTF-8 bytes of a text, or nothing where it holds a surrogate. -/
def utf8 : Text → Option (List Byte)
  | [] => some []
  | c :: t =>
    match utf8Char c, utf8 t with
    | some b, some bs => some (b ++ bs)
    | _, _ => none

/-- The bytes of an ASCII text. -/
def ascii (t : Text) : List Byte := t.map fun c => Fin.ofNat 256 c.val

theorem utf8_ofAscii {t : Text} (h : ∀ c ∈ t, isAscii c = true) : utf8 t = some (ascii t) := by
  induction t with
  | nil => rfl
  | cons c t ih =>
    have hc : c.val < 0x80 := by simpa [isAscii] using h c List.mem_cons_self
    have ht := ih fun d hd => h d (List.mem_cons_of_mem c hd)
    simp [utf8, utf8Char, hc, ht, ascii]

theorem utf8_append (s t : Text) :
    utf8 (s ++ t) = (utf8 s).bind fun bs => (utf8 t).map fun bt => bs ++ bt := by
  induction s with
  | nil => simp [utf8]
  | cons c s ih =>
    simp only [List.cons_append, utf8, ih]
    cases utf8Char c with
    | none => rfl
    | some b => cases utf8 s <;> cases utf8 t <;> simp

theorem utf8Char_isSome {c : CodePoint} : (utf8Char c).isSome = !isSurrogate c := by
  unfold utf8Char
  split
  · rename_i h
    have : isSurrogate c = false := by simp [isSurrogate]; omega
    simp [this]
  · split
    · rename_i h
      have : isSurrogate c = false := by simp [isSurrogate]; omega
      simp [this]
    · cases isSurrogate c
      · simp only [Bool.false_eq_true, ↓reduceIte, Bool.not_false]
        split <;> rfl
      · simp

/-- A text has UTF-8 bytes exactly when it holds no surrogate. -/
theorem utf8_isSome {t : Text} : (utf8 t).isSome = t.all fun c => !isSurrogate c := by
  induction t with
  | nil => rfl
  | cons c t ih =>
    have hc := @utf8Char_isSome c
    rw [List.all_cons, ← hc, ← ih]
    simp only [utf8]
    cases utf8Char c <;> cases utf8 t <;> rfl

end Text

/-- The code point of a decimal digit. -/
def digit (d : ℕ) : CodePoint := Fin.ofNat 0x110000 (48 + d)

/-- Whether the code point is one of `0` to `9`. -/
def isDigit (c : CodePoint) : Bool := 48 ≤ c.val && c.val ≤ 57

/-- The decimal numeral of a number. -/
def decimalDigits (n : ℕ) : Text :=
  if n = 0 then [digit 0] else ((Nat.digits 10 n).reverse).map digit

/-- The number a decimal numeral stands for. -/
def ofDecimalDigits (t : Text) : ℕ := t.foldl (fun n c => 10 * n + (c.val - 48)) 0

/-- The numeral padded with zeros to a width. -/
def paddedDigits (width n : ℕ) : Text :=
  let t := decimalDigits n
  List.replicate (width - t.length) (digit 0) ++ t

/-- The code point of a lower-case hexadecimal digit. -/
def hexDigit (d : Fin 16) : CodePoint :=
  if d.val < 10 then Fin.ofNat 0x110000 (48 + d.val) else Fin.ofNat 0x110000 (87 + d.val)

/-- Whether the code point is a lower-case hexadecimal digit. -/
def isHexDigit (c : CodePoint) : Bool :=
  (48 ≤ c.val && c.val ≤ 57) || (97 ≤ c.val && c.val ≤ 102)

/-- What a hexadecimal digit of either case stands for. -/
def hexValue (c : CodePoint) : Option (Fin 16) :=
  if 48 ≤ c.val ∧ c.val ≤ 57 then some (Fin.ofNat 16 (c.val - 48))
  else if 97 ≤ c.val ∧ c.val ≤ 102 then some (Fin.ofNat 16 (c.val - 87))
  else if 65 ≤ c.val ∧ c.val ≤ 70 then some (Fin.ofNat 16 (c.val - 55))
  else none

@[simp] theorem hexValue_hexDigit (d : Fin 16) : hexValue (hexDigit d) = some d := by
  revert d; decide

theorem isHexDigit_hexDigit (d : Fin 16) : isHexDigit (hexDigit d) = true := by
  revert d; decide

theorem isAscii_hexDigit (d : Fin 16) : Text.isAscii (hexDigit d) = true := by
  revert d; decide

/-- The lower `width` hexadecimal digits of a number, most significant first. -/
def hexDigits : ℕ → ℕ → Text
  | 0, _ => []
  | width + 1, n => hexDigits width (n / 16) ++ [hexDigit (Fin.ofNat 16 n)]

/-- Bytes as lower-case hexadecimal text. -/
def toHex : List Byte → Text
  | [] => []
  | b :: bs => hexDigit (Fin.ofNat 16 (b.val / 16)) :: hexDigit (Fin.ofNat 16 b.val) :: toHex bs

/-- The ASCII white space that may stand between the bytes of a hexadecimal text. -/
def isSpace (c : CodePoint) : Bool := c.val = 32 || (9 ≤ c.val && c.val ≤ 13)

/-- The bytes of a hexadecimal text, white space between bytes skipped. -/
def fromHex : Text → Option (List Byte)
  | [] => some []
  | [c] => if isSpace c then some [] else none
  | c :: d :: t =>
    if isSpace c then fromHex (d :: t)
    else
      match hexValue c, hexValue d, fromHex t with
      | some x, some y, some bs => some (Fin.ofNat 256 (16 * x.val + y.val) :: bs)
      | _, _, _ => none

theorem isSpace_hexDigit (d : Fin 16) : isSpace (hexDigit d) = false := by
  revert d; decide

/-- The bytes come back from their hexadecimal text. -/
@[simp] theorem fromHex_toHex (bs : List Byte) : fromHex (toHex bs) = some bs := by
  induction bs with
  | nil => rfl
  | cons b bs ih =>
    have hb : Fin.ofNat 256 (16 * (Fin.ofNat 16 (b.val / 16)).val + (Fin.ofNat 16 b.val).val) =
        b := by
      apply Fin.ext
      simp only [Fin.ofNat_eq_cast, Fin.val_natCast]
      have := b.isLt
      omega
    simp only [toHex, fromHex, isSpace_hexDigit, Bool.false_eq_true, ↓reduceIte,
      hexValue_hexDigit, ih]
    rw [hb]

theorem isHexDigit_of_mem_toHex {bs : List Byte} {c : CodePoint} (h : c ∈ toHex bs) :
    isHexDigit c = true := by
  induction bs with
  | nil => simp [toHex] at h
  | cons b bs ih =>
    simp only [toHex, List.mem_cons] at h
    rcases h with rfl | rfl | h
    · exact isHexDigit_hexDigit _
    · exact isHexDigit_hexDigit _
    · exact ih h

@[simp] theorem length_toHex (bs : List Byte) : (toHex bs).length = 2 * bs.length := by
  induction bs with
  | nil => rfl
  | cons b bs ih => simp [toHex, ih]; omega

end Foundation
