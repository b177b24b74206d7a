import AgentGov.Foundation.Text

/-!
# JSON without spaces

JSON values over null, booleans, integers, texts, arrays and objects, and their compact
rendering under either of the two ways to escape a text: leaving code points past ASCII as they
are, or escaping each of them as one or two UTF-16 units.

## Main definitions

* `Foundation.Json`: the values.
* `Foundation.Json.quote`, `Foundation.Json.quoteAscii`: a text as a JSON string.
* `Foundation.Json.dump`: the compact rendering of a value.

## Main results

* `Foundation.Json.isAscii_quoteAscii`: an escaped text is ASCII.
-/

namespace Foundation

/-- A JSON value. -/
inductive Json
  | null
  | bool (b : Bool)
  | int (n : ℤ)
  | str (t : Text)
  | arr (items : List Json)
  | obj (fields : List (Text × Json))

/-- The numeral of an integer. -/
def intText (n : ℤ) : Text :=
  if n < 0 then Text.ofString "-" ++ decimalDigits n.natAbs else decimalDigits n.natAbs

namespace Json

/-- The escape of a four-digit UTF-16 unit. -/
def escapeUnit (n : ℕ) : Text := Text.ofString "\\u" ++ hexDigits 4 n

/-- A code point in a JSON string: only quotes, backslashes and control codes are escaped. -/
def quoteChar (c : CodePoint) : Text :=
  if c.val = 34 then Text.ofString "\\\""
  else if c.val = 92 then Text.ofString "\\\\"
  else if c.val = 10 then Text.ofString "\\n"
  else if c.val = 13 then Text.ofString "\\r"
  else if c.val = 9 then Text.ofString "\\t"
  else if c.val = 12 then Text.ofString "\\f"
  else if c.val = 8 then Text.ofString "\\b"
  else if c.val < 32 then escapeUnit c.val
  else [c]

/-- A code point in an ASCII JSON string: every other code point is escaped, past the basic
plane as a surrogate pair. -/
def quoteCharAscii (c : CodePoint) : Text :=
  if c.val < 127 then quoteChar c
  else if c.val < 0x10000 then escapeUnit c.val
  else
    let v := c.val - 0x10000
    escapeUnit (0xD800 + v / 1024) ++ escapeUnit (0xDC00 + v % 1024)

/-- A text as a JSON string. -/
def quote (t : Text) : Text := Text.ofString "\"" ++ t.flatMap quoteChar ++ Text.ofString "\""

/-- A text as an ASCII JSON string. -/
def quoteAscii (t : Text) : Text :=
  Text.ofString "\"" ++ t.flatMap quoteCharAscii ++ Text.ofString "\""

mutual

/-- The compact rendering of a value, its strings written by `q`. -/
def dump (q : Text → Text) : Json → Text
  | null => Text.ofString "null"
  | bool true => Text.ofString "true"
  | bool false => Text.ofString "false"
  | int n => intText n
  | str t => q t
  | arr [] => Text.ofString "[]"
  | arr (v :: vs) => Text.ofString "[" ++ dump q v ++ dumpItems q vs
  | obj [] => Text.ofString "\x7b\x7d"
  | obj ((k, v) :: fs) => Text.ofString "\x7b" ++ q k ++ Text.ofString ":" ++ dump q v ++ dumpFields q fs

/-- The rest of an array. -/
def dumpItems (q : Text → Text) : List Json → Text
  | [] => Text.ofString "]"
  | v :: vs => Text.ofString "," ++ dump q v ++ dumpItems q vs

/-- The rest of an object. -/
def dumpFields (q : Text → Text) : List (Text × Json) → Text
  | [] => Text.ofString "\x7d"
  | (k, v) :: fs =>
    Text.ofString "," ++ q k ++ Text.ofString ":" ++ dump q v ++ dumpFields q fs

end

theorem isAscii_hexDigits {width n : ℕ} {c : CodePoint} (h : c ∈ hexDigits width n) :
    Text.isAscii c = true := by
  induction width generalizing n with
  | zero => simp [hexDigits] at h
  | succ width ih =>
    simp only [hexDigits, List.mem_append, List.mem_singleton] at h
    rcases h with h | rfl
    · exact ih h
    · exact isAscii_hexDigit _

theorem isAscii_escapeUnit {n : ℕ} {c : CodePoint} (h : c ∈ escapeUnit n) :
    Text.isAscii c = true := by
  rcases List.mem_append.mp h with h | h
  · exact List.all_eq_true.mp (by decide : (Text.ofString "\\u").all Text.isAscii = true) c h
  · exact isAscii_hexDigits h

theorem isAscii_quoteChar {c d : CodePoint} (hc : c.val < 128) (h : d ∈ quoteChar c) :
    Text.isAscii d = true := by
  have key : (quoteChar c).all Text.isAscii = true := by
    have hu : (escapeUnit c.val).all Text.isAscii = true :=
      List.all_eq_true.mpr fun _ => isAscii_escapeUnit
    unfold quoteChar
    repeat' split
    all_goals first
      | exact hu
      | decide
      | simp [Text.isAscii, hc]
  exact List.all_eq_true.mp key d h

theorem isAscii_quoteCharAscii {c d : CodePoint} (h : d ∈ quoteCharAscii c) :
    Text.isAscii d = true := by
  unfold quoteCharAscii at h
  split_ifs at h with h1 h2
  · exact isAscii_quoteChar (by omega) h
  · exact isAscii_escapeUnit h
  · rcases List.mem_append.mp h with h | h <;> exact isAscii_escapeUnit h

/-- An escaped text is ASCII. -/
theorem isAscii_quoteAscii {t : Text} {d : CodePoint} (h : d ∈ quoteAscii t) :
    Text.isAscii d = true := by
  simp only [quoteAscii, List.mem_append, List.mem_flatMap] at h
  rcases h with (h | ⟨c, -, h⟩) | h
  · exact List.all_eq_true.mp (by decide : (Text.ofString "\"").all Text.isAscii = true) d h
  · exact isAscii_quoteCharAscii h
  · exact List.all_eq_true.mp (by decide : (Text.ofString "\"").all Text.isAscii = true) d h

end Json

end Foundation
