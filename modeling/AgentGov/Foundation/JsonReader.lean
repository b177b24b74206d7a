import AgentGov.Foundation.Encodings
import AgentGov.Foundation.Json
import Mathlib.Data.Nat.Digits.Lemmas

/-!
# Reading JSON

A reader of JSON texts as the standard decoder reads them: any white space between tokens, every
escape, integers of bounded length, objects of distinct keys. Numbers with a fraction or an
exponent and the constants outside JSON are refused. Containers may nest as deep as the reader's
stack has `room`.

## Main definitions

* `Foundation.Json.scanValue`: one value at the start of a text.
* `Foundation.Json.loads`: the value a text is.
* `Foundation.Json.decodeText`: the text of bytes in a detected encoding.
* `Foundation.Json.Readable`: the values within the reader's bounds.
* `Foundation.Json.Reads`: a text is read as a code point in a string.

## Main results

* `Foundation.Json.scanString_reads`: a string of texts that are read as its code points is read
  back.
* `Foundation.Json.scanValue_dump`: a written value is read back, whatever follows it.
* `Foundation.Json.loads_dump`: the written text of a value is that value.
-/

namespace Foundation

/-- Why a text is not read: it is no JSON of the kind read here, or it nests too deep. -/
inductive JsonFault
  | invalid
  | nesting
  deriving DecidableEq, Repr

namespace Json

/-! ### Strings -/

/-- A code point of a string, and whether an escape of four digits wrote it. -/
abbrev Piece := CodePoint × Bool

/-- The unit four hexadecimal digits write. -/
def unitOf (a b c d : CodePoint) : Option ℕ :=
  match hexValue a, hexValue b, hexValue c, hexValue d with
  | some a, some b, some c, some d => some (((a.val * 16 + b.val) * 16 + c.val) * 16 + d.val)
  | _, _, _, _ => none

/-- The code point of an escape of one letter. -/
def unescape (c : CodePoint) : Option CodePoint :=
  if c.val = 34 ∨ c.val = 92 ∨ c.val = 47 then some c
  else if c.val = 98 then some 8
  else if c.val = 102 then some 12
  else if c.val = 110 then some 10
  else if c.val = 114 then some 13
  else if c.val = 116 then some 9
  else none

/-- A piece before the rest of a string. -/
def consPiece (p : Piece) : Option (List Piece × Text) → Option (List Piece × Text)
  | some (ps, t) => some (p :: ps, t)
  | none => none

/-- The pieces of a string up to its closing quote, and what follows. -/
def scanPieces : Text → Option (List Piece × Text)
  | [] => none
  | [c] => if c.val = 34 then some ([], []) else none
  | c :: e :: t =>
    if c.val = 34 then some ([], e :: t)
    else if c.val < 32 then none
    else if c.val ≠ 92 then consPiece (c, false) (scanPieces (e :: t))
    else if e.val = 117 then
      match t with
      | x :: y :: z :: w :: t =>
        match unitOf x y z w with
        | some u => consPiece (Fin.ofNat 0x110000 u, true) (scanPieces t)
        | none => none
      | _ => none
    else
      match unescape e with
      | some u => consPiece (u, false) (scanPieces t)
      | none => none

/-- The text of pieces: the halves of a surrogate pair are joined where both are escaped. -/
def joinPieces : List Piece → Text
  | [] => []
  | [p] => [p.1]
  | p :: q :: ps =>
    if p.2 && q.2 && Text.isHigh p.1.val && Text.isLow q.1.val then
      Fin.ofNat 0x110000 (Text.joinUnits p.1.val q.1.val) :: joinPieces ps
    else p.1 :: joinPieces (q :: ps)

/-- The string after an opening quote, and what follows its closing quote. -/
def scanString (t : Text) : Except JsonFault (Text × Text) :=
  match scanPieces t with
  | some (ps, t) => .ok (joinPieces ps, t)
  | none => .error .invalid

/-! ### Numbers and constants -/

/-- Whether a fraction or an exponent follows. -/
def hasFraction : Text → Bool
  | [] => false
  | c :: t =>
    if c.val = 46 then (t.head?.map isDigit).getD false
    else if c.val = 101 ∨ c.val = 69 then
      match t with
      | [] => false
      | d :: t =>
        if d.val = 43 ∨ d.val = 45 then (t.head?.map isDigit).getD false else isDigit d
    else false

/-- The most digits an integer may have. -/
def maxDigits : ℕ := 4300

/-- The digits of an integer and what follows: a zero stands alone. -/
def scanDigits (t : Text) : Text × Text :=
  match t with
  | [] => ([], [])
  | c :: r => if c.val = 48 then ([c], r) else (t.takeWhile isDigit, t.dropWhile isDigit)

/-- The integer at the start of a text. -/
def scanNatural (negative : Bool) (t : Text) : Except JsonFault (Json × Text) :=
  let (ds, t) := scanDigits t
  if ds = [] then .error .invalid
  else if hasFraction t then .error .invalid
  else if maxDigits < ds.length then .error .invalid
  else .ok (.int (if negative then -(ofDecimalDigits ds : ℤ) else ofDecimalDigits ds), t)

/-- A constant or an integer at the start of a text. -/
def scanAtom (t : Text) : Except JsonFault (Json × Text) :=
  match Text.stripPrefix? (Text.ofString "null") t with
  | some t => .ok (.null, t)
  | none =>
    match Text.stripPrefix? (Text.ofString "true") t with
    | some t => .ok (.bool true, t)
    | none =>
      match Text.stripPrefix? (Text.ofString "false") t with
      | some t => .ok (.bool false, t)
      | none =>
        match t with
        | [] => .error .invalid
        | c :: r => if c.val = 45 then scanNatural true r else scanNatural false t

/-! ### Values -/

/-- Whether the code point is white space between tokens. -/
def isBlank (c : CodePoint) : Bool := c.val = 32 || c.val = 9 || c.val = 10 || c.val = 13

/-- A text without the white space it starts with. -/
def skipBlanks (t : Text) : Text := t.dropWhile isBlank

/-- What follows a code point the text has to start with. -/
def after? (n : ℕ) : Text → Option Text
  | [] => none
  | c :: t => if c.val = n then some t else none

mutual

/-- The value at the start of a text, and what follows. -/
def scanValue : (fuel room : ℕ) → Text → Except JsonFault (Json × Text)
  | 0, _, _ => .error .invalid
  | _ + 1, _, [] => .error .invalid
  | fuel + 1, room, c :: t =>
    if c.val = 34 then
      match scanString t with
      | .ok (s, t) => .ok (.str s, t)
      | .error e => .error e
    else if c.val = 123 then
      match room with
      | 0 => .error .nesting
      | room + 1 =>
        match after? 125 (skipBlanks t) with
        | some t => .ok (.obj [], t)
        | none =>
          match scanMembers fuel room (skipBlanks t) with
          | .ok (fs, t) =>
            if (fs.map Prod.fst).Nodup then .ok (.obj fs, t) else .error .invalid
          | .error e => .error e
    else if c.val = 91 then
      match room with
      | 0 => .error .nesting
      | room + 1 =>
        match after? 93 (skipBlanks t) with
        | some t => .ok (.arr [], t)
        | none =>
          match scanItems fuel room (skipBlanks t) with
          | .ok (vs, t) => .ok (.arr vs, t)
          | .error e => .error e
    else scanAtom (c :: t)

/-- The items of an array from its next one on. -/
def scanItems : (fuel room : ℕ) → Text → Except JsonFault (List Json × Text)
  | 0, _, _ => .error .invalid
  | fuel + 1, room, t =>
    match scanValue fuel room t with
    | .error e => .error e
    | .ok (v, t) =>
      match after? 93 (skipBlanks t) with
      | some t => .ok ([v], t)
      | none =>
        match after? 44 (skipBlanks t) with
        | none => .error .invalid
        | some t =>
          match scanItems fuel room (skipBlanks t) with
          | .ok (vs, t) => .ok (v :: vs, t)
          | .error e => .error e

/-- The members of an object from its next one on. -/
def scanMembers : (fuel room : ℕ) → Text → Except JsonFault (List (Text × Json) × Text)
  | 0, _, _ => .error .invalid
  | fuel + 1, room, t =>
    match after? 34 t with
    | none => .error .invalid
    | some t =>
      match scanString t with
      | .error e => .error e
      | .ok (k, t) =>
        match after? 58 (skipBlanks t) with
        | none => .error .invalid
        | some t =>
          match scanValue fuel room (skipBlanks t) with
          | .error e => .error e
          | .ok (v, t) =>
            match after? 125 (skipBlanks t) with
            | some t => .ok ([(k, v)], t)
            | none =>
              match after? 44 (skipBlanks t) with
              | none => .error .invalid
              | some t =>
                match scanMembers fuel room (skipBlanks t) with
                | .ok (fs, t) => .ok ((k, v) :: fs, t)
                | .error e => .error e

end

/-- The value a text is, white space around it left out. -/
def loads (room : ℕ) (t : Text) : Except JsonFault Json :=
  match scanValue (2 * t.length + 2) room (skipBlanks t) with
  | .ok (v, t) => if skipBlanks t = [] then .ok v else .error .invalid
  | .error e => .error e

/-! ### Bytes -/

/-- The text of bytes in the encoding their first ones show. -/
def decodeText (bs : List Byte) : Option Text :=
  match bs with
  | 0 :: 0 :: 0xFE :: 0xFF :: t => Text.utf32Decode true t
  | 0xFF :: 0xFE :: 0 :: 0 :: t => Text.utf32Decode false t
  | 0xFE :: 0xFF :: t => Text.utf16Decode true t
  | 0xFF :: 0xFE :: t => Text.utf16Decode false t
  | 0xEF :: 0xBB :: 0xBF :: t => Text.utf8Decode t
  | a :: b :: c :: d :: _ =>
    if a = 0 then
      if b = 0 then Text.utf32Decode true bs else Text.utf16Decode true bs
    else if b = 0 then
      if c = 0 ∧ d = 0 then Text.utf32Decode false bs else Text.utf16Decode false bs
    else Text.utf8Decode bs
  | [a, b] =>
    if a = 0 then Text.utf16Decode true bs
    else if b = 0 then Text.utf16Decode false bs
    else Text.utf8Decode bs
  | bs => Text.utf8Decode bs

/-- The value of bytes. -/
def loadsBytes (room : ℕ) (bs : List Byte) : Except JsonFault Json :=
  match decodeText bs with
  | some t => loads room t
  | none => .error .invalid

/-- The bytes that written values start with. -/
def heads : List Byte := [34, 45, 48, 49, 50, 51, 52, 53, 54, 55, 56, 57, 91, 102, 110, 116, 123]

/-- Of bytes that start like a written value, the next ones tell the encoding. -/
theorem decodeText_cons {a : Byte} (hhead : a ∈ heads) (bs : List Byte) :
    decodeText (a :: bs) =
      match bs with
      | [b] => if b = 0 then Text.utf16Decode false [a, b] else Text.utf8Decode [a, b]
      | b :: c :: d :: t =>
        if b = 0 then
          if c = 0 ∧ d = 0 then Text.utf32Decode false (a :: b :: c :: d :: t)
          else Text.utf16Decode false (a :: b :: c :: d :: t)
        else Text.utf8Decode (a :: b :: c :: d :: t)
      | bs => Text.utf8Decode (a :: bs) := by
  simp only [heads, List.mem_cons, List.not_mem_nil, or_false] at hhead
  rcases hhead with rfl | rfl | rfl | rfl | rfl | rfl | rfl | rfl | rfl | rfl | rfl | rfl | rfl |
    rfl | rfl | rfl | rfl <;>
  match bs with
  | [] => rfl
  | [_] => rfl
  | [_, _] => rfl
  | _ :: _ :: _ :: _ => rfl

/-- Bytes that start like a written value, none a control code, are read as UTF-8. -/
theorem decodeText_of_head {a : Byte} {bs : List Byte} (hhead : a ∈ heads)
    (h : ∀ b ∈ bs, 32 ≤ b.val) : decodeText (a :: bs) = Text.utf8Decode (a :: bs) := by
  have hzero : ∀ b ∈ bs, b ≠ 0 := by
    rintro b hb rfl
    exact absurd (h 0 hb) (by decide)
  rw [decodeText_cons hhead]
  match bs, hzero with
  | [], _ => rfl
  | [b], hzero => exact if_neg (hzero b List.mem_cons_self)
  | [b, c], _ => rfl
  | b :: c :: d :: t, hzero => exact if_neg (hzero b List.mem_cons_self)

/-- Bytes that start with a brace, none a control code, are read as UTF-8. -/
theorem decodeText_of_brace {bs : List Byte} (hhead : bs.head? = some 123)
    (h : ∀ b ∈ bs, 32 ≤ b.val) : decodeText bs = Text.utf8Decode bs := by
  obtain ⟨cs, rfl⟩ := List.head?_eq_some_iff.mp hhead
  exact decodeText_of_head (by decide) fun b hb => h b (List.mem_cons_of_mem _ hb)

/-! ### Quoted texts are read back -/

theorem ofString_quote : Text.ofString "\"" = [34] := by decide

theorem ofString_escape : Text.ofString "\\u" = [92, 117] := by decide

theorem hexDigits_four (n : ℕ) : hexDigits 4 n = [hexDigit (Fin.ofNat 16 (n / 4096)),
    hexDigit (Fin.ofNat 16 (n / 256)), hexDigit (Fin.ofNat 16 (n / 16)),
    hexDigit (Fin.ofNat 16 n)] := by
  simp [hexDigits, Nat.div_div_eq_div_mul]

/-- The four digits of a unit are read back. -/
theorem unitOf_hexDigits {n : ℕ} (h : n < 0x10000) :
    unitOf (hexDigit (Fin.ofNat 16 (n / 4096))) (hexDigit (Fin.ofNat 16 (n / 256)))
      (hexDigit (Fin.ofNat 16 (n / 16))) (hexDigit (Fin.ofNat 16 n)) = some n := by
  simp only [unitOf, hexValue_hexDigit, Fin.ofNat_eq_cast, Fin.val_natCast, Option.some.injEq]
  omega

theorem scanPieces_plain {c : CodePoint} (h34 : c.val ≠ 34) (h32 : 32 ≤ c.val)
    (h92 : c.val ≠ 92) (rest : Text) :
    scanPieces (c :: rest) = consPiece (c, false) (scanPieces rest) := by
  cases rest with
  | nil => simp [scanPieces, h34, consPiece]
  | cons e t =>
    rw [scanPieces.eq_def]
    simp only [if_neg h34, if_neg (show ¬c.val < 32 by omega), if_pos h92]

theorem scanPieces_letter {e u : CodePoint} (he : e.val ≠ 117) (hu : unescape e = some u)
    (rest : Text) : scanPieces (92 :: e :: rest) = consPiece (u, false) (scanPieces rest) := by
  rw [scanPieces.eq_def]
  simp [he, hu]

theorem scanPieces_escapeUnit {n : ℕ} (h : n < 0x10000) (rest : Text) :
    scanPieces (escapeUnit n ++ rest) =
      consPiece (Fin.ofNat 0x110000 n, true) (scanPieces rest) := by
  rw [escapeUnit, ofString_escape, hexDigits_four]
  simp only [List.cons_append, List.nil_append]
  rw [scanPieces.eq_def]
  simp only [unitOf_hexDigits h]
  rfl

/-- The piece that writing a code point and reading it gives. -/
theorem scanPieces_quoteChar (c : CodePoint) (rest : Text) : ∃ b, (b = true → c.val < 32) ∧
    scanPieces (quoteChar c ++ rest) = consPiece (c, b) (scanPieces rest) := by
  have hletter : ∀ (s : String) (e : CodePoint), Text.ofString s = [92, e] → e.val ≠ 117 →
      unescape e = some c → scanPieces (Text.ofString s ++ rest) =
        consPiece (c, false) (scanPieces rest) := by
    intro s e hs he hu
    rw [hs]
    exact scanPieces_letter he hu rest
  have hval : ∀ {n : ℕ} (hn : n < 0x110000), c.val = n → c = ⟨n, hn⟩ :=
    fun _ h => Fin.ext h
  unfold quoteChar
  split_ifs with h34 h92 h10 h13 h9 h12 h8 h32
  · exact ⟨false, by simp, hletter _ 34 (by decide) (by decide) (by
      rw [hval (by decide) h34]; decide)⟩
  · exact ⟨false, by simp, hletter _ 92 (by decide) (by decide) (by
      rw [hval (by decide) h92]; decide)⟩
  · exact ⟨false, by simp, hletter _ 110 (by decide) (by decide) (by
      rw [hval (by decide) h10]; decide)⟩
  · exact ⟨false, by simp, hletter _ 114 (by decide) (by decide) (by
      rw [hval (by decide) h13]; decide)⟩
  · exact ⟨false, by simp, hletter _ 116 (by decide) (by decide) (by
      rw [hval (by decide) h9]; decide)⟩
  · exact ⟨false, by simp, hletter _ 102 (by decide) (by decide) (by
      rw [hval (by decide) h12]; decide)⟩
  · exact ⟨false, by simp, hletter _ 98 (by decide) (by decide) (by
      rw [hval (by decide) h8]; decide)⟩
  · refine ⟨true, fun _ => h32, ?_⟩
    rw [scanPieces_escapeUnit (by omega)]
    congr
    simp
  · exact ⟨false, by simp, scanPieces_plain h34 (by omega) h92 rest⟩

/-- A piece that is no escaped first half of a pair stands alone. -/
theorem joinPieces_cons {p : Piece} (h : (p.2 && Text.isHigh p.1.val) = false) (ps : List Piece) :
    joinPieces (p :: ps) = p.1 :: joinPieces ps := by
  cases ps with
  | nil => rfl
  | cons q ps =>
    rw [joinPieces, if_neg]
    intro hall
    simp only [Bool.and_eq_true] at hall
    simp [hall.1.1.1, hall.1.2] at h

/-- Whether a text is read as a code point wherever it stands in a string. -/
def Reads (x : Text) (c : CodePoint) : Prop :=
  ∀ rest, ∃ ps : List Piece,
    scanPieces (x ++ rest) = (scanPieces rest).map (fun y => (ps ++ y.1, y.2)) ∧
      ∀ qs, joinPieces (ps ++ qs) = c :: joinPieces qs

/-- A text that is one piece, of no first half of a pair. -/
theorem reads_piece {x : Text} {c : CodePoint} (escaped : Bool)
    (hhigh : (escaped && Text.isHigh c.val) = false)
    (h : ∀ rest, scanPieces (x ++ rest) = consPiece (c, escaped) (scanPieces rest)) :
    Reads x c := fun rest =>
  ⟨[(c, escaped)], by rw [h]; cases scanPieces rest <;> rfl, joinPieces_cons hhigh⟩

/-- A string whose code points are written as texts that are read as them is read back. -/
theorem scanString_reads {f : CodePoint → Text} {t : Text} (h : ∀ c ∈ t, Reads (f c) c)
    (rest : Text) : scanString (t.flatMap f ++ 34 :: rest) = .ok (t, rest) := by
  suffices h : ∃ ps, scanPieces (t.flatMap f ++ 34 :: rest) = some (ps, rest) ∧
      joinPieces ps = t by
    obtain ⟨ps, hps, ht⟩ := h
    rw [scanString, hps]
    simp only [ht]
  induction t with
  | nil =>
    refine ⟨[], ?_, rfl⟩
    rw [List.flatMap_nil, List.nil_append, scanPieces.eq_def]
    cases rest <;> simp
  | cons c t ih =>
    obtain ⟨ps, hps, ht⟩ := ih fun d hd => h d (List.mem_cons_of_mem c hd)
    obtain ⟨qs, hqs, hc⟩ := h c List.mem_cons_self (t.flatMap f ++ 34 :: rest)
    refine ⟨qs ++ ps, ?_, ?_⟩
    · rw [List.flatMap_cons, List.append_assoc, hqs, hps]
      rfl
    · rw [hc, ht]

/-- A code point quoted as it is is read as itself. -/
theorem reads_quoteChar (c : CodePoint) : Reads (quoteChar c) c := by
  intro rest
  obtain ⟨b, hb, hc⟩ := scanPieces_quoteChar c rest
  have hlow : (b && Text.isHigh c.val) = false := by
    cases b with
    | false => rfl
    | true =>
      have hlt := hb rfl
      simp only [Text.isHigh, Bool.true_and, Bool.and_eq_false_iff, decide_eq_false_iff_not]
      omega
  exact ⟨[(c, b)], by rw [hc]; cases scanPieces rest <;> rfl, joinPieces_cons hlow⟩

/-- A quoted text is read back. -/
theorem scanString_quote (t rest : Text) :
    scanString (t.flatMap quoteChar ++ 34 :: rest) = .ok (t, rest) :=
  scanString_reads (fun c _ => reads_quoteChar c) rest

/-! ### Integers are read back -/

theorem isDigit_digit {d : ℕ} (h : d < 10) : isDigit (digit d) = true := by
  interval_cases d <;> decide

theorem val_digit {d : ℕ} (h : d < 10) : (digit d).val = 48 + d := by
  interval_cases d <;> decide

/-- The digits of a number are digits. -/
theorem isDigit_of_mem {n : ℕ} {c : CodePoint} (h : c ∈ decimalDigits n) : isDigit c = true := by
  unfold decimalDigits at h
  split_ifs at h with hn
  · obtain rfl := List.mem_singleton.mp h
    decide
  · obtain ⟨d, hd, rfl⟩ := List.mem_map.mp h
    exact isDigit_digit (Nat.digits_lt_base (by omega) (List.mem_reverse.mp hd))

theorem ofDecimalDigits_map (ds : List ℕ) (h : ∀ d ∈ ds, d < 10) :
    ofDecimalDigits (ds.reverse.map digit) = Nat.ofDigits 10 ds := by
  induction ds with
  | nil => rfl
  | cons d ds ih =>
    have hd := val_digit (h d List.mem_cons_self)
    rw [List.reverse_cons, List.map_append, ofDecimalDigits, List.foldl_append]
    rw [ofDecimalDigits] at ih
    rw [ih fun e he => h e (List.mem_cons_of_mem d he), Nat.ofDigits_cons]
    simp only [List.map_cons, List.map_nil, List.foldl_cons, List.foldl_nil, hd]
    omega

/-- A number comes back from its digits. -/
@[simp] theorem ofDecimalDigits_decimalDigits (n : ℕ) :
    ofDecimalDigits (decimalDigits n) = n := by
  unfold decimalDigits
  split_ifs with hn
  · subst hn
    decide
  · rw [ofDecimalDigits_map _ fun d hd => Nat.digits_lt_base (by omega) hd, Nat.ofDigits_digits]

/-- Only zero has a numeral that starts with a zero. -/
theorem decimalDigits_eq_cons (n : ℕ) : ∃ c ds, decimalDigits n = c :: ds ∧
    (c.val = 48 → ds = [] ∧ n = 0) := by
  unfold decimalDigits
  split_ifs with hn
  · exact ⟨digit 0, [], rfl, fun _ => ⟨rfl, hn⟩⟩
  · have hne : Nat.digits 10 n ≠ [] := Nat.digits_ne_nil_iff_ne_zero.mpr hn
    have hlast := Nat.getLast_digit_ne_zero 10 hn
    refine ⟨digit ((Nat.digits 10 n).getLast hne), ((Nat.digits 10 n).dropLast.reverse).map digit,
      ?_, fun h => ?_⟩
    · conv_lhs => rw [← List.dropLast_append_getLast hne]
      simp
    · rw [val_digit (Nat.digits_lt_base (by omega) (List.getLast_mem hne))] at h
      omega

/-- Whether a text cannot go on an integer. -/
def Ends (t : Text) : Prop :=
  ∀ c ∈ t.head?, isDigit c = false ∧ c.val ≠ 46 ∧ c.val ≠ 101 ∧ c.val ≠ 69

theorem hasFraction_of_ends {t : Text} (h : Ends t) : hasFraction t = false := by
  cases t with
  | nil => rfl
  | cons c t =>
    obtain ⟨-, h1, h2, h3⟩ := h c (by simp)
    simp [hasFraction, h1, h2, h3]

/-- The digits of a number before a text that ends it. -/
theorem scanDigits_decimalDigits (n : ℕ) {rest : Text} (h : Ends rest) :
    scanDigits (decimalDigits n ++ rest) = (decimalDigits n, rest) := by
  obtain ⟨c, ds, hn, hzero⟩ := decimalDigits_eq_cons n
  have hall : ∀ d ∈ c :: ds, isDigit d = true := fun d hd => isDigit_of_mem (hn ▸ hd)
  have hend : rest.takeWhile isDigit = [] ∧ rest.dropWhile isDigit = rest := by
    cases rest with
    | nil => simp
    | cons e t =>
      have he := (h e (by simp)).1
      simp [he]
  rw [hn]
  by_cases hc : c.val = 48
  · obtain ⟨rfl, -⟩ := hzero hc
    simp [scanDigits, hc]
  · have hsplit : scanDigits (c :: ds ++ rest) =
        ((c :: ds ++ rest).takeWhile isDigit, (c :: ds ++ rest).dropWhile isDigit) := by
      simp [scanDigits, hc]
    rw [hsplit, List.takeWhile_append_of_pos hall, List.dropWhile_append_of_pos hall, hend.1,
      hend.2, List.append_nil]

theorem scanNatural_decimalDigits {n : ℕ} (hn : (decimalDigits n).length ≤ maxDigits)
    (negative : Bool) {rest : Text} (h : Ends rest) :
    scanNatural negative (decimalDigits n ++ rest) =
      .ok (.int (if negative then -(n : ℤ) else n), rest) := by
  obtain ⟨c, ds, hcons, -⟩ := decimalDigits_eq_cons n
  simp only [scanNatural, scanDigits_decimalDigits n h, hasFraction_of_ends h,
    ofDecimalDigits_decimalDigits, if_neg (show ¬maxDigits < (decimalDigits n).length by omega)]
  simp [hcons]

/-- A text that starts with a sign or a digit starts with no constant. -/
theorem scanAtom_numeral {c : CodePoint} (hc : c.val = 45 ∨ isDigit c = true) (t : Text) :
    scanAtom (c :: t) =
      if c.val = 45 then scanNatural true t else scanNatural false (c :: t) := by
  have hlt : c.val < 58 := by
    rcases hc with hc | hc
    · omega
    · simp only [isDigit, Bool.and_eq_true, decide_eq_true_eq] at hc
      omega
  have hne : ∀ m : CodePoint, 58 ≤ m.val → m ≠ c := by
    rintro m hm rfl
    omega
  have hwords : ∀ w ∈ ["null", "true", "false"],
      Text.stripPrefix? (Text.ofString w) (c :: t) = none := by
    intro w hw
    simp only [List.mem_cons, List.not_mem_nil, or_false] at hw
    rcases hw with rfl | rfl | rfl
    · rw [show Text.ofString "null" = [110, 117, 108, 108] by decide, Text.stripPrefix?,
        if_neg (hne _ (by decide))]
    · rw [show Text.ofString "true" = [116, 114, 117, 101] by decide, Text.stripPrefix?,
        if_neg (hne _ (by decide))]
    · rw [show Text.ofString "false" = [102, 97, 108, 115, 101] by decide, Text.stripPrefix?,
        if_neg (hne _ (by decide))]
  simp only [scanAtom, hwords "null" (by simp), hwords "true" (by simp), hwords "false" (by simp)]

/-- A numeral is read as the digits after its sign. -/
theorem scanAtom_intText_append (n : ℤ) (rest : Text) : scanAtom (intText n ++ rest) =
    scanNatural (decide (n < 0)) (decimalDigits n.natAbs ++ rest) := by
  obtain ⟨c, ds, hcons, -⟩ := decimalDigits_eq_cons n.natAbs
  have hc : isDigit c = true := isDigit_of_mem (hcons ▸ List.mem_cons_self)
  by_cases hneg : n < 0
  · rw [intText, if_pos hneg, show Text.ofString "-" = [45] by decide, List.append_assoc,
      List.singleton_append, scanAtom_numeral (Or.inl rfl), if_pos (by decide), decide_eq_true hneg]
  · have hc45 : c.val ≠ 45 := by
      simp only [isDigit, Bool.and_eq_true, decide_eq_true_eq] at hc
      omega
    rw [intText, if_neg hneg, hcons, List.cons_append, scanAtom_numeral (Or.inr hc), if_neg hc45,
      decide_eq_false hneg]

/-- An integer is read back. -/
theorem scanAtom_intText {n : ℤ} (hn : (decimalDigits n.natAbs).length ≤ maxDigits)
    {rest : Text} (h : Ends rest) : scanAtom (intText n ++ rest) = .ok (.int n, rest) := by
  rw [scanAtom_intText_append, scanNatural_decimalDigits hn _ h]
  by_cases hneg : n < 0
  · rw [decide_eq_true hneg, if_pos rfl, show -((n.natAbs : ℕ) : ℤ) = n by omega]
  · rw [decide_eq_false hneg, if_neg (by simp), show ((n.natAbs : ℕ) : ℤ) = n by omega]

/-! ### Values are read back -/

mutual

/-- The values within the reader's bounds, `room` levels of containers at most. -/
def Readable : ℕ → Json → Prop
  | _, null => True
  | _, bool _ => True
  | _, int n => (decimalDigits n.natAbs).length ≤ maxDigits
  | _, str _ => True
  | room, arr vs => 0 < room ∧ ReadableItems (room - 1) vs
  | room, obj fs => 0 < room ∧ (fs.map Prod.fst).Nodup ∧ ReadableMembers (room - 1) fs

/-- Every item is within the bounds. -/
def ReadableItems : ℕ → List Json → Prop
  | _, [] => True
  | room, v :: vs => Readable room v ∧ ReadableItems room vs

/-- Every member is within the bounds. -/
def ReadableMembers : ℕ → List (Text × Json) → Prop
  | _, [] => True
  | room, (_, v) :: fs => Readable room v ∧ ReadableMembers room fs

end

theorem ofString_brackets : Text.ofString "[" = [91] ∧ Text.ofString "]" = [93] ∧
    Text.ofString "[]" = [91, 93] ∧ Text.ofString "," = [44] ∧ Text.ofString ":" = [58] ∧
    Text.ofString "\x7b" = [123] ∧ Text.ofString "\x7d" = [125] ∧
    Text.ofString "\x7b\x7d" = [123, 125] := by
  decide

theorem ofString_words : Text.ofString "null" = [110, 117, 108, 108] ∧
    Text.ofString "true" = [116, 114, 117, 101] ∧
    Text.ofString "false" = [102, 97, 108, 115, 101] := by
  decide

theorem intText_eq_cons (n : ℤ) : ∃ c t, intText n = c :: t ∧ c.val ≠ 34 ∧ c.val ≠ 123 ∧
    c.val ≠ 91 := by
  obtain ⟨c, ds, hcons, -⟩ := decimalDigits_eq_cons n.natAbs
  have hc : isDigit c = true := isDigit_of_mem (hcons ▸ List.mem_cons_self)
  simp only [isDigit, Bool.and_eq_true, decide_eq_true_eq] at hc
  by_cases hneg : n < 0
  · exact ⟨45, _, by rw [intText, if_pos hneg]; rfl, by decide, by decide, by decide⟩
  · exact ⟨c, ds, by rw [intText, if_neg hneg, hcons], by omega, by omega, by omega⟩

/-- A code point that no value starts with does not start a written value. -/
theorem dump_eq_cons (v : Json) : ∃ c t, dump quote v = c :: t ∧ isBlank c = false ∧
    c.val ≠ 93 := by
  have hb := ofString_brackets
  have hw := ofString_words
  cases v with
  | null => exact ⟨110, _, by rw [dump, hw.1], by decide, by decide⟩
  | bool b =>
    cases b
    · exact ⟨102, _, by rw [dump, hw.2.2], by decide, by decide⟩
    · exact ⟨116, _, by rw [dump, hw.2.1], by decide, by decide⟩
  | int n =>
    obtain ⟨c, ds, hcons, -⟩ := decimalDigits_eq_cons n.natAbs
    have hc : isDigit c = true := isDigit_of_mem (hcons ▸ List.mem_cons_self)
    simp only [isDigit, Bool.and_eq_true, decide_eq_true_eq] at hc
    by_cases hneg : n < 0
    · exact ⟨45, _, by rw [dump, intText, if_pos hneg]; rfl, by decide, by decide⟩
    · refine ⟨c, ds, by rw [dump, intText, if_neg hneg, hcons], ?_, by omega⟩
      simp only [isBlank, Bool.or_eq_false_iff, decide_eq_false_iff_not]
      omega
  | str t => exact ⟨34, _, by rw [dump, quote, ofString_quote]; rfl, by decide, by decide⟩
  | arr vs =>
    cases vs with
    | nil => exact ⟨91, _, by rw [dump, hb.2.2.1], by decide, by decide⟩
    | cons v vs => exact ⟨91, _, by rw [dump, hb.1]; rfl, by decide, by decide⟩
  | obj fs =>
    cases fs with
    | nil => exact ⟨123, _, by rw [dump, hb.2.2.2.2.2.2.2], by decide, by decide⟩
    | cons f fs => exact ⟨123, _, by rw [dump, hb.2.2.2.2.2.1]; rfl, by decide, by decide⟩

/-- A written value starts with one of `heads`. -/
theorem dump_head_mem (v : Json) : ∃ (a : Byte) (c : CodePoint) (t : Text),
    dump quote v = c :: t ∧ a ∈ heads ∧ c.val = a.val := by
  have hb := ofString_brackets
  have hw := ofString_words
  cases v with
  | null => exact ⟨110, 110, _, by rw [dump, hw.1], by decide, rfl⟩
  | bool b =>
    cases b
    · exact ⟨102, 102, _, by rw [dump, hw.2.2], by decide, rfl⟩
    · exact ⟨116, 116, _, by rw [dump, hw.2.1], by decide, rfl⟩
  | int n =>
    by_cases hneg : n < 0
    · exact ⟨45, 45, _, by rw [dump, intText, if_pos hneg]; rfl, by decide, rfl⟩
    · obtain ⟨c, ds, hcons, -⟩ := decimalDigits_eq_cons n.natAbs
      have hc : isDigit c = true := isDigit_of_mem (hcons ▸ List.mem_cons_self)
      simp only [isDigit, Bool.and_eq_true, decide_eq_true_eq] at hc
      refine ⟨⟨c.val, by omega⟩, c, ds, by rw [dump, intText, if_neg hneg, hcons], ?_, rfl⟩
      simp only [heads, List.mem_cons, Fin.ext_iff]
      simp
      omega
  | str t => exact ⟨34, 34, _, by rw [dump, quote, ofString_quote]; rfl, by decide, rfl⟩
  | arr vs =>
    cases vs with
    | nil => exact ⟨91, 91, _, by rw [dump, hb.2.2.1], by decide, rfl⟩
    | cons v vs => exact ⟨91, 91, _, by rw [dump, hb.1]; rfl, by decide, rfl⟩
  | obj fs =>
    cases fs with
    | nil => exact ⟨123, 123, _, by rw [dump, hb.2.2.2.2.2.2.2], by decide, rfl⟩
    | cons f fs => exact ⟨123, 123, _, by rw [dump, hb.2.2.2.2.2.1]; rfl, by decide, rfl⟩

/-- No white space is skipped before a written value. -/
theorem skipBlanks_dump (v : Json) (rest : Text) :
    skipBlanks (dump quote v ++ rest) = dump quote v ++ rest := by
  obtain ⟨c, t, h, hblank, -⟩ := dump_eq_cons v
  rw [h, List.cons_append, skipBlanks, List.dropWhile_cons_of_neg (by simp [hblank])]

theorem skipBlanks_cons {c : CodePoint} (h : isBlank c = false) (t : Text) :
    skipBlanks (c :: t) = c :: t := by
  rw [skipBlanks, List.dropWhile_cons_of_neg (by simp [h])]

/-- An array does not end where a value starts. -/
theorem after?_dump (v : Json) (rest : Text) : after? 93 (dump quote v ++ rest) = none := by
  obtain ⟨c, t, h, -, hne⟩ := dump_eq_cons v
  rw [h, List.cons_append, after?, if_neg hne]

theorem ends_cons {c : CodePoint} (hdigit : isDigit c = false) (h1 : c.val ≠ 46)
    (h2 : c.val ≠ 101) (h3 : c.val ≠ 69) (t : Text) : Ends (c :: t) := by
  intro d hd
  obtain rfl : c = d := by simpa using hd
  exact ⟨hdigit, h1, h2, h3⟩

theorem dumpItems_eq_cons (q : Text → Text) (vs : List Json) : ∃ c t, dumpItems q vs = c :: t ∧
    (c.val = 93 ∨ c.val = 44) := by
  have hb := ofString_brackets
  cases vs with
  | nil => exact ⟨93, _, by rw [dumpItems, hb.2.1], by decide⟩
  | cons v vs => exact ⟨44, _, by rw [dumpItems, hb.2.2.2.1]; rfl, by decide⟩

theorem dumpFields_eq_cons (q : Text → Text) (fs : List (Text × Json)) :
    ∃ c t, dumpFields q fs = c :: t ∧ (c.val = 125 ∨ c.val = 44) := by
  have hb := ofString_brackets
  cases fs with
  | nil => exact ⟨125, _, by rw [dumpFields, hb.2.2.2.2.2.2.1], by decide⟩
  | cons f fs => exact ⟨44, _, by rw [dumpFields, hb.2.2.2.1]; rfl, by decide⟩

theorem ends_of_val {c : CodePoint} (h : c.val = 93 ∨ c.val = 44 ∨ c.val = 125) (t : Text) :
    Ends (c :: t) := by
  refine ends_cons ?_ (by omega) (by omega) (by omega) t
  simp only [isDigit, Bool.and_eq_false_iff, decide_eq_false_iff_not]
  omega

/-! The reader's steps, by the first code point. -/

-- the equations of the three readers, derived once for the lemmas on their steps
attribute [local simp] scanValue.eq_def scanItems.eq_def scanMembers.eq_def in
theorem scanValue_atom {c : CodePoint} (h34 : c.val ≠ 34) (h123 : c.val ≠ 123) (h91 : c.val ≠ 91)
    (fuel room : ℕ) (t : Text) : scanValue (fuel + 1) room (c :: t) = scanAtom (c :: t) := by
  rw [scanValue.eq_def]
  simp only [if_neg h34, if_neg h123, if_neg h91]

theorem scanValue_string (fuel room : ℕ) {t s r : Text} (h : scanString t = .ok (s, r)) :
    scanValue (fuel + 1) room (34 :: t) = .ok (.str s, r) := by
  rw [scanValue.eq_def]
  simp only [h]
  rfl

theorem scanValue_array (fuel room : ℕ) {t r : Text} {vs : List Json}
    (hclose : after? 93 (skipBlanks t) = none)
    (h : scanItems fuel room (skipBlanks t) = .ok (vs, r)) :
    scanValue (fuel + 1) (room + 1) (91 :: t) = .ok (.arr vs, r) := by
  rw [scanValue.eq_def]
  simp only [hclose, h]
  rfl

theorem scanValue_object (fuel room : ℕ) {t r : Text} {fs : List (Text × Json)}
    (hclose : after? 125 (skipBlanks t) = none)
    (h : scanMembers fuel room (skipBlanks t) = .ok (fs, r)) (hfs : (fs.map Prod.fst).Nodup) :
    scanValue (fuel + 1) (room + 1) (123 :: t) = .ok (.obj fs, r) := by
  rw [scanValue.eq_def]
  simp only [hclose, h, if_pos hfs]
  rfl

theorem scanValue_empty_array (fuel room : ℕ) (t : Text) :
    scanValue (fuel + 1) (room + 1) (91 :: 93 :: t) = .ok (.arr [], t) := by
  rw [scanValue.eq_def]
  rfl

theorem scanValue_empty_object (fuel room : ℕ) (t : Text) :
    scanValue (fuel + 1) (room + 1) (123 :: 125 :: t) = .ok (.obj [], t) := by
  rw [scanValue.eq_def]
  rfl

theorem scanItems_last (fuel room : ℕ) {t r : Text} {v : Json}
    (h : scanValue fuel room t = .ok (v, 93 :: r)) :
    scanItems (fuel + 1) room t = .ok ([v], r) := by
  rw [scanItems.eq_def]
  simp only [h]
  rfl

theorem scanItems_more (fuel room : ℕ) {t u r : Text} {v : Json} {vs : List Json}
    (h : scanValue fuel room t = .ok (v, 44 :: u))
    (hmore : scanItems fuel room (skipBlanks u) = .ok (vs, r)) :
    scanItems (fuel + 1) room t = .ok (v :: vs, r) := by
  rw [scanItems.eq_def]
  have hafter : after? 93 (skipBlanks (44 :: u)) = none ∧
      after? 44 (skipBlanks (44 :: u)) = some u := ⟨rfl, rfl⟩
  simp only [h, hafter.1, hafter.2, hmore]

theorem scanMembers_last (fuel room : ℕ) {t u r k : Text} {v : Json}
    (hk : scanString t = .ok (k, 58 :: u))
    (h : scanValue fuel room (skipBlanks u) = .ok (v, 125 :: r)) :
    scanMembers (fuel + 1) room (34 :: t) = .ok ([(k, v)], r) := by
  rw [scanMembers.eq_def]
  have hafter : after? 34 (34 :: t) = some t ∧ after? 58 (skipBlanks (58 :: u)) = some u ∧
      after? 125 (skipBlanks (125 :: r)) = some r := ⟨rfl, rfl, rfl⟩
  simp only [hafter.1, hk, hafter.2.1, h, hafter.2.2]

theorem scanMembers_more (fuel room : ℕ) {t u w r k : Text} {v : Json} {fs : List (Text × Json)}
    (hk : scanString t = .ok (k, 58 :: u))
    (h : scanValue fuel room (skipBlanks u) = .ok (v, 44 :: w))
    (hmore : scanMembers fuel room (skipBlanks w) = .ok (fs, r)) :
    scanMembers (fuel + 1) room (34 :: t) = .ok ((k, v) :: fs, r) := by
  rw [scanMembers.eq_def]
  have hafter : after? 34 (34 :: t) = some t ∧ after? 58 (skipBlanks (58 :: u)) = some u ∧
      after? 125 (skipBlanks (44 :: w)) = none ∧ after? 44 (skipBlanks (44 :: w)) = some w :=
    ⟨rfl, rfl, rfl, rfl⟩
  simp only [hafter.1, hk, hafter.2.1, h, hafter.2.2.1, hafter.2.2.2, hmore]

/-- The text of a member before what follows it. -/
theorem member_append (k : Text) (v : Json) (rest : Text) :
    quote k ++ Text.ofString ":" ++ dump quote v ++ rest =
      34 :: (k.flatMap quoteChar ++ 34 :: 58 :: (dump quote v ++ rest)) := by
  simp [quote, ofString_quote, ofString_brackets]

mutual

/-- A written value is read back, whatever ends it. -/
theorem scanValue_dump : ∀ (v : Json) {fuel room : ℕ} {rest : Text}, Readable room v →
    Ends rest → 2 * (dump quote v).length ≤ fuel →
    scanValue fuel room (dump quote v ++ rest) = .ok (v, rest)
  | v, 0, room, rest, hv, hrest, hfuel => by
    obtain ⟨c, t, h, -, -⟩ := dump_eq_cons v
    simp [h] at hfuel
  | null, fuel + 1, room, rest, hv, hrest, hfuel => by
    rw [dump, ofString_words.1, List.cons_append,
      scanValue_atom (by decide) (by decide) (by decide)]
    simp [scanAtom, ofString_words, Text.stripPrefix?]
  | bool true, fuel + 1, room, rest, hv, hrest, hfuel => by
    rw [dump, ofString_words.2.1, List.cons_append,
      scanValue_atom (by decide) (by decide) (by decide)]
    simp [scanAtom, ofString_words, Text.stripPrefix?]
  | bool false, fuel + 1, room, rest, hv, hrest, hfuel => by
    rw [dump, ofString_words.2.2, List.cons_append,
      scanValue_atom (by decide) (by decide) (by decide)]
    simp [scanAtom, ofString_words, Text.stripPrefix?]
  | int n, fuel + 1, room, rest, hv, hrest, hfuel => by
    have hatom := scanAtom_intText (n := n) hv hrest
    obtain ⟨c, t, h, h34, h123, h91⟩ := intText_eq_cons n
    rw [dump, h, List.cons_append, scanValue_atom h34 h123 h91, ← List.cons_append, ← h, hatom]
  | str t, fuel + 1, room, rest, hv, hrest, hfuel => by
    have htext : dump quote (str t) ++ rest = 34 :: (t.flatMap quoteChar ++ 34 :: rest) := by
      simp [dump, quote, ofString_quote]
    rw [htext, scanValue_string fuel room (scanString_quote t rest)]
  | arr [], fuel + 1, room, rest, hv, hrest, hfuel => by
    obtain ⟨room, rfl⟩ := Nat.exists_eq_succ_of_ne_zero hv.1.ne'
    rw [dump, ofString_brackets.2.2.1]
    exact scanValue_empty_array fuel room rest
  | arr (v :: vs), fuel + 1, room, rest, hv, hrest, hfuel => by
    obtain ⟨room, rfl⟩ := Nat.exists_eq_succ_of_ne_zero hv.1.ne'
    have htext : dump quote (arr (v :: vs)) ++ rest =
        91 :: (dump quote v ++ (dumpItems quote vs ++ rest)) := by
      simp [dump, ofString_brackets]
    have hlen : (dump quote (arr (v :: vs))).length =
        1 + (dump quote v ++ dumpItems quote vs).length := by
      simp [dump, ofString_brackets]
      omega
    rw [htext]
    refine scanValue_array fuel room ?_ ?_
    · rw [skipBlanks_dump, after?_dump]
    · rw [skipBlanks_dump, ← List.append_assoc]
      exact scanItems_dump v vs hv.2 (by omega)
  | obj [], fuel + 1, room, rest, hv, hrest, hfuel => by
    obtain ⟨room, rfl⟩ := Nat.exists_eq_succ_of_ne_zero hv.1.ne'
    rw [dump, ofString_brackets.2.2.2.2.2.2.2]
    exact scanValue_empty_object fuel room rest
  | obj ((k, v) :: fs), fuel + 1, room, rest, hv, hrest, hfuel => by
    obtain ⟨room, rfl⟩ := Nat.exists_eq_succ_of_ne_zero hv.1.ne'
    have htext : dump quote (obj ((k, v) :: fs)) ++ rest =
        123 :: (quote k ++ Text.ofString ":" ++ dump quote v ++ dumpFields quote fs ++ rest) := by
      simp [dump, ofString_brackets]
    have hlen : (dump quote (obj ((k, v) :: fs))).length =
        1 + (quote k ++ Text.ofString ":" ++ dump quote v ++ dumpFields quote fs).length := by
      simp [dump, ofString_brackets]
      omega
    have hmembers := @scanMembers_dump k v fs fuel _ rest hv.2.2 (by omega)
    have hblank : skipBlanks (quote k ++ Text.ofString ":" ++ dump quote v ++
        dumpFields quote fs ++ rest) = quote k ++ Text.ofString ":" ++ dump quote v ++
        dumpFields quote fs ++ rest := by
      rw [List.append_assoc _ _ rest, member_append]
      exact skipBlanks_cons (by decide) _
    rw [htext]
    refine scanValue_object fuel room ?_ ?_ hv.2.1
    · rw [hblank, List.append_assoc _ _ rest, member_append]
      rfl
    · rw [hblank]
      exact hmembers

/-- The items of a written array are read back. -/
theorem scanItems_dump : ∀ (v : Json) (vs : List Json) {fuel room : ℕ} {rest : Text},
    ReadableItems room (v :: vs) → 2 * (dump quote v ++ dumpItems quote vs).length < fuel →
    scanItems fuel room (dump quote v ++ dumpItems quote vs ++ rest) = .ok (v :: vs, rest)
  | v, vs, 0, room, rest, hv, hfuel => by omega
  | v, [], fuel + 1, room, rest, hv, hfuel => by
    rw [dumpItems, ofString_brackets.2.1, List.length_append] at hfuel
    rw [dumpItems, ofString_brackets.2.1, List.append_assoc]
    exact scanItems_last fuel room
      (scanValue_dump v hv.1 (ends_of_val (by decide) rest) (by omega))
  | v, w :: vs, fuel + 1, room, rest, hv, hfuel => by
    have hitems : dumpItems quote (w :: vs) = 44 :: (dump quote w ++ dumpItems quote vs) := by
      simp [dumpItems, ofString_brackets]
    rw [hitems, List.length_append, List.length_cons] at hfuel
    rw [hitems, List.append_assoc, List.cons_append]
    refine scanItems_more fuel room
      (scanValue_dump v hv.1 (ends_of_val (by decide) _) (by omega)) ?_
    rw [List.append_assoc, skipBlanks_dump, ← List.append_assoc]
    exact scanItems_dump w vs hv.2 (by omega)

/-- The members of a written object are read back. -/
theorem scanMembers_dump : ∀ (k : Text) (v : Json) (fs : List (Text × Json)) {fuel room : ℕ}
    {rest : Text}, ReadableMembers room ((k, v) :: fs) →
    2 * (quote k ++ Text.ofString ":" ++ dump quote v ++ dumpFields quote fs).length < fuel →
    scanMembers fuel room (quote k ++ Text.ofString ":" ++ dump quote v ++ dumpFields quote fs ++
      rest) = .ok ((k, v) :: fs, rest)
  | k, v, fs, 0, room, rest, hv, hfuel => by omega
  | k, v, [], fuel + 1, room, rest, hv, hfuel => by
    simp only [dumpFields, ofString_brackets.2.2.2.2.2.2.1] at *
    rw [List.append_assoc _ _ rest, member_append]
    refine scanMembers_last fuel room (scanString_quote k _) ?_
    rw [skipBlanks_dump]
    refine scanValue_dump v hv.1 (ends_of_val (by decide) rest) ?_
    simp only [List.length_append] at hfuel
    omega
  | k, v, (l, w) :: fs, fuel + 1, room, rest, hv, hfuel => by
    have hfields : dumpFields quote ((l, w) :: fs) =
        44 :: (quote l ++ Text.ofString ":" ++ dump quote w ++ dumpFields quote fs) := by
      simp [dumpFields, ofString_brackets]
    rw [hfields, List.length_append, List.length_append, List.length_cons] at hfuel
    rw [hfields, List.append_assoc _ _ rest, member_append]
    refine scanMembers_more fuel room (scanString_quote k _) (u := dump quote v ++ _)
      (w := quote l ++ Text.ofString ":" ++ dump quote w ++ dumpFields quote fs ++ rest) ?_ ?_
    · rw [skipBlanks_dump]
      exact scanValue_dump v hv.1 (ends_of_val (by decide) _) (by omega)
    · rw [List.append_assoc _ _ rest, member_append, skipBlanks_cons (by decide),
        ← member_append, ← List.append_assoc]
      exact scanMembers_dump l w fs hv.2 (by omega)

end

/-- The written text of a value is that value. -/
theorem loads_dump {room : ℕ} {v : Json} (hv : Readable room v) :
    loads room (dump quote v) = .ok v := by
  have hblank := skipBlanks_dump v []
  have hscan := @scanValue_dump v (2 * (dump quote v).length + 2) room [] hv
    (by simp [Ends]) (by omega)
  rw [List.append_nil] at hblank hscan
  rw [loads, hblank, hscan]
  rfl

/-- The text of a string on its own is that string. -/
theorem loads_string (room : ℕ) {t s : Text} (h : scanString t = .ok (s, [])) :
    loads room (34 :: t) = .ok (.str s) := by
  rw [loads, skipBlanks_cons (by decide), scanValue_string _ _ h]
  rfl

/-! ### Control codes are written as escapes -/

theorem le_val_hexDigit (d : Fin 16) : 32 ≤ (hexDigit d).val := by
  revert d; decide

theorem le_val_quoteChar {c d : CodePoint} (h : d ∈ quoteChar c) : 32 ≤ d.val := by
  have hunit : ∀ n, ∀ d ∈ escapeUnit n, 32 ≤ d.val := by
    intro n d hd
    rw [escapeUnit, ofString_escape, hexDigits_four] at hd
    simp only [List.cons_append, List.nil_append, List.mem_cons, List.not_mem_nil, or_false] at hd
    rcases hd with rfl | rfl | rfl | rfl | rfl | rfl
    · decide
    · decide
    all_goals exact le_val_hexDigit _
  have hletter : ∀ s : String, (Text.ofString s).all (fun d => 32 ≤ d.val) = true →
      ∀ d ∈ Text.ofString s, 32 ≤ d.val := by
    intro s hs d hd
    simpa using List.all_eq_true.mp hs d hd
  unfold quoteChar at h
  split_ifs at h with h34 h92 h10 h13 h9 h12 h8 h32
  · exact hletter _ (by decide) d h
  · exact hletter _ (by decide) d h
  · exact hletter _ (by decide) d h
  · exact hletter _ (by decide) d h
  · exact hletter _ (by decide) d h
  · exact hletter _ (by decide) d h
  · exact hletter _ (by decide) d h
  · exact hunit _ d h
  · obtain rfl := List.mem_singleton.mp h
    omega

theorem le_val_quote {t : Text} {d : CodePoint} (h : d ∈ quote t) : 32 ≤ d.val := by
  simp only [quote, ofString_quote, List.mem_append, List.mem_singleton, List.mem_flatMap] at h
  rcases h with (rfl | ⟨c, -, h⟩) | rfl
  · decide
  · exact le_val_quoteChar h
  · decide

theorem le_val_intText {n : ℤ} {d : CodePoint} (h : d ∈ intText n) : 32 ≤ d.val := by
  have hdigits : ∀ m : ℕ, ∀ d ∈ decimalDigits m, 32 ≤ d.val := by
    intro m d hd
    have := isDigit_of_mem hd
    simp only [isDigit, Bool.and_eq_true, decide_eq_true_eq] at this
    omega
  unfold intText at h
  split_ifs at h
  · rcases List.mem_append.mp h with h | h
    · rw [show Text.ofString "-" = [45] by decide] at h
      obtain rfl := List.mem_singleton.mp h
      decide
    · exact hdigits _ d h
  · exact hdigits _ d h

mutual

/-- A written value holds no control code. -/
theorem le_val_dump : ∀ (v : Json), ∀ d ∈ dump quote v, 32 ≤ d.val
  | null => by simp [dump, ofString_words]
  | bool true => by simp [dump, ofString_words]
  | bool false => by simp [dump, ofString_words]
  | int n => fun d hd => le_val_intText (n := n) hd
  | str t => fun d hd => le_val_quote (t := t) hd
  | arr [] => by simp [dump, ofString_brackets]
  | arr (v :: vs) => by
    intro d hd
    simp only [dump, ofString_brackets, List.mem_append, List.mem_singleton] at hd
    rcases hd with (rfl | hd) | hd
    · decide
    · exact le_val_dump v d hd
    · exact le_val_dumpItems vs d hd
  | obj [] => by simp [dump, ofString_brackets]
  | obj ((k, v) :: fs) => by
    intro d hd
    simp only [dump, ofString_brackets, List.mem_append, List.mem_singleton] at hd
    rcases hd with (((rfl | hd) | rfl) | hd) | hd
    · decide
    · exact le_val_quote hd
    · decide
    · exact le_val_dump v d hd
    · exact le_val_dumpFields fs d hd

theorem le_val_dumpItems : ∀ (vs : List Json), ∀ d ∈ dumpItems quote vs, 32 ≤ d.val
  | [] => by simp [dumpItems, ofString_brackets]
  | v :: vs => by
    intro d hd
    simp only [dumpItems, ofString_brackets, List.mem_append, List.mem_singleton] at hd
    rcases hd with (rfl | hd) | hd
    · decide
    · exact le_val_dump v d hd
    · exact le_val_dumpItems vs d hd

theorem le_val_dumpFields : ∀ (fs : List (Text × Json)), ∀ d ∈ dumpFields quote fs, 32 ≤ d.val
  | [] => by simp [dumpFields, ofString_brackets]
  | (k, v) :: fs => by
    intro d hd
    simp only [dumpFields, ofString_brackets, List.mem_append, List.mem_singleton] at hd
    rcases hd with (((rfl | hd) | rfl) | hd) | hd
    · decide
    · exact le_val_quote hd
    · decide
    · exact le_val_dump v d hd
    · exact le_val_dumpFields fs d hd

end

end Json

end Foundation
