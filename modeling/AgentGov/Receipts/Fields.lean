import AgentGov.Foundation.Checked
import AgentGov.Receipts.Canonical

/-!
# The fields of a document

How one JSON object is read field by field against an exact schema, and the formats of its fields
(`src/src/agentgov/receipts/schema.py`, lines 105–330). Digits of any script are digits to the
format of an instant, as they are to a regular expression's `\d`.

## Main definitions

* `AgentGov.Receipts.instantText`, `AgentGov.Receipts.parseInstant`: an instant written and read.
* `AgentGov.Receipts.Fields`: an object that has exactly the fields it should.
* `AgentGov.Receipts.Fields.text`, `AgentGov.Receipts.Fields.hex64`,
  `AgentGov.Receipts.Fields.integer`, `AgentGov.Receipts.Fields.instant`: its readers.

## Main results

* `AgentGov.Receipts.parseInstant_instantText`: an instant that was written is read back.
-/

namespace AgentGov.Receipts

open Foundation

/-! ### Instants -/

/-- The zeros of the decimal digits of Unicode 14. -/
def digitZeros : List ℕ :=
  [0x30, 0x660, 0x6f0, 0x7c0, 0x966, 0x9e6, 0xa66, 0xae6, 0xb66, 0xbe6, 0xc66, 0xce6, 0xd66, 0xde6,
   0xe50, 0xed0, 0xf20, 0x1040, 0x1090, 0x17e0, 0x1810, 0x1946, 0x19d0, 0x1a80, 0x1a90, 0x1b50,
   0x1bb0, 0x1c40, 0x1c50, 0xa620, 0xa8d0, 0xa900, 0xa9d0, 0xa9f0, 0xaa50, 0xabf0, 0xff10, 0x104a0,
   0x10d30, 0x11066, 0x110f0, 0x11136, 0x111d0, 0x112f0, 0x11450, 0x114d0, 0x11650, 0x116c0,
   0x11730, 0x118e0, 0x11950, 0x11c50, 0x11d50, 0x11da0, 0x16a60, 0x16ac0, 0x16b50, 0x1d7ce,
   0x1d7d8, 0x1d7e2, 0x1d7ec, 0x1d7f6, 0x1e140, 0x1e2f0, 0x1e950, 0x1fbf0]

/-- The value of a decimal digit of any script, `\d`. -/
def decimalValue (c : CodePoint) : Option ℕ :=
  (digitZeros.find? fun z => z ≤ c.val ∧ c.val < z + 10).map fun z => c.val - z

/-- The value of an ASCII digit within bounds, `[low-high]`. -/
def within (low high : ℕ) (c : CodePoint) : Option ℕ :=
  if 48 + low ≤ c.val ∧ c.val ≤ 48 + high then some (c.val - 48) else none

/-- The number two digits write. -/
def pair (a b : Option ℕ) : Option ℕ := a.bind fun a => b.map fun b => 10 * a + b

/-- `%m`. -/
def monthOf (a b : CodePoint) : Option ℕ :=
  if a.val = 49 then pair (some 1) (within 0 2 b) else pair (within 0 0 a) (within 1 9 b)

/-- `%d`. -/
def dayOf (a b : CodePoint) : Option ℕ :=
  if a.val = 51 then pair (some 3) (within 0 1 b)
  else if a.val = 48 then pair (some 0) (within 1 9 b)
  else pair (within 1 2 a) (decimalValue b)

/-- `%H`. -/
def hourOf (a b : CodePoint) : Option ℕ :=
  if a.val = 50 then pair (some 2) (within 0 3 b) else pair (within 0 1 a) (decimalValue b)

/-- `%M`. -/
def minuteOf (a b : CodePoint) : Option ℕ := pair (within 0 5 a) (decimalValue b)

/-- `%S`. -/
def secondOf (a b : CodePoint) : Option ℕ :=
  if a.val = 54 then pair (some 6) (within 0 1 b) else pair (within 0 5 a) (decimalValue b)

/-- The number digits write, each read by `value`. -/
def numberOf (value : CodePoint → Option ℕ) (t : Text) : Option ℕ :=
  t.foldl (fun n c => pair n (value c)) (some 0)

/-- The fields of an instant, or nothing where a format does not match. -/
structure Stamp where
  year : ℕ
  month : ℕ
  day : ℕ
  hour : ℕ
  minute : ℕ
  second : ℕ
  microsecond : ℕ

/-- The fields of a text of the shape of an instant, as `strptime` reads them. -/
def stampOf : Text → Option Stamp
  | y1 :: y2 :: y3 :: y4 :: _ :: m1 :: m2 :: _ :: d1 :: d2 :: _ :: h1 :: h2 :: _ :: n1 :: n2 ::
      _ :: s1 :: s2 :: _ :: f =>
    match numberOf decimalValue [y1, y2, y3, y4], monthOf m1 m2, dayOf d1 d2, hourOf h1 h2,
      minuteOf n1 n2, secondOf s1 s2, numberOf (within 0 9) (f.take 6) with
    | some y, some m, some d, some h, some n, some s, some f => some ⟨y, m, d, h, n, s, f⟩
    | _, _, _, _, _, _, _ => none
  | _ => none

/-- The shape of an instant, each zero a digit. -/
def instantShape : Text := txt "0000-00-00T00:00:00.000000Z"

/-- `_INSTANT`: whether a text has the shape of an instant. -/
def isInstantShape (t : Text) : Bool :=
  t.length = instantShape.length && (t.zip instantShape).all fun p =>
    if p.2.val = 48 then (decimalValue p.1).isSome else p.1 = p.2

/-- `instant`: the text of an instant. -/
def instantText (m : Instant) : Text :=
  paddedDigits 4 m.year ++ txt "-" ++ paddedDigits 2 m.month ++ txt "-" ++ paddedDigits 2 m.day ++
    txt "T" ++ paddedDigits 2 m.hour ++ txt ":" ++ paddedDigits 2 m.minute ++ txt ":" ++
    paddedDigits 2 m.second ++ txt "." ++ paddedDigits 6 m.microsecond ++ txt "Z"

/-- The instant of some fields, where there is one. -/
def Stamp.toInstant (s : Stamp) : Option Instant :=
  if h : 1 ≤ s.year ∧ s.year ≤ 9999 ∧ 1 ≤ s.month ∧ s.month ≤ 12 ∧ 1 ≤ s.day ∧
      s.day ≤ daysInMonth s.year s.month ∧ s.hour < 24 ∧ s.minute < 60 ∧ s.second < 60 ∧
      s.microsecond < 1000000 then
    some ⟨s.year, s.month, s.day, s.hour, s.minute, s.second, s.microsecond, h⟩
  else none

/-- `_parse_instant`. -/
def parseInstant (t path : Text) : Except Fault Instant :=
  if isInstantShape t then
    match (stampOf t).bind Stamp.toInstant with
    | some m => .ok m
    | none => .error (.malformed (path ++ txt " is not a real instant"))
  else
    .error (.malformed
      (path ++ txt " is not an ARC1 instant (YYYY-MM-DDTHH:MM:SS.ffffffZ)"))

/-! ### Instants are read back -/

theorem decimalDigits_of_lt {n : ℕ} (h : n < 10) : decimalDigits n = [digit n] := by
  interval_cases n <;> decide

theorem decimalDigits_of_le {n : ℕ} (h : 10 ≤ n) :
    decimalDigits n = decimalDigits (n / 10) ++ [digit (n % 10)] := by
  unfold decimalDigits
  rw [if_neg (by omega), if_neg (by omega), Nat.digits_def' (by omega) (by omega)]
  simp

/-- The last digit of a padded numeral. -/
theorem paddedDigits_succ (width n : ℕ) :
    paddedDigits (width + 2) n = paddedDigits (width + 1) (n / 10) ++ [digit (n % 10)] := by
  unfold paddedDigits
  by_cases h : 10 ≤ n
  · simp only [decimalDigits_of_le h, List.length_append, List.length_singleton,
      List.append_assoc]
    congr 2
    omega
  · rw [decimalDigits_of_lt (by omega), Nat.div_eq_of_lt (by omega), Nat.mod_eq_of_lt (by omega),
      decimalDigits_of_lt (by omega)]
    simp only [List.length_singleton, Nat.add_sub_cancel, ← List.replicate_succ']
    rfl

theorem paddedDigits_one {n : ℕ} (h : n < 10) : paddedDigits 1 n = [digit n] := by
  interval_cases n <;> decide

theorem paddedDigits_two {n : ℕ} (h : n < 100) :
    paddedDigits 2 n = [digit (n / 10), digit (n % 10)] := by
  rw [paddedDigits_succ 0, paddedDigits_one (by omega), List.singleton_append]

theorem paddedDigits_four {n : ℕ} (h : n < 10000) : paddedDigits 4 n =
    [digit (n / 1000), digit (n / 100 % 10), digit (n / 10 % 10), digit (n % 10)] := by
  rw [paddedDigits_succ 2, paddedDigits_succ 1, paddedDigits_two (by omega)]
  simp [Nat.div_div_eq_div_mul]

theorem paddedDigits_six {n : ℕ} (h : n < 1000000) : paddedDigits 6 n =
    [digit (n / 100000), digit (n / 10000 % 10), digit (n / 1000 % 10), digit (n / 100 % 10),
      digit (n / 10 % 10), digit (n % 10)] := by
  rw [paddedDigits_succ 4, paddedDigits_succ 3, paddedDigits_four (by omega)]
  simp [Nat.div_div_eq_div_mul]

@[simp] theorem decimalValue_digit {d : ℕ} (h : d < 10) : decimalValue (digit d) = some d := by
  interval_cases d <;> decide

@[simp] theorem within_digit {low high d : ℕ} (h : d < 10) (hlow : low ≤ d) (hhigh : d ≤ high) :
    within low high (digit d) = some d := by
  rw [within, Json.val_digit h, if_pos (by omega)]
  simp

theorem monthOf_digits {m : ℕ} (h1 : 1 ≤ m) (h2 : m ≤ 12) :
    monthOf (digit (m / 10)) (digit (m % 10)) = some m := by
  interval_cases m <;> decide

theorem dayOf_digits {d : ℕ} (h1 : 1 ≤ d) (h2 : d ≤ 31) :
    dayOf (digit (d / 10)) (digit (d % 10)) = some d := by
  interval_cases d <;> decide

theorem hourOf_digits {h : ℕ} (h2 : h < 24) : hourOf (digit (h / 10)) (digit (h % 10)) = some h := by
  interval_cases h <;> decide

theorem minuteOf_digits {n : ℕ} (h : n < 60) :
    minuteOf (digit (n / 10)) (digit (n % 10)) = some n := by
  rw [minuteOf, within_digit (by omega) (by omega) (by omega), decimalValue_digit (by omega)]
  simp only [pair, Option.bind_some, Option.map_some, Option.some.injEq]
  omega

theorem secondOf_digits {n : ℕ} (h : n < 60) :
    secondOf (digit (n / 10)) (digit (n % 10)) = some n := by
  rw [secondOf, Json.val_digit (by omega), if_neg (by omega)]
  exact minuteOf_digits h

theorem yearOf_digits {n : ℕ} (h : n < 10000) :
    numberOf decimalValue (paddedDigits 4 n) = some n := by
  rw [paddedDigits_four h]
  simp only [numberOf, List.foldl_cons, List.foldl_nil]
  rw [decimalValue_digit (by omega), decimalValue_digit (by omega), decimalValue_digit (by omega),
    decimalValue_digit (by omega)]
  simp only [pair, Option.bind_some, Option.map_some, Option.some.injEq]
  omega

theorem microOf_digits {n : ℕ} (h : n < 1000000) :
    numberOf (within 0 9) (paddedDigits 6 n) = some n := by
  rw [paddedDigits_six h]
  simp only [numberOf, List.foldl_cons, List.foldl_nil]
  rw [within_digit (by omega) (by omega) (by omega), within_digit (by omega) (by omega) (by omega),
    within_digit (by omega) (by omega) (by omega), within_digit (by omega) (by omega) (by omega),
    within_digit (by omega) (by omega) (by omega), within_digit (by omega) (by omega) (by omega)]
  simp only [pair, Option.bind_some, Option.map_some, Option.some.injEq]
  omega

theorem daysInMonth_le (year month : ℕ) : daysInMonth year month ≤ 31 := by
  unfold daysInMonth
  split_ifs <;> omega

/-- An instant that was written is read back. -/
theorem parseInstant_instantText (m : Instant) (path : Text) :
    parseInstant (instantText m) path = .ok m := by
  obtain ⟨h1, h2, h3, h4, h5, h6, h7, h8, h9, h10⟩ := m.valid
  have hday := daysInMonth_le m.year m.month
  have hseparators : txt "-" = [45] ∧ txt "T" = [84] ∧ txt ":" = [58] ∧ txt "." = [46] ∧
      txt "Z" = [90] := by decide
  have htext : instantText m =
      [digit (m.year / 1000), digit (m.year / 100 % 10), digit (m.year / 10 % 10),
        digit (m.year % 10), 45, digit (m.month / 10), digit (m.month % 10), 45,
        digit (m.day / 10), digit (m.day % 10), 84, digit (m.hour / 10), digit (m.hour % 10), 58,
        digit (m.minute / 10), digit (m.minute % 10), 58, digit (m.second / 10),
        digit (m.second % 10), 46, digit (m.microsecond / 100000),
        digit (m.microsecond / 10000 % 10), digit (m.microsecond / 1000 % 10),
        digit (m.microsecond / 100 % 10), digit (m.microsecond / 10 % 10),
        digit (m.microsecond % 10), 90] := by
    rw [instantText, paddedDigits_four (by omega), paddedDigits_two (by omega),
      paddedDigits_two (by omega), paddedDigits_two (by omega), paddedDigits_two (by omega),
      paddedDigits_two (by omega), paddedDigits_six (by omega)]
    simp [hseparators]
  have hshape : isInstantShape (instantText m) = true := by
    have hval : instantShape = [48, 48, 48, 48, 45, 48, 48, 45, 48, 48, 84, 48, 48, 58, 48, 48, 58,
        48, 48, 46, 48, 48, 48, 48, 48, 48, 90] := by decide
    have hdigit : ∀ d, d < 10 → (decimalValue (digit d)).isSome = true := by
      intro d hd
      rw [decimalValue_digit hd]
      rfl
    rw [isInstantShape, htext, hval]
    simp [Nat.mod_lt]
    exact ⟨hdigit _ (by omega), hdigit _ (by omega), hdigit _ (by omega), hdigit _ (by omega),
      hdigit _ (by omega), hdigit _ (by omega), hdigit _ (by omega)⟩
  have hstamp : stampOf (instantText m) =
      some ⟨m.year, m.month, m.day, m.hour, m.minute, m.second, m.microsecond⟩ := by
    have hyear := yearOf_digits (n := m.year) (by omega)
    have hmicro := microOf_digits h10
    rw [paddedDigits_four (by omega)] at hyear
    rw [paddedDigits_six h10] at hmicro
    rw [htext]
    simp only [stampOf, List.take_succ_cons, List.take_zero, hyear, hmicro, monthOf_digits h3 h4,
      dayOf_digits h5 (h6.trans hday), hourOf_digits h7, minuteOf_digits h8, secondOf_digits h9]
  have hinstant : Stamp.toInstant ⟨m.year, m.month, m.day, m.hour, m.minute, m.second,
      m.microsecond⟩ = some m := by
    rw [Stamp.toInstant, dif_pos m.valid]
  rw [parseInstant, if_pos hshape, hstamp, Option.bind_some, hinstant]

/-! ### Formats -/

/-- `_TEXT`: one to 512 characters, none a control character. -/
def isText (t : Text) : Bool :=
  1 ≤ t.length && t.length ≤ 512 && t.all fun c => 0x1f < c.val && c.val ≠ 0x7f

/-- So many lower-case hexadecimal digits. -/
def isHexOf (n : ℕ) (t : Text) : Bool := t.length = n && t.all isHexDigit

/-- `_UUID`: a UUID in lower case, with its hyphens. -/
def isUuidText (t : Text) : Bool :=
  t.length = 36 && t.zipIdx.all fun p =>
    if p.2 = 8 ∨ p.2 = 13 ∨ p.2 = 18 ∨ p.2 = 23 then p.1 = 45 else isHexDigit p.1

/-- `_check_text`. -/
def checkText (value : Json) (path : Text) : Except Fault Text :=
  match value with
  | .str t =>
    if isText t then .ok t
    else .error (.malformed (path ++ txt
      " must be a non-empty string of at most 512 characters with no control characters"))
  | _ => .error (.malformed (path ++ txt
      " must be a non-empty string of at most 512 characters with no control characters"))

/-- `_check_pattern`. -/
def checkPattern (value : Json) (pattern : Text → Bool) (what path : Text) : Except Fault Text :=
  match value with
  | .str t =>
    if pattern t then .ok t else .error (.malformed (path ++ txt " must be " ++ what))
  | _ => .error (.malformed (path ++ txt " must be " ++ what))

/-- `_check_int`. -/
def checkInt (value : Json) (path : Text) (minimum : ℤ) : Except Fault ℤ :=
  match value with
  | .int n =>
    if minimum ≤ n ∧ n ≤ maxSafeInteger then .ok n
    else .error (.malformed
      (path ++ txt " must be between " ++ intText minimum ++ txt " and 2**53 - 1"))
  | _ => .error (.malformed (path ++ txt " must be an integer"))

/-! ### Objects -/

/-- The value of a member. -/
def member? (key : Text) : List (Text × Json) → Option Json
  | [] => none
  | (k, v) :: fs => if k = key then some v else member? key fs

/-- Whether a text comes before another by its code points, or is it. -/
def pointsLe (a b : Text) : Bool := unitsLe (a.map Fin.val) (b.map Fin.val)

/-- A name put among others in order. -/
def insertName (t : Text) : List Text → List Text
  | [] => [t]
  | u :: us => if pointsLe t u then t :: u :: us else u :: insertName t us

/-- `', '.join(sorted(names))`. -/
def namesText (names : List Text) : Text :=
  List.intercalate (txt ", ") (names.foldr insertName [])

/-- `_Fields`: a JSON object with the fields of a schema and no others. -/
structure Fields where
  path : Text
  value : List (Text × Json)

/-- `_Fields(value, path, names, optional)`. -/
def Fields.ofJson (value : Json) (path : Text) (names optional : List Text) :
    Except Fault Fields :=
  match value with
  | .obj fs =>
    let missing := names.filter fun n => (member? n fs).isNone
    let unknown := (fs.map Prod.fst).filter fun k => !(names.contains k || optional.contains k)
    if missing ≠ [] then
      .error (.malformed (path ++ txt " is missing " ++ namesText missing))
    else if unknown ≠ [] then
      .error (.malformed (path ++ txt " has unknown field(s) " ++ namesText unknown ++
        txt "; ARC1 verifiers refuse what they do not understand"))
    else .ok ⟨path, fs⟩
  | _ => .error (.malformed (path ++ txt " must be a JSON object"))

namespace Fields

variable (f : Fields) (key : Text)

/-- `raw`: the value of a field the schema names. -/
def raw : Json := (member? key f.value).getD .null

/-- `has`. -/
def has : Bool := (member? key f.value).isSome

/-- `path`: the path of a field. -/
def pathOf : Text := f.path ++ txt "." ++ key

/-- `version`. -/
def version (expected : Text) : Except Fault PUnit.{1} :=
  match f.raw (txt "v") with
  | .str t =>
    if t = expected then .ok ⟨⟩
    else .error (.malformed (f.pathOf (txt "v") ++ txt " must be '" ++ expected ++ txt "'"))
  | _ => .error (.malformed (f.pathOf (txt "v") ++ txt " must be '" ++ expected ++ txt "'"))

/-- `text`. -/
def text : Except Fault Text := checkText (f.raw key) (f.pathOf key)

/-- `hex64`. -/
def hex64 : Except Fault Text :=
  checkPattern (f.raw key) (isHexOf 64) (txt "64 lowercase hex characters (a SHA-256)")
    (f.pathOf key)

/-- `optional_text`. -/
def optionalText : Except Fault (Option Text) :=
  match f.raw key with
  | .null => .ok none
  | v => some <$> checkText v (f.pathOf key)

/-- `uuid`. -/
def uuid : Except Fault Text :=
  checkPattern (f.raw key) isUuidText (txt "a canonical lowercase UUID") (f.pathOf key)

/-- `array`. -/
def array : Except Fault (List Json) :=
  match f.raw key with
  | .arr items => .ok items
  | _ => .error (.malformed (f.pathOf key ++ txt " must be an array"))

/-- The path of an item of an array. -/
def itemPath (path : Text) (index : ℕ) : Text := path ++ txt "[" ++ decimalDigits index ++ txt "]"

/-- `hashes`. -/
def hashes : Except Fault (List Text) := do
  let items ← f.array key
  items.zipIdx.mapM fun p =>
    checkPattern p.1 (isHexOf 64) (txt "a SHA-256 in hex") (itemPath (f.pathOf key) p.2)

/-- `integer`. -/
def integer (minimum : ℤ) : Except Fault ℤ := checkInt (f.raw key) (f.pathOf key) minimum

/-- `instant`. -/
def instant : Except Fault Instant :=
  match f.raw key with
  | .str t => parseInstant t (f.pathOf key)
  | _ => .error (.malformed (f.pathOf key ++ txt " must be a string"))

/-- `optional_child`. -/
def optionalChild (names : List Text) : Except Fault (Option Fields) :=
  match f.raw key with
  | .null => .ok none
  | v =>
    match Fields.ofJson v (f.pathOf key) names [] with
    | .ok g => .ok (some g)
    | .error e => .error e

/-! What the readers accept. -/

variable {f key}

theorem checkText_eq_ok {v : Json} {path t : Text} :
    checkText v path = .ok t ↔ v = .str t ∧ isText t = true := by
  unfold checkText
  cases v with
  | str u =>
    by_cases hu : isText u = true
    · simp only [hu, if_true, Except.ok.injEq, Json.str.injEq]
      exact ⟨fun h => ⟨h, h ▸ hu⟩, fun h => h.1⟩
    · simp only [hu, Bool.false_eq_true, if_false, Json.str.injEq]
      exact ⟨nofun, fun h => absurd (h.1 ▸ h.2) hu⟩
  | _ => simp

theorem text_eq_ok {t : Text} : f.text key = .ok t ↔ f.raw key = .str t ∧ isText t = true :=
  checkText_eq_ok

theorem optionalText_eq_ok {t : Option Text} : f.optionalText key = .ok t ↔
    (f.raw key = .null ∧ t = none) ∨ ∃ u, f.raw key = .str u ∧ isText u = true ∧ t = some u := by
  unfold optionalText
  cases hraw : f.raw key with
  | null =>
    simp only [Except.ok.injEq, true_and, reduceCtorEq, false_and, exists_const, or_false]
    exact eq_comm
  | str u =>
    have hread : (some <$> checkText (.str u) (f.pathOf key) = .ok t) ↔
        ∃ v, checkText (.str u) (f.pathOf key) = .ok v ∧ some v = t := by
      cases checkText (.str u) (f.pathOf key) <;> simp
    simp only [hread, checkText_eq_ok, Json.str.injEq, reduceCtorEq, false_and, false_or]
    exact exists_congr fun v => by rw [and_assoc, eq_comm (a := t)]
  | _ => simp [checkText]

/-- An instant that was written is read. -/
theorem instant_of_raw {m : Instant} (h : f.raw key = .str (instantText m)) :
    f.instant key = .ok m := by
  unfold instant
  simp only [h]
  exact parseInstant_instantText m _

theorem checkPattern_eq_ok {v : Json} {pattern : Text → Bool} {what path t : Text} :
    checkPattern v pattern what path = .ok t ↔ v = .str t ∧ pattern t = true := by
  unfold checkPattern
  cases v with
  | str u =>
    by_cases hu : pattern u = true
    · simp only [hu, if_true, Except.ok.injEq, Json.str.injEq]
      exact ⟨fun h => ⟨h, h ▸ hu⟩, fun h => h.1⟩
    · simp only [hu, Bool.false_eq_true, if_false, Json.str.injEq]
      exact ⟨nofun, fun h => absurd (h.1 ▸ h.2) hu⟩
  | _ => simp

theorem hex64_eq_ok {t : Text} :
    f.hex64 key = .ok t ↔ f.raw key = .str t ∧ isHexOf 64 t = true :=
  checkPattern_eq_ok

theorem uuid_eq_ok {t : Text} :
    f.uuid key = .ok t ↔ f.raw key = .str t ∧ isUuidText t = true :=
  checkPattern_eq_ok

theorem array_eq_ok {items : List Json} : f.array key = .ok items ↔ f.raw key = .arr items := by
  unfold array
  cases f.raw key <;> simp

/-- Hashes are read as they were written. -/
theorem hashes_of_raw {ts : List Text} (h : f.raw key = .arr (ts.map .str))
    (hts : ∀ t ∈ ts, isHexOf 64 t = true) : f.hashes key = .ok ts := by
  rw [hashes, array_eq_ok.mpr h, ok_bind, mapM_eq_ok, List.forall₂_iff_get]
  refine ⟨by simp, fun i hi hi' => ?_⟩
  rw [checkPattern_eq_ok]
  exact ⟨by simp, hts _ (List.getElem_mem _)⟩

theorem checkInt_eq_ok {v : Json} {path : Text} {minimum n : ℤ} :
    checkInt v path minimum = .ok n ↔ v = .int n ∧ minimum ≤ n ∧ n ≤ maxSafeInteger := by
  unfold checkInt
  cases v with
  | int m =>
    by_cases hm : minimum ≤ m ∧ m ≤ maxSafeInteger
    · simp only [if_pos hm, Except.ok.injEq, Json.int.injEq]
      exact ⟨fun h => ⟨h, h ▸ hm⟩, fun h => h.1⟩
    · simp only [if_neg hm, Json.int.injEq]
      exact ⟨nofun, fun h => absurd (h.1 ▸ h.2) hm⟩
  | _ => simp

theorem integer_eq_ok {minimum n : ℤ} : f.integer key minimum = .ok n ↔
    f.raw key = .int n ∧ minimum ≤ n ∧ n ≤ maxSafeInteger :=
  checkInt_eq_ok

end Fields

end AgentGov.Receipts
