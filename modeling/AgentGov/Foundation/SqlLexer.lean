import AgentGov.Foundation.JsonReader

/-!
# Reading SQL

The lexer of PostgreSQL, as far as it is documented for constants, names and operators, over the
characters of a message. Comments, dollar quotes, parameters, bit strings, Unicode escapes,
decimals and operators of several characters are not read: a text that holds one is refused, so
that what is read here is what the server reads.

A plain string is read with backslash escapes where `standard_conforming_strings` is off, and two
strings with nothing but a line break between them are one.

## Main definitions

* `Foundation.Sql.Token`, `Foundation.Sql.lex`: tokens, and the tokens of a text.
* `Foundation.Sql.Reads`: a text is read as some tokens, whatever follows it.

## Main results

* `Foundation.Sql.Reads.append`: texts read one after the other.
* `Foundation.Sql.reads_of_lex`: a text without quotes that ends in a separator.
* `Foundation.Sql.reads_plain`, `Foundation.Sql.reads_escaped`: string constants.
-/

namespace Foundation.Sql

/-! ### Characters -/

/-- A single quote. -/
def quote : CodePoint := 39

/-- A double quote. -/
def doubleQuote : CodePoint := 34

/-- A backslash. -/
def backslash : CodePoint := 92

/-- Whether the character is a space, a tabulator, a line feed, a form feed or a return. -/
def isSpace (c : CodePoint) : Bool := c.val ∈ [9, 10, 12, 13, 32]

/-- Whether the character ends a line. -/
def isNewline (c : CodePoint) : Bool := c.val ∈ [10, 13]

/-- Whether a name can start with the character. -/
def startsName (c : CodePoint) : Bool :=
  (65 ≤ c.val && c.val ≤ 90) || (97 ≤ c.val && c.val ≤ 122) || c.val == 95 || 128 ≤ c.val

/-- Whether the character can stand in a name. -/
def isNameChar (c : CodePoint) : Bool := startsName c || isDigit c || c.val == 36

/-- Whether the character stands for itself: `,`, `(`, `)`, `[`, `]` or `;`. -/
def isSeparator (c : CodePoint) : Bool := c.val ∈ [44, 40, 41, 91, 93, 59]

/-- Whether operators are made of the character. -/
def isOperator (c : CodePoint) : Bool :=
  c.val ∈ [126, 33, 64, 35, 94, 38, 124, 96, 63, 43, 45, 42, 47, 37, 60, 62, 61]

/-- Whether the character is a colon or a dot. -/
def isMark (c : CodePoint) : Bool := c.val ∈ [58, 46]

/-- A character of an unquoted name in lower case. -/
def fold (c : CodePoint) : CodePoint :=
  if 65 ≤ c.val ∧ c.val ≤ 90 then Fin.ofNat 0x110000 (c.val + 32) else c

/-! ### Strings -/

/-- What follows the quote that goes on with a string: after a line break and other spaces. -/
def continuation (text : Text) : Option Text :=
  match text.dropWhile fun c => isSpace c && !isNewline c with
  | c :: rest =>
    if isNewline c then
      match rest.dropWhile isSpace with
      | d :: more => if d = quote then some more else none
      | [] => none
    else none
  | [] => none

/-- What a backslash and a character stand for; escapes by number, and of quotes, are not read. -/
def unescaped (c : CodePoint) : Option CodePoint :=
  if c.val = 98 then some 8
  else if c.val = 102 then some 12
  else if c.val = 110 then some 10
  else if c.val = 114 then some 13
  else if c.val = 116 then some 9
  else if c.val ∈ [39, 117, 85, 120] ∨ isDigit c then none
  else some c

theorem length_dropWhile_le {α : Type*} (p : α → Bool) (l : List α) :
    (l.dropWhile p).length ≤ l.length := (List.dropWhile_sublist p).length_le

theorem length_continuation {text more : Text} (h : continuation text = some more) :
    more.length < text.length := by
  rw [continuation] at h
  split at h
  · rename_i c rest hfirst
    split_ifs at h
    split at h
    · rename_i d more' hsecond
      split_ifs at h
      obtain rfl := Option.some.inj h
      have hlast := length_dropWhile_le isSpace rest
      have hhead := length_dropWhile_le (fun c => isSpace c && !isNewline c) text
      rw [hsecond, List.length_cons] at hlast
      rw [hfirst, List.length_cons] at hhead
      omega
    · cases h
  · cases h

/-- A string after its first quote, with or without escapes, and what follows it. -/
def readString (escapes : Bool) (text : Text) : Option (Text × Text) :=
  match text with
  | [] => none
  | c :: rest =>
    if c = quote then
      match rest with
      | [] => some ([], [])
      | d :: more =>
        if d = quote then (fun r => (quote :: r.1, r.2)) <$> readString escapes more
        else
          match _h : continuation (d :: more) with
          | some further => readString escapes further
          | none => some ([], d :: more)
    else if escapes = true ∧ c = backslash then
      match rest with
      | [] => none
      | d :: more =>
        match unescaped d with
        | none => none
        | some e => (fun r => (e :: r.1, r.2)) <$> readString escapes more
    else (fun r => (c :: r.1, r.2)) <$> readString escapes rest
termination_by text.length
decreasing_by
  · simp
  · have := length_continuation _h
    simp only [List.length_cons] at this ⊢
    omega
  · simp
  · simp

/-- A quoted name after its first quote, and what follows it. -/
def readName : Text → Option (Text × Text)
  | [] => none
  | c :: rest =>
    if c = doubleQuote then
      match rest with
      | d :: more =>
        if d = doubleQuote then (fun r => (doubleQuote :: r.1, r.2)) <$> readName more
        else some ([], rest)
      | [] => some ([], [])
    else (fun r => (c :: r.1, r.2)) <$> readName rest

/-! ### Tokens -/

/-- A token. -/
inductive Token
  /-- A key word or a name without quotes, in lower case. -/
  | word (text : Text)
  /-- A name in double quotes. -/
  | name (text : Text)
  /-- An integer constant. -/
  | number (n : ℕ)
  /-- A string constant. -/
  | string (text : Text)
  /-- `::`. -/
  | typecast
  /-- A character that stands for itself, or an operator of one character. -/
  | symbol (c : CodePoint)
deriving DecidableEq

/-- A word that is over, unless it starts a string constant. -/
def endWord (word after : Text) : Option (List Token × Text) :=
  match after with
  | [] => some ([.word word], [])
  | d :: more =>
    if d = quote then
      if word = [101] then (fun r => ([.string r.1], r.2)) <$> readString true more
      else if word ∈ [[98], [110], [120]] then none
      else some ([.word word], after)
    else if d.val = 38 ∧ word = [117] then none
    else some ([.word word], after)

/-- A word, or a string constant that starts with its `E`. -/
def scanWord (text : Text) : Option (List Token × Text) :=
  let word := text.takeWhile isNameChar
  -- longer names are cut, and what else is a letter depends on the server
  if 63 < word.length ∨ word.all Text.isAscii = false then none
  else endWord (word.map fold) (text.dropWhile isNameChar)

/-- An integer constant. -/
def scanNumber (text : Text) : Option (List Token × Text) :=
  let after := text.dropWhile isDigit
  let token := Token.number (ofDecimalDigits (text.takeWhile isDigit))
  match after with
  | [] => some ([token], [])
  | d :: _ => if startsName d ∨ d.val = 46 then none else some ([token], after)

/-- A colon or a dot, or two colons. -/
def scanMark (c : CodePoint) (rest : Text) : Option (List Token × Text) :=
  match rest with
  | [] => some ([.symbol c], [])
  | d :: more =>
    if c.val = 58 ∧ d.val = 58 then some ([.typecast], more)
    else if c.val = 58 ∧ d.val = 61 then none
    else if c.val = 46 ∧ (d.val = 46 ∨ isDigit d) then none
    else some ([.symbol c], rest)

/-- An operator of one character. -/
def scanOperator (c : CodePoint) (rest : Text) : Option (List Token × Text) :=
  match rest with
  | [] => some ([.symbol c], [])
  | d :: _ => if isOperator d then none else some ([.symbol c], rest)

/-- The token a text starts with, or none for a space, and what follows it. -/
def scan (conforming : Bool) : Text → Option (List Token × Text)
  | [] => none
  | c :: rest =>
    if isSpace c then some ([], rest)
    else if isSeparator c then some ([.symbol c], rest)
    else if c = quote then (fun r => ([.string r.1], r.2)) <$> readString (!conforming) rest
    else if c = doubleQuote then
      match readName rest with
      | some (text, after) =>
        if text = [] ∨ 63 < text.length ∨ text.all Text.isAscii = false then none
        else some ([.name text], after)
      | none => none
    else if startsName c then scanWord (c :: rest)
    else if isDigit c then scanNumber (c :: rest)
    else if isMark c then scanMark c rest
    else if isOperator c then scanOperator c rest
    else none

/-- The tokens of a text, as long as the fuel lasts. -/
def lexFrom (conforming : Bool) : ℕ → Text → Option (List Token)
  | _, [] => some []
  | 0, _ :: _ => none
  | n + 1, c :: rest =>
    match scan conforming (c :: rest) with
    | some (tokens, after) => (tokens ++ ·) <$> lexFrom conforming n after
    | none => none

/-- The tokens of a text. -/
def lex (conforming : Bool) (text : Text) : Option (List Token) :=
  lexFrom conforming text.length text

/-! ### One token at a time -/

variable {conforming : Bool} {text after rest : Text} {tokens : List Token}

/-- What follows a string is shorter than the text. -/
theorem length_readString {escapes : Bool} {value : Text}
    (h : readString escapes text = some (value, after)) : after.length < text.length := by
  induction hn : text.length using Nat.strong_induction_on generalizing text value with
  | _ n ih =>
    subst hn
    rw [readString.eq_def] at h
    split at h
    · cases h
    · rename_i c rest
      have hmore {more : Text} {d : CodePoint}
          (h : (fun r : Text × Text => (d :: r.1, r.2)) <$> readString escapes more =
            some (value, after)) (hlen : more.length ≤ rest.length) :
          after.length < (c :: rest).length := by
        obtain ⟨⟨found, final⟩, hr, heq⟩ := Option.map_eq_some_iff.mp h
        obtain ⟨-, rfl⟩ := Prod.mk.inj heq
        have := ih more.length (by rw [List.length_cons]; omega) hr rfl
        rw [List.length_cons]
        omega
      split_ifs at h
      · split at h
        · obtain ⟨-, rfl⟩ := Prod.mk.inj (Option.some.inj h)
          simp
        · rename_i d more
          split_ifs at h
          · exact hmore h (by simp)
          · split at h
            · rename_i further hfurther
              have hlen := length_continuation hfurther
              have := ih further.length (by simp only [List.length_cons] at hlen ⊢; omega) h rfl
              simp only [List.length_cons] at hlen this ⊢
              omega
            · obtain ⟨-, rfl⟩ := Prod.mk.inj (Option.some.inj h)
              simp
      · split at h
        · cases h
        · rename_i d more
          split at h
          · cases h
          · exact hmore h (by simp)
      · exact hmore h le_rfl

theorem length_readName {value : Text} (h : readName text = some (value, after)) :
    after.length < text.length := by
  induction hn : text.length using Nat.strong_induction_on generalizing text value with
  | _ n ih =>
    subst hn
    rw [readName.eq_def] at h
    split at h
    · cases h
    · rename_i c rest
      have hmore {more : Text} {d : CodePoint}
          (h : (fun r : Text × Text => (d :: r.1, r.2)) <$> readName more = some (value, after))
          (hlen : more.length ≤ rest.length) : after.length < (c :: rest).length := by
        obtain ⟨⟨found, final⟩, hr, heq⟩ := Option.map_eq_some_iff.mp h
        obtain ⟨-, rfl⟩ := Prod.mk.inj heq
        have := ih more.length (by rw [List.length_cons]; omega) hr rfl
        rw [List.length_cons]
        omega
      split_ifs at h
      · split at h
        · split_ifs at h
          · exact hmore h (by simp)
          · obtain ⟨-, rfl⟩ := Prod.mk.inj (Option.some.inj h)
            simp
        · obtain ⟨-, rfl⟩ := Prod.mk.inj (Option.some.inj h)
          simp
      · exact hmore h le_rfl

theorem length_dropWhile_lt {p : CodePoint → Bool} {c : CodePoint} (hc : p c = true) :
    ((c :: rest).dropWhile p).length < (c :: rest).length := by
  rw [List.dropWhile_cons_of_pos hc, List.length_cons]
  exact Nat.lt_succ_of_le (length_dropWhile_le p rest)

theorem length_endWord {word : Text} (h : endWord word text = some (tokens, after)) :
    after.length ≤ text.length := by
  rw [endWord.eq_def] at h
  split at h
  · obtain ⟨-, rfl⟩ := Prod.mk.inj (Option.some.inj h)
    exact le_rfl
  · rename_i d more
    split_ifs at h
    · obtain ⟨⟨found, final⟩, hr, heq⟩ := Option.map_eq_some_iff.mp h
      obtain ⟨-, rfl⟩ := Prod.mk.inj heq
      exact (length_readString hr).le.trans (Nat.le_succ _)
    · obtain ⟨-, rfl⟩ := Prod.mk.inj (Option.some.inj h)
      exact le_rfl
    · obtain ⟨-, rfl⟩ := Prod.mk.inj (Option.some.inj h)
      exact le_rfl

theorem length_scanWord {c : CodePoint} (hc : startsName c = true)
    (h : scanWord (c :: rest) = some (tokens, after)) : after.length < (c :: rest).length := by
  simp only [scanWord] at h
  split_ifs at h
  exact (length_endWord h).trans_lt (length_dropWhile_lt (by rw [isNameChar, hc]; rfl))

theorem length_scanNumber {c : CodePoint} (hc : isDigit c = true)
    (h : scanNumber (c :: rest) = some (tokens, after)) : after.length < (c :: rest).length := by
  have hlt : ((c :: rest).dropWhile isDigit).length < (c :: rest).length :=
    length_dropWhile_lt hc
  simp only [scanNumber] at h
  split at h
  · obtain ⟨-, rfl⟩ := Prod.mk.inj (Option.some.inj h)
    simp
  · split_ifs at h
    obtain ⟨-, rfl⟩ := Prod.mk.inj (Option.some.inj h)
    exact hlt

/-- A token is not empty. -/
theorem length_scan (h : scan conforming text = some (tokens, after)) :
    after.length < text.length := by
  match text with
  | [] => cases h
  | c :: rest =>
    have hrest {after : Text} {t : List Token} (h : some (t, rest) = some (tokens, after)) :
        after.length < (c :: rest).length := by
      obtain ⟨-, rfl⟩ := Prod.mk.inj (Option.some.inj h)
      simp
    rw [scan] at h
    split_ifs at h with hspace hsep hquote hdouble hname hdigit hmark hop
    · exact hrest h
    · exact hrest h
    · obtain ⟨⟨found, final⟩, hr, heq⟩ := Option.map_eq_some_iff.mp h
      obtain ⟨-, rfl⟩ := Prod.mk.inj heq
      exact (length_readString hr).trans (Nat.lt_succ_self _)
    · split at h
      · rename_i found final hr
        split_ifs at h
        obtain ⟨-, rfl⟩ := Prod.mk.inj (Option.some.inj h)
        exact (length_readName hr).trans (Nat.lt_succ_self _)
      · cases h
    · exact length_scanWord hname h
    · exact length_scanNumber hdigit h
    · rw [scanMark.eq_def] at h
      split at h
      · exact hrest h
      · split_ifs at h
        · obtain ⟨-, rfl⟩ := Prod.mk.inj (Option.some.inj h)
          simp only [List.length_cons]
          omega
        · exact hrest h
    · rw [scanOperator.eq_def] at h
      split at h
      · exact hrest h
      · split_ifs at h
        exact hrest h

/-! ### Texts one after the other -/

theorem lexFrom_eq {n : ℕ} (h : text.length ≤ n) :
    lexFrom conforming n text = lex conforming text := by
  rw [lex]
  induction hm : text.length using Nat.strong_induction_on generalizing text n with
  | _ m ih =>
    match text, n, m, hm with
    | [], _, _, _ => simp [lexFrom]
    | c :: rest, n + 1, m + 1, hm =>
      rw [lexFrom, lexFrom]
      match hscan : scan conforming (c :: rest) with
      | none => rfl
      | some (tokens, after) =>
        have hlt := length_scan hscan
        rw [List.length_cons] at hlt hm h
        simp only
        rw [ih after.length (by omega) (n := n) (by omega) rfl,
          ih after.length (by omega) (n := m) (by omega) rfl]

@[simp] theorem lex_nil : lex conforming [] = some [] := by simp [lex, lexFrom]

/-- A text is read token by token. -/
theorem lex_of_scan (h : scan conforming text = some (tokens, after)) :
    lex conforming text = (tokens ++ ·) <$> lex conforming after := by
  match text with
  | [] => cases h
  | c :: rest =>
    have hlt := length_scan h
    rw [lex, List.length_cons, lexFrom, h]
    simp only
    rw [lexFrom_eq (by rw [List.length_cons] at hlt; omega)]

/-- Whether a text is read as some tokens, whatever follows it of what may. -/
def Reads (conforming : Bool) (text : Text) (tokens : List Token) (May : Text → Prop) : Prop :=
  ∀ rest, May rest → lex conforming (text ++ rest) = (tokens ++ ·) <$> lex conforming rest

variable {s t : Text} {ts us : List Token} {P Q : Text → Prop}

theorem Reads.nil : Reads conforming [] [] P := by
  intro rest _
  simp

/-- Two texts, the second of which may follow the first. -/
theorem Reads.append (hs : Reads conforming s ts P) (ht : Reads conforming t us Q)
    (hmay : ∀ rest, Q rest → P (t ++ rest)) : Reads conforming (s ++ t) (ts ++ us) Q := by
  intro rest hrest
  rw [List.append_assoc, hs _ (hmay rest hrest), ht rest hrest]
  cases lex conforming rest <;> simp

theorem Reads.mono (hs : Reads conforming s ts P) (hmay : ∀ rest, Q rest → P rest) :
    Reads conforming s ts Q := fun rest hrest => hs rest (hmay rest hrest)

/-- A text at the end of a message. -/
theorem Reads.lex_eq (hs : Reads conforming s ts P) (h : P []) :
    lex conforming s = some ts := by
  have := hs [] h
  simpa using this

/-- Texts with a separator between them, each of which the separator may follow. -/
theorem Reads.intercalate {groups : List (List Token)} {texts : List Text} {sep : Text}
    {seps : List Token} (h : List.Forall₂ (fun g t => Reads conforming t g P) groups texts)
    (hsep : Reads conforming sep seps fun _ => True) (hmay : ∀ rest, P (sep ++ rest)) :
    Reads conforming (List.intercalate sep texts) (List.intercalate seps groups) P := by
  induction h with
  | nil => exact .nil
  | @cons g t groups texts hfirst hrest ih =>
    cases hrest with
    | nil => simpa using hfirst
    | cons hnext hmore =>
      rw [List.intercalate_cons_cons, List.intercalate_cons_cons]
      exact (hfirst.append hsep fun rest _ => hmay rest).append ih fun _ _ => trivial

theorem reads_of_scan (h : ∀ rest, P rest → scan conforming (s ++ rest) = some (ts, rest)) :
    Reads conforming s ts P := fun rest hrest => lex_of_scan (h rest hrest)

/-! ### Texts without quotes -/

/-- Nothing is taken past an element that ends the run. -/
theorem span_append {α : Type*} {p : α → Bool} {l : List α} (more : List α)
    (h : ∃ x ∈ l, p x = false) :
    (l ++ more).takeWhile p = l.takeWhile p ∧ (l ++ more).dropWhile p = l.dropWhile p ++ more ∧
      l.dropWhile p ≠ [] := by
  induction l with
  | nil => simp at h
  | cons a l ih =>
    by_cases ha : p a = true
    · obtain ⟨x, hx, hp⟩ := h
      have hrest : ∃ x ∈ l, p x = false := by
        rcases List.mem_cons.mp hx with rfl | hx
        · rw [ha] at hp
          cases hp
        · exact ⟨x, hx, hp⟩
      obtain ⟨htake, hdrop, hne⟩ := ih hrest
      rw [List.cons_append, List.takeWhile_cons_of_pos ha, List.takeWhile_cons_of_pos ha,
        List.dropWhile_cons_of_pos ha, List.dropWhile_cons_of_pos ha, htake]
      exact ⟨rfl, hdrop, hne⟩
    · rw [List.cons_append, List.takeWhile_cons_of_neg ha, List.takeWhile_cons_of_neg ha,
        List.dropWhile_cons_of_neg ha, List.dropWhile_cons_of_neg ha]
      exact ⟨rfl, rfl, List.cons_ne_nil _ _⟩

/-- Whether the character is no part of any longer token. -/
def isBoundary (c : CodePoint) : Bool := isSpace c || isSeparator c

theorem boundary_spec {c : CodePoint} (h : isBoundary c = true) :
    isNameChar c = false ∧ isDigit c = false ∧ isMark c = false ∧ isOperator c = false ∧
      startsName c = false ∧ c ≠ quote ∧ c ≠ doubleQuote := by
  have hval : c.val ∈ [9, 10, 12, 13, 32, 44, 40, 41, 91, 93, 59] := by
    simpa [isBoundary, isSpace, isSeparator, or_assoc] using h
  have hc : c = Fin.ofNat 0x110000 c.val := by simp
  rw [hc]
  generalize c.val = n at hval
  simp only [List.mem_cons, List.not_mem_nil, or_false] at hval
  rcases hval with rfl | rfl | rfl | rfl | rfl | rfl | rfl | rfl | rfl | rfl | rfl <;> decide

theorem endWord_append {word : Text} {d : CodePoint} (hd : d ≠ quote) (more : Text)
    (h : endWord word (d :: text) = some (tokens, after)) :
    endWord word (d :: text ++ more) = some (tokens, after ++ more) ∧ after = d :: text := by
  simp only [endWord, List.cons_append, if_neg hd] at h ⊢
  split_ifs at h ⊢
  obtain ⟨rfl, rfl⟩ := Prod.mk.inj (Option.some.inj h)
  exact ⟨rfl, rfl⟩

/-- A token of a text without quotes that goes on to a boundary. -/
theorem scan_append (hquotes : ∀ c ∈ text, c ≠ quote ∧ c ≠ doubleQuote)
    (hend : ∃ e ∈ text.getLast?, isBoundary e = true)
    (h : scan conforming text = some (tokens, after)) (more : Text) :
    scan conforming (text ++ more) = some (tokens, after ++ more) ∧ after <:+ text := by
  obtain ⟨e, he, hboundary⟩ := hend
  obtain ⟨hname, hdigit, hmark, hop, hstart, -, -⟩ := boundary_spec hboundary
  have hmem : e ∈ text := List.mem_of_getLast? he
  match text with
  | [] => cases h
  | c :: rest =>
    -- where the token needs a second character, there is one
    have hrest (hne : e ≠ c) : ∃ d tail, rest = d :: tail := by
      match rest with
      | [] => exact absurd (Option.some.inj he).symm hne
      | d :: tail => exact ⟨d, tail, rfl⟩
    have hpair {t : List Token} {final : Text} (h : some (t, final) = some (tokens, after)) :
        t = tokens ∧ final = after := Prod.mk.inj (Option.some.inj h)
    rw [scan] at h
    rw [List.cons_append, scan]
    split_ifs at h ⊢ with hspace hsep hquote hdouble hstarts hdig hmarks hops
    · obtain ⟨rfl, rfl⟩ := hpair h
      exact ⟨rfl, List.suffix_cons _ _⟩
    · obtain ⟨rfl, rfl⟩ := hpair h
      exact ⟨rfl, List.suffix_cons _ _⟩
    · exact absurd hquote (hquotes c List.mem_cons_self).1
    · exact absurd hdouble (hquotes c List.mem_cons_self).2
    · obtain ⟨htake, hdrop, hne⟩ := span_append (p := isNameChar) more ⟨e, hmem, hname⟩
      rw [← List.cons_append]
      simp only [scanWord] at h ⊢
      rw [htake, hdrop]
      split_ifs at h ⊢
      obtain ⟨d, tail, htail⟩ := List.exists_cons_of_ne_nil hne
      have hd : d ∈ c :: rest :=
        (List.dropWhile_sublist isNameChar).subset (htail ▸ List.mem_cons_self)
      rw [htail] at h ⊢
      obtain ⟨hscan, rfl⟩ := endWord_append (hquotes d hd).1 more h
      exact ⟨hscan, htail ▸ List.dropWhile_suffix _⟩
    · obtain ⟨htake, hdrop, hne⟩ := span_append (p := isDigit) more ⟨e, hmem, hdigit⟩
      rw [← List.cons_append]
      simp only [scanNumber] at h ⊢
      rw [htake, hdrop]
      obtain ⟨d, tail, htail⟩ := List.exists_cons_of_ne_nil hne
      rw [htail] at h ⊢
      simp only [List.cons_append] at h ⊢
      split_ifs at h ⊢
      obtain ⟨rfl, rfl⟩ := hpair h
      exact ⟨rfl, htail ▸ List.dropWhile_suffix _⟩
    · obtain ⟨d, tail, rfl⟩ := hrest (fun heq => by rw [heq, hmarks] at hmark; cases hmark)
      simp only [scanMark, List.cons_append] at h ⊢
      split_ifs at h ⊢
      · obtain ⟨rfl, rfl⟩ := hpair h
        exact ⟨rfl, (List.suffix_cons _ _).trans (List.suffix_cons _ _)⟩
      · obtain ⟨rfl, rfl⟩ := hpair h
        exact ⟨rfl, List.suffix_cons _ _⟩
    · obtain ⟨d, tail, rfl⟩ := hrest (fun heq => by rw [heq, hops] at hop; cases hop)
      simp only [scanOperator, List.cons_append] at h ⊢
      split_ifs at h ⊢
      obtain ⟨rfl, rfl⟩ := hpair h
      exact ⟨rfl, List.suffix_cons _ _⟩

/-- A text without quotes that ends at a boundary is read as it is, whatever follows it. -/
theorem reads_of_lex (hquotes : ∀ c ∈ text, c ≠ quote ∧ c ≠ doubleQuote)
    (hend : ∀ e ∈ text.getLast?, isBoundary e = true)
    (h : lex conforming text = some tokens) : Reads conforming text tokens P := by
  intro more _
  induction hn : text.length using Nat.strong_induction_on generalizing text tokens with
  | _ n ih =>
    subst hn
    match htext : text with
    | [] =>
      obtain rfl : [] = tokens := by simpa using h
      simp
    | c :: rest =>
      have hlast : ∃ e ∈ (c :: rest).getLast?, isBoundary e = true := by
        obtain ⟨e, he⟩ := Option.isSome_iff_exists.mp
          (List.getLast?_isSome.mpr (List.cons_ne_nil c rest))
        exact ⟨e, he, hend e he⟩
      match hscan : scan conforming (c :: rest) with
      | none =>
        rw [lex, List.length_cons, lexFrom, hscan] at h
        cases h
      | some (first, after) =>
        obtain ⟨happend, hsuffix⟩ := scan_append hquotes hlast hscan more
        rw [lex_of_scan hscan] at h
        obtain ⟨others, hothers, rfl⟩ := Option.map_eq_some_iff.mp h
        have hnext := ih after.length (length_scan hscan)
          (fun d hd => hquotes d (hsuffix.subset hd))
          (fun e he => by
            obtain ⟨front, hfront⟩ := hsuffix
            refine hend e ?_
            rw [← hfront, List.getLast?_append, he]
            rfl) hothers rfl
        rw [lex_of_scan happend, hnext]
        cases lex conforming more <;> simp

/-- Whether the text has no quotes. -/
def unquoted (text : Text) : Bool := text.all fun c => c != quote && c != doubleQuote

theorem ne_of_unquoted (h : unquoted text = true) :
    ∀ c ∈ text, c ≠ quote ∧ c ≠ doubleQuote := by
  intro c hc
  simpa using List.all_eq_true.mp h c hc

/-- A fixed text is read as it is, whatever follows it. -/
theorem reads_fixed (h : (unquoted text && text.getLast?.all isBoundary) = true)
    (hlex : lex conforming text = some tokens) : Reads conforming text tokens P := by
  obtain ⟨hquotes, hend⟩ := Bool.and_eq_true_iff.mp h
  refine reads_of_lex (ne_of_unquoted hquotes) (fun e he => ?_) hlex
  rw [Option.mem_def.mp he] at hend
  exact hend

/-- Whether what follows a statement is not the statement's. -/
def Ended (rest : Text) : Prop := ∀ d ∈ rest.head?, d.val = 59

/-- A text without quotes that is read the same before a semicolon. -/
theorem reads_fixed_ended (hquotes : unquoted text = true)
    (h : lex conforming text = some tokens)
    (h' : lex conforming (text ++ [59]) = some (tokens ++ [.symbol 59])) :
    Reads conforming text tokens Ended := by
  intro rest hrest
  match rest with
  | [] => simp [h]
  | d :: more =>
    obtain rfl : d = 59 := Fin.ext (hrest d rfl)
    have hlong : Reads conforming (text ++ [59]) (tokens ++ [.symbol 59]) fun _ => True :=
      reads_of_lex (by
        intro c hc
        rcases List.mem_append.mp hc with hc | hc
        · exact ne_of_unquoted hquotes c hc
        · obtain rfl := List.mem_singleton.mp hc
          decide) (by
        intro e he
        rw [List.getLast?_append] at he
        obtain rfl := Option.some.inj he
        decide) h'
    have hone : lex conforming (59 :: more) = ([.symbol 59] ++ ·) <$> lex conforming more :=
      lex_of_scan (by rw [scan, if_neg (by decide), if_pos (by decide)])
    rw [List.append_cons, hlong more trivial, hone]
    cases lex conforming more <;> simp

/-! ### Constants -/

/-- The character twice in place of each time it stands in the text. -/
def doubled (c : CodePoint) (text : Text) : Text :=
  text.flatMap fun d => if d = c then [c, c] else [d]

theorem doubled_of_not_mem {c : CodePoint} (h : c ∉ text) : doubled c text = text := by
  induction text with
  | nil => rfl
  | cons d text ih =>
    have hd : d ≠ c := fun heq => h (heq ▸ List.mem_cons_self)
    rw [doubled, List.flatMap_cons, ← doubled, ih fun hc => h (List.mem_cons_of_mem d hc),
      if_neg hd]
    rfl

/-- Whether what follows a string does not go on with it. -/
def Closes (rest : Text) : Prop := ∀ d ∈ rest.head?, d ≠ quote ∧ isSpace d = false

/-- Whether what follows a constant or a name is no part of it. -/
def Separated (rest : Text) : Prop := ∀ d ∈ rest.head?, isSeparator d = true

theorem Ended.separated (h : Ended rest) : Separated rest := by
  intro d hd
  rw [isSeparator, h d hd]
  decide

theorem Separated.boundary {d : CodePoint} (h : Separated rest) (hd : d ∈ rest.head?) :
    isBoundary d = true := by
  rw [isBoundary, h d hd, Bool.or_true]

theorem Separated.closes (h : Separated rest) : Closes rest := by
  intro d hd
  refine ⟨(boundary_spec (h.boundary hd)).2.2.2.2.2.1, ?_⟩
  have hsep : d.val ∈ [44, 40, 41, 91, 93, 59] := by simpa [isSeparator] using h d hd
  simp only [List.mem_cons, List.not_mem_nil, or_false] at hsep
  simp only [isSpace, decide_eq_false_iff_not, List.mem_cons, List.not_mem_nil, or_false]
  omega

theorem isSpace_of_isNewline {c : CodePoint} (h : isSpace c = false) : isNewline c = false := by
  simp only [isSpace, decide_eq_false_iff_not, List.mem_cons, List.not_mem_nil, or_false] at h
  simp only [isNewline, decide_eq_false_iff_not, List.mem_cons, List.not_mem_nil, or_false]
  omega

theorem readString_close {escapes : Bool} (h : Closes rest) :
    readString escapes (quote :: rest) = some ([], rest) := by
  rw [readString.eq_def]
  match rest with
  | [] => rfl
  | d :: more =>
    obtain ⟨hquote, hspace⟩ := h d rfl
    have hnone : continuation (d :: more) = none := by
      rw [continuation, List.dropWhile_cons_of_neg (by rw [hspace]; simp)]
      simp only [isSpace_of_isNewline hspace, Bool.false_eq_true, if_false]
    simp only [if_true, if_neg hquote]
    split
    · rename_i further hfurther
      rw [hnone] at hfurther
      cases hfurther
    · rfl

theorem readString_quotes {escapes : Bool} :
    readString escapes (quote :: quote :: rest) =
      (fun r => (quote :: r.1, r.2)) <$> readString escapes rest := by
  rw [readString.eq_def]
  simp only [if_true]

theorem readString_cons {escapes : Bool} {c : CodePoint} (hc : c ≠ quote)
    (hplain : escapes = true → c ≠ backslash) :
    readString escapes (c :: rest) = (fun r => (c :: r.1, r.2)) <$> readString escapes rest := by
  rw [readString.eq_def]
  simp only [if_neg hc, if_neg (fun h : escapes = true ∧ c = backslash => hplain h.1 h.2)]

theorem readString_backslashes :
    readString true (backslash :: backslash :: rest) =
      (fun r => (backslash :: r.1, r.2)) <$> readString true rest := by
  rw [readString.eq_def]
  have hquote : backslash ≠ quote := by decide
  have hself : unescaped backslash = some backslash := by decide
  simp only [if_neg hquote, true_and, if_true, hself]

/-- A string whose quotes are written twice is read back. -/
theorem readString_doubled {escapes : Bool} (hplain : escapes = true → backslash ∉ s)
    (h : Closes rest) :
    readString escapes (doubled quote s ++ quote :: rest) = some (s, rest) := by
  induction s with
  | nil => exact readString_close h
  | cons c s ih =>
    have hrest := ih fun he hmem => hplain he (List.mem_cons_of_mem c hmem)
    rw [doubled, List.flatMap_cons, ← doubled, List.append_assoc]
    by_cases hc : c = quote
    · subst hc
      rw [if_pos rfl, List.cons_append, List.cons_append, List.nil_append, readString_quotes, hrest]
      rfl
    · rw [if_neg hc, List.cons_append, List.nil_append,
        readString_cons hc fun he hback => hplain he (hback ▸ List.mem_cons_self), hrest]
      rfl

/-- A string whose backslashes and quotes are written twice is read back with escapes. -/
theorem readString_escaped (h : Closes rest) :
    readString true (doubled quote (doubled backslash s) ++ quote :: rest) = some (s, rest) := by
  have hne : backslash ≠ quote := by decide
  induction s with
  | nil => exact readString_close h
  | cons c s ih =>
    rw [doubled, doubled, List.flatMap_cons, List.flatMap_append, ← doubled, ← doubled, ← doubled,
      List.append_assoc]
    by_cases hback : c = backslash
    · subst hback
      rw [if_pos rfl, doubled, List.flatMap_cons, List.flatMap_cons, if_neg hne,
        List.flatMap_nil, List.append_nil, List.cons_append, List.nil_append, List.cons_append,
        List.cons_append, List.nil_append, readString_backslashes, ih]
      rfl
    · rw [if_neg hback, doubled, List.flatMap_cons, List.flatMap_nil, List.append_nil]
      by_cases hc : c = quote
      · subst hc
        rw [if_pos rfl, List.cons_append, List.cons_append, List.nil_append, readString_quotes, ih]
        rfl
      · rw [if_neg hc, List.cons_append, List.nil_append, readString_cons hc fun _ => hback, ih]
        rfl

/-- A string constant, where its backslashes are no escapes. -/
theorem reads_plain (hplain : conforming = true ∨ backslash ∉ s) :
    Reads conforming (quote :: (doubled quote s ++ [quote])) [.string s] Closes := by
  refine reads_of_scan fun rest hrest => ?_
  have hescapes : (!conforming) = true → backslash ∉ s := by
    rintro hescapes
    rcases hplain with rfl | hmem
    · cases hescapes
    · exact hmem
  have hread := readString_doubled hescapes hrest
  rw [List.cons_append, List.append_assoc, List.singleton_append, scan, if_neg (by decide),
    if_neg (by decide), if_pos rfl, hread]
  rfl

/-- A string constant with escapes. -/
theorem reads_escaped :
    Reads conforming (69 :: quote :: (doubled quote (doubled backslash s) ++ [quote]))
      [.string s] Closes := by
  refine reads_of_scan fun rest hrest => ?_
  have hnot : isNameChar quote = false := by decide
  have hE : isNameChar 69 = true := by decide
  rw [List.cons_append, List.cons_append, List.append_assoc, List.singleton_append, scan,
    if_neg (by decide), if_neg (by decide), if_neg (by decide), if_neg (by decide),
    if_pos (by decide), scanWord, List.takeWhile_cons_of_pos hE, List.dropWhile_cons_of_pos hE,
    List.takeWhile_cons_of_neg (by rw [hnot]; decide),
    List.dropWhile_cons_of_neg (by rw [hnot]; decide)]
  rw [if_neg (by decide), endWord, if_pos rfl, if_pos (by decide), readString_escaped hrest]
  rfl

/-- A run of characters that what follows does not go on with. -/
theorem span_of_all {α : Type*} {p : α → Bool} {l more : List α} (h : ∀ x ∈ l, p x = true)
    (hmore : ∀ x ∈ more.head?, p x = false) :
    (l ++ more).takeWhile p = l ∧ (l ++ more).dropWhile p = more := by
  rw [List.takeWhile_append_of_pos h, List.dropWhile_append_of_pos h]
  match more with
  | [] => simp
  | x :: more =>
    simp [hmore x rfl]

/-- Whether the text is a key word or a name that needs no quotes. -/
def isWord : Text → Bool
  | [] => false
  | c :: rest =>
    startsName c && rest.length < 63 && (c :: rest).all fun d => isNameChar d && Text.isAscii d

/-- A key word or a name. -/
theorem reads_word {word : Text} (h : isWord word = true) :
    Reads conforming word [.word (word.map fold)] Separated := by
  match word with
  | [] => cases h
  | c :: word =>
  simp only [isWord, Bool.and_eq_true, List.all_eq_true, decide_eq_true_eq] at h
  obtain ⟨⟨hc, hlen⟩, hword⟩ := h
  refine reads_of_scan fun rest hrest => ?_
  obtain ⟨htake, hdrop⟩ := span_of_all (p := isNameChar) (fun d hd => (hword d hd).1)
    fun d hd => (boundary_spec (hrest.boundary hd)).1
  have hhead : isSpace c = false ∧ isSeparator c = false ∧ c ≠ quote ∧ c ≠ doubleQuote := by
    refine ⟨?_, ?_, ?_, ?_⟩
    · by_contra h
      rw [(boundary_spec (by rw [isBoundary]; simp [h])).2.2.2.2.1] at hc
      cases hc
    · by_contra h
      rw [(boundary_spec (by rw [isBoundary]; simp [h])).2.2.2.2.1] at hc
      cases hc
    · rintro rfl
      revert hc
      decide
    · rintro rfl
      revert hc
      decide
  obtain ⟨hspace, hsep, hquote, hdouble⟩ := hhead
  rw [List.cons_append, scan, if_neg (by rw [hspace]; decide), if_neg (by rw [hsep]; decide),
    if_neg hquote, if_neg hdouble, if_pos hc, scanWord, ← List.cons_append, htake, hdrop]
  have hascii : ¬(63 < (c :: word).length ∨ (c :: word).all Text.isAscii = false) := by
    rintro (h | h)
    · rw [List.length_cons] at h
      omega
    · rw [List.all_eq_true.mpr fun d hd => (hword d hd).2] at h
      cases h
  simp only [if_neg hascii]
  match rest with
  | [] => rfl
  | d :: more =>
    have hd := hrest.boundary (d := d) rfl
    have hne : d.val ≠ 38 := by
      intro h
      rw [isBoundary, isSpace, isSeparator] at hd
      simp [h] at hd
    rw [endWord, if_neg (boundary_spec hd).2.2.2.2.2.1, if_neg fun h => hne h.1]

/-- An integer constant. -/
theorem reads_number (n : ℕ) : Reads conforming (decimalDigits n) [.number n] Separated := by
  refine reads_of_scan fun rest hrest => ?_
  obtain ⟨c, ds, hcons, -⟩ := Json.decimalDigits_eq_cons n
  obtain ⟨htake, hdrop⟩ := span_of_all (p := isDigit) (fun d hd => Json.isDigit_of_mem hd)
    fun d hd => (boundary_spec (hrest.boundary hd)).2.1
  have hc : isDigit c = true := Json.isDigit_of_mem (n := n) (hcons ▸ List.mem_cons_self)
  have hval : 48 ≤ c.val ∧ c.val ≤ 57 := by simpa [isDigit] using hc
  have hfirst : isSpace c = false ∧ isSeparator c = false ∧ c ≠ quote ∧ c ≠ doubleQuote ∧
      startsName c = false := by
    refine ⟨?_, ?_, ?_, ?_, ?_⟩
    · simp [isSpace]
      omega
    · simp [isSeparator]
      omega
    · rintro rfl
      exact absurd hval.1 (by decide)
    · rintro rfl
      exact absurd hval.1 (by decide)
    · simp [startsName]
      omega
  obtain ⟨hspace, hsep, hquote, hdouble, hname⟩ := hfirst
  rw [hcons, List.cons_append, scan, if_neg (by rw [hspace]; decide), if_neg (by rw [hsep]; decide),
    if_neg hquote, if_neg hdouble, if_neg (by rw [hname]; decide), if_pos hc, ← List.cons_append,
    ← hcons, scanNumber, htake, hdrop, Json.ofDecimalDigits_decimalDigits]
  cases rest with
  | nil => rfl
  | cons d more =>
    have hd := hrest.boundary (d := d) rfl
    have hdot : d.val ≠ 46 := by
      intro h
      rw [isBoundary, isSpace, isSeparator] at hd
      simp [h] at hd
    have hstart : ¬(startsName d = true ∨ d.val = 46) := by
      rintro (h | h)
      · rw [(boundary_spec hd).2.2.2.2.1] at h
        cases h
      · exact hdot h
    simp only [if_neg hstart]

/-! ### Punctuation -/

theorem reads_typecast : Reads conforming [58, 58] [.typecast] P := by
  refine reads_of_scan fun rest _ => ?_
  rw [List.cons_append, List.cons_append, List.nil_append, scan, if_neg (by decide),
    if_neg (by decide), if_neg (by decide), if_neg (by decide), if_neg (by decide),
    if_neg (by decide), if_pos (by decide), scanMark, if_pos (by decide)]

/-- An operator that what follows does not go on with. -/
theorem reads_minus :
    Reads conforming [45] [.symbol 45] fun rest => ∀ d ∈ rest.head?, isOperator d = false := by
  refine reads_of_scan fun rest hrest => ?_
  rw [List.singleton_append, scan, if_neg (by decide), if_neg (by decide), if_neg (by decide),
    if_neg (by decide), if_neg (by decide), if_neg (by decide), if_neg (by decide),
    if_pos (by decide)]
  match rest with
  | [] => rfl
  | d :: more => rw [scanOperator, hrest d rfl, if_neg Bool.false_ne_true]

/-- A dot before a name in quotes. -/
theorem reads_dot :
    Reads conforming [46] [.symbol 46] fun rest => ∀ d ∈ rest.head?, d = doubleQuote := by
  refine reads_of_scan fun rest hrest => ?_
  rw [List.singleton_append, scan, if_neg (by decide), if_neg (by decide), if_neg (by decide),
    if_neg (by decide), if_neg (by decide), if_neg (by decide), if_pos (by decide)]
  match rest with
  | [] => rfl
  | d :: more =>
    obtain rfl := hrest d rfl
    rw [scanMark, if_neg (by decide), if_neg (by decide), if_neg (by decide)]

theorem readName_append (hs : doubleQuote ∉ s) (h : ∀ d ∈ rest.head?, d ≠ doubleQuote) :
    readName (s ++ doubleQuote :: rest) = some (s, rest) := by
  induction s with
  | nil =>
    rw [List.nil_append, readName.eq_def]
    match rest with
    | [] => rfl
    | d :: more => simp only [if_true, if_neg (h d rfl)]
  | cons c s ih =>
    have hc : c ≠ doubleQuote := fun heq => hs (heq ▸ List.mem_cons_self)
    rw [List.cons_append, readName.eq_def]
    simp only [if_neg hc, ih fun hmem => hs (List.mem_cons_of_mem c hmem)]
    rfl

/-- A name in double quotes. -/
theorem reads_name (hs : doubleQuote ∉ s) (hne : s ≠ []) (hlen : s.length ≤ 63)
    (hascii : s.all Text.isAscii = true) :
    Reads conforming (doubleQuote :: (s ++ [doubleQuote])) [.name s]
      fun rest => ∀ d ∈ rest.head?, d ≠ doubleQuote := by
  refine reads_of_scan fun rest hrest => ?_
  have hgood : ¬(s = [] ∨ 63 < s.length ∨ s.all Text.isAscii = false) := by
    rintro (h | h | h)
    · exact hne h
    · omega
    · rw [hascii] at h
      cases h
  rw [List.cons_append, List.append_assoc, List.singleton_append, scan, if_neg (by decide),
    if_neg (by decide), if_neg (by decide), if_pos rfl, readName_append hs hrest]
  simp only [if_neg hgood]

end Foundation.Sql
