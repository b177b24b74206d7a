import AgentGov.Foundation.JsonReader
import AgentGov.Foundation.Encodings

/-!
# Written values are told apart

A written JSON value is determined by its text, with its end, in any text that goes on with no
digit: whatever follows, two different values are not written alike. Strings are told apart as far
as the way they are quoted does: quoted as they are, wholly; quoted in ASCII, by their UTF-16 units.

## Main definitions

* `Foundation.Json.Like`: two values whose strings are alike.
* `Foundation.Json.Quotes`: a way to quote strings that tells them apart.

## Main results

* `Foundation.Json.dump_split`: a written value is told apart, with its end.
* `Foundation.Json.dump_injective`: values are written differently.
* `Foundation.Json.quotes_quoteAscii`: ASCII quoting tells apart UTF-16 units.
-/

namespace Foundation

namespace Json

/-! ### Strings alike -/

section Like

variable (R : Text → Text → Prop)

mutual

/-- Two values whose strings are alike, and which are the same otherwise. -/
def Like : Json → Json → Prop
  | null, null => True
  | bool b, bool c => b = c
  | int n, int m => n = m
  | str s, str t => R s t
  | arr vs, arr ws => LikeItems vs ws
  | obj fs, obj gs => LikeFields fs gs
  | _, _ => False

/-- Items that are alike one by one. -/
def LikeItems : List Json → List Json → Prop
  | [], [] => True
  | v :: vs, w :: ws => Like v w ∧ LikeItems vs ws
  | _, _ => False

/-- Members that are alike one by one. -/
def LikeFields : List (Text × Json) → List (Text × Json) → Prop
  | [], [] => True
  | (k, v) :: fs, (l, w) :: gs => R k l ∧ Like v w ∧ LikeFields fs gs
  | _, _ => False

end

end Like

mutual

/-- Values whose strings are the same are the same. -/
theorem eq_of_like : ∀ (v w : Json), Like Eq v w → v = w
  | null, w, h => by cases w <;> simp [Like] at h ⊢
  | bool b, w, h => by cases w <;> simp_all [Like]
  | int n, w, h => by cases w <;> simp_all [Like]
  | str t, w, h => by cases w <;> simp_all [Like]
  | arr vs, w, h => by
    cases w with
    | arr ws => rw [eq_of_likeItems vs ws (by simpa [Like] using h)]
    | _ => simp [Like] at h
  | obj fs, w, h => by
    cases w with
    | obj gs => rw [eq_of_likeFields fs gs (by simpa [Like] using h)]
    | _ => simp [Like] at h

theorem eq_of_likeItems : ∀ (vs ws : List Json), LikeItems Eq vs ws → vs = ws
  | [], [], _ => rfl
  | [], _ :: _, h => by simp [LikeItems] at h
  | _ :: _, [], h => by simp [LikeItems] at h
  | v :: vs, w :: ws, h => by
    rw [LikeItems] at h
    rw [eq_of_like v w h.1, eq_of_likeItems vs ws h.2]

theorem eq_of_likeFields : ∀ (fs gs : List (Text × Json)), LikeFields Eq fs gs → fs = gs
  | [], [], _ => rfl
  | [], _ :: _, h => by simp [LikeFields] at h
  | _ :: _, [], h => by simp [LikeFields] at h
  | (k, v) :: fs, (l, w) :: gs, h => by
    rw [LikeFields] at h
    rw [h.1, eq_of_like v w h.2.1, eq_of_likeFields fs gs h.2.2]

end

/-! ### First characters -/

/-- What the constructor of a value is told by. -/
def tag : Json → ℕ
  | null => 0
  | bool true => 1
  | bool false => 2
  | int _ => 3
  | str _ => 4
  | arr _ => 5
  | obj _ => 6

/-- The tag of the values that start with a character. -/
def tagOf (c : CodePoint) : ℕ :=
  if c.val = 110 then 0
  else if c.val = 116 then 1
  else if c.val = 102 then 2
  else if c.val = 34 then 4
  else if c.val = 91 then 5
  else if c.val = 123 then 6
  else 3

/-- A way to quote strings that starts with a quotation mark and tells them apart, with their end,
as far as `R` does. -/
structure Quotes (q : Text → Text) (R : Text → Text → Prop) : Prop where
  head : ∀ t, ∃ u, q t = 34 :: u
  split : ∀ {s t r r' : Text}, q s ++ r = q t ++ r' → R s t ∧ r = r'

variable {q : Text → Text} {R : Text → Text → Prop}

/-- A written value starts with a character of its tag, which ends no container. -/
theorem dump_head (hq : Quotes q R) (v : Json) : ∃ c t, dump q v = c :: t ∧ tagOf c = tag v ∧
    c.val ≠ 93 ∧ c.val ≠ 125 := by
  have hb := ofString_brackets
  have hw := ofString_words
  cases v with
  | null => exact ⟨110, _, by rw [dump, hw.1], by decide, by decide, by decide⟩
  | bool b =>
    cases b
    · exact ⟨102, _, by rw [dump, hw.2.2], by decide, by decide, by decide⟩
    · exact ⟨116, _, by rw [dump, hw.2.1], by decide, by decide, by decide⟩
  | int n =>
    obtain ⟨c, ds, hcons, -⟩ := decimalDigits_eq_cons n.natAbs
    have hc : isDigit c = true := isDigit_of_mem (hcons ▸ List.mem_cons_self)
    simp only [isDigit, Bool.and_eq_true, decide_eq_true_eq] at hc
    by_cases hneg : n < 0
    · exact ⟨45, _, by rw [dump, intText, if_pos hneg]; rfl, rfl, by decide, by decide⟩
    · refine ⟨c, ds, by rw [dump, intText, if_neg hneg, hcons], ?_, by omega, by omega⟩
      rw [tagOf, tag]
      split_ifs <;> omega
  | str t =>
    obtain ⟨u, hu⟩ := hq.head t
    exact ⟨34, u, by rw [dump, hu], rfl, by decide, by decide⟩
  | arr vs =>
    cases vs with
    | nil => exact ⟨91, _, by rw [dump, hb.2.2.1], rfl, by decide, by decide⟩
    | cons v vs => exact ⟨91, _, by rw [dump, hb.1]; rfl, rfl, by decide, by decide⟩
  | obj fs =>
    cases fs with
    | nil => exact ⟨123, _, by rw [dump, hb.2.2.2.2.2.2.2], rfl, by decide, by decide⟩
    | cons f fs => exact ⟨123, _, by rw [dump, hb.2.2.2.2.2.1]; rfl, rfl, by decide, by decide⟩

theorem tag_eq (hq : Quotes q R) {v w : Json} {r r' : Text}
    (h : dump q v ++ r = dump q w ++ r') : tag v = tag w := by
  obtain ⟨c, t, hv, hc, -⟩ := dump_head hq v
  obtain ⟨d, u, hw, hd, -⟩ := dump_head hq w
  rw [hv, hw, List.cons_append, List.cons_append, List.cons.injEq] at h
  rw [← hc, ← hd, h.1]

/-- An integer is told apart, with its end. -/
theorem intText_split {n m : ℤ} {r r' : Text} (hr : Ends r) (hr' : Ends r')
    (h : intText n ++ r = intText m ++ r') : n = m ∧ r = r' := by
  have hdigits : ∀ a b : ℕ, decimalDigits a ++ r = decimalDigits b ++ r' → a = b ∧ r = r' := by
    intro a b hab
    have hscan := congrArg scanDigits hab
    rw [scanDigits_decimalDigits a hr, scanDigits_decimalDigits b hr', Prod.mk.injEq] at hscan
    refine ⟨?_, hscan.2⟩
    rw [← ofDecimalDigits_decimalDigits a, hscan.1, ofDecimalDigits_decimalDigits]
  have hminus : ∀ (a : ℕ) (u v : Text), 45 :: u ≠ decimalDigits a ++ v := by
    intro a u v hab
    obtain ⟨c, ds, hcons, -⟩ := decimalDigits_eq_cons a
    have hc : isDigit c = true := isDigit_of_mem (hcons ▸ List.mem_cons_self)
    rw [hcons, List.cons_append, List.cons.injEq] at hab
    rw [← hab.1] at hc
    cases hc
  have hsign : Text.ofString "-" = [45] := by decide
  by_cases hn : n < 0 <;> by_cases hm : m < 0
  · rw [intText, intText, if_pos hn, if_pos hm, hsign, List.append_assoc, List.append_assoc] at h
    obtain ⟨hab, hrest⟩ := hdigits _ _ (List.append_cancel_left h)
    exact ⟨by omega, hrest⟩
  · rw [intText, intText, if_pos hn, if_neg hm, hsign, List.append_assoc] at h
    exact absurd h (hminus _ _ _)
  · rw [intText, intText, if_neg hn, if_pos hm, hsign, List.append_assoc] at h
    exact absurd h.symm (hminus _ _ _)
  · rw [intText, intText, if_neg hn, if_neg hm] at h
    obtain ⟨hab, hrest⟩ := hdigits _ _ h
    exact ⟨by omega, hrest⟩

theorem ends_dumpItems (vs : List Json) (r : Text) : Ends (dumpItems q vs ++ r) := by
  obtain ⟨c, t, h, hc⟩ := dumpItems_eq_cons q vs
  rw [h, List.cons_append]
  exact ends_of_val (by omega) _

theorem ends_dumpFields (fs : List (Text × Json)) (r : Text) : Ends (dumpFields q fs ++ r) := by
  obtain ⟨c, t, h, hc⟩ := dumpFields_eq_cons q fs
  rw [h, List.cons_append]
  exact ends_of_val (by omega) _

/-! ### Values -/

mutual

/-- A written value is told apart, with its end. -/
theorem dump_split (hq : Quotes q R) : ∀ (v w : Json) {r r' : Text},
    dump q v ++ r = dump q w ++ r' → Ends r → Ends r' → Like R v w ∧ r = r'
  | null, w, r, r', h, _, _ => by
    have htag := tag_eq hq h
    cases w with
    | null => exact ⟨by simp [Like], List.append_cancel_left h⟩
    | bool b => cases b <;> simp [tag] at htag
    | _ => simp [tag] at htag
  | bool b, w, r, r', h, _, _ => by
    have htag := tag_eq hq h
    cases w with
    | bool c =>
      have hbc : b = c := by cases b <;> cases c <;> simp [tag] at htag ⊢
      subst hbc
      exact ⟨by simp [Like], List.append_cancel_left h⟩
    | _ => cases b <;> simp [tag] at htag
  | int n, w, r, r', h, hr, hr' => by
    have htag := tag_eq hq h
    cases w with
    | int m =>
      rw [dump, dump] at h
      obtain ⟨hnm, hrest⟩ := intText_split hr hr' h
      exact ⟨by simpa [Like] using hnm, hrest⟩
    | bool b => cases b <;> simp [tag] at htag
    | _ => simp [tag] at htag
  | str s, w, r, r', h, _, _ => by
    have htag := tag_eq hq h
    cases w with
    | str t =>
      rw [dump, dump] at h
      obtain ⟨hst, hrest⟩ := hq.split h
      exact ⟨by simpa [Like] using hst, hrest⟩
    | bool b => cases b <;> simp [tag] at htag
    | _ => simp [tag] at htag
  | arr [], w, r, r', h, _, _ => by
    have htag := tag_eq hq h
    have hb := ofString_brackets
    cases w with
    | arr ws =>
      cases ws with
      | nil => exact ⟨by simp [Like, LikeItems], List.append_cancel_left h⟩
      | cons w ws =>
        obtain ⟨c, t, hc, -, hne, -⟩ := dump_head hq w
        rw [dump, dump, hb.2.2.1, hb.1, hc] at h
        simp only [List.cons_append, List.nil_append, List.cons.injEq] at h
        exact absurd (congrArg Fin.val h.2.1.symm) hne
    | bool b => cases b <;> simp [tag] at htag
    | _ => simp [tag] at htag
  | arr (v :: vs), w, r, r', h, hr, hr' => by
    have htag := tag_eq hq h
    have hb := ofString_brackets
    cases w with
    | arr ws =>
      cases ws with
      | nil =>
        obtain ⟨c, t, hc, -, hne, -⟩ := dump_head hq v
        rw [dump, dump, hb.2.2.1, hb.1, hc] at h
        simp only [List.cons_append, List.nil_append, List.cons.injEq] at h
        exact absurd (congrArg Fin.val h.2.1) hne
      | cons w ws =>
        rw [dump, dump] at h
        simp only [List.append_assoc] at h
        obtain ⟨hvw, hrest⟩ := dump_split hq v w (List.append_cancel_left h)
          (ends_dumpItems vs r) (ends_dumpItems ws r')
        obtain ⟨hvs, hr⟩ := dumpItems_split hq vs ws hrest hr hr'
        exact ⟨by rw [Like, LikeItems]; exact ⟨hvw, hvs⟩, hr⟩
    | bool b => cases b <;> simp [tag] at htag
    | _ => simp [tag] at htag
  | obj [], w, r, r', h, _, _ => by
    have htag := tag_eq hq h
    have hb := ofString_brackets
    cases w with
    | obj gs =>
      cases gs with
      | nil => exact ⟨by simp [Like, LikeFields], List.append_cancel_left h⟩
      | cons g gs =>
        obtain ⟨u, hu⟩ := hq.head g.1
        rw [dump, dump, hb.2.2.2.2.2.2.2, hb.2.2.2.2.2.1, hu] at h
        simp at h
    | bool b => cases b <;> simp [tag] at htag
    | _ => simp [tag] at htag
  | obj ((k, v) :: fs), w, r, r', h, hr, hr' => by
    have htag := tag_eq hq h
    have hb := ofString_brackets
    cases w with
    | obj gs =>
      cases gs with
      | nil =>
        obtain ⟨u, hu⟩ := hq.head k
        rw [dump, dump, hb.2.2.2.2.2.2.2, hb.2.2.2.2.2.1, hu] at h
        simp at h
      | cons g gs =>
        rw [dump, dump] at h
        simp only [List.append_assoc] at h
        obtain ⟨hk, hmore⟩ := hq.split (List.append_cancel_left h)
        obtain ⟨hvw, hrest⟩ := dump_split hq v g.2 (List.append_cancel_left hmore)
          (ends_dumpFields fs r) (ends_dumpFields gs r')
        obtain ⟨hfs, hr⟩ := dumpFields_split hq fs gs hrest hr hr'
        exact ⟨by rw [Like, LikeFields]; exact ⟨hk, hvw, hfs⟩, hr⟩
    | bool b => cases b <;> simp [tag] at htag
    | _ => simp [tag] at htag

/-- The rest of a written array is told apart, with its end. -/
theorem dumpItems_split (hq : Quotes q R) : ∀ (vs ws : List Json) {r r' : Text},
    dumpItems q vs ++ r = dumpItems q ws ++ r' → Ends r → Ends r' → LikeItems R vs ws ∧ r = r'
  | [], [], r, r', h, _, _ => ⟨by simp [LikeItems], List.append_cancel_left h⟩
  | [], w :: ws, r, r', h, _, _ => by
    have hb := ofString_brackets
    rw [dumpItems, dumpItems, hb.2.1, hb.2.2.2.1] at h
    simp at h
  | v :: vs, [], r, r', h, _, _ => by
    have hb := ofString_brackets
    rw [dumpItems, dumpItems, hb.2.1, hb.2.2.2.1] at h
    simp at h
  | v :: vs, w :: ws, r, r', h, hr, hr' => by
    rw [dumpItems, dumpItems] at h
    simp only [List.append_assoc] at h
    obtain ⟨hvw, hrest⟩ := dump_split hq v w (List.append_cancel_left h)
      (ends_dumpItems vs r) (ends_dumpItems ws r')
    obtain ⟨hvs, hr⟩ := dumpItems_split hq vs ws hrest hr hr'
    exact ⟨by rw [LikeItems]; exact ⟨hvw, hvs⟩, hr⟩

/-- The rest of a written object is told apart, with its end. -/
theorem dumpFields_split (hq : Quotes q R) : ∀ (fs gs : List (Text × Json)) {r r' : Text},
    dumpFields q fs ++ r = dumpFields q gs ++ r' → Ends r → Ends r' →
      LikeFields R fs gs ∧ r = r'
  | [], [], r, r', h, _, _ => ⟨by simp [LikeFields], List.append_cancel_left h⟩
  | [], g :: gs, r, r', h, _, _ => by
    have hb := ofString_brackets
    rw [dumpFields, dumpFields, hb.2.2.2.2.2.2.1, hb.2.2.2.1] at h
    simp at h
  | f :: fs, [], r, r', h, _, _ => by
    have hb := ofString_brackets
    rw [dumpFields, dumpFields, hb.2.2.2.2.2.2.1, hb.2.2.2.1] at h
    simp at h
  | (k, v) :: fs, g :: gs, r, r', h, hr, hr' => by
    rw [dumpFields, dumpFields] at h
    simp only [List.append_assoc] at h
    obtain ⟨hk, hmore⟩ := hq.split (List.append_cancel_left h)
    obtain ⟨hvw, hrest⟩ := dump_split hq v g.2 (List.append_cancel_left hmore)
      (ends_dumpFields fs r) (ends_dumpFields gs r')
    obtain ⟨hfs, hr⟩ := dumpFields_split hq fs gs hrest hr hr'
    exact ⟨by rw [LikeFields]; exact ⟨hk, hvw, hfs⟩, hr⟩

end

/-! ### Ways to quote -/

/-- Strings quoted as they are are told apart. -/
theorem quotes_quote : Quotes quote Eq where
  head t := ⟨_, by rw [quote, ofString_quote]; rfl⟩
  split {s t r r'} h := by
    rw [quote, quote, ofString_quote] at h
    simp only [List.append_assoc, List.cons_append, List.nil_append, List.cons.injEq,
      true_and] at h
    have hread := scanString_quote s r
    rw [h, scanString_quote t r', Except.ok.injEq, Prod.mk.injEq] at hread
    exact ⟨hread.1.symm, hread.2.symm⟩

/-- The pieces of a code point quoted in ASCII are its UTF-16 units. -/
theorem scanPieces_quoteCharAscii (c : CodePoint) (rest : Text) : ∃ ps : List Piece,
    ps.map (fun p => p.1.val) = Text.utf16Char c ∧
      scanPieces (quoteCharAscii c ++ rest) =
        (scanPieces rest).map fun x => (ps ++ x.1, x.2) := by
  have hone : ∀ p : Piece, consPiece p (scanPieces rest) =
      (scanPieces rest).map fun x => ([p] ++ x.1, x.2) := by
    intro p
    cases scanPieces rest <;> rfl
  have hlt := c.isLt
  by_cases hascii : c.val < 127
  · obtain ⟨b, -, hc⟩ := scanPieces_quoteChar c rest
    refine ⟨[(c, b)], by rw [Text.utf16Char, if_pos (by omega)]; rfl, ?_⟩
    rw [quoteCharAscii, if_pos hascii, hc, hone]
  by_cases hplane : c.val < 0x10000
  · refine ⟨[(Fin.ofNat 0x110000 c.val, true)], by simp [Text.utf16Char, hplane], ?_⟩
    rw [quoteCharAscii, if_neg hascii, if_pos hplane, scanPieces_escapeUnit hplane, hone]
  · refine ⟨[(Fin.ofNat 0x110000 (0xD800 + (c.val - 0x10000) / 1024), true),
      (Fin.ofNat 0x110000 (0xDC00 + (c.val - 0x10000) % 1024), true)], ?_, ?_⟩
    · rw [Text.utf16Char, if_neg hplane]
      simp only [List.map_cons, List.map_nil, Fin.ofNat_eq_cast, Fin.val_natCast]
      rw [Nat.mod_eq_of_lt (by omega), Nat.mod_eq_of_lt (by omega)]
    · rw [quoteCharAscii, if_neg hascii, if_neg hplane]
      simp only [List.append_assoc]
      rw [scanPieces_escapeUnit (by omega), scanPieces_escapeUnit (by omega)]
      cases scanPieces rest <;> rfl

/-- The pieces of a string quoted in ASCII are its UTF-16 units. -/
theorem scanPieces_quoteAscii (t rest : Text) : ∃ ps : List Piece,
    scanPieces (t.flatMap quoteCharAscii ++ 34 :: rest) = some (ps, rest) ∧
      ps.map (fun p => p.1.val) = Text.utf16 t := by
  induction t with
  | nil =>
    refine ⟨[], ?_, rfl⟩
    rw [List.flatMap_nil, List.nil_append, scanPieces.eq_def]
    cases rest <;> simp
  | cons c t ih =>
    obtain ⟨ps, hps, ht⟩ := ih
    obtain ⟨qs, hqs, hc⟩ := scanPieces_quoteCharAscii c (t.flatMap quoteCharAscii ++ 34 :: rest)
    refine ⟨qs ++ ps, ?_, ?_⟩
    · rw [List.flatMap_cons, List.append_assoc, hc, hps]
      rfl
    · rw [List.map_append, hqs, ht, Text.utf16, Text.utf16, List.flatMap_cons]

/-- An escape of four digits is read as its code point, which is no surrogate. -/
theorem reads_escapeUnit {c : CodePoint} (hplane : c.val < 0x10000)
    (hs : Text.isSurrogate c = false) : Reads (escapeUnit c.val) c := by
  refine reads_piece true ?_ fun rest => ?_
  · simp only [Text.isSurrogate, Bool.and_eq_false_iff, decide_eq_false_iff_not] at hs
    simp only [Text.isHigh, Bool.true_and, Bool.and_eq_false_iff, decide_eq_false_iff_not]
    omega
  · rw [scanPieces_escapeUnit hplane]
    congr
    simp

/-- The two units of a pair are joined. -/
theorem joinPieces_pair {h l : CodePoint} (hhigh : Text.isHigh h.val = true)
    (hlow : Text.isLow l.val = true) (ps : List Piece) :
    joinPieces ((h, true) :: (l, true) :: ps) =
      Fin.ofNat 0x110000 (Text.joinUnits h.val l.val) :: joinPieces ps := by
  rw [joinPieces, if_pos (by simp [hhigh, hlow])]

/-- A code point quoted in ASCII is read as itself, unless it is a surrogate. -/
theorem reads_quoteCharAscii {c : CodePoint} (hs : Text.isSurrogate c = false) :
    Reads (quoteCharAscii c) c := by
  by_cases hascii : c.val < 127
  · rw [quoteCharAscii, if_pos hascii]
    exact reads_quoteChar c
  by_cases hplane : c.val < 0x10000
  · rw [quoteCharAscii, if_neg hascii, if_pos hplane]
    exact reads_escapeUnit hplane hs
  · have hlt := c.isLt
    have hval : ∀ n < 0x110000, (Fin.ofNat 0x110000 n).val = n := by
      intro n hn
      rw [Fin.ofNat_eq_cast, Fin.val_natCast, Nat.mod_eq_of_lt hn]
    intro rest
    refine ⟨[(Fin.ofNat 0x110000 (0xD800 + (c.val - 0x10000) / 1024), true),
      (Fin.ofNat 0x110000 (0xDC00 + (c.val - 0x10000) % 1024), true)], ?_, fun qs => ?_⟩
    · rw [quoteCharAscii, if_neg hascii, if_neg hplane]
      simp only [List.append_assoc]
      rw [scanPieces_escapeUnit (by omega), scanPieces_escapeUnit (by omega)]
      cases scanPieces rest <;> rfl
    · have hjoined : Fin.ofNat 0x110000 (Text.joinUnits (0xD800 + (c.val - 0x10000) / 1024)
          (0xDC00 + (c.val - 0x10000) % 1024)) = c := by
        refine Fin.ext ((hval _ ?_).trans ?_) <;> unfold Text.joinUnits <;> omega
      refine (joinPieces_pair ?_ ?_ qs).trans ?_
      · simp only [hval _ (show 0xD800 + (c.val - 0x10000) / 1024 < 0x110000 by omega), Text.isHigh,
          Bool.and_eq_true, decide_eq_true_eq]
        omega
      · simp only [hval _ (show 0xDC00 + (c.val - 0x10000) % 1024 < 0x110000 by omega), Text.isLow,
          Bool.and_eq_true, decide_eq_true_eq]
        omega
      · simp only [hval _ (show 0xD800 + (c.val - 0x10000) / 1024 < 0x110000 by omega),
          hval _ (show 0xDC00 + (c.val - 0x10000) % 1024 < 0x110000 by omega), hjoined]

/-- Strings quoted in ASCII are told apart by their UTF-16 units. -/
theorem quotes_quoteAscii : Quotes quoteAscii fun s t => Text.utf16 s = Text.utf16 t where
  head t := ⟨_, by rw [quoteAscii, ofString_quote]; rfl⟩
  split {s t r r'} h := by
    rw [quoteAscii, quoteAscii, ofString_quote] at h
    simp only [List.append_assoc, List.cons_append, List.nil_append, List.cons.injEq,
      true_and] at h
    obtain ⟨ps, hps, hs⟩ := scanPieces_quoteAscii s r
    obtain ⟨qs, hqs, ht⟩ := scanPieces_quoteAscii t r'
    rw [h, hqs, Option.some.injEq, Prod.mk.injEq] at hps
    rw [← hs, ← ht, hps.1]
    exact ⟨rfl, hps.2.symm⟩

/-- Written values are different. -/
theorem dump_injective : Function.Injective (dump quote) := by
  intro v w h
  have hsplit := @dump_split _ _ quotes_quote v w [] [] (by simpa using h)
    (by simp [Ends]) (by simp [Ends])
  exact eq_of_like v w hsplit.1

/-- Values written in ASCII are alike. -/
theorem like_of_dump_quoteAscii {v w : Json} (h : dump quoteAscii v = dump quoteAscii w) :
    Like (fun s t => Text.utf16 s = Text.utf16 t) v w := by
  have hsplit := @dump_split _ _ quotes_quoteAscii v w [] [] (by simpa using h)
    (by simp [Ends]) (by simp [Ends])
  exact hsplit.1

/-! ### Values written in ASCII -/

theorem all_isAscii_intText (n : ℤ) : (intText n).all Text.isAscii = true := by
  have hdigits : ∀ m : ℕ, (decimalDigits m).all Text.isAscii = true := by
    intro m
    refine List.all_eq_true.mpr fun c hc => ?_
    have hdigit := isDigit_of_mem hc
    simp only [isDigit, Bool.and_eq_true, decide_eq_true_eq] at hdigit
    simp only [Text.isAscii, decide_eq_true_eq]
    omega
  rw [intText]
  split_ifs
  · rw [List.all_append, hdigits, Bool.and_true]
    decide
  · exact hdigits _

theorem all_isAscii_quoteAscii (t : Text) : (quoteAscii t).all Text.isAscii = true :=
  List.all_eq_true.mpr fun _ => isAscii_quoteAscii

/-- The marks of containers are ASCII. -/
theorem all_isAscii_brackets : (Text.ofString "[").all Text.isAscii = true ∧
    (Text.ofString "]").all Text.isAscii = true ∧ (Text.ofString ",").all Text.isAscii = true ∧
    (Text.ofString ":").all Text.isAscii = true ∧ (Text.ofString "\x7b").all Text.isAscii = true ∧
    (Text.ofString "\x7d").all Text.isAscii = true := by
  decide

mutual

/-- A value written in ASCII is ASCII. -/
theorem all_isAscii_dump : ∀ v : Json, (dump quoteAscii v).all Text.isAscii = true
  | null => by rw [dump]; decide
  | bool true => by rw [dump]; decide
  | bool false => by rw [dump]; decide
  | int n => by rw [dump]; exact all_isAscii_intText n
  | str t => by rw [dump]; exact all_isAscii_quoteAscii t
  | arr [] => by rw [dump]; decide
  | arr (v :: vs) => by
    simp only [dump, List.all_append, all_isAscii_brackets, all_isAscii_dump v,
      all_isAscii_dumpItems vs, Bool.and_self]
  | obj [] => by rw [dump]; decide
  | obj ((k, v) :: fs) => by
    simp only [dump, List.all_append, all_isAscii_brackets, all_isAscii_quoteAscii k,
      all_isAscii_dump v, all_isAscii_dumpFields fs, Bool.and_self]

theorem all_isAscii_dumpItems : ∀ vs : List Json, (dumpItems quoteAscii vs).all Text.isAscii = true
  | [] => by rw [dumpItems]; decide
  | v :: vs => by
    simp only [dumpItems, List.all_append, all_isAscii_brackets, all_isAscii_dump v,
      all_isAscii_dumpItems vs, Bool.and_self]

theorem all_isAscii_dumpFields : ∀ fs : List (Text × Json),
    (dumpFields quoteAscii fs).all Text.isAscii = true
  | [] => by rw [dumpFields]; decide
  | (k, v) :: fs => by
    simp only [dumpFields, List.all_append, all_isAscii_brackets, all_isAscii_quoteAscii k,
      all_isAscii_dump v, all_isAscii_dumpFields fs, Bool.and_self]

end

theorem utf8_dump_quoteAscii (v : Json) :
    (dump quoteAscii v).utf8 = some (dump quoteAscii v).ascii :=
  Text.utf8_ofAscii (List.all_eq_true.mp (all_isAscii_dump v))

end Json

namespace Text

/-- Texts of the same bytes are the same. -/
theorem utf8_injective {s t : Text} {bs : List Byte} (hs : utf8 s = some bs)
    (ht : utf8 t = some bs) : s = t := by
  have hread := utf8Decode_utf8 hs
  rw [utf8Decode_utf8 ht, Option.some.injEq] at hread
  exact hread.symm

theorem utf16_cons (c : CodePoint) (t : Text) : utf16 (c :: t) = utf16Char c ++ utf16 t := rfl

theorem utf16Char_ne_nil (c : CodePoint) : utf16Char c ≠ [] := by
  rw [utf16Char]
  split_ifs <;> simp

/-- The first of a code point's units is told apart from those of other code points. -/
theorem utf16Char_split {c d : CodePoint} (hc : isSurrogate c = false)
    (hd : isSurrogate d = false) {us vs : List ℕ} (h : utf16Char c ++ us = utf16Char d ++ vs) :
    c = d ∧ us = vs := by
  have hclt := c.isLt
  have hdlt := d.isLt
  simp only [isSurrogate, Bool.and_eq_false_iff, decide_eq_false_iff_not] at hc hd
  by_cases hcp : c.val < 0x10000 <;> by_cases hdp : d.val < 0x10000 <;>
    simp only [utf16Char, hcp, hdp, if_true, if_false, List.cons_append, List.nil_append,
      List.cons.injEq] at h
  · exact ⟨Fin.ext h.1, h.2⟩
  · omega
  · omega
  · exact ⟨Fin.ext (by omega), h.2.2⟩

/-- Texts without surrogates are told apart by their UTF-16 units. -/
theorem utf16_injOn {s t : Text} (hs : s.any isSurrogate = false) (ht : t.any isSurrogate = false)
    (h : utf16 s = utf16 t) : s = t := by
  induction s generalizing t with
  | nil =>
    cases t with
    | nil => rfl
    | cons d t =>
      rw [utf16_cons] at h
      exact absurd (List.append_eq_nil_iff.mp h.symm).1 (utf16Char_ne_nil d)
  | cons c s ih =>
    cases t with
    | nil =>
      rw [utf16_cons] at h
      exact absurd (List.append_eq_nil_iff.mp h).1 (utf16Char_ne_nil c)
    | cons d t =>
      rw [List.any_cons, Bool.or_eq_false_iff] at hs ht
      rw [utf16_cons, utf16_cons] at h
      obtain ⟨rfl, hrest⟩ := utf16Char_split hs.1 ht.1 h
      rw [ih hs.2 ht.2 hrest]

end Text

end Foundation
