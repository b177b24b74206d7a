import AgentGov.Foundation.JsonReader

/-!
# Torn JSON

Where the writing of a value breaks off and another object is written on, nothing that is read is
the torn value or goes on past it: the reader either fails, or stops at a place where no container
can go on. A written value itself is read as itself or not at all.

## Main definitions

* `Foundation.Json.Stuck`: a text no container can go on with.
* `Foundation.Json.Onward`: a text that starts an object and leaves the reader stuck.

## Main results

* `Foundation.Json.scanValue_dump_eq`: a written value is read as nothing else.
* `Foundation.Json.settled_of_torn`: a torn value before such a text is read as nothing that goes
  on.
* `Foundation.Json.Onward.torn`, `Foundation.Json.Onward.whole`: a part of an object, or the whole,
  before such a text is such a text.
-/

namespace Foundation.Json

/-! ### The reader's steps, taken back -/

theorem scanItems_ok {fuel room : ℕ} {t r : Text} {vs : List Json}
    (h : scanItems (fuel + 1) room t = .ok (vs, r)) : ∃ v u, scanValue fuel room t = .ok (v, u) ∧
      ((after? 93 (skipBlanks u) = some r ∧ vs = [v]) ∨
        ∃ u' vs', after? 93 (skipBlanks u) = none ∧ after? 44 (skipBlanks u) = some u' ∧
          scanItems fuel room (skipBlanks u') = .ok (vs', r) ∧ vs = v :: vs') := by
  rw [scanItems.eq_def] at h
  simp only at h
  split at h
  · cases h
  · rename_i v u hv
    refine ⟨v, u, hv, ?_⟩
    split at h
    · rename_i hclose
      simp only [Except.ok.injEq, Prod.mk.injEq] at h
      exact Or.inl ⟨by rw [hclose, h.2], h.1.symm⟩
    · rename_i hclose
      split at h
      · cases h
      · rename_i u' hcomma
        split at h
        · rename_i vs' r' hmore
          simp only [Except.ok.injEq, Prod.mk.injEq] at h
          exact Or.inr ⟨u', vs', hclose, hcomma, by rw [hmore, h.2], h.1.symm⟩
        · cases h

theorem scanMembers_ok {fuel room : ℕ} {t r : Text} {fs : List (Text × Json)}
    (h : scanMembers (fuel + 1) room t = .ok (fs, r)) : ∃ s k u w v x,
      after? 34 t = some s ∧ scanString s = .ok (k, u) ∧ after? 58 (skipBlanks u) = some w ∧
      scanValue fuel room (skipBlanks w) = .ok (v, x) ∧
      ((after? 125 (skipBlanks x) = some r ∧ fs = [(k, v)]) ∨
        ∃ y fs', after? 125 (skipBlanks x) = none ∧ after? 44 (skipBlanks x) = some y ∧
          scanMembers fuel room (skipBlanks y) = .ok (fs', r) ∧ fs = (k, v) :: fs') := by
  rw [scanMembers.eq_def] at h
  simp only at h
  split at h
  · cases h
  · rename_i s hs
    split at h
    · cases h
    · rename_i k u hk
      split at h
      · cases h
      · rename_i w hw
        split at h
        · cases h
        · rename_i v x hv
          refine ⟨s, k, u, w, v, x, hs, hk, hw, hv, ?_⟩
          split at h
          · rename_i hclose
            simp only [Except.ok.injEq, Prod.mk.injEq] at h
            exact Or.inl ⟨by rw [hclose, h.2], h.1.symm⟩
          · rename_i hclose
            split at h
            · cases h
            · rename_i y hcomma
              split at h
              · rename_i fs' r' hmore
                simp only [Except.ok.injEq, Prod.mk.injEq] at h
                exact Or.inr ⟨y, fs', hclose, hcomma, by rw [hmore, h.2], h.1.symm⟩
              · cases h

theorem scanValue_array_ok {fuel room : ℕ} {t r : Text} {v : Json}
    (h : scanValue (fuel + 1) room (91 :: t) = .ok (v, r)) : ∃ room', room = room' + 1 ∧
      ((after? 93 (skipBlanks t) = some r ∧ v = .arr []) ∨
        ∃ vs, after? 93 (skipBlanks t) = none ∧
          scanItems fuel room' (skipBlanks t) = .ok (vs, r) ∧ v = .arr vs) := by
  cases room with
  | zero =>
    have hnone : scanValue (fuel + 1) 0 (91 :: t) = .error .nesting := by
      rw [scanValue.eq_def]
      rfl
    cases hnone.symm.trans h
  | succ room' =>
    refine ⟨room', rfl, ?_⟩
    cases hclose : after? 93 (skipBlanks t) with
    | some r' =>
      have hempty : scanValue (fuel + 1) (room' + 1) (91 :: t) = .ok (.arr [], r') := by
        rw [scanValue.eq_def]
        simp only [hclose]
        rfl
      simp only [hempty, Except.ok.injEq, Prod.mk.injEq] at h
      exact Or.inl ⟨by rw [h.2], h.1.symm⟩
    | none =>
      cases hitems : scanItems fuel room' (skipBlanks t) with
      | error e =>
        have hfail : scanValue (fuel + 1) (room' + 1) (91 :: t) = .error e := by
          rw [scanValue.eq_def]
          simp only [hclose, hitems]
          rfl
        cases hfail.symm.trans h
      | ok p =>
        rw [scanValue_array fuel room' hclose hitems] at h
        simp only [Except.ok.injEq, Prod.mk.injEq] at h
        exact Or.inr ⟨p.1, rfl, by rw [← h.2], h.1.symm⟩

theorem scanValue_object_ok {fuel room : ℕ} {t r : Text} {v : Json}
    (h : scanValue (fuel + 1) room (123 :: t) = .ok (v, r)) : ∃ room', room = room' + 1 ∧
      ((after? 125 (skipBlanks t) = some r ∧ v = .obj []) ∨
        ∃ fs, after? 125 (skipBlanks t) = none ∧
          scanMembers fuel room' (skipBlanks t) = .ok (fs, r) ∧ v = .obj fs) := by
  cases room with
  | zero =>
    have hnone : scanValue (fuel + 1) 0 (123 :: t) = .error .nesting := by
      rw [scanValue.eq_def]
      rfl
    cases hnone.symm.trans h
  | succ room' =>
    refine ⟨room', rfl, ?_⟩
    cases hclose : after? 125 (skipBlanks t) with
    | some r' =>
      have hempty : scanValue (fuel + 1) (room' + 1) (123 :: t) = .ok (.obj [], r') := by
        rw [scanValue.eq_def]
        simp only [hclose]
        rfl
      simp only [hempty, Except.ok.injEq, Prod.mk.injEq] at h
      exact Or.inl ⟨by rw [h.2], h.1.symm⟩
    | none =>
      cases hmembers : scanMembers fuel room' (skipBlanks t) with
      | error e =>
        have hfail : scanValue (fuel + 1) (room' + 1) (123 :: t) = .error e := by
          rw [scanValue.eq_def]
          simp only [hclose, hmembers]
          rfl
        cases hfail.symm.trans h
      | ok p =>
        by_cases hfs : (p.1.map Prod.fst).Nodup
        · rw [scanValue_object fuel room' hclose hmembers hfs] at h
          simp only [Except.ok.injEq, Prod.mk.injEq] at h
          exact Or.inr ⟨p.1, rfl, by rw [← h.2], h.1.symm⟩
        · have hfail : scanValue (fuel + 1) (room' + 1) (123 :: t) = .error .invalid := by
            rw [scanValue.eq_def]
            simp only [hclose, hmembers, if_neg hfs]
            rfl
          cases hfail.symm.trans h

/-! ### A written value is read as itself or not at all -/

mutual

/-- A written value is read as nothing else. -/
theorem scanValue_dump_eq : ∀ (v : Json) {fuel room : ℕ} {rest : Text}, Ends rest →
    ∀ {w : Json} {r : Text}, scanValue fuel room (dump quote v ++ rest) = .ok (w, r) →
      w = v ∧ r = rest
  | v, 0, room, rest, hrest, w, r, h => by
    rw [scanValue.eq_def] at h
    cases h
  | null, fuel + 1, room, rest, hrest, w, r, h => by
    rw [dump, ofString_words.1, List.cons_append,
      scanValue_atom (by decide) (by decide) (by decide)] at h
    simp only [scanAtom, ofString_words, List.cons_append, List.nil_append, Text.stripPrefix?,
      if_true, Except.ok.injEq, Prod.mk.injEq] at h
    exact ⟨h.1.symm, h.2.symm⟩
  | bool true, fuel + 1, room, rest, hrest, w, r, h => by
    rw [dump, ofString_words.2.1, List.cons_append,
      scanValue_atom (by decide) (by decide) (by decide)] at h
    simp [scanAtom, ofString_words, Text.stripPrefix?] at h
    exact ⟨h.1.symm, h.2.symm⟩
  | bool false, fuel + 1, room, rest, hrest, w, r, h => by
    rw [dump, ofString_words.2.2, List.cons_append,
      scanValue_atom (by decide) (by decide) (by decide)] at h
    simp [scanAtom, ofString_words, Text.stripPrefix?] at h
    exact ⟨h.1.symm, h.2.symm⟩
  | int n, fuel + 1, room, rest, hrest, w, r, h => by
    obtain ⟨c, t, hn, h34, h123, h91⟩ := intText_eq_cons n
    rw [dump, hn, List.cons_append, scanValue_atom h34 h123 h91, ← List.cons_append, ← hn] at h
    by_cases hlen : (decimalDigits n.natAbs).length ≤ maxDigits
    · rw [scanAtom_intText hlen hrest] at h
      simp only [Except.ok.injEq, Prod.mk.injEq] at h
      exact ⟨h.1.symm, h.2.symm⟩
    · rw [scanAtom_intText_append, scanNatural, scanDigits_decimalDigits _ hrest] at h
      simp [hasFraction_of_ends hrest, show maxDigits < (decimalDigits n.natAbs).length by omega]
        at h
  | str t, fuel + 1, room, rest, hrest, w, r, h => by
    have htext : dump quote (str t) ++ rest = 34 :: (t.flatMap quoteChar ++ 34 :: rest) := by
      simp [dump, quote, ofString_quote]
    rw [htext, scanValue_string fuel room (scanString_quote t rest)] at h
    simp only [Except.ok.injEq, Prod.mk.injEq] at h
    exact ⟨h.1.symm, h.2.symm⟩
  | arr [], fuel + 1, room, rest, hrest, w, r, h => by
    rw [dump, ofString_brackets.2.2.1] at h
    obtain ⟨room, rfl, ⟨hr, rfl⟩ | ⟨vs, hclose, -, -⟩⟩ := scanValue_array_ok h
    · exact ⟨rfl, (Option.some.inj hr).symm⟩
    · cases hclose
  | arr (v :: vs), fuel + 1, room, rest, hrest, w, r, h => by
    have htext : dump quote (arr (v :: vs)) ++ rest =
        91 :: (dump quote v ++ dumpItems quote vs ++ rest) := by
      simp [dump, ofString_brackets]
    rw [htext] at h
    obtain ⟨room, rfl, ⟨hr, -⟩ | ⟨ws, -, hitems, rfl⟩⟩ := scanValue_array_ok h
    · rw [List.append_assoc, skipBlanks_dump, after?_dump] at hr
      cases hr
    · rw [List.append_assoc, skipBlanks_dump, ← List.append_assoc] at hitems
      obtain ⟨rfl, rfl⟩ := scanItems_dump_eq v vs hitems
      exact ⟨rfl, rfl⟩
  | obj [], fuel + 1, room, rest, hrest, w, r, h => by
    rw [dump, ofString_brackets.2.2.2.2.2.2.2] at h
    obtain ⟨room, rfl, ⟨hr, rfl⟩ | ⟨vs, hclose, -, -⟩⟩ := scanValue_object_ok h
    · exact ⟨rfl, (Option.some.inj hr).symm⟩
    · cases hclose
  | obj ((k, v) :: fs), fuel + 1, room, rest, hrest, w, r, h => by
    have htext : dump quote (obj ((k, v) :: fs)) ++ rest =
        123 :: (quote k ++ Text.ofString ":" ++ dump quote v ++ dumpFields quote fs ++ rest) := by
      simp [dump, ofString_brackets]
    rw [htext] at h
    have hblank : skipBlanks (quote k ++ Text.ofString ":" ++ dump quote v ++
        dumpFields quote fs ++ rest) = quote k ++ Text.ofString ":" ++ dump quote v ++
        dumpFields quote fs ++ rest := by
      rw [List.append_assoc _ _ rest, member_append]
      exact skipBlanks_cons (by decide) _
    obtain ⟨room, rfl, ⟨hr, -⟩ | ⟨gs, -, hmembers, rfl⟩⟩ := scanValue_object_ok h
    · rw [hblank, List.append_assoc _ _ rest, member_append] at hr
      cases hr
    · rw [hblank] at hmembers
      obtain ⟨rfl, rfl⟩ := scanMembers_dump_eq k v fs hmembers
      exact ⟨rfl, rfl⟩

/-- Written items are read as nothing else. -/
theorem scanItems_dump_eq : ∀ (v : Json) (vs : List Json) {fuel room : ℕ} {rest : Text}
    {ws : List Json} {r : Text},
    scanItems fuel room (dump quote v ++ dumpItems quote vs ++ rest) = .ok (ws, r) →
      ws = v :: vs ∧ r = rest
  | v, vs, 0, room, rest, ws, r, h => by
    rw [scanItems.eq_def] at h
    cases h
  | v, [], fuel + 1, room, rest, ws, r, h => by
    rw [dumpItems, ofString_brackets.2.1, List.append_assoc] at h
    obtain ⟨w, u, hv, hrest⟩ := scanItems_ok h
    obtain ⟨rfl, rfl⟩ := scanValue_dump_eq v (ends_of_val (by decide) rest) hv
    obtain ⟨hr, rfl⟩ | ⟨u', vs', hclose, -⟩ := hrest
    · exact ⟨rfl, (Option.some.inj hr).symm⟩
    · cases hclose
  | v, w :: vs, fuel + 1, room, rest, ws, r, h => by
    have hitems : dumpItems quote (w :: vs) = 44 :: (dump quote w ++ dumpItems quote vs) := by
      simp [dumpItems, ofString_brackets]
    rw [hitems, List.append_assoc, List.cons_append] at h
    obtain ⟨x, u, hv, hrest⟩ := scanItems_ok h
    obtain ⟨rfl, rfl⟩ := scanValue_dump_eq v (ends_of_val (by decide) _) hv
    obtain ⟨hr, -⟩ | ⟨u', vs', -, hu, hmore, rfl⟩ := hrest
    · cases hr
    · obtain rfl := Option.some.inj hu
      rw [List.append_assoc, skipBlanks_dump, ← List.append_assoc] at hmore
      obtain ⟨rfl, rfl⟩ := scanItems_dump_eq w vs hmore
      exact ⟨rfl, rfl⟩

/-- Written members are read as nothing else. -/
theorem scanMembers_dump_eq : ∀ (k : Text) (v : Json) (fs : List (Text × Json)) {fuel room : ℕ}
    {rest : Text} {gs : List (Text × Json)} {r : Text},
    scanMembers fuel room (quote k ++ Text.ofString ":" ++ dump quote v ++ dumpFields quote fs ++
      rest) = .ok (gs, r) → gs = (k, v) :: fs ∧ r = rest
  | k, v, fs, 0, room, rest, gs, r, h => by
    rw [scanMembers.eq_def] at h
    cases h
  | k, v, [], fuel + 1, room, rest, gs, r, h => by
    rw [dumpFields, ofString_brackets.2.2.2.2.2.2.1, List.append_assoc _ _ rest,
      member_append] at h
    obtain ⟨s, l, u, w, x, y, hs, hk, hw, hv, hrest⟩ := scanMembers_ok h
    obtain rfl := Option.some.inj hs
    rw [scanString_quote] at hk
    obtain ⟨rfl, rfl⟩ := Prod.mk.inj (Except.ok.inj hk)
    obtain rfl := Option.some.inj hw
    rw [skipBlanks_dump] at hv
    obtain ⟨rfl, rfl⟩ := scanValue_dump_eq v (ends_of_val (by decide) rest) hv
    obtain ⟨hr, rfl⟩ | ⟨u', vs', hclose, -⟩ := hrest
    · exact ⟨rfl, (Option.some.inj hr).symm⟩
    · cases hclose
  | k, v, (l, w) :: fs, fuel + 1, room, rest, gs, r, h => by
    have hfields : dumpFields quote ((l, w) :: fs) =
        44 :: (quote l ++ Text.ofString ":" ++ dump quote w ++ dumpFields quote fs) := by
      simp [dumpFields, ofString_brackets]
    rw [hfields, List.append_assoc _ _ rest, member_append, List.cons_append] at h
    obtain ⟨s, m, u, x, y, z, hs, hk, hx, hv, hrest⟩ := scanMembers_ok h
    obtain rfl := Option.some.inj hs
    rw [scanString_quote] at hk
    obtain ⟨rfl, rfl⟩ := Prod.mk.inj (Except.ok.inj hk)
    obtain rfl := Option.some.inj hx
    rw [skipBlanks_dump] at hv
    obtain ⟨rfl, rfl⟩ := scanValue_dump_eq v (ends_of_val (by decide) _) hv
    obtain ⟨hr, -⟩ | ⟨u', vs', -, hu, hmore, rfl⟩ := hrest
    · cases hr
    · obtain rfl := Option.some.inj hu
      rw [List.append_assoc _ _ rest, member_append, skipBlanks_cons (by decide),
        ← member_append, ← List.append_assoc] at hmore
      obtain ⟨rfl, rfl⟩ := scanMembers_dump_eq l w fs hmore
      exact ⟨rfl, rfl⟩

end

/-- The written text of a value is that value or nothing. -/
theorem loads_dump_eq {v w : Json} {room : ℕ} (h : loads room (dump quote v) = .ok w) : w = v := by
  have hskip := skipBlanks_dump v []
  rw [List.append_nil] at hskip
  rw [loads, hskip] at h
  split at h
  · rename_i x r hx
    rw [← List.append_nil (dump quote v)] at hx
    obtain ⟨rfl, rfl⟩ := scanValue_dump_eq v (by simp [Ends]) hx
    exact (Except.ok.inj h).symm
  · cases h

/-! ### Texts written on after a torn value -/

/-- A text no container can go on with. -/
def Stuck (t : Text) : Prop :=
  ∀ c ∈ t.head?, isBlank c = false ∧ c.val ≠ 58 ∧ c.val ≠ 44 ∧ c.val ≠ 93 ∧ c.val ≠ 125

/-- Whatever is read, no container can go on after it. -/
def Settled (r : Except JsonFault (Json × Text)) : Prop := ∀ v t, r = .ok (v, t) → Stuck t

/-- A text that starts with braces, a quote and then nothing a container can go on with. -/
def Opens (t : Text) : Prop :=
  ∃ n c r, t = List.replicate (n + 1) 123 ++ 34 :: c :: r ∧ Stuck [c]

/-- A text that starts an object and leaves the reader stuck. -/
structure Onward (t : Text) : Prop where
  opens : Opens t
  settled : ∀ fuel room, Settled (scanValue fuel room t)

theorem Stuck.after {t : Text} (h : Stuck t) {n : ℕ} (hn : n = 58 ∨ n = 44 ∨ n = 93 ∨ n = 125) :
    after? n (skipBlanks t) = none := by
  cases t with
  | nil => rfl
  | cons c t =>
    obtain ⟨hblank, hc⟩ := h c (by simp)
    rw [skipBlanks_cons hblank, after?, if_neg (by omega)]

theorem Opens.eq_cons {t : Text} (h : Opens t) : ∃ r, t = 123 :: r := by
  obtain ⟨n, c, r, rfl, -⟩ := h
  exact ⟨_, rfl⟩

theorem Opens.stuck {t : Text} (h : Opens t) : Stuck t := by
  obtain ⟨r, rfl⟩ := h.eq_cons
  intro c hc
  obtain rfl : 123 = c := by simpa using hc
  decide

theorem Opens.ends {t : Text} (h : Opens t) : Ends t := by
  obtain ⟨r, rfl⟩ := h.eq_cons
  exact ends_cons (by decide) (by decide) (by decide) (by decide) r

theorem Opens.skipBlanks_eq {t : Text} (h : Opens t) : skipBlanks t = t := by
  obtain ⟨r, rfl⟩ := h.eq_cons
  exact skipBlanks_cons (by decide) r

/-! #### Strings -/

/-- A string that goes on with such a text ends at the text's first quote. -/
theorem Opens.scanPieces {t : Text} (h : Opens t) {ps : List Piece} {r : Text}
    (hr : scanPieces t = some (ps, r)) : Stuck r := by
  obtain ⟨n, c, r', rfl, hc⟩ := h
  have hquote : Json.scanPieces (34 :: c :: r') = some ([], c :: r') := by
    rw [scanPieces.eq_def]
    rfl
  suffices hstep : ∀ m ps r, Json.scanPieces (List.replicate m 123 ++ 34 :: c :: r') =
      some (ps, r) → r = c :: r' by
    obtain rfl := hstep _ _ _ hr
    exact fun d hd => hc d hd
  intro m
  induction m with
  | zero =>
    intro ps r hm
    exact (Prod.mk.inj (Option.some.inj (hquote.symm.trans hm))).2.symm
  | succ m ih =>
    intro ps r hm
    rw [List.replicate_succ, List.cons_append,
      scanPieces_plain (by decide) (by decide) (by decide)] at hm
    cases hrest : Json.scanPieces (List.replicate m 123 ++ 34 :: c :: r') with
    | none => simp [hrest, consPiece] at hm
    | some q =>
      simp only [hrest, consPiece, Option.some.injEq, Prod.mk.injEq] at hm
      exact hm.2 ▸ ih _ _ hrest

/-- An escape whose letter is a brace is refused. -/
theorem scanPieces_torn_escape (t : Text) : scanPieces (92 :: 123 :: t) = none := by
  rw [scanPieces.eq_def]
  rfl

/-- An escape of fewer than four digits before a brace is refused. -/
theorem scanPieces_torn_unit {hs : Text} (h : hs.length < 4) (t : Text) :
    scanPieces (92 :: 117 :: (hs ++ 123 :: t)) = none := by
  have hbrace : hexValue 123 = none := by decide
  have hunit : ∀ x y z w : CodePoint, 123 ∈ [x, y, z, w] → unitOf x y z w = none := by
    intro x y z w hmem
    unfold unitOf
    split
    · rename_i hx hy hz hw
      simp only [List.mem_cons, List.not_mem_nil, or_false] at hmem
      rcases hmem with rfl | rfl | rfl | rfl <;> simp_all
    · rfl
  have hmem : 123 ∈ (hs ++ 123 :: t).take 4 := by
    rw [List.take_append, List.mem_append]
    refine Or.inr ?_
    obtain ⟨k, hk⟩ := Nat.exists_eq_add_of_lt h
    rw [show 4 - hs.length = k + 1 by omega, List.take_succ_cons]
    exact List.mem_cons_self
  rw [scanPieces.eq_def]
  simp only [show ¬((92 : CodePoint).val = 34) by decide, show ¬((92 : CodePoint).val < 32) by
    decide, show ¬((92 : CodePoint).val ≠ 92) by decide, show (117 : CodePoint).val = 117 by
    decide, if_true, if_false]
  generalize hs ++ 123 :: t = u at hmem
  rcases u with _ | ⟨x, _ | ⟨y, _ | ⟨z, _ | ⟨w, r⟩⟩⟩⟩
  · rfl
  · rfl
  · rfl
  · rfl
  · simp only [hunit x y z w hmem]

/-- Where the writing of a code point breaks off inside its escape. -/
theorem torn_quoteChar {c : CodePoint} {p q : Text} (h : quoteChar c = p ++ q) (hp : p ≠ [])
    (hq : q ≠ []) : p = [92] ∨ ∃ hs : Text, p = 92 :: 117 :: hs ∧ hs.length < 4 := by
  have hletter : ∀ (s : String) (e : CodePoint), Text.ofString s = [92, e] →
      Text.ofString s = p ++ q → p = [92] := by
    intro s e hs hpq
    rw [hs] at hpq
    obtain ⟨x, p, rfl⟩ := List.exists_cons_of_ne_nil hp
    cases p with
    | nil => rw [(List.cons.inj hpq).1]
    | cons y p =>
      simp only [List.cons_append, List.cons.injEq] at hpq
      exact absurd (List.append_eq_nil_iff.mp hpq.2.2.symm).2 hq
  unfold quoteChar at h
  split_ifs at h with h34 h92 h10 h13 h9 h12 h8 h32
  · exact Or.inl (hletter _ 34 (by decide) h)
  · exact Or.inl (hletter _ 92 (by decide) h)
  · exact Or.inl (hletter _ 110 (by decide) h)
  · exact Or.inl (hletter _ 114 (by decide) h)
  · exact Or.inl (hletter _ 116 (by decide) h)
  · exact Or.inl (hletter _ 102 (by decide) h)
  · exact Or.inl (hletter _ 98 (by decide) h)
  · rw [escapeUnit, ofString_escape, hexDigits_four] at h
    obtain ⟨x, p, rfl⟩ := List.exists_cons_of_ne_nil hp
    cases p with
    | nil => exact Or.inl (by rw [(List.cons.inj h).1])
    | cons y p =>
      simp only [List.cons_append, List.nil_append, List.cons.injEq] at h
      obtain ⟨rfl, rfl, h⟩ := h
      refine Or.inr ⟨p, rfl, ?_⟩
      have hlen := congrArg List.length h
      have hpos := List.length_pos_of_ne_nil hq
      simp only [List.length_cons, List.length_nil, List.length_append] at hlen
      omega
  · obtain ⟨x, p, rfl⟩ := List.exists_cons_of_ne_nil hp
    simp only [List.cons_append, List.cons.injEq] at h
    exact absurd (List.append_eq_nil_iff.mp h.2.symm).2 hq

/-- A torn string ends at the quote of the text written on. -/
theorem torn_scanPieces {t : Text} (ht : Opens t) (s : Text) {p q : Text}
    (hp : s.flatMap quoteChar = p ++ q) {ps : List Piece} {r : Text}
    (hr : scanPieces (p ++ t) = some (ps, r)) : Stuck r := by
  induction s generalizing p ps with
  | nil =>
    obtain rfl := (List.append_eq_nil_iff.mp hp.symm).1
    exact ht.scanPieces hr
  | cons c s ih =>
    rw [List.flatMap_cons] at hp
    have hon : ∀ u : Text, p = quoteChar c ++ u → s.flatMap quoteChar = u ++ q → Stuck r := by
      rintro u rfl hs
      obtain ⟨b, -, hc⟩ := scanPieces_quoteChar c (u ++ t)
      rw [List.append_assoc, hc] at hr
      cases hu : scanPieces (u ++ t) with
      | none => simp [hu, consPiece] at hr
      | some x =>
        simp only [hu, consPiece, Option.some.injEq, Prod.mk.injEq] at hr
        have hrest : scanPieces (u ++ t) = some (x.1, r) := by rw [hu, ← hr.2]
        exact ih hs hrest
    rcases List.append_eq_append_iff.mp hp with ⟨u, hu, hs⟩ | ⟨u, hu, hq⟩
    · exact hon u hu hs
    · rcases eq_or_ne u [] with rfl | hne
      · rw [List.append_nil] at hu
        exact hon [] (by simp [hu]) (by simpa using hq.symm)
      · rcases eq_or_ne p [] with rfl | hpne
        · exact ht.scanPieces hr
        · obtain ⟨x, rfl⟩ := ht.eq_cons
          rcases torn_quoteChar hu hpne hne with rfl | ⟨hs, rfl, hlen⟩
          · rw [List.singleton_append, scanPieces_torn_escape] at hr
            cases hr
          · rw [List.cons_append, List.cons_append, scanPieces_torn_unit hlen] at hr
            cases hr

theorem torn_scanString {t : Text} (ht : Opens t) (s : Text) {p q : Text}
    (hp : s.flatMap quoteChar = p ++ q) {x r : Text} (hr : scanString (p ++ t) = .ok (x, r)) :
    Stuck r := by
  unfold scanString at hr
  split at hr
  · rename_i ps u hps
    simp only [Except.ok.injEq, Prod.mk.injEq] at hr
    exact hr.2 ▸ torn_scanPieces ht s hp hps
  · cases hr

/-! #### Numbers and constants -/

theorem isDigit_brace : isDigit 123 = false := by decide

/-- Digits torn off are read up to the text written on. -/
theorem scanDigits_torn {t : Text} (ht : Opens t) {n : ℕ} {p q : Text}
    (hp : decimalDigits n = p ++ q) : scanDigits (p ++ t) = (p, t) := by
  obtain ⟨r, rfl⟩ := ht.eq_cons
  have hend : (123 :: r).takeWhile isDigit = [] ∧ (123 :: r).dropWhile isDigit = 123 :: r := by
    simp [isDigit_brace]
  cases p with
  | nil => simp [scanDigits, isDigit_brace]
  | cons c p =>
    have hall : ∀ d ∈ c :: p, isDigit d = true := fun d hd =>
      isDigit_of_mem (hp ▸ List.mem_append_left q hd)
    by_cases hc : c.val = 48
    · obtain ⟨d, ds, hcons, hzero⟩ := decimalDigits_eq_cons n
      rw [hcons, List.cons_append, List.cons.injEq] at hp
      obtain ⟨rfl, hds⟩ := hp
      rw [(hzero hc).1] at hds
      obtain rfl := (List.append_eq_nil_iff.mp hds.symm).1
      simp [scanDigits, hc]
    · have hsplit : scanDigits (c :: p ++ 123 :: r) =
          ((c :: p ++ 123 :: r).takeWhile isDigit, (c :: p ++ 123 :: r).dropWhile isDigit) := by
        simp [scanDigits, hc]
      rw [hsplit, List.takeWhile_append_of_pos hall, List.dropWhile_append_of_pos hall, hend.1,
        hend.2, List.append_nil]

theorem scanNatural_rest {negative : Bool} {u t r ds : Text} {v : Json}
    (hu : scanDigits u = (ds, t)) (h : scanNatural negative u = .ok (v, r)) : r = t := by
  simp only [scanNatural, hu] at h
  split_ifs at h <;> exact (Prod.mk.inj (Except.ok.inj h)).2.symm

/-- A numeral torn off is read up to the text written on. -/
theorem torn_intText {t : Text} (ht : Opens t) {n : ℤ} {p q : Text} (hp : intText n = p ++ q)
    (hne : p ≠ []) {v : Json} {r : Text} (h : scanAtom (p ++ t) = .ok (v, r)) : r = t := by
  unfold intText at hp
  split_ifs at hp with hneg
  · rw [show Text.ofString "-" = [45] by decide, List.singleton_append] at hp
    cases p with
    | nil => exact absurd rfl hne
    | cons c p =>
      rw [List.cons_append, List.cons.injEq] at hp
      obtain ⟨rfl, hp⟩ := hp
      rw [List.cons_append, scanAtom_numeral (Or.inl rfl), if_pos (by decide)] at h
      exact scanNatural_rest (scanDigits_torn ht hp) h
  · cases p with
    | nil => exact absurd rfl hne
    | cons c p =>
      have hc : isDigit c = true := isDigit_of_mem (hp ▸ List.mem_append_left q List.mem_cons_self)
      have hc45 : c.val ≠ 45 := by
        simp only [isDigit, Bool.and_eq_true, decide_eq_true_eq] at hc
        omega
      rw [List.cons_append, scanAtom_numeral (Or.inr hc), if_neg hc45, ← List.cons_append] at h
      exact scanNatural_rest (scanDigits_torn ht hp) h

/-- A constant torn off is not read. -/
theorem torn_word {t w : Text} (ht : Opens t)
    (hw : w = [110, 117, 108, 108] ∨ w = [116, 114, 117, 101] ∨ w = [102, 97, 108, 115, 101])
    {p q : Text} (hp : w = p ++ q) (hne : p ≠ []) (hq : q ≠ []) :
    scanAtom (p ++ t) = .error .invalid := by
  obtain ⟨r, rfl⟩ := ht.eq_cons
  have hparts : p ∈ [[110], [110, 117], [110, 117, 108], [116], [116, 114], [116, 114, 117], [102],
      [102, 97], [102, 97, 108], [102, 97, 108, 115]] := by
    have hlen : p.length < w.length := by
      have := List.length_pos_of_ne_nil hq
      rw [hp, List.length_append]
      omega
    have htake : p = w.take p.length := by rw [hp, List.take_left]
    have hpos := List.length_pos_of_ne_nil hne
    generalize p.length = n at hlen htake hpos
    subst htake
    rcases hw with rfl | rfl | rfl
    all_goals
      simp only [List.length_cons, List.length_nil] at hlen
      interval_cases n <;> decide
  simp only [List.mem_cons, List.not_mem_nil, or_false] at hparts
  rcases hparts with rfl | rfl | rfl | rfl | rfl | rfl | rfl | rfl | rfl | rfl <;>
    simp [scanAtom, ofString_words, Text.stripPrefix?, scanNatural, scanDigits, isDigit]

/-! #### Containers -/

theorem Onward.no_items {t : Text} (ht : Onward t) (fuel room : ℕ) (x : List Json × Text) :
    scanItems fuel room t ≠ .ok x := by
  intro h
  cases fuel with
  | zero =>
    rw [scanItems.eq_def] at h
    cases h
  | succ fuel =>
    obtain ⟨v, u, hv, ⟨hclose, -⟩ | ⟨u', vs', -, hcomma, -⟩⟩ := scanItems_ok h
    · rw [(ht.settled _ _ _ _ hv).after (by omega)] at hclose
      cases hclose
    · rw [(ht.settled _ _ _ _ hv).after (by omega)] at hcomma
      cases hcomma

theorem Onward.no_members {t : Text} (ht : Onward t) (fuel room : ℕ)
    (x : List (Text × Json) × Text) : scanMembers fuel room t ≠ .ok x := by
  intro h
  cases fuel with
  | zero =>
    rw [scanMembers.eq_def] at h
    cases h
  | succ fuel =>
    obtain ⟨s, k, u, w, v, y, hs, -⟩ := scanMembers_ok h
    obtain ⟨r, rfl⟩ := ht.opens.eq_cons
    cases hs

/-- What is left of a torn value starts as the value does. -/
theorem skipBlanks_torn {t : Text} (ht : Opens t) {v : Json} {D p q : Text}
    (hp : dump quote v ++ D = p ++ q) : skipBlanks (p ++ t) = p ++ t := by
  cases p with
  | nil => exact ht.skipBlanks_eq
  | cons c p =>
    obtain ⟨d, s, hd, hblank, -⟩ := dump_eq_cons v
    rw [hd] at hp
    obtain rfl : d = c := (List.cons.inj hp).1
    exact skipBlanks_cons hblank _

theorem after?_torn {t : Text} (ht : Opens t) {v : Json} {D p q : Text}
    (hp : dump quote v ++ D = p ++ q) : after? 93 (p ++ t) = none := by
  cases p with
  | nil =>
    obtain ⟨r, rfl⟩ := ht.eq_cons
    rfl
  | cons c p =>
    obtain ⟨d, s, hd, -, hne⟩ := dump_eq_cons v
    rw [hd] at hp
    obtain rfl : d = c := (List.cons.inj hp).1
    rw [List.cons_append, after?, if_neg hne]

/-- Where a value and what follows it are torn off, either the reader is stuck after the value, or
the tear is in what follows. -/
theorem torn_tail {t : Text} (ht : Onward t) {v : Json} {fuel room : ℕ}
    (hv : ∀ p q : Text, dump quote v = p ++ q → p ≠ [] → q ≠ [] →
      Settled (scanValue fuel room (p ++ t)))
    {D p q : Text} (hD : ∃ c D', D = c :: D' ∧ (c.val = 93 ∨ c.val = 44 ∨ c.val = 125))
    (hp : dump quote v ++ D = p ++ q) {w : Json} {u : Text}
    (h : scanValue fuel room (skipBlanks (p ++ t)) = .ok (w, u)) :
    Stuck u ∨ ∃ r, r ≠ [] ∧ D = r ++ q ∧ w = v ∧ u = r ++ t := by
  rw [skipBlanks_torn ht.opens hp] at h
  rcases List.append_eq_append_iff.mp hp with ⟨r, rfl, hr⟩ | ⟨r, hr, -⟩
  · -- the value is whole
    rw [List.append_assoc] at h
    cases r with
    | nil =>
      obtain ⟨-, rfl⟩ := scanValue_dump_eq v ht.opens.ends h
      exact Or.inl ht.opens.stuck
    | cons c r =>
      obtain ⟨d, D', rfl, hd⟩ := hD
      obtain ⟨rfl, hr'⟩ := List.cons.inj hr
      obtain ⟨rfl, rfl⟩ := scanValue_dump_eq v (ends_of_val hd _) h
      exact Or.inr ⟨d :: r, by simp, hr, rfl, rfl⟩
  · rcases eq_or_ne p [] with rfl | hne
    · exact Or.inl (ht.settled _ _ _ _ h)
    · rcases eq_or_ne r [] with rfl | hrne
      · rw [List.append_nil] at hr
        rw [← hr] at h
        obtain ⟨-, rfl⟩ := scanValue_dump_eq v ht.opens.ends h
        exact Or.inl ht.opens.stuck
      · exact Or.inl (hv p r hr hne hrne _ _ h)

/-- Of a torn object nothing is read, where nothing is of its torn members. -/
theorem torn_object_of {t : Text} (ht : Onward t) (k : Text) (v : Json)
    (fs : List (Text × Json)) {fuel : ℕ}
    (hmembers : ∀ p q : Text,
      quote k ++ Text.ofString ":" ++ dump quote v ++ dumpFields quote fs = p ++ q → q ≠ [] →
        ∀ (room : ℕ) (x : List (Text × Json) × Text), scanMembers fuel room (p ++ t) ≠ .ok x)
    {p q : Text} (hp : dump quote (obj ((k, v) :: fs)) = p ++ q) (hne : p ≠ []) (hq : q ≠ [])
    (room : ℕ) (x : Json × Text) : scanValue (fuel + 1) room (p ++ t) ≠ .ok x := by
  intro h
  obtain ⟨c, p, rfl⟩ := List.exists_cons_of_ne_nil hne
  have htext : 123 :: (quote k ++ Text.ofString ":" ++ dump quote v ++ dumpFields quote fs) =
      c :: (p ++ q) := by
    simpa [dump, ofString_brackets] using hp
  obtain ⟨rfl, htear⟩ := List.cons.inj htext
  have hblank : skipBlanks (p ++ t) = p ++ t ∧ after? 125 (p ++ t) = none := by
    cases p with
    | nil =>
      rw [List.nil_append, ht.opens.skipBlanks_eq]
      exact ⟨rfl, ht.opens.skipBlanks_eq ▸ ht.opens.stuck.after (by omega)⟩
    | cons d p =>
      rw [member_append] at htear
      obtain ⟨rfl, -⟩ := List.cons.inj htear
      exact ⟨skipBlanks_cons (by decide) _, rfl⟩
  rw [List.cons_append] at h
  obtain ⟨room, rfl, ⟨hclose, -⟩ | ⟨gs, -, hgs, -⟩⟩ := scanValue_object_ok h
  · rw [hblank.1, hblank.2] at hclose
    cases hclose
  · rw [hblank.1] at hgs
    exact hmembers p q htear hq room _ hgs

/-- Of a torn constant nothing is read. -/
theorem settled_of_torn_word {t w : Text} (ht : Opens t)
    (hw : w = [110, 117, 108, 108] ∨ w = [116, 114, 117, 101] ∨ w = [102, 97, 108, 115, 101])
    {p q : Text} (hp : w = p ++ q) (hne : p ≠ []) (hq : q ≠ []) (fuel room : ℕ) :
    Settled (scanValue (fuel + 1) room (p ++ t)) := by
  have hnone := torn_word ht hw hp hne hq
  obtain ⟨c, p, rfl⟩ := List.exists_cons_of_ne_nil hne
  have hc : c = 110 ∨ c = 116 ∨ c = 102 := by
    rcases hw with rfl | rfl | rfl
    · exact Or.inl (List.cons.inj hp).1.symm
    · exact Or.inr (Or.inl (List.cons.inj hp).1.symm)
    · exact Or.inr (Or.inr (List.cons.inj hp).1.symm)
  have hstart : c.val ≠ 34 ∧ c.val ≠ 123 ∧ c.val ≠ 91 := by
    rcases hc with rfl | rfl | rfl <;> decide
  rw [List.cons_append, scanValue_atom hstart.1 hstart.2.1 hstart.2.2, ← List.cons_append, hnone]
  exact nofun

theorem settled_of_torn_int {t : Text} (ht : Opens t) {n : ℤ} {p q : Text}
    (hp : intText n = p ++ q) (hne : p ≠ []) (fuel room : ℕ) :
    Settled (scanValue (fuel + 1) room (p ++ t)) := by
  intro w u h
  have hatom := fun v r => torn_intText ht (v := v) (r := r) hp hne
  obtain ⟨c, p, rfl⟩ := List.exists_cons_of_ne_nil hne
  obtain ⟨d, s, hn, h34, h123, h91⟩ := intText_eq_cons n
  rw [hn, List.cons_append, List.cons.injEq] at hp
  obtain ⟨rfl, -⟩ := hp
  rw [List.cons_append, scanValue_atom h34 h123 h91, ← List.cons_append] at h
  exact hatom w u h ▸ ht.stuck

/-- Of a torn string only a string is read that ends in what follows the tear. -/
theorem settled_of_torn_str {t : Text} (ht : Opens t) {s p q : Text}
    (hp : dump quote (str s) = p ++ q) (hne : p ≠ []) (hq : q ≠ []) (fuel room : ℕ) :
    Settled (scanValue (fuel + 1) room (p ++ t)) := by
  intro w u h
  obtain ⟨c, p, rfl⟩ := List.exists_cons_of_ne_nil hne
  have htext : 34 :: (s.flatMap quoteChar ++ [34]) = c :: (p ++ q) := by
    simpa [dump, quote, ofString_quote] using hp
  obtain ⟨rfl, htear⟩ := List.cons.inj htext
  -- the tear is before the quote that ends it
  obtain ⟨q', hq'⟩ : ∃ q', s.flatMap quoteChar = p ++ q' := by
    rcases List.append_eq_append_iff.mp htear with ⟨r, rfl, hr⟩ | ⟨r, hr, -⟩
    · obtain rfl : r = [] := by
        by_contra hrne
        obtain ⟨d, r, rfl⟩ := List.exists_cons_of_ne_nil hrne
        exact hq (List.append_eq_nil_iff.mp (List.cons.inj hr).2.symm).2
      exact ⟨[], by simp⟩
    · exact ⟨r, hr⟩
  cases hs : scanString (p ++ t) with
  | error e =>
    have hfail : scanValue (fuel + 1) room (34 :: (p ++ t)) = .error e := by
      rw [scanValue.eq_def]
      simp only [hs]
      rfl
    cases hfail.symm.trans h
  | ok x =>
    rw [List.cons_append, scanValue_string fuel room hs] at h
    simp only [Except.ok.injEq, Prod.mk.injEq] at h
    exact h.2 ▸ torn_scanString ht s hq' hs

/-- A text of two characters is torn after the first. -/
theorem eq_singleton_of_torn {a b : CodePoint} {p q : Text} (hp : [a, b] = p ++ q) (hne : p ≠ [])
    (hq : q ≠ []) : p = [a] := by
  match p, hne with
  | [c], _ => rw [(List.cons.inj hp).1]
  | c :: d :: p, _ =>
    simp only [List.cons_append, List.cons.injEq] at hp
    exact absurd (List.append_eq_nil_iff.mp hp.2.2.symm).2 hq

theorem settled_of_torn_nil {t : Text} (ht : Onward t) {p q : Text}
    (hp : dump quote (arr []) = p ++ q) (hne : p ≠ []) (hq : q ≠ []) (fuel room : ℕ) :
    Settled (scanValue (fuel + 1) room (p ++ t)) := by
  intro w u h
  rw [dump, ofString_brackets.2.2.1] at hp
  obtain rfl := eq_singleton_of_torn hp hne hq
  rw [List.singleton_append] at h
  obtain ⟨room, rfl, ⟨hclose, -⟩ | ⟨vs, -, hitems, -⟩⟩ := scanValue_array_ok h
  · rw [ht.opens.stuck.after (by omega)] at hclose
    cases hclose
  · rw [ht.opens.skipBlanks_eq] at hitems
    exact absurd hitems (ht.no_items _ _ _)

theorem settled_of_torn_empty {t : Text} (ht : Onward t) {p q : Text}
    (hp : dump quote (obj []) = p ++ q) (hne : p ≠ []) (hq : q ≠ []) (fuel room : ℕ) :
    Settled (scanValue (fuel + 1) room (p ++ t)) := by
  intro w u h
  rw [dump, ofString_brackets.2.2.2.2.2.2.2] at hp
  obtain rfl := eq_singleton_of_torn hp hne hq
  rw [List.singleton_append] at h
  obtain ⟨room, rfl, ⟨hclose, -⟩ | ⟨vs, -, hmembers, -⟩⟩ := scanValue_object_ok h
  · rw [ht.opens.stuck.after (by omega)] at hclose
    cases hclose
  · rw [ht.opens.skipBlanks_eq] at hmembers
    exact absurd hmembers (ht.no_members _ _ _)

/-- Of a torn array nothing is read, where nothing is of its torn items. -/
theorem torn_array_of {t : Text} (ht : Onward t) (v : Json) (vs : List Json) {fuel : ℕ}
    (hitems : ∀ p q : Text, dump quote v ++ dumpItems quote vs = p ++ q → q ≠ [] →
      ∀ (room : ℕ) (x : List Json × Text), scanItems fuel room (p ++ t) ≠ .ok x)
    {p q : Text} (hp : dump quote (arr (v :: vs)) = p ++ q) (hne : p ≠ []) (hq : q ≠ [])
    (room : ℕ) (x : Json × Text) : scanValue (fuel + 1) room (p ++ t) ≠ .ok x := by
  intro h
  obtain ⟨c, p, rfl⟩ := List.exists_cons_of_ne_nil hne
  have htext : 91 :: (dump quote v ++ dumpItems quote vs) = c :: (p ++ q) := by
    simpa [dump, ofString_brackets] using hp
  obtain ⟨rfl, htear⟩ := List.cons.inj htext
  rw [List.cons_append] at h
  obtain ⟨room, rfl, ⟨hclose, -⟩ | ⟨ws, -, hws, -⟩⟩ := scanValue_array_ok h
  · rw [skipBlanks_torn ht.opens htear, after?_torn ht.opens htear] at hclose
    cases hclose
  · rw [skipBlanks_torn ht.opens htear] at hws
    exact hitems p q htear hq room _ hws

mutual

/-- Of a torn value nothing is read that goes on. -/
theorem settled_of_torn : ∀ (v : Json) {t : Text}, Onward t → ∀ {p q : Text},
    dump quote v = p ++ q → p ≠ [] → q ≠ [] → ∀ fuel room : ℕ,
      Settled (scanValue fuel room (p ++ t))
  | v, t, ht, p, q, hp, hne, hq, 0, room => by
    intro w u h
    rw [scanValue.eq_def] at h
    cases h
  | null, t, ht, p, q, hp, hne, hq, fuel + 1, room => by
    rw [dump, ofString_words.1] at hp
    exact settled_of_torn_word ht.opens (Or.inl rfl) hp hne hq fuel room
  | bool true, t, ht, p, q, hp, hne, hq, fuel + 1, room => by
    rw [dump, ofString_words.2.1] at hp
    exact settled_of_torn_word ht.opens (Or.inr (Or.inl rfl)) hp hne hq fuel room
  | bool false, t, ht, p, q, hp, hne, hq, fuel + 1, room => by
    rw [dump, ofString_words.2.2] at hp
    exact settled_of_torn_word ht.opens (Or.inr (Or.inr rfl)) hp hne hq fuel room
  | int n, t, ht, p, q, hp, hne, hq, fuel + 1, room => by
    rw [dump] at hp
    exact settled_of_torn_int ht.opens hp hne fuel room
  | str s, t, ht, p, q, hp, hne, hq, fuel + 1, room =>
    settled_of_torn_str ht.opens hp hne hq fuel room
  | arr [], t, ht, p, q, hp, hne, hq, fuel + 1, room =>
    settled_of_torn_nil ht hp hne hq fuel room
  | arr (v :: vs), t, ht, p, q, hp, hne, hq, fuel + 1, room => by
    intro w u h
    exact absurd h (torn_array_of ht v vs
      (fun p q hp hq room => torn_items v vs ht hp hq fuel room) hp hne hq room _)
  | obj [], t, ht, p, q, hp, hne, hq, fuel + 1, room =>
    settled_of_torn_empty ht hp hne hq fuel room
  | obj ((k, v) :: fs), t, ht, p, q, hp, hne, hq, fuel + 1, room => by
    intro w u h
    exact absurd h (torn_object_of ht k v fs
      (fun p q hp hq room => torn_members k v fs ht hp hq fuel room) hp hne hq room _)

/-- Of torn items nothing is read. -/
theorem torn_items : ∀ (v : Json) (vs : List Json) {t : Text}, Onward t → ∀ {p q : Text},
    dump quote v ++ dumpItems quote vs = p ++ q → q ≠ [] → ∀ (fuel room : ℕ) (x : List Json × Text),
      scanItems fuel room (p ++ t) ≠ .ok x
  | v, vs, t, ht, p, q, hp, hq, 0, room, x => by
    intro h
    rw [scanItems.eq_def] at h
    cases h
  | v, vs, t, ht, p, q, hp, hq, fuel + 1, room, x => by
    intro h
    obtain ⟨w, u, hv, hrest⟩ := scanItems_ok h
    obtain ⟨c, D', hD, hc⟩ := dumpItems_eq_cons quote vs
    rw [← skipBlanks_torn ht.opens hp] at hv
    rcases torn_tail ht (fun p q hp hne hq => settled_of_torn v ht hp hne hq fuel room)
      ⟨c, D', hD, by omega⟩ hp hv with hu | ⟨r, hr, hDr, -, rfl⟩
    · rcases hrest with ⟨hclose, -⟩ | ⟨u', vs', -, hcomma, -⟩
      · rw [hu.after (by omega)] at hclose
        cases hclose
      · rw [hu.after (by omega)] at hcomma
        cases hcomma
    · -- the tear is in the items that follow
      obtain ⟨d, r, rfl⟩ := List.exists_cons_of_ne_nil hr
      match vs, hDr with
      | [], hlast =>
        rw [dumpItems, ofString_brackets.2.1, List.cons_append, List.cons.injEq] at hlast
        exact hq (List.append_eq_nil_iff.mp hlast.2.symm).2
      | w' :: vs, hnext =>
        have hitems : dumpItems quote (w' :: vs) = 44 :: (dump quote w' ++ dumpItems quote vs) := by
          simp [dumpItems, ofString_brackets]
        rw [hitems, List.cons_append, List.cons.injEq] at hnext
        obtain ⟨rfl, hnext⟩ := hnext
        rcases hrest with ⟨hclose, -⟩ | ⟨u', vs', -, hcomma, hmore, -⟩
        · cases hclose
        · obtain rfl : r ++ t = u' := Option.some.inj hcomma
          rw [skipBlanks_torn ht.opens hnext] at hmore
          exact torn_items w' vs ht hnext hq fuel room _ hmore

/-- Of torn members nothing is read. -/
theorem torn_members : ∀ (k : Text) (v : Json) (fs : List (Text × Json)) {t : Text}, Onward t →
    ∀ {p q : Text}, quote k ++ Text.ofString ":" ++ dump quote v ++ dumpFields quote fs = p ++ q →
      q ≠ [] → ∀ (fuel room : ℕ) (x : List (Text × Json) × Text),
        scanMembers fuel room (p ++ t) ≠ .ok x
  | k, v, fs, t, ht, p, q, hp, hq, 0, room, x => by
    intro h
    rw [scanMembers.eq_def] at h
    cases h
  | k, v, fs, t, ht, p, q, hp, hq, fuel + 1, room, x => by
    intro h
    rw [member_append] at hp
    cases p with
    | nil => exact ht.no_members _ _ _ h
    | cons c p =>
    rw [List.cons_append, List.cons.injEq] at hp
    obtain ⟨rfl, htear⟩ := hp
    rw [List.cons_append] at h
    obtain ⟨s, l, u, w, y, z, hs, hk, hw, hv, hrest⟩ := scanMembers_ok h
    obtain rfl := Option.some.inj hs
    have hkey : ∀ q', k.flatMap quoteChar = p ++ q' → False := by
      intro q' hq'
      rw [(torn_scanString ht.opens k hq' hk).after (by omega)] at hw
      cases hw
    rcases List.append_eq_append_iff.mp htear with ⟨r, rfl, hr⟩ | ⟨r, hr, -⟩
    swap
    · exact hkey r hr
    cases r with
    | nil => exact hkey [] (by simp)
    | cons c r =>
    rw [List.cons_append, List.cons.injEq] at hr
    obtain ⟨rfl, hr⟩ := hr
    rw [List.append_assoc, List.cons_append, scanString_quote] at hk
    obtain ⟨rfl, rfl⟩ := Prod.mk.inj (Except.ok.inj hk)
    cases r with
    | nil =>
      rw [List.nil_append, ht.opens.stuck.after (by omega)] at hw
      cases hw
    | cons d r =>
    rw [List.cons_append, List.cons.injEq] at hr
    obtain ⟨rfl, hr⟩ := hr
    obtain rfl : r ++ t = w := Option.some.inj hw
    obtain ⟨c, D', hD, hc⟩ := dumpFields_eq_cons quote fs
    rcases torn_tail ht (fun p q hp hne hq => settled_of_torn v ht hp hne hq fuel room)
      ⟨c, D', hD, by omega⟩ hr hv with hu | ⟨r', hr', hDr, -, rfl⟩
    · rcases hrest with ⟨hclose, -⟩ | ⟨u', vs', -, hcomma, -⟩
      · rw [hu.after (by omega)] at hclose
        cases hclose
      · rw [hu.after (by omega)] at hcomma
        cases hcomma
    · -- the tear is in the members that follow
      obtain ⟨d, r', rfl⟩ := List.exists_cons_of_ne_nil hr'
      match fs, hDr with
      | [], hlast =>
        rw [dumpFields, ofString_brackets.2.2.2.2.2.2.1, List.cons_append,
          List.cons.injEq] at hlast
        exact hq (List.append_eq_nil_iff.mp hlast.2.symm).2
      | (l', w') :: fs, hnext =>
        have hfields : dumpFields quote ((l', w') :: fs) = 44 :: (quote l' ++
            Text.ofString ":" ++ dump quote w' ++ dumpFields quote fs) := by
          simp [dumpFields, ofString_brackets]
        rw [hfields, List.cons_append, List.cons.injEq] at hnext
        obtain ⟨rfl, hnext⟩ := hnext
        rcases hrest with ⟨hclose, -⟩ | ⟨u', vs', -, hcomma, hmore, -⟩
        · cases hclose
        · obtain rfl : r' ++ t = u' := Option.some.inj hcomma
          have hblank : skipBlanks (r' ++ t) = r' ++ t := by
            cases r' with
            | nil => exact ht.opens.skipBlanks_eq
            | cons e r' =>
              rw [member_append] at hnext
              obtain ⟨rfl, -⟩ := List.cons.inj hnext
              exact skipBlanks_cons (by decide) _
          rw [hblank] at hmore
          exact torn_members l' w' fs ht hnext hq fuel room _ hmore

end

/-- Of a torn object nothing is read. -/
theorem torn_object {t : Text} (ht : Onward t) {k : Text} {v : Json} {fs : List (Text × Json)}
    {p q : Text} (hp : dump quote (obj ((k, v) :: fs)) = p ++ q) (hne : p ≠ []) (hq : q ≠ [])
    (fuel room : ℕ) (x : Json × Text) : scanValue fuel room (p ++ t) ≠ .ok x := by
  cases fuel with
  | zero =>
    intro h
    rw [scanValue.eq_def] at h
    cases h
  | succ fuel =>
    exact torn_object_of ht k v fs
      (fun p q hp hq room => torn_members k v fs ht hp hq fuel room) hp hne hq room x

/-- Whether a key starts with a plain code point that no container can go on with. -/
def PlainKey (k : Text) : Prop := ∃ c r, k = c :: r ∧ quoteChar c = [c] ∧ Stuck [c]

/-- An object of such a key starts with its brace, a quote and that code point. -/
theorem PlainKey.dump_eq {k : Text} (hk : PlainKey k) (v : Json) (fs : List (Text × Json)) :
    ∃ c r, dump quote (obj ((k, v) :: fs)) = 123 :: 34 :: c :: r ∧ Stuck [c] := by
  obtain ⟨c, r, rfl, hc, hstuck⟩ := hk
  exact ⟨c, _, by simp [dump, quote, ofString_quote, ofString_brackets, hc]; rfl, hstuck⟩

/-- A written object leaves the reader stuck. -/
theorem onward_dump {k : Text} (hk : PlainKey k) (v : Json) (fs : List (Text × Json)) :
    Onward (dump quote (obj ((k, v) :: fs))) := by
  obtain ⟨c, r, htext, hstuck⟩ := hk.dump_eq v fs
  refine ⟨⟨0, c, r, htext, hstuck⟩, fun fuel room w u h => ?_⟩
  rw [← List.append_nil (dump quote _)] at h
  obtain ⟨-, rfl⟩ := scanValue_dump_eq _ (by simp [Ends]) h
  simp [Stuck]

/-- A part of an object, or the whole, before such a text is such a text. -/
theorem Onward.torn {t : Text} (ht : Onward t) {k : Text} (hk : PlainKey k) {v : Json}
    {fs : List (Text × Json)} {p q : Text} (hp : dump quote (obj ((k, v) :: fs)) = p ++ q) :
    Onward (p ++ t) := by
  constructor
  · -- what stands before the first quote are braces
    obtain ⟨c, s, htext, hstuck⟩ := hk.dump_eq v fs
    rw [htext] at hp
    match p, hp with
    | [], _ => exact ht.opens
    | [d], hp =>
      obtain ⟨rfl, -⟩ := List.cons.inj hp
      obtain ⟨n, e, r, rfl, he⟩ := ht.opens
      exact ⟨n + 1, e, r, by simp [List.replicate_succ], he⟩
    | [d, e], hp =>
      simp only [List.cons_append, List.cons.injEq] at hp
      obtain ⟨rfl, rfl, -⟩ := hp
      obtain ⟨r, rfl⟩ := ht.opens.eq_cons
      refine ⟨0, 123, r, rfl, fun d hd => ?_⟩
      obtain rfl : 123 = d := by simpa using hd
      decide
    | d :: e :: f :: p, hp =>
      simp only [List.cons_append, List.cons.injEq] at hp
      obtain ⟨rfl, rfl, rfl, -⟩ := hp
      exact ⟨0, c, p ++ t, rfl, hstuck⟩
  · intro fuel room w u h
    rcases eq_or_ne p [] with rfl | hne
    · exact ht.settled _ _ _ _ h
    · rcases eq_or_ne q [] with rfl | hq
      · rw [List.append_nil] at hp
        rw [← hp] at h
        obtain ⟨-, rfl⟩ := scanValue_dump_eq _ ht.opens.ends h
        exact ht.opens.stuck
      · exact absurd h (torn_object ht hp hne hq fuel room _)

/-- A part of an object, or the whole, before such a text is not read. -/
theorem Onward.loads_torn {t : Text} (ht : Onward t) {k : Text} {v : Json}
    {fs : List (Text × Json)} {p q : Text} (hp : dump quote (obj ((k, v) :: fs)) = p ++ q)
    (hne : p ≠ []) (room : ℕ) (w : Json) : loads room (p ++ t) ≠ .ok w := by
  intro h
  have hskip : skipBlanks (p ++ t) = p ++ t :=
    skipBlanks_torn ht.opens (v := obj ((k, v) :: fs)) (D := []) (q := q) (by simpa using hp)
  rw [loads, hskip] at h
  split at h
  · rename_i x u hx
    rcases eq_or_ne q [] with rfl | hq
    · rw [List.append_nil] at hp
      rw [← hp] at hx
      obtain ⟨-, rfl⟩ := scanValue_dump_eq _ ht.opens.ends hx
      obtain ⟨r, hr⟩ := ht.opens.eq_cons
      rw [ht.opens.skipBlanks_eq, hr] at h
      simp at h
    · exact torn_object ht hp hne hq _ _ _ hx
  · cases h

end Foundation.Json
