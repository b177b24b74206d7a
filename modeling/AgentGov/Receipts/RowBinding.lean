import AgentGov.Foundation.TornJson
import AgentGov.Receipts.Disclosures

/-!
# Rows bound by their root

A commitment to rows, and the disclosures that are accepted against its root
(`src/src/agentgov/receipts/rows.py`). What is disclosed of a commitment is accepted; it is read
back exactly where its texts and its count are of the format. Among messages that SHA-256 tells
apart, nothing is accepted but the rows and the salts that were committed to: no row's encoding
ends in another's, so that a leaf's salt and row are told apart whatever the salt's length.

## Main definitions

* `AgentGov.Receipts.RowCommitment.Recovers`: a disclosure is written, read back and accepted.
* `AgentGov.Receipts.RowCommitment.Binds`: nothing else is accepted.

## Main results

* `AgentGov.Receipts.RowCommitment.recovers_and_binds_iff`.
-/

namespace AgentGov.Receipts

open Foundation Foundation.Merkle

/-! ### Members in order -/

theorem unitsLe_total (us vs : List ℕ) : unitsLe us vs = true ∨ unitsLe vs us = true := by
  induction us generalizing vs with
  | nil => exact Or.inl rfl
  | cons u us ih =>
    cases vs with
    | nil => exact Or.inr rfl
    | cons v vs =>
      rcases lt_trichotomy u v with h | rfl | h
      · exact Or.inl (by rw [unitsLe, if_pos h])
      · simpa [unitsLe] using ih vs
      · exact Or.inr (by rw [unitsLe, if_pos h])

theorem unitsLe_antisymm {us vs : List ℕ} (h : unitsLe us vs = true) (h' : unitsLe vs us = true) :
    us = vs := by
  induction us generalizing vs with
  | nil =>
    cases vs with
    | nil => rfl
    | cons v vs => cases h'
  | cons u us ih =>
    cases vs with
    | nil => cases h
    | cons v vs =>
      rw [unitsLe] at h h'
      split_ifs at h h'
      · omega
      · obtain rfl : u = v := by omega
        rw [ih h h']

theorem unitsLe_trans {us vs ws : List ℕ} (h : unitsLe us vs = true) (h' : unitsLe vs ws = true) :
    unitsLe us ws = true := by
  induction us generalizing vs ws with
  | nil => rfl
  | cons u us ih =>
    cases vs with
    | nil => cases h
    | cons v vs =>
      cases ws with
      | nil => cases h'
      | cons w ws =>
        rw [unitsLe] at h h' ⊢
        split_ifs at h h' ⊢ <;> first | rfl | omega | exact ih h h'

theorem pairwise_sortUnits {α : Type} (fs : List (Text × α)) :
    (sortUnits fs).Pairwise fun f g => utf16Order f.1 g.1 = true := by
  have : Std.Total fun f g : Text × α => utf16Order f.1 g.1 = true :=
    ⟨fun f g => unitsLe_total f.1.utf16 g.1.utf16⟩
  have : IsTrans (Text × α) fun f g => utf16Order f.1 g.1 = true :=
    ⟨fun _ _ _ => unitsLe_trans⟩
  exact List.pairwise_insertionSort _ fs

/-- Members of keys of their own are sorted alike, in whatever order they are. -/
theorem sortUnits_perm {fs gs : List (Text × Json)} (h : fs.Perm gs)
    (hnodup : (fs.map Prod.fst).Nodup) (hplain : ∀ f ∈ fs, Plain f.1) :
    sortUnits fs = sortUnits gs := by
  have hperm := (perm_sortUnits fs).trans (h.trans (perm_sortUnits gs).symm)
  refine hperm.eq_of_pairwise ?_ (pairwise_sortUnits fs) (pairwise_sortUnits gs)
  intro f g hf hg hle hge
  have hf' := (perm_sortUnits fs).mem_iff.mp hf
  have hg' := h.mem_iff.mpr ((perm_sortUnits gs).mem_iff.mp hg)
  have hany : ∀ m ∈ fs, m.1.any Text.isSurrogate = false := fun m hm =>
    List.any_eq_false.mpr fun c hc => by rw [hplain m hm c hc]; decide
  have hkey : f.1 = g.1 :=
    Text.utf16_injOn (hany f hf') (hany g hg') (unitsLe_antisymm hle hge)
  have hassoc := Dict.assoc_of_mem hnodup (k := f.1) (a := f.2) hf'
  rw [hkey, Dict.assoc_of_mem hnodup (k := g.1) (a := g.2) hg', Option.some.injEq] at hassoc
  exact Prod.ext hkey hassoc.symm

/-! ### The encoding of a row -/

theorem mem_commas {ps : List Text} {p : Text} {c : CodePoint} (hp : p ∈ ps) (hc : c ∈ p) :
    c ∈ commas ps := by
  cases ps with
  | nil => cases hp
  | cons q ps =>
    rw [commas, List.mem_append]
    rcases List.mem_cons.mp hp with rfl | hp
    · exact Or.inl hc
    · exact Or.inr (List.mem_flatMap.mpr ⟨p, hp, List.mem_append_right _ hc⟩)

/-- A lone surrogate is quoted as it is. -/
theorem plain_of_quote {t : Text} (h : Plain (Json.quote t)) : Plain t := by
  intro c hc
  by_contra hsur
  have hquote : Json.quoteChar c = [c] := by
    rw [Bool.not_eq_false, Text.isSurrogate, Bool.and_eq_true, decide_eq_true_eq] at hsur
    rw [Json.quoteChar]
    split_ifs <;> first | rfl | omega
  refine hsur (h c ?_)
  rw [Json.quote, List.mem_append, List.mem_append, List.mem_flatMap]
  exact Or.inl (Or.inr ⟨c, hc, hquote ▸ List.mem_singleton_self c⟩)

/-- Of an object without lone surrogates, neither keys nor values have any. -/
theorem plain_member {fs : List (Text × Json)} (h : Plain (Json.dump Json.quote (.obj fs)))
    {f : Text × Json} (hf : f ∈ fs) : Plain f.1 ∧ Plain (Json.dump Json.quote f.2) := by
  have hmember : Plain (memberText f) := fun c hc => by
    refine h c ?_
    rw [dump_obj, List.mem_append, List.mem_append]
    exact Or.inl (Or.inr (mem_commas (List.mem_map_of_mem hf) hc))
  refine ⟨plain_of_quote fun c hc => hmember c ?_, fun c hc => hmember c ?_⟩
  · rw [memberText, List.mem_append, List.mem_append]
    exact Or.inl (Or.inl hc)
  · rw [memberText, List.mem_append]
    exact Or.inr hc

theorem Scalar.orderedOf_toDatum {s : Scalar} (h : s.Safe) : orderedOf s.toDatum = some s.json := by
  cases s with
  | int n => rw [toDatum, orderedOf, if_pos (show isSafe n = true from h), json]
  | _ => rfl

theorem membersOf_columns {l : List (Text × Scalar)} (h : ∀ p ∈ l, p.2.Safe) :
    membersOf (l.map fun p => (.str p.1, p.2.toDatum)) =
      some (l.map fun p => (p.1, p.2.json)) := by
  induction l with
  | nil => rfl
  | cons p l ih =>
    rw [List.map_cons, membersOf, Scalar.orderedOf_toDatum (h p List.mem_cons_self),
      ih fun q hq => h q (List.mem_cons_of_mem p hq)]
    rfl

theorem orderedOf_image {image : Image} (h : image.Safe) : orderedOf (imageDatum (some image)) =
    some (.obj (sortUnits (image.items.map fun p => (p.1, p.2.json)))) := by
  have hsafe : ∀ p ∈ image.items, p.2.Safe := fun p hp =>
    h p.2 (Dict.mem_values_iff.mpr ⟨p.1, Dict.get?_eq_some_iff.mpr hp⟩)
  rw [imageDatum, orderedOf, membersOf_columns hsafe, Option.map_some, sortKeys_eq]

/-- Images with the same columns are written alike. -/
theorem orderedOf_of_rel {image image' : Option Image} (h : Option.Rel Dict.Same image image')
    (hsafe : SafeImage image) (hplain : ∀ u, orderedOf (imageDatum image) = some u →
      Plain (Json.dump Json.quote u)) :
    orderedOf (imageDatum image') = orderedOf (imageDatum image) := by
  cases h with
  | none => rfl
  | @some a b hsame =>
    have ha : Image.Safe a := hsafe a rfl
    have hb : Image.Safe b := by
      intro s hs
      obtain ⟨k, hk⟩ := Dict.mem_values_iff.mp hs
      exact ha s (Dict.mem_values_iff.mpr ⟨k, (hsame k).trans hk⟩)
    have hdump := hplain _ (orderedOf_image ha)
    rw [orderedOf_image ha, orderedOf_image hb]
    refine congrArg (fun fs => some (Json.obj fs)) ?_
    refine (sortUnits_perm (hsame.items_perm.map _) ?_ fun f hf => ?_).symm
    · rw [List.map_map]
      exact a.nodup
    · exact (plain_member hdump ((perm_sortUnits _).mem_iff.mpr hf)).1

namespace RowChange

variable {r r' : RowChange}

/-- The members of a row, in order. -/
theorem exists_members {w : Json} (h : orderedOf r.toJson = some w) :
    ∃ t b a, orderedOf (imageDatum r.before) = some b ∧ orderedOf (imageDatum r.after) = some a ∧
      w = .obj (sortUnits [(txt "table", .str r.table), (txt "pk", .str r.pk),
        (txt "op", .str r.op.text), (txt "tenant", t), (txt "before", b), (txt "after", a)]) := by
  have horder : ∀ m ∈ [(txt "tenant", textDatum r.tenant), (txt "before", imageDatum r.before),
      (txt "after", imageDatum r.after)], ∃ u, orderedOf m.2 = some u := fun m hm =>
    ordered_of_mapping (l := [(txt "table", .str r.table), (txt "pk", .str r.pk),
      (txt "op", .str r.op.text), (txt "tenant", textDatum r.tenant),
      (txt "before", imageDatum r.before), (txt "after", imageDatum r.after)]) h
      (List.mem_cons_of_mem _ (List.mem_cons_of_mem _ (List.mem_cons_of_mem _ hm)))
  simp only [List.forall_mem_cons] at horder
  obtain ⟨⟨t, ht⟩, ⟨b, hb⟩, ⟨a, ha⟩, -⟩ := horder
  refine ⟨t, b, a, hb, ha, ?_⟩
  have hmembers : orderedOf r.toJson = some (.obj (sortKeys [(txt "table", .str r.table),
      (txt "pk", .str r.pk), (txt "op", .str r.op.text), (txt "tenant", t), (txt "before", b),
      (txt "after", a)])) := by
    rw [toJson, orderedOf]
    simp only [membersOf, ht, hb, ha, orderedOf]
    rfl
  rw [h, Option.some.injEq, sortKeys_eq] at hmembers
  exact hmembers

/-- Rows that agree are written alike. -/
theorem canonicalBytesOf_of_agrees (h : r.Agrees r') (henc : Encoded r.toJson) :
    canonicalBytesOf r'.toJson = canonicalBytesOf r.toJson := by
  obtain ⟨w, hw, hplain⟩ := encoded_iff.mp henc
  have hsafe := safe_of_encoded henc
  obtain ⟨t, b, a, hb, ha, rfl⟩ := exists_members hw
  have hbefore : orderedOf (imageDatum r'.before) = orderedOf (imageDatum r.before) := by
    refine orderedOf_of_rel h.before hsafe.before fun u hu => ?_
    obtain rfl := Option.some.inj (hb.symm.trans hu)
    exact (plain_member hplain (f := (txt "before", b))
      ((perm_sortUnits _).mem_iff.mpr (by simp))).2
  have hafter : orderedOf (imageDatum r'.after) = orderedOf (imageDatum r.after) := by
    refine orderedOf_of_rel h.after hsafe.after fun u hu => ?_
    obtain rfl := Option.some.inj (ha.symm.trans hu)
    exact (plain_member hplain (f := (txt "after", a))
      ((perm_sortUnits _).mem_iff.mpr (by simp))).2
  have horder : orderedOf r'.toJson = orderedOf r.toJson := by
    rw [toJson, toJson, orderedOf, orderedOf]
    simp only [membersOf, h.table, h.pk, h.op, h.tenant, hbefore, hafter]
  rw [hw] at horder
  simp only [canonicalBytesOf, hw, horder]

/-- A row is written from its after-image on. -/
theorem exists_after {w : Json} (h : orderedOf r.toJson = some w) :
    ∃ v fs, w = .obj ((txt "after", v) :: fs) := by
  obtain ⟨t, b, a, -, -, rfl⟩ := exists_members h
  have hkeys := sortUnits_map (fun _ => false) [(txt "table", Json.str r.table),
    (txt "pk", .str r.pk), (txt "op", .str r.op.text), (txt "tenant", t), (txt "before", b),
    (txt "after", a)]
  have hsorted : sortUnits [(txt "table", false), (txt "pk", false), (txt "op", false),
      (txt "tenant", false), (txt "before", false), (txt "after", false)] =
      [(txt "after", false), (txt "before", false), (txt "op", false), (txt "pk", false),
        (txt "table", false), (txt "tenant", false)] := by decide
  simp only [List.map_cons, List.map_nil] at hkeys
  rw [hsorted] at hkeys
  cases hfs : sortUnits [(txt "table", Json.str r.table), (txt "pk", .str r.pk),
      (txt "op", .str r.op.text), (txt "tenant", t), (txt "before", b), (txt "after", a)] with
  | nil => rw [hfs] at hkeys; cases hkeys
  | cons f fs =>
    rw [hfs, List.map_cons, List.cons.injEq, Prod.mk.injEq] at hkeys
    exact ⟨f.2, fs, by rw [hkeys.1.1]⟩

end RowChange

/-! ### Salts and rows are told apart -/

theorem plainKey_after : Json.PlainKey (txt "after") := by
  refine ⟨97, _, rfl, by decide, fun c hc => ?_⟩
  obtain rfl : 97 = c := by simpa using hc
  decide

namespace RowChange

variable {r r' : RowChange}

theorem proper_image (image : Option Image) : Proper (imageDatum image) := by
  cases image with
  | none => trivial
  | some image =>
    refine ⟨?_, ?_⟩
    · have hkeys : (image.items.map fun p => (Key.str p.1, p.2.toDatum)).map Prod.fst =
          (image.items.map Prod.fst).map Key.str := by
        rw [List.map_map, List.map_map]
        rfl
      rw [hkeys]
      exact image.nodup.map fun s t h => Key.str.inj h
    · induction image.items with
      | nil => trivial
      | cons p items ih =>
        refine ⟨?_, ih⟩
        cases p.2 <;> trivial

theorem depth_image (image : Option Image) : depth (imageDatum image) ≤ 1 := by
  cases image with
  | none => exact Nat.zero_le 1
  | some image =>
    have hmembers : ∀ items : List (Text × Scalar),
        depthMembers (items.map fun p => (.str p.1, p.2.toDatum)) = 0 := by
      intro items
      induction items with
      | nil => rfl
      | cons p items ih =>
        rw [List.map_cons, depthMembers, ih]
        cases p.2 <;> rfl
    rw [imageDatum, depth, hmembers]

theorem proper_toJson (r : RowChange) : Proper r.toJson := by
  refine ⟨by simp only [List.map_cons, List.map_nil]; decide, trivial, trivial, trivial, ?_,
    proper_image r.before, proper_image r.after, trivial⟩
  cases r.tenant <;> trivial

theorem depth_toJson (r : RowChange) : depth r.toJson ≤ 2 := by
  have hb := depth_image r.before
  have ha := depth_image r.after
  have ht : depth (textDatum r.tenant) = 0 := by cases r.tenant <;> rfl
  simp only [toJson, depth, depthMembers, ht]
  omega

/-- No row's encoding ends in another row's. -/
theorem eq_of_append_eq {s s' b b' : List Byte} (hb : canonicalBytesOf r.toJson = .ok b)
    (hb' : canonicalBytesOf r'.toJson = .ok b') (h : s ++ b = s' ++ b') : s = s' ∧ b = b' := by
  -- the longer of the two starts would be a part of the other's object
  have hpart : ∀ {q q' : RowChange} {p d d' : List Byte}, canonicalBytesOf q.toJson = .ok d →
      canonicalBytesOf q'.toJson = .ok d' → d = p ++ d' → p = [] := by
    intro q q' p d d' hd hd' heq
    obtain ⟨w, hw, hutf⟩ := exists_ordered hd
    obtain ⟨w', hw', hutf'⟩ := exists_ordered hd'
    obtain ⟨v, fs, rfl⟩ := exists_after hw
    obtain ⟨v', fs', rfl⟩ := exists_after hw'
    obtain ⟨e, t, hdump, -⟩ := plainKey_after.dump_eq v' fs'
    obtain ⟨cs, hcs⟩ := utf8_object (hdump ▸ hutf')
    rw [heq] at hutf
    rcases Text.utf8Decode_torn hutf (b := 123) (by decide) (34 :: cs) with
      ⟨part, rest, hpart, hbytes⟩ | hnone
    · -- what follows the part is the other's text
      have hrest : Text.utf8 rest = some d' := by
        have happ := Text.utf8_append part rest
        rw [← hpart, hutf, hbytes, Option.bind_some, eq_comm, Option.map_eq_some_iff] at happ
        obtain ⟨bs, hbs, happ⟩ := happ
        rw [hbs, List.append_cancel_left happ]
      have htext : rest = Json.dump Json.quote (.obj ((txt "after", v') :: fs')) := by
        have := Text.utf8Decode_utf8 hrest
        rw [Text.utf8Decode_utf8 hutf', Option.some.injEq] at this
        exact this.symm
      by_contra hne
      have hpartne : part ≠ [] := by
        rintro rfl
        exact hne (Option.some.inj hbytes).symm
      have hread := Json.loads_dump
        (readable_of_ordered q.toJson hw (proper_toJson q) (depth_toJson q))
      rw [hpart, htext] at hread
      exact (Json.onward_dump plainKey_after v' fs').loads_torn (hpart.trans (by rw [htext]))
        hpartne 2 _ hread
    · rw [← hcs, Text.utf8Decode_utf8 hutf] at hnone
      cases hnone
  rcases List.append_eq_append_iff.mp h with ⟨p, rfl, hp⟩ | ⟨p, rfl, hp⟩
  · obtain rfl := hpart hb hb' hp
    exact ⟨(List.append_nil s).symm, by simpa using hp⟩
  · obtain rfl := hpart hb' hb hp
    exact ⟨List.append_nil s', by simpa using hp.symm⟩

/-- A leaf's salt and row are told apart. -/
theorem agrees_of_rowLeafData {salt salt' data : List Byte} (h : rowLeafData salt r = .ok data)
    (h' : rowLeafData salt' r' = .ok data) : salt = salt' ∧ r.Agrees r' := by
  obtain ⟨b, hb, hdata⟩ := bind_eq_ok.mp h
  obtain ⟨b', hb', hdata'⟩ := bind_eq_ok.mp h'
  have heq := (Except.ok.inj hdata).trans (Except.ok.inj hdata').symm
  rw [List.append_assoc, List.append_assoc, List.append_cancel_left_eq] at heq
  obtain ⟨hsalt, rfl⟩ := eq_of_append_eq hb hb' heq
  obtain ⟨w, hw, hw'⟩ := same_of_canonicalBytesOf (proper_toJson r) (proper_toJson r') hb hb'
  exact ⟨hsalt, agrees_of_same hw hw'⟩

end RowChange

/-! ### What is disclosed is accepted -/

/-- The siblings on the way from a leaf are as long as a hash. -/
theorem length_of_mem_path {D : List (List Byte)} (hD : ∀ d ∈ D, d.length = 32) (i : ℕ) :
    ∀ p ∈ path nodeHash emptyRoot D i, p.length = 32 := by
  have hmth : ∀ E : List (List Byte), E ≠ [] → (∀ d ∈ E, d.length = 32) →
      (mth nodeHash emptyRoot E).length = 32 := fun E hne hE =>
    mth_of_forall (Q := fun d => d.length = 32) emptyRoot length_nodeHash hne hE
  induction D, i using path.induct with
  | case1 D i htwo hi ih =>
    have hlt := split_lt htwo
    rw [path_of_lt nodeHash emptyRoot htwo hi]
    intro p hp
    rcases List.mem_append.mp hp with hp | hp
    · exact ih (fun d hd => hD d (List.mem_of_mem_take hd)) p hp
    · rw [List.mem_singleton.mp hp]
      refine hmth _ (fun hnil => ?_) fun d hd => hD d (List.mem_of_mem_drop hd)
      have := List.drop_eq_nil_iff.mp hnil
      omega
  | case2 D i htwo hi ih =>
    have hpos := split_pos D.length
    rw [path_of_le nodeHash emptyRoot htwo (not_lt.mp hi)]
    intro p hp
    rcases List.mem_append.mp hp with hp | hp
    · exact ih (fun d hd => hD d (List.mem_of_mem_drop hd)) p hp
    · rw [List.mem_singleton.mp hp]
      refine hmth _ (fun hnil => ?_) fun d hd => hD d (List.mem_of_mem_take hd)
      rcases List.take_eq_nil_iff.mp hnil with h | h
      · omega
      · rw [h] at htwo
        simp at htwo
  | case3 D i htwo =>
    rw [path, dif_neg htwo]
    simp

theorem length_rowSalt {secret salt : List Byte} {i : ℕ} (h : rowSalt secret i = .ok salt) :
    salt.length = 32 := by
  rw [rowSalt] at h
  split_ifs at h
  obtain rfl := Except.ok.inj h
  exact length_sha256 _

theorem bytesFromHex_toHex (bs : List Byte) : bytesFromHex (toHex bs) = .ok bs := by
  rw [bytesFromHex, fromHex_toHex]

/-- The rows that a check of rows takes. -/
theorem verifyRows_eq_ok {r : RowReceipt} {root : List Byte} {seen : List ℤ}
    {xs : List DisclosedRow} : verifyRows r root seen xs = .ok ⟨⟩ ↔
      (∀ x ∈ xs, x.index ∉ seen ∧ verifyRow r root x = .ok ⟨⟩) ∧
        (xs.map DisclosedRow.index).Nodup := by
  induction xs generalizing seen with
  | nil => simp [verifyRows]
  | cons x xs ih =>
    rw [verifyRows, List.map_cons, List.nodup_cons, List.forall_mem_cons]
    by_cases hx : x.index ∈ seen
    · simp [hx]
    · rw [if_neg hx, bind_eq_ok]
      constructor
      · rintro ⟨_, hfirst, hrest⟩
        obtain ⟨hall, hnodup⟩ := ih.mp hrest
        refine ⟨⟨⟨hx, hfirst⟩, fun y hy => ⟨fun hs => ?_, (hall y hy).2⟩⟩, fun hmem => ?_, hnodup⟩
        · exact (hall y hy).1 (List.mem_cons_of_mem _ hs)
        · obtain ⟨y, hy, heq⟩ := List.mem_map.mp hmem
          exact (hall y hy).1 (heq ▸ List.mem_cons_self)
      · rintro ⟨⟨⟨-, hfirst⟩, hall⟩, hnew, hnodup⟩
        refine ⟨⟨⟩, hfirst, ih.mpr ⟨fun y hy => ⟨fun hs => ?_, (hall y hy).2⟩, hnodup⟩⟩
        rcases List.mem_cons.mp hs with heq | hs
        · exact hnew (heq ▸ List.mem_map_of_mem hy)
        · exact (hall y hy).1 hs

theorem rowLeafHash_of_agrees {salt : List Byte} {r r' : RowChange} (h : r.Agrees r')
    (henc : Encoded r.toJson) : rowLeafHash salt r' = rowLeafHash salt r := by
  rw [rowLeafHash, rowLeafHash, rowLeafData, rowLeafData,
    RowChange.canonicalBytesOf_of_agrees h henc]

/-- A check takes a row as it takes one that it agrees with. -/
theorem verifyRow_of_agrees {r : RowReceipt} {root : List Byte} {x x' : DisclosedRow}
    (h : x.Agrees x') (henc : Encoded x.row.toJson) :
    verifyRow r root x' = verifyRow r root x := by
  rw [verifyRow, verifyRow, h.salt, rowLeafHash_of_agrees h.row henc, h.auditPath, h.index,
    h.row.table, h.row.pk]

namespace RowCommitment

variable {c : RowCommitment}

/-- Every row of a commitment is encoded. -/
theorem encoded_of_mem {i : ℕ} {row : RowChange} (h : c.rows[i]? = some row) :
    Encoded row.toJson := by
  obtain ⟨salt, leaf, -, hleaf, -⟩ := c.leaf_spec h
  obtain ⟨data, hdata, -⟩ := bind_eq_ok.mp hleaf
  obtain ⟨bs, hbs, -⟩ := bind_eq_ok.mp hdata
  exact ⟨bs, hbs⟩

theorem Shown.formed {i : ℤ} {x : DisclosedRow} (h : c.Shown i x) (hi : 0 ≤ i) : x.Formed where
  index := h.index ▸ hi
  salt := length_rowSalt h.salt
  auditPath t ht := by
    rw [h.auditPath] at ht
    obtain ⟨p, hp, rfl⟩ := List.mem_map.mp ht
    exact isHexOf_toHex (length_of_mem_path c.tree.length_leaf _ p hp)

/-- A row that is disclosed is accepted. -/
theorem Shown.verifyRow {i : ℤ} {x : DisclosedRow} (h : c.Shown i x) (hi : 0 ≤ i)
    {r : RowReceipt} (hcount : r.rowCount = c.count) :
    verifyRow r (mth nodeHash emptyRoot c.tree.leaves) x = .ok ⟨⟩ := by
  obtain ⟨salt, leaf, hsalt, hleaf, hget⟩ := c.leaf_spec h.row
  obtain rfl := Except.ok.inj (h.salt.symm.trans hsalt)
  obtain ⟨hlt, rfl⟩ := List.getElem?_eq_some_iff.mp hget
  have hpath : x.auditPath.mapM bytesFromHex =
      .ok (path nodeHash emptyRoot c.tree.leaves i.toNat) := by
    rw [h.auditPath, mapM_eq_ok, List.forall₂_map_left_iff, List.forall₂_same]
    exact fun p _ => bytesFromHex_toHex p
  have hverify := verifyInclusion_path nodeHash emptyRoot hlt
  rw [c.length_leaves, Int.toNat_of_nonneg hi] at hverify
  rw [Receipts.verifyRow, hleaf, hpath, hcount, h.index, count]
  simp only [Except.mapError, ok_bind, hverify, if_true]

theorem indices_of_shown {is : List ℤ} {xs : List DisclosedRow}
    (h : List.Forall₂ c.Shown is xs) : xs.map DisclosedRow.index = is := by
  induction h with
  | nil => rfl
  | cons hx _ ih => rw [List.map_cons, ih, hx.index]

variable {indices : List ℤ}

/-- What is disclosed of a commitment is of its form, and is accepted. -/
theorem disclose_accepted {receiptId : Text} {d : RowDisclosure}
    (hin : ∀ i ∈ indices, 0 ≤ i ∧ i < c.count) (hne : indices ≠ [])
    (hroot : d.rowRoot = toHex (mth nodeHash emptyRoot c.tree.leaves))
    (hid : d.receiptId = receiptId) (hcount : d.rowCount = c.count)
    (hrows : List.Forall₂ c.Shown (chosen indices) d.rows) :
    d.Formed ∧ verifyDisclosure d ⟨receiptId, d.rowRoot, d.rowCount⟩ = .ok ⟨⟩ := by
  have hshown : ∀ x ∈ d.rows, ∃ i : ℤ, (0 ≤ i ∧ i < c.count) ∧ c.Shown i x := by
    intro x hx
    obtain ⟨k, hk, rfl⟩ := List.getElem_of_mem hx
    have hk' : k < (chosen indices).length := hrows.length_eq ▸ hk
    exact ⟨_, hin _ (mem_chosen.mp (List.getElem_mem hk')), hrows.get hk' hk⟩
  have hindices := indices_of_shown hrows
  have hnonempty : d.rows ≠ [] := by
    intro hnil
    rw [hnil] at hindices
    obtain ⟨i, hi⟩ := List.exists_mem_of_ne_nil indices hne
    have := mem_chosen.mpr hi
    rw [← hindices] at this
    cases this
  constructor
  · refine ⟨?_, hcount ▸ Int.natCast_nonneg _, fun x hx => ?_⟩
    · rw [hroot]
      refine isHexOf_toHex (mth_of_forall (Q := fun d => d.length = 32) emptyRoot length_nodeHash ?_
        c.tree.length_leaf)
      intro hnil
      obtain ⟨x, hx⟩ := List.exists_mem_of_ne_nil d.rows hnonempty
      obtain ⟨i, hi, -⟩ := hshown x hx
      have hlen := c.length_leaves
      rw [hnil] at hlen
      rw [count, ← hlen] at hi
      simp only [List.length_nil, Nat.cast_zero] at hi
      omega
    · obtain ⟨i, hi, hx⟩ := hshown x hx
      exact ⟨hx.formed hi.1, by rw [hx.index, hcount]; exact hi.2⟩
  · have hall : verifyRows ⟨receiptId, d.rowRoot, d.rowCount⟩
        (mth nodeHash emptyRoot c.tree.leaves) [] d.rows = .ok ⟨⟩ := by
      rw [verifyRows_eq_ok, hindices]
      refine ⟨fun x hx => ⟨List.not_mem_nil, ?_⟩, nodup_chosen indices⟩
      obtain ⟨i, hi, hx⟩ := hshown x hx
      exact hx.verifyRow hi.1 hcount
    rw [verifyDisclosure, if_neg (not_not.mpr hid), if_neg (by simp), if_neg hnonempty, hroot,
      bytesFromHex_toHex, ok_bind, ← hroot]
    exact hall

end RowCommitment

/-! ### What is disclosed is read back -/

theorem all_isAscii_toHex (bs : List Byte) : (toHex bs).all Text.isAscii = true := by
  rw [List.all_eq_true]
  intro c hc
  have hdigit := isHexDigit_of_mem_toHex hc
  simp only [isHexDigit, Bool.or_eq_true, Bool.and_eq_true, decide_eq_true_eq] at hdigit
  exact decide_eq_true (by omega)

theorem all_isAscii_of_isHexOf {t : Text} {n : ℕ} (h : isHexOf n t = true) :
    t.all Text.isAscii = true := by
  rw [isHexOf, Bool.and_eq_true, List.all_eq_true] at h
  rw [List.all_eq_true]
  intro c hc
  have hdigit := h.2 c hc
  simp only [isHexDigit, Bool.or_eq_true, Bool.and_eq_true, decide_eq_true_eq] at hdigit
  exact decide_eq_true (by omega)

theorem all_isAscii_of_isUuidText {t : Text} (h : isUuidText t = true) :
    t.all Text.isAscii = true := by
  rw [isUuidText, Bool.and_eq_true, List.all_eq_true] at h
  rw [List.all_eq_true]
  intro c hc
  obtain ⟨i, hi, rfl⟩ := List.getElem_of_mem hc
  have hchar := h.2 (t[i], i) (by
    rw [List.mem_iff_getElem]
    exact ⟨i, by simpa using hi, by simp⟩)
  split_ifs at hchar
  · rw [decide_eq_true_eq] at hchar
    rw [show t[i] = 45 from hchar]
    decide
  · simp only [isHexDigit, Bool.or_eq_true, Bool.and_eq_true, decide_eq_true_eq] at hchar
    exact decide_eq_true (by omega)

theorem proper_texts (ts : List Text) : ProperItems (ts.map Datum.str) := by
  induction ts with
  | nil => trivial
  | cons t ts ih => exact ⟨trivial, ih⟩

theorem depth_texts (ts : List Text) : depthItems (ts.map Datum.str) = 0 := by
  induction ts with
  | nil => rfl
  | cons t ts ih =>
    rw [List.map_cons, depthItems, ih]
    rfl

namespace DisclosedRow

theorem proper_toJson (x : DisclosedRow) : Proper x.toJson :=
  ⟨by simp only [List.map_cons, List.map_nil]; decide, trivial, trivial, x.row.proper_toJson,
    proper_texts x.auditPath, trivial⟩

theorem depth_toJson (x : DisclosedRow) : depth x.toJson ≤ 3 := by
  have hrow := x.row.depth_toJson
  simp only [toJson, depth, depthMembers, depth_texts]
  omega

theorem encoded {x : DisclosedRow} (hx : x.Formed) (hsafe : isSafe x.index = true)
    (henc : Encoded x.row.toJson) : Encoded x.toJson := by
  refine encoded_mapping (l := [(txt "index", .int x.index), (txt "salt", .str (toHex x.salt)),
    (txt "row", x.row.toJson), (txt "audit_path", .sequence (x.auditPath.map .str))])
    (by simp only [List.forall_mem_cons, List.not_mem_nil, false_imp_iff, implies_true]; decide) ?_
  simp only [List.forall_mem_cons, List.not_mem_nil, false_imp_iff, implies_true, and_true]
  refine ⟨encoded_int hsafe, encoded_str (all_isAscii_toHex _), henc,
    encoded_sequence fun v hv => ?_⟩
  obtain ⟨t, ht, rfl⟩ := List.mem_map.mp hv
  exact encoded_str (all_isAscii_of_isHexOf (hx.auditPath t ht))

end DisclosedRow

namespace RowDisclosure

variable {d : RowDisclosure}

theorem proper_toJson (d : RowDisclosure) : Proper d.toJson := by
  refine ⟨by simp only [List.map_cons, List.map_nil]; decide, trivial, trivial, trivial, trivial,
    ?_, trivial⟩
  change ProperItems (d.rows.map DisclosedRow.toJson)
  induction d.rows with
  | nil => trivial
  | cons x xs ih => exact ⟨x.proper_toJson, ih⟩

theorem depth_toJson (d : RowDisclosure) : depth d.toJson ≤ 5 := by
  have hrows : ∀ xs : List DisclosedRow, depthItems (xs.map DisclosedRow.toJson) ≤ 3 := by
    intro xs
    induction xs with
    | nil => exact Nat.zero_le 3
    | cons x xs ih => exact max_le x.depth_toJson ih
  have := hrows d.rows
  simp only [toJson, depth, depthMembers]
  omega

/-- A disclosure of the format is encoded. -/
theorem encoded_of_readable (hd : d.Formed) (hread : d.Readable)
    (henc : ∀ x ∈ d.rows, Encoded x.row.toJson) : Encoded d.toJson := by
  have hcount := hd.rowCount
  have hle := hread.rowCount
  have hmax : (0 : ℤ) ≤ maxSafeInteger := by decide
  refine encoded_mapping (l := [(txt "v", .str rowsVersion), (txt "receipt_id", .str d.receiptId),
    (txt "row_root", .str d.rowRoot), (txt "row_count", .int d.rowCount),
    (txt "rows", .sequence (d.rows.map DisclosedRow.toJson))])
    (by simp only [List.forall_mem_cons, List.not_mem_nil, false_imp_iff, implies_true]; decide) ?_
  simp only [List.forall_mem_cons, List.not_mem_nil, false_imp_iff, implies_true, and_true]
  refine ⟨encoded_str (by decide), encoded_str (all_isAscii_of_isUuidText hread.receiptId),
    encoded_str (all_isAscii_of_isHexOf hd.rowRoot), encoded_int (decide_eq_true (by omega)),
    encoded_sequence fun v hv => ?_⟩
  obtain ⟨x, hx, rfl⟩ := List.mem_map.mp hv
  obtain ⟨hformed, hlt⟩ := hd.rows x hx
  have hindex := hformed.index
  exact DisclosedRow.encoded hformed (decide_eq_true (by omega)) (henc x hx)

/-- A disclosure is read back where it is of the format, and nothing else is read. -/
theorem loads_iff {room : ℕ} (hroom : 5 ≤ room) (hd : d.Formed)
    (henc : ∀ x ∈ d.rows, Encoded x.row.toJson) :
    (∃ bs d', canonicalBytesOf d.toJson = .ok bs ∧ loads room bs = .ok d' ∧ d.Agrees d') ↔
      d.Readable := by
  constructor
  · rintro ⟨bs, d', hbs, hload, -⟩
    obtain ⟨w, hw, hsame⟩ := loadsStrict_canonicalBytesOf d.proper_toJson
      (d.depth_toJson.trans hroom) hbs
    rw [loads, hw, ok_bind] at hload
    exact ((fromJson_of_same hd hsame).1 d' hload).1
  · intro hread
    obtain ⟨bs, hbs⟩ := encoded_of_readable hd hread henc
    obtain ⟨w, hw, hsame⟩ := loadsStrict_canonicalBytesOf d.proper_toJson
      (d.depth_toJson.trans hroom) hbs
    obtain ⟨hagrees, hexists⟩ := fromJson_of_same hd hsame
    obtain ⟨d', hd'⟩ := hexists (fun x hx => RowChange.safe_of_encoded (henc x hx)) hread
    refine ⟨bs, d', hbs, ?_, (hagrees d' hd').2⟩
    rw [loads, hw, ok_bind, hd']

/-- A disclosure is accepted as one that it agrees with is. -/
theorem verify_of_agrees {d' : RowDisclosure} {r : RowReceipt} (h : d.Agrees d')
    (henc : ∀ x ∈ d.rows, Encoded x.row.toJson) :
    verifyDisclosure d' r = verifyDisclosure d r := by
  have hrows : ∀ (xs xs' : List DisclosedRow) (seen : List ℤ) (root : List Byte),
      List.Forall₂ DisclosedRow.Agrees xs xs' → (∀ x ∈ xs, Encoded x.row.toJson) →
        verifyRows r root seen xs' = verifyRows r root seen xs := by
    intro xs xs' seen root hxs henc
    induction hxs generalizing seen with
    | nil => rfl
    | cons hx _ ih =>
      rw [verifyRows, verifyRows, verifyRow_of_agrees hx (henc _ List.mem_cons_self), hx.index,
        ih _ fun y hy => henc y (List.mem_cons_of_mem _ hy)]
  have hnil : d'.rows = [] ↔ d.rows = [] := by
    rw [← List.length_eq_zero_iff, ← List.length_eq_zero_iff, h.rows.length_eq]
  rw [verifyDisclosure, verifyDisclosure, h.receiptId, h.rowRoot, h.rowCount]
  simp only [hnil, hrows d.rows d'.rows [] _ h.rows henc]

end RowDisclosure

/-! ### Commitments recover and bind -/

/-- The messages that the leaf of a row is hashed of. -/
def leafMessages (salt : List Byte) (row : RowChange) : Set (List Byte) :=
  {m | ∃ data, rowLeafData salt row = .ok data ∧ m = 0 :: data}

/-- The messages that the check of a disclosed row hashes. -/
def DisclosedRow.messages (x : DisclosedRow) (count : ℤ) : Set (List Byte) :=
  leafMessages x.salt x.row ∪ {m | ∃ leaf proof, rowLeafHash x.salt x.row = .ok leaf ∧
    x.auditPath.mapM bytesFromHex = .ok proof ∧
    m ∈ MerkleTree.walkMessages leaf x.index count proof}

namespace RowCommitment

variable (c : RowCommitment)

/-- The messages that a commitment hashes. -/
def messages : Set (List Byte) :=
  pairMessages c.tree.leaves ∪ {m | ∃ i row salt, c.rows[i]? = some row ∧
    rowSalt c.secret i = .ok salt ∧ m ∈ leafMessages salt row}

/-- Whether rows that are disclosed are written, read back and accepted, before and after. -/
def Recovers (indices : List ℤ) (receiptId : Text) (room : ℕ) : Prop :=
  ∃ root c₁ d c₂ bs d', c.root = .ok (root, c₁) ∧ c.disclose indices receiptId = .ok (d, c₂) ∧
    canonicalBytesOf d.toJson = .ok bs ∧ RowDisclosure.loads room bs = .ok d' ∧ d.Agrees d' ∧
    verifyDisclosure d ⟨receiptId, root, c.count⟩ = .ok ⟨⟩ ∧
    verifyDisclosure d' ⟨receiptId, root, c.count⟩ = .ok ⟨⟩

/-- Whether, among messages that SHA-256 tells apart, the disclosures that are accepted against
the root show rows and salts that were committed to. -/
def Binds : Prop :=
  ∀ hashed : Set (List Byte), hashed.InjOn sha256 → c.messages ⊆ hashed →
    ∀ (d : RowDisclosure) (r : RowReceipt) (root : Text) (c₁ : RowCommitment),
      c.root = .ok (root, c₁) → r.rowRoot = root → r.rowCount = c.count →
      (∀ x ∈ d.rows, x.messages r.rowCount ⊆ hashed) → verifyDisclosure d r = .ok ⟨⟩ →
      ∀ x ∈ d.rows, 0 ≤ x.index ∧ ∃ row, c.rows[x.index.toNat]? = some row ∧
        row.Agrees x.row ∧ rowSalt c.secret x.index.toNat = .ok x.salt

variable {c}

theorem binds (c : RowCommitment) : c.Binds := by
  intro hashed hinj hc d r root c₁ hroot hr hcount hd hverify x hx
  obtain ⟨c₀, -, hroot'⟩ := c.root_spec
  obtain ⟨rfl, -⟩ := Prod.mk.inj (Except.ok.inj (hroot'.symm.trans hroot))
  rw [verifyDisclosure] at hverify
  split_ifs at hverify
  rw [hr, bytesFromHex_toHex, ok_bind, verifyRows_eq_ok] at hverify
  have hrow := (hverify.1 x hx).2
  obtain ⟨leaf, hleaf, hrow⟩ := bind_eq_ok.mp hrow
  obtain ⟨proof, hproof, hrow⟩ := bind_eq_ok.mp hrow
  split_ifs at hrow with hincluded
  have hhash : rowLeafHash x.salt x.row = .ok leaf := by
    cases hx : rowLeafHash x.salt x.row with
    | error e => rw [hx] at hleaf; cases hleaf
    | ok l =>
      rw [hx] at hleaf
      exact congrArg Except.ok (Except.ok.inj hleaf)
  obtain ⟨data, hdata, hdigest⟩ := bind_eq_ok.mp hhash
  obtain rfl := Except.ok.inj hdigest
  rw [hcount, count, ← c.length_leaves] at hincluded
  have hwhole : c.tree.leaves.take c.tree.leaves.length = c.tree.leaves := List.take_length
  obtain ⟨hindex, -, hget⟩ := MerkleTree.getElem?_of_accepted (t := c.tree) le_rfl hinj
    (by rw [hwhole]; exact fun m hm => hc (Or.inl hm)) (length_leafHash data)
    (fun m hm => hd x hx (Or.inr ⟨_, proof, hhash, hproof, by
      rwa [hcount, count, ← c.length_leaves]⟩)) (by rwa [hwhole])
  -- the leaf there is that of the row committed to
  have hlt : x.index.toNat < c.rows.length :=
    c.length_leaves ▸ (List.getElem?_eq_some_iff.mp hget).1
  have hcommitted := List.getElem?_eq_getElem hlt
  obtain ⟨salt, leaf', hsalt, hleaf', hget'⟩ := c.leaf_spec hcommitted
  obtain ⟨data', hdata', hdigest'⟩ := bind_eq_ok.mp hleaf'
  have hsame : leafHash data' = leafHash data := by
    rw [Except.ok.inj hdigest']
    exact Option.some.inj (hget'.symm.trans hget)
  have hmessage : (0 : Byte) :: data' = 0 :: data :=
    hinj (hc (Or.inr ⟨_, _, salt, hcommitted, hsalt, data', hdata', rfl⟩))
      (hd x hx (Or.inl ⟨data, hdata, rfl⟩)) hsame
  obtain rfl := (List.cons.inj hmessage).2
  obtain ⟨rfl, hagrees⟩ := RowChange.agrees_of_rowLeafData hdata' hdata
  exact ⟨hindex, _, hcommitted, hagrees, hsalt⟩

/-- Rows that are disclosed are recovered where the receipt's id, the count and their texts are of
the format. -/
theorem recovers_iff {indices : List ℤ} (hne : indices ≠ [])
    (hin : ∀ i ∈ indices, 0 ≤ i ∧ i < c.count) {receiptId : Text} {room : ℕ} (hroom : 5 ≤ room) :
    c.Recovers indices receiptId room ↔ isUuidText receiptId = true ∧
      (c.count : ℤ) ≤ maxSafeInteger ∧
      ∀ i ∈ indices, ∀ row, c.rows[i.toNat]? = some row → row.Readable := by
  obtain ⟨d, c₂, hdisclose, -, hid, hrowRoot, hcount, hrows⟩ := c.disclose_spec hin receiptId
  obtain ⟨c₁, -, hroot⟩ := c.root_spec
  obtain ⟨hformed, haccepted⟩ := disclose_accepted hin hne hrowRoot hid hcount hrows
  rw [hrowRoot, hcount] at haccepted
  have henc : ∀ x ∈ d.rows, Encoded x.row.toJson := by
    intro x hx
    obtain ⟨k, hk, rfl⟩ := List.getElem_of_mem hx
    exact encoded_of_mem (hrows.get (hrows.length_eq ▸ hk) hk).row
  have hreadable : d.Readable ↔ isUuidText receiptId = true ∧ (c.count : ℤ) ≤ maxSafeInteger ∧
      ∀ i ∈ indices, ∀ row, c.rows[i.toNat]? = some row → row.Readable := by
    constructor
    · intro h
      refine ⟨hid ▸ h.receiptId, hcount ▸ h.rowCount, fun i hi row hrow => ?_⟩
      obtain ⟨k, hk, hki⟩ := List.getElem_of_mem (mem_chosen.mpr hi)
      have hk' : k < d.rows.length := hrows.length_eq ▸ hk
      have hshown := (hrows.get hk hk').row
      rw [List.get_eq_getElem, hki, hrow, Option.some.injEq] at hshown
      exact hshown ▸ h.rows _ (List.getElem_mem hk')
    · rintro ⟨huuid, hle, hall⟩
      refine ⟨hid.symm ▸ huuid, hcount.symm ▸ hle, fun x hx => ?_⟩
      obtain ⟨k, hk, rfl⟩ := List.getElem_of_mem hx
      have hk' : k < (chosen indices).length := hrows.length_eq ▸ hk
      exact hall _ (mem_chosen.mp (List.getElem_mem hk')) _ (hrows.get hk' hk).row
  rw [← hreadable, ← RowDisclosure.loads_iff hroom hformed henc]
  constructor
  · rintro ⟨_, _, d₀, c₀, bs, d', -, hd, hbs, hload, hagrees, -, -⟩
    obtain ⟨rfl, -⟩ := Prod.mk.inj (Except.ok.inj (hdisclose.symm.trans hd))
    exact ⟨bs, d', hbs, hload, hagrees⟩
  · rintro ⟨bs, d', hbs, hload, hagrees⟩
    exact ⟨_, c₁, d, c₂, bs, d', hroot, hdisclose, hbs, hload, hagrees, haccepted,
      (RowDisclosure.verify_of_agrees hagrees henc).trans haccepted⟩

/-- **Row disclosures are complete where rows are readable, and binding.** -/
theorem recovers_and_binds_iff {rows : List RowChange} {secret : List Byte}
    (h : commitRows rows secret = .ok c) {indices : List ℤ} (hne : indices ≠ [])
    (hin : ∀ i ∈ indices, 0 ≤ i ∧ i < rows.length) (receiptId : Text) {room : ℕ}
    (hroom : 5 ≤ room) :
    c.Recovers indices receiptId room ∧ c.Binds ↔ isUuidText receiptId = true ∧
      (rows.length : ℤ) ≤ maxSafeInteger ∧
      ∀ i ∈ indices, ∀ row, rows[i.toNat]? = some row → row.Readable := by
  obtain ⟨-, rfl, -⟩ := commitRows_eq_ok h
  rw [recovers_iff hne hin hroom, and_iff_left c.binds]
  exact Iff.rfl

end RowCommitment

/-! ### Rows of database values -/

theorem normalizeImage_none {image : Option Image} (h : normalizeImage none = .ok image) :
    image = none :=
  (Except.ok.inj h).symm

/-- The columns of an image of database values. -/
theorem normalizeImage_some {items : List (Text × Raw)} {image : Option Image}
    (h : normalizeImage (some items) = .ok image) :
    ∃ i : Image, image = some i ∧ ∀ k, k ∈ i.keys ↔ k ∈ items.map Prod.fst := by
  obtain ⟨i, hi, h⟩ := bind_eq_ok.mp h
  refine ⟨i, (Except.ok.inj h).symm, fun k => ?_⟩
  have hfold : ∀ (items : List (Text × Raw)) (start i : Image),
      items.foldlM (fun (image : Image) p => do .ok (image.set p.1 (← scalar p.2))) start = .ok i →
        (k ∈ i.keys ↔ k ∈ start.keys ∨ k ∈ items.map Prod.fst) := by
    intro items
    induction items with
    | nil =>
      intro start i h
      obtain rfl := Except.ok.inj h
      simp
    | cons p items ih =>
      intro start i h
      rw [List.foldlM_cons] at h
      obtain ⟨next, hnext, h⟩ := bind_eq_ok.mp h
      obtain ⟨s, -, hnext⟩ := bind_eq_ok.mp hnext
      obtain rfl := Except.ok.inj hnext
      rw [ih _ i h, Dict.mem_keys_set, List.map_cons, List.mem_cons, or_assoc, or_left_comm]
  rw [hfold items ∅ i hi]
  exact or_iff_right fun h => by cases h

theorem readable_normalizeImage {items : Option (List (Text × Raw))} {image : Option Image}
    (h : normalizeImage items = .ok image) :
    ReadableImage image ↔ ∀ l ∈ items, ∀ p ∈ l, isText p.1 = true := by
  cases items with
  | none =>
    obtain rfl := normalizeImage_none h
    simp [ReadableImage]
  | some items =>
    obtain ⟨i, rfl, hkeys⟩ := normalizeImage_some h
    simp only [ReadableImage, Option.mem_some_iff, forall_eq', Image.Readable, hkeys,
      List.forall_mem_map]

/-- A row of database values is read back where its names and its key are of the format, whatever
its values. -/
theorem RowChange.readable_fromValues {table pk : Text} {before after : Option (List (Text × Raw))}
    {tenant : Option Text} {r : RowChange}
    (h : fromValues table pk before after tenant = .ok r) :
    r.Readable ↔ isText table = true ∧ isText pk = true ∧ (∀ t ∈ tenant, isText t = true) ∧
      (∀ l ∈ before, ∀ p ∈ l, isText p.1 = true) ∧ ∀ l ∈ after, ∀ p ∈ l, isText p.1 = true := by
  have hsome : ¬(before.isNone ∧ after.isNone) := fun hnone => by
    rw [fromValues, if_pos hnone] at h
    cases h
  rw [fromValues, if_neg hsome] at h
  obtain ⟨b, hb, h⟩ := bind_eq_ok.mp h
  obtain ⟨a, ha, h⟩ := bind_eq_ok.mp h
  obtain ⟨htable, hpk, -, htenant, hbefore, hafter⟩ := ofOp_eq_ok h
  rw [← readable_normalizeImage hb, ← readable_normalizeImage ha, ← htable, ← hpk, ← htenant,
    ← hbefore, ← hafter]
  exact ⟨fun h => ⟨h.table, h.pk, h.tenant, h.before, h.after⟩,
    fun h => ⟨h.1, h.2.1, h.2.2.1, h.2.2.2.1, h.2.2.2.2⟩⟩

/-- Rows that are encoded are committed to. -/
theorem commitRows_of_encoded {rows : List RowChange} {secret : List Byte}
    (hsecret : secret.length = 32) (hcount : rows.length ≤ 2 ^ 64)
    (henc : ∀ r ∈ rows, Encoded r.toJson) : ∃ c, commitRows rows secret = .ok c := by
  have hleaf : ∀ p ∈ rows.zipIdx, ∃ leaf, rowLeaf secret p = .ok leaf := by
    rintro ⟨r, i⟩ hp
    obtain ⟨hi, hr⟩ := List.mem_zipIdx' hp
    obtain ⟨bs, hbs⟩ := henc r (hr ▸ List.getElem_mem hi)
    have hsalt : rowSalt secret i =
        .ok (hmacSha256 secret ((txt "ARC1/row-salt/v1\n").ascii ++ uint64 i)) := by
      rw [rowSalt, if_pos (hi.trans_le hcount)]
    rw [rowLeaf, hsalt, ok_bind, rowLeafHash, rowLeafData, hbs]
    exact ⟨_, rfl⟩
  obtain ⟨leaves, hleaves⟩ := exists_mapM_eq_ok hleaf
  have hlength : ∀ l ∈ leaves, l.length = 32 := by
    intro l hl
    obtain ⟨p, -, hp⟩ := exists_of_mem_mapM hleaves hl
    obtain ⟨salt, -, hp⟩ := bind_eq_ok.mp hp
    cases hhash : rowLeafHash salt p.1 with
    | error e => rw [hhash] at hp; cases hp
    | ok leaf =>
      rw [hhash] at hp
      obtain rfl := Except.ok.inj hp
      obtain ⟨data, -, hdata⟩ := bind_eq_ok.mp hhash
      rw [← Except.ok.inj hdata]
      exact length_leafHash data
  obtain ⟨t, ht, -⟩ := MerkleTree.ofLeaves_eq hlength
  rw [commitRows, if_neg (not_not.mpr hsecret)]
  split
  · rename_i e he
    rw [rowLeaves, hleaves] at he
    cases he
  · rename_i ls hls
    rw [rowLeaves, hleaves, Except.ok.injEq] at hls
    subst hls
    split
    · rename_i message hmessage
      rw [ht] at hmessage
      cases hmessage
    · exact ⟨_, rfl⟩

/-! A row of a table whose keys are texts. -/

/-- A secret of thirty-two bytes. -/
def sampleSecret : List Byte := List.replicate 32 7

/-- The id of a receipt. -/
def sampleReceiptId : Text := txt "00000000-0000-4000-8000-000000000000"

/-- A row inserted under a key. -/
def sampleRow (pk : Text) : RowChange where
  table := txt "notes"
  pk := pk
  op := .insert
  after := some ((∅ : Image).set (txt "id") (.str pk))
  shaped := ⟨rfl, rfl⟩

theorem fromValues_sampleRow (pk : Text) :
    RowChange.fromValues (txt "notes") pk none (some [(txt "id", .str pk)]) none =
      .ok (sampleRow pk) := rfl

/-- A row of two columns, one of which is set. -/
def sampleUpdate : RowChange where
  table := txt "notes"
  pk := txt "2"
  op := .update
  tenant := some (txt "t")
  before := some (((∅ : Image).set (txt "id") (.str (txt "2"))).set (txt "n") .null)
  after := some (((∅ : Image).set (txt "id") (.str (txt "2"))).set (txt "n") (.int (-7)))
  shaped := ⟨rfl, rfl⟩

theorem fromValues_sampleUpdate :
    RowChange.fromValues (txt "notes") (txt "2")
        (some [(txt "id", .str (txt "2")), (txt "n", .null)])
        (some [(txt "id", .str (txt "2")), (txt "n", .int (-7))]) (some (txt "t")) =
      .ok sampleUpdate := rfl

/-- Rows inserted under two keys, and one that is set. -/
def sampleRows : List RowChange := [sampleRow (txt "1"), sampleUpdate, sampleRow (txt "3")]

namespace RowCommitment

/-- The last and the second of three rows, disclosed in that order. -/
theorem recovers_and_binds_iff_sampleRows :
    ∃ c, commitRows sampleRows sampleSecret = .ok c ∧
      c.Recovers [2, 1] sampleReceiptId 1000 ∧ c.Binds := by
  have hencoded : sampleRows.all (fun r => (canonicalBytesOf r.toJson).isOk) = true := by
    decide +kernel
  obtain ⟨c, hc⟩ : ∃ c, commitRows sampleRows sampleSecret = .ok c :=
    commitRows_of_encoded (by decide) (by decide) fun r hr =>
      exists_of_isOk (List.all_eq_true.mp hencoded r hr)
  refine ⟨c, hc, (recovers_and_binds_iff hc (by decide) (by decide) sampleReceiptId
    (by decide)).mpr ⟨by decide, by decide, ?_⟩⟩
  intro i hi row hrow
  rcases List.mem_cons.mp hi with rfl | hi
  · obtain rfl := Option.some.inj hrow
    rw [RowChange.readable_fromValues (fromValues_sampleRow (txt "3"))]
    decide
  · obtain rfl := List.mem_singleton.mp hi
    obtain rfl := Option.some.inj hrow
    rw [RowChange.readable_fromValues fromValues_sampleUpdate]
    decide

/-- An empty key is committed to, and its row is never recovered. -/
theorem not_recovers_emptyKey :
    RowChange.fromValues (txt "notes") [] none (some [(txt "id", .str [])]) none =
        .ok (sampleRow []) ∧
      ∃ c, commitRows [sampleRow []] sampleSecret = .ok c ∧
        ¬c.Recovers [0] sampleReceiptId 1000 := by
  obtain ⟨c, hc⟩ : ∃ c, commitRows [sampleRow []] sampleSecret = .ok c :=
    commitRows_of_encoded (by decide) (by decide) fun r hr => by
      rw [List.mem_singleton.mp hr]
      exact exists_of_isOk (by decide)
  refine ⟨rfl, c, hc, fun h => ?_⟩
  obtain ⟨-, hrows, -⟩ := commitRows_eq_ok hc
  have hin : ∀ i ∈ [(0 : ℤ)], 0 ≤ i ∧ i < c.count := by
    rw [count, hrows]
    decide
  obtain ⟨-, -, hall⟩ := (recovers_iff (by decide) hin (by decide)).mp h
  have hkey := (hall 0 List.mem_cons_self (sampleRow []) (by rw [hrows]; rfl)).pk
  exact absurd hkey (by decide)

end RowCommitment

end AgentGov.Receipts
