import AgentGov.Foundation.JsonCodes
import AgentGov.Receipts.Rows

/-!
# Disclosures read back

What is read of a disclosure once it was written: the rows that were disclosed, wherever their
texts are texts of the format, and nothing otherwise. A disclosure is accepted against the
receipt of its commitment, and no other row is, at any place, under any salt.

## Main definitions

* `AgentGov.Receipts.RowChange.Readable`: whether the texts of a row are texts of the format.
* `AgentGov.Receipts.RowChange.Agrees`, `AgentGov.Receipts.RowDisclosure.Agrees`: equality, with
  the columns of an image in any order.

## Main results

* `AgentGov.Receipts.RowDisclosure.fromJson_of_same`: what is read of a written disclosure.
-/

namespace AgentGov.Receipts

open Foundation Foundation.Merkle

/-! ### Documents of a mapping -/

theorem member?_eq_assoc (key : Text) (fs : List (Text × Json)) :
    member? key fs = Dict.assoc fs key := by
  induction fs with
  | nil => rfl
  | cons f fs ih =>
    rw [member?, Dict.assoc, ih]

/-- The members of a mapping, as an encoder takes them. -/
def members (ms : List (Text × Datum)) : List (Key × Datum) := ms.map fun m => (.str m.1, m.2)

theorem mem_of_sameMembers {ms : List (Text × Datum)} {fs : List (Text × Json)}
    (h : sameMembers (members ms) fs = true) {m : Text × Datum} (hm : m ∈ ms) :
    ∃ v, member? m.1 fs = some v ∧ same m.2 v = true := by
  induction ms with
  | nil => cases hm
  | cons d ms ih =>
    rw [members, List.map_cons, sameMembers, Bool.and_eq_true] at h
    rcases List.mem_cons.mp hm with rfl | hm
    · rw [member?_eq_assoc]
      split at h
      · rename_i v hv
        exact ⟨v, hv, h.1⟩
      · cases h.1
    · exact ih h.2 hm

/-- A document of a mapping has its keys, each with a document of its value. -/
theorem exists_obj {ms : List (Text × Datum)} {w : Json} (hnodup : (ms.map Prod.fst).Nodup)
    (h : same (.mapping (members ms)) w = true) :
    ∃ fs, w = .obj fs ∧ (fs.map Prod.fst).Perm (ms.map Prod.fst) ∧
      ∀ m ∈ ms, ∃ v, member? m.1 fs = some v ∧ same m.2 v = true := by
  cases w with
  | obj fs =>
    rw [same, Bool.and_eq_true, beq_iff_eq] at h
    refine ⟨fs, rfl, ?_, fun m hm => mem_of_sameMembers h.2 hm⟩
    have hsub : ms.map Prod.fst ⊆ fs.map Prod.fst := by
      intro k hk
      obtain ⟨m, hm, rfl⟩ := List.mem_map.mp hk
      obtain ⟨v, hv, -⟩ := mem_of_sameMembers h.2 hm
      rw [member?_eq_assoc] at hv
      exact List.mem_map.mpr ⟨_, Dict.mem_of_assoc hv, rfl⟩
    refine (List.Subperm.perm_of_length_le (hnodup.subperm hsub) ?_).symm
    rw [List.length_map, List.length_map, ← h.1, members, List.length_map]
  | _ => simp [same] at h

/-- An object that has the fields of a schema is taken. -/
theorem Fields.ofJson_of_perm {fs : List (Text × Json)} {names : List Text} (path : Text)
    (h : (fs.map Prod.fst).Perm names) :
    Fields.ofJson (.obj fs) path names [] = .ok ⟨path, fs⟩ := by
  have hmissing : (names.filter fun n => (member? n fs).isNone) = [] := by
    rw [List.filter_eq_nil_iff]
    intro n hn
    obtain ⟨f, hf, rfl⟩ := List.mem_map.mp (h.mem_iff.mpr hn)
    rw [member?_eq_assoc, Option.isNone_iff_eq_none, Dict.assoc_eq_none_iff]
    exact fun hnone => hnone (List.mem_map_of_mem hf)
  have hunknown :
      ((fs.map Prod.fst).filter fun k => !(names.contains k || [].contains k)) = [] := by
    rw [List.filter_eq_nil_iff]
    intro k hk
    simp [h.mem_iff.mp hk]
  simp only [Fields.ofJson, hmissing, hunknown, ne_eq, not_true_eq_false, if_false]

/-! ### Images -/

namespace Scalar

/-- A column's value as a document. -/
def json : Scalar → Json
  | .null => .null
  | .bool b => .bool b
  | .int n => .int n
  | .str t => .str t

theorem json_inj {s s' : Scalar} (h : s.json = s'.json) : s = s' := by
  cases s <;> cases s' <;> simp_all [json]

theorem same_toDatum {s : Scalar} {v : Json} : same s.toDatum v = true ↔ v = s.json := by
  cases s with
  | null => cases v <;> simp [toDatum, json, same]
  | bool b =>
    cases v <;> simp [toDatum, json, same]
    exact eq_comm
  | int n =>
    cases v <;> simp [toDatum, json, same]
    exact eq_comm
  | str t =>
    cases v <;> simp [toDatum, json, same]
    exact eq_comm

/-- Whether a value is one the encoding has. -/
def Safe : Scalar → Prop
  | .int n => isSafe n = true
  | _ => True

theorem checkScalar_json {s : Scalar} (h : s.Safe) (path : Text) :
    checkScalar path s.json = .ok s := by
  cases s with
  | int n =>
    have hn := of_decide_eq_true h
    have hread : checkInt (.int n) path (-maxSafeInteger) = .ok n :=
      Fields.checkInt_eq_ok.mpr ⟨rfl, hn.1, hn.2⟩
    rw [json, checkScalar, hread]
    rfl
  | _ => rfl

theorem eq_json_of_checkScalar {s : Scalar} {v : Json} {path : Text}
    (h : checkScalar path v = .ok s) : v = s.json := by
  cases v with
  | int n =>
    rw [checkScalar] at h
    cases hread : checkInt (.int n) path (-maxSafeInteger) with
    | error e => rw [hread] at h; cases h
    | ok m =>
      rw [hread] at h
      obtain rfl := Except.ok.inj h
      exact (Fields.checkInt_eq_ok.mp hread).1
  | null => obtain rfl := Except.ok.inj h; rfl
  | bool b => obtain rfl := Except.ok.inj h; rfl
  | str t => obtain rfl := Except.ok.inj h; rfl
  | arr vs => cases h
  | obj fs => cases h

end Scalar

/-- Whether an object has the columns of an image and no others. -/
def Image.Of (image : Image) (fs : List (Text × Json)) : Prop :=
  (fs.map Prod.fst).Nodup ∧ ∀ k, member? k fs = (image.get? k).map Scalar.json

theorem Image.same_of {image image' : Image} {fs : List (Text × Json)} (h : image.Of fs)
    (h' : image'.Of fs) : image.Same image' := by
  intro k
  have heq := (h.2 k).symm.trans (h'.2 k)
  cases hk : image.get? k with
  | none =>
    rw [hk] at heq
    exact (Option.map_eq_none_iff.mp heq.symm).symm
  | some s =>
    rw [hk, Option.map_some, eq_comm, Option.map_eq_some_iff] at heq
    obtain ⟨s', hs', hjson⟩ := heq
    rw [hs', Scalar.json_inj hjson]

/-- A document of an image is an object of its columns. -/
theorem exists_columns {image : Image} {v : Json} (h : same (imageDatum (some image)) v = true) :
    ∃ fs, v = .obj fs ∧ image.Of fs := by
  have hkeys : (image.items.map fun p => (p.1, p.2.toDatum)).map Prod.fst = image.keys := by
    rw [List.map_map]
    rfl
  have hmembers : imageDatum (some image) =
      .mapping (members (image.items.map fun p => (p.1, p.2.toDatum))) := by
    rw [imageDatum, members, List.map_map]
    rfl
  rw [hmembers] at h
  obtain ⟨fs, rfl, hperm, hget⟩ := exists_obj (hkeys ▸ image.nodup_keys) h
  rw [hkeys] at hperm
  refine ⟨fs, rfl, hperm.nodup_iff.mpr image.nodup_keys, fun k => ?_⟩
  cases hk : image.get? k with
  | none =>
    rw [member?_eq_assoc, Option.map_none, Dict.assoc_eq_none_iff]
    exact fun hmem => (Dict.get?_eq_none_iff.mp hk) (hperm.mem_iff.mp hmem)
  | some s =>
    obtain ⟨v, hv, hsame⟩ := hget (k, s.toDatum)
      (List.mem_map.mpr ⟨(k, s), Dict.get?_eq_some_iff.mp hk, rfl⟩)
    rw [hv, Option.map_some, Scalar.same_toDatum.mp hsame]

/-- Whether the columns of an image are texts of the format. -/
def Image.Readable (image : Image) : Prop := ∀ k ∈ image.keys, isText k = true

/-- Whether an encoding has the values of an image. -/
def Image.Safe (image : Image) : Prop := ∀ s ∈ image.values, s.Safe

theorem checkColumn_eq_ok {path : Text} {m : Text × Json} {p : Text × Scalar} :
    checkColumn path m = .ok p ↔ isText m.1 = true ∧ p.1 = m.1 ∧
      checkScalar (path ++ txt "." ++ m.1) m.2 = .ok p.2 := by
  constructor
  · intro h
    obtain ⟨column, hcolumn, h⟩ := bind_eq_ok.mp h
    obtain ⟨value, hvalue, h⟩ := bind_eq_ok.mp h
    obtain rfl := Except.ok.inj h
    obtain ⟨heq, htext⟩ := Fields.checkText_eq_ok.mp hcolumn
    obtain rfl := Json.str.inj heq
    exact ⟨htext, rfl, hvalue⟩
  · rintro ⟨htext, hname, hvalue⟩
    refine bind_eq_ok.mpr ⟨m.1, Fields.checkText_eq_ok.mpr ⟨rfl, htext⟩, ?_⟩
    refine bind_eq_ok.mpr ⟨p.2, hvalue, ?_⟩
    rw [← hname]

/-- Columns that are read are those of the object. -/
theorem columns_of_read {path : Text} {fs : List (Text × Json)} {items : List (Text × Scalar)}
    (h : List.Forall₂ (fun m p => checkColumn path m = .ok p) fs items) :
    fs = items.map fun p => (p.1, p.2.json) := by
  induction h with
  | nil => rfl
  | cons hm _ ih =>
    obtain ⟨-, hname, hvalue⟩ := checkColumn_eq_ok.mp hm
    rw [List.map_cons, ← ih, hname, ← Scalar.eq_json_of_checkScalar hvalue]

theorem member?_columns (items : List (Text × Scalar)) (k : Text) :
    member? k (items.map fun p => (p.1, p.2.json)) = (Dict.assoc items k).map Scalar.json := by
  induction items with
  | nil => rfl
  | cons p items ih =>
    rw [List.map_cons, member?, ih, Dict.assoc]
    split_ifs <;> rfl

/-- The image of an object of columns. -/
theorem image_of_columns {items : List (Text × Scalar)} (h : (items.map Prod.fst).Nodup) :
    Image.Of ((∅ : Image).setAll items) (items.map fun p => (p.1, p.2.json)) := by
  refine ⟨by rwa [List.map_map], fun k => ?_⟩
  rw [member?_columns, Dict.get?_setAll _ _ h, Dict.get?_empty, Option.or_none]

/-- What is read of an object of columns. -/
theorem checkImage_obj {fs : List (Text × Json)} {path : Text} {r : Option Image}
    (hnodup : (fs.map Prod.fst).Nodup) (h : checkImage (.obj fs) path = .ok r) :
    (∀ f ∈ fs, isText f.1 = true) ∧ ∃ image, r = some image ∧ image.Of fs := by
  obtain ⟨items, hitems, h⟩ := bind_eq_ok.mp h
  obtain rfl := Except.ok.inj h
  have hread := mapM_eq_ok.mp hitems
  refine ⟨fun f hf => ?_, _, rfl, ?_⟩
  · obtain ⟨i, hi, rfl⟩ := List.getElem_of_mem hf
    have hget := hread.get hi (hread.length_eq ▸ hi)
    exact (checkColumn_eq_ok.mp hget).1
  · have hfs := columns_of_read hread
    rw [hfs, List.map_map] at hnodup
    rw [hfs]
    exact image_of_columns hnodup

/-- Whether the columns of an image that may be missing are texts of the format. -/
def ReadableImage (image : Option Image) : Prop := ∀ i ∈ image, i.Readable

/-- Whether an encoding has the values of an image that may be missing. -/
def SafeImage (image : Option Image) : Prop := ∀ i ∈ image, i.Safe

/-- Images of one document agree. -/
theorem rel_of_same {image image' : Option Image} {v : Json}
    (h : same (imageDatum image) v = true) (h' : same (imageDatum image') v = true) :
    Option.Rel Dict.Same image image' := by
  cases image with
  | none =>
    cases image' with
    | none => exact .none
    | some image' =>
      obtain ⟨fs, rfl, -⟩ := exists_columns h'
      cases h
  | some image =>
    obtain ⟨fs, rfl, hof⟩ := exists_columns h
    cases image' with
    | none => cases h'
    | some image' =>
      obtain ⟨gs, heq, hof'⟩ := exists_columns h'
      obtain rfl := Json.obj.inj heq
      exact .some (Image.same_of hof hof')

/-- Of a document of an image, the image is read where its columns are texts of the format. -/
theorem checkImage_of_same {image : Option Image} {v : Json} (path : Text)
    (h : same (imageDatum image) v = true) :
    (∀ r, checkImage v path = .ok r → ReadableImage image ∧ Option.Rel Dict.Same image r) ∧
      (SafeImage image → ReadableImage image → ∃ r, checkImage v path = .ok r) := by
  cases image with
  | none =>
    cases v with
    | null =>
      refine ⟨fun r hr => ?_, fun _ _ => ⟨none, rfl⟩⟩
      obtain rfl := Except.ok.inj hr
      exact ⟨nofun, .none⟩
    | _ => cases h
  | some image =>
    obtain ⟨fs, rfl, hof⟩ := exists_columns h
    have hkeys : ∀ k ∈ image.keys, ∃ f ∈ fs, f.1 = k := by
      intro k hk
      obtain ⟨s, hs⟩ := Dict.mem_keys_iff.mp hk
      have hget := hof.2 k
      rw [hs, Option.map_some, member?_eq_assoc] at hget
      exact ⟨_, Dict.mem_of_assoc hget, rfl⟩
    constructor
    · intro r hr
      obtain ⟨htexts, image', rfl, hof'⟩ := checkImage_obj hof.1 hr
      refine ⟨?_, .some (Image.same_of hof hof')⟩
      intro i hi k hk
      obtain rfl := Option.mem_some_iff.mp hi
      obtain ⟨f, hf, rfl⟩ := hkeys k hk
      exact htexts f hf
    · intro hsafe hreadable
      -- each member is a column of the image
      have hread : ∀ f ∈ fs, ∃ p, checkColumn path f = .ok p := by
        intro f hf
        have hget := hof.2 f.1
        rw [member?_eq_assoc, Dict.assoc_of_mem hof.1 hf, eq_comm, Option.map_eq_some_iff] at hget
        obtain ⟨s, hs, hjson⟩ := hget
        refine ⟨(f.1, s), checkColumn_eq_ok.mpr ⟨?_, rfl, ?_⟩⟩
        · exact hreadable image rfl f.1 (Dict.mem_keys_iff.mpr ⟨s, hs⟩)
        · rw [← hjson]
          exact Scalar.checkScalar_json
            (hsafe image rfl s (Dict.mem_values_iff.mpr ⟨f.1, hs⟩)) _
      obtain ⟨items, hitems⟩ := exists_mapM_eq_ok hread
      exact ⟨_, bind_eq_ok.mpr ⟨items, hitems, rfl⟩⟩

/-! ### Rows -/

/-- A document of a mapping is an object with the mapping's fields. -/
theorem exists_fields {l : List (Text × Datum)} {w : Json} (path : Text)
    (hnodup : (l.map Prod.fst).Nodup) (h : same (.mapping (members l)) w = true) :
    ∃ f, Fields.ofJson w path (l.map Prod.fst) [] = .ok f ∧
      ∀ m ∈ l, same m.2 (f.raw m.1) = true := by
  obtain ⟨fs, rfl, hperm, hget⟩ := exists_obj hnodup h
  refine ⟨_, Fields.ofJson_of_perm path hperm, fun m hm => ?_⟩
  obtain ⟨v, hv, hsame⟩ := hget m hm
  rwa [Fields.raw, hv]

theorem same_str {t : Text} {v : Json} : same (.str t) v = true ↔ v = .str t :=
  Scalar.same_toDatum (s := .str t)

theorem same_int {n : ℤ} {v : Json} : same (.int n) v = true ↔ v = .int n :=
  Scalar.same_toDatum (s := .int n)

/-- Texts of one document are the same. -/
theorem text_of_same {t t' : Option Text} {v : Json} (h : same (textDatum t) v = true)
    (h' : same (textDatum t') v = true) : t = t' := by
  have hjson : ∀ u : Option Text, same (textDatum u) v = true →
      v = ((u.map Scalar.str).getD .null).json := by
    intro u hu
    cases u with
    | none => exact (Scalar.same_toDatum (s := .null)).mp hu
    | some u => exact same_str.mp hu
  have heq := Scalar.json_inj ((hjson t h).symm.trans (hjson t' h'))
  cases t <;> cases t' <;> simp_all

/-- A text that may be missing is read where it is a text of the format. -/
theorem optionalText_of_same {t u : Option Text} {f : Fields} {key : Text}
    (h : same (textDatum t) (f.raw key) = true) :
    f.optionalText key = .ok u ↔ (∀ s ∈ t, isText s = true) ∧ u = t := by
  rw [Fields.optionalText_eq_ok]
  cases t with
  | none =>
    have hraw : f.raw key = .null := (Scalar.same_toDatum (s := .null)).mp h
    simp [hraw]
  | some t =>
    simp [same_str.mp h]

namespace RowChange

/-- Whether the texts of a row are texts of the format. -/
structure Readable (r : RowChange) : Prop where
  table : isText r.table = true
  pk : isText r.pk = true
  tenant : ∀ t ∈ r.tenant, isText t = true
  before : ReadableImage r.before
  after : ReadableImage r.after

/-- Whether an encoding has the values of a row. -/
structure Safe (r : RowChange) : Prop where
  before : SafeImage r.before
  after : SafeImage r.after

/-- Whether a row is another, the columns of its images in any order. -/
structure Agrees (r r' : RowChange) : Prop where
  table : r'.table = r.table
  pk : r'.pk = r.pk
  op : r'.op = r.op
  tenant : r'.tenant = r.tenant
  before : Option.Rel Dict.Same r.before r'.before
  after : Option.Rel Dict.Same r.after r'.after

theorem ofOp_eq_ok {table pk : Text} {op : RowOp} {tenant : Option Text}
    {before after : Option Image} {r : RowChange}
    (h : ofOp table pk op tenant before after = .ok r) : r.table = table ∧ r.pk = pk ∧
      r.op = op ∧ r.tenant = tenant ∧ r.before = before ∧ r.after = after := by
  rw [ofOp] at h
  split_ifs at h
  obtain rfl := Except.ok.inj h
  exact ⟨rfl, rfl, rfl, rfl, rfl, rfl⟩

theorem opOf_of_raw {f : Fields} {op : RowOp} (h : f.raw (txt "op") = .str op.text) :
    opOf f = .ok op := by
  rw [opOf, h]
  simp only [RowOp.ofText?_text]

/-- Images that agree are there, or not, together. -/
theorem isSome_of_rel {a b : Option Image} (h : Option.Rel Dict.Same a b) :
    b.isSome = a.isSome := by
  cases h <;> rfl

variable {r : RowChange}

/-- A document of a row has the fields of the row. -/
theorem fields_of_same {w : Json} (path : Text) (h : same r.toJson w = true) :
    ∃ f, Fields.ofJson w path fields [] = .ok f ∧ f.raw (txt "table") = .str r.table ∧
      f.raw (txt "pk") = .str r.pk ∧ f.raw (txt "op") = .str r.op.text ∧
      same (textDatum r.tenant) (f.raw (txt "tenant")) = true ∧
      same (imageDatum r.before) (f.raw (txt "before")) = true ∧
      same (imageDatum r.after) (f.raw (txt "after")) = true := by
  obtain ⟨f, hf, hraw⟩ := exists_fields (l := [(txt "table", .str r.table),
    (txt "pk", .str r.pk), (txt "op", .str r.op.text), (txt "tenant", textDatum r.tenant),
    (txt "before", imageDatum r.before), (txt "after", imageDatum r.after)]) path
    (by simp only [List.map_cons, List.map_nil]; decide) h
  simp only [List.forall_mem_cons, same_str] at hraw
  obtain ⟨htable, hpk, hop, htenant, hbefore, hafter, -⟩ := hraw
  exact ⟨f, hf, htable, hpk, hop, htenant, hbefore, hafter⟩

/-- Of a document of a row, the row is read where its texts are texts of the format. -/
theorem fromJson_of_same {w : Json} (path : Text) (h : same r.toJson w = true) :
    (∀ r', fromJson w path = .ok r' → r.Readable ∧ r.Agrees r') ∧
      (r.Safe → r.Readable → ∃ r', fromJson w path = .ok r') := by
  obtain ⟨f, hf, htable, hpk, hop, htenant, hbefore, hafter⟩ := fields_of_same path h
  obtain ⟨hb, hb'⟩ := checkImage_of_same (f.pathOf (txt "before")) hbefore
  obtain ⟨ha, ha'⟩ := checkImage_of_same (f.pathOf (txt "after")) hafter
  constructor
  · intro r' hr'
    rw [fromJson, hf, ok_bind, opOf_of_raw hop, ok_bind] at hr'
    obtain ⟨table, htable', hr'⟩ := bind_eq_ok.mp hr'
    obtain ⟨pk, hpk', hr'⟩ := bind_eq_ok.mp hr'
    obtain ⟨tenant, htenant', hr'⟩ := bind_eq_ok.mp hr'
    obtain ⟨before, hbefore', hr'⟩ := bind_eq_ok.mp hr'
    obtain ⟨after, hafter', hr'⟩ := bind_eq_ok.mp hr'
    rw [Fields.text_eq_ok, htable, Json.str.injEq] at htable'
    rw [Fields.text_eq_ok, hpk, Json.str.injEq] at hpk'
    obtain ⟨rfl, htext⟩ := htable'
    obtain ⟨rfl, hpktext⟩ := hpk'
    obtain ⟨htenants, rfl⟩ := (optionalText_of_same htenant).mp htenant'
    obtain ⟨hreadb, hrelb⟩ := hb before hbefore'
    obtain ⟨hreada, hrela⟩ := ha after hafter'
    obtain ⟨h1, h2, h3, h4, h5, h6⟩ := ofOp_eq_ok hr'
    exact ⟨⟨htext, hpktext, htenants, hreadb, hreada⟩,
      ⟨h1, h2, h3, h4, h5 ▸ hrelb, h6 ▸ hrela⟩⟩
  · intro hsafe hreadable
    obtain ⟨before, hbefore'⟩ := hb' hsafe.before hreadable.before
    obtain ⟨after, hafter'⟩ := ha' hsafe.after hreadable.after
    have hshape : before.isSome = r.op.hasBefore ∧ after.isSome = r.op.hasAfter := by
      rw [isSome_of_rel (hb before hbefore').2, isSome_of_rel (ha after hafter').2]
      exact r.shaped
    have htable' := Fields.text_eq_ok.mpr ⟨htable, hreadable.table⟩
    have hpk' := Fields.text_eq_ok.mpr ⟨hpk, hreadable.pk⟩
    have htenant' := (optionalText_of_same htenant).mpr ⟨hreadable.tenant, rfl⟩
    rw [fromJson, hf, ok_bind, opOf_of_raw hop, ok_bind, htable', ok_bind, hpk', ok_bind,
      htenant', ok_bind, hbefore', ok_bind, hafter', ok_bind, ofOp, dif_pos hshape]
    exact ⟨_, rfl⟩

/-- Rows of one document agree. -/
theorem agrees_of_same {r' : RowChange} {w : Json} (h : same r.toJson w = true)
    (h' : same r'.toJson w = true) : r.Agrees r' := by
  obtain ⟨f, hf, htable, hpk, hop, htenant, hbefore, hafter⟩ := fields_of_same [] h
  obtain ⟨f', hf', htable', hpk', hop', htenant', hbefore', hafter'⟩ := fields_of_same [] h'
  obtain rfl := Except.ok.inj (hf.symm.trans hf')
  rw [htable, Json.str.injEq] at htable'
  rw [hpk, Json.str.injEq] at hpk'
  rw [hop, Json.str.injEq] at hop'
  have hop'' : r'.op = r.op := by
    rw [← Option.some.injEq, ← RowOp.ofText?_text, ← hop', RowOp.ofText?_text]
  exact ⟨htable'.symm, hpk'.symm, hop'', (text_of_same htenant htenant').symm,
    rel_of_same hbefore hbefore', rel_of_same hafter hafter'⟩

end RowChange

/-! ### Disclosed rows -/

theorem isHexOf_toHex {bs : List Byte} {n : ℕ} (h : bs.length = n) :
    isHexOf (2 * n) (toHex bs) = true := by
  rw [isHexOf, Bool.and_eq_true, decide_eq_true_eq, length_toHex, h, List.all_eq_true]
  exact ⟨rfl, fun c hc => isHexDigit_of_mem_toHex hc⟩

theorem forall₂_of_sameItems {vs : List Datum} {ws : List Json} (h : sameItems vs ws = true) :
    List.Forall₂ (fun v w => same v w = true) vs ws := by
  induction vs generalizing ws with
  | nil =>
    cases ws with
    | nil => exact .nil
    | cons w ws => cases h
  | cons v vs ih =>
    cases ws with
    | nil => cases h
    | cons w ws =>
      rw [sameItems, Bool.and_eq_true] at h
      exact .cons h.1 (ih h.2)

/-- A document of a sequence is an array of documents of its items. -/
theorem exists_arr {vs : List Datum} {v : Json} (h : same (.sequence vs) v = true) :
    ∃ ws, v = .arr ws ∧ List.Forall₂ (fun v w => same v w = true) vs ws := by
  cases v with
  | arr ws => exact ⟨ws, rfl, forall₂_of_sameItems h⟩
  | _ => cases h

theorem same_texts {ts : List Text} {v : Json} (h : same (.sequence (ts.map .str)) v = true) :
    v = .arr (ts.map .str) := by
  obtain ⟨ws, rfl, hws⟩ := exists_arr h
  congr 1
  rw [List.forall₂_map_left_iff] at hws
  clear h
  induction hws with
  | nil => rfl
  | cons hw _ ih => rw [List.map_cons, ih, same_str.mp hw]

namespace DisclosedRow

/-- Whether a disclosed row has the index, the salt and the path of one that is committed to. -/
structure Formed (x : DisclosedRow) : Prop where
  index : 0 ≤ x.index
  salt : x.salt.length = 32
  auditPath : ∀ t ∈ x.auditPath, isHexOf 64 t = true

/-- Whether a disclosed row is another, the columns of its images in any order. -/
structure Agrees (x x' : DisclosedRow) : Prop where
  index : x'.index = x.index
  salt : x'.salt = x.salt
  row : x.row.Agrees x'.row
  auditPath : x'.auditPath = x.auditPath

variable {x : DisclosedRow}

/-- Of a document of a disclosed row, the row is read where its texts are texts of the format. -/
theorem fromJson_of_same {w : Json} (path : Text) (hx : x.Formed) (h : same x.toJson w = true) :
    (∀ x', fromJson w path = .ok x' → x.row.Readable ∧ x.Agrees x') ∧
      (x.index ≤ maxSafeInteger → x.row.Safe → x.row.Readable →
        ∃ x', fromJson w path = .ok x') := by
  obtain ⟨f, hf, hraw⟩ := exists_fields (l := [(txt "index", .int x.index),
    (txt "salt", .str (toHex x.salt)), (txt "row", x.row.toJson),
    (txt "audit_path", .sequence (x.auditPath.map .str))]) path
    (by simp only [List.map_cons, List.map_nil]; decide) h
  simp only [List.forall_mem_cons, same_str, same_int] at hraw
  obtain ⟨hindex, hsalt, hrow, hpath, -⟩ := hraw
  change Fields.ofJson w path fields [] = .ok f at hf
  obtain ⟨hr, hr'⟩ := RowChange.fromJson_of_same (path ++ txt ".row") hrow
  have hhex : isHexOf 64 (toHex x.salt) = true := isHexOf_toHex hx.salt
  have hsalt' := Fields.hex64_eq_ok.mpr ⟨hsalt, hhex⟩
  have hpath' := Fields.hashes_of_raw (same_texts hpath) hx.auditPath
  constructor
  · intro x' hx'
    rw [fromJson, hf, ok_bind, hsalt', ok_bind] at hx'
    obtain ⟨index, hindex', hx'⟩ := bind_eq_ok.mp hx'
    obtain ⟨row, hrow', hx'⟩ := bind_eq_ok.mp hx'
    rw [hpath', ok_bind, Except.ok.injEq] at hx'
    subst hx'
    rw [Fields.integer_eq_ok, hindex, Json.int.injEq] at hindex'
    obtain ⟨rfl, -, -⟩ := hindex'
    obtain ⟨hreadable, hagrees⟩ := hr row hrow'
    exact ⟨hreadable, rfl, by rw [fromHex_toHex]; rfl, hagrees, rfl⟩
  · intro hle hsafe hreadable
    obtain ⟨row, hrow'⟩ := hr' hsafe hreadable
    have hindex' := Fields.integer_eq_ok.mpr ⟨hindex, hx.index, hle⟩
    refine ⟨⟨x.index, (fromHex (toHex x.salt)).getD [], row, x.auditPath⟩, ?_⟩
    rw [fromJson, hf, ok_bind, hsalt', ok_bind, hindex', ok_bind, hrow',
      ok_bind, hpath']
    rfl

end DisclosedRow

/-! ### Disclosures -/

namespace RowDisclosure

/-- Whether a disclosure has a root and rows of a commitment. -/
structure Formed (d : RowDisclosure) : Prop where
  rowRoot : isHexOf 64 d.rowRoot = true
  rowCount : 0 ≤ d.rowCount
  rows : ∀ x ∈ d.rows, x.Formed ∧ x.index < d.rowCount

/-- Whether a disclosure is another, the columns of its images in any order. -/
structure Agrees (d d' : RowDisclosure) : Prop where
  receiptId : d'.receiptId = d.receiptId
  rowRoot : d'.rowRoot = d.rowRoot
  rowCount : d'.rowCount = d.rowCount
  rows : List.Forall₂ DisclosedRow.Agrees d.rows d'.rows

/-- Whether the texts and the count of a disclosure are of the format. -/
structure Readable (d : RowDisclosure) : Prop where
  receiptId : isUuidText d.receiptId = true
  rowCount : d.rowCount ≤ maxSafeInteger
  rows : ∀ x ∈ d.rows, x.row.Readable

variable {d : RowDisclosure}

theorem version_of_raw {f : Fields} {t : Text} (h : f.raw (txt "v") = .str t) :
    f.version t = .ok ⟨⟩ := by
  rw [Fields.version, h]
  simp only [if_true]

/-- What is read of documents of disclosed rows. -/
theorem rows_of_same {xs : List DisclosedRow} {ws : List Json}
    (hxs : ∀ x ∈ xs, x.Formed) (h : List.Forall₂ (fun x w => same x.toJson w = true) xs ws) :
    (∀ xs', ws.zipIdx.mapM (fun p => DisclosedRow.fromJson p.1
        (Fields.itemPath (txt "rows.rows") p.2)) = .ok xs' →
      (∀ x ∈ xs, x.row.Readable) ∧ List.Forall₂ DisclosedRow.Agrees xs xs') ∧
    ((∀ x ∈ xs, x.index ≤ maxSafeInteger ∧ x.row.Safe ∧ x.row.Readable) →
      ∃ xs', ws.zipIdx.mapM (fun p => DisclosedRow.fromJson p.1
        (Fields.itemPath (txt "rows.rows") p.2)) = .ok xs') := by
  generalize 0 = n
  induction h generalizing n with
  | nil =>
    refine ⟨fun xs' h => ?_, fun _ => ⟨[], rfl⟩⟩
    obtain rfl := Except.ok.inj h
    exact ⟨nofun, .nil⟩
  | @cons x w xs ws hw _ ih =>
    obtain ⟨hrest, hrest'⟩ := ih (fun y hy => hxs y (List.mem_cons_of_mem x hy)) (n + 1)
    obtain ⟨hfirst, hfirst'⟩ := DisclosedRow.fromJson_of_same
      (Fields.itemPath (txt "rows.rows") n) (hxs x List.mem_cons_self) hw
    rw [List.zipIdx_cons, List.mapM_cons]
    constructor
    · intro xs' h
      obtain ⟨x', hx', h⟩ := bind_eq_ok.mp h
      obtain ⟨ys, hys, h⟩ := bind_eq_ok.mp h
      obtain rfl := Except.ok.inj h
      obtain ⟨hreadable, hagrees⟩ := hfirst x' hx'
      obtain ⟨hreadables, hagree⟩ := hrest ys hys
      exact ⟨List.forall_mem_cons.mpr ⟨hreadable, hreadables⟩, .cons hagrees hagree⟩
    · intro hall
      obtain ⟨⟨hindex, hsafe, hreadable⟩, hall⟩ := List.forall_mem_cons.mp hall
      obtain ⟨x', hx'⟩ := hfirst' hindex hsafe hreadable
      obtain ⟨ys, hys⟩ := hrest' hall
      exact ⟨x' :: ys, bind_eq_ok.mpr ⟨x', hx', bind_eq_ok.mpr ⟨ys, hys, rfl⟩⟩⟩

/-- Of a document of a disclosure, the disclosure is read where it is of the format. -/
theorem fromJson_of_same {w : Json} (hd : d.Formed) (h : same d.toJson w = true) :
    (∀ d', fromJson w = .ok d' → d.Readable ∧ d.Agrees d') ∧
      ((∀ x ∈ d.rows, x.row.Safe) → d.Readable → ∃ d', fromJson w = .ok d') := by
  obtain ⟨f, hf, hraw⟩ := exists_fields (l := [(txt "v", .str rowsVersion),
    (txt "receipt_id", .str d.receiptId), (txt "row_root", .str d.rowRoot),
    (txt "row_count", .int d.rowCount),
    (txt "rows", .sequence (d.rows.map DisclosedRow.toJson))]) (txt "rows")
    (by simp only [List.map_cons, List.map_nil]; decide) h
  simp only [List.forall_mem_cons, same_str, same_int] at hraw
  obtain ⟨hversion, hid, hroot, hcount, hrows, -⟩ := hraw
  change Fields.ofJson w (txt "rows") fields [] = .ok f at hf
  obtain ⟨ws, harr, hws⟩ := exists_arr hrows
  rw [List.forall₂_map_left_iff] at hws
  have hitems := Fields.array_eq_ok.mpr harr
  have hroot' := Fields.hex64_eq_ok.mpr ⟨hroot, hd.rowRoot⟩
  obtain ⟨hr, hr'⟩ := rows_of_same (fun x hx => (hd.rows x hx).1) hws
  constructor
  · intro d' hd'
    rw [fromJson, hf, ok_bind, version_of_raw hversion, ok_bind, hitems,
      ok_bind] at hd'
    obtain ⟨rows, hrows', hd'⟩ := bind_eq_ok.mp hd'
    obtain ⟨id, hid', hd'⟩ := bind_eq_ok.mp hd'
    rw [hroot', ok_bind] at hd'
    obtain ⟨count, hcount', hd'⟩ := bind_eq_ok.mp hd'
    obtain rfl := Except.ok.inj hd'
    rw [Fields.uuid_eq_ok, hid, Json.str.injEq] at hid'
    rw [Fields.integer_eq_ok, hcount, Json.int.injEq] at hcount'
    obtain ⟨rfl, huuid⟩ := hid'
    obtain ⟨rfl, -, hle⟩ := hcount'
    obtain ⟨hreadable, hagree⟩ := hr rows hrows'
    exact ⟨⟨huuid, hle, hreadable⟩, rfl, rfl, rfl, hagree⟩
  · intro hsafe hreadable
    obtain ⟨rows, hrows'⟩ := hr' fun x hx =>
      ⟨by have := (hd.rows x hx).2; have := hreadable.rowCount; omega, hsafe x hx,
        hreadable.rows x hx⟩
    have hid' := Fields.uuid_eq_ok.mpr ⟨hid, hreadable.receiptId⟩
    have hcount' := Fields.integer_eq_ok.mpr ⟨hcount, hd.rowCount, hreadable.rowCount⟩
    refine ⟨⟨d.receiptId, d.rowRoot, d.rowCount, rows⟩, ?_⟩
    rw [fromJson, hf, ok_bind, version_of_raw hversion, ok_bind, hitems,
      ok_bind, hrows', ok_bind, hid', ok_bind, hroot', ok_bind, hcount']
    rfl

end RowDisclosure

/-! ### Documents that are encoded -/

/-- Whether a text has no lone surrogate. -/
def Plain (t : Text) : Prop := ∀ c ∈ t, Text.isSurrogate c = false

theorem plain_append {s t : Text} (hs : Plain s) (ht : Plain t) : Plain (s ++ t) :=
  fun c hc => (List.mem_append.mp hc).elim (hs c) (ht c)

theorem plain_of_isAscii {t : Text} (h : t.all Text.isAscii = true) : Plain t := by
  intro c hc
  have hlt : c.val < 128 := of_decide_eq_true (List.all_eq_true.mp h c hc)
  rw [Text.isSurrogate, Bool.and_eq_false_iff]
  exact Or.inl (decide_eq_false (by omega))

theorem plain_commas {ps : List Text} (h : ∀ p ∈ ps, Plain p) : Plain (commas ps) := by
  cases ps with
  | nil => exact nofun
  | cons p ps =>
    refine plain_append (h p List.mem_cons_self) fun c hc => ?_
    obtain ⟨q, hq, hc⟩ := List.mem_flatMap.mp hc
    exact plain_append (plain_of_isAscii (by decide)) (h q (List.mem_cons_of_mem p hq)) c hc

/-- A quoted ASCII text is ASCII. -/
theorem plain_quote {t : Text} (h : t.all Text.isAscii = true) : Plain (Json.quote t) := by
  have hquote : Plain (Text.ofString "\"") := plain_of_isAscii (by decide)
  refine plain_append (plain_append hquote (plain_of_isAscii ?_)) hquote
  rw [List.all_eq_true] at h ⊢
  intro c hc
  obtain ⟨d, hd, hc⟩ := List.mem_flatMap.mp hc
  exact Json.isAscii_quoteChar (of_decide_eq_true (h d hd)) hc

/-- Whether the encoding takes a value. -/
def Encoded (v : Datum) : Prop := ∃ bs, canonicalBytesOf v = .ok bs

theorem encoded_iff {v : Datum} :
    Encoded v ↔ ∃ w, orderedOf v = some w ∧ Plain (Json.dump Json.quote w) := by
  have hplain : ∀ t : Text, Plain t ↔ (Text.utf8 t).isSome = true := by
    intro t
    rw [Text.utf8_isSome, List.all_eq_true, Plain]
    exact forall₂_congr fun c _ => by rw [Bool.not_eq_true']
  constructor
  · rintro ⟨bs, h⟩
    obtain ⟨w, hw, hutf⟩ := exists_ordered h
    exact ⟨w, hw, (hplain _).mpr (by rw [hutf]; rfl)⟩
  · rintro ⟨w, hw, hutf⟩
    obtain ⟨bs, hbs⟩ := Option.isSome_iff_exists.mp ((hplain _).mp hutf)
    exact ⟨bs, by simp only [canonicalBytesOf, hw, hbs]⟩

theorem encoded_str {t : Text} (h : t.all Text.isAscii = true) : Encoded (.str t) :=
  encoded_iff.mpr ⟨.str t, rfl, by rw [Json.dump]; exact plain_quote h⟩

theorem encoded_int {n : ℤ} (h : isSafe n = true) : Encoded (.int n) :=
  encoded_iff.mpr ⟨.int n, by rw [orderedOf, if_pos h], by
    rw [Json.dump]
    exact plain_of_isAscii (Json.all_isAscii_intText n)⟩

theorem encoded_sequence {vs : List Datum} (h : ∀ v ∈ vs, Encoded v) : Encoded (.sequence vs) := by
  have hitems : ∃ ws, itemsOf vs = some ws ∧ ∀ w ∈ ws, Plain (Json.dump Json.quote w) := by
    induction vs with
    | nil => exact ⟨[], rfl, nofun⟩
    | cons v vs ih =>
      obtain ⟨w, hw, hplain⟩ := encoded_iff.mp (h v List.mem_cons_self)
      obtain ⟨ws, hws, hplains⟩ := ih fun u hu => h u (List.mem_cons_of_mem v hu)
      refine ⟨w :: ws, ?_, List.forall_mem_cons.mpr ⟨hplain, hplains⟩⟩
      rw [itemsOf, hw, hws]
      rfl
  obtain ⟨ws, hws, hplain⟩ := hitems
  refine encoded_iff.mpr ⟨.arr ws, by rw [orderedOf, hws, Option.map_some], ?_⟩
  rw [dump_arr]
  refine plain_append (plain_append (plain_of_isAscii (by decide)) (plain_commas ?_))
    (plain_of_isAscii (by decide))
  intro p hp
  obtain ⟨w, hw, rfl⟩ := List.mem_map.mp hp
  exact hplain w hw

theorem encoded_mapping {l : List (Text × Datum)}
    (hkeys : ∀ m ∈ l, m.1.all Text.isAscii = true) (h : ∀ m ∈ l, Encoded m.2) :
    Encoded (.mapping (members l)) := by
  have hmembers : ∃ fs, membersOf (members l) = some fs ∧ ∀ f ∈ fs, Plain (memberText f) := by
    induction l with
    | nil => exact ⟨[], rfl, nofun⟩
    | cons m l ih =>
      obtain ⟨w, hw, hplain⟩ := encoded_iff.mp (h m List.mem_cons_self)
      obtain ⟨fs, hfs, hplains⟩ := ih (fun u hu => hkeys u (List.mem_cons_of_mem m hu))
        fun u hu => h u (List.mem_cons_of_mem m hu)
      refine ⟨(m.1, w) :: fs, ?_, List.forall_mem_cons.mpr ⟨?_, hplains⟩⟩
      · rw [members, List.map_cons, membersOf, hw, ← members, hfs]
        rfl
      · exact plain_append (plain_append (plain_quote (hkeys m List.mem_cons_self))
          (plain_of_isAscii (by decide))) hplain
  obtain ⟨fs, hfs, hplain⟩ := hmembers
  refine encoded_iff.mpr ⟨.obj (sortKeys fs), by rw [orderedOf, hfs, Option.map_some], ?_⟩
  rw [dump_obj]
  refine plain_append (plain_append (plain_of_isAscii (by decide)) (plain_commas ?_))
    (plain_of_isAscii (by decide))
  intro p hp
  obtain ⟨f, hf, rfl⟩ := List.mem_map.mp hp
  rw [sortKeys_eq] at hf
  exact hplain f ((perm_sortUnits fs).mem_iff.mp hf)

/-- Of a mapping with an order, every value has one. -/
theorem ordered_of_mapping {l : List (Text × Datum)} {w : Json}
    (h : orderedOf (.mapping (members l)) = some w) {m : Text × Datum} (hm : m ∈ l) :
    ∃ u, orderedOf m.2 = some u := by
  rw [orderedOf, Option.map_eq_some_iff] at h
  obtain ⟨fs, hfs, -⟩ := h
  clear w
  induction l generalizing fs with
  | nil => cases hm
  | cons d l ih =>
    rw [members, List.map_cons, membersOf] at hfs
    obtain ⟨u, hu, hfs⟩ := Option.bind_eq_some_iff.mp hfs
    obtain ⟨gs, hgs, -⟩ := Option.bind_eq_some_iff.mp hfs
    rcases List.mem_cons.mp hm with rfl | hm
    · exact ⟨u, hu⟩
    · exact ih hm gs hgs

/-- A row that is encoded has values the encoding has. -/
theorem RowChange.safe_of_encoded {r : RowChange} (h : Encoded r.toJson) : r.Safe := by
  obtain ⟨w, hw, -⟩ := encoded_iff.mp h
  have himage : ∀ image : Option Image, (∃ u, orderedOf (imageDatum image) = some u) →
      SafeImage image := by
    rintro image ⟨u, hu⟩ i hi s hs
    rw [Option.mem_def] at hi
    subst hi
    obtain ⟨k, hk⟩ := Dict.mem_values_iff.mp hs
    have hmembers : imageDatum (some i) =
        .mapping (members (i.items.map fun p => (p.1, p.2.toDatum))) := by
      rw [imageDatum, members, List.map_map]
      rfl
    rw [hmembers] at hu
    obtain ⟨v, hv⟩ := ordered_of_mapping hu
      (List.mem_map.mpr ⟨(k, s), Dict.get?_eq_some_iff.mp hk, rfl⟩)
    cases s with
    | int n =>
      rw [Scalar.toDatum, orderedOf] at hv
      split_ifs at hv with hsafe
      exact hsafe
    | _ => trivial
  have hvalue := fun m hm => ordered_of_mapping (l := [(txt "table", .str r.table),
    (txt "pk", .str r.pk), (txt "op", .str r.op.text), (txt "tenant", textDatum r.tenant),
    (txt "before", imageDatum r.before), (txt "after", imageDatum r.after)]) hw (m := m) hm
  exact ⟨himage r.before (hvalue (txt "before", imageDatum r.before) (by simp)),
    himage r.after (hvalue (txt "after", imageDatum r.after) (by simp))⟩

end AgentGov.Receipts
