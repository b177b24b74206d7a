import AgentGov.Foundation.Checked
import AgentGov.Foundation.OrderedDict
import AgentGov.Receipts.Canonical

/-!
# Two encoders

The encoder of canonical JSON that hands a value with its keys in order to the C encoder, and the
recursive one it is to agree with, over every Python value
(`src/src/agentgov/receipts/canonical.py`, lines 49–157). Of a value outside the domain what an
error shows of it is kept. The recursion limit of the interpreter is left out.

## Main definitions

* `AgentGov.Receipts.Datum`: a Python value.
* `AgentGov.Receipts.encode`: the recursive encoder.
* `AgentGov.Receipts.orderedOf`, `AgentGov.Receipts.canonicalBytesOf`: the other one.
* `AgentGov.Receipts.same`: whether a value has come back.

## Main results

* `AgentGov.Receipts.canonicalBytesOf_eq_ok`: the encoders agree.
* `AgentGov.Receipts.loadsStrict_canonicalBytesOf`: what is encoded comes back.
* `AgentGov.Receipts.canonicalBytesOf_ofJson`: the encoder is the one of documents.
-/

namespace AgentGov.Receipts

open Foundation

/-! ### Values -/

/-- A key of a mapping. Of one that is not a string, its `repr`. -/
inductive Key
  | str (t : Text)
  | other (shown : Text)
deriving DecidableEq

/-- A Python value. Of one outside the domain, its `repr` or the name of its type. -/
inductive Datum
  | none
  | bool (b : Bool)
  | int (n : ℤ)
  | str (t : Text)
  | mapping (members : List (Key × Datum))
  | sequence (items : List Datum)
  | float (shown : Text)
  | other (typeName : Text)

/-- What an encoder raises. -/
inductive Failure
  /-- `MalformedReceiptError`. -/
  | malformed (message : Text)
  /-- `ValueError`, of an integer with more digits than are shown. -/
  | digits
  /-- `AssertionError`. -/
  | unreachable
deriving DecidableEq

/-- Whether an integer is in the safe range. -/
def isSafe (n : ℤ) : Bool := decide (-maxSafeInteger ≤ n ∧ n ≤ maxSafeInteger)

/-! ### The recursive encoder -/

/-- The first key that is not a string, as `repr` shows it. -/
def foreignKey? (members : List (Key × Datum)) : Option Text :=
  members.findSome? fun m =>
    match m.1 with
    | .str _ => .none
    | .other shown => some shown

/-- Texts with commas in between. -/
def commas : List Text → Text
  | [] => []
  | p :: ps => p ++ ps.flatMap fun q => txt "," ++ q

/-- Members in the order of the UTF-16 units of their keys. -/
def sortUnits {α : Type} (fs : List (Text × α)) : List (Text × α) :=
  fs.insertionSort fun f g => utf16Order f.1 g.1 = true

/-- What is raised of an integer beyond the safe range. -/
def beyond (path : Text) (n : ℤ) : Failure :=
  if Json.maxDigits < (decimalDigits n.natAbs).length then .digits
  else .malformed (path ++ txt ": integer " ++ intText n ++ txt " is outside the safe range " ++
    [177] ++ txt "(2**53 - 1)")

mutual

/-- `_encode`. -/
def encode (path : Text) : Datum → Except Failure Text
  | .none => .ok (txt "null")
  | .bool true => .ok (txt "true")
  | .bool false => .ok (txt "false")
  | .int n => if isSafe n then .ok (intText n) else .error (beyond path n)
  | .str t => .ok (Json.quote t)
  | .mapping members =>
    match foreignKey? members with
    | some shown =>
      .error (.malformed (path ++ txt ": object key " ++ shown ++ txt " is not a string"))
    | .none => do
      let parts ← (sortUnits (encodeMembers path members)).mapM fun m =>
        m.2.map fun text => Json.quote m.1 ++ txt ":" ++ text
      .ok (txt "\x7b" ++ commas parts ++ txt "\x7d")
  | .sequence items => do
    let parts ← encodeItems path 0 items
    .ok (txt "[" ++ commas parts ++ txt "]")
  | .float shown =>
    .error (.malformed (path ++ txt ": " ++ shown ++ txt
      " is a float; ARC1 carries decimals as strings so every verifier reads the same number"))
  | .other typeName =>
    .error (.malformed (path ++ txt ": a " ++ typeName ++ txt " has no canonical JSON encoding"))

/-- The items of an array, from an index on. -/
def encodeItems (path : Text) (index : ℕ) : List Datum → Except Failure (List Text)
  | [] => .ok []
  | v :: vs => do
    let part ← encode (path ++ txt "[" ++ decimalDigits index ++ txt "]") v
    let parts ← encodeItems path (index + 1) vs
    .ok (part :: parts)

/-- What every member of a mapping is encoded to. -/
def encodeMembers (path : Text) : List (Key × Datum) → List (Text × Except Failure Text)
  | [] => []
  | (.str k, v) :: ms => (k, encode (path ++ txt "." ++ k) v) :: encodeMembers path ms
  | (.other _, _) :: ms => encodeMembers path ms

end

/-! ### The encoder over ordered keys -/

/-- `sort` of texts: whether one comes before another by their code points. -/
def codePointOrder (a b : Text) : Bool := unitsLe (a.map Fin.val) (b.map Fin.val)

/-- The members in the order of their keys: of code points where all are ASCII, else of units. -/
def sortKeys {α : Type} (fs : List (Text × α)) : List (Text × α) :=
  if fs.all fun f => f.1.all Text.isAscii then
    fs.insertionSort fun f g => codePointOrder f.1 g.1 = true
  else sortUnits fs

mutual

/-- `_ordered`. Nothing where a value is outside the domain. -/
def orderedOf : Datum → Option Json
  | .none => some .null
  | .bool b => some (.bool b)
  | .str t => some (.str t)
  | .int n => if isSafe n then some (.int n) else .none
  | .mapping members => (membersOf members).map fun fs => .obj (sortKeys fs)
  | .sequence items => (itemsOf items).map .arr
  | .float _ => .none
  | .other _ => .none

/-- Every item, its keys in order. -/
def itemsOf : List Datum → Option (List Json)
  | [] => some []
  | v :: vs => do
    let w ← orderedOf v
    let ws ← itemsOf vs
    some (w :: ws)

/-- Every member, the keys of its value in order. -/
def membersOf : List (Key × Datum) → Option (List (Text × Json))
  | [] => some []
  | (.str k, v) :: ms => do
    let w ← orderedOf v
    let fs ← membersOf ms
    some ((k, w) :: fs)
  | (.other _, _) :: _ => .none

end

/-- What is raised of a text with a lone surrogate. -/
def notUnicode (t : Text) : Failure :=
  .malformed (txt "a string is not valid Unicode (lone surrogate at offset " ++
    decimalDigits (t.findIdx Text.isSurrogate) ++
    txt "); canonical JSON is defined over Unicode text only")

/-- `canonical_bytes`. -/
def canonicalBytesOf (v : Datum) : Except Failure (List Byte) :=
  match orderedOf v with
  | some w =>
    match Text.utf8 (Json.dump Json.quote w) with
    | some bs => .ok bs
    | .none => .error (notUnicode (Json.dump Json.quote w))
  | .none =>
    match encode (txt "$") v with
    | .error failure => .error failure
    | .ok _ => .error .unreachable

/-! ### The orders of keys agree -/

theorem utf16_of_ascii {t : Text} (h : t.all Text.isAscii = true) : t.utf16 = t.map Fin.val := by
  induction t with
  | nil => rfl
  | cons c t ih =>
    rw [List.all_cons, Bool.and_eq_true] at h
    have hc : c.val < 0x80 := of_decide_eq_true h.1
    rw [Text.utf16, List.flatMap_cons, Text.utf16Char, if_pos (by omega)]
    exact congrArg (c.val :: ·) (ih h.2)

/-- Code point order is UTF-16 order for ASCII. -/
theorem utf16Order_of_ascii {s t : Text} (hs : s.all Text.isAscii = true)
    (ht : t.all Text.isAscii = true) : utf16Order s t = codePointOrder s t := by
  rw [utf16Order, utf16_of_ascii hs, utf16_of_ascii ht, codePointOrder]

theorem sortKeys_eq {α : Type} (fs : List (Text × α)) : sortKeys fs = sortUnits fs := by
  rw [sortKeys]
  split_ifs with hascii
  · have hall := List.all_eq_true.mp hascii
    have hmap := List.map_insertionSort (fun f g : Text × α => codePointOrder f.1 g.1 = true)
      (fun f g => utf16Order f.1 g.1 = true) id fs fun f hf g hg =>
        by rw [id, id, utf16Order_of_ascii (hall f hf) (hall g hg)]
    simpa [sortUnits] using hmap
  · rfl

/-- Members that are mapped with their keys kept are sorted alike. -/
theorem sortUnits_map {α β : Type} (f : α → β) (fs : List (Text × α)) :
    sortUnits (fs.map fun m => (m.1, f m.2)) = (sortUnits fs).map fun m => (m.1, f m.2) :=
  (List.map_insertionSort (fun f g : Text × α => utf16Order f.1 g.1 = true)
    (fun f g : Text × β => utf16Order f.1 g.1 = true) (fun m => (m.1, f m.2)) fs
    fun _ _ _ _ => Iff.rfl).symm

theorem perm_sortUnits {α : Type} (fs : List (Text × α)) : (sortUnits fs).Perm fs :=
  List.perm_insertionSort _ fs

/-! ### The encoders agree -/

theorem dump_arr (ws : List Json) : Json.dump Json.quote (.arr ws) =
    txt "[" ++ commas (ws.map (Json.dump Json.quote)) ++ txt "]" := by
  have hitems : ∀ ws : List Json, Json.dumpItems Json.quote ws =
      (ws.map (Json.dump Json.quote)).flatMap (fun q => txt "," ++ q) ++ txt "]" := by
    intro ws
    induction ws with
    | nil => rfl
    | cons w ws ih => simp [Json.dumpItems, ih, txt]
  cases ws with
  | nil => rfl
  | cons w ws => simp [Json.dump, hitems, commas, txt]

/-- A member as it is written. -/
def memberText (m : Text × Json) : Text :=
  Json.quote m.1 ++ txt ":" ++ Json.dump Json.quote m.2

theorem dump_obj (fs : List (Text × Json)) : Json.dump Json.quote (.obj fs) =
    txt "\x7b" ++ commas (fs.map memberText) ++ txt "\x7d" := by
  have hfields : ∀ fs : List (Text × Json), Json.dumpFields Json.quote fs =
      (fs.map memberText).flatMap (fun q => txt "," ++ q) ++ txt "\x7d" := by
    intro fs
    induction fs with
    | nil => rfl
    | cons m fs ih => simp [Json.dumpFields, memberText, ih, txt]
  cases fs with
  | nil => rfl
  | cons m fs => simp [Json.dump, hfields, memberText, commas, txt]

mutual

/-- The recursive encoder writes what the C encoder writes of the value with its keys in order. -/
theorem encode_of_ordered : ∀ (v : Datum) (path : Text) {w : Json}, orderedOf v = some w →
    encode path v = .ok (Json.dump Json.quote w)
  | .none, _, _, h => by
    cases h
    rfl
  | .bool true, _, _, h => by
    cases h
    rfl
  | .bool false, _, _, h => by
    cases h
    rfl
  | .str _, _, _, h => by
    cases h
    rfl
  | .int n, _, _, h => by
    rw [orderedOf] at h
    split_ifs at h with hsafe
    cases h
    rw [encode, if_pos hsafe]
    rfl
  | .float _, _, _, h => by cases h
  | .other _, _, _, h => by cases h
  | .sequence items, path, _, h => by
    rw [orderedOf] at h
    obtain ⟨ws, hws, rfl⟩ := Option.map_eq_some_iff.mp h
    rw [encode, encodeItems_of_ordered items path 0 hws, dump_arr]
    rfl
  | .mapping members, path, _, h => by
    rw [orderedOf] at h
    obtain ⟨fs, hfs, rfl⟩ := Option.map_eq_some_iff.mp h
    obtain ⟨hkeys, hmembers⟩ := encodeMembers_of_ordered members path hfs
    have hparts : (sortUnits (encodeMembers path members)).mapM (fun m =>
        m.2.map fun text => Json.quote m.1 ++ txt ":" ++ text) =
          .ok ((sortUnits fs).map memberText) := by
      rw [hmembers, sortUnits_map (fun w => Except.ok (Json.dump Json.quote w)), mapM_eq_ok,
        List.forall₂_map_left_iff, List.forall₂_map_right_iff, List.forall₂_same]
      exact fun m _ => rfl
    rw [encode, hkeys]
    simp only [hparts, ok_bind]
    rw [dump_obj, sortKeys_eq]

theorem encodeItems_of_ordered : ∀ (vs : List Datum) (path : Text) (index : ℕ) {ws : List Json},
    itemsOf vs = some ws → encodeItems path index vs = .ok (ws.map (Json.dump Json.quote))
  | [], _, _, _, h => by
    cases h
    rfl
  | v :: vs, path, index, _, h => by
    rw [itemsOf] at h
    obtain ⟨w, hw, h⟩ := Option.bind_eq_some_iff.mp h
    obtain ⟨ws, hws, h⟩ := Option.bind_eq_some_iff.mp h
    cases h
    rw [encodeItems, encode_of_ordered v _ hw, encodeItems_of_ordered vs path (index + 1) hws]
    rfl

theorem encodeMembers_of_ordered : ∀ (ms : List (Key × Datum)) (path : Text)
    {fs : List (Text × Json)}, membersOf ms = some fs →
    foreignKey? ms = none ∧ encodeMembers path ms =
      fs.map fun m => (m.1, .ok (Json.dump Json.quote m.2))
  | [], _, _, h => by
    cases h
    exact ⟨rfl, rfl⟩
  | (.str k, v) :: ms, path, _, h => by
    rw [membersOf] at h
    obtain ⟨w, hw, h⟩ := Option.bind_eq_some_iff.mp h
    obtain ⟨fs, hfs, h⟩ := Option.bind_eq_some_iff.mp h
    cases h
    obtain ⟨hkeys, hmembers⟩ := encodeMembers_of_ordered ms path hfs
    refine ⟨hkeys, ?_⟩
    rw [encodeMembers, encode_of_ordered v _ hw, hmembers]
    rfl
  | (.other _, _) :: _, _, _, h => by cases h

end

mutual

/-- The recursive encoder refuses what has no order. -/
theorem encode_of_outside : ∀ (v : Datum) (path : Text), orderedOf v = none →
    ∃ failure, encode path v = .error failure
  | .none, _, h => by cases h
  | .bool _, _, h => by cases h
  | .str _, _, h => by cases h
  | .int n, path, h => by
    rw [orderedOf] at h
    split_ifs at h with hsafe
    exact ⟨beyond path n, by rw [encode, if_neg hsafe]⟩
  | .float _, path, _ => ⟨_, rfl⟩
  | .other _, path, _ => ⟨_, rfl⟩
  | .sequence items, path, h => by
    rw [orderedOf, Option.map_eq_none_iff] at h
    obtain ⟨failure, hfailure⟩ := encodeItems_of_outside items path 0 h
    exact ⟨failure, by rw [encode, hfailure]; rfl⟩
  | .mapping members, path, h => by
    rw [orderedOf, Option.map_eq_none_iff] at h
    rw [encode]
    cases hkeys : foreignKey? members with
    | some shown => exact ⟨_, rfl⟩
    | none =>
      obtain ⟨m, hm, failure, hfailure⟩ := encodeMembers_of_outside members path h hkeys
      cases hparts : (sortUnits (encodeMembers path members)).mapM fun m =>
          m.2.map fun text => Json.quote m.1 ++ txt ":" ++ text with
      | error failure => exact ⟨failure, rfl⟩
      | ok parts =>
        obtain ⟨part, -, hpart⟩ := exists_mem_mapM hparts ((perm_sortUnits _).mem_iff.mpr hm)
        rw [hfailure] at hpart
        cases hpart

theorem encodeItems_of_outside : ∀ (vs : List Datum) (path : Text) (index : ℕ),
    itemsOf vs = none → ∃ failure, encodeItems path index vs = .error failure
  | [], _, _, h => by cases h
  | v :: vs, path, index, h => by
    rw [itemsOf] at h
    rw [encodeItems]
    cases hv : orderedOf v with
    | none =>
      obtain ⟨failure, hfailure⟩ := encode_of_outside v
        (path ++ txt "[" ++ decimalDigits index ++ txt "]") hv
      exact ⟨failure, by rw [hfailure]; rfl⟩
    | some w =>
      have hvs : itemsOf vs = none := by
        cases hws : itemsOf vs with
        | none => rfl
        | some ws =>
          rw [hv, hws] at h
          cases h
      obtain ⟨failure, hfailure⟩ := encodeItems_of_outside vs path (index + 1) hvs
      exact ⟨failure, by rw [encode_of_ordered v _ hv, hfailure]; rfl⟩

theorem encodeMembers_of_outside : ∀ (ms : List (Key × Datum)) (path : Text),
    membersOf ms = none → foreignKey? ms = none →
    ∃ m ∈ encodeMembers path ms, ∃ failure, m.2 = .error failure
  | [], _, h, _ => by cases h
  | (.str k, v) :: ms, path, h, hkeys => by
    rw [membersOf] at h
    rw [encodeMembers]
    cases hv : orderedOf v with
    | none =>
      obtain ⟨failure, hfailure⟩ := encode_of_outside v (path ++ txt "." ++ k) hv
      exact ⟨_, List.mem_cons_self, failure, hfailure⟩
    | some w =>
      have hms : membersOf ms = none := by
        cases hfs : membersOf ms with
        | none => rfl
        | some fs =>
          rw [hv, hfs] at h
          cases h
      obtain ⟨m, hm, failure, hfailure⟩ := encodeMembers_of_outside ms path hms hkeys
      exact ⟨m, List.mem_cons_of_mem _ hm, failure, hfailure⟩
  | (.other _, _) :: _, _, _, hkeys => by cases hkeys

end

/-- What is accepted is what the recursive encoder writes, as UTF-8. -/
theorem canonicalBytesOf_eq_ok {v : Datum} {bs : List Byte} :
    canonicalBytesOf v = .ok bs ↔ ∃ t, encode (txt "$") v = .ok t ∧ Text.utf8 t = some bs := by
  rw [canonicalBytesOf]
  cases hw : orderedOf v with
  | none =>
    obtain ⟨failure, hfailure⟩ := encode_of_outside v (txt "$") hw
    simp [hfailure]
  | some w =>
    rw [encode_of_ordered v _ hw]
    cases hutf : Text.utf8 (Json.dump Json.quote w) with
    | none => simp [hutf]
    | some cs => simp [hutf]

/-! ### What comes back -/

mutual

/-- Whether a document is a value: equal, with the same keys in any order. -/
def same : Datum → Json → Bool
  | .none, .null => true
  | .bool b, .bool c => b == c
  | .int n, .int m => n == m
  | .str s, .str t => s == t
  | .mapping ms, .obj fs => ms.length == fs.length && sameMembers ms fs
  | .sequence vs, .arr ws => sameItems vs ws
  | _, _ => false

/-- Whether items are those of a list. -/
def sameItems : List Datum → List Json → Bool
  | [], [] => true
  | v :: vs, w :: ws => same v w && sameItems vs ws
  | _, _ => false

/-- Whether every member is one of an object. -/
def sameMembers : List (Key × Datum) → List (Text × Json) → Bool
  | [], _ => true
  | (.str k, v) :: ms, fs =>
    (match Dict.assoc fs k with
      | some w => same v w
      | none => false) && sameMembers ms fs
  | (.other _, _) :: _, _ => false

end

mutual

/-- Whether no mapping of a value has a key twice, as none can. -/
def Proper : Datum → Prop
  | .mapping ms => (ms.map Prod.fst).Nodup ∧ ProperMembers ms
  | .sequence vs => ProperItems vs
  | _ => True

def ProperItems : List Datum → Prop
  | [] => True
  | v :: vs => Proper v ∧ ProperItems vs

def ProperMembers : List (Key × Datum) → Prop
  | [] => True
  | (_, v) :: ms => Proper v ∧ ProperMembers ms

end

mutual

/-- How deep the containers of a value are nested. -/
def depth : Datum → ℕ
  | .mapping ms => depthMembers ms + 1
  | .sequence vs => depthItems vs + 1
  | _ => 0

def depthItems : List Datum → ℕ
  | [] => 0
  | v :: vs => max (depth v) (depthItems vs)

def depthMembers : List (Key × Datum) → ℕ
  | [] => 0
  | (_, v) :: ms => max (depth v) (depthMembers ms)

end

theorem keys_of_membersOf : ∀ (ms : List (Key × Datum)) {fs : List (Text × Json)},
    membersOf ms = some fs → ms.map Prod.fst = fs.map fun f => Key.str f.1
  | [], _, h => by
    cases h
    rfl
  | (.str k, v) :: ms, _, h => by
    rw [membersOf] at h
    obtain ⟨w, -, h⟩ := Option.bind_eq_some_iff.mp h
    obtain ⟨fs, hfs, h⟩ := Option.bind_eq_some_iff.mp h
    cases h
    rw [List.map_cons, List.map_cons, keys_of_membersOf ms hfs]
  | (.other _, _) :: _, _, h => by cases h

theorem nodup_of_membersOf {ms : List (Key × Datum)} {fs : List (Text × Json)}
    (hfs : membersOf ms = some fs) (h : (ms.map Prod.fst).Nodup) : (fs.map Prod.fst).Nodup := by
  rw [keys_of_membersOf ms hfs] at h
  exact List.Nodup.of_map Key.str (by rwa [List.map_map])

theorem nodup_sortUnits {fs : List (Text × Json)} (h : (fs.map Prod.fst).Nodup) :
    ((sortUnits fs).map Prod.fst).Nodup :=
  ((perm_sortUnits fs).map Prod.fst).nodup_iff.mpr h

theorem readableMembers_of_forall {room : ℕ} {fs : List (Text × Json)}
    (h : ∀ f ∈ fs, Json.Readable room f.2) : Json.ReadableMembers room fs := by
  induction fs with
  | nil => trivial
  | cons f fs ih =>
    exact ⟨h f List.mem_cons_self, ih fun g hg => h g (List.mem_cons_of_mem f hg)⟩

mutual

/-- A value that is encoded is within the reader's bounds. -/
theorem readable_of_ordered : ∀ (v : Datum) {room : ℕ} {w : Json}, orderedOf v = some w →
    Proper v → depth v ≤ room → Json.Readable room w
  | .none, _, _, h, _, _ => by
    cases h
    trivial
  | .bool _, _, _, h, _, _ => by
    cases h
    trivial
  | .str _, _, _, h, _, _ => by
    cases h
    trivial
  | .int n, _, _, h, _, _ => by
    rw [orderedOf] at h
    split_ifs at h with hsafe
    cases h
    exact length_decimalDigits_of_safe (of_decide_eq_true hsafe)
  | .float _, _, _, h, _, _ => by cases h
  | .other _, _, _, h, _, _ => by cases h
  | .sequence vs, room, _, h, hproper, hdepth => by
    rw [orderedOf] at h
    obtain ⟨ws, hws, rfl⟩ := Option.map_eq_some_iff.mp h
    rw [depth] at hdepth
    exact ⟨by omega, readableItems_of_ordered vs hws hproper (by omega)⟩
  | .mapping ms, room, _, h, hproper, hdepth => by
    rw [orderedOf] at h
    obtain ⟨fs, hfs, rfl⟩ := Option.map_eq_some_iff.mp h
    rw [depth] at hdepth
    rw [sortKeys_eq]
    refine ⟨by omega, nodup_sortUnits (nodup_of_membersOf hfs hproper.1), ?_⟩
    exact readableMembers_of_forall fun f hf =>
      readable_of_members ms hfs hproper.2 (by omega) f ((perm_sortUnits fs).mem_iff.mp hf)

theorem readableItems_of_ordered : ∀ (vs : List Datum) {room : ℕ} {ws : List Json},
    itemsOf vs = some ws → ProperItems vs → depthItems vs ≤ room → Json.ReadableItems room ws
  | [], _, _, h, _, _ => by
    cases h
    trivial
  | v :: vs, room, _, h, hproper, hdepth => by
    rw [itemsOf] at h
    obtain ⟨w, hw, h⟩ := Option.bind_eq_some_iff.mp h
    obtain ⟨ws, hws, h⟩ := Option.bind_eq_some_iff.mp h
    cases h
    rw [depthItems] at hdepth
    exact ⟨readable_of_ordered v hw hproper.1 (by omega),
      readableItems_of_ordered vs hws hproper.2 (by omega)⟩

theorem readable_of_members : ∀ (ms : List (Key × Datum)) {room : ℕ}
    {fs : List (Text × Json)}, membersOf ms = some fs → ProperMembers ms →
    depthMembers ms ≤ room → ∀ f ∈ fs, Json.Readable room f.2
  | [], _, _, h, _, _ => by
    cases h
    exact fun _ hf => absurd hf List.not_mem_nil
  | (.str k, v) :: ms, room, _, h, hproper, hdepth => by
    rw [membersOf] at h
    obtain ⟨w, hw, h⟩ := Option.bind_eq_some_iff.mp h
    obtain ⟨fs, hfs, h⟩ := Option.bind_eq_some_iff.mp h
    cases h
    rw [depthMembers] at hdepth
    intro f hf
    rcases List.mem_cons.mp hf with rfl | hf
    · exact readable_of_ordered v hw hproper.1 (by omega)
    · exact readable_of_members ms hfs hproper.2 (by omega) f hf
  | (.other _, _) :: _, _, _, h, _, _ => by cases h

end

mutual

/-- A value with its keys in order is the value. -/
theorem same_of_ordered : ∀ (v : Datum) {w : Json}, orderedOf v = some w → Proper v →
    same v w = true
  | .none, _, h, _ => by
    cases h
    rfl
  | .bool b, _, h, _ => by
    cases h
    exact beq_self_eq_true b
  | .str t, _, h, _ => by
    cases h
    exact beq_self_eq_true t
  | .int n, _, h, _ => by
    rw [orderedOf] at h
    split_ifs at h
    cases h
    exact beq_self_eq_true n
  | .float _, _, h, _ => by cases h
  | .other _, _, h, _ => by cases h
  | .sequence vs, _, h, hproper => by
    rw [orderedOf] at h
    obtain ⟨ws, hws, rfl⟩ := Option.map_eq_some_iff.mp h
    exact sameItems_of_ordered vs hws hproper
  | .mapping ms, _, h, hproper => by
    rw [orderedOf] at h
    obtain ⟨fs, hfs, rfl⟩ := Option.map_eq_some_iff.mp h
    rw [sortKeys_eq, same, Bool.and_eq_true]
    have hlength := congrArg List.length (keys_of_membersOf ms hfs)
    rw [List.length_map, List.length_map] at hlength
    refine ⟨by rw [(perm_sortUnits fs).length_eq, hlength]; exact beq_self_eq_true _, ?_⟩
    refine sameMembers_of_ordered ms hfs hproper.2 fun f hf => ?_
    exact Dict.assoc_of_mem (nodup_sortUnits (nodup_of_membersOf hfs hproper.1))
      ((perm_sortUnits fs).mem_iff.mpr hf)

theorem sameItems_of_ordered : ∀ (vs : List Datum) {ws : List Json}, itemsOf vs = some ws →
    ProperItems vs → sameItems vs ws = true
  | [], _, h, _ => by
    cases h
    rfl
  | v :: vs, _, h, hproper => by
    rw [itemsOf] at h
    obtain ⟨w, hw, h⟩ := Option.bind_eq_some_iff.mp h
    obtain ⟨ws, hws, h⟩ := Option.bind_eq_some_iff.mp h
    cases h
    rw [sameItems, same_of_ordered v hw hproper.1, sameItems_of_ordered vs hws hproper.2]
    rfl

theorem sameMembers_of_ordered : ∀ (ms : List (Key × Datum)) {fs gs : List (Text × Json)},
    membersOf ms = some fs → ProperMembers ms →
    (∀ f ∈ fs, Dict.assoc gs f.1 = some f.2) → sameMembers ms gs = true
  | [], _, _, _, _, _ => rfl
  | (.str k, v) :: ms, _, gs, h, hproper, hgs => by
    rw [membersOf] at h
    obtain ⟨w, hw, h⟩ := Option.bind_eq_some_iff.mp h
    obtain ⟨fs, hfs, h⟩ := Option.bind_eq_some_iff.mp h
    cases h
    rw [sameMembers, hgs (k, w) List.mem_cons_self, sameMembers_of_ordered ms hfs hproper.2
      fun f hf => hgs f (List.mem_cons_of_mem _ hf)]
    simp only [same_of_ordered v hw hproper.1, Bool.and_self]
  | (.other _, _) :: _, _, _, h, _, _ => by cases h

end

theorem utf8Char_of_val {c : CodePoint} {a : Byte} (h : c.val = a.val) (ha : a.val < 128) :
    Text.utf8Char c = some [a] := by
  have hc : c.val < 0x80 := h ▸ ha
  have hbyte : Fin.ofNat 256 c.val = a := by
    rw [h]
    exact Fin.ext (Nat.mod_eq_of_lt a.isLt)
  rw [Text.utf8Char, if_pos hc, hbyte]

/-- The bytes of a written value start like one. -/
theorem utf8_dump_eq_cons {v : Json} {bs : List Byte}
    (h : Text.utf8 (Json.dump Json.quote v) = some bs) : ∃ a cs, bs = a :: cs ∧ a ∈ Json.heads := by
  obtain ⟨a, c, t, hdump, hhead, hval⟩ := Json.dump_head_mem v
  have hchar := utf8Char_of_val hval
    (of_decide_eq_true (List.all_eq_true.mp
      (by decide : Json.heads.all (fun a => decide (a.val < 128)) = true) a hhead))
  rw [hdump, Text.utf8, hchar] at h
  cases ht : Text.utf8 t with
  | none => simp [ht] at h
  | some cs =>
    simp only [ht, Option.some.injEq] at h
    exact ⟨a, cs, h.symm, hhead⟩

/-- What is accepted has an order, and is the UTF-8 of what is written. -/
theorem exists_ordered {v : Datum} {bs : List Byte} (h : canonicalBytesOf v = .ok bs) :
    ∃ w, orderedOf v = some w ∧ Text.utf8 (Json.dump Json.quote w) = some bs := by
  rw [canonicalBytesOf] at h
  cases hw : orderedOf v with
  | none =>
    rw [hw] at h
    obtain ⟨failure, hfailure⟩ := encode_of_outside v (txt "$") hw
    simp [hfailure] at h
  | some w =>
    rw [hw] at h
    cases hutf : Text.utf8 (Json.dump Json.quote w) with
    | none => simp [hutf] at h
    | some cs =>
      simp only [hutf, Except.ok.injEq] at h
      exact ⟨w, rfl, h ▸ hutf⟩

/-- What is accepted comes back. -/
theorem loadsStrict_canonicalBytesOf {v : Datum} {bs : List Byte} {room : ℕ} (hv : Proper v)
    (hroom : depth v ≤ room) (h : canonicalBytesOf v = .ok bs) :
    ∃ w, loadsStrict room bs = .ok w ∧ same v w = true := by
  obtain ⟨w, hw, hutf⟩ := exists_ordered h
  obtain ⟨a, cs, rfl, ha⟩ := utf8_dump_eq_cons hutf
  have hcodes : ∀ b ∈ a :: cs, 32 ≤ b.val := by
    intro b hb
    by_contra hlt
    obtain ⟨c, hc, hval⟩ := Text.mem_of_mem_utf8 hutf hb (by omega)
    have hle := Json.le_val_dump w c hc
    omega
  refine ⟨w, ?_, same_of_ordered v hw hv⟩
  have htext := Json.decodeText_of_head ha fun b hb => hcodes b (List.mem_cons_of_mem a hb)
  rw [loadsStrict, Json.loadsBytes, htext, Text.utf8Decode_utf8 hutf]
  simp only [Json.loads_dump (readable_of_ordered v hw hv hroom)]

/-- Values of the same bytes are the same. -/
theorem same_of_canonicalBytesOf {v v' : Datum} {bs : List Byte} (hv : Proper v)
    (hv' : Proper v') (h : canonicalBytesOf v = .ok bs) (h' : canonicalBytesOf v' = .ok bs) :
    ∃ w, same v w = true ∧ same v' w = true := by
  obtain ⟨w, hload, hsame⟩ := loadsStrict_canonicalBytesOf hv (le_max_left _ (depth v')) h
  obtain ⟨w', hload', hsame'⟩ := loadsStrict_canonicalBytesOf hv' (le_max_right (depth v) _) h'
  rw [hload, Except.ok.injEq] at hload'
  exact ⟨w, hsame, hload' ▸ hsame'⟩

/-! ### Documents -/

mutual

/-- The Python value that a document is. -/
def ofJson : Json → Datum
  | .null => .none
  | .bool b => .bool b
  | .int n => .int n
  | .str t => .str t
  | .arr vs => .sequence (ofItems vs)
  | .obj fs => .mapping (ofMembers fs)

def ofItems : List Json → List Datum
  | [] => []
  | v :: vs => ofJson v :: ofItems vs

def ofMembers : List (Text × Json) → List (Key × Datum)
  | [] => []
  | (k, v) :: fs => (.str k, ofJson v) :: ofMembers fs

end

theorem insertMember_eq (f : Text × Json) (gs : List (Text × Json)) :
    insertMember f gs = gs.orderedInsert (fun f g => utf16Order f.1 g.1 = true) f := by
  induction gs with
  | nil => rfl
  | cons g gs ih =>
    rw [insertMember, List.orderedInsert_cons, ih]

mutual

/-- A document has the order of `ordered`, just where it is in the domain. -/
theorem orderedOf_ofJson : ∀ v : Json,
    orderedOf (ofJson v) = if inDomain v then some (ordered v) else none
  | .null => rfl
  | .bool _ => rfl
  | .str _ => rfl
  | .int n => rfl
  | .arr vs => by
    rw [ofJson, orderedOf, itemsOf_ofItems vs, inDomain, ordered]
    split_ifs <;> rfl
  | .obj fs => by
    have hmembers := membersOf_ofMembers fs
    rw [ofJson, orderedOf, inDomain, ordered]
    split_ifs at hmembers ⊢ with hdomain
    · obtain ⟨gs, hgs, hsort⟩ := hmembers
      rw [hgs, Option.map_some, sortKeys_eq, hsort]
    · rw [hmembers]
      rfl

theorem itemsOf_ofItems : ∀ vs : List Json,
    itemsOf (ofItems vs) = if itemsInDomain vs then some (orderedItems vs) else none
  | [] => rfl
  | v :: vs => by
    rw [ofItems, itemsOf, orderedOf_ofJson v, itemsOf_ofItems vs, itemsInDomain, orderedItems]
    cases inDomain v <;> cases itemsInDomain vs <;> rfl

theorem membersOf_ofMembers : ∀ fs : List (Text × Json),
    if membersInDomain fs then
      ∃ gs, membersOf (ofMembers fs) = some gs ∧ sortUnits gs = orderedMembers fs
    else membersOf (ofMembers fs) = none
  | [] => ⟨[], rfl, rfl⟩
  | (k, v) :: fs => by
    have hmembers := membersOf_ofMembers fs
    rw [ofMembers, membersOf, orderedOf_ofJson v, membersInDomain, orderedMembers]
    cases hdomain : inDomain v with
    | false => rfl
    | true =>
      cases hfs : membersInDomain fs with
      | false =>
        rw [hfs] at hmembers
        simp only [Bool.false_eq_true, if_false] at hmembers
        simp [hmembers]
      | true =>
        rw [hfs] at hmembers
        simp only [if_true] at hmembers
        obtain ⟨gs, hgs, hsort⟩ := hmembers
        simp only [Bool.and_self, if_true]
        refine ⟨(k, ordered v) :: gs, by simp [hgs], ?_⟩
        rw [insertMember_eq, ← hsort]
        rfl

end

/-- Of a document, both encoders of the development write the same bytes. -/
theorem canonicalBytesOf_ofJson {v : Json} {bs : List Byte} :
    canonicalBytesOf (ofJson v) = .ok bs ↔ canonicalBytes v = .ok bs := by
  rw [canonicalBytesOf, canonicalBytes, orderedOf_ofJson]
  cases hdomain : inDomain v with
  | false =>
    simp only [Bool.false_eq_true, if_false]
    cases encode (txt "$") (ofJson v) <;> simp
  | true =>
    simp only [if_true]
    cases Text.utf8 (Json.dump Json.quote (ordered v)) <;> simp

end AgentGov.Receipts
