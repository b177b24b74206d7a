import AgentGov.Receipts.Extension
import AgentGov.Receipts.Survival

/-!
# A witness never vouches for two histories

Whatever a log's keys have signed, and however the writing of a line or the witness's process ends,
any two cosignatures of one log that a witness returned are of heads one of which extends the
other. What was returned is extended by what the witness remembers, that by the file's last line
of the log, and a file in which a line was written on after a torn one is never read again.

## Main definitions

* `AgentGov.Receipts.Head`, `AgentGov.Receipts.Head.Extends`: heads, and when one is known to
  extend another.
* `AgentGov.Receipts.Garbled`: lines that are never read.
* `AgentGov.Receipts.Event.Honest`, `AgentGov.Receipts.World.HonestRun`: runs in which the logs'
  keys sign heads of histories.
* `AgentGov.Receipts.World.Vouched`: what holds at any point of such a run.

## Main results

* `AgentGov.Receipts.garbled_append`: a line written on after a torn one is never read.
* `AgentGov.Receipts.World.Vouched.step`: one event keeps what holds.
* `AgentGov.Receipts.World.vouches_once`: the theorem about two cosignatures.
-/

namespace AgentGov.Receipts

open Foundation Foundation.Lines

/-! ### Heads -/

/-- What a log signs of itself: its size and its root. -/
structure Head where
  size : ℤ
  root : Text
deriving DecidableEq

/-- The head of a checkpoint. -/
def Checkpoint.head (cp : Checkpoint) : Head := ⟨cp.treeSize, cp.rootHash⟩

/-- The head of a cosignature. -/
def Cosignature.head (c : Cosignature) : Head := ⟨c.treeSize, c.rootHash⟩

namespace Head

variable (hashed : Set (List Byte))

/-- The head is of a history, whose tree's messages are among `hashed`. -/
structure Of (h : Head) (ls : List (List Byte)) : Prop where
  size : h.size = ls.length
  root : h.root = toHex (rootOf ls)
  messages : treeMessages ls ⊆ hashed

/-- The heads are of two histories, the first a prefix of the second. -/
def Extends (a b : Head) : Prop := ∃ ls ms, a.Of hashed ls ∧ b.Of hashed ms ∧ ls <+: ms

variable {hashed} {a b c : Head}

theorem Of.extends {ls : List (List Byte)} (h : a.Of hashed ls) : a.Extends hashed a :=
  ⟨ls, ls, h, h, List.prefix_rfl⟩

theorem toHex_injective : Function.Injective toHex := fun bs cs h => by
  have := congrArg fromHex h
  rwa [fromHex_toHex, fromHex_toHex, Option.some.injEq] at this

/-- A head is of one history. -/
theorem Of.unique (hinj : hashed.InjOn sha256) {ls ms : List (List Byte)} (hl : a.Of hashed ls)
    (hm : a.Of hashed ms) : ls = ms := by
  refine eq_of_rootOf_eq hinj hl.messages hm.messages ?_ ?_
  · exact Nat.cast_inj.mp (hl.size.symm.trans hm.size)
  · exact toHex_injective (hl.root.symm.trans hm.root)

theorem Extends.trans (hinj : hashed.InjOn sha256) (hab : a.Extends hashed b)
    (hbc : b.Extends hashed c) : a.Extends hashed c := by
  obtain ⟨ls, ms, hl, hm, hlm⟩ := hab
  obtain ⟨ms', ns, hm', hn, hmn⟩ := hbc
  obtain rfl := hm.unique hinj hm'
  exact ⟨ls, ns, hl, hn, hlm.trans hmn⟩

/-- An accepted proof shows that one head extends the other. -/
theorem extends_of_check (hinj : hashed.InjOn sha256) {ls ms : List (List Byte)}
    (ha : a.Of hashed ls) (hb : b.Of hashed ms) {old new : List Byte}
    (hold : fromHex a.root = some old) (hnew : fromHex b.root = some new)
    {proof : List (List Byte)} (hmessages : ∀ m ∈ checkMessages a.size b.size old proof, m ∈ hashed)
    (h : verifyConsistency nodeHash emptyRoot a.size b.size old new proof = true) :
    a.Extends hashed b := by
  obtain rfl : rootOf ls = old := by
    rwa [ha.root, fromHex_toHex, Option.some.injEq] at hold
  obtain rfl : rootOf ms = new := by
    rwa [hb.root, fromHex_toHex, Option.some.injEq] at hnew
  rw [ha.size, hb.size] at h hmessages
  exact ⟨ls, ms, ha, hb, prefix_of_check hinj ha.messages hb.messages (fun _ => hmessages) h⟩

/-- Of two heads one of which extends the other, the smaller's history is a prefix. -/
theorem prefix_of_extends (hinj : hashed.InjOn sha256)
    (h : a.Extends hashed b ∨ b.Extends hashed a) (hle : a.size ≤ b.size)
    {ls ms : List (List Byte)} (ha : a.Of hashed ls) (hb : b.Of hashed ms) : ls <+: ms := by
  have hlen : ls.length ≤ ms.length := by
    have h1 := ha.size
    have h2 := hb.size
    omega
  rcases h with ⟨ls', ms', hl, hm, hpre⟩ | ⟨ms', ls', hm, hl, hpre⟩
  · rwa [ha.unique hinj hl, hb.unique hinj hm]
  · obtain rfl := ha.unique hinj hl
    obtain rfl := hb.unique hinj hm
    rw [hpre.eq_of_length_le hlen]

end Head

/-! ### Lines that are never read -/

/-- A line that is never read. -/
def Garbled (line : List Byte) : Prop := ∀ room v, loadsStrict room line ≠ .ok v

/-- What a failed write leaves of a cosignature's line. -/
def Part (p : List Byte) : Prop := p ≠ [] ∧ ∃ c : Cosignature, ∃ q,
  canonicalBytes c.toJson = .ok (p ++ q)

theorem Part.eq_cons {p : List Byte} (h : Part p) : ∃ r, p = 123 :: r := by
  obtain ⟨hne, c, q, hc⟩ := h
  obtain ⟨cs, hcs⟩ := Cosignature.bytes_eq_cons hc
  obtain ⟨x, r, rfl⟩ := List.exists_cons_of_ne_nil hne
  exact ⟨r, by rw [(List.cons.inj hcs).1]⟩

theorem Part.noBreak {p : List Byte} (h : Part p) : ∀ b ∈ p, 32 ≤ b.val := by
  obtain ⟨-, c, q, hc⟩ := h
  exact fun b hb => canonicalBytes_noBreak hc b (List.mem_append_left q hb)

theorem plainKey_logId : Json.PlainKey (txt "log_id") := by
  refine ⟨108, _, rfl, by decide, fun c hc => ?_⟩
  obtain rfl : 108 = c := by simpa using hc
  decide

/-- Parts of lines before a line start an object, and the bytes are no text or one that leaves
the reader stuck. -/
theorem onward_parts {torn : List (List Byte)} (htorn : ∀ p ∈ torn, Part p) {c : Cosignature}
    {bs : List Byte} (h : canonicalBytes c.toJson = .ok bs) :
    (∃ r, torn.flatten ++ bs = 123 :: r) ∧ ∀ t, Text.utf8Decode (torn.flatten ++ bs) = some t →
      Json.Onward t := by
  induction torn with
  | nil =>
    obtain ⟨r, hr⟩ := Cosignature.bytes_eq_cons h
    refine ⟨⟨34 :: r, hr⟩, fun t ht => ?_⟩
    rw [List.flatten_nil, List.nil_append,
      Text.utf8Decode_utf8 (Cosignature.utf8_of_canonicalBytes h)] at ht
    obtain rfl := Option.some.inj ht
    exact Json.onward_dump plainKey_logId _ _
  | cons p torn ih =>
    obtain ⟨⟨r, hr⟩, honward⟩ := ih fun q hq => htorn q (by simp [hq])
    have hp := htorn p (by simp)
    obtain ⟨s, hs⟩ := hp.eq_cons
    rw [List.flatten_cons, List.append_assoc]
    refine ⟨⟨s ++ (torn.flatten ++ bs), by rw [hs]; rfl⟩, fun t ht => ?_⟩
    obtain ⟨-, d, q, hd⟩ := hp
    rcases Text.utf8Decode_torn (Cosignature.utf8_of_canonicalBytes hd) (b := 123) (by decide) r
      with ⟨u, v, hdump, hu⟩ | hnone
    · rw [Text.utf8Decode_append hu] at ht
      obtain ⟨t', ht', rfl⟩ := Option.map_eq_some_iff.mp ht
      exact (honward t' ht').torn plainKey_logId hdump
    · rw [hr, hnone] at ht
      cases ht

/-- A line written on after a torn one is never read. -/
theorem garbled_append {torn : List (List Byte)} (htorn : ∀ p ∈ torn, Part p) (hne : torn ≠ [])
    {c : Cosignature} {bs : List Byte} (h : canonicalBytes c.toJson = .ok bs) :
    Garbled (torn.flatten ++ bs) := by
  intro room v hv
  obtain ⟨p, torn, rfl⟩ := List.exists_cons_of_ne_nil hne
  have hmore : ∀ q ∈ torn, Part q := fun q hq => htorn q (by simp [hq])
  obtain ⟨⟨r, hr⟩, honward⟩ := onward_parts hmore h
  obtain ⟨⟨s, hs⟩, -⟩ := onward_parts htorn h
  have hcodes : ∀ b ∈ (p :: torn).flatten ++ bs, 32 ≤ b.val := by
    intro b hb
    rcases List.mem_append.mp hb with hb | hb
    · obtain ⟨q, hq, hb⟩ := List.mem_flatten.mp hb
      exact (htorn q hq).noBreak b hb
    · exact canonicalBytes_noBreak h b hb
  unfold loadsStrict Json.loadsBytes at hv
  rw [Json.decodeText_of_brace (by rw [hs]; rfl) hcodes, List.flatten_cons,
    List.append_assoc] at hv
  obtain ⟨hpne, d, q, hd⟩ := htorn p (by simp)
  rcases Text.utf8Decode_torn (Cosignature.utf8_of_canonicalBytes hd) (b := 123) (by decide) r
    with ⟨u, w, hdump, hu⟩ | hnone
  · rw [Text.utf8Decode_append hu] at hv
    cases ht : Text.utf8Decode (torn.flatten ++ bs) with
    | none => simp [ht] at hv
    | some t =>
      have hune : u ≠ [] := by
        rintro rfl
        exact hpne (Option.some.inj hu).symm
      have hnot := (honward t ht).loads_torn hdump hune room
      simp only [ht, Option.map_some] at hv
      split at hv
      · rename_i x hx
        exact hnot x hx
      · cases hv
  · rw [hr, hnone] at hv
    cases hv

/-! ### Reading a file of heads -/

/-- The log and the head a cosignature is of. -/
def Cosignature.key (c : Cosignature) : Text × Head := (c.logId, c.head)

/-- The last head of each log, of some in order. -/
def lastHeads (hs : List (Text × Head)) : Dict Text Head := hs.foldl (fun d p => d.set p.1 p.2) ∅

theorem lastHeads_concat (hs : List (Text × Head)) (l : Text) (h : Head) :
    lastHeads (hs ++ [(l, h)]) = (lastHeads hs).set l h := by
  simp [lastHeads]

/-- A line of a cosignature of a head. -/
def LineOf (line : List Byte) (p : Text × Head) : Prop :=
  ∃ c : Cosignature, canonicalBytes c.toJson = .ok line ∧ c.key = p

/-- What is read of a line of a cosignature is of its head. -/
theorem LineOf.key_of_read {line : List Byte} {p : Text × Head} (h : LineOf line p) {path : Text}
    {room number : ℕ} {d : Cosignature} (hd : readCosignature path room number line = .ok d) :
    d.key = p := by
  obtain ⟨c, hc, rfl⟩ := h
  obtain ⟨v, hv, hd⟩ := readCosignature_eq_ok.mp hd
  obtain rfl := Cosignature.loadsStrict_eq hc hv
  obtain ⟨hlog, hsize, hroot⟩ := Cosignature.head_of_fromJson hd
  simp only [Cosignature.key, Cosignature.head, hlog, hsize, hroot]

theorem keys_of_read {lines : List (List Byte)} {hs : List (Text × Head)}
    (h : List.Forall₂ LineOf lines hs) {path : Text} {room number : ℕ} {ds : List Cosignature}
    (hds : readLines path room number lines = .ok ds) : ds.map Cosignature.key = hs := by
  induction h generalizing number ds with
  | nil =>
    obtain rfl := Except.ok.inj hds
    rfl
  | cons hline _ ih =>
    obtain ⟨d, hd, hds⟩ := bind_eq_ok.mp hds
    obtain ⟨ds', hds', hds⟩ := bind_eq_ok.mp hds
    obtain rfl := Except.ok.inj hds
    rw [List.map_cons, hline.key_of_read hd, ih hds']

/-- Where every line was read, none is garbled. -/
theorem not_garbled_of_read {lines : List (List Byte)} {path : Text} {room number : ℕ}
    {ds : List Cosignature} (hds : readLines path room number lines = .ok ds) :
    ∀ line ∈ lines, ¬Garbled line := by
  induction lines generalizing number ds with
  | nil => simp
  | cons line lines ih =>
    obtain ⟨d, hd, hds⟩ := bind_eq_ok.mp hds
    obtain ⟨ds', hds', -⟩ := bind_eq_ok.mp hds
    obtain ⟨v, hv, -⟩ := readCosignature_eq_ok.mp hd
    intro l hl hgarbled
    rcases List.mem_cons.mp hl with rfl | hl
    · exact hgarbled room v hv
    · exact ih hds' l hl hgarbled

theorem admit_eq_ok {s : Settings} {latest latest' : Dict Text Cosignature} {c : Cosignature}
    (h : FileWitness.enter s latest c = .ok latest') : latest' = latest.set c.logId c := by
  unfold FileWitness.enter at h
  split at h
  · cases h
  · cases h
  · split at h
    · exact (Except.ok.inj h).symm
    · split_ifs at h
      exact (Except.ok.inj h).symm

/-- What a witness remembers is of the last heads. -/
structure Remembers (latest : Dict Text Cosignature) (heads : Dict Text Head) : Prop where
  head : ∀ l, (latest.get? l).map Cosignature.head = heads.get? l
  logId : ∀ l c, latest.get? l = some c → c.logId = l

theorem Remembers.set {latest : Dict Text Cosignature} {heads : Dict Text Head}
    (h : Remembers latest heads) (c : Cosignature) :
    Remembers (latest.set c.logId c) (heads.set c.logId c.head) where
  head l := by
    rw [Dict.get?_set, Dict.get?_set]
    split_ifs
    · rfl
    · exact h.head l
  logId l d hd := by
    rw [Dict.get?_set] at hd
    split_ifs at hd with hl
    · obtain rfl := Option.some.inj hd
      exact hl.symm
    · exact h.logId l d hd

theorem Remembers.runAll {s : Settings} {ds : List Cosignature}
    {latest latest' : Dict Text Cosignature} {heads : Dict Text Head}
    (h : Remembers latest heads) (hrun : runAll (FileWitness.enter s) latest ds = .ok latest') :
    Remembers latest' ((ds.map Cosignature.key).foldl (fun d p => d.set p.1 p.2) heads) := by
  induction ds generalizing latest heads with
  | nil =>
    obtain rfl := Except.ok.inj hrun
    exact h
  | cons d ds ih =>
    obtain ⟨next, hnext, hrest⟩ := runAll_cons_eq_ok.mp hrun
    obtain rfl := admit_eq_ok hnext
    exact ih (h.set d) hrest

/-- A witness that was made of lines remembers their last heads. -/
theorem remembers_of_load {s : Settings} {data : List Byte} {fw : FileWitness}
    (h : FileWitness.load s data = .ok fw) :
    (∀ line ∈ readCompleteLines data, ¬Garbled line) ∧
      ∀ hs, List.Forall₂ LineOf (readCompleteLines data) hs →
        Remembers fw.latest (lastHeads hs) := by
  obtain ⟨ds, hds, h⟩ := bind_eq_ok.mp h
  obtain ⟨latest, hrun, h⟩ := bind_eq_ok.mp h
  obtain rfl := Except.ok.inj h
  refine ⟨not_garbled_of_read hds, fun hs hlines => ?_⟩
  have hkeys := keys_of_read hlines hds
  have hempty : Remembers ∅ ∅ := ⟨fun l => by simp, fun l c hc => by simp at hc⟩
  have hfinal := hempty.runAll hrun
  rwa [hkeys] at hfinal

/-! ### Runs -/

/-- The logs' keys sign what the logs sign: a checkpoint that is signed by a key held for its log
is of the head of a history. The messages the check of a proof hashes are among `hashed` too. -/
def Event.Honest (hashed : Set (List Byte)) (w : World) : Event → Prop
  | .restart _ => True
  | .offer cp proof _ _ => ∀ fw ∈ w.witness, ∀ keys, fw.settings.logs.get? cp.logId = some keys →
      cp.verify keys = .ok ⟨⟩ → (∃ ls, cp.head.Of hashed ls) ∧
        ∀ previous, fw.latest.get? cp.logId = some previous →
          ∀ old, fromHex previous.rootHash = some old →
            ∀ m ∈ checkMessages previous.treeSize cp.treeSize old proof, m ∈ hashed

namespace World

/-- The runs whose events are honest where they happen. -/
def HonestRun (hashed : Set (List Byte)) : World → List Event → Prop
  | _, [] => True
  | w, e :: es => e.Honest hashed w ∧ HonestRun hashed (w.step e) es

/-- The file is lines and what failed writes left after them. -/
structure Filed (file : List Byte) (lines torn : List (List Byte)) : Prop where
  file : file = joinLines 10 lines ++ torn.flatten
  parts : ∀ p ∈ torn, Part p
  codes : ∀ line ∈ lines, ∀ b ∈ line, 32 ≤ b.val
  brace : ∀ line ∈ lines, ∃ r, line = 123 :: r

theorem break_notMem_of_codes {bs : List Byte} (h : ∀ b ∈ bs, 32 ≤ b.val) : (10 : Byte) ∉ bs :=
  fun hmem => absurd (h 10 hmem) (by decide)

section

variable {file : List Byte} {lines torn : List (List Byte)}

theorem Filed.codes_torn (h : Filed file lines torn) : ∀ b ∈ torn.flatten, 32 ≤ b.val := by
  intro b hb
  obtain ⟨p, hp, hb⟩ := List.mem_flatten.mp hb
  exact (h.parts p hp).noBreak b hb

theorem Filed.complete_eq (h : Filed file lines torn) : complete 10 file = joinLines 10 lines := by
  rw [h.file, complete_join _ (break_notMem_of_codes h.codes_torn)]

theorem Filed.readCompleteLines_eq (h : Filed file lines torn) : readCompleteLines file = lines := by
  rw [h.file]
  refine readCompleteLines_join (fun l hl => break_notMem_of_codes (h.codes l hl)) (fun l hl => ?_)
    (break_notMem_of_codes h.codes_torn)
  obtain ⟨r, rfl⟩ := h.brace l hl
  exact ⟨123, by simp, by decide⟩

variable {c : Cosignature} {bs : List Byte}

/-- A line joins what failed writes left. -/
theorem Filed.append_line (h : Filed file lines torn) (hbs : canonicalBytes c.toJson = .ok bs) :
    Filed (file ++ (bs ++ [10])) (lines ++ [torn.flatten ++ bs]) [] where
  file := by
    rw [h.file, joinLines_concat]
    simp
  parts := by simp
  codes line hline b hb := by
    rcases List.mem_append.mp hline with hline | hline
    · exact h.codes line hline b hb
    · obtain rfl := List.mem_singleton.mp hline
      rcases List.mem_append.mp hb with hb | hb
      · exact h.codes_torn b hb
      · exact canonicalBytes_noBreak hbs b hb
  brace line hline := by
    rcases List.mem_append.mp hline with hline | hline
    · exact h.brace line hline
    · exact List.mem_singleton.mp hline ▸ (onward_parts h.parts hbs).1

/-- A part of a line joins what failed writes left. -/
theorem Filed.append_part (h : Filed file lines torn) (hbs : canonicalBytes c.toJson = .ok bs)
    {n : ℕ} (hn : n ≤ bs.length) : ∃ torn', Filed (file ++ (bs ++ [10]).take n) lines torn' := by
  rw [List.take_append_of_le_length hn]
  rcases eq_or_ne (bs.take n) [] with hnil | hne
  · exact ⟨torn, by rw [hnil, List.append_nil]; exact h⟩
  · refine ⟨torn ++ [bs.take n], ?_, ?_, h.codes, h.brace⟩
    · rw [h.file]
      simp
    · intro p hp
      rcases List.mem_append.mp hp with hp | hp
      · exact h.parts p hp
      · obtain rfl := List.mem_singleton.mp hp
        exact ⟨hne, c, bs.drop n, by rw [List.take_append_drop]; exact hbs⟩

end

/-- The last heads of the file extend all that was returned and all that is remembered. -/
structure Backed (hashed : Set (List Byte)) (heads : Dict Text Head) (w : World) : Prop where
  history : ∀ l h, heads.get? l = some h → ∃ ls, h.Of hashed ls
  returned : ∀ c ∈ w.returned, ∃ h, heads.get? c.logId = some h ∧ c.head.Extends hashed h
  memory : ∀ fw ∈ w.witness, ∀ l d, fw.latest.get? l = some d →
    ∃ h, heads.get? l = some h ∧ d.head.Extends hashed h

/-- The file is never read again, or its last heads extend all else. -/
def Recorded (hashed : Set (List Byte)) (w : World) (lines : List (List Byte)) : Prop :=
  (∃ line ∈ lines, Garbled line) ∨
    ∃ hs, List.Forall₂ LineOf lines hs ∧ Backed hashed (lastHeads hs) w

/-- What a witness remembers is of histories, and extends all that was returned. -/
structure Ahead (hashed : Set (List Byte)) (returned : List Cosignature)
    (latest : Dict Text Cosignature) : Prop where
  logId : ∀ l d, latest.get? l = some d → d.logId = l
  history : ∀ l d, latest.get? l = some d → ∃ ls, d.head.Of hashed ls
  returned : ∀ c ∈ returned, ∃ d, latest.get? c.logId = some d ∧ c.head.Extends hashed d.head

/-- What holds at any point of an honest run. -/
structure Vouched (hashed : Set (List Byte)) (w : World) (lines torn : List (List Byte)) :
    Prop where
  filed : Filed w.file lines torn
  recorded : Recorded hashed w lines
  ahead : ∀ fw ∈ w.witness, Ahead hashed w.returned fw.latest
  pairs : ∀ c ∈ w.returned, ∀ d ∈ w.returned, c.logId = d.logId →
    c.head.Extends hashed d.head ∨ d.head.Extends hashed c.head

variable {hashed : Set (List Byte)} {w : World} {lines torn : List (List Byte)}

theorem vouched_fresh (hashed : Set (List Byte)) : Vouched hashed fresh [] [] where
  filed := ⟨rfl, by simp, by simp, by simp⟩
  recorded := Or.inr ⟨[], List.Forall₂.nil, by simp [lastHeads], by simp [fresh], by simp [fresh]⟩
  ahead := by simp [fresh]
  pairs := by simp [fresh]

/-- One more cosignature is returned, whose head extends those of its log. -/
theorem comparable_append {cs : List Cosignature} {c : Cosignature}
    (h : ∀ a ∈ cs, ∀ b ∈ cs, a.logId = b.logId →
      a.head.Extends hashed b.head ∨ b.head.Extends hashed a.head)
    (hbefore : ∀ a ∈ cs, a.logId = c.logId → a.head.Extends hashed c.head)
    (hself : c.head.Extends hashed c.head) : ∀ a ∈ cs ++ [c], ∀ b ∈ cs ++ [c],
      a.logId = b.logId → a.head.Extends hashed b.head ∨ b.head.Extends hashed a.head := by
  intro a ha b hb hlog
  simp only [List.mem_append, List.mem_singleton] at ha hb
  rcases ha with ha | rfl
  · rcases hb with hb | rfl
    · exact h a ha b hb hlog
    · exact Or.inl (hbefore a ha hlog)
  · rcases hb with hb | rfl
    · exact Or.inr (hbefore b hb hlog.symm)
    · exact Or.inl hself

/-- What was cosigned before is returned again. -/
theorem Vouched.return_held (h : Vouched hashed w lines torn) {fw : FileWitness}
    (hw : w.witness = some fw) {l : Text} {c : Cosignature} (hc : fw.latest.get? l = some c) :
    Vouched hashed { w with returned := w.returned ++ [c] } lines torn := by
  have hahead := h.ahead fw hw
  obtain rfl := hahead.logId l c hc
  obtain ⟨ls, hls⟩ := hahead.history _ c hc
  have hself := hls.extends
  have hbefore : ∀ a ∈ w.returned, a.logId = c.logId → a.head.Extends hashed c.head := by
    intro a ha hlog
    obtain ⟨d, hd, hext⟩ := hahead.returned a ha
    rw [hlog, hc, Option.some.injEq] at hd
    exact hd ▸ hext
  refine ⟨h.filed, ?_, ?_, ?_⟩
  · refine h.recorded.imp_right fun ⟨hs, hlines, hbacked⟩ => ⟨hs, hlines, hbacked.history, ?_,
      hbacked.memory⟩
    intro a ha
    rcases List.mem_append.mp ha with ha | ha
    · exact hbacked.returned a ha
    · obtain rfl := List.mem_singleton.mp ha
      exact hbacked.memory fw hw _ _ hc
  · intro fw' hfw'
    obtain rfl : fw = fw' := Option.some.inj (hw.symm.trans hfw')
    refine ⟨hahead.logId, hahead.history, fun a ha => ?_⟩
    rcases List.mem_append.mp ha with ha | ha
    · exact hahead.returned a ha
    · obtain rfl := List.mem_singleton.mp ha
      exact ⟨a, hc, hself⟩
  · exact comparable_append h.pairs hbefore hself

/-- A line is written whole: unless the file is never read again, its last head of the log is the
line's. -/
theorem Vouched.recorded_line (h : Vouched hashed w lines torn) {c : Cosignature} {bs : List Byte}
    (hbs : canonicalBytes c.toJson = .ok bs) (hhistory : ∃ ls, c.head.Of hashed ls)
    (hreturned : ∀ a ∈ w.returned, a.logId = c.logId → a.head.Extends hashed c.head)
    (hmemory : ∀ fw ∈ w.witness, ∀ d, fw.latest.get? c.logId = some d →
      d.head.Extends hashed c.head) :
    (∃ line ∈ lines ++ [torn.flatten ++ bs], Garbled line) ∨
      ∃ hs, List.Forall₂ LineOf (lines ++ [torn.flatten ++ bs]) hs ∧
        Backed hashed (lastHeads hs) w ∧ (lastHeads hs).get? c.logId = some c.head := by
  rcases h.recorded with ⟨line, hline, hgarbled⟩ | ⟨hs, hlines, hbacked⟩
  · exact Or.inl ⟨line, List.mem_append_left _ hline, hgarbled⟩
  rcases eq_or_ne torn [] with rfl | hne
  swap
  · exact Or.inl ⟨_, List.mem_append_right _ (by simp), garbled_append h.filed.parts hne hbs⟩
  have hget : ∀ l, (lastHeads (hs ++ [(c.logId, c.head)])).get? l =
      if l = c.logId then some c.head else (lastHeads hs).get? l := by
    intro l
    rw [lastHeads_concat, Dict.get?_set]
  refine Or.inr ⟨hs ++ [(c.logId, c.head)], ?_, ⟨?_, ?_, ?_⟩, by rw [hget, if_pos rfl]⟩
  · exact List.rel_append hlines (List.Forall₂.cons ⟨c, hbs, rfl⟩ List.Forall₂.nil)
  · intro l h' hl
    rw [hget] at hl
    split_ifs at hl
    · exact Option.some.inj hl ▸ hhistory
    · exact hbacked.history l h' hl
  · intro a ha
    rw [hget]
    split_ifs with hl
    · exact ⟨_, rfl, hreturned a ha hl⟩
    · exact hbacked.returned a ha
  · intro fw hfw l d hd
    rw [hget]
    split_ifs with hl
    · exact ⟨_, rfl, hmemory fw hfw d (hl ▸ hd)⟩
    · exact hbacked.memory fw hfw l d hd

/-- A line is written, or a part of it. -/
theorem Vouched.append (h : Vouched hashed w lines torn) {fw : FileWitness}
    (hw : w.witness = some fw) {c : Cosignature} {bs : List Byte} (hinj : hashed.InjOn sha256)
    (hbs : canonicalBytes c.toJson = .ok bs) (hhistory : ∃ ls, c.head.Of hashed ls)
    (hprevious : ∀ d, fw.latest.get? c.logId = some d → d.head.Extends hashed c.head)
    (writing : Writing) :
    ∃ lines' torn', Vouched hashed (w.append fw c (bs ++ [10]) writing) lines' torn' := by
  have hahead := h.ahead fw hw
  obtain ⟨ls, hls⟩ := hhistory
  have hself := hls.extends
  have hreturned : ∀ a ∈ w.returned, a.logId = c.logId → a.head.Extends hashed c.head := by
    intro a ha hlog
    obtain ⟨d, hd, hext⟩ := hahead.returned a ha
    exact hext.trans hinj (hprevious d (hlog ▸ hd))
  have hline := h.recorded_line hbs ⟨ls, hls⟩ hreturned fun fw' hfw' d hd => by
    obtain rfl : fw = fw' := Option.some.inj (hw.symm.trans hfw')
    exact hprevious d hd
  have hfiled := h.filed.append_line hbs
  have hkept : Recorded hashed w (lines ++ [torn.flatten ++ bs]) :=
    hline.imp_right fun ⟨hs, hlines, hbacked, _⟩ => ⟨hs, hlines, hbacked⟩
  -- what is left of a line, if not all, changes nothing that is read
  have hpart : ∀ n, (∃ lines' torn', Filed (w.file ++ (bs ++ [10]).take n) lines' torn' ∧
      Recorded hashed w lines') := by
    intro n
    by_cases hn : n ≤ bs.length
    · obtain ⟨torn', hfiled'⟩ := h.filed.append_part hbs hn
      exact ⟨lines, torn', hfiled', h.recorded⟩
    · rw [List.take_of_length_le (by simp; omega)]
      exact ⟨_, _, hfiled, hkept⟩
  cases writing with
  | completes =>
    refine ⟨_, _, hfiled, ?_, ?_, comparable_append h.pairs hreturned hself⟩
    · refine hline.imp_right fun ⟨hs, hlines, hbacked, hlast⟩ =>
        ⟨hs, hlines, hbacked.history, ?_, ?_⟩
      · intro a ha
        rcases List.mem_append.mp ha with ha | ha
        · exact hbacked.returned a ha
        · obtain rfl := List.mem_singleton.mp ha
          exact ⟨_, hlast, hself⟩
      · intro fw' hfw' l d hd
        obtain rfl := Option.some.inj hfw'
        rw [Dict.get?_set] at hd
        split_ifs at hd with hl
        · obtain rfl := Option.some.inj hd
          exact ⟨_, hl ▸ hlast, hself⟩
        · exact hbacked.memory fw hw l d hd
    · intro fw' hfw'
      obtain rfl := Option.some.inj hfw'
      refine ⟨fun l d hd => ?_, fun l d hd => ?_, fun a ha => ?_⟩
      · rw [Dict.get?_set] at hd
        split_ifs at hd with hl
        · exact Option.some.inj hd ▸ hl.symm
        · exact hahead.logId l d hd
      · rw [Dict.get?_set] at hd
        split_ifs at hd with hl
        · exact Option.some.inj hd ▸ ⟨ls, hls⟩
        · exact hahead.history l d hd
      · rw [Dict.get?_set]
        rcases List.mem_append.mp ha with ha | ha
        · split_ifs with hl
          · exact ⟨c, rfl, hreturned a ha hl⟩
          · exact hahead.returned a ha
        · obtain rfl := List.mem_singleton.mp ha
          exact ⟨a, by simp, hself⟩
  | fails n =>
    obtain ⟨lines', torn', hfiled', hrecorded⟩ := hpart n
    refine ⟨lines', torn', hfiled', ?_, h.ahead, h.pairs⟩
    exact hrecorded.imp_right fun ⟨hs, hlines, hb⟩ =>
      ⟨hs, hlines, hb.history, hb.returned, hb.memory⟩
  | stops n =>
    obtain ⟨lines', torn', hfiled', hrecorded⟩ := hpart n
    refine ⟨lines', torn', hfiled', ?_, by simp [World.append], h.pairs⟩
    exact hrecorded.imp_right fun ⟨hs, hlines, hb⟩ =>
      ⟨hs, hlines, hb.history, hb.returned, by simp [World.append]⟩

/-- An honest call keeps what holds. -/
theorem Vouched.offer (h : Vouched hashed w lines torn) (hinj : hashed.InjOn sha256)
    {cp : Checkpoint} {proof : List (List Byte)} {clock : Instant} {writing : Writing}
    (hhonest : (Event.offer cp proof clock writing).Honest hashed w) :
    ∃ lines' torn', Vouched hashed (w.offer cp proof clock writing) lines' torn' := by
  cases hw : w.witness with
  | none => exact ⟨lines, torn, (offer_of_none hw).symm ▸ h⟩
  | some fw =>
    cases hj : fw.judge cp proof clock with
    | error e => exact ⟨lines, torn, (offer_of_error hw hj).symm ▸ h⟩
    | ok j =>
      obtain ⟨keys, root, hkeys, hverify, hroot, hcase⟩ := FileWitness.judge_eq_ok hj
      obtain ⟨hhistory, hmessages⟩ := hhonest fw hw keys hkeys hverify
      have hattest : (∃ c, j = .held c ∧ fw.latest.get? cp.logId = some c) ∨
          (fw.attest cp clock = .ok j ∧ ∀ d, fw.latest.get? cp.logId = some d →
            d.head.Extends hashed cp.head) := by
        rcases hcase with ⟨hnone, ha⟩ | ⟨previous, hp, ⟨-, -, hheld⟩ | ⟨old, -, hold, hcheck, ha⟩⟩
        · exact Or.inr ⟨ha, fun d hd => by rw [hnone] at hd; cases hd⟩
        · exact Or.inl ⟨previous, hheld, hp⟩
        · refine Or.inr ⟨ha, fun d hd => ?_⟩
          obtain rfl : previous = d := Option.some.inj (hp.symm.trans hd)
          obtain ⟨ls, hls⟩ := (h.ahead fw hw).history _ _ hp
          obtain ⟨ms, hms⟩ := hhistory
          exact Head.extends_of_check hinj hls hms hold hroot (hmessages previous hp old hold)
            hcheck
      rcases hattest with ⟨c, rfl, hc⟩ | ⟨hattest, hprevious⟩
      · rw [offer_of_held hw hj]
        exact ⟨lines, torn, h.return_held hw hc⟩
      · obtain ⟨c, bs, hsign, hbs, rfl⟩ := FileWitness.attest_eq_ok hattest
        obtain ⟨message, -, hsign⟩ := bind_eq_ok.mp hsign
        obtain rfl := Except.ok.inj hsign
        rw [offer_of_fresh hw hj]
        exact h.append hw hinj hbs hhistory hprevious writing

/-- A restart takes over what the file's last lines say, or no witness is made. -/
theorem Vouched.restart (h : Vouched hashed w lines torn) (s : Settings) :
    ∃ torn', Vouched hashed (w.restart s) lines torn' := by
  have hgone : ∀ {file torn'}, Filed file lines torn' →
      Vouched hashed { w with file := file, witness := none } lines torn' := by
    intro file torn' hfiled
    refine ⟨hfiled, ?_, by simp, h.pairs⟩
    rcases h.recorded with hgarbled | ⟨hs, hlines, hb⟩
    · exact Or.inl hgarbled
    · exact Or.inr ⟨hs, hlines, hb.history, hb.returned, by simp⟩
  have hcut : Filed (complete 10 w.file) lines [] :=
    ⟨by rw [h.filed.complete_eq]; simp, by simp, h.filed.codes, h.filed.brace⟩
  by_cases hversion : s.version = 1 ∨ s.version = 2
  swap
  · refine ⟨torn, ?_⟩
    rw [World.restart, if_neg hversion]
    exact hgone h.filed
  refine ⟨[], ?_⟩
  rw [World.restart, if_pos hversion]
  cases hload : FileWitness.load s w.file with
  | error e => exact hgone hcut
  | ok fw =>
    obtain ⟨hread, hremembers⟩ := remembers_of_load hload
    rw [h.filed.readCompleteLines_eq] at hread hremembers
    obtain ⟨hs, hlines, hbacked⟩ := h.recorded.resolve_left <| by
      rintro ⟨line, hline, hgarbled⟩
      exact hread line hline hgarbled
    have hrem := hremembers hs hlines
    have hhead : ∀ l d, fw.latest.get? l = some d → (lastHeads hs).get? l = some d.head := by
      intro l d hd
      rw [← hrem.head l, hd, Option.map_some]
    have hhistory : ∀ l d, fw.latest.get? l = some d → ∃ ls, d.head.Of hashed ls :=
      fun l d hd => hbacked.history l _ (hhead l d hd)
    refine ⟨hcut, Or.inr ⟨hs, hlines, hbacked.history, hbacked.returned, ?_⟩, ?_, h.pairs⟩
    · intro fw' hfw' l d hd
      obtain rfl := Option.some.inj hfw'
      obtain ⟨ls, hls⟩ := hhistory l d hd
      exact ⟨_, hhead l d hd, hls.extends⟩
    · intro fw' hfw'
      obtain rfl := Option.some.inj hfw'
      refine ⟨hrem.logId, hhistory, fun a ha => ?_⟩
      obtain ⟨head, hget, hext⟩ := hbacked.returned a ha
      rw [← hrem.head, Option.map_eq_some_iff] at hget
      obtain ⟨d, hd, rfl⟩ := hget
      exact ⟨d, hd, hext⟩

/-- One honest event keeps what holds. -/
theorem Vouched.step (h : Vouched hashed w lines torn) (hinj : hashed.InjOn sha256) {e : Event}
    (hhonest : e.Honest hashed w) : ∃ lines' torn', Vouched hashed (w.step e) lines' torn' := by
  cases e with
  | offer cp proof clock writing => exact h.offer hinj hhonest
  | restart s => exact ⟨lines, h.restart s⟩

theorem Vouched.run (h : Vouched hashed w lines torn) (hinj : hashed.InjOn sha256)
    {es : List Event} (hhonest : HonestRun hashed w es) :
    ∃ lines' torn', Vouched hashed (w.run es) lines' torn' := by
  induction es generalizing w lines torn with
  | nil => exact ⟨lines, torn, h⟩
  | cons e es ih =>
    obtain ⟨lines', torn', hstep⟩ := h.step hinj hhonest.1
    exact ih hstep hhonest.2

/-- **A witness never vouches for two histories.** In a run in which the logs' keys sign heads of
histories, whatever is offered and however writes fail and processes end, any two cosignatures of
one log that were returned are of heads of histories, that of the smaller a prefix of that of the
larger, and equal sizes have equal roots. -/
theorem vouches_once (hinj : hashed.InjOn sha256) {es : List Event}
    (hhonest : HonestRun hashed fresh es) {c d : Cosignature} (hc : c ∈ (fresh.run es).returned)
    (hd : d ∈ (fresh.run es).returned) (hlog : c.logId = d.logId)
    (hsize : c.treeSize ≤ d.treeSize) :
    (∃ ls ms, c.head.Of hashed ls ∧ d.head.Of hashed ms) ∧
      (∀ ls ms, c.head.Of hashed ls → d.head.Of hashed ms → ls <+: ms) ∧
      (c.treeSize = d.treeSize → c.rootHash = d.rootHash) := by
  obtain ⟨lines, torn, h⟩ := (vouched_fresh hashed).run hinj hhonest
  have hpair := h.pairs c hc d hd hlog
  have hbefore : ∀ ls ms, c.head.Of hashed ls → d.head.Of hashed ms → ls <+: ms :=
    fun ls ms hl hm => Head.prefix_of_extends hinj hpair hsize hl hm
  obtain ⟨ls, ms, hl, hm⟩ : ∃ ls ms, c.head.Of hashed ls ∧ d.head.Of hashed ms := by
    rcases hpair with ⟨ls, ms, hl, hm, -⟩ | ⟨ms, ls, hm, hl, -⟩
    · exact ⟨ls, ms, hl, hm⟩
    · exact ⟨ls, ms, hl, hm⟩
  refine ⟨⟨ls, ms, hl, hm⟩, hbefore, fun heq => ?_⟩
  have hlen : ls.length = ms.length := by
    have h1 : c.treeSize = ls.length := hl.size
    have h2 : d.treeSize = ms.length := hm.size
    omega
  have hroot : c.head.root = d.head.root := by
    rw [hl.root, hm.root, (hbefore ls ms hl hm).eq_of_length hlen]
  exact hroot

/-- A signed checkpoint of the sample log. -/
def sampleHead (size : ℤ) (root : List Byte) : Checkpoint :=
  let cp : Checkpoint := ⟨txt "log", size, toHex root, sampleInstant, none⟩
  (cp.sign sampleKey.signer 1).toOption.getD cp

/-- The messages of the trees of one and of two leaves. -/
def sampleMessages : Set (List Byte) :=
  {[0, 1], [0, 2], nodeMessage (leafHash [1], leafHash [2])}

/-- A log of one leaf grows to two, and a witness cosigns both heads. -/
def sampleGrowth : List Event :=
  [.restart sampleSettings, .offer (sampleHead 1 (leafHash [1])) [] sampleInstant .completes,
    .offer (sampleHead 2 (nodeHash (leafHash [1]) (leafHash [2]))) [leafHash [2]] sampleInstant
      .completes]

theorem sampleMessages_injOn : sampleMessages.InjOn sha256 := by
  have h12 : sha256 [0, 1] ≠ sha256 [0, 2] := by decide
  have h13 : sha256 [0, 1] ≠ sha256 (nodeMessage (leafHash [1], leafHash [2])) := by decide
  have h23 : sha256 [0, 2] ≠ sha256 (nodeMessage (leafHash [1], leafHash [2])) := by decide
  rintro a (rfl | rfl | rfl) b (rfl | rfl | rfl) h
  · rfl
  · exact absurd h h12
  · exact absurd h h13
  · exact absurd h.symm h12
  · rfl
  · exact absurd h h23
  · exact absurd h.symm h13
  · exact absurd h.symm h23
  · rfl

theorem sampleHead_one : (sampleHead 1 (leafHash [1])).head.Of sampleMessages [[1]] where
  size := by decide +kernel
  root := by
    rw [rootOf, List.map_singleton, Foundation.Merkle.mth_singleton]
    decide +kernel
  messages := by
    rintro m (⟨l, hl, rfl⟩ | ⟨p, hp, rfl⟩)
    · obtain rfl := List.mem_singleton.mp hl
      exact Or.inl rfl
    · simp [Foundation.Merkle.pairs] at hp

theorem sampleHead_two : (sampleHead 2 (nodeHash (leafHash [1]) (leafHash [2]))).head.Of
    sampleMessages [[1], [2]] where
  size := by decide +kernel
  root := by
    rw [rootOf, Foundation.Merkle.mth_split _ _ (by simp)]
    have hsplit : Foundation.Merkle.split ([[1], [2]].map leafHash).length = 1 := by decide
    rw [hsplit]
    simp only [List.map_cons, List.map_nil, List.take_succ_cons, List.take_zero,
      List.drop_succ_cons, List.drop_zero, Foundation.Merkle.mth_singleton]
    decide +kernel
  messages := by
    rintro m (⟨l, hl, rfl⟩ | ⟨p, hp, rfl⟩)
    · rcases List.mem_cons.mp hl with rfl | hl
      · exact Or.inl rfl
      · obtain rfl := List.mem_singleton.mp hl
        exact Or.inr (Or.inl rfl)
    · have hsplit : Foundation.Merkle.split ([[1], [2]].map leafHash).length = 1 := by decide
      rw [Foundation.Merkle.pairs_split _ _ (by simp), hsplit] at hp
      simp [Foundation.Merkle.pairs] at hp
      exact Or.inr (Or.inr (by rw [hp]; rfl))

theorem vouches_once_sampleGrowth : ∃ c ∈ (fresh.run sampleGrowth).returned,
    ∃ d ∈ (fresh.run sampleGrowth).returned, c.treeSize < d.treeSize ∧
      ∀ ls ms, c.head.Of sampleMessages ls → d.head.Of sampleMessages ms → ls <+: ms := by
  have hfirst : ((fresh.step (.restart sampleSettings)).witness.bind fun fw =>
      fw.latest.get? (txt "log")) = none := by decide
  have hsecond : ((((fresh.step (.restart sampleSettings)).step (.offer (sampleHead 1
      (leafHash [1])) [] sampleInstant .completes)).witness.bind fun fw =>
        fw.latest.get? (txt "log")).map fun c => (c.treeSize, c.rootHash)) =
      some (1, toHex (leafHash [1])) := by decide +kernel
  have hlog : (sampleHead 1 (leafHash [1])).logId = txt "log" ∧
      (sampleHead 2 (nodeHash (leafHash [1]) (leafHash [2]))).logId = txt "log" ∧
      (sampleHead 2 (nodeHash (leafHash [1]) (leafHash [2]))).treeSize = 2 := by decide +kernel
  have hchecked : checkMessages 1 2 (leafHash [1]) [leafHash [2]] =
      [nodeMessage (leafHash [1], leafHash [2])] := by decide
  have hhonest : HonestRun sampleMessages fresh sampleGrowth := by
    refine ⟨trivial, ?_, ?_, trivial⟩
    · intro fw hfw keys _ _
      refine ⟨⟨_, sampleHead_one⟩, fun previous hprevious => ?_⟩
      rw [hlog.1] at hprevious
      rw [hfw, Option.bind_some, hprevious] at hfirst
      cases hfirst
    · intro fw hfw keys _ _
      refine ⟨⟨_, sampleHead_two⟩, fun previous hprevious old hold m hm => ?_⟩
      rw [hlog.2.1] at hprevious
      rw [hfw, Option.bind_some, hprevious, Option.map_some, Option.some.injEq,
        Prod.mk.injEq] at hsecond
      rw [hsecond.2, fromHex_toHex, Option.some.injEq] at hold
      rw [hsecond.1, hlog.2.2, ← hold, hchecked] at hm
      exact Or.inr (Or.inr (List.mem_singleton.mp hm))
  have hreturned : ∃ c ∈ (fresh.run sampleGrowth).returned,
      ∃ d ∈ (fresh.run sampleGrowth).returned, c.logId = d.logId ∧ c.treeSize < d.treeSize := by
    decide +kernel
  obtain ⟨c, hc, d, hd, heq, hlt⟩ := hreturned
  exact ⟨c, hc, d, hd, hlt,
    (vouches_once sampleMessages_injOn hhonest hc hd heq hlt.le).2.1⟩

end World

end AgentGov.Receipts
