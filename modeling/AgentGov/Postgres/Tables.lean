import AgentGov.Foundation.LastWrites
import AgentGov.Postgres.Rendering

/-!
# The tables of a store

The tables a session writes, with their constraints, and what the statements of a batch and those
of a rendering do to them (`src/src/agentgov/postgres.py`, lines 691–733, 867–905, 1765–1803 and
1881–1990). The rows of a statement are written one by one, and a trigger sees those written
before it. No table refers to another, and a refused row refuses the session.

## Main definitions

* `AgentGov.Postgres.Tables`: the five tables.
* `AgentGov.Postgres.Tables.write`, `AgentGov.Postgres.Tables.send`: a batch written as it is, and
  what is left to send of some batches.
* `AgentGov.Postgres.Made`: batches as a governor makes them.

## Main results

* `AgentGov.Postgres.Tables.send_add`: one more batch taken in.
* `AgentGov.Postgres.Tables.Serves.flushAll_eq_writeAll`: what is sent, flush by flush.
-/

open Foundation

namespace AgentGov.Postgres

/-! ### Tables and their constraints -/

/-- The tables a session writes. Events are numbered as they are inserted. -/
structure Tables where
  entries : List LedgerEntry := []
  nodes : Text → Option NodeRow := fun _ => none
  controls : List (ℕ × ControlEvent) := []
  nextControl : ℕ := 1
  authorizations : UUID → Option Authorization := fun _ => none
  keys : Text → Option IdempotencyRecord := fun _ => none

/-- Whether a `bigint` holds the number. -/
def isBigint (n : ℤ) : Bool := -2 ^ 63 ≤ n && n < 2 ^ 63

/-- Whether an `integer` holds the number. -/
def isInteger (n : ℤ) : Bool := -2 ^ 31 ≤ n && n < 2 ^ 31

/-- The trigger `extend_chain`: whether an entry links to the one before it. -/
def extendsChain (genesis : Text) (rows : List LedgerEntry) (e : LedgerEntry) : Bool :=
  if e.sequence = 1 then e.prevHash = genesis
  else rows.any fun r => r.sequence = e.sequence - 1 && r.entryHash = e.prevHash

/-- A row of `entries`, whose sequence and id are its own. -/
def insertEntry (genesis : Text) (rows : List LedgerEntry) (e : LedgerEntry) :
    Option (List LedgerEntry) :=
  if extendsChain genesis rows e ∧ isBigint e.sequence ∧ 0 < e.sequence ∧
      rows.all fun r => r.sequence ≠ e.sequence ∧ r.entryId ≠ e.entryId then
    some (rows ++ [e])
  else none

/-- A row of `nodes`, or what is set of the one that is there. -/
def upsertNode (rows : Text → Option NodeRow) (n : NodeRow) : Option (Text → Option NodeRow) :=
  if isInteger n.depth then
    some (Function.update rows n.scopeId (some
      { n with createdAt := ((rows n.scopeId).map NodeRow.createdAt).getD n.createdAt }))
  else none

/-- A row of `control_events`, numbered next. -/
def insertControl (rows : List (ℕ × ControlEvent) × ℕ) (e : ControlEvent) :
    Option (List (ℕ × ControlEvent) × ℕ) :=
  if rows.1.all fun r => r.2.eventId ≠ e.eventId then some (rows.1 ++ [(rows.2, e)], rows.2 + 1)
  else none

/-- A row of `open_authorizations`. -/
def insertAuthorization (rows : UUID → Option Authorization) (a : Authorization) :
    Option (UUID → Option Authorization) :=
  if (rows a.authorizationId).isNone then some (Function.update rows a.authorizationId (some a))
  else none

/-- No row of `open_authorizations`. -/
def deleteAuthorization (rows : UUID → Option Authorization) (id : UUID) :
    UUID → Option Authorization := Function.update rows id none

/-- A row of `idempotency`. -/
def insertKey (rows : Text → Option IdempotencyRecord) (r : IdempotencyRecord) :
    Option (Text → Option IdempotencyRecord) :=
  if (rows r.key).isNone ∧ isBigint r.sequence then some (Function.update rows r.key (some r))
  else none

/-! ### What statements do -/

/-- The tables of what is left of each, unless a row was refused. -/
def assemble (entries : Option (List LedgerEntry)) (nodes : Option (Text → Option NodeRow))
    (controls : Option (List (ℕ × ControlEvent) × ℕ))
    (authorizations : Option (UUID → Option Authorization))
    (keys : Option (Text → Option IdempotencyRecord)) : Option Tables := do
  let entries ← entries
  let nodes ← nodes
  let controls ← controls
  let authorizations ← authorizations
  let keys ← keys
  some ⟨entries, nodes, controls.1, controls.2, authorizations, keys⟩

/-- `open_authorizations` after some rows are inserted and then some deleted. -/
def turnOver (rows : UUID → Option Authorization) (opened : List Authorization)
    (closed : List UUID) : Option (UUID → Option Authorization) := do
  let rows ← opened.foldlM insertAuthorization rows
  some (closed.foldl deleteAuthorization rows)

namespace Tables

variable (genesis : Text) (t : Tables)

/-- `commit`: the rows of a batch, statement by statement. -/
def write (b : WriteBatch) : Option Tables :=
  assemble (b.entries.foldlM (insertEntry genesis) t.entries) (b.nodes.foldlM upsertNode t.nodes)
    (b.controlEvents.foldlM insertControl (t.controls, t.nextControl))
    (turnOver t.authorizations b.opened b.closed) (b.idempotency.foldlM insertKey t.keys)

/-- The statements of a rendering. -/
def send (w : Writes) : Option Tables :=
  assemble (w.entries.foldlM (insertEntry genesis) t.entries)
    (w.nodes.values.foldlM upsertNode t.nodes)
    (w.controls.foldlM insertControl (t.controls, t.nextControl))
    (turnOver t.authorizations w.opened.values w.closed) (w.calls.foldlM insertKey t.keys)

/-- Batches written one after the other. -/
def writeAll (batches : List WriteBatch) : Option Tables :=
  batches.foldlM (write genesis) t

/-- Batches kept from flush to flush and then sent. -/
def flushAll (windows : List (List WriteBatch)) : Option Tables :=
  windows.foldlM (fun t batches => send genesis t (Writes.of batches)) t

end Tables

/-! ### Batches as a governor makes them -/

/-- Whether a batch is one that follows some entries: what it opens is placed by its own entries,
what it closes by entries before, and scopes keep the depth and the instant they were created
with. -/
structure WriteBatch.Follows (born : Text → Option (ℤ × Instant)) (before : List LedgerEntry)
    (b : WriteBatch) : Prop where
  opened : ∀ a ∈ b.opened, ∃ e ∈ b.entries, e.entryId = a.authorizationId
  once : (b.opened.map Authorization.authorizationId).Nodup
  closed : ∀ id ∈ b.closed, ∃ e ∈ before, e.entryId = id
  born : ∀ n ∈ b.nodes, born n.scopeId = some (n.depth, n.createdAt)

/-- Batches made one after the other. -/
def Made (born : Text → Option (ℤ × Instant)) : List LedgerEntry → List WriteBatch → Prop
  | _, [] => True
  | before, b :: rest => b.Follows born before ∧ Made born (before ++ b.entries) rest

/-- Whether a store holds some entries, and no authorization but of an entry. -/
structure Tables.Serves (t : Tables) (before : List LedgerEntry) : Prop where
  entries : ∀ e ∈ before, e ∈ t.entries
  authorizations : ∀ id, (t.authorizations id).isSome → ∃ e ∈ t.entries, e.entryId = id

/-! ### Rows one by one -/

variable {genesis : Text}

theorem insertEntry_eq_some {rows rows' : List LedgerEntry} {e : LedgerEntry}
    (h : insertEntry genesis rows e = some rows') :
    rows' = rows ++ [e] ∧ ∀ r ∈ rows, r.entryId ≠ e.entryId := by
  rw [insertEntry] at h
  split_ifs at h with hgood
  refine ⟨(Option.some.inj h).symm, fun r hr => ?_⟩
  have hall := List.all_eq_true.mp hgood.2.2.2 r hr
  simp only [decide_eq_true_eq] at hall
  exact hall.2

/-- Entries that are written have ids of their own. -/
theorem insertEntries_eq_some {rows rows' es : List LedgerEntry}
    (h : es.foldlM (insertEntry genesis) rows = some rows') :
    rows' = rows ++ es ∧ (∀ e ∈ es, ∀ r ∈ rows, r.entryId ≠ e.entryId) ∧
      (es.map LedgerEntry.entryId).Nodup := by
  induction es generalizing rows with
  | nil =>
    obtain rfl := Option.some.inj h
    simp
  | cons e es ih =>
    rw [List.foldlM_cons] at h
    obtain ⟨next, hnext, hrest⟩ := Option.bind_eq_some_iff.mp h
    obtain ⟨rfl, hfirst⟩ := insertEntry_eq_some hnext
    obtain ⟨rfl, hothers, hnodup⟩ := ih hrest
    refine ⟨by simp, ?_, ?_⟩
    · intro d hd r hr
      rcases List.mem_cons.mp hd with rfl | hd
      · exact hfirst r hr
      · exact hothers d hd r (List.mem_append_left _ hr)
    · rw [List.map_cons, List.nodup_cons]
      refine ⟨fun hmem => ?_, hnodup⟩
      obtain ⟨d, hd, heq⟩ := List.mem_map.mp hmem
      exact hothers d hd e (List.mem_append_right _ List.mem_cons_self) heq.symm

/-- Rows of different scopes do not meet. -/
theorem upsertNode_comm (rows : Text → Option NodeRow) (m n : NodeRow)
    (h : m.scopeId ≠ n.scopeId) :
    upsertNode rows m >>= (upsertNode · n) = upsertNode rows n >>= (upsertNode · m) := by
  by_cases hm : isInteger m.depth = true
  · by_cases hn : isInteger n.depth = true
    · have hother : n.scopeId ≠ m.scopeId := Ne.symm h
      simp only [upsertNode, if_pos hm, if_pos hn, Option.bind_eq_bind, Option.bind_some,
        Function.update_of_ne hother, Function.update_of_ne h, Option.some.injEq]
      exact Function.update_comm h _ _ _
    · simp [upsertNode, hm, hn]
  · by_cases hn : isInteger n.depth = true
    · simp [upsertNode, hm, hn]
    · simp [upsertNode, hm, hn]

/-- A scope's row takes in the one before it, of the same depth and instant. -/
theorem upsertNode_absorb (n m : NodeRow) (h : n.scopeId = m.scopeId)
    (hsame : n.depth = m.depth ∧ n.createdAt = m.createdAt) (rows : Text → Option NodeRow) :
    upsertNode rows n >>= (upsertNode · m) = upsertNode rows m := by
  by_cases hm : isInteger m.depth = true
  · have hn : isInteger n.depth = true := hsame.1 ▸ hm
    simp only [upsertNode, if_pos hm, if_pos hn, Option.bind_eq_bind, Option.bind_some, h,
      Function.update_self, Function.update_idem, Option.map_some, Option.getD_some, hsame.2]
  · have hn : ¬isInteger n.depth = true := hsame.1 ▸ hm
    simp [upsertNode, hm, hn]

/-- The authorization of an id among some. -/
def findAuthorization (l : List Authorization) (id : UUID) : Option Authorization :=
  l.find? fun a => a.authorizationId = id

theorem findAuthorization_eq_none {l : List Authorization} {id : UUID} :
    findAuthorization l id = none ↔ id ∉ l.map Authorization.authorizationId := by
  simp [findAuthorization]

theorem insertAuthorizations_eq {rows : UUID → Option Authorization} {l : List Authorization}
    (hnodup : (l.map Authorization.authorizationId).Nodup)
    (hfree : ∀ a ∈ l, rows a.authorizationId = none) :
    l.foldlM insertAuthorization rows =
      some fun id => (findAuthorization l id).or (rows id) := by
  induction l generalizing rows with
  | nil => rfl
  | cons a l ih =>
    rw [List.map_cons, List.nodup_cons] at hnodup
    have hfirst : insertAuthorization rows a =
        some (Function.update rows a.authorizationId (some a)) := by
      rw [insertAuthorization, hfree a List.mem_cons_self]
      rfl
    have hothers : ∀ b ∈ l,
        Function.update rows a.authorizationId (some a) b.authorizationId = none := by
      intro b hb
      have hne : b.authorizationId ≠ a.authorizationId :=
        fun heq => hnodup.1 (List.mem_map.mpr ⟨b, hb, heq⟩)
      rw [Function.update_of_ne hne]
      exact hfree b (List.mem_cons_of_mem a hb)
    rw [List.foldlM_cons, hfirst]
    refine (ih hnodup.2 hothers).trans (congrArg some (funext fun id => ?_))
    rw [findAuthorization, findAuthorization, List.find?_cons]
    by_cases hid : a.authorizationId = id
    · subst hid
      have hnone := findAuthorization_eq_none.mpr hnodup.1
      rw [findAuthorization] at hnone
      simp [hnone]
    · rw [Function.update_of_ne (Ne.symm hid)]
      simp [hid]

theorem deleteAuthorizations_eq (l : List UUID) (rows : UUID → Option Authorization) :
    l.foldl deleteAuthorization rows = fun id => if id ∈ l then none else rows id := by
  induction l generalizing rows with
  | nil => rfl
  | cons k l ih =>
    rw [List.foldl_cons, ih]
    funext id
    by_cases hl : id ∈ l
    · simp [hl]
    · by_cases hk : id = k
      · simp [hk, deleteAuthorization]
      · simp [hl, hk, deleteAuthorization]

/-- Rows inserted where there are none, and others deleted. -/
theorem turnOver_eq {rows : UUID → Option Authorization} {opened : List Authorization}
    (hnodup : (opened.map Authorization.authorizationId).Nodup)
    (hfree : ∀ a ∈ opened, rows a.authorizationId = none) (closed : List UUID) :
    turnOver rows opened closed = some fun id =>
      if id ∈ closed then none else (findAuthorization opened id).or (rows id) := by
  rw [turnOver, insertAuthorizations_eq hnodup hfree]
  exact congrArg some (deleteAuthorizations_eq closed _)

/-- Tables come to the same one by one. -/
theorem assemble_bind {entries : Option (List LedgerEntry)}
    {nodes : Option (Text → Option NodeRow)} {controls : Option (List (ℕ × ControlEvent) × ℕ)}
    {authorizations : Option (UUID → Option Authorization)}
    {keys : Option (Text → Option IdempotencyRecord)} (fe : List LedgerEntry → Option _)
    (fn : (Text → Option NodeRow) → Option _) (fc : List (ℕ × ControlEvent) × ℕ → Option _)
    (fa : (UUID → Option Authorization) → Option _)
    (fk : (Text → Option IdempotencyRecord) → Option _) :
    (assemble entries nodes controls authorizations keys >>= fun t =>
        assemble (fe t.entries) (fn t.nodes) (fc (t.controls, t.nextControl))
          (fa t.authorizations) (fk t.keys)) =
      assemble (entries >>= fe) (nodes >>= fn) (controls >>= fc) (authorizations >>= fa)
        (keys >>= fk) := by
  cases entries <;> cases nodes <;> cases controls <;> cases authorizations <;> cases keys <;>
    simp [assemble]

/-! ### What is left to send -/

/-- What is left to send agrees with how batches are made. -/
structure Writes.Kept (born : Text → Option (ℤ × Instant)) (rows : List LedgerEntry) (w : Writes) :
    Prop where
  nodes : ∀ scope n, w.nodes.get? scope = some n → n.scopeId = scope
  born : ∀ n ∈ w.nodes.values, born n.scopeId = some (n.depth, n.createdAt)
  opened : ∀ id a, w.opened.get? id = some a → a.authorizationId = id
  placed : ∀ id, (w.opened.get? id).isSome → ∃ e ∈ w.entries, e.entryId = id
  closed : ∀ id ∈ w.closed, ∃ e ∈ rows ++ w.entries, e.entryId = id

/-- A batch taken in, before what it closes. -/
def Writes.take (w : Writes) (b : WriteBatch) : Writes where
  entries := w.entries ++ b.entries
  nodes := b.nodes.foldl (fun nodes n => nodes.set n.scopeId n) w.nodes
  controls := w.controls ++ b.controlEvents
  opened := b.opened.foldl (fun opened a => opened.set a.authorizationId a) w.opened
  closed := w.closed
  calls := w.calls ++ b.idempotency

theorem Writes.add_eq (w : Writes) (b : WriteBatch) :
    w.add b = b.closed.foldl Writes.close (w.take b) := rfl

/-- What closing some holds changes. -/
theorem Writes.closeAll_spec (w : Writes) (l : List UUID) :
    let c := l.foldl Writes.close w
    (c.entries = w.entries ∧ c.nodes = w.nodes ∧ c.controls = w.controls ∧ c.calls = w.calls) ∧
      (∀ id, c.opened.get? id = if id ∈ l then none else w.opened.get? id) ∧
      (∀ id ∈ w.closed, id ∈ c.closed) ∧ (∀ id ∈ c.closed, id ∈ w.closed ∨ id ∈ l) ∧
      ∀ id ∈ l, w.opened.get? id = none → id ∈ c.closed := by
  induction l generalizing w with
  | nil => simp
  | cons k l ih =>
    obtain ⟨hsame, hopened, hkept, hfrom, hnew⟩ := ih (w.close k)
    by_cases hk : (w.opened.get? k).isSome = true
    · have hclose : w.close k = { w with opened := w.opened.erase k } := by
        rw [Writes.close, if_pos hk]
      rw [hclose] at hsame hopened hkept hfrom hnew
      rw [List.foldl_cons, hclose]
      refine ⟨hsame, fun id => ?_, hkept, fun id hid => ?_, fun id hid hnone => ?_⟩
      · rw [hopened, Dict.get?_erase]
        by_cases hid : id = k
        · simp [hid]
        · simp [hid]
      · exact (hfrom id hid).imp_right fun hl => List.mem_cons_of_mem k hl
      · rcases List.mem_cons.mp hid with rfl | hid
        · rw [hnone] at hk
          cases hk
        · refine hnew id hid ?_
          rw [Dict.get?_erase, hnone, ite_self]
    · have hclose : w.close k = { w with closed := w.closed ++ [k] } := by
        rw [Writes.close, if_neg hk]
      have hnone : w.opened.get? k = none := by simpa using hk
      rw [hclose] at hsame hopened hkept hfrom hnew
      rw [List.foldl_cons, hclose]
      refine ⟨hsame, fun id => ?_, fun id hid => ?_, fun id hid => ?_, fun id hid hfree => ?_⟩
      · rw [hopened]
        by_cases hid : id = k
        · simp [hid, hnone]
        · simp [hid]
      · exact hkept id (List.mem_append_left _ hid)
      · rcases hfrom id hid with hid | hid
        · rcases List.mem_append.mp hid with hid | hid
          · exact Or.inl hid
          · exact Or.inr (List.mem_singleton.mp hid ▸ List.mem_cons_self)
        · exact Or.inr (List.mem_cons_of_mem k hid)
      · rcases List.mem_cons.mp hid with rfl | hid
        · exact hkept id (List.mem_append_right _ (List.mem_singleton_self id))
        · exact hnew id hid hfree

/-- The authorizations of a mapping, found by their ids. -/
theorem findAuthorization_values {d : Dict UUID Authorization}
    (hkeyed : ∀ id a, d.get? id = some a → a.authorizationId = id) (id : UUID) :
    findAuthorization d.values id = d.get? id := by
  have hlist : ∀ l : List (UUID × Authorization), (∀ p ∈ l, p.2.authorizationId = p.1) →
      findAuthorization (l.map Prod.snd) id = Dict.assoc l id := by
    intro l hl
    induction l with
    | nil => rfl
    | cons p l ih =>
      have hrest := ih fun q hq => hl q (List.mem_cons_of_mem p hq)
      rw [findAuthorization] at hrest ⊢
      rw [List.map_cons, List.find?_cons, Dict.assoc, hl p List.mem_cons_self, hrest]
      by_cases hp : p.1 = id
      · simp [hp]
      · simp [hp]
  exact hlist d.items fun p hp => hkeyed p.1 p.2 (Dict.get?_eq_some_iff.mpr hp)

/-- What is opened after a batch is taken in. -/
theorem Writes.get?_opened_take (w : Writes) {b : WriteBatch}
    (hnodup : (b.opened.map Authorization.authorizationId).Nodup) (id : UUID) :
    (w.take b).opened.get? id = (findAuthorization b.opened id).or (w.opened.get? id) := by
  have hset : (w.take b).opened =
      w.opened.setAll (b.opened.map fun a => (a.authorizationId, a)) := by
    rw [Dict.setAll, List.foldl_map]
    rfl
  have hassoc : ∀ l : List Authorization,
      Dict.assoc (l.map fun a => (a.authorizationId, a)) id = findAuthorization l id := by
    intro l
    induction l with
    | nil => rfl
    | cons a l ih =>
      rw [findAuthorization] at ih ⊢
      rw [List.map_cons, Dict.assoc, List.find?_cons, ih]
      by_cases ha : a.authorizationId = id
      · simp [ha]
      · simp [ha]
  rw [hset, Dict.get?_setAll, hassoc]
  rw [List.map_map]
  exact hnodup

theorem findAuthorization_eq_some {l : List Authorization} {id : UUID} {a : Authorization}
    (h : findAuthorization l id = some a) : a ∈ l ∧ a.authorizationId = id :=
  ⟨List.mem_of_find?_eq_some h, by simpa using List.find?_some h⟩

variable {born : Text → Option (ℤ × Instant)} {w : Writes} {b : WriteBatch}
  {before : List LedgerEntry} {rows : List LedgerEntry}

/-- One more batch taken in keeps what is left to send as it should be. -/
theorem Writes.Kept.add (hw : w.Kept born rows) (hb : b.Follows born before)
    (hbefore : ∀ e ∈ before, e ∈ rows ++ w.entries) : (w.add b).Kept born rows := by
  obtain ⟨⟨hentries, hnodes, -, -⟩, hopened, -, hclosed, -⟩ :=
    Writes.closeAll_spec (w.take b) b.closed
  rw [← Writes.add_eq] at hentries hnodes hopened hclosed
  have htake : ∀ id a, (w.take b).opened.get? id = some a →
      a.authorizationId = id ∧ ∃ e ∈ w.entries ++ b.entries, e.entryId = id := by
    intro id a ha
    rw [Writes.get?_opened_take w hb.once] at ha
    cases hfind : findAuthorization b.opened id with
    | some c =>
      rw [hfind] at ha
      obtain rfl := Option.some.inj ha
      obtain ⟨hc, rfl⟩ := findAuthorization_eq_some hfind
      obtain ⟨e, he, hid⟩ := hb.opened c hc
      exact ⟨rfl, e, List.mem_append_right _ he, hid⟩
    | none =>
      rw [hfind, Option.none_or] at ha
      obtain ⟨e, he, hid⟩ := hw.placed id (by rw [ha]; rfl)
      exact ⟨hw.opened id a ha, e, List.mem_append_left _ he, hid⟩
  have hstays : ∀ id a, (w.add b).opened.get? id = some a →
      (w.take b).opened.get? id = some a := by
    intro id a ha
    rw [hopened] at ha
    split_ifs at ha
    exact ha
  have hnodesTake : ∀ (l : List NodeRow) (d : Dict Text NodeRow),
      (∀ scope n, d.get? scope = some n →
        n.scopeId = scope ∧ born n.scopeId = some (n.depth, n.createdAt)) →
      (∀ n ∈ l, born n.scopeId = some (n.depth, n.createdAt)) →
      ∀ scope n, (l.foldl (fun nodes n => nodes.set n.scopeId n) d).get? scope = some n →
        n.scopeId = scope ∧ born n.scopeId = some (n.depth, n.createdAt) := by
    intro l
    induction l with
    | nil => exact fun d hd _ => hd
    | cons m l ih =>
      intro d hd hl
      refine ih _ (fun scope n hn => ?_) fun n hn => hl n (List.mem_cons_of_mem m hn)
      rw [Dict.get?_set] at hn
      split_ifs at hn with hscope
      · obtain rfl := Option.some.inj hn
        exact ⟨hscope.symm, hl m List.mem_cons_self⟩
      · exact hd scope n hn
  have hall := hnodesTake b.nodes w.nodes
    (fun scope n hn => ⟨hw.nodes scope n hn, hw.born n (Dict.mem_values_iff.mpr ⟨scope, hn⟩)⟩)
    hb.born
  refine ⟨?_, ?_, fun id a ha => (htake id a (hstays id a ha)).1, ?_, ?_⟩
  · intro scope n hn
    rw [hnodes] at hn
    exact (hall scope n hn).1
  · intro n hn
    rw [hnodes] at hn
    obtain ⟨scope, hscope⟩ := Dict.mem_values_iff.mp hn
    exact (hall scope n hscope).2
  · intro id hid
    obtain ⟨a, ha⟩ := Option.isSome_iff_exists.mp hid
    rw [hentries]
    exact (htake id a (hstays id a ha)).2
  · intro id hid
    rw [hentries]
    rcases hclosed id hid with hid | hid
    · obtain ⟨e, he, heq⟩ := hw.closed id hid
      refine ⟨e, ?_, heq⟩
      rcases List.mem_append.mp he with he | he
      · exact List.mem_append_left _ he
      · exact List.mem_append_right _ (List.mem_append_left _ he)
    · obtain ⟨e, he, heq⟩ := hb.closed id hid
      refine ⟨e, ?_, heq⟩
      rcases List.mem_append.mp (hbefore e he) with he | he
      · exact List.mem_append_left _ he
      · exact List.mem_append_right _ (List.mem_append_left _ he)

/-- Authorizations after one more batch, where its entries' ids are new. -/
theorem turnOver_add {rows' : UUID → Option Authorization} (hw : w.Kept born rows)
    (hb : b.Follows born before) (hbefore : ∀ e ∈ before, e ∈ rows ++ w.entries)
    (hrows : ∀ id, (rows' id).isSome → ∃ e ∈ rows, e.entryId = id)
    (hnew : ∀ e ∈ w.entries ++ b.entries, ∀ r ∈ rows, r.entryId ≠ e.entryId)
    (hlater : ∀ e ∈ b.entries, ∀ r ∈ w.entries, r.entryId ≠ e.entryId) :
    turnOver rows' (w.add b).opened.values (w.add b).closed =
      turnOver rows' w.opened.values w.closed >>= fun rows => turnOver rows b.opened b.closed := by
  obtain ⟨-, hopened, hkept, hclosed, hfree⟩ := Writes.closeAll_spec (w.take b) b.closed
  rw [← Writes.add_eq] at hopened hkept hclosed hfree
  have htake := Writes.get?_opened_take w hb.once
  have hadd := hw.add hb hbefore
  have hentries : (w.add b).entries = w.entries ++ b.entries :=
    (Writes.closeAll_spec (w.take b) b.closed).1.1
  -- no row is there where an entry that is written now has the id
  have hnone : ∀ id, (∃ e ∈ w.entries ++ b.entries, e.entryId = id) → rows' id = none := by
    rintro id ⟨e, he, rfl⟩
    by_contra hsome
    obtain ⟨r, hr, hid⟩ := hrows e.entryId (Option.isSome_iff_ne_none.mpr hsome)
    exact hnew e he r hr hid
  have hbnew : ∀ id, (findAuthorization b.opened id).isSome →
      (∃ e ∈ b.entries, e.entryId = id) ∧ w.opened.get? id = none ∧ id ∉ w.closed := by
    intro id hid
    obtain ⟨a, ha⟩ := Option.isSome_iff_exists.mp hid
    obtain ⟨hmem, rfl⟩ := findAuthorization_eq_some ha
    obtain ⟨e, he, heq⟩ := hb.opened a hmem
    refine ⟨⟨e, he, heq⟩, ?_, fun hc => ?_⟩
    · by_contra hsome
      obtain ⟨r, hr, hrid⟩ := hw.placed _ (Option.isSome_iff_ne_none.mpr hsome)
      exact hlater e he r hr (hrid.trans heq.symm)
    · obtain ⟨r, hr, hrid⟩ := hw.closed _ hc
      rcases List.mem_append.mp hr with hr | hr
      · exact hnew e (List.mem_append_right _ he) r hr (hrid.trans heq.symm)
      · exact hlater e he r hr (hrid.trans heq.symm)
  have hfirst : turnOver rows' w.opened.values w.closed = some fun id =>
      if id ∈ w.closed then none else (w.opened.get? id).or (rows' id) := by
    rw [turnOver_eq (Dict.nodup_values_map hw.opened) fun a ha => ?_]
    · simp only [findAuthorization_values hw.opened]
    · obtain ⟨id, hid⟩ := Dict.mem_values_iff.mp ha
      obtain ⟨e, he, heq⟩ := hw.placed id (by rw [hid]; rfl)
      exact hnone _ ⟨e, List.mem_append_left _ he, heq.trans (hw.opened id a hid).symm⟩
  have hwhole : turnOver rows' (w.add b).opened.values (w.add b).closed = some fun id =>
      if id ∈ (w.add b).closed then none else ((w.add b).opened.get? id).or (rows' id) := by
    rw [turnOver_eq (Dict.nodup_values_map hadd.opened) fun a ha => ?_]
    · simp only [findAuthorization_values hadd.opened]
    · obtain ⟨id, hid⟩ := Dict.mem_values_iff.mp ha
      obtain ⟨e, he, heq⟩ := hadd.placed id (by rw [hid]; rfl)
      exact hnone _ ⟨e, hentries ▸ he, heq.trans (hadd.opened id a hid).symm⟩
  rw [hfirst, hwhole, Option.bind_eq_bind, Option.bind_some, turnOver_eq hb.once fun a ha => ?_]
  · refine congrArg some (funext fun id => ?_)
    rw [hopened, htake]
    by_cases hid : id ∈ b.closed
    · rw [if_pos hid, if_pos hid, Option.none_or, ite_eq_left_iff]
      intro hnot
      -- it was opened by a batch that is not sent yet
      have hsome : ((w.take b).opened.get? id).isSome = true := by
        by_contra hno
        exact hnot (hfree id hid (by simpa using hno))
      rw [htake] at hsome
      refine hnone id ?_
      by_cases hfind : (findAuthorization b.opened id).isSome = true
      · obtain ⟨⟨e, he, heq⟩, -⟩ := hbnew id hfind
        exact ⟨e, List.mem_append_right _ he, heq⟩
      · rw [Option.not_isSome_iff_eq_none.mp hfind, Option.none_or] at hsome
        obtain ⟨e, he, heq⟩ := hw.placed id hsome
        exact ⟨e, List.mem_append_left _ he, heq⟩
    · rw [if_neg hid, if_neg hid]
      have hmem : id ∈ (w.add b).closed ↔ id ∈ w.closed :=
        ⟨fun hc => (hclosed id hc).resolve_right hid, hkept id⟩
      cases hfind : findAuthorization b.opened id with
      | none =>
        simp only [Option.none_or, hmem]
      | some a =>
        obtain ⟨-, -, hc⟩ := hbnew id (by rw [hfind]; rfl)
        rw [if_neg fun h => hc (hmem.mp h)]
        rfl
  · obtain ⟨⟨e, he, heq⟩, hopen, hc⟩ := hbnew a.authorizationId (by
      rw [Option.isSome_iff_ne_none, ne_eq, findAuthorization_eq_none, not_not]
      exact List.mem_map.mpr ⟨a, ha, rfl⟩)
    rw [if_neg hc, hopen, Option.none_or]
    exact hnone _ ⟨e, List.mem_append_right _ he, heq⟩

namespace Tables

variable {t : Tables}

/-- Taking one more batch in and sending all comes to the same as sending and writing it. -/
theorem send_add (hw : w.Kept born t.entries) (hb : b.Follows born before)
    (hbefore : ∀ e ∈ before, e ∈ t.entries ++ w.entries)
    (ht : ∀ id, (t.authorizations id).isSome → ∃ e ∈ t.entries, e.entryId = id) :
    t.send genesis (w.add b) = t.send genesis w >>= fun t => t.write genesis b := by
  obtain ⟨hentries, hnodes, hcontrols, hcalls⟩ := (Writes.closeAll_spec (w.take b) b.closed).1
  rw [← Writes.add_eq] at hentries hnodes hcontrols hcalls
  have hsplit : ∀ t' : Tables, t'.write genesis b =
      assemble (b.entries.foldlM (insertEntry genesis) t'.entries)
        (b.nodes.foldlM upsertNode t'.nodes)
        (b.controlEvents.foldlM insertControl (t'.controls, t'.nextControl))
        (turnOver t'.authorizations b.opened b.closed)
        (b.idempotency.foldlM insertKey t'.keys) := fun _ => rfl
  simp only [hsplit, send]
  rw [assemble_bind (fun rows => b.entries.foldlM (insertEntry genesis) rows)
    (fun rows => b.nodes.foldlM upsertNode rows)
    (fun rows => b.controlEvents.foldlM insertControl rows)
    (fun rows => turnOver rows b.opened b.closed)
    (fun rows => b.idempotency.foldlM insertKey rows)]
  have hnodesEq : (w.add b).nodes.values.foldlM upsertNode t.nodes =
      w.nodes.values.foldlM upsertNode t.nodes >>= b.nodes.foldlM upsertNode := by
    rw [hnodes]
    refine Dict.foldlM_values_setAll (fun m n => m.depth = n.depth ∧ m.createdAt = n.createdAt)
      upsertNode_comm (fun m n => upsertNode_absorb n m) hw.nodes ?_ t.nodes
    intro n hn m hm hscope
    have hmborn : born m.scopeId = some (m.depth, m.createdAt) := hm.elim (hw.born m) (hb.born m)
    have hnborn := hb.born n hn
    rw [← hscope, hmborn, Option.some.injEq, Prod.mk.injEq] at hnborn
    exact hnborn
  have hentriesEq : (w.add b).entries.foldlM (insertEntry genesis) t.entries =
      w.entries.foldlM (insertEntry genesis) t.entries >>=
        b.entries.foldlM (insertEntry genesis) := by
    rw [hentries, Writes.take, List.foldlM_append]
  rw [hentriesEq, hnodesEq, hcontrols, hcalls, Writes.take, List.foldlM_append,
    List.foldlM_append]
  -- where an entry is refused, so is everything
  cases hfirst : w.entries.foldlM (insertEntry genesis) t.entries with
  | none => rfl
  | some rows =>
    obtain ⟨rfl, hnew, -⟩ := insertEntries_eq_some hfirst
    cases hlast : b.entries.foldlM (insertEntry genesis) (t.entries ++ w.entries) with
    | none => simp only [Option.bind_eq_bind, Option.bind_some, hlast]; rfl
    | some rows' =>
      obtain ⟨-, hnew', -⟩ := insertEntries_eq_some hlast
      rw [turnOver_add hw hb hbefore ht]
      · intro e he r hr
        rcases List.mem_append.mp he with he | he
        · exact hnew e he r hr
        · exact hnew' e he r (List.mem_append_left _ hr)
      · exact fun e he r hr => hnew' e he r (List.mem_append_right _ hr)

/-- Batches kept and sent at once come to the same as each written on its own. -/
theorem send_of_made {batches : List WriteBatch} (hw : w.Kept born t.entries)
    (hmade : Made born before batches) (hbefore : ∀ e ∈ before, e ∈ t.entries ++ w.entries)
    (ht : ∀ id, (t.authorizations id).isSome → ∃ e ∈ t.entries, e.entryId = id) :
    t.send genesis (batches.foldl Writes.add w) =
      t.send genesis w >>= fun t => t.writeAll genesis batches := by
  induction batches generalizing w before with
  | nil => simp [writeAll]
  | cons b batches ih =>
    obtain ⟨hb, hrest⟩ := hmade
    have hentries : (w.add b).entries = w.entries ++ b.entries :=
      (Writes.closeAll_spec (w.take b) b.closed).1.1
    have hbefore' : ∀ e ∈ before ++ b.entries, e ∈ t.entries ++ (w.add b).entries := by
      intro e he
      rw [hentries, ← List.append_assoc]
      rcases List.mem_append.mp he with he | he
      · exact List.mem_append_left _ (hbefore e he)
      · exact List.mem_append_right _ he
    rw [List.foldl_cons, ih (hw.add hb hbefore) hrest hbefore', send_add hw hb hbefore ht,
      bind_assoc]
    simp only [writeAll, List.foldlM_cons]

/-- What is written stays what a store serves. -/
theorem Serves.write {t' : Tables} (h : t.Serves before) (hb : b.Follows born before)
    (hwrite : t.write genesis b = some t') : t'.Serves (before ++ b.entries) := by
  rw [Tables.write, assemble] at hwrite
  obtain ⟨rows, hrows, hwrite⟩ := Option.bind_eq_some_iff.mp hwrite
  obtain ⟨nodes, -, hwrite⟩ := Option.bind_eq_some_iff.mp hwrite
  obtain ⟨controls, -, hwrite⟩ := Option.bind_eq_some_iff.mp hwrite
  obtain ⟨auths, hauths, hwrite⟩ := Option.bind_eq_some_iff.mp hwrite
  obtain ⟨keys, -, hwrite⟩ := Option.bind_eq_some_iff.mp hwrite
  obtain rfl := Option.some.inj hwrite
  obtain ⟨rfl, hnew, -⟩ := insertEntries_eq_some hrows
  refine ⟨fun e he => ?_, fun id hid => ?_⟩
  · rcases List.mem_append.mp he with he | he
    · exact List.mem_append_left _ (h.entries e he)
    · exact List.mem_append_right _ he
  · have hfree : ∀ a ∈ b.opened, t.authorizations a.authorizationId = none := by
      intro a ha
      by_contra hsome
      obtain ⟨r, hr, hrid⟩ := h.authorizations _ (Option.isSome_iff_ne_none.mpr hsome)
      obtain ⟨e, he, heq⟩ := hb.opened a ha
      exact hnew e he r hr (hrid.trans heq.symm)
    rw [turnOver_eq hb.once hfree, Option.some.injEq] at hauths
    subst hauths
    dsimp only at hid
    split_ifs at hid
    · cases hid
    · cases hfind : findAuthorization b.opened id with
      | some a =>
        obtain ⟨hmem, rfl⟩ := findAuthorization_eq_some hfind
        obtain ⟨e, he, heq⟩ := hb.opened a hmem
        exact ⟨e, List.mem_append_right _ he, heq⟩
      | none =>
        rw [hfind, Option.none_or] at hid
        obtain ⟨e, he, heq⟩ := h.authorizations id hid
        exact ⟨e, List.mem_append_left _ he, heq⟩

theorem Serves.writeAll {t' : Tables} {batches : List WriteBatch} (h : t.Serves before)
    (hmade : Made born before batches) (hwrite : t.writeAll genesis batches = some t') :
    t'.Serves (before ++ batches.flatMap WriteBatch.entries) := by
  induction batches generalizing t before with
  | nil =>
    obtain rfl := Option.some.inj hwrite
    simpa using h
  | cons b batches ih =>
    obtain ⟨hb, hrest⟩ := hmade
    rw [Tables.writeAll, List.foldlM_cons] at hwrite
    obtain ⟨next, hnext, hwrite⟩ := Option.bind_eq_some_iff.mp hwrite
    have hserves := ih (h.write hb hnext) hrest hwrite
    rwa [List.append_assoc] at hserves

theorem kept_empty (rows : List LedgerEntry) : ({} : Writes).Kept born rows where
  nodes _ _ h := nomatch h
  born _ h := nomatch h
  opened _ _ h := nomatch h
  placed _ h := nomatch h
  closed _ h := nomatch h

theorem Made.append {batches rest : List WriteBatch} (h : Made born before (batches ++ rest)) :
    Made born before batches ∧ Made born (before ++ batches.flatMap WriteBatch.entries) rest := by
  induction batches generalizing before with
  | nil => exact ⟨trivial, by simpa using h⟩
  | cons b batches ih =>
    obtain ⟨hb, hmade⟩ := h
    obtain ⟨hfirst, hrest⟩ := ih hmade
    rw [List.append_assoc] at hrest
    exact ⟨⟨hb, hfirst⟩, hrest⟩

/-- Batches kept from flush to flush, wherever the flushes are, leave the tables as each batch
written on its own does, and are refused where it is. -/
theorem Serves.flushAll_eq_writeAll {windows : List (List WriteBatch)} (h : t.Serves before)
    (hmade : Made born before windows.flatten) :
    t.flushAll genesis windows = t.writeAll genesis windows.flatten := by
  induction windows generalizing t before with
  | nil => rfl
  | cons batches windows ih =>
    obtain ⟨hfirst, hrest⟩ := Made.append hmade
    have hsend : t.send genesis (Writes.of batches) = t.writeAll genesis batches :=
      send_of_made (kept_empty t.entries) hfirst (fun e he => by
        rw [List.append_nil]
        exact h.entries e he) h.authorizations
    have happend : t.writeAll genesis (batches ++ windows.flatten) =
        t.writeAll genesis batches >>= fun t => t.writeAll genesis windows.flatten := by
      rw [Tables.writeAll, List.foldlM_append]
      rfl
    rw [Tables.flushAll, List.foldlM_cons, hsend, List.flatten_cons, happend]
    cases hnext : t.writeAll genesis batches with
    | none => rfl
    | some next => exact ih (h.writeAll hfirst hnext) hrest

end Tables

end AgentGov.Postgres
