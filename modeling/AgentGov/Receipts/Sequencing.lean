import AgentGov.Receipts.Log

/-!
# The sequencer of a receipt log

What is invariant of the positions that are held, of the receipts that are signed and of the
reservations that are settled: the positions held are those behind the file, a receipt stands at
the position it was signed for, and every reservation is settled once. A section that appends the
receipts whose turn has come, or takes positions back, keeps it.

## Main definitions

* `AgentGov.Receipts.ReceiptLog.retireAll`: reservations settled together.
* `AgentGov.Receipts.ReceiptLog.Advances`: what one section does that appends or takes back.
* `AgentGov.Receipts.ReceiptLog.Sequenced`: the invariant.

## Main results

* `AgentGov.Receipts.ReceiptLog.Advances.queued`: such a section keeps the invariant.
* `AgentGov.Receipts.ReceiptLog.drained_drain`: draining the signed receipts is such a section, and
  checks the ones it appends.
-/

namespace AgentGov.Receipts

open Foundation

/-- Whether what a caller works on is for its reservation. -/
def Caller.Suits (caller : Caller) (logId : Text) : Prop :=
  match caller.work with
  | .issuing unsigned _ => unsigned.receiptId = caller.reservation.receiptId ∧
      unsigned.anchors.log = some ⟨logId, caller.reservation.index⟩
  | .appending leaf => leaf.receiptId = caller.reservation.receiptId ∧
      leaf.Placed logId caller.reservation.index

namespace ReceiptLog

/-! ### Reservations settled together -/

/-- A reservation that is settled, its position popped. -/
def retire (log : ReceiptLog) (p : Reservation × Settlement) : ReceiptLog :=
  (log.drop p.1.index p.1.receiptId).settle p.1 p.2

/-- Reservations that are settled, their positions popped. -/
def retireAll (log : ReceiptLog) (gone : List (Reservation × Settlement)) : ReceiptLog :=
  { log with
    held := log.held.eraseAll (gone.map fun p => p.1.index)
    heldIds := log.heldIds.eraseAll (gone.map fun p => p.1.receiptId)
    signed := log.signed.eraseAll (gone.map fun p => p.1.index)
    settled := log.settled.setAll (gone.map fun p => (p.1.ticket, p.2)) }

theorem foldl_retire (log : ReceiptLog) (gone : List (Reservation × Settlement)) :
    gone.foldl retire log = log.retireAll gone := by
  induction gone generalizing log with
  | nil => rfl
  | cons p gone ih =>
    rw [List.foldl_cons, ih]
    rfl

theorem foldl_settleIssued (log : ReceiptLog) (batch : List (Reservation × Leaf)) :
    batch.foldl settleIssued log = log.retireAll (batch.map fun p => (p.1, .issued p.2)) := by
  rw [← foldl_retire, List.foldl_map]
  rfl

theorem foldl_settleFailed (log : ReceiptLog) (batch : List (Reservation × Leaf)) :
    batch.foldl settleFailed log =
      log.retireAll (batch.map fun p => (p.1, .failed (.notWritten p.1.receiptId))) := by
  rw [← foldl_retire, List.foldl_map]
  rfl

/-- How a reservation that is taken back is settled. -/
def backAs (reservation : Reservation) (error : Option LogFault) (held : Reservation) : Settlement :=
  if held = reservation then (error.map .failed).getD .takenBack else .takenBack

theorem backAs_ne_issued (reservation : Reservation) (error : Option LogFault)
    (held : Reservation) (leaf : Leaf) : backAs reservation error held ≠ .issued leaf := by
  unfold backAs
  split_ifs
  · cases error <;> simp
  · simp

/-- The reservations that are taken back, with how they are settled. -/
def back (log : ReceiptLog) (reservation : Reservation) (error : Option LogFault) :
    List (Reservation × Settlement) :=
  ((log.held.keys.filter fun i => reservation.index ≤ i).mergeSort (· ≤ ·)).filterMap fun i =>
    (log.held.get? i).map fun held => (held, backAs reservation error held)

/-- Whether every reservation is held at its position. -/
def Indexed (log : ReceiptLog) : Prop := ∀ i r, log.held.get? i = some r → r.index = i

theorem foldl_release {log : ReceiptLog} (hindex : log.Indexed) (reservation : Reservation)
    (error : Option LogFault) {keys : List ℕ} (hnodup : keys.Nodup) :
    keys.foldl (release reservation error) log = log.retireAll (keys.filterMap fun i =>
      (log.held.get? i).map fun held => (held, backAs reservation error held)) := by
  rw [← foldl_retire]
  have hfold : ∀ cur : ReceiptLog, (∀ i ∈ keys, cur.held.get? i = log.held.get? i) →
      keys.foldl (release reservation error) cur = (keys.filterMap fun i =>
        (log.held.get? i).map fun held => (held, backAs reservation error held)).foldl
          retire cur := by
    induction keys with
    | nil => exact fun _ _ => rfl
    | cons i keys ih =>
      intro cur hcur
      obtain ⟨hi, hkeys⟩ := List.nodup_cons.mp hnodup
      have hsame := hcur i List.mem_cons_self
      rw [List.foldl_cons]
      cases hheld : log.held.get? i with
      | none =>
        rw [List.filterMap_cons, hheld, Option.map_none, release, hsame, hheld]
        exact ih hkeys cur fun j hj => hcur j (List.mem_cons_of_mem _ hj)
      | some held =>
        obtain rfl := hindex i held hheld
        rw [List.filterMap_cons, hheld, Option.map_some, List.foldl_cons]
        have hone : release reservation error cur held.index =
            cur.retire (held, backAs reservation error held) := by
          rw [release, hsame, hheld]
          rfl
        rw [hone]
        refine ih hkeys _ fun j hj => ?_
        have hne : j ≠ held.index := fun heq => hi (heq ▸ hj)
        rw [← hcur j (List.mem_cons_of_mem _ hj)]
        exact (Dict.get?_erase _ _ _).trans (if_neg hne)
  exact hfold log fun _ _ => rfl

theorem takeBack_eq {log : ReceiptLog} (hindex : log.Indexed) (reservation : Reservation)
    (error : Option LogFault) : log.takeBack reservation error =
      { log.retireAll (log.back reservation error) with next := reservation.index } := by
  have hnodup : ((log.held.keys.filter fun i => reservation.index ≤ i).mergeSort
      (· ≤ ·)).Nodup :=
    (List.mergeSort_perm _ _).nodup_iff.mpr (log.held.nodup_keys.filter _)
  rw [takeBack, back, ← foldl_release hindex reservation error hnodup]

theorem mem_back {log : ReceiptLog} (hindex : log.Indexed) {reservation : Reservation}
    {error : Option LogFault} {p : Reservation × Settlement} :
    p ∈ log.back reservation error ↔ log.held.get? p.1.index = some p.1 ∧
      reservation.index ≤ p.1.index ∧ p.2 = backAs reservation error p.1 := by
  simp only [back, List.mem_filterMap, List.mem_mergeSort, List.mem_filter, decide_eq_true_eq,
    Dict.mem_keys_iff, Option.map_eq_some_iff]
  constructor
  · rintro ⟨i, ⟨-, hle⟩, held, hheld, rfl⟩
    obtain rfl := hindex i held hheld
    exact ⟨hheld, hle, rfl⟩
  · rintro ⟨hheld, hle, hp⟩
    exact ⟨p.1.index, ⟨⟨p.1, hheld⟩, hle⟩, p.1, hheld, Prod.ext rfl hp.symm⟩

/-! ### The receipts whose turn has come -/

/-- Whether a batch is signed for the positions behind the leaves, one after the other. -/
def Turn (log : ReceiptLog) (batch : List (Reservation × Leaf)) : Prop :=
  ∀ j p, batch[j]? = some p → log.signed.get? (log.leaves.length + j) = some p

theorem turn_nil (log : ReceiptLog) : log.Turn [] := by
  intro j p h
  simp at h

theorem Turn.concat {log : ReceiptLog} {batch : List (Reservation × Leaf)} (h : log.Turn batch)
    {p : Reservation × Leaf} (hp : log.signed.get? (log.leaves.length + batch.length) = some p) :
    log.Turn (batch ++ [p]) := by
  intro j q hq
  rcases Nat.lt_trichotomy j batch.length with hlt | rfl | hgt
  · rw [List.getElem?_append_left hlt] at hq
    exact h j q hq
  · rw [List.getElem?_append_right le_rfl, Nat.sub_self] at hq
    obtain rfl := Option.some.inj hq
    exact hp
  · rw [List.getElem?_eq_none (by simp; omega)] at hq
    cases hq

/-- A batch is no longer than what is signed. -/
theorem Turn.length_le {log : ReceiptLog} {batch : List (Reservation × Leaf)} (h : log.Turn batch) :
    batch.length ≤ log.signed.items.length := by
  have hsub : List.range' log.leaves.length batch.length ⊆ log.signed.keys := by
    intro i hi
    obtain ⟨hle, hlt⟩ := List.mem_range'_1.mp hi
    obtain ⟨p, hp⟩ : ∃ p, batch[i - log.leaves.length]? = some p :=
      ⟨_, List.getElem?_eq_getElem (by omega)⟩
    have hsigned := h _ p hp
    rw [show log.leaves.length + (i - log.leaves.length) = i by omega] at hsigned
    exact Dict.mem_keys_iff.mpr ⟨_, hsigned⟩
  have := ((List.nodup_range' 1).subperm hsub).length_le
  rwa [List.length_range', Dict.keys, List.length_map] at this

/-- What the loop of `_drain` has found: a batch whose turn has come, each receipt of it checked
against the ones before it, and behind it a receipt that is refused, or none that is signed. -/
structure Found (log : ReceiptLog) (batch : List (Reservation × Leaf))
    (refused : Option (Reservation × LogFault)) : Prop where
  turn : log.Turn batch
  checked : ∀ j p, batch[j]? = some p → log.checkOpen = .ok ⟨⟩ ∧
    log.checkBinding p.2 (staged (batch.take j)) = .ok ⟨⟩
  refusal : ∀ p ∈ refused, ∃ leaf,
    log.signed.get? (log.leaves.length + batch.length) = some (p.1, leaf)
  last : refused = none → log.signed.get? (log.leaves.length + batch.length) = none

theorem found_ready {log : ReceiptLog} {room : ℕ} {batch : List (Reservation × Leaf)}
    (hturn : log.Turn batch)
    (hchecked : ∀ j p, batch[j]? = some p → log.checkOpen = .ok ⟨⟩ ∧
      log.checkBinding p.2 (staged (batch.take j)) = .ok ⟨⟩)
    (hroom : log.signed.items.length ≤ room + batch.length) :
    log.Found (log.ready room batch).1 (log.ready room batch).2 := by
  induction room generalizing batch with
  | zero =>
    refine ⟨hturn, hchecked, by simp [ready], fun _ => ?_⟩
    -- a signed receipt behind the batch would be one more than there are
    cases hnext : log.signed.get? (log.leaves.length + batch.length) with
    | none => exact hnext
    | some p =>
      have := (hturn.concat hnext).length_le
      rw [List.length_append, List.length_singleton] at this
      omega
  | succ room ih =>
    rw [ready]
    cases hnext : log.signed.get? (log.leaves.length + batch.length) with
    | none => exact ⟨hturn, hchecked, by simp, fun _ => hnext⟩
    | some p =>
      obtain ⟨reservation, leaf⟩ := p
      simp only
      cases hcheck : log.checkOpen >>= fun _ => log.checkBinding leaf (staged batch) with
      | error e =>
        refine ⟨hturn, hchecked, ?_, fun h => by cases h⟩
        intro p hp
        obtain rfl := Option.some.inj hp
        exact ⟨leaf, hnext⟩
      | ok u =>
        refine ih (hturn.concat hnext) ?_ (by simp; omega)
        obtain ⟨_, hopen, hbinding⟩ := bind_eq_ok.mp hcheck
        intro j q hq
        rcases Nat.lt_trichotomy j batch.length with hlt | rfl | hgt
        · rw [List.getElem?_append_left hlt] at hq
          rw [List.take_append_of_le_length hlt.le]
          exact hchecked j q hq
        · rw [List.getElem?_append_right le_rfl, Nat.sub_self] at hq
          obtain rfl := Option.some.inj hq
          rw [List.take_append_of_le_length le_rfl, List.take_length]
          exact ⟨hopen, hbinding⟩
        · rw [List.getElem?_eq_none (by simp; omega)] at hq
          cases hq

/-- What `_drain` finds. -/
theorem found (log : ReceiptLog) : log.Found (log.ready log.signed.items.length []).1
    (log.ready log.signed.items.length []).2 :=
  found_ready (turn_nil log) (by simp) (by simp)

/-! ### The invariant -/

/-- What holds of a log, also where a receipt has just come back. -/
structure Queued (log : ReceiptLog) : Prop where
  /-- A receipt stands at the position it was signed for. -/
  placed : ∀ i (leaf : Leaf), log.file[i]? = some leaf → leaf.Placed log.logId i
  /-- A receipt enters once. -/
  nodup : (log.file.map Leaf.receiptId).Nodup
  length_le : log.file.length ≤ log.next
  /-- The positions held are those behind the file. -/
  held : ∀ i, (∃ r, log.held.get? i = some r) ↔ log.file.length ≤ i ∧ i < log.next
  indexed : log.Indexed
  heldIds : ∀ id i, log.heldIds.get? id = some i ↔
    ∃ r, log.held.get? i = some r ∧ r.receiptId = id
  new : ∀ i r, log.held.get? i = some r → r.receiptId ∉ log.file.map Leaf.receiptId
  signed : ∀ i p, log.signed.get? i = some p → log.held.get? i = some p.1 ∧
    p.2.Placed log.logId i ∧ p.2.receiptId = p.1.receiptId
  /-- What was signed is what its caller came back with. -/
  returned : ∀ i p, log.signed.get? i = some p →
    ∃ c, log.callers[p.1.ticket]? = some c ∧ log.returned c true = some p.2
  broken : log.broken = false ↔ log.unindexed = []
  caller : ∀ i r, log.held.get? i = some r →
    ∃ c, log.callers[r.ticket]? = some c ∧ c.reservation = r
  ticket : ∀ (t : ℕ) (c : Caller), log.callers[t]? = some c → c.reservation.ticket = t
  suits : ∀ (t : ℕ) (c : Caller), log.callers[t]? = some c → c.Suits log.logId
  /-- A reservation is held until it is settled. -/
  settled : ∀ (t : ℕ) (c : Caller), log.callers[t]? = some c →
    (log.settled.get? t = none ↔ log.held.get? c.reservation.index = some c.reservation)
  known : ∀ t s, log.settled.get? t = some s → ∃ c, log.callers[t]? = some c
  working : ∀ i r, log.held.get? i = some r → (r.ticket ∈ log.working ↔ log.signed.get? i = none)
  /-- What was issued is in the file, at its position. -/
  issued : ∀ t leaf, log.settled.get? t = some (.issued leaf) →
    ∃ c, log.callers[t]? = some c ∧ log.file[c.reservation.index]? = some leaf
  /-- What was issued to a caller is what it came back with. -/
  own : ∀ (t : ℕ) (c : Caller) leaf, log.callers[t]? = some c →
    log.settled.get? t = some (.issued leaf) → log.returned c true = some leaf
  /-- What is in the file was issued, to one caller. -/
  issuer : ∀ i leaf, log.file[i]? = some leaf → ∃ t c, log.callers[t]? = some c ∧
    c.reservation.index = i ∧ log.settled.get? t = some (.issued leaf)
  one : ∀ (t t' : ℕ) (c c' : Caller) leaf leaf',
    log.callers[t]? = some c → log.callers[t']? = some c' →
    log.settled.get? t = some (.issued leaf) → log.settled.get? t' = some (.issued leaf') →
    c.reservation.index = c'.reservation.index → t = t'

/-- What holds of a log between sections: and the receipt whose turn it is has not come back. -/
structure Sequenced (log : ReceiptLog) : Prop extends log.Queued where
  turn : log.broken = false → log.signed.get? log.file.length = none

namespace Queued

variable {log log' : ReceiptLog}

theorem ticket_inj (h : log.Queued) {i j : ℕ} {r r' : Reservation}
    (hr : log.held.get? i = some r) (hr' : log.held.get? j = some r')
    (heq : r.ticket = r'.ticket) : r = r' := by
  obtain ⟨c, hc, rfl⟩ := h.caller i r hr
  obtain ⟨c', hc', rfl⟩ := h.caller j r' hr'
  rw [heq, hc'] at hc
  rw [Option.some.inj hc]

theorem id_inj (h : log.Queued) {i j : ℕ} {r r' : Reservation}
    (hr : log.held.get? i = some r) (hr' : log.held.get? j = some r')
    (heq : r.receiptId = r'.receiptId) : i = j :=
  Option.some.inj (((h.heldIds _ i).mpr ⟨r, hr, heq⟩).symm.trans
    ((h.heldIds _ j).mpr ⟨r', hr', rfl⟩))

/-- A log whose index never failed has all its receipts in its index. -/
theorem file_eq (h : log.Queued) (hbroken : log.broken = false) : log.file = log.leaves := by
  rw [file, h.broken.mp hbroken, List.append_nil]

end Queued

/-! ### What a section does -/

/-- What one section does that appends a batch, and takes back every position from one on. -/
structure Advances (log log' : ReceiptLog) (batch : List (Reservation × Leaf)) : Prop where
  frame : log' = { log with
    leaves := log'.leaves, unindexed := log'.unindexed, tree := log'.tree, next := log'.next
    held := log'.held, heldIds := log'.heldIds, signed := log'.signed, broken := log'.broken
    settled := log'.settled }
  file : log'.file = log.file ++ batch.map Prod.snd
  leaves : log'.broken = false → log.broken = false ∧ log'.leaves = log.leaves ++ batch.map Prod.snd
  broken : (log.broken = false ↔ log.unindexed = []) →
    (log'.broken = false ↔ log'.unindexed = [])
  turn : ∀ j p, batch[j]? = some p → log.signed.get? (log.file.length + j) = some p
  le_next : log'.file.length ≤ log'.next
  next_le : log'.next ≤ log.next
  held : ∀ i, log'.held.get? i =
    if log'.file.length ≤ i ∧ i < log'.next then log.held.get? i else none
  signed : ∀ i, log'.signed.get? i =
    if log'.file.length ≤ i ∧ i < log'.next then log.signed.get? i else none
  heldIds : ∀ id, log'.heldIds.get? id =
    (log.heldIds.get? id).filter fun i => log'.file.length ≤ i ∧ i < log'.next
  issued : ∀ p ∈ batch, log'.settled.get? p.1.ticket = some (.issued p.2)
  back : ∀ i r, log.held.get? i = some r → log'.next ≤ i →
    ∃ s, log'.settled.get? r.ticket = some s ∧ ∀ leaf, s ≠ .issued leaf
  kept : ∀ t, (∀ i r, log.held.get? i = some r → r.ticket = t →
    log'.file.length ≤ i ∧ i < log'.next) → log'.settled.get? t = log.settled.get? t

/-- What a section settles: the receipts of a batch behind the file, as issued, and the
reservations from a position on, as something else. -/
structure Settles (log : ReceiptLog) (batch : List (Reservation × Leaf)) (next : ℕ)
    (as : Reservation → Settlement) (gone : List (Reservation × Settlement)) : Prop where
  turn : ∀ j p, batch[j]? = some p → log.signed.get? (log.file.length + j) = some p
  le : log.file.length + batch.length ≤ next
  next_le : next ≤ log.next
  not_issued : ∀ r leaf, as r ≠ .issued leaf
  mem_iff : ∀ p, p ∈ gone ↔ (∃ q ∈ batch, p = (q.1, .issued q.2)) ∨
    (log.held.get? p.1.index = some p.1 ∧ next ≤ p.1.index ∧ p.2 = as p.1)

namespace Settles

variable {log : ReceiptLog} {batch : List (Reservation × Leaf)} {next : ℕ}
  {as : Reservation → Settlement} {gone : List (Reservation × Settlement)}

/-- The receipts of the batch are held right behind the file. -/
theorem batch_held (hs : log.Settles batch next as gone) (h : log.Queued)
    {q : Reservation × Leaf} (hq : q ∈ batch) : ∃ j, j < batch.length ∧ batch[j]? = some q ∧
      log.held.get? (log.file.length + j) = some q.1 ∧ q.1.index = log.file.length + j := by
  obtain ⟨j, hj, hget⟩ := List.getElem_of_mem hq
  have hget' : batch[j]? = some q := by rw [List.getElem?_eq_getElem hj, hget]
  have hr := (h.signed _ _ (hs.turn j q hget')).1
  exact ⟨j, hj, hget', hr, h.indexed _ _ hr⟩

theorem held_of_mem (hs : log.Settles batch next as gone) (h : log.Queued)
    {p : Reservation × Settlement} (hp : p ∈ gone) : log.held.get? p.1.index = some p.1 ∧
      ¬(log.file.length + batch.length ≤ p.1.index ∧ p.1.index < next) := by
  rcases (hs.mem_iff p).mp hp with ⟨q, hq, rfl⟩ | ⟨hr, hge, -⟩
  · obtain ⟨j, hj, -, hr, hindex⟩ := hs.batch_held h hq
    rw [← hindex] at hr
    exact ⟨hr, fun hwindow => by have := hwindow.1; simp only at this; omega⟩
  · exact ⟨hr, by omega⟩

theorem mem_of_held (hs : log.Settles batch next as gone) (h : log.Queued) {i : ℕ}
    {r : Reservation} (hr : log.held.get? i = some r)
    (hwindow : ¬(log.file.length + batch.length ≤ i ∧ i < next)) : ∃ p ∈ gone, p.1 = r := by
  have hindex := h.indexed i r hr
  obtain ⟨hfrom, -⟩ := (h.held i).mp ⟨r, hr⟩
  by_cases hlt : i < log.file.length + batch.length
  · obtain ⟨q, hq⟩ : ∃ q, batch[i - log.file.length]? = some q :=
      ⟨_, List.getElem?_eq_getElem (by omega)⟩
    have hr' := (h.signed _ _ (hs.turn _ q hq)).1
    rw [show log.file.length + (i - log.file.length) = i by omega, hr] at hr'
    obtain rfl := Option.some.inj hr'
    exact ⟨(q.1, .issued q.2), (hs.mem_iff _).mpr (Or.inl ⟨q, List.mem_of_getElem? hq, rfl⟩), rfl⟩
  · have hge : next ≤ r.index := by omega
    exact ⟨(r, as r), (hs.mem_iff _).mpr (Or.inr ⟨by rw [hindex]; exact hr, hge, rfl⟩), rfl⟩

/-- The positions that are popped are those held outside the window that stays. -/
theorem index_iff (hs : log.Settles batch next as gone) (h : log.Queued) {i : ℕ} :
    i ∈ gone.map (fun p => p.1.index) ↔
      (∃ r, log.held.get? i = some r) ∧ ¬(log.file.length + batch.length ≤ i ∧ i < next) := by
  rw [List.mem_map]
  constructor
  · rintro ⟨p, hp, rfl⟩
    exact ⟨⟨p.1, (hs.held_of_mem h hp).1⟩, (hs.held_of_mem h hp).2⟩
  · rintro ⟨⟨r, hr⟩, hwindow⟩
    obtain ⟨p, hp, rfl⟩ := hs.mem_of_held h hr hwindow
    exact ⟨p, hp, h.indexed _ _ hr⟩

/-- One reservation is settled once. -/
theorem ticket_inj (hs : log.Settles batch next as gone) (h : log.Queued)
    {p p' : Reservation × Settlement} (hp : p ∈ gone) (hp' : p' ∈ gone)
    (hticket : p.1.ticket = p'.1.ticket) : p = p' := by
  have hr := h.ticket_inj (hs.held_of_mem h hp).1 (hs.held_of_mem h hp').1 hticket
  rcases (hs.mem_iff p).mp hp with ⟨q, hq, rfl⟩ | ⟨-, hge, has⟩ <;>
    rcases (hs.mem_iff p').mp hp' with ⟨q', hq', rfl⟩ | ⟨-, hge', has'⟩
  · obtain ⟨j, -, hget, -, hindex⟩ := hs.batch_held h hq
    obtain ⟨j', -, hget', -, hindex'⟩ := hs.batch_held h hq'
    have hr' : q.1 = q'.1 := hr
    obtain rfl : j = j' := by rw [hr'] at hindex; omega
    rw [Option.some.inj (hget.symm.trans hget')]
  · obtain ⟨j, hj, -, -, hindex⟩ := hs.batch_held h hq
    have hr' : q.1 = p'.1 := hr
    have hle := hs.le
    rw [← hr', hindex] at hge'
    omega
  · obtain ⟨j, hj, -, -, hindex⟩ := hs.batch_held h hq'
    have hr' : p.1 = q'.1 := hr
    have hle := hs.le
    rw [hr', hindex] at hge
    omega
  · exact Prod.ext hr (by rw [has, has', hr])

/-- What is settled, in a log that has grown. -/
theorem settled_retireAll (hs : log.Settles batch next as gone) (h : log.Queued)
    (grown : ReceiptLog) {p : Reservation × Settlement} (hp : p ∈ gone) :
    (grown.retireAll gone).settled.get? p.1.ticket = some p.2 := by
  refine Dict.get?_setAll_of_mem _ (List.mem_map.mpr ⟨p, hp, rfl⟩) ?_
  intro q hq hticket
  obtain ⟨p', hp', rfl⟩ := List.mem_map.mp hq
  rw [hs.ticket_inj h hp' hp hticket]

end Settles

/-- A section that settles reservations once the log has grown by the batch. -/
theorem advances_retireAll {log : ReceiptLog} (h : log.Queued) {grown : ReceiptLog}
    {batch : List (Reservation × Leaf)} {next : ℕ} {as : Reservation → Settlement}
    {gone : List (Reservation × Settlement)} (hs : log.Settles batch next as gone)
    (hframe : grown = { log with
      leaves := grown.leaves, unindexed := grown.unindexed, tree := grown.tree
      broken := grown.broken })
    (hfile : grown.file = log.file ++ batch.map Prod.snd)
    (hleaves : grown.broken = false →
      log.broken = false ∧ grown.leaves = log.leaves ++ batch.map Prod.snd)
    (hbroken : (log.broken = false ↔ log.unindexed = []) →
      (grown.broken = false ↔ grown.unindexed = [])) :
    log.Advances { grown.retireAll gone with next := next } batch := by
  have hlength : grown.file.length = log.file.length + batch.length := by
    rw [hfile, List.length_append, List.length_map]
  have hheld : grown.held = log.held := by rw [hframe]
  have hsigned : grown.signed = log.signed := by rw [hframe]
  have hids : grown.heldIds = log.heldIds := by rw [hframe]
  have hsettled : grown.settled = log.settled := by rw [hframe]
  refine ⟨?_, hfile, hleaves, hbroken, hs.turn, ?_, hs.next_le, ?_, ?_, ?_, ?_, ?_, ?_⟩
  · exact hframe ▸ rfl
  · exact hlength.trans_le hs.le
  · intro i
    change (grown.held.eraseAll _).get? i =
      if grown.file.length ≤ i ∧ i < next then log.held.get? i else none
    rw [hlength, hheld]
    by_cases hmem : i ∈ gone.map fun p => p.1.index
    · rw [Dict.get?_eraseAll_of_mem _ hmem, if_neg ((hs.index_iff h).mp hmem).2]
    · rw [Dict.get?_eraseAll_of_notMem _ hmem]
      split_ifs with hwindow
      · rfl
      · by_contra hsome
        exact hmem ((hs.index_iff h).mpr ⟨Option.ne_none_iff_exists'.mp hsome, hwindow⟩)
  · intro i
    change (grown.signed.eraseAll _).get? i =
      if grown.file.length ≤ i ∧ i < next then log.signed.get? i else none
    rw [hlength, hsigned]
    by_cases hmem : i ∈ gone.map fun p => p.1.index
    · rw [Dict.get?_eraseAll_of_mem _ hmem, if_neg ((hs.index_iff h).mp hmem).2]
    · rw [Dict.get?_eraseAll_of_notMem _ hmem]
      split_ifs with hwindow
      · rfl
      · by_contra hsome
        obtain ⟨p, hp⟩ := Option.ne_none_iff_exists'.mp hsome
        exact hmem ((hs.index_iff h).mpr ⟨⟨p.1, (h.signed i p hp).1⟩, hwindow⟩)
  · intro id
    change (grown.heldIds.eraseAll _).get? id = (log.heldIds.get? id).filter fun i =>
      grown.file.length ≤ i ∧ i < next
    rw [hlength, hids]
    by_cases hmem : id ∈ gone.map fun p => p.1.receiptId
    · rw [Dict.get?_eraseAll_of_mem _ hmem]
      obtain ⟨p, hp, rfl⟩ := List.mem_map.mp hmem
      obtain ⟨hr, hwindow⟩ := hs.held_of_mem h hp
      rw [(h.heldIds _ _).mpr ⟨p.1, hr, rfl⟩, Option.filter_some_neg (by simpa using hwindow)]
    · rw [Dict.get?_eraseAll_of_notMem _ hmem]
      cases hget : log.heldIds.get? id with
      | none => rfl
      | some i =>
        obtain ⟨r, hr, rfl⟩ := (h.heldIds id i).mp hget
        refine (Option.filter_some_pos ?_).symm
        by_contra hwindow
        obtain ⟨p, hp, rfl⟩ := hs.mem_of_held h hr (by simpa using hwindow)
        exact hmem (List.mem_map.mpr ⟨p, hp, rfl⟩)
  · intro p hp
    have hmem : (p.1, Settlement.issued p.2) ∈ gone := (hs.mem_iff _).mpr (Or.inl ⟨p, hp, rfl⟩)
    exact hs.settled_retireAll h grown hmem
  · intro i r hr hge
    have hindex := h.indexed i r hr
    have hmem : (r, as r) ∈ gone := (hs.mem_iff _).mpr (Or.inr ⟨hindex ▸ hr, hindex ▸ hge, rfl⟩)
    exact ⟨as r, hs.settled_retireAll h grown hmem, hs.not_issued r⟩
  · intro t ht
    refine (Dict.get?_setAll_of_notMem _ ?_).trans (by rw [hsettled])
    intro hmem
    obtain ⟨q, hq, rfl⟩ := List.mem_map.mp hmem
    obtain ⟨p, hp, rfl⟩ := List.mem_map.mp hq
    refine (hs.held_of_mem h hp).2 ?_
    have := ht _ _ (hs.held_of_mem h hp).1 rfl
    rwa [show ({ grown.retireAll gone with next := next } : ReceiptLog).file.length =
      log.file.length + batch.length from hlength] at this

/-! ### A section keeps the invariant -/

namespace Advances

variable {log log' : ReceiptLog} {batch : List (Reservation × Leaf)}

/-- A receipt of the batch, and the reservation it is for. -/
theorem entry (ha : log.Advances log' batch) (h : log.Queued) {j : ℕ} {p : Reservation × Leaf}
    (hp : batch[j]? = some p) : log.held.get? (log.file.length + j) = some p.1 ∧
      p.1.index = log.file.length + j ∧ log'.file[log.file.length + j]? = some p.2 ∧
      log.file.length + j < log'.file.length := by
  obtain ⟨hr, -, -⟩ := h.signed _ _ (ha.turn j p hp)
  obtain ⟨hj, -⟩ := List.getElem?_eq_some_iff.mp hp
  refine ⟨hr, h.indexed _ _ hr, ?_, by rw [ha.file, List.length_append, List.length_map]; omega⟩
  rw [ha.file, List.getElem?_append_right (Nat.le_add_right _ _), Nat.add_sub_cancel_left,
    List.getElem?_map, hp]
  rfl

/-- A receipt of the file was there before, or is of the batch. -/
theorem getElem?_file (ha : log.Advances log' batch) {i : ℕ} {leaf : Leaf}
    (hleaf : log'.file[i]? = some leaf) : log.file[i]? = some leaf ∨
      ∃ j p, i = log.file.length + j ∧ batch[j]? = some p ∧ leaf = p.2 := by
  rw [ha.file] at hleaf
  rcases Nat.lt_or_ge i log.file.length with hlt | hge
  · rw [List.getElem?_append_left hlt] at hleaf
    exact Or.inl hleaf
  · rw [List.getElem?_append_right hge, List.getElem?_map, Option.map_eq_some_iff] at hleaf
    obtain ⟨p, hp, rfl⟩ := hleaf
    exact Or.inr ⟨i - log.file.length, p, by omega, hp, rfl⟩

theorem getElem?_of_file (ha : log.Advances log' batch) {i : ℕ} {leaf : Leaf}
    (hleaf : log.file[i]? = some leaf) : log'.file[i]? = some leaf := by
  obtain ⟨hlt, -⟩ := List.getElem?_eq_some_iff.mp hleaf
  rw [ha.file, List.getElem?_append_left hlt, hleaf]

theorem held_iff (ha : log.Advances log' batch) {i : ℕ} {r : Reservation} :
    log'.held.get? i = some r ↔
      log.held.get? i = some r ∧ log'.file.length ≤ i ∧ i < log'.next := by
  rw [ha.held]
  split_ifs with hwindow <;> simp [hwindow]

theorem callers_eq (ha : log.Advances log' batch) : log'.callers = log.callers := by rw [ha.frame]

theorem working_eq (ha : log.Advances log' batch) : log'.working = log.working := by rw [ha.frame]

theorem logId_eq (ha : log.Advances log' batch) : log'.logId = log.logId := by rw [ha.frame]

theorem returned_eq (ha : log.Advances log' batch) : log'.returned = log.returned := by
  rw [ha.frame]
  rfl

/-- What became of a caller's reservation: it had been settled, it is held still, its receipt was
issued, or it was taken back. -/
theorem fate (ha : log.Advances log' batch) (h : log.Queued) {t : ℕ} {c : Caller}
    (hc : log.callers[t]? = some c) :
    (log.settled.get? t ≠ none ∧ log.held.get? c.reservation.index ≠ some c.reservation ∧
      log'.settled.get? t = log.settled.get? t) ∨
    (log.held.get? c.reservation.index = some c.reservation ∧
      (log'.file.length ≤ c.reservation.index ∧ c.reservation.index < log'.next) ∧
      log'.settled.get? t = none) ∨
    (∃ (j : ℕ) (p : Reservation × Leaf), batch[j]? = some p ∧ p.1 = c.reservation ∧
      log'.settled.get? t = some (.issued p.2)) ∨
    (log'.next ≤ c.reservation.index ∧
      ∃ s, log'.settled.get? t = some s ∧ ∀ leaf, s ≠ .issued leaf) := by
  have hticket := h.ticket t c hc
  -- only its own reservation has a caller's ticket
  have hown : ∀ i r, log.held.get? i = some r → r.ticket = t → r = c.reservation := by
    intro i r hr hrt
    obtain ⟨c', hc', rfl⟩ := h.caller i r hr
    rw [hrt, hc] at hc'
    rw [Option.some.inj hc']
  by_cases hheld : log.held.get? c.reservation.index = some c.reservation
  · have hnone := (h.settled t c hc).mpr hheld
    obtain ⟨hfrom, -⟩ := (h.held _).mp ⟨_, hheld⟩
    rcases Nat.lt_or_ge c.reservation.index log'.file.length with hlt | hge
    · have hlen : log'.file.length = log.file.length + batch.length := by
        rw [ha.file, List.length_append, List.length_map]
      obtain ⟨p, hp⟩ : ∃ p, batch[c.reservation.index - log.file.length]? = some p :=
        ⟨_, List.getElem?_eq_getElem (by omega)⟩
      obtain ⟨hr, -, -, -⟩ := ha.entry h hp
      rw [show log.file.length + (c.reservation.index - log.file.length) = c.reservation.index by
        omega, hheld] at hr
      have hsame := (Option.some.inj hr).symm
      have hissued := ha.issued p (List.mem_of_getElem? hp)
      rw [hsame, hticket] at hissued
      exact Or.inr (Or.inr (Or.inl ⟨_, p, hp, hsame, hissued⟩))
    · rcases Nat.lt_or_ge c.reservation.index log'.next with hlt | hback
      · refine Or.inr (Or.inl ⟨hheld, ⟨hge, hlt⟩, ?_⟩)
        rw [ha.kept t, hnone]
        intro i r hr hrt
        obtain rfl := hown i r hr hrt
        rw [← h.indexed i _ hr]
        exact ⟨hge, hlt⟩
      · obtain ⟨s, hs, hnot⟩ := ha.back _ _ hheld hback
        rw [hticket] at hs
        exact Or.inr (Or.inr (Or.inr ⟨hback, s, hs, hnot⟩))
  · refine Or.inl ⟨fun hnone => hheld ((h.settled t c hc).mp hnone), hheld, ha.kept t ?_⟩
    intro i r hr hrt
    obtain rfl := hown i r hr hrt
    rw [h.indexed i _ hr] at hheld
    exact absurd hr hheld

/-- A ticket of no caller is settled as it was. -/
theorem kept_of_none (ha : log.Advances log' batch) (h : log.Queued) {t : ℕ}
    (hnone : log.callers[t]? = none) : log'.settled.get? t = log.settled.get? t := by
  refine ha.kept t fun i r hr hrt => ?_
  obtain ⟨c, hc, -⟩ := h.caller i r hr
  rw [hrt, hnone] at hc
  cases hc

/-- What was settled stays as it was settled. -/
theorem settled_of_settled (ha : log.Advances log' batch) (h : log.Queued) {t : ℕ} {s : Settlement}
    (hs : log.settled.get? t = some s) : log'.settled.get? t = some s := by
  obtain ⟨c, hc⟩ := h.known t s hs
  have hnone := (h.settled t c hc).not.mp (by rw [hs]; exact Option.some_ne_none _)
  rcases ha.fate h hc with ⟨-, -, heq⟩ | ⟨hheld, -⟩ | ⟨j, p, hp, hsame, -⟩ | ⟨hback, -⟩
  · rw [heq, hs]
  · exact absurd hheld hnone
  · obtain ⟨hr, hindex, -⟩ := ha.entry h hp
    rw [hsame] at hr hindex
    exact absurd (hindex ▸ hr) hnone
  · rw [ha.kept t, hs]
    intro i r hr hrt
    obtain ⟨c', hc', rfl⟩ := h.caller i r hr
    rw [hrt, hc] at hc'
    obtain rfl := Option.some.inj hc'
    exact absurd ((h.indexed i _ hr).symm ▸ hr) hnone

/-- A caller's receipt that is issued now was issued before, or is in the batch. -/
theorem issued_of_issued (ha : log.Advances log' batch) (h : log.Queued) {t : ℕ} {c : Caller}
    {leaf : Leaf} (hc : log.callers[t]? = some c)
    (hs : log'.settled.get? t = some (.issued leaf)) :
    log.settled.get? t = some (.issued leaf) ∨
      ∃ (j : ℕ) (p : Reservation × Leaf), batch[j]? = some p ∧ p.1 = c.reservation ∧
        p.2 = leaf := by
  rcases ha.fate h hc with ⟨-, -, heq⟩ | ⟨-, -, hnone⟩ | ⟨j, p, hp, hsame, hissued⟩ |
    ⟨-, s, hs', hnot⟩
  · exact Or.inl (heq ▸ hs)
  · rw [hnone] at hs
    cases hs
  · rw [hissued] at hs
    exact Or.inr ⟨j, p, hp, hsame, Settlement.issued.inj (Option.some.inj hs)⟩
  · rw [hs'] at hs
    exact absurd (Option.some.inj hs) (hnot leaf)

/-- The receipts of the file and those of the batch bear different ids. -/
theorem nodup_file (ha : log.Advances log' batch) (h : log.Queued) :
    (log'.file.map Leaf.receiptId).Nodup := by
  rw [ha.file, List.map_append, List.map_map]
  refine List.nodup_append.mpr ⟨h.nodup, ?_, ?_⟩
  · rw [List.nodup_iff_getElem?_ne_getElem?]
    intro j k hjk hk heq
    rw [List.length_map] at hk
    obtain ⟨p, hp⟩ : ∃ p, batch[j]? = some p := ⟨_, List.getElem?_eq_getElem (by omega)⟩
    obtain ⟨q, hq⟩ : ∃ q, batch[k]? = some q := ⟨_, List.getElem?_eq_getElem hk⟩
    simp only [List.getElem?_map, hp, hq, Option.map_some, Option.some.injEq,
      Function.comp_apply] at heq
    rw [(h.signed _ _ (ha.turn j p hp)).2.2, (h.signed _ _ (ha.turn k q hq)).2.2] at heq
    have := h.id_inj (ha.entry h hp).1 (ha.entry h hq).1 heq
    omega
  · intro a ha' b hb hab
    obtain ⟨p, hp, rfl⟩ := List.mem_map.mp hb
    obtain ⟨j, hj⟩ := List.mem_iff_getElem?.mp hp
    have hid := (h.signed _ _ (ha.turn j p hj)).2.2
    rw [hab, Function.comp_apply, hid] at ha'
    exact h.new _ _ (ha.entry h hj).1 ha'

/-- The id of a reservation held still is on no receipt of the file. -/
theorem notMem_file (ha : log.Advances log' batch) (h : log.Queued) {i : ℕ} {r : Reservation}
    (hr : log'.held.get? i = some r) : r.receiptId ∉ log'.file.map Leaf.receiptId := by
  obtain ⟨hheld, hge, -⟩ := ha.held_iff.mp hr
  intro hmem
  obtain ⟨leaf, hleaf, hid⟩ := List.mem_map.mp hmem
  obtain ⟨k, hk⟩ := List.mem_iff_getElem?.mp hleaf
  rcases ha.getElem?_file hk with hold | ⟨j, p, rfl, hp, rfl⟩
  · exact h.new i r hheld (hid ▸ List.mem_map_of_mem (List.mem_of_getElem? hold))
  · rw [(h.signed _ _ (ha.turn j p hp)).2.2] at hid
    obtain ⟨hr', -, -, hlt⟩ := ha.entry h hp
    have := h.id_inj hr' hheld hid
    omega

/-- A caller has not been answered exactly while its reservation is held. -/
theorem settled_iff (ha : log.Advances log' batch) (h : log.Queued) {t : ℕ} {c : Caller}
    (hc : log.callers[t]? = some c) :
    log'.settled.get? t = none ↔
      log'.held.get? c.reservation.index = some c.reservation := by
  rw [ha.held_iff]
  rcases ha.fate h hc with ⟨hne, hnot, heq⟩ | ⟨hheld, hwindow, hnone⟩ |
    ⟨j, p, hp, hsame, hissued⟩ | ⟨hback, s, hs, -⟩
  · simp [heq, hne, hnot]
  · simp [hheld, hwindow, hnone]
  · obtain ⟨-, hindex, -, hlt⟩ := ha.entry h hp
    rw [hsame] at hindex
    simp only [hissued, reduceCtorEq, false_iff, not_and, not_lt]
    omega
  · simp only [hs, reduceCtorEq, false_iff, not_and, not_lt]
    exact fun _ _ => hback

/-- A receipt that is issued stands in the file at its caller's position. -/
theorem getElem?_of_issued (ha : log.Advances log' batch) (h : log.Queued) {t : ℕ} {c : Caller}
    {leaf : Leaf} (hc : log.callers[t]? = some c)
    (hs : log'.settled.get? t = some (.issued leaf)) :
    log'.file[c.reservation.index]? = some leaf := by
  rcases ha.issued_of_issued h hc hs with hold | ⟨j, p, hp, hsame, rfl⟩
  · obtain ⟨c', hc', hleaf⟩ := h.issued t leaf hold
    rw [hc] at hc'
    obtain rfl := Option.some.inj hc'
    exact ha.getElem?_of_file hleaf
  · obtain ⟨-, hindex, hfile, -⟩ := ha.entry h hp
    rw [← hsame, hindex, hfile]

/-- Of two callers with one position, no two are issued a receipt. -/
theorem ticket_inj (ha : log.Advances log' batch) (h : log.Queued) {t t' : ℕ} {c c' : Caller}
    {leaf leaf' : Leaf} (hc : log.callers[t]? = some c) (hc' : log.callers[t']? = some c')
    (hs : log'.settled.get? t = some (.issued leaf))
    (hs' : log'.settled.get? t' = some (.issued leaf'))
    (hindex : c.reservation.index = c'.reservation.index) : t = t' := by
  -- before the section it was in the file, or held beyond the file's end
  have hwhere : ∀ {t : ℕ} {c : Caller} {leaf : Leaf}, log.callers[t]? = some c →
      log'.settled.get? t = some (.issued leaf) →
      (log.settled.get? t = some (.issued leaf) ∧ c.reservation.index < log.file.length) ∨
        (log.held.get? c.reservation.index = some c.reservation ∧
          log.file.length ≤ c.reservation.index) := by
    intro t c leaf hc hs
    rcases ha.issued_of_issued h hc hs with hold | ⟨j, p, hp, hsame, -⟩
    · obtain ⟨d, hd, hfile⟩ := h.issued t leaf hold
      rw [hc] at hd
      obtain rfl := Option.some.inj hd
      exact Or.inl ⟨hold, (List.getElem?_eq_some_iff.mp hfile).1⟩
    · obtain ⟨hr, hindex, -⟩ := ha.entry h hp
      rw [hsame] at hr hindex
      exact Or.inr ⟨hindex ▸ hr, by omega⟩
  rcases hwhere hc hs with ⟨hold, hlt⟩ | ⟨hheld, hge⟩ <;>
    rcases hwhere hc' hs' with ⟨hold', hlt'⟩ | ⟨hheld', hge'⟩
  · exact h.one t t' c c' leaf leaf' hc hc' hold hold' hindex
  · omega
  · omega
  · rw [hindex, hheld'] at hheld
    rw [← h.ticket t c hc, ← h.ticket t' c' hc', Option.some.inj hheld]

/-- A section keeps the invariant. -/
theorem queued (ha : log.Advances log' batch) (h : log.Queued) : log'.Queued where
  placed i leaf hleaf := by
    rw [ha.logId_eq]
    rcases ha.getElem?_file hleaf with hold | ⟨j, p, rfl, hp, rfl⟩
    · exact h.placed i leaf hold
    · exact (h.signed _ _ (ha.turn j p hp)).2.1
  nodup := ha.nodup_file h
  length_le := ha.le_next
  held i := by
    have hrange := h.held i
    have hle := ha.next_le
    have hlen : log.file.length ≤ log'.file.length := by
      rw [ha.file, List.length_append]
      exact Nat.le_add_right _ _
    simp only [ha.held_iff, exists_and_right, hrange]
    omega
  indexed i r hr := h.indexed i r (ha.held_iff.mp hr).1
  heldIds id i := by
    rw [ha.heldIds, Option.filter_eq_some_iff, h.heldIds]
    simp only [ha.held_iff, decide_eq_true_eq]
    constructor
    · rintro ⟨⟨r, hr, hid⟩, hwindow⟩
      exact ⟨r, ⟨hr, hwindow⟩, hid⟩
    · rintro ⟨r, ⟨hr, hwindow⟩, hid⟩
      exact ⟨⟨r, hr, hid⟩, hwindow⟩
  new i r hr := ha.notMem_file h hr
  signed i p hp := by
    rw [ha.signed] at hp
    split_ifs at hp with hwindow
    obtain ⟨hr, hplaced, hid⟩ := h.signed i p hp
    exact ⟨ha.held_iff.mpr ⟨hr, hwindow⟩, ha.logId_eq ▸ hplaced, hid⟩
  returned i p hp := by
    rw [ha.signed] at hp
    split_ifs at hp
    rw [ha.callers_eq, ha.returned_eq]
    exact h.returned i p hp
  broken := ha.broken h.broken
  caller i r hr := by
    rw [ha.callers_eq]
    exact h.caller i r (ha.held_iff.mp hr).1
  ticket t c hc := h.ticket t c (ha.callers_eq ▸ hc)
  suits t c hc := ha.logId_eq ▸ h.suits t c (ha.callers_eq ▸ hc)
  settled t c hc := ha.settled_iff h (ha.callers_eq ▸ hc)
  known t s hs := by
    rw [ha.callers_eq]
    cases hc : log.callers[t]? with
    | some c => exact ⟨c, rfl⟩
    | none =>
      obtain ⟨c, hc'⟩ := h.known t s (ha.kept_of_none h hc ▸ hs)
      exact ⟨c, hc.symm.trans hc'⟩
  working i r hr := by
    obtain ⟨hheld, hwindow⟩ := ha.held_iff.mp hr
    rw [ha.working_eq, ha.signed, if_pos hwindow]
    exact h.working i r hheld
  issued t leaf hs := by
    rw [ha.callers_eq]
    cases hc : log.callers[t]? with
    | some c => exact ⟨c, rfl, ha.getElem?_of_issued h hc hs⟩
    | none =>
      obtain ⟨c, hc', -⟩ := h.issued t leaf (ha.kept_of_none h hc ▸ hs)
      rw [hc] at hc'
      cases hc'
  own t c leaf hc hs := by
    rw [ha.callers_eq] at hc
    rw [ha.returned_eq]
    rcases ha.issued_of_issued h hc hs with hold | ⟨j, p, hp, hsame, rfl⟩
    · exact h.own t c leaf hc hold
    · obtain ⟨c', hc', hreturned⟩ := h.returned _ p (ha.turn j p hp)
      rw [hsame, h.ticket t c hc, hc] at hc'
      rw [Option.some.inj hc', hreturned]
  issuer i leaf hleaf := by
    rw [ha.callers_eq]
    rcases ha.getElem?_file hleaf with hold | ⟨j, p, rfl, hp, rfl⟩
    · obtain ⟨t, c, hc, hindex, hs⟩ := h.issuer i leaf hold
      exact ⟨t, c, hc, hindex, ha.settled_of_settled h hs⟩
    · obtain ⟨hr, hindex, -, -⟩ := ha.entry h hp
      obtain ⟨c, hc, hsame⟩ := h.caller _ _ hr
      exact ⟨p.1.ticket, c, hc, hsame ▸ hindex, ha.issued p (List.mem_of_getElem? hp)⟩
  one t t' c c' leaf leaf' hc hc' hs hs' hindex :=
    ha.ticket_inj h (ha.callers_eq ▸ hc) (ha.callers_eq ▸ hc') hs hs' hindex

end Advances

/-! ### The sections of the sequencer -/

theorem retireAll_append (log : ReceiptLog) (a b : List (Reservation × Settlement)) :
    (log.retireAll a).retireAll b = log.retireAll (a ++ b) := by
  simp only [← foldl_retire, List.foldl_append]

theorem held_retireAll {log : ReceiptLog} {gone : List (Reservation × Settlement)} {i : ℕ}
    {r : Reservation} : (log.retireAll gone).held.get? i = some r ↔
      log.held.get? i = some r ∧ i ∉ gone.map fun p => p.1.index := by
  change (log.held.eraseAll _).get? i = some r ↔ _
  by_cases hmem : i ∈ gone.map fun p => p.1.index
  · rw [Dict.get?_eraseAll_of_mem _ hmem]
    simp [hmem]
  · rw [Dict.get?_eraseAll_of_notMem _ hmem]
    simp [hmem]

theorem Indexed.retireAll {log : ReceiptLog} (h : log.Indexed)
    (gone : List (Reservation × Settlement)) : (log.retireAll gone).Indexed :=
  fun i r hr => h i r (held_retireAll.mp hr).1

theorem advances_refl {log : ReceiptLog} (h : log.Queued) : log.Advances log [] := by
  have hsettles : log.Settles [] log.next (fun _ => .takenBack) [] := by
    refine ⟨by simp, by simpa using h.length_le, le_rfl, by simp, fun p => ?_⟩
    simp only [List.not_mem_nil, false_and, exists_false, false_or, false_iff, not_and]
    intro hr hge
    have := ((h.held _).mp ⟨_, hr⟩).2
    omega
  exact advances_retireAll h hsettles rfl (by simp) (fun hb => ⟨hb, by simp⟩) id

/-- Taking back a reservation takes back every later one. -/
theorem advances_takeBack {log : ReceiptLog} (h : log.Queued) {r : Reservation}
    (hr : log.held.get? r.index = some r) (error : Option LogFault) :
    log.Advances (log.takeBack r error) [] := by
  obtain ⟨hge, hlt⟩ := (h.held _).mp ⟨r, hr⟩
  have hsettles : log.Settles [] r.index (backAs r error) (log.back r error) := by
    refine ⟨by simp, hge, hlt.le, backAs_ne_issued r error, fun p => ?_⟩
    simp [mem_back h.indexed]
  rw [takeBack_eq h.indexed]
  exact advances_retireAll h hsettles rfl (by simp) (fun hb => ⟨hb, by simp⟩) id

/-- A batch that was written is settled, and every position from one on taken back. -/
theorem advances_settle {log : ReceiptLog} (h : log.Queued) (grown : ReceiptLog)
    {batch : List (Reservation × Leaf)} {refused : Option (Reservation × LogFault)}
    (hframe : grown = { log with
      leaves := grown.leaves, unindexed := grown.unindexed, tree := grown.tree
      broken := grown.broken })
    (hfile : grown.file = log.file ++ batch.map Prod.snd)
    (hleaves : grown.broken = false →
      log.broken = false ∧ grown.leaves = log.leaves ++ batch.map Prod.snd)
    (hbroken : (log.broken = false ↔ log.unindexed = []) →
      (grown.broken = false ↔ grown.unindexed = []))
    (hturn : ∀ j p, batch[j]? = some p → log.signed.get? (log.file.length + j) = some p)
    (hle : log.file.length + batch.length ≤ log.next)
    (hrefused : ∀ p ∈ refused, ∃ leaf,
      log.signed.get? (log.file.length + batch.length) = some (p.1, leaf)) :
    log.Advances ((batch.foldl settleIssued grown).takeBackRefused refused) batch ∧
      (refused ≠ none → ((batch.foldl settleIssued grown).takeBackRefused refused).next =
        log.file.length + batch.length) := by
  have hheld : grown.held = log.held := by rw [hframe]
  have hindexed : grown.Indexed := fun i r hr => h.indexed i r (hheld ▸ hr)
  rw [foldl_settleIssued]
  cases refused with
  | none =>
    refine ⟨?_, fun hne => absurd rfl hne⟩
    have hsettles : log.Settles batch log.next (fun _ => .takenBack)
        (batch.map fun p => (p.1, .issued p.2)) := by
      refine ⟨hturn, hle, le_rfl, by simp, fun p => ?_⟩
      rw [List.mem_map]
      constructor
      · rintro ⟨q, hq, rfl⟩
        exact Or.inl ⟨q, hq, rfl⟩
      · rintro (⟨q, hq, rfl⟩ | ⟨hr, hge, -⟩)
        · exact ⟨q, hq, rfl⟩
        · have := ((h.held _).mp ⟨_, hr⟩).2
          omega
    have hgone := advances_retireAll h hsettles hframe hfile hleaves hbroken
    rw [show log.next = (grown.retireAll (batch.map fun p => (p.1, .issued p.2))).next by
      rw [hframe]; rfl] at hgone
    exact hgone
  | some p =>
    obtain ⟨r, e⟩ := p
    obtain ⟨leaf, hleaf⟩ := hrefused _ rfl
    have hr : log.held.get? (log.file.length + batch.length) = some r := (h.signed _ _ hleaf).1
    have hindex := h.indexed _ _ hr
    rw [takeBackRefused, takeBack_eq (hindexed.retireAll _), retireAll_append]
    refine ⟨advances_retireAll h ⟨hturn, hindex.ge, hindex ▸ ((h.held _).mp ⟨r, hr⟩).2.le,
      backAs_ne_issued r (some e), fun p => ?_⟩ hframe hfile hleaves hbroken, fun _ => hindex⟩
    rw [List.mem_append, mem_back (hindexed.retireAll _), held_retireAll, hheld]
    have hother : r.index ≤ p.1.index →
        p.1.index ∉ (batch.map fun q => (q.1, Settlement.issued q.2)).map fun q => q.1.index := by
      intro hge hmem
      rw [List.map_map, List.mem_map] at hmem
      obtain ⟨q, hq, hsame⟩ := hmem
      obtain ⟨j, hj⟩ := List.mem_iff_getElem?.mp hq
      have hlt := (List.getElem?_eq_some_iff.mp hj).1
      have := h.indexed _ _ (h.signed _ _ (hturn j q hj)).1
      simp only [Function.comp_apply] at hsame
      omega
    constructor
    · rintro (hmem | ⟨⟨hr', -⟩, hge, hs⟩)
      · obtain ⟨q, hq, rfl⟩ := List.mem_map.mp hmem
        exact Or.inl ⟨q, hq, rfl⟩
      · exact Or.inr ⟨hr', hge, hs⟩
    · rintro (⟨q, hq, rfl⟩ | ⟨hr', hge, hs⟩)
      · exact Or.inl (List.mem_map.mpr ⟨q, hq, rfl⟩)
      · exact Or.inr ⟨⟨hr', hother hge⟩, hge, hs⟩

/-- A batch that was not written is settled as failed, and every position taken back. -/
theorem advances_fail {log : ReceiptLog} (h : log.Queued) {first : Reservation × Leaf}
    {others : List (Reservation × Leaf)}
    (hturn : ∀ j p, (first :: others)[j]? = some p →
      log.signed.get? (log.file.length + j) = some p) :
    log.Advances ((others.foldl settleFailed log).takeBack first.1 (some .writeError)) [] ∧
      ((others.foldl settleFailed log).takeBack first.1 (some .writeError)).next =
        log.file.length := by
  have hturn' : ∀ q ∈ first :: others, log.held.get? q.1.index = some q.1 ∧
      log.file.length ≤ q.1.index := by
    intro q hq
    obtain ⟨j, hj⟩ := List.mem_iff_getElem?.mp hq
    have hr := (h.signed _ _ (hturn j q hj)).1
    have hindex := h.indexed _ _ hr
    exact ⟨hindex ▸ hr, by omega⟩
  have hfirst := (h.signed _ _ (hturn 0 first rfl)).1
  have hindex := h.indexed _ _ hfirst
  rw [Nat.add_zero] at hfirst hindex
  obtain ⟨-, hlt⟩ := (h.held _).mp ⟨_, hfirst⟩
  rw [foldl_settleFailed, takeBack_eq (h.indexed.retireAll _), retireAll_append, hindex]
  let as : Reservation → Settlement := fun r =>
    if r ∈ others.map Prod.fst then .failed (.notWritten r.receiptId)
    else backAs first.1 (some .writeError) r
  have has : ∀ r leaf, as r ≠ .issued leaf := by
    intro r leaf
    simp only [as]
    split_ifs
    · simp
    · exact backAs_ne_issued _ _ _ _
  refine ⟨advances_retireAll h ⟨by simp, le_rfl, hlt.le, has, fun p => ?_⟩ rfl (by simp)
    (fun hb => ⟨hb, by simp⟩) id, rfl⟩
  rw [List.mem_append, mem_back (h.indexed.retireAll _), held_retireAll, hindex]
  have hothers : log.held.get? p.1.index = some p.1 →
      (p.1.index ∈ (others.map fun q => (q.1, Settlement.failed (.notWritten q.1.receiptId))).map
        (fun q => q.1.index) ↔ p.1 ∈ others.map Prod.fst) := by
    intro hr
    rw [List.map_map, List.mem_map, List.mem_map]
    constructor
    · rintro ⟨q, hq, hsame⟩
      have hq' := (hturn' q (List.mem_cons_of_mem _ hq)).1
      simp only [Function.comp_apply] at hsame
      rw [hsame, hr] at hq'
      exact ⟨q, hq, (Option.some.inj hq').symm⟩
    · rintro ⟨q, hq, hsame⟩
      exact ⟨q, hq, by rw [Function.comp_apply, hsame]⟩
  simp only [List.not_mem_nil, false_and, exists_false, false_or]
  constructor
  · rintro (hmem | ⟨⟨hr, hnot⟩, hge, hs⟩)
    · obtain ⟨q, hq, rfl⟩ := List.mem_map.mp hmem
      obtain ⟨hr, hge⟩ := hturn' q (List.mem_cons_of_mem _ hq)
      exact ⟨hr, hge, (if_pos (List.mem_map_of_mem hq)).symm⟩
    · exact ⟨hr, hge, hs.trans (if_neg fun hmem => hnot ((hothers hr).mpr hmem)).symm⟩
  · rintro ⟨hr, hge, hs⟩
    by_cases hmem : p.1 ∈ others.map Prod.fst
    · replace hs := hs.trans (if_pos hmem)
      obtain ⟨q, hq, hsame⟩ := List.mem_map.mp hmem
      exact Or.inl (List.mem_map.mpr ⟨q, hq, Prod.ext hsame (by rw [hs, ← hsame])⟩)
    · replace hs := hs.trans (if_neg hmem)
      exact Or.inr ⟨⟨hr, fun hin => hmem ((hothers hr).mp hin)⟩, hge, hs⟩

/-- What `_drain` does: the receipts of a batch whose turn has come are in the file, each bound as
it should be, and nobody waits at the turn. -/
structure Drained (log log' : ReceiptLog) (batch : List (Reservation × Leaf)) : Prop where
  advances : log.Advances log' batch
  turn : log'.broken = false → log'.signed.get? log'.file.length = none
  checked : ∀ j p, batch[j]? = some p →
    log.file = log.leaves ∧ log.checkBinding p.2 (staged (batch.take j)) = .ok ⟨⟩

theorem Advances.turn_of_next {log log' : ReceiptLog} {batch : List (Reservation × Leaf)}
    (ha : log.Advances log' batch) (hnext : log'.next = log'.file.length) :
    log'.signed.get? log'.file.length = none := by
  rw [ha.signed, if_neg (by omega)]

/-- A broken log appends nothing: its leaves end before the positions that are held. -/
theorem drain_of_broken {log : ReceiptLog} (h : log.Queued) (hbroken : log.broken = true)
    (write : Extended) : log.drain write = log := by
  have hnone : log.signed.get? log.leaves.length = none := by
    by_contra hsome
    obtain ⟨p, hp⟩ := Option.ne_none_iff_exists'.mp hsome
    have hle := ((h.held _).mp ⟨_, (h.signed _ p hp).1⟩).1
    have hne : log.unindexed ≠ [] := fun hnil => by
      rw [h.broken.mpr hnil] at hbroken
      cases hbroken
    have := List.length_pos_iff.mpr hne
    rw [file, List.length_append] at hle
    omega
  have hready : ∀ room, log.ready room [] = ([], none) := by
    intro room
    cases room with
    | zero => rfl
    | succ room => rw [ready, List.length_nil, Nat.add_zero, hnone]
  rw [drain, hready]
  rfl

theorem drained_drain {log : ReceiptLog} (h : log.Queued) (write : Extended) :
    ∃ batch, log.Drained (log.drain write) batch := by
  cases hb : log.broken with
  | true =>
    rw [drain_of_broken h hb]
    exact ⟨[], advances_refl h, fun hfalse => absurd (hb.symm.trans hfalse) (by simp), by simp⟩
  | false =>
    have hfile := h.file_eq hb
    have hfound := found log
    rw [drain]
    generalize log.ready log.signed.items.length [] = result at hfound ⊢
    obtain ⟨batch, refused⟩ := result
    simp only at hfound ⊢
    have hturn : ∀ j p, batch[j]? = some p → log.signed.get? (log.file.length + j) = some p := by
      rw [hfile]
      exact hfound.turn
    have hle : log.file.length + batch.length ≤ log.next := by
      rcases List.eq_nil_or_concat' batch with rfl | ⟨rest, p, rfl⟩
      · exact h.length_le
      · have hp := hturn rest.length p (by simp)
        have := ((h.held _).mp ⟨_, (h.signed _ _ hp).1⟩).2
        simp only [List.length_append, List.length_singleton]
        omega
    have hrefused : ∀ p ∈ refused, ∃ leaf,
        log.signed.get? (log.file.length + batch.length) = some (p.1, leaf) := by
      rw [hfile]
      exact hfound.refusal
    have hchecked : ∀ j p, batch[j]? = some p →
        log.file = log.leaves ∧ log.checkBinding p.2 (staged (batch.take j)) = .ok ⟨⟩ :=
      fun j p hp => ⟨hfile, (hfound.checked j p hp).2⟩
    -- a batch of nothing changes nothing but what is taken back
    have hnone : log.unindexed = [] := h.broken.mp hb
    have hsettled : ∀ grown : ReceiptLog, log.Advances
        ((batch.foldl settleIssued grown).takeBackRefused refused) batch →
        (refused ≠ none → ((batch.foldl settleIssued grown).takeBackRefused refused).next =
          log.file.length + batch.length) →
        log.Drained ((batch.foldl settleIssued grown).takeBackRefused refused) batch := by
      intro grown ha hnext
      refine ⟨ha, fun _ => ?_, hchecked⟩
      have hlen : ((batch.foldl settleIssued grown).takeBackRefused refused).file.length =
          log.file.length + batch.length := by
        rw [ha.file, List.length_append, List.length_map]
      cases hcase : refused with
      | none =>
        have hlast := hfound.last hcase
        rw [← hfile, ← hlen, hcase] at hlast
        rw [hcase] at ha
        rw [ha.signed, hlast, ite_self]
      | some p =>
        rw [← hcase]
        refine ha.turn_of_next ?_
        rw [hnext (by rw [hcase]; exact Option.some_ne_none p), hlen]
    cases batch with
    | nil =>
      obtain ⟨ha, hnext⟩ := advances_settle h log rfl (by simp)
        (fun hb => ⟨hb, by simp⟩) id hturn hle hrefused
      exact ⟨[], hsettled log ha hnext⟩
    | cons first others =>
      cases write with
      | failed =>
        obtain ⟨ha, hnext⟩ := advances_fail h hturn
        refine ⟨[], ha, fun _ => ha.turn_of_next (hnext.trans ?_), by simp⟩
        rw [ha.file, List.map_nil, List.append_nil]
      | written =>
        obtain ⟨ha, hnext⟩ := advances_settle h
          (log.extend ((first :: others).map Prod.snd) true) rfl
          (by rw [file, file, extend, hnone]; simp) (fun _ => ⟨hb, rfl⟩) id hturn hle hrefused
        exact ⟨first :: others, hsettled _ ha hnext⟩
      | unindexed =>
        obtain ⟨ha, hnext⟩ := advances_settle h
          (log.extend ((first :: others).map Prod.snd) false) rfl
          (by rw [file, file, extend]; simp) (fun hfalse => absurd hfalse (by simp [extend]))
          (fun _ => by simp [extend])
          hturn hle hrefused
        exact ⟨first :: others, hsettled _ ha hnext⟩

end ReceiptLog

end AgentGov.Receipts
