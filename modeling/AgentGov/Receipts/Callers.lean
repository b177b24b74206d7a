import AgentGov.Receipts.Sequencing

/-!
# What the callers of a receipt log see

Whatever the order in which callers take positions, come back, fail and are taken back, and
whatever its publisher does meanwhile, a log keeps the invariant of its sequencer, its file only
grows, and what a caller was told stays true.

## Main definitions

* `AgentGov.Receipts.ReceiptLog.Precedes`: what later sections keep.
* `AgentGov.Receipts.ReceiptLog.Aside`: what leaves the sequencer as it is.

## Main results

* `AgentGov.Receipts.ReceiptLog.sequenced_run`: the invariant holds after every run.
* `AgentGov.Receipts.ReceiptLog.issued_once`: a leaf is issued to one caller, at the position it
  signs, and stays there.
* `AgentGov.Receipts.ReceiptLog.settled_of_returns`: once the callers have come back, every
  reservation is settled.
* `AgentGov.Receipts.ReceiptLog.unsettled_of_broken`: in a log whose index failed, a receipt that
  waits its turn waits for ever.
* `AgentGov.Receipts.ReceiptLog.bound_of_run`: every delivery follows its action receipt.
-/

namespace AgentGov.Receipts

open Foundation

namespace ReceiptLog

/-! ### What later sections keep -/

/-- What later sections keep: the file and the callers grow, and what is settled stays settled. -/
structure Precedes (log log' : ReceiptLog) : Prop where
  logId : log'.logId = log.logId
  version : log'.signatureVersion = log.signatureVersion
  file : log.file <+: log'.file
  callers : log.callers <+: log'.callers
  settled : ∀ t s, log.settled.get? t = some s → log'.settled.get? t = some s

namespace Precedes

variable {log log' log'' : ReceiptLog}

theorem refl (log : ReceiptLog) : log.Precedes log :=
  ⟨rfl, rfl, List.prefix_refl _, List.prefix_refl _, fun _ _ h => h⟩

theorem trans (h : log.Precedes log') (h' : log'.Precedes log'') : log.Precedes log'' :=
  ⟨h'.logId.trans h.logId, h'.version.trans h.version, h.file.trans h'.file,
    h.callers.trans h'.callers, fun t s hs => h'.settled t s (h.settled t s hs)⟩

end Precedes

theorem Advances.precedes {log log' : ReceiptLog} {batch : List (Reservation × Leaf)}
    (ha : log.Advances log' batch) (h : log.Queued) : log.Precedes log' where
  logId := ha.logId_eq
  version := by rw [ha.frame]
  file := ⟨batch.map Prod.snd, ha.file.symm⟩
  callers := by
    rw [ha.callers_eq]
  settled _ _ hs := ha.settled_of_settled h hs

/-! ### Taking a position -/

theorem checkNew_eq_ok {log : ReceiptLog} {id : Text} (h : log.checkNew id = .ok ⟨⟩) :
    id ∉ log.leaves.map Leaf.receiptId ∧ log.heldIds.get? id = none := by
  unfold checkNew at h
  split at h
  · cases h
  · rename_i hnone
    refine ⟨fun hmem => ?_, ?_⟩
    · obtain ⟨leaf, hleaf, rfl⟩ := List.mem_map.mp hmem
      have := List.findIdx?_eq_none_iff.mp hnone leaf hleaf
      simp at this
    · split at h
      · cases h
      · assumption

theorem checkOpen_eq_ok {log : ReceiptLog} (h : log.checkOpen = .ok ⟨⟩) :
    log.closed = false ∧ log.broken = false := by
  unfold checkOpen at h
  split_ifs at h with hclosed hbroken
  exact ⟨Bool.eq_false_iff.mpr hclosed, Bool.eq_false_iff.mpr hbroken⟩

theorem precedes_hold (log : ReceiptLog) (id : Text) (work : Work) :
    log.Precedes (log.hold id work) :=
  ⟨rfl, rfl, List.prefix_refl _, List.prefix_append _ _, fun _ _ h => h⟩

section Hold

variable {log : ReceiptLog} {id : Text} {work : Work}

/-- A caller of a log that hands out a position is one it had, or the new one. -/
theorem getElem?_callers_hold {t : ℕ} {c : Caller}
    (hc : (log.hold id work).callers[t]? = some c) : log.callers[t]? = some c ∨
      (t = log.callers.length ∧ c = ⟨⟨log.callers.length, log.next, id⟩, work⟩) := by
  change (log.callers ++ [_])[t]? = some c at hc
  rcases Nat.lt_trichotomy t log.callers.length with hlt | rfl | hgt
  · rw [List.getElem?_append_left hlt] at hc
    exact Or.inl hc
  · rw [List.getElem?_append_right le_rfl, Nat.sub_self] at hc
    exact Or.inr ⟨rfl, (Option.some.inj hc).symm⟩
  · rw [List.getElem?_eq_none (by simp; omega)] at hc
    cases hc

theorem getElem?_callers_hold_of_some {t : ℕ} {c : Caller} (hc : log.callers[t]? = some c) :
    (log.hold id work).callers[t]? = some c :=
  (List.getElem?_append_left (List.getElem?_eq_some_iff.mp hc).1).trans hc

theorem getElem?_callers_hold_self : (log.hold id work).callers[log.callers.length]? =
    some ⟨⟨log.callers.length, log.next, id⟩, work⟩ := by
  change (log.callers ++ [_])[log.callers.length]? = _
  rw [List.getElem?_append_right le_rfl, Nat.sub_self]
  rfl

theorem get?_held_hold {i : ℕ} {r : Reservation} (h : log.Queued) :
    (log.hold id work).held.get? i = some r ↔ log.held.get? i = some r ∨
      (i = log.next ∧ r = ⟨log.callers.length, log.next, id⟩) := by
  change (log.held.set _ _).get? i = some r ↔ _
  rw [Dict.get?_set]
  split_ifs with heq
  · have hnone : log.held.get? log.next ≠ some r := fun hr =>
      absurd ((h.held _).mp ⟨r, hr⟩).2 (lt_irrefl _)
    simp [hnone, heq, eq_comm]
  · simp [heq]

/-- No reservation is the new caller's. -/
theorem ticket_ne_length (h : log.Queued) {i : ℕ} {r : Reservation}
    (hr : log.held.get? i = some r) : r.ticket ≠ log.callers.length := by
  intro heq
  obtain ⟨c, hc, -⟩ := h.caller i r hr
  exact absurd (List.getElem?_eq_some_iff.mp hc).1 (by omega)

theorem settled_length (h : log.Queued) : log.settled.get? log.callers.length = none := by
  by_contra hsome
  obtain ⟨s, hs⟩ := Option.ne_none_iff_exists'.mp hsome
  obtain ⟨c, hc⟩ := h.known _ _ hs
  exact absurd (List.getElem?_eq_some_iff.mp hc).1 (by omega)

/-- A caller whose reservation was settled in some way is not the new one. -/
theorem getElem?_callers_of_settled (h : log.Queued) {t : ℕ} {c : Caller} {s : Settlement}
    (hc : (log.hold id work).callers[t]? = some c) (hs : log.settled.get? t = some s) :
    log.callers[t]? = some c := by
  rcases getElem?_callers_hold hc with hc | ⟨rfl, -⟩
  · exact hc
  · rw [settled_length h] at hs
    cases hs

theorem get?_heldIds_hold (h : log.Queued) (hfree : log.heldIds.get? id = none) (id' : Text)
    (i : ℕ) : (log.hold id work).heldIds.get? id' = some i ↔
      ∃ r, (log.hold id work).held.get? i = some r ∧ r.receiptId = id' := by
  change (log.heldIds.set _ _).get? id' = some i ↔ _
  simp only [get?_held_hold h]
  rw [Dict.get?_set]
  split_ifs with heq
  · subst heq
    constructor
    · intro hi
      exact ⟨_, Or.inr ⟨(Option.some.inj hi).symm, rfl⟩, rfl⟩
    · rintro ⟨r, hr | ⟨rfl, rfl⟩, hid⟩
      · rw [(h.heldIds _ i).mpr ⟨r, hr, hid⟩] at hfree
        cases hfree
      · rfl
  · rw [h.heldIds]
    constructor
    · rintro ⟨r, hr, hid⟩
      exact ⟨r, Or.inl hr, hid⟩
    · rintro ⟨r, hr | ⟨rfl, rfl⟩, hid⟩
      · exact ⟨r, hr, hid⟩
      · exact absurd hid.symm heq

/-- A caller has not been answered exactly while its reservation is held, the new one too. -/
theorem settled_hold (h : log.Queued) {t : ℕ} {c : Caller}
    (hc : (log.hold id work).callers[t]? = some c) : log.settled.get? t = none ↔
      (log.hold id work).held.get? c.reservation.index = some c.reservation := by
  rw [get?_held_hold h]
  rcases getElem?_callers_hold hc with hc | ⟨rfl, rfl⟩
  · have hne : c.reservation ≠ ⟨log.callers.length, log.next, id⟩ := by
      intro heq
      have := h.ticket t c hc
      rw [heq] at this
      exact absurd (List.getElem?_eq_some_iff.mp hc).1 (by simp only at this; omega)
    exact (h.settled t c hc).trans (by simp [hne])
  · exact iff_of_true (settled_length h) (Or.inr ⟨rfl, rfl⟩)

theorem mem_working_hold (h : log.Queued) {i : ℕ} {r : Reservation}
    (hr : (log.hold id work).held.get? i = some r) :
    r.ticket ∈ (log.hold id work).working ↔ log.signed.get? i = none := by
  change r.ticket ∈ log.callers.length :: log.working ↔ _
  rcases (get?_held_hold h).mp hr with hr | ⟨rfl, rfl⟩
  · rw [List.mem_cons, or_iff_right (ticket_ne_length h hr)]
    exact h.working i r hr
  · refine iff_of_true List.mem_cons_self ?_
    by_contra hsome
    obtain ⟨p, hp⟩ := Option.ne_none_iff_exists'.mp hsome
    exact absurd ((h.held _).mp ⟨_, (h.signed _ p hp).1⟩).2 (lt_irrefl _)

theorem Queued.hold (h : log.Queued) (hfresh : id ∉ log.file.map Leaf.receiptId)
    (hfree : log.heldIds.get? id = none)
    (hsuits : Caller.Suits ⟨⟨log.callers.length, log.next, id⟩, work⟩ log.logId) :
    (log.hold id work).Queued where
  placed := h.placed
  nodup := h.nodup
  length_le := h.length_le.trans (Nat.le_succ _)
  held i := by
    have hle := h.length_le
    have hrange := h.held i
    simp only [get?_held_hold h, exists_or, hrange, exists_and_left, exists_eq, and_true]
    change _ ↔ log.file.length ≤ i ∧ i < log.next + 1
    omega
  indexed i r hr := by
    rcases (get?_held_hold h).mp hr with hr | ⟨rfl, rfl⟩
    · exact h.indexed i r hr
    · rfl
  heldIds := get?_heldIds_hold h hfree
  new i r hr := by
    rcases (get?_held_hold h).mp hr with hr | ⟨rfl, rfl⟩
    · exact h.new i r hr
    · exact hfresh
  signed i p hp := by
    obtain ⟨hr, hrest⟩ := h.signed i p hp
    exact ⟨(get?_held_hold h).mpr (Or.inl hr), hrest⟩
  returned i p hp := by
    obtain ⟨c, hc, hreturned⟩ := h.returned i p hp
    exact ⟨c, getElem?_callers_hold_of_some hc, hreturned⟩
  broken := h.broken
  caller i r hr := by
    rcases (get?_held_hold h).mp hr with hr | ⟨rfl, rfl⟩
    · obtain ⟨c, hc, hsame⟩ := h.caller i r hr
      exact ⟨c, getElem?_callers_hold_of_some hc, hsame⟩
    · exact ⟨_, getElem?_callers_hold_self, rfl⟩
  ticket t c hc := by
    rcases getElem?_callers_hold hc with hc | ⟨rfl, rfl⟩
    · exact h.ticket t c hc
    · rfl
  suits t c hc := by
    rcases getElem?_callers_hold hc with hc | ⟨rfl, rfl⟩
    · exact h.suits t c hc
    · exact hsuits
  settled t c hc := settled_hold h hc
  known t s hs := by
    obtain ⟨c, hc⟩ := h.known t s hs
    exact ⟨c, getElem?_callers_hold_of_some hc⟩
  working i r hr := mem_working_hold h hr
  issued t leaf hs := by
    obtain ⟨c, hc, hleaf⟩ := h.issued t leaf hs
    exact ⟨c, getElem?_callers_hold_of_some hc, hleaf⟩
  own t c leaf hc hs := h.own t c leaf (getElem?_callers_of_settled h hc hs) hs
  issuer i leaf hleaf := by
    obtain ⟨t, c, hc, hrest⟩ := h.issuer i leaf hleaf
    exact ⟨t, c, getElem?_callers_hold_of_some hc, hrest⟩
  one t t' c c' leaf leaf' hc hc' hs hs' :=
    h.one t t' c c' leaf leaf' (getElem?_callers_of_settled h hc hs)
      (getElem?_callers_of_settled h hc' hs') hs hs'

/-- A log that hands out a position keeps the invariant. -/
theorem Sequenced.hold (h : log.Sequenced) (hnew : log.checkNew id = .ok ⟨⟩)
    (hbroken : log.broken = false)
    (hsuits : Caller.Suits ⟨⟨log.callers.length, log.next, id⟩, work⟩ log.logId) :
    (log.hold id work).Sequenced := by
  obtain ⟨hfresh, hfree⟩ := checkNew_eq_ok hnew
  rw [← h.file_eq hbroken] at hfresh
  exact ⟨h.toQueued.hold hfresh hfree hsuits, h.turn⟩

end Hold

/-- A draft takes the next position, placed there. -/
theorem reserve_eq_ok {log log' : ReceiptLog} {draft : LogDocument}
    (h : log.reserve draft = .ok log') : log.checkOpen = .ok ⟨⟩ ∧
      log.checkNew draft.receiptId = .ok ⟨⟩ ∧ ∃ unsigned,
        draft.withLogAnchor log.logId log.next = .ok unsigned ∧
        log' = log.hold draft.receiptId (.issuing unsigned log.signer) := by
  rw [reserve] at h
  obtain ⟨_, hopen, h⟩ := bind_eq_ok.mp h
  obtain ⟨_, hnew, h⟩ := bind_eq_ok.mp h
  obtain ⟨unsigned, hplace, h⟩ := bind_eq_ok.mp h
  exact ⟨hopen, hnew, unsigned, mapError_eq_ok.mp hplace, (Except.ok.inj h).symm⟩

/-- A signed receipt takes the next position, which it signs. -/
theorem append_eq_ok {log log' : ReceiptLog} {leaf : Leaf} (h : log.append leaf = .ok log') :
    log.checkOpen = .ok ⟨⟩ ∧ log.checkNew leaf.receiptId = .ok ⟨⟩ ∧
      leaf.Placed log.logId log.next ∧ log' = log.hold leaf.receiptId (.appending leaf) := by
  rw [append] at h
  obtain ⟨_, hopen, h⟩ := bind_eq_ok.mp h
  obtain ⟨_, hposition, h⟩ := bind_eq_ok.mp h
  rw [checkPosition] at hposition
  obtain ⟨_, hnew, hposition⟩ := bind_eq_ok.mp hposition
  refine ⟨hopen, hnew, ?_, (Except.ok.inj h).symm⟩
  split_ifs at hposition with hsigned hanchor
  · exact ⟨hsigned, not_not.mp hanchor⟩
  · exact ⟨hsigned, not_not.mp hanchor⟩

theorem sequenced_reserve {log log' : ReceiptLog} (h : log.Sequenced) {draft : LogDocument}
    (hreserve : log.reserve draft = .ok log') : log'.Sequenced ∧ log.Precedes log' := by
  obtain ⟨hopen, hnew, unsigned, hplace, rfl⟩ := reserve_eq_ok hreserve
  have hsuits := LogDocument.placed_of_withLogAnchor hplace
  exact ⟨h.hold hnew (checkOpen_eq_ok hopen).2 hsuits, precedes_hold _ _ _⟩

theorem sequenced_append {log log' : ReceiptLog} (h : log.Sequenced) {leaf : Leaf}
    (happended : log.append leaf = .ok log') : log'.Sequenced ∧ log.Precedes log' := by
  obtain ⟨hopen, hnew, hplaced, rfl⟩ := append_eq_ok happended
  exact ⟨h.hold hnew (checkOpen_eq_ok hopen).2 ⟨rfl, hplaced⟩, precedes_hold _ _ _⟩

/-! ### Coming back -/

/-- A log that has a caller's receipt, for which it no longer waits. -/
def put (log : ReceiptLog) (r : Reservation) (leaf : Leaf) : ReceiptLog :=
  { log with
    working := log.working.filter (· ≠ r.ticket)
    signed := log.signed.set r.index (r, leaf) }

/-- A log that no longer waits for a caller. -/
def unwork (log : ReceiptLog) (ticket : ℕ) : ReceiptLog :=
  { log with working := log.working.filter (· ≠ ticket) }

theorem precedes_put (log : ReceiptLog) (r : Reservation) (leaf : Leaf) :
    log.Precedes (log.put r leaf) :=
  ⟨rfl, rfl, List.prefix_refl _, List.prefix_refl _, fun _ _ h => h⟩

theorem precedes_unwork (log : ReceiptLog) (ticket : ℕ) : log.Precedes (log.unwork ticket) :=
  ⟨rfl, rfl, List.prefix_refl _, List.prefix_refl _, fun _ _ h => h⟩

/-- A caller that holds its position has come back with a receipt. -/
theorem Queued.put {log : ReceiptLog} (h : log.Queued) {c : Caller} {leaf : Leaf}
    (hc : log.callers[c.reservation.ticket]? = some c)
    (hr : log.held.get? c.reservation.index = some c.reservation)
    (hreturned : log.returned c true = some leaf)
    (hplaced : leaf.Placed log.logId c.reservation.index ∧
      leaf.receiptId = c.reservation.receiptId) : (log.put c.reservation leaf).Queued := by
  have hsigned : ∀ i p, (log.put c.reservation leaf).signed.get? i = some p →
      log.signed.get? i = some p ∨ (i = c.reservation.index ∧ p = (c.reservation, leaf)) := by
    intro i p hp
    change (log.signed.set _ _).get? i = some p at hp
    rw [Dict.get?_set] at hp
    split_ifs at hp with heq
    · exact Or.inr ⟨heq, (Option.some.inj hp).symm⟩
    · exact Or.inl hp
  refine ⟨h.placed, h.nodup, h.length_le, h.held, h.indexed, h.heldIds, h.new, ?_, ?_, h.broken,
    h.caller, h.ticket, h.suits, h.settled, h.known, ?_, h.issued, h.own, h.issuer, h.one⟩
  · intro i p hp
    rcases hsigned i p hp with hp | ⟨rfl, rfl⟩
    · exact h.signed i p hp
    · exact ⟨hr, hplaced⟩
  · intro i p hp
    rcases hsigned i p hp with hp | ⟨rfl, rfl⟩
    · exact h.returned i p hp
    · exact ⟨c, hc, hreturned⟩
  · intro i r hr'
    change r.ticket ∈ log.working.filter _ ↔ (log.signed.set _ _).get? i = none
    rw [Dict.get?_set, List.mem_filter]
    split_ifs with heq
    · subst heq
      obtain rfl := Option.some.inj (hr.symm.trans hr')
      simp
    · have hne : r.ticket ≠ c.reservation.ticket := fun hticket =>
        heq ((h.indexed _ _ hr').symm.trans (congrArg _ (h.ticket_inj hr' hr hticket)))
      simp only [hne, ne_eq, not_false_eq_true, decide_true, and_true]
      exact h.working i r hr'

/-- A caller that holds no position has come back. -/
theorem Queued.unwork {log : ReceiptLog} (h : log.Queued) {ticket : ℕ}
    (hnone : ∀ i r, log.held.get? i = some r → r.ticket ≠ ticket) :
    (log.unwork ticket).Queued := by
  refine ⟨h.placed, h.nodup, h.length_le, h.held, h.indexed, h.heldIds, h.new, h.signed,
    h.returned, h.broken, h.caller, h.ticket, h.suits, h.settled, h.known, ?_, h.issued, h.own,
    h.issuer, h.one⟩
  intro i r hr
  change r.ticket ∈ log.working.filter _ ↔ log.signed.get? i = none
  rw [List.mem_filter, ← h.working i r hr]
  simp [hnone i r hr]

/-- Taking back is not about who is waited for. -/
theorem takeBack_unwork {log : ReceiptLog} (h : log.Indexed) (ticket : ℕ) (r : Reservation)
    (error : Option LogFault) :
    (log.unwork ticket).takeBack r error = (log.takeBack r error).unwork ticket := by
  have h' : (log.unwork ticket).Indexed := h
  rw [takeBack_eq h, takeBack_eq h']
  rfl

/-- What a caller came back with is for the position it holds. -/
theorem placed_of_returned {log : ReceiptLog} {c : Caller} {available : Bool} {leaf : Leaf}
    (hsuits : c.Suits log.logId) (h : log.returned c available = some leaf) :
    log.returned c true = some leaf ∧ leaf.Placed log.logId c.reservation.index ∧
      leaf.receiptId = c.reservation.receiptId := by
  unfold Caller.Suits at hsuits
  unfold returned at h ⊢
  cases hwork : c.work with
  | appending leaf' =>
    rw [hwork] at h hsuits
    obtain rfl := Option.some.inj h
    exact ⟨rfl, hsuits.2, hsuits.1⟩
  | issuing unsigned signer =>
    rw [hwork] at h hsuits
    simp only at h hsuits ⊢
    split_ifs at h
    obtain ⟨d, hsign, hleaf⟩ := bind_eq_ok.mp (toOption_eq_some.mp h)
    obtain ⟨hplaced, hid⟩ := Leaf.placed_of_sign hsuits.2 hsign (Leaf.of_eq_ok hleaf)
    exact ⟨(if_pos trivial).trans h, hplaced, hid.trans hsuits.1⟩

/-- How a section ends that a caller comes back with: nobody had waited for it; or its reservation
had been settled; or its position and every later one are taken back; or its receipt is signed, and
what is ready is appended. -/
theorem finish_cases {log : ReceiptLog} (h : log.Sequenced) (ticket : ℕ) (available : Bool)
    (write : Extended) :
    (log.finish ticket available write = log ∧
      ∀ c, log.callers[ticket]? = some c → ticket ∉ log.working) ∨
    ∃ c, log.callers[ticket]? = some c ∧ ticket ∈ log.working ∧
      ((log.settled.get? ticket ≠ none ∧
        log.finish ticket available write = log.unwork ticket) ∨
      (log.settled.get? ticket = none ∧ log.returned c available = none ∧
        log.finish ticket available write = (log.takeBack c.reservation none).unwork ticket) ∨
      (log.settled.get? ticket = none ∧ ∃ leaf, log.returned c available = some leaf ∧
        log.finish ticket available write = (log.put c.reservation leaf).drain write)) := by
  cases hc : log.callers[ticket]? with
  | none =>
    refine Or.inl ⟨?_, fun c hc' => by cases hc'⟩
    unfold finish
    rw [hc]
  | some c =>
    have hticket := h.ticket ticket c hc
    by_cases hmem : ticket ∈ log.working
    · refine Or.inr ⟨c, rfl, hmem, ?_⟩
      have hgone : log.returned c available = none →
          log.finish ticket available write = (log.unwork ticket).abandon c.reservation := by
        intro hreturned
        unfold finish
        rw [hc]
        simp only [if_pos hmem]
        split
        · rename_i leaf hleaf
          cases hreturned.symm.trans hleaf
        · rfl
      have hback : ∀ leaf, log.returned c available = some leaf →
          log.finish ticket available write =
            (log.unwork ticket).deliver c.reservation leaf write := by
        intro leaf hreturned
        unfold finish
        rw [hc]
        simp only [if_pos hmem]
        split
        · rename_i leaf' hleaf
          obtain rfl := Option.some.inj (hreturned.symm.trans hleaf)
          rfl
        · rename_i hnone
          cases hreturned.symm.trans hnone
      cases hsettled : log.settled.get? ticket with
      | some s =>
        have hsome : ((log.unwork ticket).settled.get? c.reservation.ticket).isSome = true := by
          change (log.settled.get? c.reservation.ticket).isSome = true
          rw [hticket, hsettled]
          rfl
        refine Or.inl ⟨Option.some_ne_none s, ?_⟩
        cases hreturned : log.returned c available with
        | none => exact (hgone hreturned).trans (if_pos hsome)
        | some leaf => exact (hback leaf hreturned).trans (if_pos hsome)
      | none =>
        have hnone : ¬((log.unwork ticket).settled.get? c.reservation.ticket).isSome = true := by
          change ¬(log.settled.get? c.reservation.ticket).isSome = true
          rw [hticket, hsettled]
          exact Bool.false_ne_true
        refine Or.inr ?_
        cases hreturned : log.returned c available with
        | none =>
          exact Or.inl ⟨rfl, rfl, (hgone hreturned).trans
            ((if_neg hnone).trans (takeBack_unwork h.indexed ticket _ _))⟩
        | some leaf =>
          refine Or.inr ⟨rfl, leaf, rfl, (hback leaf hreturned).trans ((if_neg hnone).trans ?_)⟩
          rw [put, hticket]
          rfl
    · refine Or.inl ⟨?_, fun _ _ => hmem⟩
      unfold finish
      rw [hc]
      exact if_neg hmem

/-- What draining does, after a caller has come back. -/
theorem sequenced_of_drained {log log' : ReceiptLog} (h : log.Queued)
    {batch : List (Reservation × Leaf)} (hd : log.Drained log' batch) : log'.Sequenced :=
  ⟨hd.advances.queued h, hd.turn⟩

theorem Sequenced.queued_put {log : ReceiptLog} (h : log.Sequenced) {ticket : ℕ} {c : Caller}
    {available : Bool} {leaf : Leaf} (hc : log.callers[ticket]? = some c)
    (hsettled : log.settled.get? ticket = none)
    (hreturned : log.returned c available = some leaf) : (log.put c.reservation leaf).Queued := by
  obtain ⟨hreturned, hplaced⟩ := placed_of_returned (h.suits ticket c hc) hreturned
  have hr := (h.settled ticket c hc).mp hsettled
  obtain rfl := h.ticket ticket c hc
  exact h.toQueued.put hc hr hreturned hplaced

theorem sequenced_finish {log : ReceiptLog} (h : log.Sequenced) (ticket : ℕ) (available : Bool)
    (write : Extended) : (log.finish ticket available write).Sequenced ∧
      log.Precedes (log.finish ticket available write) := by
  rcases finish_cases h ticket available write with ⟨heq, -⟩ | ⟨c, hc, -, ⟨hsettled, heq⟩ |
    ⟨hsettled, -, heq⟩ | ⟨hsettled, leaf, hreturned, heq⟩⟩
  · rw [heq]
    exact ⟨h, Precedes.refl log⟩
  · rw [heq]
    refine ⟨⟨h.toQueued.unwork fun i r hr hticket => ?_, h.turn⟩, precedes_unwork _ _⟩
    obtain ⟨c', hc', rfl⟩ := h.caller i r hr
    rw [hticket, hc] at hc'
    obtain rfl := Option.some.inj hc'
    rw [← h.indexed i _ hr] at hr
    exact hsettled ((h.settled ticket c hc).mpr hr)
  · rw [heq]
    have hr := (h.settled ticket c hc).mp hsettled
    have ha := advances_takeBack h.toQueued hr none
    have hnext : (log.takeBack c.reservation none).next = c.reservation.index := rfl
    refine ⟨⟨(ha.queued h.toQueued).unwork fun i r hr' hticket => ?_, fun hbroken => ?_⟩,
      (ha.precedes h.toQueued).trans (precedes_unwork _ _)⟩
    · obtain ⟨hold, -, hlt⟩ := ha.held_iff.mp hr'
      have hsame := h.ticket_inj hold hr (hticket.trans (h.ticket ticket c hc).symm)
      rw [hnext, ← hsame, h.indexed i r hold] at hlt
      exact lt_irrefl _ hlt
    · have hfile : (log.takeBack c.reservation none).file = log.file := by
        rw [ha.file, List.map_nil, List.append_nil]
      change (log.takeBack c.reservation none).signed.get?
        (log.takeBack c.reservation none).file.length = none
      rw [ha.signed, hfile, h.turn (ha.leaves hbroken).1, ite_self]
  · rw [heq]
    have hput := h.queued_put hc hsettled hreturned
    obtain ⟨batch, hd⟩ := drained_drain hput write
    exact ⟨sequenced_of_drained hput hd,
      (precedes_put _ _ _).trans (hd.advances.precedes hput)⟩

/-! ### Steps aside -/

/-- Whether a step leaves the sequencer as it is. -/
def Aside (log log' : ReceiptLog) : Prop :=
  log' = { log with
    tree := log'.tree, closed := log'.closed, rotating := log'.rotating, signer := log'.signer
    keyring := log'.keyring, transitions := log'.transitions, schedule := log'.schedule
    latest := log'.latest, checkpoints := log'.checkpoints, publisher := log'.publisher }

namespace Aside

variable {log log' : ReceiptLog}

theorem trans {log'' : ReceiptLog} (h : log.Aside log') (h' : log'.Aside log'') :
    log.Aside log'' := by
  rw [Aside, h', h]

theorem sequenced (ha : log.Aside log') (h : log.Sequenced) : log'.Sequenced := by
  rw [ha]
  exact ⟨⟨h.placed, h.nodup, h.length_le, h.held, h.indexed, h.heldIds, h.new, h.signed,
    h.returned, h.broken, h.caller, h.ticket, h.suits, h.settled, h.known, h.working, h.issued,
    h.own, h.issuer, h.one⟩, h.turn⟩

theorem precedes (ha : log.Aside log') : log.Precedes log' := by
  rw [ha]
  exact ⟨rfl, rfl, List.prefix_refl _, List.prefix_refl _, fun _ _ h => h⟩

end Aside

/-- What the first section of a checkpoint gives: the latest one, where nothing was added since the
log was handed over, or a new one of the tree at its size. -/
theorem takeCheckpoint_cases {log log' : ReceiptLog} {now : Instant} {available : Bool}
    {c : Option Checkpoint} (h : log.takeCheckpoint now available = .ok (c, log')) :
    (c = none ∧ log' = log ∧ (∃ s, log.schedule = some s ∧ log.leaves.length ≤ s.boundary) ∧
      log.latest.map Checkpoint.treeSize = some (log.leaves.length : ℤ)) ∨
    ∃ d root tree, c = some d ∧ log' = { log with tree := tree } ∧
      (∀ s, log.schedule = some s → s.boundary < log.leaves.length) ∧
      log.tree.root (some (log.leaves.length : ℤ)) = .ok (root, tree) ∧
      Checkpoint.sign ⟨log.logId, log.leaves.length, toHex root, now, none⟩ log.signer.signer
        (log.versionFor log.signer) = .ok d := by
  rw [takeCheckpoint] at h
  simp only at h
  cases hfilter : log.schedule.filter fun s => log.leaves.length ≤ s.boundary with
  | some s =>
    rw [hfilter] at h
    simp only at h
    split_ifs at h with hlatest
    obtain ⟨rfl, rfl⟩ := Prod.ext_iff.mp (Except.ok.inj h)
    obtain ⟨hs, hle⟩ := Option.filter_eq_some_iff.mp hfilter
    exact Or.inl ⟨rfl, rfl, ⟨s, hs, by simpa using hle⟩, hlatest⟩
  | none =>
    rw [hfilter] at h
    obtain ⟨⟨root, tree⟩, hroot, h⟩ := bind_eq_ok.mp h
    simp only at h
    split_ifs at h
    obtain ⟨d, hsign, h⟩ := bind_eq_ok.mp h
    obtain ⟨rfl, rfl⟩ := Prod.ext_iff.mp (Except.ok.inj h)
    refine Or.inr ⟨d, root, tree, rfl, rfl, fun s hs => ?_, mapError_eq_ok.mp hroot,
      mapError_eq_ok.mp hsign⟩
    rw [hs] at hfilter
    simpa using Option.filter_eq_none_iff.mp hfilter s rfl

theorem aside_takeCheckpoint {log log' : ReceiptLog} {now : Instant} {available : Bool}
    {c : Option Checkpoint} (h : log.takeCheckpoint now available = .ok (c, log')) :
    log.Aside log' := by
  rcases takeCheckpoint_cases h with ⟨-, rfl, -⟩ | ⟨d, root, tree, -, rfl, -⟩ <;> rfl

theorem aside_handOver (log : ReceiptLog) (incoming : LogSigner) (t : KeyTransition) :
    log.Aside (log.handOver incoming t) := by
  unfold handOver
  dsimp only
  split
  · rfl
  · split <;> rfl

theorem aside_checkpoint (log : ReceiptLog) (now : Instant) (available : Bool) :
    log.Aside (log.checkpoint now available) := by
  unfold checkpoint
  split
  · split
    · rename_i h
      exact (aside_takeCheckpoint h).trans rfl
    · rfl
  · rfl

theorem aside_rotate (log : ReceiptLog) (incoming : LogSigner) :
    log.Aside (log.rotate incoming) := by
  unfold rotate
  split
  · split
    · rfl
    · split_ifs <;> rfl
  · rfl

theorem aside_measure (log : ReceiptLog) : log.Aside log.measure := by
  unfold measure
  split
  · split_ifs <;> rfl
  · dsimp only
    split_ifs <;> rfl
  · rfl

theorem aside_vouch (log : ReceiptLog) (now : Instant) (available : Bool) :
    log.Aside (log.vouch now available) := by
  unfold vouch
  split
  · split
    · rename_i h
      exact (aside_takeCheckpoint h).trans rfl
    · rename_i h
      exact (aside_takeCheckpoint h).trans rfl
    · rfl
  · rfl

theorem aside_recorded (log : ReceiptLog) (written : Bool) : log.Aside (log.recorded written) := by
  unfold recorded
  split
  · split_ifs <;> rfl
  · split_ifs <;> rfl
  · rfl

theorem aside_hand (log : ReceiptLog) (now : Instant) (available written : Bool) :
    log.Aside (log.hand now available written) := by
  unfold hand
  split
  · cases available with
    | false => rfl
    | true =>
      rw [if_pos rfl]
      split
      · rfl
      · cases written with
        | false => rfl
        | true => exact (aside_handOver _ _ _).trans rfl
  · rfl

/-! ### Runs -/

theorem sequenced_fresh (logId : Text) (version : Option ℕ) (signer : LogSigner)
    (keyring : KeyTable) : (fresh logId version signer keyring).Sequenced := by
  refine ⟨⟨?_, ?_, ?_, ?_, ?_, ?_, ?_, ?_, ?_, ?_, ?_, ?_, ?_, ?_, ?_, ?_, ?_, ?_, ?_, ?_⟩, ?_⟩
  all_goals simp [fresh, file, Indexed]

theorem sequenced_step {log : ReceiptLog} (h : log.Sequenced) (e : Event) :
    (log.step e).Sequenced ∧ log.Precedes (log.step e) := by
  have haside : ∀ {log'}, log.Aside log' → log'.Sequenced ∧ log.Precedes log' := fun ha =>
    ⟨ha.sequenced h, ha.precedes⟩
  cases e with
  | reserve draft =>
    rw [step]
    split_ifs
    · exact ⟨h, Precedes.refl log⟩
    · cases hreserve : log.reserve draft with
      | error e => exact ⟨h, Precedes.refl log⟩
      | ok log' => exact sequenced_reserve h hreserve
  | append leaf =>
    rw [step]
    cases happended : log.append leaf with
    | error e => exact ⟨h, Precedes.refl log⟩
    | ok log' => exact sequenced_append h happended
  | finish ticket available write => exact sequenced_finish h ticket available write
  | close => exact haside rfl
  | checkpoint now available => exact haside (aside_checkpoint log now available)
  | rotate incoming => exact haside (aside_rotate log incoming)
  | measure => exact haside (aside_measure log)
  | vouch now available => exact haside (aside_vouch log now available)
  | recorded written => exact haside (aside_recorded log written)
  | hand now available written => exact haside (aside_hand log now available written)

theorem Aside.file {log log' : ReceiptLog} (ha : log.Aside log') : log'.file = log.file := by
  rw [ha]
  rfl

/-- The file of a log changes where a caller's receipt has come, and what is ready is appended. -/
theorem step_file {log : ReceiptLog} (h : log.Sequenced) (e : Event) :
    (log.step e).file = log.file ∨ ∃ (c : Caller) (leaf : Leaf) (batch : _),
      (log.put c.reservation leaf).Queued ∧
      (log.put c.reservation leaf).Drained (log.step e) batch := by
  cases e with
  | reserve draft =>
    left
    rw [step]
    split_ifs
    · rfl
    · cases hreserve : log.reserve draft with
      | error e => rfl
      | ok log' =>
        obtain ⟨-, -, unsigned, -, rfl⟩ := reserve_eq_ok hreserve
        rfl
  | append leaf =>
    left
    rw [step]
    cases happended : log.append leaf with
    | error e => rfl
    | ok log' =>
      obtain ⟨-, -, -, rfl⟩ := append_eq_ok happended
      rfl
  | finish ticket available write =>
    rw [step]
    rcases finish_cases h ticket available write with ⟨heq, -⟩ | ⟨c, hc, -, ⟨-, heq⟩ |
      ⟨hsettled, -, heq⟩ | ⟨hsettled, leaf, hreturned, heq⟩⟩
    · exact Or.inl (by rw [heq])
    · exact Or.inl (by rw [heq]; rfl)
    · exact Or.inl (by rw [heq, takeBack_eq h.indexed]; rfl)
    · have hput := h.queued_put hc hsettled hreturned
      obtain ⟨batch, hd⟩ := drained_drain hput write
      exact Or.inr ⟨c, leaf, batch, hput, heq ▸ hd⟩
  | close => exact Or.inl rfl
  | checkpoint now available => exact Or.inl (aside_checkpoint log now available).file
  | rotate incoming => exact Or.inl (aside_rotate log incoming).file
  | measure => exact Or.inl (aside_measure log).file
  | vouch now available => exact Or.inl (aside_vouch log now available).file
  | recorded written => exact Or.inl (aside_recorded log written).file
  | hand now available written => exact Or.inl (aside_hand log now available written).file

theorem run_append (log : ReceiptLog) (es fs : List Event) :
    log.run (es ++ fs) = (log.run es).run fs := List.foldl_append

/-- The invariant holds after every run, and what holds for good is kept. -/
theorem sequenced_run {log : ReceiptLog} (h : log.Sequenced) (es : List Event) :
    (log.run es).Sequenced ∧ log.Precedes (log.run es) := by
  induction es generalizing log with
  | nil => exact ⟨h, Precedes.refl log⟩
  | cons e es ih =>
    obtain ⟨hstep, hle⟩ := sequenced_step h e
    obtain ⟨hrun, hle'⟩ := ih hstep
    exact ⟨hrun, hle.trans hle'⟩

/-! ### What a caller is told -/

/-- What holds of the leaves of a log and of what its callers were told: a leaf stands at the
position it signs, under an id of its own; it was issued to one caller, and what a caller was
issued is the receipt it came back with, at the position it held. -/
structure IssuedOnce (log : ReceiptLog) : Prop where
  placed : ∀ i (leaf : Leaf), log.file[i]? = some leaf → leaf.Placed log.logId i
  nodup : (log.file.map Leaf.receiptId).Nodup
  issuer : ∀ i leaf, log.file[i]? = some leaf → ∃! t, ∃ c, log.callers[t]? = some c ∧
    c.reservation.index = i ∧ log.settled.get? t = some (.issued leaf)
  issued : ∀ (t : ℕ) (c : Caller) leaf, log.callers[t]? = some c →
    log.settled.get? t = some (.issued leaf) →
    log.file[c.reservation.index]? = some leaf ∧ log.returned c true = some leaf

theorem Queued.issuedOnce {log : ReceiptLog} (h : log.Queued) : log.IssuedOnce where
  placed := h.placed
  nodup := h.nodup
  issuer i leaf hleaf := by
    obtain ⟨t, c, hc, hindex, hs⟩ := h.issuer i leaf hleaf
    refine ⟨t, ⟨c, hc, hindex, hs⟩, ?_⟩
    rintro t' ⟨c', hc', hindex', hs'⟩
    exact h.one t' t c' c leaf leaf hc' hc hs' hs (hindex'.trans hindex.symm)
  issued t c leaf hc hs := by
    obtain ⟨c', hc', hleaf⟩ := h.issued t leaf hs
    obtain rfl := Option.some.inj (hc.symm.trans hc')
    exact ⟨hleaf, h.own t c leaf hc hs⟩

/-- Whatever callers and publisher do, and in whatever order, the receipts of a log were issued
once, and what was issued, refused or taken back stays so. -/
theorem issued_once (logId : Text) (version : Option ℕ) (signer : LogSigner) (keyring : KeyTable)
    (es fs : List Event) : ((fresh logId version signer keyring).run es).IssuedOnce ∧
      ((fresh logId version signer keyring).run es).Precedes
        ((fresh logId version signer keyring).run (es ++ fs)) := by
  have hrun := (sequenced_run (sequenced_fresh logId version signer keyring) es).1
  rw [run_append]
  exact ⟨hrun.toQueued.issuedOnce, (sequenced_run hrun fs).2⟩

/-! ### Who is waited for -/

/-- Callers that come back, each with a write. -/
def returns (rs : List (ℕ × Bool × Extended)) : List Event :=
  rs.map fun r => .finish r.1 r.2.1 r.2.2

theorem sampleSecret_long (b : Byte) : 32 ≤ (List.replicate 32 b).length :=
  List.length_replicate.ge

/-- Signers with shared keys. -/
def sampleSigner (b : Byte) (keyId : Text) : LogSigner :=
  ⟨HmacKey.signer ⟨List.replicate 32 b, keyId, sampleSecret_long b⟩, 1,
    .hmac ⟨List.replicate 32 b, keyId, sampleSecret_long b⟩, rfl⟩

/-- A log of one key. -/
def sampleLog : ReceiptLog :=
  fresh (txt "log") none (sampleSigner 0 (txt "0000000000000000"))
    (.single (sampleSigner 0 (txt "0000000000000000")).key)

/-- Receipts that take the first two positions, signed by someone else. -/
def sampleAdmissions : List Event :=
  [txt "first", txt "second"].zipIdx.filterMap fun p =>
    ((Leaf.of (.action ⟨p.1, [], ⟨none, none, some ⟨txt "log", p.2⟩⟩,
      some ⟨algHmacSha256, txt "0000000000000000", [], 1⟩⟩)).toOption).map .append

/-- Whether a rotation waits for the positions that are held. -/
def waits : Publisher → Bool
  | .draining _ => true
  | _ => false

/-- Whether a log whose index failed holds the positions up to one for callers that have come
back. -/
structure Strands (log : ReceiptLog) (index : ℕ) : Prop where
  broken : log.broken = true
  held : ∃ r, log.held.get? index = some r
  back : ∀ j r, j ≤ index → log.held.get? j = some r → r.ticket ∉ log.working

theorem checkOpen_of_broken {log : ReceiptLog} (h : log.broken = true) :
    ∃ e, log.checkOpen = .error e := by
  unfold checkOpen
  split_ifs
  · exact ⟨_, rfl⟩
  · exact ⟨_, rfl⟩

/-- A log that waits for nobody else, and holds what it held up to a position. -/
theorem Strands.mono {log log' : ReceiptLog} {index : ℕ} (hs : log.Strands index)
    (hbroken : log'.broken = log.broken)
    (hheld : ∀ j, j ≤ index → log'.held.get? j = log.held.get? j)
    (hworking : ∀ t ∈ log'.working, t ∈ log.working) : log'.Strands index where
  broken := hbroken.trans hs.broken
  held := (hheld index le_rfl).symm ▸ hs.held
  back j r hj hr hmem := hs.back j r hj (hheld j hj ▸ hr) (hworking _ hmem)

/-- A caller that comes back leaves the positions of the stranded. -/
theorem Strands.finish {log : ReceiptLog} (h : log.Sequenced) {index : ℕ}
    (hs : log.Strands index) (ticket : ℕ) (available : Bool) (write : Extended) :
    (log.finish ticket available write).Strands index ∧
      (log.finish ticket available write).held.get? index = log.held.get? index ∧
      (log.finish ticket available write).publisher = log.publisher := by
  have hfilter : ∀ t ∈ log.working.filter (· ≠ ticket), t ∈ log.working := fun t ht =>
    List.mem_of_mem_filter ht
  rcases finish_cases h ticket available write with ⟨heq, -⟩ | ⟨c, hc, hmem, ⟨-, heq⟩ |
    ⟨hsettled, -, heq⟩ | ⟨hsettled, leaf, hreturned, heq⟩⟩
  · rw [heq]
    exact ⟨hs, rfl, rfl⟩
  · rw [heq]
    exact ⟨hs.mono rfl (fun _ _ => rfl) hfilter, rfl, rfl⟩
  · rw [heq]
    have hr := (h.settled ticket c hc).mp hsettled
    have ha := advances_takeBack h.toQueued hr none
    -- whoever gives a position back was waited for, so it is behind the stranded ones
    have hlt : index < c.reservation.index := by
      by_contra hge
      exact hs.back _ _ (not_lt.mp hge) hr (h.ticket ticket c hc ▸ hmem)
    have hheld : ∀ j, j ≤ index →
        (log.takeBack c.reservation none).held.get? j = log.held.get? j := by
      intro j hj
      rw [ha.held, ha.file, List.map_nil, List.append_nil]
      split_ifs with hwindow
      · rfl
      · by_contra hsome
        obtain ⟨r, hr'⟩ := Option.ne_none_iff_exists'.mp (Ne.symm hsome)
        exact hwindow ⟨((h.held j).mp ⟨r, hr'⟩).1, hj.trans_lt hlt⟩
    refine ⟨hs.mono ?_ hheld ?_, hheld index le_rfl, ?_⟩
    · rw [takeBack_eq h.indexed]
      rfl
    · rw [takeBack_eq h.indexed]
      exact hfilter
    · rw [takeBack_eq h.indexed]
      rfl
  · have hput := h.queued_put hc hsettled hreturned
    rw [heq, drain_of_broken hput hs.broken]
    refine ⟨hs.mono rfl (fun _ _ => rfl) ?_, rfl, rfl⟩
    rw [put, h.ticket ticket c hc]
    exact hfilter

theorem Strands.aside {log log' : ReceiptLog} {index : ℕ} (hs : log.Strands index)
    (ha : log.Aside log') :
    log'.Strands index ∧ log'.held.get? index = log.held.get? index := by
  rw [ha]
  exact ⟨⟨hs.broken, hs.held, hs.back⟩, rfl⟩

/-- What is stranded stays so, and a rotation that waits for it goes on waiting. -/
theorem Strands.step {log : ReceiptLog} (h : log.Sequenced) {index : ℕ} (hs : log.Strands index)
    (e : Event) : ((log.step e).Strands index ∧
      (log.step e).held.get? index = log.held.get? index) ∧
      ∀ incoming, log.publisher = .draining incoming →
        (log.step e).publisher = .draining incoming := by
  obtain ⟨fault, hopen⟩ := checkOpen_of_broken hs.broken
  cases e with
  | reserve draft =>
    have hsame : log.step (.reserve draft) = log := by
      rw [ReceiptLog.step, reserve, hopen, error_bind]
      exact ite_self _
    rw [hsame]
    exact ⟨⟨hs, rfl⟩, fun _ h => h⟩
  | append leaf =>
    have hsame : log.step (.append leaf) = log := by
      rw [ReceiptLog.step, append, hopen, error_bind]
      rfl
    rw [hsame]
    exact ⟨⟨hs, rfl⟩, fun _ h => h⟩
  | finish ticket available write =>
    obtain ⟨hstrands, hheld, hpublisher⟩ := hs.finish h ticket available write
    exact ⟨⟨hstrands, hheld⟩, fun incoming hd => hpublisher.trans hd⟩
  | close => exact ⟨hs.aside rfl, fun _ h => h⟩
  | checkpoint now available =>
    refine ⟨hs.aside (aside_checkpoint log now available), fun incoming hd => ?_⟩
    rw [ReceiptLog.step, checkpoint, hd]
    exact hd
  | rotate incoming' =>
    refine ⟨hs.aside (aside_rotate log incoming'), fun incoming hd => ?_⟩
    rw [ReceiptLog.step, rotate, hd]
    exact hd
  | measure =>
    refine ⟨hs.aside (aside_measure log), fun incoming hd => ?_⟩
    obtain ⟨r, hr⟩ := hs.held
    have hne : log.held.items ≠ [] := by
      intro hnil
      rw [Dict.get?, hnil] at hr
      cases hr
    rw [ReceiptLog.step, measure, hd]
    simp only [if_neg hne, hd]
  | vouch now available =>
    refine ⟨hs.aside (aside_vouch log now available), fun incoming hd => ?_⟩
    rw [ReceiptLog.step, vouch, hd]
    exact hd
  | recorded written =>
    refine ⟨hs.aside (aside_recorded log written), fun incoming hd => ?_⟩
    rw [ReceiptLog.step, recorded, hd]
    exact hd
  | hand now available written =>
    refine ⟨hs.aside (aside_hand log now available written), fun incoming hd => ?_⟩
    rw [ReceiptLog.step, hand, hd]
    exact hd

theorem Strands.run {log : ReceiptLog} (h : log.Sequenced) {index : ℕ} (hs : log.Strands index)
    (es : List Event) : (log.run es).held.get? index = log.held.get? index ∧
      ∀ incoming, log.publisher = .draining incoming →
        (log.run es).publisher = .draining incoming := by
  induction es generalizing log with
  | nil => exact ⟨rfl, fun _ h => h⟩
  | cons e es ih =>
    obtain ⟨⟨hstrands, hheld⟩, hdraining⟩ := hs.step h e
    obtain ⟨hrest, hrotation⟩ := ih (sequenced_step h e).1 hstrands
    exact ⟨hrest.trans hheld, fun incoming hd => hrotation incoming (hdraining incoming hd)⟩

/-- Once the index of a log has failed, a receipt that came back behind no caller that is still
waited for is never issued, refused or taken back, and a rotation that waits for the positions
held waits for ever. -/
theorem unsettled_of_broken (logId : Text) (version : Option ℕ) (signer : LogSigner)
    (keyring : KeyTable) (es fs : List Event) (index : ℕ) (r : Reservation)
    (hbroken : ((fresh logId version signer keyring).run es).broken = true)
    (hr : ((fresh logId version signer keyring).run es).held.get? index = some r)
    (hback : ∀ j r', j ≤ index →
      ((fresh logId version signer keyring).run es).held.get? j = some r' →
      r'.ticket ∉ ((fresh logId version signer keyring).run es).working) :
    ((fresh logId version signer keyring).run (es ++ fs)).settled.get? r.ticket = none ∧
      (waits ((fresh logId version signer keyring).run es).publisher = true →
        waits ((fresh logId version signer keyring).run (es ++ fs)).publisher = true) := by
  have hrun := (sequenced_run (sequenced_fresh logId version signer keyring) es).1
  rw [run_append]
  obtain ⟨hheld, hrotation⟩ := Strands.run hrun ⟨hbroken, ⟨r, hr⟩, hback⟩ fs
  have hlast := (sequenced_run hrun fs).1
  have hr' := hheld.trans hr
  obtain ⟨c, hc, rfl⟩ := hlast.caller index r hr'
  rw [← hlast.indexed index _ hr'] at hr'
  refine ⟨(hlast.settled _ c hc).mpr hr', fun hwaits => ?_⟩
  cases hpublisher : ((fresh logId version signer keyring).run es).publisher with
  | draining incoming =>
    rw [hrotation incoming hpublisher]
    rfl
  | _ =>
    rw [hpublisher] at hwaits
    cases hwaits

/-- A caller comes back while a rotation waits, after the index has failed. -/
theorem unsettled_of_broken_sample :
    let es := sampleAdmissions ++ [.rotate (sampleSigner 1 (txt "1111111111111111")),
      .finish 0 true .unindexed, .finish 1 true .written]
    (sampleLog.run (es ++ [.measure, .close])).settled.get? 1 = none ∧
      waits (sampleLog.run (es ++ [.measure, .close])).publisher = true := by
  intro es
  have hworking : (sampleLog.run es).working = [] := by decide +kernel
  have hstuck := unsettled_of_broken (txt "log") none (sampleSigner 0 (txt "0000000000000000"))
    (.single (sampleSigner 0 (txt "0000000000000000")).key) es [.measure, .close] 1
    ⟨1, 1, txt "second"⟩ (by decide +kernel) (by decide +kernel)
    (fun j r _ _ hmem => List.not_mem_nil (hworking ▸ hmem))
  exact ⟨hstuck.1, hstuck.2 (by decide +kernel)⟩

/-! ### What a delivery follows -/

/-- Whether every delivery of a log that names an action receipt of the log follows it, bound to
its exact bytes. -/
def Bound (log : ReceiptLog) : Prop :=
  ∀ (i : ℕ) (leaf : Leaf) (r : DeliveryReceipt), log.file[i]? = some leaf →
    leaf.document = .delivery r → r.action.logId = log.logId → r.action.leafIndex < i ∧
      ∃ bound, log.file[r.action.leafIndex]? = some bound ∧ r.action.Binds bound

theorem get?_foldl_set {batch : List (Reservation × Leaf)} {d : Dict ℕ Leaf} {j : ℕ} {leaf : Leaf}
    (h : (batch.foldl (fun d p => d.set p.1.index p.2) d).get? j = some leaf) :
    d.get? j = some leaf ∨ ∃ p ∈ batch, p.1.index = j ∧ p.2 = leaf := by
  induction batch generalizing d with
  | nil => exact Or.inl h
  | cons p batch ih =>
    rcases ih h with hset | ⟨q, hq, hsame⟩
    · rw [Dict.get?_set] at hset
      split_ifs at hset with heq
      · exact Or.inr ⟨p, List.mem_cons_self, heq.symm, Option.some.inj hset⟩
      · exact Or.inl hset
    · exact Or.inr ⟨q, List.mem_cons_of_mem _ hq, hsame⟩

theorem get?_staged {batch : List (Reservation × Leaf)} {j : ℕ} {leaf : Leaf}
    (h : (staged batch).get? j = some leaf) : ∃ p ∈ batch, p.1.index = j ∧ p.2 = leaf := by
  rcases get?_foldl_set h with hnone | hmem
  · cases hnone
  · exact hmem

theorem checkBinding_eq_ok {log : ReceiptLog} {leaf : Leaf} {staged : Dict ℕ Leaf}
    {r : DeliveryReceipt} (hr : leaf.document = .delivery r) (hlog : r.action.logId = log.logId)
    (h : log.checkBinding leaf staged = .ok ⟨⟩) :
    ∃ bound, (staged.get? r.action.leafIndex).or log.leaves[r.action.leafIndex]? = some bound ∧
      r.action.Binds bound := by
  unfold checkBinding at h
  rw [hr] at h
  simp only [hlog, ne_eq, not_true_eq_false, if_false] at h
  split at h
  · cases h
  · rename_i bound hbound
    refine ⟨bound, hbound, ?_⟩
    split at h
    · cases h
    · rename_i a ha
      split at h
      · cases h
      · rename_i hproblem
        exact ActionBinding.binds_of_problem ha hproblem

/-- Draining appends deliveries that follow the action receipts they name. -/
theorem Drained.bound {log log' : ReceiptLog} {batch : List (Reservation × Leaf)}
    (hd : log.Drained log' batch) (h : log.Queued) (hb : log.Bound) : log'.Bound := by
  intro i leaf r hleaf hr hlog
  rw [hd.advances.logId_eq] at hlog
  rcases hd.advances.getElem?_file hleaf with hold | ⟨j, p, rfl, hp, rfl⟩
  · obtain ⟨hlt, bound, hbound, hbinds⟩ := hb i leaf r hold hr hlog
    exact ⟨hlt, bound, hd.advances.getElem?_of_file hbound, hbinds⟩
  · obtain ⟨hfile, hchecked⟩ := hd.checked j p hp
    obtain ⟨bound, hbound, hbinds⟩ := checkBinding_eq_ok hr hlog hchecked
    rcases Option.or_eq_some_iff.mp hbound with hstaged | ⟨-, hleaves⟩
    · obtain ⟨q, hq, hindex, rfl⟩ := get?_staged hstaged
      obtain ⟨k, hk⟩ := List.mem_iff_getElem?.mp hq
      rw [List.getElem?_take] at hk
      split_ifs at hk with hlt
      obtain ⟨-, hat, hbound, -⟩ := hd.advances.entry h hk
      rw [← hindex, hat]
      exact ⟨Nat.add_lt_add_left hlt _, q.2, hbound, hbinds⟩
    · rw [← hfile] at hleaves
      have hlt := (List.getElem?_eq_some_iff.mp hleaves).1
      exact ⟨by omega, bound, hd.advances.getElem?_of_file hleaves, hbinds⟩

theorem Bound.of_file {log log' : ReceiptLog} (hb : log.Bound) (hlog : log'.logId = log.logId)
    (hfile : log'.file = log.file) : log'.Bound := by
  rw [Bound, hlog, hfile]
  exact hb

theorem bound_step {log : ReceiptLog} (h : log.Sequenced) (hb : log.Bound) (e : Event) :
    (log.step e).Bound := by
  rcases step_file h e with hfile | ⟨c, leaf, batch, hput, hd⟩
  · exact hb.of_file (sequenced_step h e).2.logId hfile
  · have hb' : (log.put c.reservation leaf).Bound := hb
    exact hd.bound hput hb'

/-- Whatever callers do and in whatever order, a delivery in a log that names an action receipt of
the log follows it, and names its exact bytes. -/
theorem bound_of_run (logId : Text) (version : Option ℕ) (signer : LogSigner) (keyring : KeyTable)
    (es : List Event) : ((fresh logId version signer keyring).run es).Bound := by
  have hrun : ∀ log : ReceiptLog, log.Sequenced → log.Bound → (log.run es).Bound := by
    induction es with
    | nil => exact fun _ _ hb => hb
    | cons e es ih => exact fun log h hb => ih _ (sequenced_step h e).1 (bound_step h hb e)
  refine hrun _ (sequenced_fresh logId version signer keyring) ?_
  intro i leaf r hleaf
  cases hleaf

end ReceiptLog

end AgentGov.Receipts
