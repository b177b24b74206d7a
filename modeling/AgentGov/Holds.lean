import AgentGov.Steps

/-!
# Holds

The holds of a chain are counted once: placing one adds it to the open holds, to its scope's count
and to the boundary total, and releasing one takes it out of all three. From AGOV2 on a release
names its hold, so releases and holds are paired by id.

## Main definitions

* `AgentGov.HoldsCounted`: the counts and the total are those of the open holds.
* `AgentGov.openHolds`: the holds of a list of entries that none of them releases.
* `AgentGov.HoldsPaired`: the open holds of a chain are those of its entries.

## Main results

* `AgentGov.HoldsCounted.applied`, `AgentGov.HoldsPaired.applied`: what an entry keeps.
* `AgentGov.hold_pairing`: the holds and releases of an accepted chain are paired.
-/

open Foundation

namespace AgentGov

variable {checkHash writing : Bool} {c c' : Chain} {e : LedgerEntry}

/-- The counts of open holds and their boundary total are those of the open holds. -/
structure HoldsCounted (c : Chain) : Prop where
  keyed : ∀ id hold, c.holds.get? id = some hold → hold.entryId = id
  positive : ∀ hold ∈ c.holds.values, 0 < hold.worth
  counts : ∀ scope, c.holdCounts scope = (c.holds.values.countP fun h => h.scopeId = scope : ℕ)
  total : c.core.totals.holdsOpen = Value.sum (c.holds.values.map LedgerEntry.worth)

theorem HoldsCounted.empty (unit : Unit) (legacy : List ControlEvent)
    (resolve : UUID → Option LedgerEntry) : HoldsCounted (Chain.empty unit legacy resolve) where
  keyed id hold h := by cases h
  positive hold h := by cases h
  counts scope := rfl
  total := rfl

namespace HoldsCounted

/-- A new hold is counted. -/
theorem place (h : HoldsCounted c) (new : c.holds.get? e.entryId = none) (positive : 0 < e.worth)
    (holds : c'.holds = c.holds.set e.entryId e)
    (counts : c'.holdCounts =
      Function.update c.holdCounts e.scopeId (c.holdCounts e.scopeId + 1))
    (total : add c.core.totals.holdsOpen e.worth = .ok c'.core.totals.holdsOpen) :
    HoldsCounted c' := by
  have hvalues : c'.holds.values.Perm (e :: c.holds.values) := by
    have hp := Dict.values_set_perm c.holds e.entryId e
    rwa [← holds, Dict.erase_of_not_mem (Dict.get?_eq_none_iff.mp new)] at hp
  constructor
  · intro id hold hid
    rw [holds, Dict.get?_set] at hid
    split_ifs at hid with he
    · cases hid
      exact he.symm
    · exact h.keyed id hold hid
  · intro hold hm
    rcases List.mem_cons.mp (hvalues.mem_iff.mp hm) with rfl | hm
    · exact positive
    · exact h.positive hold hm
  · intro scope
    rw [counts, hvalues.countP_eq, List.countP_cons, Function.update_apply]
    by_cases hs : scope = e.scopeId
    · subst hs
      simp [h.counts]
    · simp [hs, Ne.symm hs, h.counts]
  · have hsum := Value.plus_sum_cons (Value.ne_of_zero_lt positive)
      (c.holds.values.map LedgerEntry.worth)
    rw [← h.total, add_ok total, Option.some.injEq] at hsum
    rw [hsum]
    exact Value.sum_perm (hvalues.map LedgerEntry.worth).symm

/-- A released hold is no longer counted. -/
theorem release (h : HoldsCounted c) {hold : LedgerEntry} {id : UUID}
    (opened : c.holds.get? id = some hold) (scope : hold.scopeId = e.scopeId)
    (amount : hold.worth = e.worth) (holds : c'.holds = c.holds.erase id)
    (counts : c'.holdCounts =
      Function.update c.holdCounts e.scopeId (c.holdCounts e.scopeId - 1))
    (total : subtract c.core.totals.holdsOpen e.worth = .ok c'.core.totals.holdsOpen) :
    HoldsCounted c' := by
  have hvalues : c.holds.values.Perm (hold :: c'.holds.values) := by
    rw [holds]
    exact Dict.values_perm_of_get? opened
  have hpos : 0 < hold.worth := h.positive hold (hvalues.mem_iff.mpr List.mem_cons_self)
  constructor
  · intro id' hold' hid
    rw [holds, Dict.get?_erase] at hid
    split_ifs at hid
    exact h.keyed id' hold' hid
  · exact fun hold' hm => h.positive hold' (hvalues.mem_iff.mpr (List.mem_cons_of_mem _ hm))
  · intro s
    have hc := h.counts s
    rw [hvalues.countP_eq, List.countP_cons] at hc
    rw [counts, Function.update_apply]
    by_cases hs : s = e.scopeId
    · subst hs
      simp only [scope, decide_true, if_true] at hc
      rw [if_pos rfl, hc]
      push_cast
      omega
    · rw [if_neg hs, hc]
      simp [scope, Ne.symm hs]
  · have hsum : c.core.totals.holdsOpen =
        Value.sum (hold.worth :: c'.holds.values.map LedgerEntry.worth) := by
      rw [h.total]
      exact Value.sum_perm (hvalues.map LedgerEntry.worth)
    have hsub := add_ok total
    rw [hsum, ← amount] at hsub
    exact Value.sum_of_plus_neg (Value.ne_of_zero_lt hpos) hsub

/-- An entry that concerns no hold leaves the counts as they are. -/
theorem keep (h : HoldsCounted c) (holds : c'.holds = c.holds)
    (counts : c'.holdCounts = c.holdCounts)
    (total : c'.core.totals.holdsOpen = c.core.totals.holdsOpen) : HoldsCounted c' where
  keyed := holds ▸ h.keyed
  positive := holds ▸ h.positive
  counts := by rw [counts, holds]; exact h.counts
  total := by rw [total, holds]; exact h.total

/-- Every entry keeps the open holds counted. -/
theorem applied (h : HoldsCounted c) (ha : Applied checkHash writing c e c')
    (new : e.entryType = .hold → c.holds.get? e.entryId = none) : HoldsCounted c' := by
  have htotals := ha.totals.holdsOpen
  cases ha.holds with
  | place kind _ holds counts _ _ =>
    rw [if_pos kind] at htotals
    exact h.place (new kind) (ha.amount_pos (by rw [kind]; rfl)) holds counts htotals
  | release hold ref kind _ _ opened scope amount holds counts _ _ =>
    rw [if_neg (by simp [kind]), if_pos kind] at htotals
    exact h.release opened scope (Rules.worth_eq amount) holds counts htotals
  | releaseUnnamed hold id kind _ opened scope amount holds counts _ _ =>
    rw [if_neg (by simp [kind]), if_pos kind] at htotals
    exact h.release opened scope (Rules.worth_eq amount) holds counts htotals
  | spend kind _ holds counts _ _ =>
    rw [if_neg (by simp [kind]), if_neg (by simp [kind])] at htotals
    exact h.keep holds counts htotals
  | reverse _ _ _ _ kind _ _ _ _ _ _ _ holds counts _ _ =>
    rw [if_neg (by simp [kind]), if_neg (by simp [kind])] at htotals
    exact h.keep holds counts htotals
  | keep kind _ holds counts _ _ =>
    rw [if_neg kind.1, if_neg kind.2.1] at htotals
    exact h.keep holds counts htotals

end HoldsCounted

section Runs

variable {unit : Unit} {legacy : List ControlEvent} {resolve : UUID → Option LedgerEntry}
  {l : List LedgerEntry}

/-- An open hold is a HOLD entry of the chain, kept under its id. -/
theorem run_holds_known
    (h : runAll (Rules.apply checkHash writing) (Chain.empty unit legacy resolve) l = .ok c) :
    ∀ id hold, c.holds.get? id = some hold →
      hold ∈ l ∧ hold.entryType = .hold ∧ hold.entryId = id := by
  refine Chain.run_induction (motive := fun l c => ∀ id hold, c.holds.get? id = some hold →
    hold ∈ l ∧ hold.entryType = .hold ∧ hold.entryId = id) (fun id hold h => by cases h) ?_ h
  intro l e c c' _ ih ha id hold hid
  have known : c.holds.get? id = some hold →
      hold ∈ l ++ [e] ∧ hold.entryType = .hold ∧ hold.entryId = id :=
    fun h => ⟨List.mem_append_left _ (ih id hold h).1, (ih id hold h).2⟩
  have erased : ∀ id', (c.holds.erase id').get? id = some hold →
      c.holds.get? id = some hold := by
    intro id' h
    rw [Dict.get?_erase] at h
    split_ifs at h
    exact h
  cases ha.holds with
  | place kind _ holds =>
    rw [holds, Dict.get?_set] at hid
    split_ifs at hid with he
    · cases hid
      exact ⟨by simp, kind, he.symm⟩
    · exact known hid
  | release _ _ _ _ _ _ _ _ holds => exact known (erased _ (holds ▸ hid))
  | releaseUnnamed _ _ _ _ _ _ _ holds => exact known (erased _ (holds ▸ hid))
  | spend _ _ holds => exact known (holds ▸ hid)
  | reverse _ _ _ _ _ _ _ _ _ _ _ _ holds => exact known (holds ▸ hid)
  | keep _ _ holds => exact known (holds ▸ hid)

/-- The open holds of a chain with distinct ids are counted. -/
theorem run_holdsCounted
    (h : runAll (Rules.apply checkHash writing) (Chain.empty unit legacy resolve) l = .ok c)
    (ids : (l.map LedgerEntry.entryId).Nodup) : HoldsCounted c := by
  refine Chain.run_induction (motive := fun l c =>
    (l.map LedgerEntry.entryId).Nodup → HoldsCounted c)
    (fun _ => .empty unit legacy resolve) ?_ h ids
  intro l e c c' hl ih ha ids
  rw [List.map_append, List.nodup_append] at ids
  refine (ih ids.1).applied ha fun _ => ?_
  cases hk : c.holds.get? e.entryId with
  | none => rfl
  | some hold =>
    obtain ⟨hm, -, hid⟩ := run_holds_known hl _ _ hk
    exact absurd rfl (ids.2.2 _ (hid ▸ List.mem_map_of_mem hm) e.entryId (by simp))

end Runs

/-! ### Pairing -/

/-- Whether an entry among `l` is the release of the hold of an id. -/
def Voids (l : List LedgerEntry) (hold : UUID) : Prop :=
  ∃ v ∈ l, v.entryType = .holdVoid ∧ v.ref = some hold

instance (l : List LedgerEntry) (hold : UUID) : Decidable (Voids l hold) :=
  inferInstanceAs (Decidable (∃ v ∈ l, v.entryType = .holdVoid ∧ v.ref = some hold))

theorem voids_append {l m : List LedgerEntry} {hold : UUID} :
    Voids (l ++ m) hold ↔ Voids l hold ∨ Voids m hold := by
  simp only [Voids, List.mem_append, or_and_right, exists_or]

theorem voids_singleton {hold : UUID} :
    Voids [e] hold ↔ e.entryType = .holdVoid ∧ e.ref = some hold := by
  simp [Voids]

/-- The holds among `l` that no entry of `l` releases. -/
def openHolds (l : List LedgerEntry) : List LedgerEntry :=
  l.filter fun e => e.entryType = .hold ∧ ¬Voids l e.entryId

theorem mem_openHolds {l : List LedgerEntry} {hold : LedgerEntry} :
    hold ∈ openHolds l ↔ hold ∈ l ∧ hold.entryType = .hold ∧ ¬Voids l hold.entryId := by
  simp [openHolds]

theorem openHolds_append_hold {l : List LedgerEntry} (kind : e.entryType = .hold)
    (new : ¬Voids l e.entryId) : openHolds (l ++ [e]) = openHolds l ++ [e] := by
  have hv : ∀ id, Voids (l ++ [e]) id ↔ Voids l id := by
    simp [voids_append, voids_singleton, kind]
  simp [openHolds, List.filter_append, hv, kind, new]

theorem openHolds_append_void {l : List LedgerEntry} {ref : UUID} (kind : e.entryType = .holdVoid)
    (named : e.ref = some ref) :
    openHolds (l ++ [e]) = (openHolds l).filter fun h => h.entryId ≠ ref := by
  have hv : ∀ id, Voids (l ++ [e]) id ↔ Voids l id ∨ id = ref := by
    simp [voids_append, voids_singleton, kind, named, eq_comm]
  simp only [openHolds, List.filter_append, hv, List.filter_filter]
  rw [List.filter_singleton]
  simp only [kind, reduceCtorEq, false_and, decide_false, cond_false, List.append_nil]
  refine List.filter_congr fun h _ => ?_
  by_cases h₁ : h.entryType = .hold <;> by_cases h₂ : Voids l h.entryId <;>
    by_cases h₃ : h.entryId = ref <;> simp [h₁, h₂, h₃]

theorem openHolds_append_other {l : List LedgerEntry} (hold : e.entryType ≠ .hold)
    (void : e.entryType ≠ .holdVoid) : openHolds (l ++ [e]) = openHolds l := by
  have hv : ∀ id, Voids (l ++ [e]) id ↔ Voids l id := by
    simp [voids_append, voids_singleton, void]
  simp [openHolds, List.filter_append, hv, hold]

/-- The releases among `l`. -/
def releases (l : List LedgerEntry) : List LedgerEntry := l.filter fun v => v.entryType = .holdVoid

theorem ref_mem_releases {l : List LedgerEntry} {hold : UUID} :
    some hold ∈ (releases l).map LedgerEntry.ref ↔ Voids l hold := by
  simp [releases, Voids, and_assoc]

/-- Whether the release of a hold stands in the transaction the chain is in. -/
def ReleasedIn (l : List LedgerEntry) (txn : Option UUID) (hold : UUID) : Prop :=
  ∃ a v w, l = a ++ v :: w ∧ v.entryType = .holdVoid ∧ v.ref = some hold ∧
    ∀ x ∈ v :: w, txn = some x.transactionId

/-- The open holds of a chain are those of its entries, in their order, and what may be settled
is what its transaction has released. -/
structure HoldsPaired (l : List LedgerEntry) (c : Chain) : Prop where
  items : c.holds.items = (openHolds l).map fun e => (e.entryId, e)
  named : ∀ v ∈ l, v.entryType = .holdVoid → ∃ h ∈ l, h.entryType = .hold ∧ v.ref = some h.entryId
  once : ((releases l).map LedgerEntry.ref).Nodup
  settleable : ∀ ref ∈ c.frame.settleable, ReleasedIn l c.frame.txn ref

theorem ReleasedIn.extend {l : List LedgerEntry} {txn : Option UUID} {ref : UUID}
    (h : ReleasedIn l txn ref) (he : txn = some e.transactionId) :
    ReleasedIn (l ++ [e]) (some e.transactionId) ref := by
  obtain ⟨a, v, w, rfl, kind, named, hw⟩ := h
  refine ⟨a, v, w ++ [e], by simp, kind, named, fun x hx => ?_⟩
  rw [← List.cons_append, List.mem_append, List.mem_singleton] at hx
  rcases hx with hx | rfl
  · rw [← he, hw x hx]
  · rfl

/-- What may be settled after an entry's transaction has begun was released in it. -/
theorem HoldsPaired.begun {l : List LedgerEntry} (h : HoldsPaired l c) {txn ref : UUID}
    (hm : ref ∈ (c.frame.begin txn).settleable) :
    c.frame.txn = some txn ∧ ReleasedIn l c.frame.txn ref := by
  unfold Frame.begin at hm
  split_ifs at hm with h₁ h₂
  · exact ⟨h₁, h.settleable ref hm⟩
  · cases hm
  · -- outside of a transaction nothing has been released
    obtain ⟨a, v, w, -, -, -, hw⟩ := h.settleable ref hm
    rw [hw v List.mem_cons_self] at h₂
    exact absurd rfl h₂

/-- Every named entry keeps holds and releases paired. -/
theorem HoldsPaired.applied {l : List LedgerEntry} (h : HoldsPaired l c)
    (ha : Applied checkHash writing c e c') (version : e.version ≠ auditV1)
    (new : e.entryId ∉ l.map LedgerEntry.entryId) : HoldsPaired (l ++ [e]) c' := by
  have known : ∀ v ∈ l, v.entryType = .holdVoid →
      ∃ h ∈ l ++ [e], h.entryType = .hold ∧ v.ref = some h.entryId := by
    intro v hv kind
    obtain ⟨x, hx, hkind, href⟩ := h.named v hv kind
    exact ⟨x, List.mem_append_left _ hx, hkind, href⟩
  have named : e.entryType ≠ .holdVoid → ∀ v ∈ l ++ [e], v.entryType = .holdVoid →
      ∃ h ∈ l ++ [e], h.entryType = .hold ∧ v.ref = some h.entryId := by
    intro hne v hv kind
    rw [List.mem_append, List.mem_singleton] at hv
    rcases hv with hv | rfl
    · exact known v hv kind
    · exact absurd kind hne
  have settled : ∀ {s}, c'.frame.settleable = s → s = (c.frame.begin e.transactionId).settleable →
      ∀ ref ∈ c'.frame.settleable, ReleasedIn (l ++ [e]) c'.frame.txn ref := by
    rintro s hs rfl ref hm
    rw [hs] at hm
    obtain ⟨htxn, hr⟩ := h.begun hm
    rw [ha.txn]
    exact hr.extend htxn
  have hfresh : ¬Voids l e.entryId := by
    rintro ⟨v, hv, kind, href⟩
    obtain ⟨x, hx, -, href'⟩ := h.named v hv kind
    rw [href, Option.some.injEq] at href'
    exact new (href' ▸ List.mem_map_of_mem hx)
  have other : ∀ {c'' : Chain}, e.entryType ≠ .hold → e.entryType ≠ .holdVoid →
      c''.holds = c.holds → c''.holds.items =
        (openHolds (l ++ [e])).map fun e => (e.entryId, e) := by
    intro c'' h₁ h₂ holds
    rw [holds, openHolds_append_other h₁ h₂, h.items]
  have once : e.entryType ≠ .holdVoid → ((releases (l ++ [e])).map LedgerEntry.ref).Nodup := by
    intro hne
    simpa [releases, List.filter_append, hne] using h.once
  cases ha.holds with
  | place kind _ holds _ settle _ =>
    refine ⟨?_, named (by simp [kind]), once (by simp [kind]), settled settle rfl⟩
    · have hnew : c.holds.get? e.entryId = none := by
        rw [Dict.get?_eq_none_iff, Dict.keys, h.items, List.map_map]
        intro hm
        obtain ⟨x, hx, hid⟩ := List.mem_map.mp hm
        exact new (hid ▸ List.mem_map_of_mem (mem_openHolds.mp hx).1)
      rw [holds, Dict.items_set_of_get?_eq_none hnew, openHolds_append_hold kind hfresh, h.items]
      simp
  | release hold ref kind _ href opened _ _ holds _ settle _ =>
    have hmem : (ref, hold) ∈ c.holds.items := Dict.get?_eq_some_iff.mp opened
    rw [h.items, List.mem_map] at hmem
    obtain ⟨x, hx, heq⟩ := hmem
    simp only [Prod.mk.injEq] at heq
    obtain ⟨rfl, rfl⟩ := heq
    refine ⟨?_, ?_, ?_, ?_⟩
    · rw [holds, Dict.items_erase, h.items, openHolds_append_void kind href, List.filter_map]
      rfl
    · intro v hv hkind
      rw [List.mem_append, List.mem_singleton] at hv
      rcases hv with hv | rfl
      · exact known v hv hkind
      · exact ⟨x, List.mem_append_left _ (mem_openHolds.mp hx).1, (mem_openHolds.mp hx).2.1, href⟩
    · have hnew : some x.entryId ∉ (releases l).map LedgerEntry.ref :=
        fun hm => (mem_openHolds.mp hx).2.2 (ref_mem_releases.mp hm)
      have happ : releases (l ++ [e]) = releases l ++ [e] := by
        simp [releases, List.filter_append, kind]
      rw [happ, List.map_append, List.nodup_append]
      refine ⟨h.once, by simp, fun a ha b hb => ?_⟩
      rw [List.map_singleton, List.mem_singleton, href] at hb
      exact fun hab => hnew (hb ▸ hab ▸ ha)
    · intro r hr
      rw [settle, List.mem_cons] at hr
      rw [ha.txn]
      rcases hr with rfl | hr
      · exact ⟨l, e, [], rfl, kind, href, by simp⟩
      · obtain ⟨htxn, hrel⟩ := h.begun hr
        exact hrel.extend htxn
  | releaseUnnamed _ _ _ old => exact absurd old version
  | spend kind _ holds _ settle _ =>
    exact ⟨other (by simp [kind]) (by simp [kind]) holds, named (by simp [kind]),
      once (by simp [kind]), settled settle rfl⟩
  | reverse _ _ _ _ kind _ _ _ _ _ _ _ holds _ settle _ =>
    exact ⟨other (by simp [kind]) (by simp [kind]) holds, named (by simp [kind]),
      once (by simp [kind]), settled settle rfl⟩
  | keep kind _ holds _ settle _ =>
    exact ⟨other kind.1 kind.2.1 holds, named kind.2.1, once kind.2.1, settled settle rfl⟩

section Chains

variable {unit : Unit} {legacy : List ControlEvent} {resolve : UUID → Option LedgerEntry}
  {l : List LedgerEntry}

/-- The holds and releases of a chain of named entries with distinct ids are paired. -/
theorem run_holdsPaired
    (h : runAll (Rules.apply checkHash writing) (Chain.empty unit legacy resolve) l = .ok c)
    (versions : ∀ e ∈ l, e.version ≠ auditV1) (ids : (l.map LedgerEntry.entryId).Nodup) :
    HoldsPaired l c := by
  refine Chain.run_induction (motive := fun l c => (∀ e ∈ l, e.version ≠ auditV1) →
    (l.map LedgerEntry.entryId).Nodup → HoldsPaired l c) (fun _ _ => ?_) ?_ h versions ids
  · exact ⟨rfl, fun v hv => absurd hv (by simp), by simp [releases], fun ref hr => by cases hr⟩
  · intro l e c c' _ ih ha versions ids
    rw [List.map_append, List.nodup_append] at ids
    refine (ih (fun x hx => versions x (List.mem_append_left _ hx)) ids.1).applied ha
      (versions e (by simp)) fun hm => ?_
    exact ids.2.2 _ hm e.entryId (by simp) rfl

end Chains

/-- From AGOV2 on a release names an open hold of its scope and amount. -/
theorem Applied.named_release (ha : Applied checkHash writing c e c')
    (kind : e.entryType = .holdVoid) (version : e.version ≠ auditV1) :
    ∃ hold ref, e.ref = some ref ∧ c.holds.get? ref = some hold ∧ hold.scopeId = e.scopeId ∧
      hold.amount.value? = some e.worth := by
  cases ha.holds with
  | place k => simp [k] at kind
  | release hold ref _ _ named opened scope amount => exact ⟨hold, ref, named, opened, scope, amount⟩
  | releaseUnnamed _ _ _ old => exact absurd old version
  | spend k => simp [k] at kind
  | reverse _ _ _ _ k => simp [k] at kind
  | keep k => exact absurd kind k.2.1

/-- A spend settles only what its transaction may settle. -/
theorem Applied.settles (ha : Applied checkHash writing c e c') (kind : e.entryType = .spend)
    {ref : UUID} (named : e.ref = some ref) :
    ref ∈ (c.frame.begin e.transactionId).settleable := by
  cases ha.holds with
  | place k => simp [k] at kind
  | release _ _ k => simp [k] at kind
  | releaseUnnamed _ _ k => simp [k] at kind
  | spend _ settles => exact settles ref named
  | reverse _ _ _ _ k => simp [k] at kind
  | keep k => exact absurd kind k.2.2

/-- Hold pairing. In an accepted chain of AGOV2 and AGOV3 entries with distinct ids, every release
names exactly one hold, which stands before it and has its scope and amount; no two releases name
one hold; a spend that settles a hold follows its release within one transaction; and what is
left open, counted and totalled is the holds that no release names. -/
theorem hold_pairing {entries : List LedgerEntry} {legacy : List ControlEvent} {fin : Bool}
    {unit : Unit} {s : ChainState}
    (versions : ∀ e ∈ entries, e.version = auditV2 ∨ e.version = auditV3)
    (ids : (entries.map LedgerEntry.entryId).Nodup)
    (accepted : replay entries legacy fin none none unit = .ok s) :
    (∀ before v after, entries = before ++ v :: after → v.entryType = .holdVoid →
      ∃ hold ∈ before, hold.entryType = .hold ∧ v.ref = some hold.entryId ∧
        hold.scopeId = v.scopeId ∧ hold.amount.value? = v.amount.value? ∧
        ∀ other ∈ entries, v.ref = some other.entryId → other = hold) ∧
    ((releases entries).map LedgerEntry.ref).Nodup ∧
    (∀ before e after, entries = before ++ e :: after → e.entryType = .spend →
      ∀ ref, e.ref = some ref → ReleasedIn before (some e.transactionId) ref) ∧
    s.holds.items = (openHolds entries).map (fun e => (e.entryId, e)) ∧
    (∀ scope n, s.holdCounts.get? scope = some n ↔
      n ≠ 0 ∧ n = (openHolds entries).countP fun h => h.scopeId = scope) ∧
    s.totals.holdsOpen = Value.sum ((openHolds entries).map LedgerEntry.worth) := by
  obtain ⟨c, applied, tripped, hrun, -, tidy, hs⟩ := replay_ok accepted
  have hversions : ∀ e ∈ entries, e.version ≠ auditV1 := by
    intro e he
    rcases versions e he with hv | hv <;> rw [hv]
    · exact auditV1_ne_auditV2.symm
    · exact auditV1_ne_auditV3.symm
  have paired := run_holdsPaired hrun hversions ids
  have counted := run_holdsCounted hrun ids
  have hholds : s.holds = c.holds := congrArg Chain.holds hs
  have hcounts : s.holdsOpenIn = c.holdCounts := congrArg Chain.holdCounts hs
  have htotals : s.totals = c.core.totals := congrArg (fun c => c.core.totals) hs
  have hvalues : c.holds.values = openHolds entries := by
    rw [Dict.values, paired.items, List.map_map]
    exact List.map_id _
  refine ⟨?_, paired.once, ?_, hholds ▸ paired.items, ?_, ?_⟩
  · rintro before v after rfl kind
    obtain ⟨c₁, c₂, h₁, ha, -⟩ := Chain.run_split hrun
    have ids' := ids
    rw [List.map_append, List.nodup_append] at ids
    have before_versions : ∀ e ∈ before, e.version ≠ auditV1 :=
      fun x hx => hversions x (List.mem_append_left _ hx)
    have hp := run_holdsPaired h₁ before_versions ids.1
    obtain ⟨hold, ref, href, hopen, hscope, hamount⟩ := ha.named_release kind
      (hversions v (by simp))
    have hmem : (ref, hold) ∈ c₁.holds.items := Dict.get?_eq_some_iff.mp hopen
    rw [hp.items, List.mem_map] at hmem
    obtain ⟨x, hx, heq⟩ := hmem
    simp only [Prod.mk.injEq] at heq
    obtain ⟨rfl, rfl⟩ := heq
    have hx' := mem_openHolds.mp hx
    refine ⟨x, hx'.1, hx'.2.1, href, hscope, hamount.trans ha.amount.symm, fun other ho hr => ?_⟩
    rw [href, Option.some.injEq] at hr
    exact List.inj_on_of_nodup_map ids' ho (List.mem_append_left _ hx'.1) hr.symm
  · rintro before e after rfl kind ref href
    obtain ⟨c₁, c₂, h₁, ha, -⟩ := Chain.run_split hrun
    rw [List.map_append, List.nodup_append] at ids
    have before_versions : ∀ e ∈ before, e.version ≠ auditV1 :=
      fun x hx => hversions x (List.mem_append_left _ hx)
    have hp := run_holdsPaired h₁ before_versions ids.1
    obtain ⟨htxn, hr⟩ := hp.begun (ha.settles kind href)
    rwa [htxn] at hr
  · intro scope n
    have hc : s.holdsOpenIn scope = (openHolds entries).countP fun h => h.scopeId = scope := by
      rw [hcounts, counted.counts, hvalues]
    rw [← hc, ChainState.holdsOpenIn]
    cases h : s.holdCounts.get? scope with
    | none => simp
    | some m =>
      have hm : m ≠ 0 := fun h0 => tidy scope (h0 ▸ h)
      simp only [Option.some.injEq, Option.getD_some]
      exact ⟨fun h => ⟨h ▸ hm, h.symm⟩, fun h => h.2.symm⟩
  · rw [htotals, counted.total, hvalues]

theorem hold_pairing_sampleChain : ∃ s, replay sampleChain [] false none none USD = .ok s ∧
    s.totals.holdsOpen = Value.sum ((openHolds sampleChain).map LedgerEntry.worth) := by
  obtain ⟨s, hs⟩ := exists_of_isOk sampleChain_accepted
  exact ⟨s, hs, (hold_pairing (by decide) (by decide) hs).2.2.2.2.2⟩

end AgentGov
