import AgentGov.Holds

/-!
# Conservation

The balances of a chain, what its holds keep back and what it has spent, less what it has
refunded, add up to what it was funded with, wherever a transaction ends. The per-scope lifetime
totals add up to those of the boundary, and from AGOV3 on a scope is never refunded more than it
spent.

AGOV1 and AGOV2 entries may carry an infinite amount. One that leaves a scope, or comes back to
it, is accepted, and nothing adds up from there on.

## Main definitions

* `AgentGov.ChainState.Conserved`: the conservation identity.
* `AgentGov.Balanced`: what an entry that moves a finite amount keeps of it.
* `AgentGov.ConservedThroughout`: the books of a replay balance wherever a transaction ends.

## Main results

* `AgentGov.run_accounted_iff`: where a transaction ends the identity holds, unless an
  infinite amount was held, spent or refunded.
* `AgentGov.conservation`: the chains whose books balance throughout.
-/

open Foundation

namespace AgentGov

variable {checkHash writing : Bool} {c c' : Chain} {e : LedgerEntry}

/-- The balances, what is held and what is spent, less what is refunded, added exactly. -/
def accounted? (balances : Dict Text Value) (t : Totals) : Option Value := do
  let total ← Value.total? balances.values
  let total ← total.plus t.holdsOpen
  let total ← total.plus t.spent
  total.plus (-t.reversed)

/-- The conservation identity. -/
def ChainState.Conserved (s : ChainState) : Prop :=
  accounted? s.balances s.totals = some s.totals.funded

instance (s : ChainState) : Decidable s.Conserved :=
  inferInstanceAs (Decidable (accounted? s.balances s.totals = some s.totals.funded))

/-- The kinds whose amounts are held, spent or refunded. -/
def EntryType.isOutward : EntryType → Bool
  | hold | spend | reversal => true
  | _ => false

/-- Whether no infinite amount is held, spent or refunded. -/
def OutwardFinite (l : List LedgerEntry) : Prop :=
  ∀ e ∈ l, e.entryType.isOutward = true → e.worth.IsFinite

instance (l : List LedgerEntry) : Decidable (OutwardFinite l) :=
  inferInstanceAs (Decidable (∀ e ∈ l, e.entryType.isOutward = true → e.worth.IsFinite))

/-! ### Finite amounts -/

/-- The movement of an entry is its amount, with the sign of its direction. -/
theorem Applied.movement (ha : Applied checkHash writing c e c') :
    (e.entryType = .funding ∨ e.entryType = .holdVoid ∨ e.entryType = .reversal →
      e.movement = e.worth) ∧
    (e.entryType = .hold ∨ e.entryType = .spend → e.movement = -e.worth) ∧
    (e.worth.IsFinite → e.movement.IsFinite) := by
  have hd := ha.direction
  refine ⟨fun hk => ?_, fun hk => ?_, fun hw => ?_⟩
  · have : e.direction = .credit := by
      rcases hk with hk | hk | hk <;> rw [hk] at hd <;> simpa [EntryType.legalDirections] using hd
    simp [LedgerEntry.movement, LedgerEntry.signedAmount, this]
  · have : e.direction = .debit := by
      rcases hk with hk | hk <;> rw [hk] at hd <;> simpa [EntryType.legalDirections] using hd
    simp [LedgerEntry.movement, LedgerEntry.signedAmount, this]
  · unfold LedgerEntry.movement LedgerEntry.signedAmount
    cases e.direction with
    | credit => exact hw
    | debit => exact Value.isFinite_neg.mpr hw
    | none => trivial

/-- What remains of the identity while finite amounts move: what is held, spent and refunded is
finite, and either everything else is and adds up, or the ledger was funded without bound. -/
structure Balanced (c : Chain) : Prop where
  holdsOpen : c.core.totals.holdsOpen.IsFinite
  spent : c.core.totals.spent.IsFinite
  reversed : c.core.totals.reversed.IsFinite
  above : ∀ scope, c.balances.get? scope ≠ some (.infinite true)
  funded : (c.core.totals.funded.IsFinite ∧ (∀ v ∈ c.balances.values, v.IsFinite) ∧
      (c.balances.values.map Value.toRat).sum + c.core.totals.holdsOpen.toRat +
        c.core.totals.spent.toRat - c.core.totals.reversed.toRat =
        c.core.totals.funded.toRat + c.frame.net.toRat) ∨
    (c.core.totals.funded = .infinite false ∧
      ∃ scope, c.balances.get? scope = some (.infinite false))

theorem add_toRat {a b r : Value} (ha : a.IsFinite) (hb : b.IsFinite) (h : add a b = .ok r) :
    r.IsFinite ∧ r.toRat = a.toRat + b.toRat :=
  Value.plus_toRat ha hb (add_ok h)

theorem subtract_toRat {a b r : Value} (ha : a.IsFinite) (hb : b.IsFinite)
    (h : subtract a b = .ok r) : r.IsFinite ∧ r.toRat = a.toRat - b.toRat := by
  obtain ⟨hr, heq⟩ := add_toRat ha (Value.isFinite_neg.mpr hb) h
  exact ⟨hr, by rw [heq, Value.toRat_neg, sub_eq_add_neg]⟩

/-- The boundary totals stay finite while finite amounts move. -/
theorem Balanced.totals_finite (h : Balanced c) (ha : Applied checkHash writing c e c')
    (hw : e.entryType ≠ .funding → e.worth.IsFinite) :
    c'.core.totals.holdsOpen.IsFinite ∧ c'.core.totals.spent.IsFinite ∧
      c'.core.totals.reversed.IsFinite := by
  obtain ⟨-, hs, hr, hh⟩ := ha.totals
  refine ⟨?_, ?_, ?_⟩
  · split_ifs at hh with h₁ h₂
    · exact (add_toRat h.holdsOpen (hw (by simp [h₁])) hh).1
    · exact (subtract_toRat h.holdsOpen (hw (by simp [h₂])) hh).1
    · rw [hh]
      exact h.holdsOpen
  · split_ifs at hs with h₁
    · exact (add_toRat h.spent (hw (by simp [h₁])) hs).1
    · rw [hs]
      exact h.spent
  · split_ifs at hr with h₁
    · exact (add_toRat h.reversed (hw (by simp [h₁])) hr).1
    · rw [hr]
      exact h.reversed

/-- A finite amount that leaves a balance shows up at the boundary, in a hold, or in what the
transaction's transfers still owe. -/
theorem Balanced.totals_toRat (h : Balanced c) (ha : Applied checkHash writing c e c')
    (hw : e.worth.IsFinite) (hf : c.core.totals.funded.IsFinite) (hnet : c.frame.net.IsFinite) :
    c'.core.totals.funded.IsFinite ∧
      c'.core.totals.holdsOpen.toRat + c'.core.totals.spent.toRat -
        c'.core.totals.reversed.toRat - c'.core.totals.funded.toRat - c'.frame.net.toRat =
      c.core.totals.holdsOpen.toRat + c.core.totals.spent.toRat - c.core.totals.reversed.toRat -
        c.core.totals.funded.toRat - c.frame.net.toRat - e.movement.toRat := by
  obtain ⟨tf, ts, tr, th⟩ := ha.totals
  have tn := ha.net
  obtain ⟨inward, outward, hmove⟩ := ha.movement
  have hz := ha.amount_zero
  have hm := hmove hw
  cases kind : e.entryType with
  | funding =>
    simp only [kind, reduceCtorEq, if_true, if_false, EntryType.isBalanced,
      Bool.false_eq_true] at tf ts tr th tn
    obtain ⟨hfin, heq⟩ := add_toRat hf hw tf
    rw [inward (Or.inl kind), ts, tr, th, tn, heq]
    exact ⟨hfin, by ring⟩
  | allocation | release =>
    simp only [kind, reduceCtorEq, if_true, if_false, EntryType.isBalanced] at tf ts tr th tn
    obtain ⟨-, heq⟩ := add_toRat hnet hm tn
    rw [tf, ts, tr, th, heq]
    exact ⟨hf, by ring⟩
  | hold =>
    simp only [kind, reduceCtorEq, if_true, if_false, EntryType.isBalanced,
      Bool.false_eq_true] at tf ts tr th tn
    obtain ⟨-, heq⟩ := add_toRat h.holdsOpen hw th
    rw [outward (Or.inl kind), tf, ts, tr, tn, heq, Value.toRat_neg]
    exact ⟨hf, by ring⟩
  | holdVoid =>
    simp only [kind, reduceCtorEq, if_true, if_false, EntryType.isBalanced,
      Bool.false_eq_true] at tf ts tr th tn
    obtain ⟨-, heq⟩ := subtract_toRat h.holdsOpen hw th
    rw [inward (Or.inr (Or.inl kind)), tf, ts, tr, tn, heq]
    exact ⟨hf, by ring⟩
  | spend =>
    simp only [kind, reduceCtorEq, if_true, if_false, EntryType.isBalanced,
      Bool.false_eq_true] at tf ts tr th tn
    obtain ⟨-, heq⟩ := add_toRat h.spent hw ts
    rw [outward (Or.inr kind), tf, tr, th, tn, heq, Value.toRat_neg]
    exact ⟨hf, by ring⟩
  | reversal =>
    simp only [kind, reduceCtorEq, if_true, if_false, EntryType.isBalanced,
      Bool.false_eq_true] at tf ts tr th tn
    obtain ⟨-, heq⟩ := add_toRat h.reversed hw tr
    rw [inward (Or.inr (Or.inr kind)), tf, ts, th, tn, heq]
    exact ⟨hf, by ring⟩
  | circuitTripped | circuitReset | anchor | migrationSeal | checkpoint =>
    simp only [kind, reduceCtorEq, if_false, EntryType.isBalanced,
      Bool.false_eq_true] at tf ts tr th tn
    have hzero : e.movement.toRat = 0 := by
      have hw0 := hz (by rw [kind]; rfl)
      unfold LedgerEntry.movement LedgerEntry.signedAmount
      cases e.direction <;> simp [hw0, Value.zero_def]
    rw [tf, ts, tr, th, tn, hzero]
    exact ⟨hf, by ring⟩

/-- The balances after an entry. -/
theorem Applied.balance_cases (ha : Applied checkHash writing c e c') :
    (e.entryType.isZeroValue = true ∧ c'.balances = c.balances) ∨
      (e.entryType.isZeroValue = false ∧ ∃ after,
        (c.balance e.scopeId).plus e.movement = some after ∧
        c'.balances = c.balances.set e.scopeId after) := by
  obtain ⟨after, hadd, -, hb⟩ := ha.balance
  cases hz : e.entryType.isZeroValue with
  | true =>
    rw [hz, if_pos rfl] at hb
    exact Or.inl ⟨rfl, hb⟩
  | false =>
    rw [hz] at hb
    exact Or.inr ⟨rfl, after, add_ok hadd, hb⟩

/-- An infinite balance stays as it is. -/
theorem Applied.balance_infinite (ha : Applied checkHash writing c e c') {scope : Text} {s : Bool}
    (h : c.balances.get? scope = some (.infinite s)) :
    c'.balances.get? scope = some (.infinite s) := by
  rcases ha.balance_cases with ⟨-, hb⟩ | ⟨-, after, hadd, hb⟩
  · rw [hb, h]
  · rw [hb, Dict.get?_set]
    split_ifs with hs
    · have hbal : c.balance e.scopeId = .infinite s := by
        rw [Chain.balance, ← hs, h]
        rfl
      rw [hbal, Value.plus_comm] at hadd
      rw [Value.plus_infinite hadd]
    · exact h

/-- A scope's balance, unless it is zero, is the one kept for it. -/
theorem Chain.get?_of_balance {scope : Text} {v : Value} (h : c.balance scope = v) (hv : v ≠ 0) :
    c.balances.get? scope = some v := by
  unfold Chain.balance at h
  cases hg : c.balances.get? scope with
  | none =>
    rw [hg] at h
    exact absurd h.symm hv
  | some w =>
    rw [hg, Option.getD_some] at h
    rw [h]

/-- A finite movement keeps finite balances finite, and moves their sum. -/
theorem Applied.sum_balances (ha : Applied checkHash writing c e c') (hw : e.worth.IsFinite)
    (hb : ∀ v ∈ c.balances.values, v.IsFinite) :
    (∀ v ∈ c'.balances.values, v.IsFinite) ∧
      (c'.balances.values.map Value.toRat).sum =
        (c.balances.values.map Value.toRat).sum + e.movement.toRat := by
  rcases ha.balance_cases with ⟨hz, heq⟩ | ⟨-, after, hadd, heq⟩
  · have hzero : e.movement.toRat = 0 := by
      have hw0 := ha.amount_zero hz
      unfold LedgerEntry.movement LedgerEntry.signedAmount
      cases e.direction <;> simp [hw0, Value.zero_def]
    rw [heq, hzero, add_zero]
    exact ⟨hb, rfl⟩
  · have hbal : (c.balance e.scopeId).IsFinite := by
      unfold Chain.balance
      cases hg : c.balances.get? e.scopeId with
      | none => exact Value.isFinite_zero
      | some v => exact hb v (Dict.mem_values_iff.mpr ⟨_, hg⟩)
    obtain ⟨hfin, hrat⟩ := Value.plus_toRat hbal (ha.movement.2.2 hw) hadd
    refine ⟨fun v hv => ?_, ?_⟩
    · rw [heq, Dict.mem_values_iff] at hv
      obtain ⟨k, hk⟩ := hv
      rw [Dict.get?_set] at hk
      split_ifs at hk
      · cases hk
        exact hfin
      · exact hb v (Dict.mem_values_iff.mpr ⟨k, hk⟩)
    · have hold : ((c.balances.get? e.scopeId).map Value.toRat).getD 0 =
          (c.balance e.scopeId).toRat := by
        unfold Chain.balance
        cases c.balances.get? e.scopeId <;> simp
      rw [heq, Dict.sum_values_set, hold, hrat]
      ring

/-- An entry that moves a finite amount, or funds without bound, leaves the books balanced. -/
theorem Balanced.applied (h : Balanced c) (ha : Applied checkHash writing c e c')
    (hnet : c.frame.net.IsFinite) (hw : e.entryType ≠ .funding → e.worth.IsFinite) :
    Balanced c' := by
  obtain ⟨hh, hs, hr⟩ := h.totals_finite ha hw
  have hpos : ¬e.worth.IsFinite → e.entryType = .funding ∧ e.worth = .infinite false := by
    intro hinf
    have kind : e.entryType = .funding := by
      by_contra hne
      exact hinf (hw hne)
    have := ha.amount_pos (by rw [kind]; rfl)
    cases hv : e.worth with
    | finite q => exact absurd (hv ▸ trivial) hinf
    | infinite s =>
      obtain rfl : s = false := Value.eq_infinite_of_zero_lt (hv ▸ this)
      exact ⟨kind, rfl⟩
  have hfund : e.entryType = .funding → e.movement = e.worth := fun hk => ha.movement.1 (Or.inl hk)
  refine ⟨hh, hs, hr, fun scope hscope => ?_, ?_⟩
  · rcases ha.balance_cases with ⟨-, heq⟩ | ⟨-, after, hadd, heq⟩
    · exact h.above scope (heq ▸ hscope)
    · rw [heq, Dict.get?_set] at hscope
      split_ifs at hscope
      · cases hscope
        rcases Value.infinite_of_plus hadd with hb | hm
        · exact h.above _ (Chain.get?_of_balance hb (by simp [Value.zero_def]))
        · by_cases hfin : e.worth.IsFinite
          · have := ha.movement.2.2 hfin
            rw [hm] at this
            exact this
          · obtain ⟨kind, hinf⟩ := hpos hfin
            rw [hfund kind, hinf] at hm
            cases hm
      · exact h.above scope hscope
  · rcases h.funded with ⟨hf, hb, heq⟩ | ⟨hf, scope, hscope⟩
    · by_cases hfin : e.worth.IsFinite
      · obtain ⟨hf', hboundary⟩ := h.totals_toRat ha hfin hf hnet
        obtain ⟨hb', hsum⟩ := ha.sum_balances hfin hb
        exact Or.inl ⟨hf', hb', by linarith⟩
      · -- the ledger is funded without bound here
        obtain ⟨kind, hinf⟩ := hpos hfin
        have hadd := ha.totals.funded
        rw [if_pos kind, hinf] at hadd
        refine Or.inr ⟨Value.plus_infinite (add_ok hadd), e.scopeId, ?_⟩
        rcases ha.balance_cases with ⟨hz, -⟩ | ⟨-, after, hafter, hset⟩
        · rw [kind] at hz
          cases hz
        · rw [hfund kind, hinf] at hafter
          rw [hset, Dict.get?_set_self, Value.plus_infinite hafter]
    · refine Or.inr ⟨?_, scope, ha.balance_infinite hscope⟩
      have hadd := ha.totals.funded
      split_ifs at hadd
      · have := add_ok hadd
        rw [hf, Value.plus_comm] at this
        exact Value.plus_infinite this
      · rw [hadd, hf]

/-- Books that balance where nothing is owed satisfy the conservation identity. -/
theorem Balanced.accounted (h : Balanced c) (hnet : c.frame.net = 0) :
    accounted? c.balances c.core.totals = some c.core.totals.funded := by
  obtain ⟨hh, hs, hr, habove, hfunded⟩ := h
  unfold accounted?
  rcases hfunded with ⟨hf, hb, heq⟩ | ⟨hf, scope, hscope⟩
  · rw [Value.total?_of_finite hb, hh.eq, hs.eq, hr.eq, hf.eq]
    rw [hnet, Value.toRat_zero, add_zero] at heq
    simp only [Option.bind_eq_bind, Option.bind_some, Value.plus_finite, Value.neg_finite,
      Option.some.injEq, Value.finite.injEq, ← sub_eq_add_neg]
    exact heq
  · have hmem : Value.infinite true ∉ c.balances.values := by
      rw [Dict.mem_values_iff]
      rintro ⟨k, hk⟩
      exact habove k hk
    obtain ⟨r, hr'⟩ := Value.foldlM_plus_isSome (a := 0) (by simp [Value.zero_def]) hmem
    have hinf : r = .infinite false :=
      Value.total?_infinite (Dict.mem_values_iff.mpr ⟨scope, hscope⟩) hr'
    rw [show Value.total? c.balances.values = some r from hr', hinf, hh.eq, hs.eq, hr.eq, hf]
    rfl

/-! ### Infinite amounts -/

/-- What an infinite amount that is held, spent or refunded leaves behind for good. -/
structure Unbounded (l : List LedgerEntry) (c : Chain) : Prop where
  funded : c.core.totals.funded ≠ .infinite true
  hold : (∃ e ∈ l, e.entryType = .hold ∧ ¬e.worth.IsFinite) →
    c.core.totals.holdsOpen = .infinite false ∧
      ∃ scope, c.balances.get? scope = some (.infinite true)
  spend : (∃ e ∈ l, e.entryType = .spend ∧ ¬e.worth.IsFinite) →
    c.core.totals.spent = .infinite false ∧
      ∃ scope, c.balances.get? scope = some (.infinite true)
  reversal : (∃ e ∈ l, e.entryType = .reversal ∧ ¬e.worth.IsFinite) →
    c.core.totals.reversed = .infinite false

theorem Applied.worth_infinite (ha : Applied checkHash writing c e c')
    (hk : e.entryType.isZeroValue = false) (hw : ¬e.worth.IsFinite) : e.worth = .infinite false := by
  have hpos := ha.amount_pos hk
  cases hv : e.worth with
  | finite q => exact absurd (hv ▸ trivial) hw
  | infinite s =>
    obtain rfl : s = false := Value.eq_infinite_of_zero_lt (hv ▸ hpos)
    rfl

/-- An infinite amount that leaves a scope leaves it infinitely overdrawn. -/
theorem Applied.overdrawn (ha : Applied checkHash writing c e c')
    (hk : e.entryType = .hold ∨ e.entryType = .spend) (hw : ¬e.worth.IsFinite) :
    c'.balances.get? e.scopeId = some (.infinite true) := by
  have hz : e.entryType.isZeroValue = false := by rcases hk with hk | hk <;> rw [hk] <;> rfl
  rcases ha.balance_cases with ⟨hz', -⟩ | ⟨-, after, hadd, heq⟩
  · rw [hz] at hz'
    cases hz'
  · rw [ha.movement.2.1 hk, ha.worth_infinite hz hw] at hadd
    rw [heq, Dict.get?_set_self, Value.plus_infinite hadd]
    rfl

theorem add_infinite {a b r : Value} {s : Bool} (ha : a = .infinite s) (h : add a b = .ok r) :
    r = .infinite s := by
  have hp := add_ok h
  rw [ha, Value.plus_comm] at hp
  exact Value.plus_infinite hp

theorem Unbounded.applied {l : List LedgerEntry} (h : Unbounded l c)
    (ha : Applied checkHash writing c e c') : Unbounded (l ++ [e]) c' := by
  obtain ⟨tf, ts, tr, th⟩ := ha.totals
  have found : ∀ {kind : EntryType}, (∃ x ∈ l ++ [e], x.entryType = kind ∧ ¬x.worth.IsFinite) →
      (∃ x ∈ l, x.entryType = kind ∧ ¬x.worth.IsFinite) ∨
        e.entryType = kind ∧ ¬e.worth.IsFinite := by
    rintro kind ⟨x, hx, hk⟩
    rw [List.mem_append, List.mem_singleton] at hx
    rcases hx with hx | rfl
    · exact Or.inl ⟨x, hx, hk⟩
    · exact Or.inr hk
  refine ⟨?_, fun hx => ?_, fun hx => ?_, fun hx => ?_⟩
  · split_ifs at tf with kind
    · intro hinf
      rw [hinf] at tf
      rcases Value.infinite_of_plus (add_ok tf) with hf | hw
      · exact h.funded hf
      · exact Value.ne_of_zero_lt (ha.amount_pos (by rw [kind]; rfl)) hw
    · rw [tf]
      exact h.funded
  · rcases found hx with hx | ⟨kind, hw⟩
    · obtain ⟨hinf, scope, hscope⟩ := h.hold hx
      refine ⟨?_, scope, ha.balance_infinite hscope⟩
      split_ifs at th
      · exact add_infinite hinf th
      · exact add_infinite hinf th
      · rw [th, hinf]
    · refine ⟨?_, e.scopeId, ha.overdrawn (Or.inl kind) hw⟩
      rw [if_pos kind, ha.worth_infinite (by rw [kind]; rfl) hw] at th
      exact Value.plus_infinite (add_ok th)
  · rcases found hx with hx | ⟨kind, hw⟩
    · obtain ⟨hinf, scope, hscope⟩ := h.spend hx
      refine ⟨?_, scope, ha.balance_infinite hscope⟩
      split_ifs at ts
      · exact add_infinite hinf ts
      · rw [ts, hinf]
    · refine ⟨?_, e.scopeId, ha.overdrawn (Or.inr kind) hw⟩
      rw [if_pos kind, ha.worth_infinite (by rw [kind]; rfl) hw] at ts
      exact Value.plus_infinite (add_ok ts)
  · rcases found hx with hx | ⟨kind, hw⟩
    · have hinf := h.reversal hx
      split_ifs at tr
      · exact add_infinite hinf tr
      · rw [tr, hinf]
    · rw [if_pos kind, ha.worth_infinite (by rw [kind]; rfl) hw] at tr
      exact Value.plus_infinite (add_ok tr)

/-- Where an infinite amount has been held, spent or refunded, nothing adds up any more. -/
theorem Unbounded.not_accounted {l : List LedgerEntry} (h : Unbounded l c)
    (hl : ¬OutwardFinite l) :
    accounted? c.balances c.core.totals ≠ some c.core.totals.funded := by
  have hl' : ∃ e ∈ l, e.entryType.isOutward = true ∧ ¬e.worth.IsFinite := by
    simpa [OutwardFinite] using hl
  obtain ⟨e, he, hk, hw⟩ := hl'
  intro heq
  unfold accounted? at heq
  simp only [Option.bind_eq_bind, Option.bind_eq_some_iff] at heq
  obtain ⟨a, ha, b, hb, d, hd, hf⟩ := heq
  have overdrawn : (∃ scope, c.balances.get? scope = some (.infinite true)) →
      a = .infinite true ∧ b = .infinite true ∧ d = .infinite true := by
    rintro ⟨scope, hscope⟩
    have hinf := Value.total?_infinite (Dict.mem_values_iff.mpr ⟨scope, hscope⟩) ha
    subst hinf
    rw [Value.plus_comm] at hb
    have hinf := Value.plus_infinite hb
    subst hinf
    rw [Value.plus_comm] at hd
    exact ⟨rfl, rfl, Value.plus_infinite hd⟩
  cases kind : e.entryType with
  | hold =>
    obtain ⟨hinf, hscope⟩ := h.hold ⟨e, he, kind, hw⟩
    rw [hinf] at hb
    have hb' := Value.plus_infinite hb
    rw [(overdrawn hscope).2.1] at hb'
    cases hb'
  | spend =>
    obtain ⟨hinf, hscope⟩ := h.spend ⟨e, he, kind, hw⟩
    rw [hinf] at hd
    have hd' := Value.plus_infinite hd
    rw [(overdrawn hscope).2.2] at hd'
    cases hd'
  | reversal =>
    rw [h.reversal ⟨e, he, kind, hw⟩] at hf
    exact h.funded (Value.plus_infinite hf)
  | funding | allocation | release | holdVoid | circuitTripped | circuitReset | anchor |
      migrationSeal | checkpoint =>
    rw [kind] at hk
    cases hk

section Runs

variable {unit : Unit} {legacy : List ControlEvent} {resolve : UUID → Option LedgerEntry}
  {l : List LedgerEntry}

theorem run_unbounded
    (h : runAll (Rules.apply checkHash writing) (Chain.empty unit legacy resolve) l = .ok c) :
    Unbounded l c := by
  refine Chain.run_induction (motive := Unbounded) ?_ (fun l e c c' _ ih ha => ih.applied ha) h
  constructor
  · exact fun h => nomatch h
  all_goals rintro ⟨e, he, -⟩; cases he

/-- What a transaction's transfers owe stays infinite once it is. -/
theorem Applied.net_infinite (ha : Applied checkHash writing c e c')
    (h : ¬c.frame.net.IsFinite) : ¬c'.frame.net.IsFinite := by
  have hn := ha.net
  split_ifs at hn
  · exact fun hfin => h (Value.isFinite_of_plus hfin (add_ok hn)).1
  · rw [hn]
    exact h

/-- The books of a run balance, unless an infinite amount is being transferred. -/
theorem run_balanced
    (h : runAll (Rules.apply checkHash writing) (Chain.empty unit legacy resolve) l = .ok c)
    (hl : OutwardFinite l) (hnet : c.frame.net.IsFinite) : Balanced c := by
  refine Chain.run_induction (motive := fun l c => OutwardFinite l → c.frame.net.IsFinite →
    Balanced c) (fun _ _ => ?_) ?_ h hl hnet
  · refine ⟨trivial, trivial, trivial, by rintro scope ⟨⟩, Or.inl ⟨trivial, ?_, ?_⟩⟩ <;>
      simp [Chain.empty, ChainState.chain, ChainState.empty, Dict.values]
  · intro l e c c' hrun ih ha hl hnet'
    have hnet : c.frame.net.IsFinite := by
      by_contra hinf
      exact ha.net_infinite hinf hnet'
    have hb := ih (fun x hx => hl x (List.mem_append_left _ hx)) hnet
    refine hb.applied ha hnet fun hne => ?_
    cases kind : e.entryType with
    | funding => exact absurd kind hne
    | allocation | release =>
      have hn := ha.net
      rw [if_pos (by rw [kind]; rfl)] at hn
      have hm := (Value.isFinite_of_plus hnet' (add_ok hn)).2
      have hd := ha.direction
      unfold LedgerEntry.movement LedgerEntry.signedAmount at hm
      rw [kind] at hd
      cases hdir : e.direction with
      | credit => rwa [hdir] at hm
      | debit =>
        rw [hdir] at hm
        exact Value.isFinite_neg.mp hm
      | none => simp [hdir, EntryType.legalDirections] at hd
    | hold | spend | reversal => exact hl e (by simp) (by rw [kind]; rfl)
    | holdVoid =>
      -- a hold is released for what it was placed with
      have released : ∃ id hold, c.holds.get? id = some hold ∧
          hold.amount.value? = some e.worth := by
        cases ha.holds with
        | place k => simp [k] at kind
        | release hold ref _ _ _ opened _ amount => exact ⟨ref, hold, opened, amount⟩
        | releaseUnnamed hold id _ _ opened _ amount => exact ⟨id, hold, opened, amount⟩
        | spend k => simp [k] at kind
        | reverse _ _ _ _ k => simp [k] at kind
        | keep k => exact absurd kind k.2.1
      obtain ⟨id, hold, opened, amount⟩ := released
      obtain ⟨hmem, hkind, -⟩ := run_holds_known hrun id hold opened
      rw [← Rules.worth_eq amount]
      exact hl hold (List.mem_append_left _ hmem) (by rw [hkind]; rfl)
    | circuitTripped | circuitReset | anchor | migrationSeal | checkpoint =>
      rw [ha.amount_zero (by rw [kind]; rfl)]
      trivial

/-- Where nothing is owed the identity holds, unless an infinite amount was held, spent or
refunded. -/
theorem run_accounted_iff
    (h : runAll (Rules.apply checkHash writing) (Chain.empty unit legacy resolve) l = .ok c)
    (hnet : c.frame.net = 0) :
    accounted? c.balances c.core.totals = some c.core.totals.funded ↔ OutwardFinite l := by
  constructor
  · intro heq
    by_contra hl
    exact (run_unbounded h).not_accounted hl heq
  · exact fun hl => (run_balanced h hl (by rw [hnet]; trivial)).accounted hnet

end Runs

/-! ### Lifetime totals -/

/-- Whether the lifetime totals of the scopes add up to that of the boundary. -/
structure AddsUp (d : Dict Text Value) (total : Value) : Prop where
  nonneg : ∀ v ∈ d.values, 0 ≤ v
  sum : Value.sum d.values = total

theorem AddsUp.empty : AddsUp ∅ 0 where
  nonneg v h := by cases h
  sum := rfl

/-- An amount added to a scope and to the boundary. -/
theorem AddsUp.add {d : Dict Text Value} {total total' amount r : Value} {scope : Text}
    (h : AddsUp d total) (hpos : 0 < amount)
    (hr : add ((d.get? scope).getD 0) amount = .ok r) (ht : add total amount = .ok total') :
    AddsUp (d.set scope r) total' := by
  have hold : (0 : Value) ≤ (d.get? scope).getD 0 := by
    cases hg : d.get? scope with
    | none => exact le_rfl
    | some v => exact h.nonneg v (Dict.mem_values_iff.mpr ⟨scope, hg⟩)
  have hge : 0 ≤ r := hold.trans (Value.le_of_plus hpos.le (add_ok hr))
  have hne : ∀ {v : Value}, 0 ≤ v → v ≠ .infinite true := by
    rintro v hv rfl
    exact absurd hv (by decide)
  refine ⟨fun v hv => ?_, ?_⟩
  · rw [Dict.mem_values_iff] at hv
    obtain ⟨k, hk⟩ := hv
    rw [Dict.get?_set] at hk
    split_ifs at hk
    · cases hk
      exact hge
    · exact h.nonneg v (Dict.mem_values_iff.mpr ⟨k, hk⟩)
  · have hrest : (Value.sum (d.erase scope).values).plus ((d.get? scope).getD 0) = some total := by
      rw [← h.sum]
      cases hg : d.get? scope with
      | none => rw [Dict.erase_of_not_mem (Dict.get?_eq_none_iff.mp hg)]; simp
      | some v =>
        rw [hg, Option.getD_some] at hold
        rw [Option.getD_some, Value.plus_sum_cons (hne hold),
          Value.sum_perm (Dict.values_perm_of_get? hg)]
    have hsum := Value.plus_assoc hrest (add_ok ht) (add_ok hr)
    rw [Value.plus_sum_cons (hne hge), Option.some.injEq] at hsum
    rw [← hsum]
    exact Value.sum_perm (Dict.values_set_perm d scope r)

/-- The refunds to a scope. -/
def reversalsOf (l : List LedgerEntry) (scope : Text) : List LedgerEntry :=
  l.filter fun e => e.entryType = .reversal ∧ e.scopeId = scope

/-- What the lifetime totals of a chain keep to. -/
structure FlowsKept (l : List LedgerEntry) (c : Chain) : Prop where
  spent : AddsUp c.spent c.core.totals.spent
  refunded : AddsUp c.refunded c.core.totals.reversed
  bound : ∀ scope, (∀ r ∈ (reversalsOf l scope).getLast?, r.version = auditV3) →
    c.refundedTo scope ≤ c.spentBy scope

theorem FlowsKept.applied {l : List LedgerEntry} (h : FlowsKept l c)
    (ha : Applied checkHash writing c e c') : FlowsKept (l ++ [e]) c' := by
  obtain ⟨-, ts, tr, -⟩ := ha.totals
  have others : ∀ scope, (e.entryType ≠ .reversal ∨ e.scopeId ≠ scope) →
      reversalsOf (l ++ [e]) scope = reversalsOf l scope := by
    intro scope hne
    simp only [reversalsOf, List.filter_append]
    rcases hne with hne | hne <;> simp [hne]
  cases ha.flows with
  | spend spent kind sum after same =>
    rw [if_pos kind] at ts
    rw [if_neg (by simp [kind])] at tr
    have hpos := ha.amount_pos (by rw [kind]; rfl)
    refine ⟨?_, ?_, fun scope hlast => ?_⟩
    · rw [after]
      exact h.spent.add hpos sum ts
    · rw [same, tr]
      exact h.refunded
    · rw [others scope (Or.inl (by simp [kind]))] at hlast
      have hb := h.bound scope hlast
      simp only [Chain.refundedTo, Chain.spentBy, same, after, Dict.get?_set] at hb ⊢
      split_ifs with hs
      · subst hs
        exact hb.trans (Value.le_of_plus hpos.le (add_ok sum))
      · exact hb
  | reversal refunded kind sum bound after same =>
    rw [if_neg (by simp [kind])] at ts
    rw [if_pos kind] at tr
    refine ⟨?_, ?_, fun scope hlast => ?_⟩
    · rw [same, ts]
      exact h.spent
    · rw [after]
      exact h.refunded.add (ha.amount_pos (by rw [kind]; rfl)) sum tr
    · by_cases hs : e.scopeId = scope
      · subst hs
        have hv : e.version = auditV3 := by
          refine hlast e ?_
          simp [reversalsOf, List.filter_append, kind, List.getLast?_append]
        have hb := bound (Or.inr hv)
        simp only [Chain.refundedTo, Chain.spentBy, same, after, Dict.get?_set_self] at hb ⊢
        exact hb
      · rw [others scope (Or.inr hs)] at hlast
        have hb := h.bound scope hlast
        simp only [Chain.refundedTo, Chain.spentBy, same, after, Dict.get?_set,
          if_neg (Ne.symm hs)] at hb ⊢
        exact hb
  | keep kind spent refunded =>
    rw [if_neg kind.1] at ts
    rw [if_neg kind.2] at tr
    refine ⟨by rw [spent, ts]; exact h.spent, by rw [refunded, tr]; exact h.refunded, ?_⟩
    intro scope hlast
    rw [others scope (Or.inl kind.2)] at hlast
    have hb := h.bound scope hlast
    simpa only [Chain.refundedTo, Chain.spentBy, spent, refunded] using hb

theorem run_flowsKept {unit : Unit} {legacy : List ControlEvent}
    {resolve : UUID → Option LedgerEntry} {l : List LedgerEntry}
    (h : runAll (Rules.apply checkHash writing) (Chain.empty unit legacy resolve) l = .ok c) :
    FlowsKept l c :=
  Chain.run_induction (motive := FlowsKept) ⟨.empty, .empty, fun _ _ => le_rfl⟩
    (fun _ _ _ _ _ ih ha => ih.applied ha) h

/-! ### Accepted chains -/

/-- The books of a replay of `entries`: wherever a transaction ends the conservation identity holds
and the lifetime totals of the scopes add up to those of the boundary, and a scope whose last
refund is an AGOV3 entry was never refunded more than it spent. -/
def ConservedThroughout (entries : List LedgerEntry) (legacy : List ControlEvent) (unit : Unit) :
    Prop :=
  ∀ read rest s, entries = read ++ rest → replayed entries read legacy unit = .ok s →
    (EndsTransaction read rest → s.Conserved ∧ Value.sum s.spent.values = s.totals.spent ∧
      Value.sum s.refunded.values = s.totals.reversed) ∧
    ∀ scope, (∀ r ∈ (reversalsOf read scope).getLast?, r.version = auditV3) →
      s.refundedTo scope ≤ s.spentBy scope

/-- The books of an accepted chain balance throughout exactly when it holds, spends and refunds no
infinite amount. -/
theorem conservation {entries : List LedgerEntry} {legacy : List ControlEvent} {fin : Bool}
    {unit : Unit} {s : ChainState}
    (accepted : replay entries legacy fin none none unit = .ok s) :
    ConservedThroughout entries legacy unit ↔ OutwardFinite entries := by
  obtain ⟨c, applied, tripped, hrun, hnet, -, -⟩ := replay_ok accepted
  rw [Option.getD_none] at hrun
  have balanced : ∀ read rest s, entries = read ++ rest →
      replayed entries read legacy unit = .ok s → EndsTransaction read rest →
      (s.Conserved ↔ OutwardFinite read) := by
    intro read rest s heq hs hends
    obtain ⟨d, hd, hchain⟩ := (replayed_together entries read legacy unit).exists_ok hs
    obtain ⟨d', hd', hrest⟩ := runAll_append_eq_ok.mp (heq ▸ hrun)
    rw [← heq, hd, Except.ok.injEq] at hd'
    subst hd'
    have hzero := net_eq_zero_of_endsTransaction hends hd hrest hnet
    have hbal : s.balances = d.balances := congrArg Chain.balances hchain
    have htot : s.totals = d.core.totals := congrArg (fun c => c.core.totals) hchain
    rw [ChainState.Conserved, hbal, htot]
    exact run_accounted_iff hd hzero
  constructor
  · intro h
    obtain ⟨s', hs', -⟩ := (replayed_together entries entries legacy unit).exists_ok' hrun
    have hends : EndsTransaction entries [] := by simp [EndsTransaction]
    have heq : entries = entries ++ [] := (List.append_nil _).symm
    exact (balanced entries [] s' heq hs' hends).mp ((h entries [] s' heq hs').1 hends).1
  · intro hfin read rest s heq hs
    obtain ⟨d, hd, hchain⟩ := (replayed_together entries read legacy unit).exists_ok hs
    have hflows := run_flowsKept hd
    have hspent : s.spent = d.spent := congrArg Chain.spent hchain
    have hrefunded : s.refunded = d.refunded := congrArg Chain.refunded hchain
    have htot : s.totals = d.core.totals := congrArg (fun c => c.core.totals) hchain
    refine ⟨fun hends => ⟨?_, ?_, ?_⟩, fun scope hlast => ?_⟩
    · refine (balanced read rest s heq hs hends).mpr fun x hx => ?_
      exact hfin x (heq ▸ List.mem_append_left _ hx)
    · rw [hspent, htot]
      exact hflows.spent.sum
    · rw [hrefunded, htot]
      exact hflows.refunded.sum
    · have hb := hflows.bound scope hlast
      rw [ChainState.refundedTo, ChainState.spentBy, hspent, hrefunded]
      exact hb

theorem conservation_sampleChain : ConservedThroughout sampleChain [] USD := by
  obtain ⟨s, hs⟩ := exists_of_isOk sampleChain_accepted
  exact (conservation hs).mpr (by decide)

/-- An AGOV2 ledger whose only scope puts an infinite amount on hold. -/
def infiniteHold : List LedgerEntry :=
  linked 0 genesisHash
    [{ draft 1 1 .funding .credit (txt "a") 10 10 with version := auditV2 },
     { draft 2 2 .hold .debit (txt "a") 0 0 with
       version := auditV2, amount := .infinity false, balanceAfter := .infinity true }]

/-- The chain is accepted, and its books do not balance. -/
theorem infiniteHold_not_conserved :
    (infiniteHold.map LedgerEntry.entryId).Nodup ∧
      ∃ s, replay infiniteHold [] false none none USD = .ok s ∧ ¬s.Conserved := by
  refine ⟨by decide, ?_⟩
  have h : (replay infiniteHold [] false none none USD).toOption.any
      (fun s => decide ¬s.Conserved) = true := by decide +kernel
  obtain ⟨s, hs, hc⟩ := exists_of_any h
  exact ⟨s, hs, of_decide_eq_true hc⟩

end AgentGov
