import AgentGov.Accepting
import AgentGov.Coercion
import AgentGov.Overdrafts

/-!
# Settling a hold that is open

Where every sum a settlement adds to has room, its release, its spend and the trip of the scope it
overdraws or exhausts are all accepted: nothing a unit of work does to a hold that is open raises
(`src/src/agentgov/core.py`, lines 2578–2716 and 5836–5987).

## Main definitions

* `AgentGov.Chain.Holding`: a hold that is open on a chain, with room to settle it.
* `AgentGov.Governor.Open`: a hold that is open with a governor, with room to settle it.

## Main results

* `AgentGov.Pending.On.release`: the release of a hold that is open is posted.
* `AgentGov.Pending.On.settlement`: its settlement is posted.
-/

open Foundation

namespace AgentGov

variable {w : World} {c c' : Chain} {e : LedgerEntry} {a : Authorization} {n : ℕ}

/-! ### Room -/

/-- Whether a value is a whole number of quanta, and no more than so many from zero. -/
def Within (v : Value) (bound : ℕ) : Prop := ∃ m : ℤ, v = quanta m ∧ m.natAbs ≤ bound

/-- Quanta can be added to a value within a bound, if the sum's digits fit. -/
theorem Within.add {v : Value} {bound : ℕ} (h : Within v bound) {k : ℤ} {j : ℕ}
    (hk : k.natAbs ≤ j) (fits : bound + j < 10 ^ precision) :
    ∃ m : ℤ, AgentGov.add v (quanta k) = .ok (quanta m) ∧ m.natAbs < 10 ^ precision ∧
      m.natAbs ≤ bound + j := by
  obtain ⟨m, rfl, hm⟩ := h
  have hsum : (m + k).natAbs ≤ bound + j := by omega
  exact ⟨m + k, add_quanta (by omega), by omega, hsum⟩

/-- What quanta are added to is within their bound more. -/
theorem Within.of_add {v r : Value} {bound : ℕ} (h : Within v bound) {k : ℤ} {j : ℕ}
    (hk : k.natAbs ≤ j) (hadd : AgentGov.add v (quanta k) = .ok r) : Within r (bound + j) := by
  obtain ⟨m, rfl, hm⟩ := h
  exact ⟨m + k, quanta_of_add hadd rfl rfl, by omega⟩

/-! ### Texts that pass -/

/-- Whether a character is ASCII, and not NUL. -/
def isWritten (c : CodePoint) : Bool := decide (0 < c.val) && Text.isAscii c

theorem isWritten_of_token {c : CodePoint} (h : isToken c = true) : isWritten c = true := by
  simp only [isToken, isDigit, Bool.or_eq_true, Bool.and_eq_true, decide_eq_true_eq] at h
  simp only [isWritten, Text.isAscii, Bool.and_eq_true, decide_eq_true_eq]
  omega

theorem all_written_decimalText (d : Decimal) : (decimalText d).all isWritten = true :=
  all_of_token (fun _ => isWritten_of_token) (all_token_decimalText d)

/-- A memo of ASCII characters but NUL passes its check, if it is not too long. -/
theorem checkText_memo {t : Text} (h : t.all isWritten = true) (hlen : t.length ≤ maxMemoBytes) :
    checkText t .memo maxMemoBytes false = none := by
  have hascii : t.all Text.isAscii = true := List.all_eq_true.mpr fun c hc =>
    (Bool.and_eq_true_iff.mp (List.all_eq_true.mp h c hc)).2
  have hnul : t.any (fun c => c.val = 0) = false := List.any_eq_false.mpr fun c hc => by
    have hpos := (Bool.and_eq_true_iff.mp (List.all_eq_true.mp h c hc)).1
    simp only [decide_eq_true_eq] at hpos ⊢
    omega
  rw [checkText, utf8Size, if_pos hascii]
  simp only [if_neg (not_lt.mpr hlen), Bool.false_eq_true, if_false, hnul]

/-- The text of quanta whose digits fit is short. -/
theorem length_decimalText_le {s : Bool} {m : ℕ} (h : m < 10 ^ precision) :
    (decimalText (.finite s m (-quantumPlaces))).length ≤ 100 := by
  have hdigits : (decimalDigits m).length ≤ 50 :=
    length_decimalDigits_le (by norm_num) (by simpa [precision] using h)
  have hsign : (signText s).length ≤ 1 := by cases s <;> decide
  have hpoint : (txt "0.").length = 2 ∧ (txt ".").length = 1 ∧ (txt "E").length = 1 ∧
      (txt "-").length = 1 ∧ (txt "+").length = 1 := by decide
  obtain ⟨hzero, hdot, hexp, hminus, hplus⟩ := hpoint
  have hexponent : (decimalDigits
      (-(quantumPlaces : ℤ) + (decimalDigits m).length - 1).natAbs).length ≤ 2 := by
    refine length_decimalDigits_le (by norm_num) ?_
    simp only [quantumPlaces]
    omega
  simp only [decimalText]
  split_ifs <;> simp only [List.length_append, List.length_replicate, List.length_take,
    List.length_drop, List.length_nil, hzero, hdot, hexp, hminus, hplus] <;>
    simp only [quantumPlaces] at * <;> omega

/-! ### Lines -/

theorem worth_quanta {s : Bool} (m : ℕ) :
    (Decimal.finite s m (-quantumPlaces)).worth = quanta (if s then -(m : ℤ) else m) := by
  rw [Decimal.worth, Decimal.value?, rat_places, Option.getD_some, quanta]

/-- An amount of eight places is what it is coerced to. -/
theorem coerce_quanta {r : Rounding} (hr : r ≠ .halfEven) (small : n ≤ 10 ^ 20) :
    coerce (.number (some (.finite false n (-quantumPlaces)))) r quantumPlaces =
      .ok (.finite false n (-quantumPlaces)) := by
  have hrat : Decimal.rat false n (-quantumPlaces) = ((n : ℤ) : ℚ) / 10 ^ quantumPlaces :=
    rat_places false n _
  have hle : |Decimal.rat false n (-quantumPlaces)| ≤ maxAmount := by
    have hn : (n : ℚ) ≤ 10 ^ 20 := by exact_mod_cast small
    rw [hrat, abs_of_nonneg (by positivity), div_le_iff₀ (by positivity), maxAmount]
    push_cast
    norm_num [quantumPlaces]
    linarith
  obtain ⟨m, hm, -⟩ := quantizeTo_small hr le_rfl hle
  obtain ⟨m', hm', hworth⟩ := quantizeTo_worth hr hm
  cases hm'
  rw [hrat, div_mul_cancel₀ _ (by positivity), Rounding.round_intCast, rat_places,
    div_left_inj' (by positivity)] at hworth
  obtain rfl : m = n := by simpa using hworth
  simp only [coerce, coerceBy, if_neg (not_lt.mpr hle), ne_eq, not_true_eq_false, if_false]
  exact hm

/-- A line that moves an amount of eight places posts it. -/
theorem checkLine_amount (line : LedgerLine)
    (direction : line.direction ∈ line.entryType.legalDirections)
    (moves : line.entryType.isZeroValue = false)
    (amount : line.amount = .finite false n (-quantumPlaces)) (pos : 0 < n) (small : n ≤ 10 ^ 20)
    (named : line.entryType.isV3Referencing = true)
    (texts : checkTexts line.scopeId line.counterpartyId line.memo = none) :
    checkLine line = .ok (.finite false n (-quantumPlaces)) := by
  have hpos : ¬(Decimal.finite false n (-quantumPlaces)).worth ≤ 0 := by
    rw [worth_quanta, quanta, Value.zero_def, Value.finite_le_finite, not_le]
    have hn : (0 : ℚ) < n := by exact_mod_cast pos
    simp only [Bool.false_eq_true, if_false]
    positivity
  have hamount : lineAmount line = .ok (.finite false n (-quantumPlaces)) := by
    simp only [lineAmount, moves, Bool.false_eq_true, if_false, amount,
      coerce_quanta (by decide : Rounding.floor ≠ .halfEven) small]
    change (if _ then _ else _) = _
    rw [if_neg (not_not.mpr rfl), if_neg hpos]
  rw [checkLine, if_neg (not_not.mpr direction), hamount, ok_bind,
    if_neg (fun h => h.2 named)]
  simp only [texts]

theorem value?_zero : (Decimal.ofInt 0).value? = some 0 := by
  simp [Decimal.ofInt, Decimal.value?, Decimal.rat, Value.zero_def]

/-- A line that moves no money posts none. -/
theorem checkLine_event (kind : EntryType) (scope : Text) {memo : Text}
    (direction : Direction.none ∈ kind.legalDirections) (zero : kind.isZeroValue = true)
    (texts : checkTexts scope none memo = none) :
    checkLine (Staging.event kind scope memo) = .ok (Decimal.ofInt 0) := by
  have hzero : equals (Decimal.ofInt 0) 0 = .ok true := Rules.equals_self value?_zero
  have hamount : lineAmount (Staging.event kind scope memo) = .ok (Decimal.ofInt 0) := by
    simp only [lineAmount, Staging.event, zero, if_true, hzero]
    rfl
  unfold checkLine
  rw [hamount, ok_bind]
  simp only [Staging.event, direction, not_true_eq_false, if_false, Option.isSome_none,
    Bool.false_eq_true, false_and, texts]

/-- Whether a line of a scope can be posted on a chain: the scope was created, its name can be
written, and its balance is within a bound. -/
structure Chain.Serves (c : Chain) (scope : Text) (bound : ℕ) : Prop where
  known : (c.nodes.get? scope).isSome = true
  text : checkText scope .scopeId maxIdBytes true = none
  named : scope ≠ []
  balance : Within (c.balance scope) bound

theorem Chain.Serves.mono {scope : Text} {bound bound' : ℕ} (h : c.Serves scope bound)
    (hle : bound ≤ bound') : c.Serves scope bound' :=
  { h with balance := have ⟨m, hm, hb⟩ := h.balance; ⟨m, hm, hb.trans hle⟩ }

theorem Chain.Serves.texts {scope memo : Text} {bound : ℕ} (h : c.Serves scope bound)
    (hmemo : checkText memo .memo maxMemoBytes false = none) :
    checkTexts scope none memo = none := by
  simp only [checkTexts, h.text, hmemo, Option.bind_none, Option.none_or]

/-- What an entry worth some quanta adds to the balance of its scope, or takes from it. -/
theorem LedgerEntry.movement_quanta {m : ℤ} (hworth : e.worth = quanta m) :
    ∃ k : ℤ, e.signedAmount e.worth = quanta k ∧ k.natAbs ≤ m.natAbs := by
  unfold LedgerEntry.signedAmount
  cases e.direction with
  | credit => exact ⟨m, hworth, le_rfl⟩
  | debit => exact ⟨-m, by rw [hworth, neg_quanta], by omega⟩
  | none => exact ⟨0, quanta_zero.symm, by omega⟩

/-- A chain still serves a scope after an entry of it, within a bound more. -/
theorem Chain.Serves.applied {scope : Text} {bound : ℕ} (h : c.Serves scope bound)
    (ha : Applied true false c e c') (hscope : e.scopeId = scope) {m : ℤ} {j : ℕ}
    (hworth : e.worth = quanta m) (hm : m.natAbs ≤ j) : c'.Serves scope (bound + j) := by
  subst hscope
  obtain ⟨k, hk, hle⟩ := LedgerEntry.movement_quanta hworth
  obtain ⟨after, hadd, -, hbalances⟩ := ha.balance
  have hmovement : e.movement = quanta k := hk
  refine ⟨ha.governance.isSome_nodes h.known, h.text, h.named, ?_⟩
  rw [Chain.balance, hbalances]
  split_ifs
  · obtain ⟨v, hv, hb⟩ := h.balance
    exact ⟨v, hv, by omega⟩
  · rw [Dict.get?_set_self, Option.getD_some]
    rw [hmovement] at hadd
    exact h.balance.of_add (hle.trans hm) hadd

/-- Quanta that are whole in a unit are counted in it. -/
theorem counted_of_quanta {unit : Unit} {i : ℤ} (fits : n < 10 ^ precision)
    (hi : quanta n = .finite (i / 10 ^ unit.places)) :
    counted (.finite false n (-quantumPlaces)) unit = .ok true := by
  have hrat : Decimal.rat false n (-quantumPlaces) = i / 10 ^ unit.places := by
    rw [quanta, Value.finite.injEq] at hi
    rw [rat_places, ← hi]
    rfl
  have hscaled : (i : ℚ) = n / 10 ^ quantumPlaces * 10 ^ unit.places := by
    rw [quanta, Value.finite.injEq] at hi
    field_simp at hi ⊢
    push_cast at hi
    linarith
  have hnonneg : 0 ≤ i := by
    have h : (0 : ℚ) ≤ i := by
      rw [hscaled]
      positivity
    exact_mod_cast h
  have hle : i ≤ n := by
    have hpow : (10 : ℚ) ^ unit.places ≤ 10 ^ quantumPlaces :=
      pow_le_pow_right₀ (by norm_num) unit.places_le
    have h : (i : ℚ) ≤ n := by
      rw [hscaled, div_mul_eq_mul_div, div_le_iff₀ (by positivity)]
      exact mul_le_mul_of_nonneg_left hpow (by positivity)
    exact_mod_cast h
  exact counted_whole hrat (by omega) (by simpa using hnonneg)

/-- A line that moves money is posted where its scope has room for it and the chain takes it. -/
theorem Chain.Serves.posts {line : LedgerLine} {txn : UUID} {bound : ℕ}
    (h : c.Serves line.scopeId bound) (fits : bound + n < 10 ^ precision)
    (checked : checkLine line = .ok (.finite false n (-quantumPlaces))) (pos : 0 < n)
    (moves : line.entryType.isZeroValue = false)
    (whole : ∃ i : ℤ, quanta n = .finite (i / 10 ^ c.unit.places))
    (takes : ∀ e : LedgerEntry, e.Records line → e.transactionId = txn → e.worth = quanta n →
      c.Takes e) : line.Posts c txn (.finite false n (-quantumPlaces)) := by
  have hworth : (Decimal.finite false n (-quantumPlaces)).worth = quanta n := worth_quanta n
  have hamount {e : LedgerEntry} (he : e.Records line) :
      e.amount = .finite false n (-quantumPlaces) :=
    (Except.ok.inj (checked.symm.trans he.amount)).symm
  refine ⟨checked, fixed_quanta (by omega), h.known, ?_, fun e he htxn hw =>
    takes e he htxn (hw.trans hworth), fun e he => ?_⟩
  · -- all entries that record the line move its amount the same way
    obtain ⟨k, hk, hle⟩ : ∃ k : ℤ, (∀ e : LedgerEntry, e.Records line →
        e.signedAmount (quanta n) = quanta k) ∧ k.natAbs ≤ n := by
      cases hdir : line.direction with
      | credit => exact ⟨n, fun e he => by
          rw [LedgerEntry.signedAmount, he.direction, hdir], by omega⟩
      | debit => exact ⟨-n, fun e he => by
          rw [LedgerEntry.signedAmount, he.direction, hdir, ← neg_quanta], by omega⟩
      | none => exact ⟨0, fun e he => by
          rw [LedgerEntry.signedAmount, he.direction, hdir, quanta_zero], by omega⟩
    obtain ⟨m, hadd, hm, -⟩ := h.balance.add hle fits
    refine ⟨m, hm, fun e he => ?_⟩
    rw [hworth, hk e he, hadd]
  · have hvalue : e.worth = quanta n := by
      rw [← hworth, LedgerEntry.worth, hamount he]
      rfl
    obtain ⟨i, hi⟩ := whole
    have hpos : (0 : Value) < quanta n := by
      rw [quanta, Value.zero_def, Value.finite_lt_finite]
      have hn : (0 : ℚ) < n := by exact_mod_cast pos
      push_cast
      positivity
    refine ⟨?_, ?_⟩
    · rw [hvalue, hamount he, Decimal.value?, rat_places]
      rfl
    · rw [he.kind, moves, if_neg Bool.false_ne_true, hvalue, hamount he]
      exact ⟨hpos, counted_of_quanta (by omega) hi⟩

/-! ### Holds that are open -/

/-- A hold of so many quanta that is open on a chain, with room for its settlement in every sum it
is added to. -/
structure Chain.Holding (c : Chain) (a : Authorization) (n : ℕ) : Prop where
  amount : a.amount = .finite false n (-quantumPlaces)
  pos : 0 < n
  small : n ≤ 10 ^ 20
  opened : c.holds.get? a.entry.entryId = some a.entry
  placed : a.entry.amount = a.amount
  scope : a.entry.scopeId = a.scopeId
  whole : ∃ i : ℤ, quanta n = .finite (i / 10 ^ c.unit.places)
  serves : c.Serves a.scopeId (10 ^ 48)
  spentBy : Within (c.spentBy a.scopeId) (10 ^ 48)
  spent : Within c.core.totals.spent (10 ^ 48)
  holdsOpen : Within c.core.totals.holdsOpen (10 ^ 48)

/-- A chain whose transaction has released a hold, with room for what is spent for it. -/
structure Chain.Released (c : Chain) (a : Authorization) (txn : UUID) : Prop where
  settles : a.entry.entryId ∈ (c.frame.begin txn).settleable
  serves : c.Serves a.scopeId (10 ^ 49)
  spentBy : Within (c.spentBy a.scopeId) (10 ^ 48)
  spent : Within c.core.totals.spent (10 ^ 48)

namespace Chain.Holding

/-- The release of a hold that is open is posted. -/
theorem voiding_posts (h : c.Holding a n) {memo : Text} (txn : UUID)
    (hmemo : checkText memo .memo maxMemoBytes false = none) :
    (Op.voiding a memo).Posts c txn (.finite false n (-quantumPlaces)) := by
  have hsmall := h.small
  have fits : 10 ^ 48 + n < 10 ^ precision := by
    norm_num [precision]
    omega
  have checked : checkLine (Op.voiding a memo) = .ok (.finite false n (-quantumPlaces)) :=
    checkLine_amount (Op.voiding a memo) (by simp [Op.voiding, Op.line,
      EntryType.legalDirections]) rfl h.amount h.pos h.small rfl (h.serves.texts hmemo)
  refine Serves.posts h.serves fits checked h.pos rfl h.whole fun e he _ hworth =>
    .release a.entry.entryId a.entry he.kind he.direction he.ref h.opened
      (h.scope.trans he.scope.symm) ?_ ?_
  · rw [h.placed, h.amount, hworth, Decimal.value?, rat_places]
    rfl
  · obtain ⟨m, hadd, -⟩ := h.holdsOpen.add (k := -n) (j := n) (by omega) fits
    exact ⟨_, by rw [hworth, subtract, neg_quanta]; exact hadd⟩

/-- A chain that has accepted the release of a hold has released it. -/
theorem released (h : c.Holding a n) {memo : Text} {txn : UUID} (he : e.Records (Op.voiding a memo))
    (htxn : e.transactionId = txn) (ha : Applied true false c e c') : c'.Released a txn := by
  have hworth : e.worth = quanta n := by
    rw [he.worth rfl]
    exact (congrArg Decimal.worth h.amount).trans (worth_quanta n)
  have hkind : e.entryType = .holdVoid := he.kind
  have hscope : e.scopeId = a.scopeId := he.scope
  have hsmall := h.small
  refine ⟨?_, ?_, ?_, ?_⟩
  · have hframe : c'.frame.begin txn = c'.frame := by
      rw [Frame.begin, if_pos (htxn ▸ ha.txn)]
    rw [hframe]
    cases ha.holds with
    | release hold ref _ _ named _ _ _ _ _ settle =>
      obtain rfl : a.entry.entryId = ref := Option.some.inj (he.ref.symm.trans named)
      rw [settle]
      exact List.mem_cons_self
    | place k | spend k | reverse _ _ _ _ k => simp [hkind] at k
    | keep k => exact absurd hkind k.2.1
    | releaseUnnamed _ _ _ version =>
      exact absurd ((ha.oldVersion version).1.symm.trans he.ref) (by simp [Op.voiding, Op.line])
  · refine (h.serves.applied ha hscope hworth (j := n) (by simp)).mono ?_
    norm_num
    omega
  · cases ha.flows with
    | spend _ k | reversal _ k => simp [hkind] at k
    | keep _ spent =>
      rw [Chain.spentBy, spent]
      exact h.spentBy
  · have hspent := ha.totals.spent
    rw [if_neg (by rw [hkind]; decide)] at hspent
    rw [hspent]
    exact h.spent

end Chain.Holding

namespace Chain.Released

variable {txn : UUID} {settled : Decimal} {k : ℕ}

/-- A spend for a hold that was released is posted. -/
theorem spend_posts (h : c.Released a txn) {memo : Text}
    (hsettled : settled = .finite false k (-quantumPlaces)) (pos : 0 < k) (small : k ≤ 10 ^ 20)
    (whole : ∃ i : ℤ, quanta k = .finite (i / 10 ^ c.unit.places))
    (hmemo : checkText memo .memo maxMemoBytes false = none) :
    (Op.line .spend .debit a.scopeId settled none memo (some a.entry.entryId)).Posts c txn
      (.finite false k (-quantumPlaces)) := by
  have fits : 10 ^ 49 + k < 10 ^ precision := by
    norm_num [precision]
    omega
  have room : 10 ^ 48 + k < 10 ^ precision := by
    norm_num [precision]
    omega
  refine Serves.posts h.serves fits (checkLine_amount _ (by simp [Op.line,
    EntryType.legalDirections]) rfl hsettled pos small rfl (h.serves.texts hmemo)) pos rfl whole
    fun e he htxn hworth => .spend a.entry.entryId he.kind he.direction he.ref ?_ ?_ ?_
  · rw [htxn]
    exact h.settles
  · obtain ⟨m, hadd, -⟩ := h.spentBy.add (k := k) (j := k) (by simp) room
    exact ⟨_, by rw [hworth, he.scope]; exact hadd⟩
  · obtain ⟨m, hadd, -⟩ := h.spent.add (k := k) (j := k) (by simp) room
    exact ⟨_, by rw [hworth]; exact hadd⟩

end Chain.Released

/-- A trip of a scope that is served is posted. -/
theorem Chain.Serves.trip_posts {scope reason : Text} {bound : ℕ} (h : c.Serves scope bound)
    (fits : bound < 10 ^ precision) (txn : UUID)
    (hreason : checkText reason .memo maxMemoBytes false = none) :
    (Staging.event .circuitTripped scope reason).Posts c txn (Decimal.ofInt 0) := by
  have checked := checkLine_event .circuitTripped scope (by decide) rfl
    (h.texts hreason)
  have hamount {e : LedgerEntry} (he : e.Records (Staging.event .circuitTripped scope reason)) :
      e.amount = Decimal.ofInt 0 := (Except.ok.inj (checked.symm.trans he.amount)).symm
  have hzero : (Decimal.ofInt 0).worth = 0 := by rw [Decimal.worth, value?_zero, Option.getD_some]
  obtain ⟨m, hm, hbound⟩ := h.balance
  refine ⟨checked, ⟨fixedText false 0, by decide +kernel⟩, h.known, ⟨m, by omega, fun e he => ?_⟩,
    fun e he _ _ => .trip he.kind he.direction he.ref (he.scope.symm ▸ h.named), fun e he => ?_⟩
  · have hadd := add_quanta (m := m) (n := 0) (by omega)
    rw [quanta_zero, add_zero] at hadd
    rw [LedgerEntry.signedAmount, he.direction]
    exact hm ▸ hadd
  · have hworth : e.worth = 0 := by
      rw [← hzero, LedgerEntry.worth, hamount he]
      rfl
    rw [LedgerEntry.WellPaid, hworth, hamount he, he.kind]
    exact ⟨value?_zero, rfl⟩

/-! ### What is posted of a hold that is open -/

theorem LedgerLine.Posts.postsAll {line : LedgerLine} {txn : UUID} {amount : Decimal}
    (h : line.Posts c txn amount) : c.PostsAll txn [line] :=
  ⟨amount, h, fun _ _ _ _ _ => trivial⟩

namespace Staging

variable {p p' : Pending} {es : List LedgerEntry}

theorem run_post₁ {line : LedgerLine} (h : p.post w [line] = .ok (es, p')) :
    ∃ e, (post₁ line).run (stage w) p = (.ok e, p') := by
  obtain ⟨e, rfl⟩ := List.length_eq_one_iff.mp (Pending.post_ok h).length
  refine ⟨e, ?_⟩
  rw [post₁, Program.instr_bind, Program.run_perform_ok (t := p') (r := [e])]
  · rfl
  · simp only [stage, h]

theorem run_post₂ {line other : LedgerLine} (h : p.post w [line, other] = .ok (es, p')) :
    ∃ e e', es = [e, e'] ∧ (post₂ line other).run (stage w) p = (.ok (e, e'), p') := by
  obtain ⟨e, e', rfl⟩ := List.length_eq_two.mp (Pending.post_ok h).length
  refine ⟨e, e', rfl, ?_⟩
  rw [post₂, Program.instr_bind, Program.run_perform_ok (t := p') (r := [e, e'])]
  · rfl
  · simp only [stage, h]

end Staging

/-- The reason of a trip for a realized overdraft can be written. -/
theorem checkText_overrunReason {s : Bool} {k : ℕ} {balance : Value} (hk : k ≤ 10 ^ 20)
    (amount : a.amount = .finite false n (-quantumPlaces)) (hn : n ≤ 10 ^ 20)
    (hbalance : Within balance (10 ^ 49 + 10 ^ 20)) :
    checkText (Op.overrunReason (.finite s k (-quantumPlaces)) a balance) .memo maxMemoBytes
      false = none := by
  obtain ⟨m, rfl, hm⟩ := hbalance
  have short {s : Bool} {m : ℕ} (h : m ≤ 10 ^ 49 + 10 ^ 20) :
      (decimalText (.finite s m (-quantumPlaces))).length ≤ 100 :=
    length_decimalText_le (by norm_num [precision]; omega)
  have htext : valueText (-quanta m) = decimalText (.finite (decide (-m < 0)) m.natAbs
      (-quantumPlaces)) := by
    rw [valueText, neg_quanta, balanceDatum_quanta, Int.natAbs_neg]
  rw [Op.overrunReason, htext, amount]
  have hsettled := short (s := s) (m := k) (by omega)
  have hheld := short (s := false) (m := n) (by omega)
  have hoverdrawn := short (s := decide (-m < 0)) hm
  refine checkText_memo ?_ ?_
  · simp only [List.all_append, all_written_decimalText, Bool.and_true]
    decide
  · simp only [List.length_append]
    have htexts : (txt "settled cost ").length ≤ 100 ∧
        (txt " overran authorization ").length ≤ 100 ∧
        (txt "; overdrawn by ").length ≤ 100 := by decide
    simp only [maxMemoBytes]
    omega

namespace Pending.On

variable {s : ChainState} {refunds : Option (UUID → ℕ → Except Error Value)}
  {find : UUID → Option LedgerEntry} {p : Pending} {memo : Text}

/-- The release of a hold that is open is posted. -/
theorem release (h : p.On s refunds find c) (hold : c.Holding a n)
    (hmemo : checkText memo .memo maxMemoBytes false = none) :
    ∃ e p', (Staging.post₁ (Op.voiding a memo)).run (stage w) p = (.ok e, p') := by
  obtain ⟨es, p', -, hpost, -⟩ := h.post (w := w) (List.cons_ne_nil _ _)
    (LedgerLine.Posts.postsAll (hold.voiding_posts _ hmemo))
  obtain ⟨e, hrun⟩ := Staging.run_post₁ hpost
  exact ⟨e, p', hrun⟩

/-- A trip of a scope that is served is posted, unless it is latched. -/
theorem trip {scope reason : Text} {bound : ℕ} (h : p.On s refunds find c)
    (serves : c.Serves scope bound) (fits : bound < 10 ^ precision)
    (hreason : checkText reason .memo maxMemoBytes false = none) :
    ∃ r p', (Staging.trip scope reason).run (stage w) p = (.ok r, p') := by
  rw [Staging.trip, Program.instr_bind, Program.run_perform_ok (t := p) (r := p.view) rfl]
  split_ifs
  · exact ⟨_, _, rfl⟩
  · obtain ⟨es, p', -, hpost, -⟩ := h.post (w := w) (List.cons_ne_nil _ _)
      (LedgerLine.Posts.postsAll (serves.trip_posts fits _ hreason))
    obtain ⟨e, hrun⟩ := Staging.run_post₁ hpost
    refine ⟨some e, p', ?_⟩
    rw [Program.run_bind, Staging.control, hrun]
    rfl

/-- The settlement of a hold that is open is posted. -/
theorem settlement {k : ℕ} (h : p.On s refunds find c) (hold : c.Holding a n) (pos : 0 < k)
    (small : k ≤ 10 ^ 20) (whole : ∃ i : ℤ, quanta k = .finite (i / 10 ^ c.unit.places))
    (hmemo : checkText memo .memo maxMemoBytes false = none) (trips : Bool) :
    ∃ e p', (Op.settlement trips a (.finite false k (-quantumPlaces)) memo).run (stage w) p =
      (.ok e, p') := by
  have hcaptured : checkText (txt "authorization captured") .memo maxMemoBytes false = none := by
    decide
  have hnote : checkText (orElse memo (txt "settled call cost")) .memo maxMemoBytes false =
      none := by
    unfold orElse
    split_ifs
    · decide
    · exact hmemo
  have hposts : c.PostsAll (w.uuid p.draws) [Op.voiding a (txt "authorization captured"),
      Op.line .spend .debit a.scopeId (.finite false k (-quantumPlaces)) none
        (orElse memo (txt "settled call cost")) (some a.entry.entryId)] :=
    ⟨_, hold.voiding_posts _ hcaptured, fun e c' he htxn ha => LedgerLine.Posts.postsAll
      ((hold.released he htxn ha).spend_posts rfl pos small (by rwa [ha.unit]) hnote)⟩
  obtain ⟨es, p₁, c₁, hpost, hrun, hon⟩ := h.post (List.cons_ne_nil _ _) hposts
  have posted := Pending.post_ok hpost
  obtain ⟨release, spend, rfl, hpair⟩ := Staging.run_post₂ hpost
  -- the chain after the pair still serves the scope, whose balance is the spend's
  obtain ⟨hrelease, hspends⟩ := List.forall₂_cons.mp posted.records
  have hspend := (List.forall₂_cons.mp hspends).1
  obtain ⟨c₂, happly, hrest⟩ := runAll_cons_eq_ok.mp hrun
  obtain ⟨c₃, happly', hnil⟩ := runAll_cons_eq_ok.mp hrest
  obtain rfl : c₃ = c₁ := Except.ok.inj hnil
  have ha := applied_of_apply happly
  have ha' := applied_of_apply happly'
  have serves : c₃.Serves a.scopeId (10 ^ 49 + 10 ^ 20) :=
    (hold.released hrelease (posted.txn _ List.mem_cons_self) ha).serves.applied ha' hspend.scope
      (m := k) ((hspend.worth rfl).trans (worth_quanta k)) (by simpa using small)
  have hbalance : Within spend.balanceAfter.worth (10 ^ 49 + 10 ^ 20) := by
    rw [← ha'.balance_scope, hspend.scope]
    exact serves.balance
  have fits : 10 ^ 49 + 10 ^ 20 < 10 ^ precision := by norm_num [precision]
  have serves' : Chain.Serves { c₃ with frame := {} } a.scopeId (10 ^ 49 + 10 ^ 20) :=
    { serves with }
  rw [Op.settlement, Program.run_bind, hpair, Program.proceed_ok]
  dsimp only
  split_ifs
  · obtain ⟨r, p', htrip⟩ := hon.trip (w := w) serves' fits
      (checkText_overrunReason (s := false) small hold.amount hold.small hbalance)
    refine ⟨spend, p', ?_⟩
    rw [Program.run_bind, htrip]
    rfl
  · rw [Staging.exhausted, bind_assoc, Program.instr_bind,
      Program.run_perform_ok (t := p₁) (r := p₁.view) rfl, pure_bind]
    split_ifs
    · have hreason : checkText (txt "spend envelope exhausted") .memo maxMemoBytes false = none := by
        decide
      obtain ⟨r, p', htrip⟩ := hon.trip (w := w) serves' fits hreason
      refine ⟨spend, p', ?_⟩
      rw [Program.run_bind, htrip]
      rfl
    · exact ⟨spend, p₁, rfl⟩

end Pending.On

/-- A cost that is not nothing is an amount of eight places, whole in its unit. -/
theorem cost_quanta {unit : Unit} {d x : Decimal} (h : cost (.number (some d)) unit = .ok x)
    (pos : 0 < x.worth) : ∃ k : ℕ, x = .finite false k (-quantumPlaces) ∧ 0 < k ∧ k ≤ 10 ^ 20 ∧
      ∃ i : ℤ, quanta k = .finite (i / 10 ^ unit.places) := by
  obtain ⟨i, hvalue, hle⟩ := cost_le h
  obtain ⟨s, k, rfl⟩ := coerce_ok h
  have hworth := worth_finite hvalue
  rw [worth_quanta] at hworth pos
  rw [quanta, Value.zero_lt_finite, div_pos_iff_of_pos_right (by positivity), Int.cast_pos] at pos
  cases s with
  | true => simp only [if_true] at pos; omega
  | false =>
    simp only [Bool.false_eq_true, if_false, Nat.cast_pos] at pos hworth
    refine ⟨k, rfl, pos, ?_, i, hworth⟩
    rw [quanta, Value.finite.injEq] at hworth
    rw [← hworth, div_le_iff₀ (by positivity), maxAmount] at hle
    have hk : (k : ℚ) ≤ ((10 ^ 20 : ℕ) : ℚ) := by
      push_cast at hle ⊢
      refine hle.trans ?_
      norm_num [quantumPlaces]
    exact_mod_cast hk

/-! ### Holds that are open with a governor -/

/-- Whether a sum has room: it is far below those whose digits are not kept. -/
def Roomy (v : Value) : Prop := ∃ q : ℚ, v = .finite q ∧ |q| ≤ 10 ^ 40

theorem Roomy.within {v : Value} (h : Roomy v) (hv : ∃ m, v = quanta m) :
    Within v (10 ^ 48) := by
  obtain ⟨m, rfl⟩ := hv
  obtain ⟨q, hq, hle⟩ := h
  refine ⟨m, rfl, ?_⟩
  rw [quanta, Value.finite.injEq] at hq
  rw [← hq, abs_div, abs_of_pos (by positivity : (0 : ℚ) < 10 ^ quantumPlaces),
    div_le_iff₀ (by positivity)] at hle
  have habs : |(m : ℚ)| = (m.natAbs : ℚ) := by rw [Nat.cast_natAbs, Int.cast_abs]
  rw [habs] at hle
  have hsmall : (m.natAbs : ℚ) ≤ ((10 ^ 48 : ℕ) : ℚ) := hle.trans (by norm_num [quantumPlaces])
  exact_mod_cast hsmall

/-- A hold that is open with a governor whose ledger is what its entries imply, and that has room
to settle it. -/
structure Governor.Open (w : World) (g : Governor) (a : Authorization) : Prop where
  sound : ∃ unit c, g.Sound w unit c
  opened : g.ledger.openAuths.get? a.authorizationId = some a
  named : a.scopeId ≠ []
  amount : ∃ n ≤ 10 ^ 20, a.amount = .finite false n (-quantumPlaces)
  balance : Roomy (g.ledger.state.balance a.scopeId)
  spentBy : Roomy (g.ledger.state.spentBy a.scopeId)
  spent : Roomy g.ledger.state.totals.spent
  holdsOpen : Roomy g.ledger.state.totals.holdsOpen

/-- A unit of work of a governor a hold is open with begins on a chain it is open on. -/
theorem Governor.Open.holding {g : Governor} (h : g.Open w a) :
    ∃ (c : Chain) (n : ℕ), c.unit = g.ledger.state.unit ∧
      g.begin.On g.ledger.state g.refundLookup g.ledger.resolve c ∧ c.Holding a n := by
  obtain ⟨unit, c, hsound⟩ := h.sound
  obtain ⟨n, hsmall, hamount⟩ := h.amount
  have hplain : c.Plain := run_plain hsound.run hsound.drawn.versions
  -- what is authorized is a hold of the chain
  have hopened := h.opened
  rw [hsound.auths, Dict.get?_mapValues, Option.map_eq_some_iff, hsound.holds_eq] at hopened
  obtain ⟨hold, hget, rfl⟩ := hopened
  obtain ⟨-, -, hid⟩ := run_holds_known hsound.run _ _ hget
  have hvouched := hplain.held _ _ hget
  have hentry : hold.amount = .finite false n (-quantumPlaces) := hamount
  have hworth : hold.worth = quanta n := by
    rw [LedgerEntry.worth, hentry, Decimal.value?, rat_places]
    rfl
  have hpos : 0 < n := by
    have hlt := hvouched.pos
    rw [hworth, quanta, Value.zero_lt_finite, lt_div_iff₀ (by positivity), zero_mul] at hlt
    exact_mod_cast hlt
  have hunit : c.unit = g.ledger.state.unit := 
    (Chain.run_unit hsound.run).trans hsound.unit_eq.symm
  have hcore : g.ledger.state.toCore = c.core := hsound.stands.alike.core
  have hspent : g.ledger.state.spentBy hold.scopeId = c.spentBy hold.scopeId :=
    congrArg (Option.getD · 0) (hsound.stands.alike.spent hold.scopeId)
  refine ⟨{ c with frame := {} }, n, hunit, ⟨hsound.begin.reads, rfl, hplain.between⟩, ?_⟩
  have holdsOpen := h.holdsOpen
  have spent := h.spent
  rw [hcore] at holdsOpen spent
  exact
    { amount := hamount
      pos := hpos
      small := hsmall
      opened := hid.symm ▸ hget
      placed := rfl
      scope := rfl
      whole := by
        by_cases hplaces : c.unit.places = 8
        · exact ⟨n, by rw [quanta, show Unit.places _ = 8 from hplaces]; rfl⟩
        · obtain ⟨i, hi⟩ := counted_ok hvouched.counted hplaces (q := n / 10 ^ quantumPlaces)
            (by rw [hentry, Decimal.value?, rat_places]; rfl)
          exact ⟨i, congrArg Value.finite hi⟩
      serves := ⟨hvouched.known, hvouched.text, h.named,
        (hsound.balance_eq _ ▸ h.balance).within (hplain.balance _)⟩
      spentBy := (hspent ▸ h.spentBy).within (hplain.spentBy _)
      spent := spent.within hplain.spent
      holdsOpen := holdsOpen.within hplain.holdsOpen }

end AgentGov
