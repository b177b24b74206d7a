import AgentGov.Payloads
import AgentGov.Works
import AgentGov.Foundation.Rounding

/-!
# Lines that are accepted

The rules accept the entry of a line for every reason they could refuse it for being absent. In a
chain of the newest format every sum is a whole number of quanta, so that nothing is rounded while
the digits fit, and what a line needs to be built and accepted is what it says of the chain before
it (`src/src/agentgov/core.py`, lines 314–394, 1427–1903 and 2578–2716).

## Main definitions

* `AgentGov.quanta`: a whole number of quanta, as a value.
* `AgentGov.Chain.Plain`: what holds of every chain of the newest format.
* `AgentGov.Chain.Vouches`: what holds of an entry that moves money on it.
* `AgentGov.Chain.Takes`: whether a chain takes a release, a settlement or a trip.

## Main results

* `AgentGov.run_plain`: entries of the newest format keep a chain plain.
* `AgentGov.Chain.Takes.accepted`: an entry a chain takes is accepted.
* `AgentGov.Built.line_accepted`: a line a chain takes is built, and its entry accepted.
-/

open Foundation

namespace AgentGov

/-! ### Whole numbers of quanta -/

/-- A whole number of quanta, as a value. -/
def quanta (n : ℤ) : Value := .finite (n / 10 ^ quantumPlaces)

@[simp] theorem quanta_zero : quanta 0 = 0 := by
  simp [quanta, Value.zero_def]

theorem neg_quanta (n : ℤ) : -quanta n = quanta (-n) := by
  rw [quanta, quanta, Value.neg_finite]
  push_cast
  rw [neg_div]

/-- A sum of whole quanta whose digits fit is given. -/
theorem add_quanta {m n : ℤ} (h : (m + n).natAbs < 10 ^ precision) :
    add (quanta m) (quanta n) = .ok (quanta (m + n)) := by
  have hsum : (m / 10 ^ quantumPlaces + n / 10 ^ quantumPlaces : ℚ) =
      ((m + n : ℤ) : ℚ) / 10 ^ quantumPlaces := by
    push_cast
    ring
  have hrep : arithmetic.Representable (((m + n : ℤ) : ℚ) / 10 ^ quantumPlaces) :=
    DecimalContext.representable_places (by simp [DecimalContext.etiny, arithmetic, precision,
      quantumPlaces]) (by simp [arithmetic, precision, quantumPlaces]) h
  simp only [add, DecimalContext.add, quanta, Value.plus_finite, hsum, if_pos hrep]

/-- A sum of whole quanta is whole quanta. -/
theorem quanta_of_add {a b r : Value} {m n : ℤ} (h : add a b = .ok r) (ha : a = quanta m)
    (hb : b = quanta n) : r = quanta (m + n) := by
  have hsum := add_ok h
  rw [ha, hb, quanta, quanta, Value.plus_finite, Option.some.injEq] at hsum
  rw [← hsum, quanta]
  push_cast
  rw [add_div]

/-- The datum of a balance of whole quanta stands for it. -/
theorem balanceDatum_quanta (n : ℤ) :
    balanceDatum (quanta n) = .finite (decide (n < 0)) n.natAbs (-quantumPlaces) := by
  have h10 : (0 : ℚ) < 10 ^ quantumPlaces := by positivity
  have hneg : ((n : ℚ) / 10 ^ quantumPlaces < 0) ↔ n < 0 := by
    rw [div_lt_iff₀ h10, zero_mul]
    exact_mod_cast Iff.rfl
  rw [quanta, balanceDatum, div_mul_cancel₀ _ h10.ne']
  congr 1
  exact decide_eq_decide.mpr hneg

theorem rat_signed (n : ℤ) :
    Decimal.rat (decide (n < 0)) n.natAbs (-quantumPlaces) = n / 10 ^ quantumPlaces := by
  have hsigned : (if decide (n < 0) = true then -(n.natAbs : ℤ) else (n.natAbs : ℤ)) = n := by
    rcases lt_or_ge n 0 with h | h
    · rw [if_pos (decide_eq_true h)]
      omega
    · rw [if_neg (by simpa using h)]
      omega
  rw [rat_places, hsigned]

theorem value?_balanceDatum (n : ℤ) : (balanceDatum (quanta n)).value? = some (quanta n) := by
  rw [balanceDatum_quanta, Decimal.value?, rat_signed, quanta]

/-- A datum of eight places whose digits fit is written as it is. -/
theorem fixed_quanta {s : Bool} {n : ℕ} (h : n < 10 ^ precision) :
    ∃ t, fixed (.finite s n (-quantumPlaces)) = .ok t := by
  set m : ℤ := if s then -(n : ℤ) else n with hm
  have hrat : Decimal.rat s n (-quantumPlaces) = m / 10 ^ quantumPlaces := rat_places s n _
  have habs : m.natAbs = n := by
    rw [hm]
    split_ifs <;> omega
  have hround : Rounding.halfEven.round (Decimal.rat s n (-quantumPlaces) * 10 ^ quantumPlaces) =
      m := by
    rw [hrat, div_mul_cancel₀ _ (by positivity), Rounding.round_intCast]
  have hquantized : Decimal.quantize precision quantumPlaces .halfEven
      (.finite s n (-quantumPlaces)) = some (.finite s n (-quantumPlaces)) := by
    simp only [Decimal.quantize, hround, habs, if_pos h]
  refine ⟨if n = 0 then fixedText false 0 else fixedText s n, ?_⟩
  simp only [fixed, hquantized, ne_eq, not_true_eq_false, if_false]

/-- A whole number of a unit's quanta is counted in it. -/
theorem counted_whole {unit : Unit} {s : Bool} {c : ℕ} {e : ℤ} {n : ℤ}
    (hn : Decimal.rat s c e = n / 10 ^ unit.places) (hfits : n.natAbs < 10 ^ precision)
    (hsign : if s then n ≤ 0 else 0 ≤ n) : counted (.finite s c e) unit = .ok true := by
  unfold counted
  split_ifs with hplaces
  · rfl
  · have hround : Rounding.halfEven.round (Decimal.rat s c e * 10 ^ unit.places) = n := by
      rw [hn, div_mul_cancel₀ _ (by positivity), Rounding.round_intCast]
    have hquantized : quantizeTo unit.places .halfEven (.finite s c e) =
        .ok (.finite s n.natAbs (-unit.places)) := by
      simp only [quantizeTo, quantizeUnder, arithmetic_prec, Decimal.quantize, hround, if_pos hfits]
    have hsame : (Decimal.finite s n.natAbs (-unit.places)).value? =
        (Decimal.finite s c e).value? := by
      have hsigned : (if s = true then -(n.natAbs : ℤ) else (n.natAbs : ℤ)) = n := by
        cases s <;> simp only [Bool.false_eq_true, if_false, if_true] at hsign ⊢ <;> omega
      rw [Decimal.value?, Decimal.value?, rat_places, hsigned, hn]
    rw [hquantized]
    simp only [ok_bind, Decimal.eq?, hsame]
    simp [Decimal.value?]

/-! ### Entries that can be hashed -/

/-- What holds of every ASCII character, and of every character of the strings of an object's
fields and of its keys, holds of the text of the rest of it. -/
theorem all_dumpFields {p : CodePoint → Bool} (hascii : ∀ c, Text.isAscii c = true → p c = true)
    {q : Text → Text} {fs : List (Text × Json)}
    (h : ∀ f ∈ fs, (q f.1).all p = true ∧ (Json.dump q f.2).all p = true) :
    (Json.dumpFields q fs).all p = true := by
  have mark {t : Text} (ht : t.all Text.isAscii = true) : t.all p = true :=
    List.all_eq_true.mpr fun c hc => hascii c (List.all_eq_true.mp ht c hc)
  have hcomma := mark (t := Text.ofString ",") (by decide)
  have hcolon := mark (t := Text.ofString ":") (by decide)
  have hclose := mark (t := Text.ofString "\x7d") (by decide)
  induction fs with
  | nil => rwa [Json.dumpFields]
  | cons f fs ih =>
    obtain ⟨hkey, hvalue⟩ := h f List.mem_cons_self
    simp only [Json.dumpFields, List.all_append, hkey, hvalue, hcomma, hcolon,
      ih fun g hg => h g (List.mem_cons_of_mem f hg), Bool.and_self]

/-- Whether a code point can be encoded. -/
def encodable (c : CodePoint) : Bool := !Text.isSurrogate c

theorem encodable_of_isAscii {c : CodePoint} (h : Text.isAscii c = true) : encodable c = true := by
  simp only [Text.isAscii, decide_eq_true_eq] at h
  simp only [encodable, Text.isSurrogate, Bool.not_eq_true', Bool.and_eq_false_iff,
    decide_eq_false_iff_not]
  omega

theorem all_encodable {t : Text} (h : t.all Text.isAscii = true) : t.all encodable = true :=
  List.all_eq_true.mpr fun c hc => encodable_of_isAscii (List.all_eq_true.mp h c hc)

/-- A text that passes its check can be encoded. -/
theorem all_encodable_of_checkText {t : Text} {label : TextLabel} {limit : ℕ} {identifier : Bool}
    (h : checkText t label limit identifier = none) : t.all encodable = true := by
  have hutf8 := utf8_isSome_of_checkText h
  rwa [Text.utf8_isSome] at hutf8

theorem all_encodable_quote {t : Text} (h : t.all encodable = true) :
    (Json.quote t).all encodable = true := by
  rw [Json.quote, List.all_append, List.all_append, List.all_flatMap]
  have hmark : (Text.ofString "\"").all encodable = true := by decide
  have hbody : (t.all fun c => (Json.quoteChar c).all encodable) = true := by
    refine List.all_eq_true.mpr fun c hc => ?_
    have hchar := List.all_eq_true.mp h c hc
    by_cases hlarge : c.val < 128
    · exact all_encodable (List.all_eq_true.mpr fun d hd => Json.isAscii_quoteChar hlarge hd)
    · have hsame : Json.quoteChar c = [c] := by
        unfold Json.quoteChar
        repeat rw [if_neg (by omega)]
      rw [hsame, List.all_cons, hchar]
      rfl
  rw [hmark, hbody]
  rfl

/-- The texts of an AGOV3 entry that pass their checks, and numerals, can be encoded. -/
theorem all_encodable_payloadV3 {e : LedgerEntry} {amount balanceAfter : Text}
    (texts : checkTexts e.scopeId e.counterpartyId e.memo = none)
    (hprev : e.prevHash.all Text.isAscii = true) (hamount : amount.all Text.isAscii = true)
    (hbalance : balanceAfter.all Text.isAscii = true) :
    (Json.dump Json.quote (payloadV3 e amount balanceAfter)).all encodable = true := by
  obtain ⟨hscope, htexts⟩ := Option.or_eq_none_iff.mp texts
  obtain ⟨hcounterparty, hmemo⟩ := Option.or_eq_none_iff.mp htexts
  have str {t : Text} (h : t.all encodable = true) :
      (Json.dump Json.quote (.str t)).all encodable = true := by
    rw [Json.dump]
    exact all_encodable_quote h
  have opt {t : Option Text} (h : ∀ s ∈ t, s.all encodable = true) :
      (Json.dump Json.quote (Json.ofText? t)).all encodable = true := by
    cases t with
    | none =>
      rw [Json.ofText?, Json.dump]
      decide
    | some s => exact str (h s rfl)
  have key {t : Text} (h : t.all Text.isAscii = true) : (Json.quote t).all encodable = true :=
    all_encodable_quote (all_encodable h)
  have hcounter : ∀ s ∈ e.counterpartyId, s.all encodable = true := by
    intro s hs
    rw [Option.mem_def] at hs
    rw [hs] at hcounterparty
    exact all_encodable_of_checkText hcounterparty
  have href : ∀ s ∈ refText e.ref, s.all encodable = true := by
    intro s hs
    obtain ⟨u, -, rfl⟩ := Option.map_eq_some_iff.mp hs
    exact all_encodable (UUID.all_isAscii_text u)
  rw [payloadV3, Json.dump]
  have hopen : (Text.ofString "\x7b").all encodable = true := by decide
  have hcolon : (Text.ofString ":").all encodable = true := by decide
  rw [List.all_append, List.all_append, List.all_append, List.all_append, hopen, hcolon,
    key (by decide), str (all_encodable hamount), all_dumpFields fun _ => encodable_of_isAscii]
  · rfl
  · intro f hf
    simp only [List.mem_cons, List.not_mem_nil, or_false] at hf
    rcases hf with rfl | rfl | rfl | rfl | rfl | rfl | rfl | rfl | rfl | rfl | rfl | rfl | rfl
    · exact ⟨key rfl, str (all_encodable hbalance)⟩
    · exact ⟨key rfl, opt hcounter⟩
    · exact ⟨key rfl, str (all_encodable e.direction.all_isAscii_text)⟩
    · exact ⟨key rfl, str (all_encodable e.entryId.all_isAscii_text)⟩
    · exact ⟨key rfl, str (all_encodable e.entryType.all_isAscii_text)⟩
    · exact ⟨key rfl, str (by decide)⟩
    · exact ⟨key rfl, str (all_encodable_of_checkText hmemo)⟩
    · exact ⟨key rfl, str (all_encodable hprev)⟩
    · exact ⟨key rfl, opt href⟩
    · exact ⟨key rfl, str (all_encodable_of_checkText hscope)⟩
    · refine ⟨key rfl, ?_⟩
      rw [Json.dump]
      exact all_encodable (Json.all_isAscii_intText _)
    · exact ⟨key rfl, str (all_encodable e.timestamp.all_isAscii_iso)⟩
    · exact ⟨key rfl, str (all_encodable e.transactionId.all_isAscii_text)⟩

/-- An AGOV3 entry whose texts pass and whose amounts can be written has a hash. -/
theorem exists_hashEntry {e : LedgerEntry} {amount balanceAfter : Text}
    (version : e.version = auditV3)
    (texts : checkTexts e.scopeId e.counterpartyId e.memo = none)
    (hprev : e.prevHash.all Text.isAscii = true) (hamount : fixed e.amount = .ok amount)
    (hbalance : fixed e.balanceAfter = .ok balanceAfter) :
    ∃ bytes, hashEntry e = .ok (sha256Hex bytes) := by
  have hall := all_encodable_payloadV3 texts hprev (all_isAscii_of_token (all_token_fixed hamount))
    (all_isAscii_of_token (all_token_fixed hbalance))
  have hutf8 : (Json.dump Json.quote (payloadV3 e amount balanceAfter)).utf8.isSome = true := by
    rw [Text.utf8_isSome]
    exact hall
  obtain ⟨bytes, hbytes⟩ := Option.isSome_iff_exists.mp hutf8
  refine ⟨bytes, ?_⟩
  rw [hashEntry, if_pos version, hamount, ok_bind, hbalance, ok_bind]
  simp only [hbytes]

/-! ### Chains of the newest format -/

/-- What holds of an entry that was accepted by a chain of the newest format and moves money. -/
structure Chain.Vouches (c : Chain) (e : LedgerEntry) : Prop where
  known : (c.nodes.get? e.scopeId).isSome = true
  text : checkText e.scopeId .scopeId maxIdBytes true = none
  counted : counted e.amount c.unit = .ok true
  pos : 0 < e.worth
  quanta : ∃ n, e.amount.value? = some (quanta n)

/-- What holds of every chain of the newest format: nothing is left of older ones, and every sum
kept in it is a whole number of quanta. -/
structure Chain.Plain (c : Chain) : Prop where
  legacy : c.core.legacy = []
  newer : c.core.sawV1 = true → c.core.sawV2 = true
  head : c.core.head.all Text.isAscii = true
  balance : ∀ scope, ∃ n, c.balance scope = quanta n
  spentBy : ∀ scope, ∃ n, c.spentBy scope = quanta n
  spent : ∃ n, c.core.totals.spent = quanta n
  holdsOpen : ∃ n, c.core.totals.holdsOpen = quanta n
  /-- A hold that is open is of a scope that was created, and of an amount that moves money. -/
  held : ∀ id hold, c.holds.get? id = some hold → c.Vouches hold

variable {checkHash writing : Bool} {c c' : Chain} {e : LedgerEntry}

/-- Between transactions a chain is as plain as within them. -/
theorem Chain.Plain.between (h : c.Plain) : Chain.Plain { c with frame := {} } :=
  { h with held := fun id hold hh => { h.held id hold hh with } }

/-- A scope that was created stays. -/
theorem GovernanceStep.isSome_nodes (h : GovernanceStep c e c') {scope : Text}
    (hs : (c.nodes.get? scope).isSome = true) : (c'.nodes.get? scope).isSome = true := by
  have set (n : BudgetNode) (key : Text) : ((c.nodes.set key n).get? scope).isSome = true := by
    rw [Dict.get?_set]
    split_ifs
    · rfl
    · exact hs
  cases h with
  | root _ _ nodes => rw [nodes]; exact set _ _
  | raise _ _ _ _ _ _ nodes => rw [nodes]; exact set _ _
  | child parent _ _ _ _ nodes =>
    rw [nodes, Chain.nodesWithChild]
    split
    · exact set _ _
    · rw [Dict.get?_set]
      split_ifs
      · rfl
      · exact set _ _
  | release _ _ _ _ _ nodes => rwa [nodes]
  | other _ _ _ _ _ nodes => rwa [nodes]
  | scopeless _ nodes => rwa [nodes]

/-- An entry whose hash is its own records a whole number of quanta. -/
theorem Applied.worth_quanta (ha : Applied true writing c e c') (hv : e.version = auditV3) :
    ∃ n, e.worth = quanta n := by
  have hhash := ha.hash rfl
  rw [LedgerEntry.recomputeHash, hashEntry, if_pos hv] at hhash
  obtain ⟨amount, hamount, -⟩ := bind_eq_ok.mp hhash
  exact fixed_ok hamount ha.amount

theorem Applied.movement_quanta (ha : Applied true writing c e c') (hv : e.version = auditV3) :
    ∃ n, e.movement = quanta n := by
  obtain ⟨n, hworth⟩ := ha.worth_quanta hv
  unfold LedgerEntry.movement LedgerEntry.signedAmount
  cases e.direction with
  | credit => exact ⟨n, hworth⟩
  | debit => exact ⟨-n, by rw [← neg_quanta, hworth]⟩
  | none => exact ⟨0, quanta_zero.symm⟩

/-- A sum that takes the entry's amount stays a whole number of quanta. -/
theorem Applied.quanta_of_add (ha : Applied true writing c e c') (hv : e.version = auditV3)
    {a b : Value} (hadd : add a e.worth = .ok b) (hw : ∃ m, a = quanta m) : ∃ m, b = quanta m := by
  obtain ⟨n, hworth⟩ := ha.worth_quanta hv
  obtain ⟨m, hm⟩ := hw
  exact ⟨_, AgentGov.quanta_of_add hadd hm hworth⟩

theorem Applied.balance_quanta (ha : Applied true writing c e c') (h : c.Plain)
    (hv : e.version = auditV3) (scope : Text) : ∃ n, c'.balance scope = quanta n := by
  obtain ⟨after, hadd, -, hbalances⟩ := ha.balance
  obtain ⟨m, hm⟩ := ha.movement_quanta hv
  obtain ⟨k, hk⟩ := h.balance e.scopeId
  have hafter := AgentGov.quanta_of_add hadd hk hm
  rw [Chain.balance, hbalances]
  split_ifs
  · exact h.balance scope
  · rw [Dict.get?_set]
    split_ifs
    · exact ⟨_, hafter⟩
    · exact h.balance scope

theorem Applied.spentBy_quanta (ha : Applied true writing c e c') (h : c.Plain)
    (hv : e.version = auditV3) (scope : Text) : ∃ n, c'.spentBy scope = quanta n := by
  cases ha.flows with
  | spend spent _ hadd after _ =>
    rw [Chain.spentBy, after, Dict.get?_set]
    split_ifs
    · exact ha.quanta_of_add hv hadd (h.spentBy _)
    · exact h.spentBy scope
  | reversal _ _ _ _ _ same =>
    rw [Chain.spentBy, same]
    exact h.spentBy scope
  | keep _ same =>
    rw [Chain.spentBy, same]
    exact h.spentBy scope

theorem Applied.spent_quanta (ha : Applied true writing c e c') (h : c.Plain)
    (hv : e.version = auditV3) : ∃ n, c'.core.totals.spent = quanta n := by
  have hspent := ha.totals.spent
  split_ifs at hspent
  · exact ha.quanta_of_add hv hspent h.spent
  · rw [hspent]
    exact h.spent

theorem Applied.holdsOpen_quanta (ha : Applied true writing c e c') (h : c.Plain)
    (hv : e.version = auditV3) : ∃ n, c'.core.totals.holdsOpen = quanta n := by
  have hopen := ha.totals.holdsOpen
  split_ifs at hopen
  · exact ha.quanta_of_add hv hopen h.holdsOpen
  · obtain ⟨n, hworth⟩ := ha.worth_quanta hv
    obtain ⟨m, hm⟩ := h.holdsOpen
    exact ⟨_, AgentGov.quanta_of_add hopen hm (hworth ▸ neg_quanta n)⟩
  · rw [hopen]
    exact h.holdsOpen

/-- A hold that is open after an entry was open before it, or is the entry. -/
theorem Applied.vouches (ha : Applied true writing c e c') (h : c.Plain) (hv : e.version = auditV3)
    {id : UUID} {hold : LedgerEntry} (hh : c'.holds.get? id = some hold) : c'.Vouches hold := by
  have placed (hp : (c.nodes.get? e.scopeId).isSome = true)
      (hz : e.entryType.isZeroValue = false) : c'.Vouches e :=
    { known := ha.governance.isSome_nodes hp
      text := (Option.or_eq_none_iff.mp (ha.texts hv)).1
      counted := ha.unit ▸ ha.whole hz
      pos := ha.amount_pos hz
      quanta := by
        obtain ⟨n, hworth⟩ := ha.worth_quanta hv
        exact ⟨n, hworth ▸ ha.amount⟩ }
  have kept {id : UUID} {hold : LedgerEntry} (hh : c.holds.get? id = some hold) :
      c'.Vouches hold :=
    have hold := h.held id hold hh
    { hold with
      known := ha.governance.isSome_nodes hold.known
      counted := ha.unit ▸ hold.counted }
  cases ha.holds with
  | place kind _ holds =>
    rw [holds, Dict.get?_set] at hh
    split_ifs at hh
    · obtain rfl := Option.some.inj hh
      refine placed ?_ (by rw [kind]; rfl)
      cases ha.governance with
      | other n _ _ _ known => rw [known]; rfl
      | root k | raise _ _ k | child _ k | release _ _ k => simp [kind] at k
      | scopeless k => simp [kind, EntryType.isScopeless] at k
    · exact kept hh
  | release _ _ _ _ _ _ _ _ holds | releaseUnnamed _ _ _ _ _ _ _ holds =>
    rw [holds, Dict.get?_erase] at hh
    split_ifs at hh
    exact kept hh
  | spend _ _ holds | reverse _ _ _ _ _ _ _ _ _ _ _ _ holds | keep _ _ holds =>
    rw [holds] at hh
    exact kept hh

/-- An entry of the newest format keeps a chain plain. -/
theorem Applied.plain (ha : Applied true writing c e c') (h : c.Plain) (hv : e.version = auditV3) :
    c'.Plain where
  legacy := ha.legacy.trans h.legacy
  newer _ := ha.newVersion (by rw [hv]; decide)
  head := by
    rw [ha.head]
    obtain ⟨bytes, hbytes⟩ := hashEntry_ok (ha.hash rfl)
    rw [hbytes]
    exact all_isAscii_of_token (all_token_of_hex
      (List.all_eq_true.mpr fun _ => isHexDigit_of_mem_toHex))
  balance := ha.balance_quanta h hv
  spentBy := ha.spentBy_quanta h hv
  spent := ha.spent_quanta h hv
  holdsOpen := ha.holdsOpen_quanta h hv
  held _ _ hh := ha.vouches h hv hh

/-- Entries of the newest format keep a chain plain. -/
theorem run_plain {unit : Unit} {find : UUID → Option LedgerEntry} {l : List LedgerEntry}
    (h : runAll (Rules.apply true writing) (Chain.empty unit [] find) l = .ok c)
    (versions : ∀ e ∈ l, e.version = auditV3) : c.Plain := by
  have hempty : (Chain.empty unit [] find).Plain := by
    refine ⟨rfl, fun hv => (by cases hv), ?_, fun _ => ⟨0, ?_⟩, fun _ => ⟨0, ?_⟩, ⟨0, ?_⟩, ⟨0, ?_⟩,
      fun id hold hh => (by cases hh)⟩
    · change unit.genesis.all Text.isAscii = true
      unfold Unit.genesis
      split_ifs
      · decide
      · exact all_isAscii_of_token (all_token_of_hex
          (List.all_eq_true.mpr fun _ => isHexDigit_of_mem_toHex))
    all_goals exact quanta_zero.symm
  refine Chain.run_induction (motive := fun l c => (∀ e ∈ l, e.version = auditV3) → c.Plain)
    (fun _ => hempty) ?_ h versions
  intro l e c c' _ ih ha hv
  exact ha.plain (ih fun x hx => hv x (List.mem_append_left _ hx)) (hv e (by simp))

/-! ### Entries that are accepted -/

/-- Whether an entry is linked to a chain as its next, and its texts, its time and its balance are
right. -/
structure Chain.Next (c : Chain) (e : LedgerEntry) : Prop where
  sequence : e.sequence = (c.core.length + 1 : ℕ)
  prevHash : e.prevHash = c.core.head
  version : e.version = auditV3
  hash : ∃ bytes, e.entryHash = sha256Hex bytes
  texts : checkTexts e.scopeId e.counterpartyId e.memo = none
  time : ∀ last, c.core.lastTimestamp = some last → ¬e.timestamp < last
  known : (c.nodes.get? e.scopeId).isSome = true
  balance : ∃ after, add (c.balance e.scopeId) (e.signedAmount e.worth) = .ok after ∧
    e.balanceAfter.value? = some after

/-- Whether a chain takes an entry for what it does: it releases a hold that is open, settles one
that its transaction has released, or trips a breaker. -/
inductive Chain.Takes (c : Chain) (e : LedgerEntry) : Prop
  | release (ref : UUID) (hold : LedgerEntry) (kind : e.entryType = .holdVoid)
      (direction : e.direction = .credit)
      (named : e.ref = some ref)
      (opened : c.holds.get? ref = some hold)
      (scope : hold.scopeId = e.scopeId)
      (amount : hold.amount.value? = some e.worth)
      (total : ∃ v, subtract c.core.totals.holdsOpen e.worth = .ok v)
  | spend (ref : UUID) (kind : e.entryType = .spend)
      (direction : e.direction = .debit)
      (named : e.ref = some ref)
      (settles : ref ∈ (c.frame.begin e.transactionId).settleable)
      (spent : ∃ v, add (c.spentBy e.scopeId) e.worth = .ok v)
      (total : ∃ v, add c.core.totals.spent e.worth = .ok v)
  | trip (kind : e.entryType = .circuitTripped)
      (direction : e.direction = .none)
      (unnamed : e.ref = none)
      (scope : e.scopeId ≠ [])

/-- Whether an entry's amount is one that its kind of entry may have. -/
def LedgerEntry.WellPaid (e : LedgerEntry) (unit : Unit) : Prop :=
  e.amount.value? = some e.worth ∧
    if e.entryType.isZeroValue then e.worth = 0
    else 0 < e.worth ∧ counted e.amount unit = .ok true

namespace Rules

theorem equals_self {d : Decimal} {v : Value} (h : d.value? = some v) : equals d v = .ok true := by
  unfold equals
  split
  · cases h
  · rw [h, decide_eq_true rfl]

theorem checkLink_next (h : c.Next e) : checkLink c e false = .ok ⟨⟩ := by
  have hknown : e.version ∈ knownVersions := by simp [h.version, knownVersions]
  simp only [checkLink, View.core, h.sequence, h.prevHash, hknown, ne_eq, not_true_eq_false,
    if_false, Bool.false_eq_true]

theorem checkVersion_newest (h : c.Plain) (hv : e.version = auditV3) : checkVersion c e =
    .ok { c with core := { c.core with sawV3 := true, sawV2 := true } } := by
  have hold : e.version ≠ auditV1 := by
    rw [hv]
    decide
  have hsealed : ¬(c.core.sawV1 = true ∧ ¬c.core.sawV2 = true ∧ e.entryType ≠ .migrationSeal) :=
    fun hc => hc.2.1 (h.newer hc.1)
  simp only [checkVersion, View.core, View.setCore, if_neg hold, if_neg hsealed, if_pos hv]

theorem checkShape_paid (hv : e.version = auditV3)
    (texts : checkTexts e.scopeId e.counterpartyId e.memo = none)
    (time : ∀ last, c.core.lastTimestamp = some last → ¬e.timestamp < last)
    (direction : e.direction ∈ e.entryType.legalDirections)
    (hscope : e.entryType.isScopeless = false)
    (named : e.entryType.isZeroValue = true → e.scopeId ≠ [])
    (paid : e.WellPaid c.unit) : checkShape c e = .ok (c, e.worth) := by
  have hformat : checkFormat c e = .ok ⟨⟩ := by
    rw [checkFormat, if_pos hv, checkV3, texts]
    dsimp only [View.core]
    cases hlast : c.core.lastTimestamp with
    | none => rfl
    | some last => exact if_neg (time last hlast)
  obtain ⟨hvalue, hpaid⟩ := paid
  rw [checkShape, if_neg (not_not.mpr direction), hformat, ok_bind]
  split_ifs with hz
  · rw [if_pos hz] at hpaid
    have hzero : checkZeroValue c e = .ok c := by
      rw [checkZeroValue, equals_self (hvalue.trans (congrArg some hpaid)), ok_bind]
      simp only [not_true_eq_false, if_false, hscope, Bool.false_eq_true, not_false_eq_true,
        if_true, if_neg (named hz)]
    rw [hzero, ok_bind, hpaid]
  · rw [if_neg hz] at hpaid
    have hamount : checkAmount c.unit e = .ok e.worth := by
      simp only [checkAmount, hvalue, if_neg (not_le.mpr hpaid.1), hpaid.2, ok_bind, if_true]
    change (do .ok (c, ← checkAmount c.unit e)) = _
    rw [hamount, ok_bind]

/-- A transaction begins wherever the transfers before balance. -/
theorem beginTransaction_net (h : c.frame.net = 0) :
    beginTransaction c e = .ok { c with frame := c.frame.begin e.transactionId } := by
  unfold beginTransaction leaveTransaction endTransaction Frame.begin
  simp only [View.frame, View.setFrame, h, ne_eq, not_true_eq_false, if_false]
  split_ifs
  · rfl
  · rfl
  · rw [ok_bind, h]

/-- Money that is not transferred is moved to the balance an entry says. -/
theorem moveMoney_untransferred {after : Value} (hb : e.entryType.isBalanced = false)
    (hadd : add (c.balance e.scopeId) (e.signedAmount e.worth) = .ok after)
    (hafter : e.balanceAfter.value? = some after) : moveMoney c e e.worth = .ok { c with
      balances := if e.entryType.isZeroValue then c.balances else c.balances.set e.scopeId after }
    := by
  unfold moveMoney
  simp only [View.balance, hadd, ok_bind, equals_self hafter, not_true_eq_false, if_false, hb,
    Bool.false_eq_true]
  split_ifs <;> rfl

theorem checkGovernance_known (h : c.core.legacy = [])
    (known : (c.nodes.get? e.scopeId).isSome = true)
    (kind : e.entryType = .holdVoid ∨ e.entryType = .spend ∨ e.entryType = .circuitTripped) :
    ∃ c', checkGovernance c e e.worth = .ok c' ∧ c'.core.totals = c.core.totals ∧
      c'.core.frontier = c.core.frontier ∧ c'.core.length = c.core.length := by
  obtain ⟨n, hn⟩ := Option.isSome_iff_exists.mp known
  have hfold : ∃ applied, foldLegacy c e =
      .ok { c with core := { c.core with legacyApplied := applied } } := by
    unfold foldLegacy
    split_ifs with hf
    · refine ⟨true, ?_⟩
      have hvouch : vouch c e = .ok ⟨⟩ := by
        rw [vouch, if_neg (by rcases kind with k | k | k <;> simp [k])]
        exact if_neg (not_not.mpr h)
      rw [hvouch, ok_bind, applyLegacy]
      simp only [View.core, h, runAll_nil]
      rfl
    · exact ⟨c.core.legacyApplied, rfl⟩
  obtain ⟨applied, hfold⟩ := hfold
  have hnode : ∀ k : Core, View.node ({ c with core := k } : Chain) e.scopeId = some n.toNode :=
    fun k => congrArg (Option.map BudgetNode.toNode) hn
  rw [checkGovernance, hfold, ok_bind]
  rcases kind with k | k | k
  · simp only [k, require, hnode, ok_bind]
    exact ⟨_, rfl, rfl, rfl, rfl⟩
  · simp only [k, require, hnode, ok_bind]
    exact ⟨_, rfl, rfl, rfl, rfl⟩
  · simp only [k, control, hnode, Option.isNone_some, Bool.false_eq_true, if_false, if_true, ok_bind]
    exact ⟨_, rfl, rfl, rfl, rfl⟩

end Rules

namespace Chain.Takes

theorem kinds (h : c.Takes e) : e.entryType = .holdVoid ∨ e.entryType = .spend ∨
    e.entryType = .circuitTripped := by
  cases h with
  | release _ _ kind => exact Or.inl kind
  | spend _ kind => exact Or.inr (Or.inl kind)
  | trip kind => exact Or.inr (Or.inr kind)

theorem legal (h : c.Takes e) : e.direction ∈ e.entryType.legalDirections := by
  cases h with
  | release _ _ kind direction => simp [kind, direction, EntryType.legalDirections]
  | spend _ kind direction => simp [kind, direction, EntryType.legalDirections]
  | trip kind direction => simp [kind, direction, EntryType.legalDirections]

theorem named (h : c.Takes e) (hz : e.entryType.isZeroValue = true) : e.scopeId ≠ [] := by
  cases h with
  | release _ _ kind | spend _ kind =>
    rw [kind] at hz
    cases hz
  | trip _ _ _ scope => exact scope

/-- The holds of a chain that takes an entry. -/
theorem checkHolds (h : c.Takes e) (hv : e.version = auditV3) (d : Chain)
    (holds : d.holds = c.holds) (frame : d.frame = c.frame.begin e.transactionId) :
    ∃ d', Rules.checkHolds d e e.worth = .ok d' ∧ d'.spent = d.spent ∧ d'.nodes = d.nodes ∧
      d'.core = d.core := by
  have hold : e.version ≠ auditV1 := by
    rw [hv]
    decide
  cases h with
  | release ref hold' kind _ named opened scope amount =>
    have hopened : View.openHold d ref = some (e.scopeId, some e.worth) := by
      rw [show View.openHold d ref = (d.holds.get? ref).map LedgerEntry.held from rfl, holds, opened]
      simp only [Option.map_some, LedgerEntry.held, scope, amount]
    simp only [Rules.checkHolds, kind, hv, named, EntryType.isV3Referencing, if_true,
      not_true_eq_false, and_false, if_false]
    rw [if_neg (by decide), Rules.releaseNamed, named]
    simp only [hopened, ne_eq, not_true_eq_false, if_false]
    exact ⟨_, rfl, rfl, rfl, rfl⟩
  | spend ref kind _ named settles =>
    simp only [Rules.checkHolds, kind, hv, named, EntryType.isV3Referencing, if_true,
      not_true_eq_false, and_false, if_false, View.frame, frame, if_pos settles]
    exact ⟨_, rfl, rfl, rfl, rfl⟩
  | trip kind _ unnamed =>
    simp only [Rules.checkHolds, kind, unnamed, Option.isSome_none, Bool.false_eq_true, false_and,
      if_false]
    exact ⟨_, rfl, rfl, rfl, rfl⟩

/-- The lifetime spend of a chain that takes an entry. -/
theorem checkFlows (h : c.Takes e) (d : Chain) (spent : d.spent = c.spent) :
    ∃ d', Rules.checkFlows d e e.worth true = .ok d' ∧ d'.nodes = d.nodes ∧ d'.core = d.core := by
  cases h with
  | release _ _ kind | trip kind =>
    simp only [Rules.checkFlows, kind]
    exact ⟨_, rfl, rfl, rfl⟩
  | spend _ kind _ _ _ spends =>
    obtain ⟨v, hv⟩ := spends
    have hsum : add (View.spentBy d e.scopeId) e.worth = .ok v := by
      rw [show View.spentBy d e.scopeId = (d.spent.get? e.scopeId).getD 0 from rfl, spent]
      exact hv
    simp only [Rules.checkFlows, kind, hsum, ok_bind]
    exact ⟨_, rfl, rfl, rfl⟩

/-- The totals of a chain that takes an entry. -/
theorem applyTotals (h : c.Takes e) :
    ∃ t, AgentGov.applyTotals c.core.totals e.entryType e.worth = .ok t := by
  cases h with
  | release _ _ kind _ _ _ _ _ total =>
    obtain ⟨v, hv⟩ := total
    simp only [AgentGov.applyTotals, kind, hv, ok_bind]
    exact ⟨_, rfl⟩
  | spend _ kind _ _ _ _ total =>
    obtain ⟨v, hv⟩ := total
    simp only [AgentGov.applyTotals, kind, hv, ok_bind]
    exact ⟨_, rfl⟩
  | trip kind =>
    simp only [AgentGov.applyTotals, kind]
    exact ⟨_, rfl⟩

/-- An entry a chain takes as its next is accepted. -/
theorem accepted (h : c.Takes e) (plain : c.Plain) (next : c.Next e) (net : c.frame.net = 0)
    (paid : e.WellPaid c.unit) : ∃ c', Rules.apply false true c e = .ok c' := by
  have hscope : e.entryType.isScopeless = false := by rcases h.kinds with k | k | k <;> rw [k] <;> rfl
  have hbalanced : e.entryType.isBalanced = false := by
    rcases h.kinds with k | k | k <;> rw [k] <;> rfl
  obtain ⟨after, hadd, hafter⟩ := next.balance
  obtain ⟨bytes, hbytes⟩ := next.hash
  -- the rules run one after the other, each from where the one before has left the chain
  let c₁ : Chain := { c with core := { c.core with sawV3 := true, sawV2 := true } }
  have hshape : Rules.checkShape c₁ e = .ok (c₁, e.worth) :=
    Rules.checkShape_paid next.version next.texts next.time h.legal hscope h.named paid
  have hbegin : Rules.beginTransaction c₁ e =
      .ok { c₁ with frame := c.frame.begin e.transactionId } := Rules.beginTransaction_net net
  have hmoney := Rules.moveMoney_untransferred (e := e)
    (c := { c₁ with frame := c.frame.begin e.transactionId }) hbalanced hadd hafter
  obtain ⟨c₂, hholds, hspent₂, hnodes₂, hcore₂⟩ := h.checkHolds next.version
    { c₁ with
      frame := c.frame.begin e.transactionId
      balances := if e.entryType.isZeroValue then c.balances else c.balances.set e.scopeId after }
    rfl rfl
  obtain ⟨c₃, hflows, hnodes₃, hcore₃⟩ := h.checkFlows c₂ hspent₂
  obtain ⟨c₄, hgovernance, htotals₄, hfrontier₄, hlength₄⟩ :=
    Rules.checkGovernance_known (c := c₃) (e := e)
      (by rw [hcore₃, hcore₂]; exact plain.legacy)
      (by rw [hnodes₃, hnodes₂]; exact next.known) h.kinds
  obtain ⟨t, ht⟩ := h.applyTotals
  have htotals : AgentGov.applyTotals c₄.core.totals e.entryType e.worth = .ok t := by
    rw [htotals₄, hcore₃, hcore₂]
    exact ht
  have hfrontier : ∃ f, frontierAppend c₄.core.frontier c₄.core.length e.entryHash = .ok f := by
    rw [frontierAppend, hbytes, fromHex_sha256Hex]
    exact ⟨_, rfl⟩
  obtain ⟨f, hf⟩ := hfrontier
  have hadvance : ∃ c', Rules.advance c₄ e e.worth = .ok c' := by
    rw [Rules.advance]
    simp only [View.core, htotals, hf, ok_bind]
    exact ⟨_, rfl⟩
  rw [Rules.apply, Rules.checkLink_next next, ok_bind,
    Rules.checkVersion_newest plain next.version, ok_bind, hshape, ok_bind]
  dsimp only
  rw [hbegin, ok_bind, hmoney, ok_bind, hholds, ok_bind, hflows, ok_bind, hgovernance, ok_bind]
  exact hadvance

end Chain.Takes

/-! ### Lines that are built and accepted -/

theorem checkTexts_of_checkLine {line : LedgerLine} {amount : Decimal}
    (h : checkLine line = .ok amount) :
    checkTexts line.scopeId line.counterpartyId line.memo = none := by
  unfold checkLine at h
  split_ifs at h
  · obtain ⟨_, -, h⟩ := bind_eq_ok.mp h
    cases h
  · obtain ⟨_, -, h⟩ := bind_eq_ok.mp h
    split at h
    · cases h
    · assumption

/-- Whether a transaction is built as far as a chain that has accepted what was built. -/
structure Built.Reaches (view : Overlay) (now : Instant) (b : Built) (c : Chain) : Prop where
  head : b.prevHash = c.core.head
  length : b.sequence = c.core.length
  running : ∀ scope, (b.running.get? scope).getD (view.balance scope) = c.balance scope
  time : ∀ last, c.core.lastTimestamp = some last → ¬now < last

/-- What a line says of the chain it is posted on: its amount can be written, its balance too, and
an entry that records it is one the chain takes. -/
structure LedgerLine.Posts (line : LedgerLine) (c : Chain) (txn : UUID) (amount : Decimal) :
    Prop where
  checked : checkLine line = .ok amount
  written : ∃ t, fixed amount = .ok t
  known : (c.nodes.get? line.scopeId).isSome = true
  balance : ∃ m : ℤ, m.natAbs < 10 ^ precision ∧ ∀ e : LedgerEntry, e.Records line →
    add (c.balance line.scopeId) (e.signedAmount amount.worth) = .ok (quanta m)
  takes : ∀ e : LedgerEntry, e.Records line → e.transactionId = txn → e.worth = amount.worth →
    c.Takes e
  paid : ∀ e : LedgerEntry, e.Records line → e.WellPaid c.unit

/-- No line that posts what is taken is of a kind without a scope. -/
theorem LedgerLine.Posts.scoped {line : LedgerLine} {txn : UUID} {amount : Decimal}
    (posts : line.Posts c txn amount) (he : e.Records line) (ht : e.transactionId = txn)
    (hw : e.worth = amount.worth) : line.entryType.isScopeless = false := by
  rw [← he.kind]
  rcases (posts.takes e he ht hw).kinds with k | k | k <;>
    exact (congrArg EntryType.isScopeless k).trans rfl

/-- What is built with an entry a chain has accepted reaches what the chain has become. -/
theorem Built.Reaches.applied {view : Overlay} {now : Instant} {b : Built} {after : Value}
    (h : b.Reaches view now c) (ha : Applied true false c e c') (htime : e.timestamp = now)
    (hadd : add (c.balance e.scopeId) e.movement = .ok after) (entries : List LedgerEntry) :
    Built.Reaches view now
      { running := if e.entryType.isZeroValue then b.running else b.running.set e.scopeId after
        prevHash := e.entryHash
        sequence := b.sequence + 1
        entries } c' where
  head := ha.head.symm
  length := by rw [ha.length, ← h.length]
  running scope := by
    obtain ⟨after', hafter, -, hbalances⟩ := ha.balance
    obtain rfl : after = after' := Except.ok.inj (hadd.symm.trans hafter)
    rw [Chain.balance, hbalances]
    split_ifs
    · exact h.running scope
    · rw [Dict.get?_set, Dict.get?_set]
      split_ifs
      · rfl
      · exact h.running scope
  time last hlast := by
    rw [ha.lastTimestamp, Option.some.injEq, htime] at hlast
    rw [← hlast]
    exact lt_irrefl now.key

/-- A line that posts what a chain takes is built, and its entry accepted. -/
theorem Built.line_accepted {view : Overlay} {txn : UUID} {now : Instant} {b : Built}
    {q : LedgerLine × UUID} {amount : Decimal} (h : b.Reaches view now c) (plain : c.Plain)
    (net : c.frame.net = 0) (posts : q.1.Posts c txn amount) :
    ∃ b' e c', Built.line view txn now b q = .ok b' ∧ b'.entries = b.entries ++ [e] ∧
      LedgerEntry.BuiltOf txn now q e ∧ Applied true false c e c' ∧
      Rules.apply false true c e = .ok c' ∧ b'.Reaches view now c' := by
  obtain ⟨m, hm, hsum⟩ := posts.balance
  obtain ⟨t, ht⟩ := posts.written
  -- the entry before its balance and its hash are known, which records the line already
  have hrecords (balanceAfter : Decimal) (hash : Text) : LedgerEntry.Records
      { q.1.entry txn q.2 now (b.sequence + 1) b.prevHash amount balanceAfter with
        entryHash := hash } q.1 :=
    ⟨rfl, rfl, rfl, rfl, rfl, rfl, posts.checked⟩
  have hadd : add ((b.running.get? q.1.scopeId).getD (view.balance q.1.scopeId))
      ((q.1.entry txn q.2 now (b.sequence + 1) b.prevHash amount
        (Decimal.ofInt 0)).signedAmount amount.worth) = .ok (quanta m) := by
    rw [h.running]
    exact hsum _ (hrecords _ [])
  have hscope := posts.scoped { hrecords (Decimal.ofInt 0) [] with } rfl rfl
  have hbalance : (if q.1.entryType.isScopeless = true ∧ quanta m = 0 then Decimal.ofInt 0
      else balanceDatum (quanta m)) = balanceDatum (quanta m) :=
    if_neg fun hz => by simp [hscope] at hz
  set draft := q.1.entry txn q.2 now (b.sequence + 1) b.prevHash amount
    (balanceDatum (quanta m)) with hdraft
  obtain ⟨u, hu⟩ : ∃ u, fixed (balanceDatum (quanta m)) = .ok u := by
    rw [balanceDatum_quanta]
    exact fixed_quanta hm
  obtain ⟨bytes, hhash⟩ : ∃ bytes, hashEntry draft = .ok (sha256Hex bytes) :=
    exists_hashEntry (e := draft) rfl (checkTexts_of_checkLine posts.checked)
      (show b.prevHash.all Text.isAscii = true from h.head ▸ plain.head) ht hu
  set e : LedgerEntry := { draft with entryHash := sha256Hex bytes } with he
  have hworth : e.worth = amount.worth := rfl
  have hready : e.Ready := ⟨rfl, hhash⟩
  have hbuilt : LedgerEntry.BuiltOf txn now q e := ⟨hready, hrecords _ _, rfl, rfl, rfl⟩
  have next : c.Next e :=
    { sequence := by
        rw [← h.length]
        rfl
      prevHash := h.head
      version := rfl
      hash := ⟨bytes, rfl⟩
      texts := checkTexts_of_checkLine posts.checked
      time := h.time
      known := posts.known
      balance := ⟨quanta m, hsum e (hrecords _ _), value?_balanceDatum m⟩ }
  obtain ⟨c', hc'⟩ := (posts.takes e (hrecords _ _) rfl hworth).accepted plain next net
    (posts.paid e (hrecords _ _))
  have ha : Applied true false c e c' :=
    applied_of_apply (by rw [← Rules.apply_ready c hready]; exact hc')
  let b' : Built :=
    { running := if q.1.entryType.isZeroValue then b.running
        else b.running.set q.1.scopeId (quanta m)
      prevHash := sha256Hex bytes
      sequence := b.sequence + 1
      entries := b.entries ++ [e] }
  have hline : Built.line view txn now b q = .ok b' := by
    rw [Built.line, posts.checked, ok_bind]
    refine bind_eq_ok.mpr ⟨quanta m, lift_eq_ok.mpr hadd, ?_⟩
    simp only [hbalance]
    exact bind_eq_ok.mpr ⟨sha256Hex bytes, lift_eq_ok.mpr hhash, rfl⟩
  exact ⟨b', e, c', hline, rfl, hbuilt, ha, hc',
    h.applied ha rfl (hsum e (hrecords _ _)) (b.entries ++ [e])⟩

/-- Whether each of some lines posts what is taken, on whatever the ones before have made of a
chain. -/
def Chain.PostsAll (txn : UUID) : List LedgerLine → Chain → Prop
  | [], _ => True
  | line :: rest, c => ∃ amount, line.Posts c txn amount ∧ ∀ e c', e.Records line →
      e.transactionId = txn → Applied true false c e c' → PostsAll txn rest c'

/-- What entries that are accepted are of. -/
def LedgerEntry.Closes (e : LedgerEntry) : Prop :=
  e.entryType = .holdVoid ∨ e.entryType = .spend ∨ e.entryType = .circuitTripped

/-- Lines that post what is taken are built, and their entries accepted. -/
theorem Built.runAll_accepted {view : Overlay} {txn : UUID} {now : Instant}
    {l : List (LedgerLine × UUID)} {b : Built} (h : b.Reaches view now c) (plain : c.Plain)
    (net : c.frame.net = 0) (posts : c.PostsAll txn (l.map Prod.fst)) :
    ∃ b' es c', runAll (Built.line view txn now) b l = .ok b' ∧ b'.entries = b.entries ++ es ∧
      (∀ e ∈ es, e.Closes) ∧ runAll (Rules.apply false true) c es = .ok c' ∧
      c'.Plain ∧ c'.frame.net = 0 := by
  induction l generalizing b c with
  | nil => exact ⟨b, [], c, rfl, (List.append_nil _).symm, by simp, rfl, plain, net⟩
  | cons q l ih =>
    obtain ⟨amount, hposts, hrest⟩ := posts
    obtain ⟨b₁, e, c₁, hline, hentries, hbuilt, ha, happly, hreaches⟩ :=
      Built.line_accepted h plain net hposts
    have hkinds := (hposts.takes e hbuilt.records hbuilt.txn (by
      have hamount := hposts.checked.symm.trans hbuilt.records.amount
      rw [LedgerEntry.worth, ← Except.ok.inj hamount]
      rfl)).kinds
    have hnet : c₁.frame.net = 0 := by
      have hn := ha.net
      rw [if_neg (by rcases hkinds with k | k | k <;> rw [k] <;> decide)] at hn
      exact hn.trans net
    obtain ⟨b', es, c', hrun, hes, hclose, hchain, hplain, hend⟩ := ih hreaches
      (ha.plain plain hbuilt.ready.version) hnet (hrest e c₁ hbuilt.records hbuilt.txn ha)
    refine ⟨b', e :: es, c', ?_, ?_, ?_, ?_, hplain, hend⟩
    · rw [runAll_cons, hline, ok_bind, hrun]
    · rw [hes, hentries, List.append_assoc, List.singleton_append]
    · exact List.forall_mem_cons.mpr ⟨hkinds, hclose⟩
    · rw [runAll_cons, happly, ok_bind, hchain]

/-! ### Transactions that are accepted -/

/-- A unit of work over a state stands on a chain between transactions, all of the newest
format. -/
structure Pending.On (s : ChainState) (refunds : Option (UUID → ℕ → Except Error Value))
    (find : UUID → Option LedgerEntry) (p : Pending) (c : Chain) : Prop where
  reads : Overlay.Reads id s refunds find find p.view c
  between : c.frame = {}
  plain : c.Plain

namespace Pending.On

variable {s : ChainState} {refunds : Option (UUID → ℕ → Except Error Value)}
  {find : UUID → Option LedgerEntry} {p : Pending} {w : World}

theorem balance (h : p.On s refunds find c) (scope : Text) :
    p.view.balance scope = c.balance scope := by
  obtain ⟨m, hm, hc, -⟩ := h.reads
  exact (hm.shows.balance scope).trans (hc.balance scope)

theorem core (h : p.On s refunds find c) : p.view.toCore = c.core := by
  obtain ⟨m, hm, hc, -⟩ := h.reads
  exact hm.shows.core.trans hc.core

theorem not_before (h : p.On s refunds find c) {last : Instant}
    (hlast : c.core.lastTimestamp = some last) : ¬p.instant w < last := by
  have hview : p.view.lastTimestamp = some last := (congrArg Core.lastTimestamp h.core).trans hlast
  rw [Pending.instant, hview]
  dsimp only
  split_ifs with hlt
  · exact lt_irrefl last.key
  · exact hlt

/-- A transaction whose lines post what is taken is accepted, and the chain goes on with its
entries. -/
theorem post (h : p.On s refunds find c) {lines : List LedgerLine} (hlines : lines ≠ [])
    (posts : c.PostsAll (w.uuid p.draws) lines) :
    ∃ es p' c', p.post w lines = .ok (es, p') ∧ runAll (Rules.apply true false) c es = .ok c' ∧
      p'.On s refunds find { c' with frame := {} } := by
  have hstart : Built.Reaches p.view (p.instant w)
      { prevHash := p.view.head, sequence := p.view.length } c := by
    refine ⟨congrArg Core.head h.core, congrArg Core.length h.core, fun scope => ?_,
      fun last hlast => h.not_before hlast⟩
    exact h.balance scope
  have hnet : c.frame.net = 0 := by rw [h.between]
  have hposts : c.PostsAll (w.uuid p.draws) ((p.drawn w lines).map Prod.fst) := by
    have hfst : (p.drawn w lines).map Prod.fst = lines := by
      rw [Pending.drawn, List.map_map]
      exact List.zipIdx_map_fst 0 lines
    rwa [hfst]
  obtain ⟨b, es, c', hbuild, hentries, hcloses, hchain, hplain, hend⟩ :=
    Built.runAll_accepted hstart h.plain hnet hposts
  rw [List.nil_append] at hentries
  have S := Overlay.reads_simulation (f := id) (fun _ => rfl) s refunds find find
  have hP : ∀ e ∈ es, Overlay.MayRead s find find e := by
    refine fun e he => ⟨fun kind => ?_, fun _ _ _ => rfl⟩
    rcases hcloses e he with k | k | k <;> simp [kind] at k
  obtain ⟨view, hview, hreads⟩ := (S.runAll h.reads hP false true).exists_ok' hchain
  have hended : Rules.endTransaction c' = .ok { c' with frame := {} } := by
    simp only [Rules.endTransaction, View.frame, View.setFrame, hend, ne_eq, not_true_eq_false,
      if_false]
  obtain ⟨view', hview', hreads'⟩ := (S.endTransaction hreads).exists_ok' hended
  have hpost : p.post w lines = .ok (es, { p.skip lines with
      view := view', entries := p.entries ++ es }) := by
    rw [Pending.post, if_neg hlines, Pending.build, hbuild, ok_bind, hentries]
    exact bind_eq_ok.mpr ⟨view, lift_eq_ok.mpr hview,
      bind_eq_ok.mpr ⟨view', lift_eq_ok.mpr hview', rfl⟩⟩
  have hready : ∀ e ∈ es, e.Ready := (Pending.post_ok hpost).ready
  refine ⟨es, _, c', hpost, ?_, ⟨hreads', rfl, hplain.between⟩⟩
  rw [← Rules.runAll_ready c hready]
  exact hchain

end Pending.On

end AgentGov
