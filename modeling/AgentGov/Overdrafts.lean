import AgentGov.Balances
import AgentGov.Errands

/-!
# Overdrafts

Only a settlement takes a scope below zero: every other debit was covered when it was posted. The
settlement that does trips the scope in its own unit of work, unless it is latched already, so no
money is held there until the breaker is reset and money has come back
(`src/src/agentgov/core.py`, lines 5308–5356, 5836–5987, 6060–6235 and 6933–6984).

## Main definitions

* `AgentGov.LedgerEntry.Halts`: a debit that leaves its scope below zero settles and halts it.
* `AgentGov.OverdraftsHalt`: what holds of overdrafts of a chain.

## Main results

* `AgentGov.Governor.halts_maintained`: every unit of work halts what it overdraws.
* `AgentGov.overdrafts_halt`: overdrafts of every run of errands, at every commit.
-/

open Foundation

namespace AgentGov

variable {w : World} {unit : Unit} {c c' : Chain} {e : LedgerEntry} {l m : List LedgerEntry}

/-- Whether an entry that takes money and leaves its scope below zero is a settlement, and its scope
is latched before it or tripped right after it. -/
def LedgerEntry.Halts (before : List LedgerEntry) (e : LedgerEntry) (after : List LedgerEntry) :
    Prop :=
  e.direction = .debit → e.balanceAfter.worth < 0 → e.entryType = .spend ∧
    (Latched before e.scopeId ∨ ∃ trip rest, after = trip :: rest ∧ trip.Trips e.scopeId)

theorem LedgerEntry.Halts.append {before after : List LedgerEntry} (h : e.Halts before after)
    (more : List LedgerEntry) : e.Halts before (after ++ more) := by
  intro debit below
  obtain ⟨kind, hlatched | ⟨trip, rest, rfl, htrip⟩⟩ := h debit below
  · exact ⟨kind, Or.inl hlatched⟩
  · exact ⟨kind, Or.inr ⟨trip, rest ++ more, rfl, htrip⟩⟩

/-- Whether every overdraft of a chain halts its scope. -/
def AllHalt (l : List LedgerEntry) : Prop :=
  Along (fun before e after => e.Halts before after) l

/-- Whether every overdraft of entries written after others halts its scope. -/
def HaltAfter (l m : List LedgerEntry) : Prop :=
  Along (fun before e after => e.Halts (l ++ before) after) m

theorem AllHalt.append (h : AllHalt l) (h' : HaltAfter l m) : AllHalt (l ++ m) :=
  along_append (fun _ _ _ more hx => hx.append more) h h'

/-- Entries that take no money overdraw nothing. -/
theorem haltAfter_of_no_debit (h : ∀ e ∈ m, e.direction ≠ .debit) : HaltAfter l m := by
  intro before e after hm debit
  exact absurd debit (h e (hm ▸ by simp))

/-- An entry that is no overdraft of its scope, and entries after it that take no money. -/
theorem haltAfter_cons (he : ¬(e.direction = .debit ∧ e.balanceAfter.worth < 0))
    (h : ∀ x ∈ m, x.direction ≠ .debit) : HaltAfter l (e :: m) := by
  refine along_cons.mpr ⟨fun debit below => absurd ⟨debit, below⟩ he, ?_⟩
  intro before x after hm debit
  exact absurd debit (h x (hm ▸ by simp))

theorem haltAfter_append {n : List LedgerEntry} (h : HaltAfter l m) (h' : HaltAfter (l ++ m) n) :
    HaltAfter l (m ++ n) := by
  refine along_append (fun _ _ _ more hx => hx.append more) h ?_
  intro before x after hn
  rw [← List.append_assoc]
  exact h' before x after hn

/-! ### Units of work -/

/-- What an entry records of a line that moves money is worth what the line is. -/
theorem LedgerEntry.Records.worth {line : LedgerLine} (h : e.Records line)
    (hz : line.entryType.isZeroValue = false) : e.worth = line.amount.worth := by
  have hcheck := h.amount
  unfold checkLine at hcheck
  split_ifs at hcheck with hdir href
  · obtain ⟨amount, -, hcheck⟩ := bind_eq_ok.mp hcheck
    cases hcheck
  · obtain ⟨amount, hamount, hcheck⟩ := bind_eq_ok.mp hcheck
    have heq : amount = e.amount := by
      cases ht : checkTexts line.scopeId line.counterpartyId line.memo with
      | some problem =>
        rw [ht] at hcheck
        cases hcheck
      | none =>
        rw [ht] at hcheck
        exact Except.ok.inj hcheck
    unfold lineAmount at hamount
    rw [hz, if_neg Bool.false_ne_true] at hamount
    obtain ⟨coerced, -, hamount⟩ := bind_eq_ok.mp hamount
    split_ifs at hamount with hsame
    cases hamount
    rw [LedgerEntry.worth, ← heq, Decimal.worth, not_not.mp hsame]

namespace Governor

variable {g t : Governor} {p : Pending}

/-- The balances a governor serves are those of its chain. -/
theorem Sound.balance_eq (h : g.Sound w unit c) (scope : Text) :
    g.ledger.state.balance scope = c.balance scope :=
  h.stands.alike.balance scope

/-- A debit that was covered leaves its scope at or above zero. -/
theorem Sound.not_below (h : g.Sound w unit c) {rest : List LedgerEntry} {line : LedgerLine}
    (hrun : runAll (Rules.apply true false) (Chain.empty unit [] g.ledger.resolve)
      (g.ledger.entries ++ e :: rest) = .ok c') (hrec : e.Records line)
    (hz : line.entryType.isZeroValue = false) (debit : line.direction = .debit)
    (covered : ¬g.ledger.state.balance line.scopeId < line.amount.worth) :
    ¬(e.direction = .debit ∧ e.balanceAfter.worth < 0) := by
  obtain ⟨c₁, c₂, hbefore, ha, -⟩ := Chain.run_split hrun
  rw [h.run, Except.ok.injEq] at hbefore
  subst hbefore
  rintro ⟨-, hbelow⟩
  refine ha.not_below (hrec.direction.trans debit) ?_ hbelow
  rwa [hrec.worth hz, hrec.scope, ← h.balance_eq]

/-- What a unit of work sees of a breaker is what its entries have latched. -/
theorem tripOf_latched {find : UUID → Option LedgerEntry} {s : ChainState}
    {refunds : Option (UUID → ℕ → Except Error Value)}
    (h : p.Follows w unit find s refunds l c) (scope : Text) :
    (p.view.tripOf scope).isSome ↔ Latched (l ++ p.entries) scope := by
  obtain ⟨m, hm, hc, -, -⟩ := h.reads
  have htrip : p.view.tripOf scope = c.tripped scope :=
    (hm.shows.tripped scope).trans (congrFun hc.tripped scope)
  rw [htrip, run_tripped h.run]

/-- A scope stays latched while entries neither trip nor reset it. -/
theorem latched_before {scope : Text} (h : Latched (l ++ m) scope)
    (hm : ∀ e ∈ m, e.entryType ≠ .circuitTripped) : Latched l scope := by
  induction m using List.reverseRecOn with
  | nil => rwa [List.append_nil] at h
  | append_singleton m e ih =>
    rw [← List.append_assoc, latched_concat] at h
    rcases h with htrip | ⟨-, h⟩
    · exact absurd htrip.1 (hm e (by simp))
    · exact ih h fun x hx => hm x (List.mem_append_left _ hx)

/-- What a transaction has posted of lines that take no money takes none. -/
theorem no_debit_of_posted {q q' : Pending} {lines : List LedgerLine} {es : List LedgerEntry}
    (posted : Posted w q lines es q') (hlines : ∀ line ∈ lines, line.direction ≠ .debit) :
    ∀ e ∈ es, e.direction ≠ .debit := by
  intro e he
  obtain ⟨line, hl, hr⟩ := posted.exists_line he
  rw [hr.direction]
  exact hlines line hl

/-- A release and a settlement, with the trips after them, halt what they overdraw: their scope is
latched by then, or a trip of it follows. -/
theorem haltAfter_settling (releases trips : List LedgerEntry) {spend : LedgerEntry}
    (hreleases : ∀ x ∈ releases, x.direction ≠ .debit) (kind : spend.entryType = .spend)
    (htrips : ∀ x ∈ trips, x.direction ≠ .debit)
    (halts : spend.balanceAfter.worth < 0 → Latched (l ++ (releases ++ [spend])) spend.scopeId ∨
      ∃ trip rest, trips = trip :: rest ∧ trip.Trips spend.scopeId) :
    HaltAfter l (releases ++ spend :: trips) := by
  refine haltAfter_append (haltAfter_of_no_debit hreleases) ?_
  refine along_cons.mpr ⟨fun _ below => ⟨kind, ?_⟩, ?_⟩
  · refine (halts below).imp (fun h => ?_) id
    rw [List.append_nil]
    refine latched_before (m := [spend]) (by rwa [List.append_assoc]) fun x hx => ?_
    rw [List.mem_singleton.mp hx, kind]
    decide
  · intro before x after hm debit
    exact absurd debit (htrips x (hm ▸ by simp))

/-- What a claim's lines have posted: a release, if its hold was open, and then the spend, if
anything is owed. -/
theorem posted_claimLines {claim : SettlementClaim} {hold : Option Authorization}
    {q q' : Pending} {es : List LedgerEntry} (posted : Posted w q (Op.claimLines claim hold) es q') :
    (∀ x ∈ es, x.direction ≠ .debit) ∨
      ∃ releases spend, es = releases ++ [spend] ∧ (∀ x ∈ releases, x.direction ≠ .debit) ∧
        spend.entryType = .spend ∧ spend.scopeId = claim.scopeId := by
  have hrecords := posted.records
  unfold Op.claimLines at hrecords
  split_ifs at hrecords
  · cases hold with
    | none =>
      obtain ⟨spend, rest, hspend, hnil, rfl⟩ := List.forall₂_cons_left_iff.mp hrecords
      obtain rfl := List.forall₂_nil_left_iff.mp hnil
      exact Or.inr ⟨[], spend, rfl, by simp, hspend.kind, hspend.scope⟩
    | some a =>
      obtain ⟨release, rest, hrelease, hrest, rfl⟩ := List.forall₂_cons_left_iff.mp hrecords
      obtain ⟨spend, rest', hspend, hnil, rfl⟩ := List.forall₂_cons_left_iff.mp hrest
      obtain rfl := List.forall₂_nil_left_iff.mp hnil
      refine Or.inr ⟨[release], spend, rfl, ?_, hspend.kind, hspend.scope⟩
      simp [hrelease.direction, Op.line]
  · refine Or.inl (no_debit_of_posted posted fun line hl => ?_)
    rcases (Op.mem_claimLines hl).2 with ⟨-, direction⟩ | ⟨-, direction⟩
    · simp [direction]
    · unfold Op.claimLines at hl
      rw [if_neg ‹_›, List.append_nil] at hl
      cases hold with
      | none => exact (List.not_mem_nil hl).elim
      | some a =>
        rw [List.mem_singleton.mp hl] at direction
        cases direction

/-- Every unit of work halts what it overdraws. -/
theorem halts_maintained : Maintained w unit AllHalt := by
  intro g c c' p hg hwrote hp hP
  refine hP.append ?_
  have hrun := hp.run
  cases hwrote with
  | nothing => exact along_nil _
  | funding posted =>
    rw [posted.entries_begin]
    exact haltAfter_of_no_debit (no_debit_of_posted posted (by simp [Op.line]))
  | delegation n known active covered posted =>
    rw [posted.entries_begin] at hrun ⊢
    obtain ⟨hdebit, hcredits⟩ := List.forall₂_cons.mp posted.records
    refine haltAfter_cons (hg.not_below hrun hdebit rfl rfl covered) fun x hx => ?_
    rw [List.mem_singleton.mp hx, (List.forall₂_cons.mp hcredits).1.direction]
    exact Direction.noConfusion
  | release n known child covered posted =>
    rw [posted.entries_begin] at hrun ⊢
    obtain ⟨hdebit, hcredits⟩ := List.forall₂_cons.mp posted.records
    refine haltAfter_cons (hg.not_below hrun hdebit rfl rfl covered) fun x hx => ?_
    rw [List.mem_singleton.mp hx, (List.forall₂_cons.mp hcredits).1.direction]
    exact Direction.noConfusion
  | hold n known active covered posted =>
    rw [posted.entries_begin] at hrun ⊢
    have hdebit := (List.forall₂_cons.mp posted.records).1
    exact haltAfter_cons (hg.not_below hrun hdebit rfl rfl covered) (by simp)
  | settlement opened settles =>
    cases settles with
    | settled release note pair latched =>
      have htrip := tripOf_latched hp
      rw [pair.entries_begin] at htrip ⊢
      obtain ⟨hrelease, hspends⟩ := List.forall₂_cons.mp pair.records
      have hspend := (List.forall₂_cons.mp hspends).1
      refine haltAfter_settling [release] [] ?_ hspend.kind (by simp)
        fun below => Or.inl ?_
      · simp [hrelease.direction, Op.voiding, Op.line]
      · rw [hspend.scope]
        exact (htrip _).mp (latched below)
    | tripped release trip note reason p₁ pair trips reasons =>
      rw [trips.entries, pair.entries_begin]
      obtain ⟨hrelease, hspends⟩ := List.forall₂_cons.mp pair.records
      have hspend := (List.forall₂_cons.mp hspends).1
      have htrip := (List.forall₂_cons.mp trips.records).1
      refine haltAfter_settling [release] [trip] ?_ hspend.kind ?_
        fun _ => Or.inr ⟨trip, [], rfl, htrip.kind, ?_⟩
      · simp [hrelease.direction, Op.voiding, Op.line]
      · simp [htrip.direction, Staging.event]
      · rw [htrip.scope, hspend.scope]
        rfl
  | void opened posted =>
    rw [posted.entries_begin]
    exact haltAfter_of_no_debit (no_debit_of_posted posted (by simp [Op.voiding, Op.line]))
  | refund posted =>
    rw [posted.entries_begin]
    exact haltAfter_of_no_debit (no_debit_of_posted posted (by simp [Op.line]))
  | anchor posted =>
    rw [posted.entries_begin]
    exact haltAfter_of_no_debit (no_debit_of_posted posted (by simp [Staging.event]))
  | trip untripped posted =>
    rw [posted.entries_begin]
    exact haltAfter_of_no_debit (no_debit_of_posted posted (by simp [Staging.event]))
  | reset tripped posted =>
    rw [posted.entries_begin]
    exact haltAfter_of_no_debit (no_debit_of_posted posted (by simp [Staging.event]))
  | redemption books =>
    cases books with
    | anchored posted =>
      rw [posted.entries_begin]
      exact haltAfter_of_no_debit (no_debit_of_posted posted (by simp [Staging.event]))
    | settled es posted last latched =>
      have htrip := tripOf_latched hp
      rw [posted.entries_begin] at htrip ⊢
      rcases posted_claimLines posted with hnone | ⟨releases, spend, rfl, hrel, kind, hscope⟩
      · exact haltAfter_of_no_debit hnone
      · rw [List.getLast?_concat, Option.some.injEq] at last
        refine haltAfter_settling releases [] hrel kind (by simp) fun below => Or.inl ?_
        rw [hscope]
        exact (htrip _).mp (latched (last ▸ below))
    | tripped es trip reason p₁ posted last trips =>
      rw [trips.entries, posted.entries_begin]
      have htrip := (List.forall₂_cons.mp trips.records).1
      have hdir : ∀ x ∈ [trip], x.direction ≠ .debit := by
        simp [htrip.direction, Staging.event]
      rcases posted_claimLines posted with hnone | ⟨releases, spend, rfl, hrel, kind, hscope⟩
      · refine haltAfter_of_no_debit fun x hx => ?_
        exact (List.mem_append.mp hx).elim (hnone x) (hdir x)
      · rw [List.append_assoc]
        refine haltAfter_settling releases [trip] hrel kind hdir fun _ =>
          Or.inr ⟨trip, [], rfl, htrip.kind, ?_⟩
        rw [htrip.scope, hscope]
        rfl

end Governor

/-! ### Chains -/

/-- Whether an entry takes its scope from at or above zero to below it. -/
def LedgerEntry.Crosses (before : List LedgerEntry) (e : LedgerEntry) : Prop :=
  e.balanceAfter.worth < 0 ∧ ¬Overdrawn before e.scopeId

/-- What holds of the overdrafts of a chain. -/
structure OverdraftsHalt (l : List LedgerEntry) : Prop where
  /-- A scope whose newest entry leaves it below zero was taken there by a settlement. -/
  settled : ∀ scope, Overdrawn l scope → ∃ e ∈ l, e.entryType = .spend ∧ e.Below scope
  /-- Any other entry leaves the scope it debits at or above zero. -/
  covered : ∀ e ∈ l, e.direction = .debit → e.entryType ≠ .spend → 0 ≤ e.balanceAfter.worth
  /-- What takes a scope below zero finds it latched, or a trip of it follows at once. -/
  tripped : ∀ before e after, l = before ++ e :: after → e.Crosses before →
    Latched before e.scopeId ∨ ∃ trip rest, after = trip :: rest ∧ trip.Trips e.scopeId
  /-- No hold is placed on it until it was reset and money was returned. -/
  held : ∀ before e between hold after, l = before ++ e :: (between ++ hold :: after) →
    e.Crosses before → hold.entryType = .hold → hold.scopeId = e.scopeId →
    (∃ x ∈ between, x.Resets e.scopeId) ∧
      ∃ x ∈ between, x.scopeId = e.scopeId ∧ x.direction = .credit

variable {find : UUID → Option LedgerEntry}

/-- Only a debit takes a scope below zero. -/
theorem LedgerEntry.Crosses.debit {before after : List LedgerEntry}
    (h : runAll (Rules.apply true false) (Chain.empty unit [] find) (before ++ e :: after) = .ok c)
    (hcross : e.Crosses before) : e.direction = .debit := by
  obtain ⟨c₁, c₂, hbefore, ha, -⟩ := Chain.run_split h
  by_contra hdir
  refine hcross.2 ((run_overdrawn hbefore e.scopeId).mp ?_)
  refine lt_of_le_of_lt (ha.balance_le hdir) ?_
  rw [ha.balance_scope]
  exact hcross.1

/-- A scope below zero was taken there by a settlement. -/
theorem exists_settlement
    (h : runAll (Rules.apply true false) (Chain.empty unit [] find) l = .ok c) (hl : AllHalt l)
    (scope : Text) (hdrawn : Overdrawn l scope) : ∃ e ∈ l, e.entryType = .spend ∧ e.Below scope := by
  have debits : ∀ e ∈ l, e.direction = .debit → e.balanceAfter.worth < 0 →
      e.entryType = .spend := by
    intro e he debit below
    obtain ⟨before, after, hsplit⟩ := List.append_of_mem he
    exact (hl before e after hsplit debit below).1
  refine Chain.run_induction (motive := fun m c => (∀ e ∈ m, e.direction = .debit →
    e.balanceAfter.worth < 0 → e.entryType = .spend) → c.balance scope < 0 →
    ∃ e ∈ m, e.entryType = .spend ∧ e.Below scope) (fun _ h => absurd h (lt_irrefl 0)) ?_ h debits
    ((run_overdrawn h scope).mpr hdrawn)
  intro m e c c' _ ih ha hm hbelow
  by_cases hc : c.balance scope < 0
  · obtain ⟨x, hx, hspend⟩ := ih (fun x hx => hm x (List.mem_append_left _ hx)) hc
    exact ⟨x, List.mem_append_left _ hx, hspend⟩
  · -- the entry takes the scope below zero
    have hs : e.scopeId = scope := by
      by_contra hs
      exact hc (ha.balance_other (fun heq => hs heq.symm) ▸ hbelow)
    subst hs
    have debit : e.direction = .debit := by
      by_contra hdir
      exact hc (lt_of_le_of_lt (ha.balance_le hdir) hbelow)
    rw [ha.balance_scope] at hbelow
    exact ⟨e, by simp, hm e (by simp) debit hbelow, rfl, hbelow⟩

/-- Where the overdrafts of a chain halt and its holds are held back, no hold follows one until the
scope was reset and money was returned. -/
theorem overdraftsHalt_of_run
    (h : runAll (Rules.apply true false) (Chain.empty unit [] find) l = .ok c) (hl : AllHalt l)
    (hheld : HeldBack l) : OverdraftsHalt l := by
  have tripped : ∀ before e after, l = before ++ e :: after → e.Crosses before →
      e.entryType = .spend ∧ (Latched before e.scopeId ∨
        ∃ trip rest, after = trip :: rest ∧ trip.Trips e.scopeId) :=
    fun before e after hsplit hcross =>
      hl before e after hsplit (LedgerEntry.Crosses.debit (hsplit ▸ h) hcross) hcross.1
  refine ⟨exists_settlement h hl, fun e he debit kind => ?_,
    fun before e after hsplit hcross => (tripped before e after hsplit hcross).2, ?_⟩
  · obtain ⟨before, after, hsplit⟩ := List.append_of_mem he
    exact not_lt.mp fun below => kind (hl before e after hsplit debit below).1
  · intro before e between hold after hsplit hcross hkind hscope
    obtain ⟨kind, hhalt⟩ := tripped before e _ hsplit hcross
    have hsplit' : l = (before ++ e :: between) ++ hold :: after := by simp [hsplit]
    have hfree : ¬Latched (before ++ e :: between) e.scopeId := by
      refine hheld _ hold after hsplit' (Or.inl hkind) e.scopeId ?_
      rw [hscope]
      exact .refl
    constructor
    · rcases hhalt with hlatched | ⟨trip, rest, hrest, htrip⟩
      · have hstill : Latched (before ++ [e]) e.scopeId :=
          latched_concat.mpr (Or.inr ⟨fun hreset => by simp [hreset.1] at kind, hlatched⟩)
        refine exists_of_not_since hstill fun hmore => hfree ?_
        rwa [List.append_assoc, List.singleton_append] at hmore
      · cases between with
        | nil =>
          cases hrest
          rw [htrip.1] at hkind
          cases hkind
        | cons x between =>
          cases hrest
          have hnow : Latched (before ++ [e, trip]) e.scopeId := by
            rw [show before ++ [e, trip] = (before ++ [e]) ++ [trip] by simp]
            exact latched_concat.mpr (Or.inl htrip)
          obtain ⟨x, hx, hreset⟩ := exists_of_not_since hnow fun hmore => hfree (by
            rwa [List.append_assoc] at hmore)
          exact ⟨x, List.mem_cons_of_mem _ hx, hreset⟩
    · by_contra hnone
      push Not at hnone
      rw [hsplit'] at h
      obtain ⟨c₁, c₂, hbefore, hhold, -⟩ := Chain.run_split h
      obtain ⟨c₃, c₄, -, ha, hbetween⟩ := Chain.run_split hbefore
      have hbelow : c₄.balance e.scopeId < 0 := by
        rw [ha.balance_scope]
        exact hcross.1
      have hstill := run_stays_below hbetween hbelow hnone
      -- but the hold was covered
      have debit : hold.direction = .debit := by
        have hdir := hhold.direction
        rw [hkind] at hdir
        simpa [EntryType.legalDirections] using hdir
      have hle := hhold.le_balance (by simp [debit])
      rw [hscope, ← hscope, hhold.balance_scope, hscope] at hle
      have hspend := (hl _ hold after hsplit' debit (lt_of_le_of_lt hle hstill)).1
      rw [hkind] at hspend
      cases hspend

/-! ### Runs -/

/-- What a run of errands keeps of overdrafts. -/
structure SettlementsOverdraw (w : World) (g : Governor) (errands : List Errand) (t : Governor) :
    Prop where
  /-- Overdrafts halt at every commit. -/
  commits : ∀ u ∈ g.commitsAll w errands, OverdraftsHalt u.ledger.entries
  /-- Overdrafts halt when the run ends. -/
  ends : OverdraftsHalt t.ledger.entries
  /-- A spend is written by a capture, a spend or a redemption. -/
  settlements : ∀ e ∈ t.ledger.entries, e.entryType = .spend →
    ∃ d ∈ g.lasting w errands, d.task.settles = true ∧ e ∈ d.wrote w
  /-- A breaker is reset by a reset of its scope. -/
  resets : ∀ e ∈ t.ledger.entries, ∀ scope, e.Resets scope → ∃ d ∈ g.lasting w errands,
    (∃ memo, d.task = .call (.reset scope memo)) ∧ e ∈ d.wrote w

/-- Only settlements overdraw, and an overdraft halts, whatever a governor is asked. -/
theorem overdrafts_halt (w : World) (unit : Unit) (policy : GovernancePolicy) (store : Bool)
    (errands : List Errand) (t : Governor)
    (served : (Governor.new unit policy store).attendAll w errands = .ok t)
    (distinct : w.Distinct t.draws) :
    SettlementsOverdraw w (Governor.new unit policy store) errands t := by
  have hg := Governor.Orderly.new w unit policy store
  have hm : Governor.Maintained w unit fun l => AllHalt l ∧ HeldBack l :=
    fun g c c' p hs hwrote hp hP => ⟨Governor.halts_maintained g c c' p hs hwrote hp hP.1,
      Governor.heldBack_maintained g c c' p hs hwrote hp hP.2⟩
  have hnew : (Governor.new unit policy store).Upholds w unit fun l => AllHalt l ∧ HeldBack l :=
    fun _ => ⟨⟨_, .new w unit policy store⟩, along_nil _, throughout_nil _⟩
  have halts {u : Governor} (hu : u.Upholds w unit fun l => AllHalt l ∧ HeldBack l)
      (hdraws : u.draws ≤ t.draws) : OverdraftsHalt u.ledger.entries := by
    obtain ⟨⟨c, hc⟩, hhalt, hheld⟩ := hu (distinct.mono hdraws)
    exact overdraftsHalt_of_run hc.run hhalt hheld
  obtain ⟨ht, hcommits⟩ := hnew.attendAll hm hg served
  refine ⟨fun u hu => halts (hcommits u hu).1 (hcommits u hu).2, halts ht (Nat.le_refl _),
    fun e he kind => ?_, fun e he scope hreset => ?_⟩
  · rcases Governor.lasting_wrote hg served distinct he (by simp [kind]) with
      hm | ⟨d, hd, hwrote, hmay⟩
    · exact (List.not_mem_nil hm).elim
    · exact ⟨d, hd, hmay.2 kind, hwrote⟩
  · obtain ⟨kind, rfl⟩ := hreset
    rcases Governor.lasting_wrote hg served distinct he (by simp [kind]) with
      hm | ⟨d, hd, hwrote, hmay⟩
    · exact (List.not_mem_nil hm).elim
    · refine ⟨d, hd, ?_, hwrote⟩
      have hresets := hmay.1 kind
      cases htask : d.task with
      | redeem pending claim =>
        rw [htask] at hresets
        cases hresets
      | call m =>
        rw [htask] at hresets
        obtain ⟨memo, hm⟩ := Mutation.resets_eq_some hresets
        exact ⟨memo, by rw [hm]⟩

/-- A root that a claim overdraws, funded and reset before it is held at again. -/
def sampleOverdraft : List Errand :=
  [.alone (.call (.openRoot (txt "a") (wholeAmount 10) [])),
   .alone (.redeem [⟨1, none, txt "a", Decimal.ofInt 12, txt "owed", rfl⟩] none),
   .alone (.call (.fund (txt "a") (wholeAmount 5) [] none)),
   .alone (.call (.reset (txt "a") (txt "go"))),
   .alone (.call (.authorize (txt "a") (wholeAmount 1) [] none))]

theorem sampleOverdraft_draws : ((((Governor.new USD samplePolicy true).attendAll sampleWorld
    sampleOverdraft).toOption.map Governor.draws).any (· ≤ 2 ^ 128)) = true := by
  decide +kernel

theorem overdrafts_halt_sampleOverdraft : ∃ t,
    (Governor.new USD samplePolicy true).attendAll sampleWorld sampleOverdraft = .ok t ∧
      SettlementsOverdraw sampleWorld (Governor.new USD samplePolicy true) sampleOverdraft t := by
  have hdraws := sampleOverdraft_draws
  cases hs : (Governor.new USD samplePolicy true).attendAll sampleWorld sampleOverdraft with
  | error e =>
    rw [hs] at hdraws
    cases hdraws
  | ok t =>
    rw [hs] at hdraws
    exact ⟨t, rfl, overdrafts_halt sampleWorld USD samplePolicy true sampleOverdraft t hs
      (sampleWorld_distinct (of_decide_eq_true hdraws))⟩

end AgentGov
