import AgentGov.Redemptions
import AgentGov.Serving

/-!
# Histories

Whatever a governor is asked, its history is made of the units of work of its operations, each
committed where its operation's own checks have passed, and of the trips written again. What every
such unit keeps of a history, a run keeps.

## Main definitions

* `AgentGov.Governor.Wrote`: what a unit of work has posted, and what was checked before.
* `AgentGov.Governor.Advances`: what an instruction of an operation does to a governor.
* `AgentGov.Governor.Maintained`: a property of histories that every unit of work keeps.

## Main results

* `AgentGov.Governor.Kept.meets`: every operation commits the units of work it may, and no others.
* `AgentGov.Governor.serveAll_maintains`: what every unit of work keeps, a run of orders keeps.
-/

open Foundation

namespace AgentGov

namespace Governor

variable {w : World} {unit : Unit} {g g' t : Governor} {c c' : Chain} {α : Type}

/-! ### Units of work -/

/-- What a unit of work begun by a governor has posted, with what its operation had checked. -/
inductive Wrote (w : World) (g : Governor) : Pending → Prop
  /-- A trip of a scope that is latched. -/
  | nothing : Wrote w g g.begin
  | funding {scope memo : Text} {amount : Decimal} {e : LedgerEntry} {p : Pending}
      (posted : Posted w g.begin [Op.line .funding .credit scope amount none memo none] [e] p) :
      Wrote w g p
  | delegation {parent child note : Text} {amount : Decimal} {debit credit : LedgerEntry}
      {p : Pending} (n : BudgetNode) (known : g.ledger.state.nodes.get? parent = some n)
      (active : g.Active parent)
      (covered : ¬g.ledger.state.balance parent < amount.worth)
      (posted : Posted w g.begin
        [Op.line .allocation .debit parent amount (some child) note none,
         Op.line .allocation .credit child amount (some parent) note none] [debit, credit] p) :
      Wrote w g p
  | release {scope parent note : Text} {amount : Decimal} {debit credit : LedgerEntry}
      {p : Pending} (n : BudgetNode) (known : g.ledger.state.nodes.get? scope = some n)
      (child : n.parentId = some parent) (covered : ¬g.ledger.state.balance scope < amount.worth)
      (posted : Posted w g.begin
        [Op.line .release .debit scope amount (some parent) note none,
         Op.line .release .credit parent amount (some scope) note none] [debit, credit] p) :
      Wrote w g p
  | hold {scope memo : Text} {amount : Decimal} {e : LedgerEntry} {p : Pending} (n : BudgetNode)
      (known : g.ledger.state.nodes.get? scope = some n) (active : g.Active scope) (covered : ¬g.ledger.state.balance scope < amount.worth)
      (posted : Posted w g.begin [Op.line .hold .debit scope amount none memo none] [e] p) :
      Wrote w g p
  | settlement {a : Authorization} {amount : Decimal} {e : LedgerEntry} {p : Pending}
      (opened : (g.ledger.openAuths.get? a.authorizationId).isSome)
      (settles : Op.Settlement w a amount g.begin e p) : Wrote w g p
  | void {a : Authorization} {memo : Text} {e : LedgerEntry} {p : Pending}
      (opened : (g.ledger.openAuths.get? a.authorizationId).isSome)
      (posted : Posted w g.begin [Op.voiding a memo] [e] p) : Wrote w g p
  | refund {scope memo : Text} {amount : Decimal} {ref : Option UUID} {e : LedgerEntry}
      {p : Pending}
      (posted : Posted w g.begin [Op.line .reversal .credit scope amount none memo ref] [e] p) :
      Wrote w g p
  | anchor {scope memo : Text} {e : LedgerEntry} {p : Pending}
      (posted : Posted w g.begin [Staging.event .anchor scope memo] [e] p) : Wrote w g p
  | trip {scope reason : Text} {e : LedgerEntry} {p : Pending}
      (untripped : g.begin.view.tripOf scope = none)
      (posted : Posted w g.begin [Staging.event .circuitTripped scope reason] [e] p) : Wrote w g p
  | reset {scope memo : Text} {e : LedgerEntry} {p : Pending}
      (tripped : (g.ledger.state.tripped.get? scope).isSome)
      (posted : Posted w g.begin [Staging.event .circuitReset scope memo] [e] p) : Wrote w g p
  | redemption {claim : SettlementClaim} {e : LedgerEntry} {p : Pending}
      (books : Op.Booking w claim (claim.holdId.bind g.ledger.openAuths.get?) g.begin e p) :
      Wrote w g p

theorem wrote_trip {scope reason : Text} {r : Option LedgerEntry} {p : Pending}
    (hr : (Staging.trip scope reason).run (stage w) g.begin = (.ok r, p)) : g.Wrote w p := by
  rcases Staging.trip_ok hr with ⟨-, rfl, -⟩ | ⟨e, -, untripped, posted⟩
  · exact .nothing
  · exact .trip untripped posted

/-- A unit of work an operation commits has posted what it was begun for. -/
theorem Work.wrote {body : Staging α} {call : Option Call} {result : α → Option LedgerEntry}
    (h : g.Work body call result) {a : α} {p : Pending}
    (hr : body.run (stage w) g.begin = (.ok a, p)) : g.Wrote w p := by
  cases h with
  | openRoot scope amount memo named new => exact .funding (Staging.post₁_ok hr)
  | fund scope amount memo call n known root unused => exact .funding (Staging.post₁_ok hr)
  | delegate parent child amount memo call n named known new active covered unused =>
    obtain ⟨debit, note, posted⟩ := Op.delegation_ok hr
    exact .delegation n known active covered posted
  | release scope parent amount memo n known child covered =>
    obtain ⟨debit, credit, note, posted⟩ := Op.releasing_ok hr
    exact .release n known child covered posted
  | hold scope amount memo call n known active covered unused =>
    exact .hold n known active covered (Staging.post₁_ok hr)
  | settle a amount memo call opened unused => exact .settlement opened (Op.settlement_ok hr)
  | void a memo call opened unused => exact .void opened (Staging.post₁_ok hr)
  | refund scope amount memo ref call n known unused => exact .refund (Staging.post₁_ok hr)
  | anchor scope memo n known => exact .anchor (Staging.post₁_ok hr)
  | trip scope reason n known untripped => exact wrote_trip hr
  | reset scope memo n known tripped => exact .reset tripped (Staging.post₁_ok hr)

/-- A claim a redemption books has posted what it owes. -/
theorem Books.wrote {body : Staging α} {call : Option Call} {result : α → Option LedgerEntry}
    (h : g.Books body call result) {a : α} {p : Pending}
    (hr : body.run (stage w) g.begin = (.ok a, p)) : g.Wrote w p := by
  cases h with
  | claim tripOnExhaustion claim n known => exact .redemption (Op.booking_ok hr)

/-! ### Instructions -/

/-- What an instruction of an operation does to a governor: it leaves the ledger and the recorded
calls as they are, or it commits a unit of work of the operation's. -/
inductive Advances (w : World) (g : Governor) : Governor → Prop
  | keep {g' : Governor} (keeps : g.Keeps g') : Advances w g g'
  | commit {α : Type} (body : Staging α) (call : Option Call) (result : α → Option LedgerEntry)
      (a : α) (p : Pending) (run : body.run (stage w) g.begin = (.ok a, p)) (wrote : g.Wrote w p) :
      Advances w g (g.commit p (call.bind fun c => (result a).map fun e => (c, e)))

theorem Advances.handled (h : g.Advances w g') : g.Handled w g' := by
  cases h with
  | keep keeps => exact .keep keeps
  | commit body call result a p run wrote => exact .commit body call result a p run

/-- Whether what units of work of some kind have posted is what units of work post. -/
def Writes (w : World) (works : (g : Governor) → {α : Type} → Staging α → Option Call →
    (α → Option LedgerEntry) → Prop) : Prop :=
  ∀ {g : Governor} {α : Type} {body : Staging α} {call : Option Call}
    {result : α → Option LedgerEntry} {a : α} {p : Pending}, works g body call result →
    body.run (stage w) g.begin = (.ok a, p) → g.Wrote w p

variable {works : (g : Governor) → {α : Type} → Staging α → Option Call →
  (α → Option LedgerEntry) → Prop}

/-- An instruction an operation may ask advances a governor. -/
theorem advances_of_asks (hworks : Writes w works) {β : Type} {i : Instr β}
    (h : g.Asks works i) : g.Advances w (handle w β i g).2 := by
  cases i with
  | mutating => exact .keep (.refl g)
  | served => exact .keep (.refl g)
  | policy => exact .keep (.refl g)
  | now => exact .keep ⟨rfl, rfl, rfl, rfl, Nat.le_succ _⟩
  | called key outcome request => exact .keep (called_keeps g key outcome request)
  | answered call answer => exact .keep (answered_keeps g call answer)
  | refundedOfSpend spend => exact .keep (.refl g)
  | velocity scope => exact .keep (countCall_keeps w g scope)
  | noteTrip scope reason => exact .keep ⟨rfl, rfl, rfl, rfl, Nat.le_refl _⟩
  | forgetVelocity scope => exact .keep ⟨rfl, rfl, rfl, rfl, Nat.le_refl _⟩
  | work body call result =>
    simp only [handle, work]
    rcases hb : body.run (stage w) g.begin with ⟨_ | a, p⟩
    · have hdraws := Staging.run_draws w body g.begin
      rw [hb] at hdraws
      exact .keep ⟨rfl, rfl, rfl, rfl, hdraws⟩
    · exact .commit body call result a p hb (hworks h hb)

/-- Every operation asks only what it may. -/
theorem Kept.meets (h : g.Kept) (w : World) (m : Mutation) :
    Meets w Work (fun _ _ => True) m.program g := by
  have hQ : ∀ r t, g.Idle t → (fun (_ : Except Exception Answer) (_ : Governor) => True) r t :=
    fun _ _ _ => trivial
  cases hx : m.asked g.ledger.state.unit with
  | none =>
    cases m with
    | openRoot scope envelope memo => exact meets_openRoot hQ _ _ _
    | release scope amount memo => exact meets_release hQ _ _ _
    | anchor scope memo => exact meets_anchor hQ _ _
    | voidStale olderThan scope memo => exact meets_voidStale hQ _ _ _
    | trip scope reason => exact meets_tripByHand hQ _ _
    | reset scope memo => exact meets_reset hQ _ _
    | fund | delegate | authorize | tryAuthorize | capture | void | spend | refund => cases hx
  | some x =>
    have hopens := opens w m hx
    cases x with
    | error e => exact (hopens g rfl _ _).mpr trivial
    | ok a =>
      obtain ⟨body, hprogram, -, hbody⟩ := hopens
      refine (hprogram g rfl _ _).mpr ?_
      have performs (u : Governor) (call : Option Call) (unused : u.Unused call)
          (outcome : ∀ c, call = some c → c.outcome = a.outcome) :
          Meets w Work (fun _ _ => True) (body call) u :=
        (hbody u call unused outcome).mono fun _ _ _ => trivial
      refine Program.meets_perform.mpr ⟨trivial, fun call u hcalled => ?_, fun _ _ _ => trivial⟩
      cases hkey : a.key with
      | none =>
        rw [hkey] at hcalled
        cases hcalled
        exact performs g none (fun c hc => by cases hc) fun c hc => by cases hc
      | some key =>
        obtain ⟨cache, hlook, -⟩ := h.called key a.outcome
          ⟨a.request.operation, a.request.arguments⟩
        rw [hkey] at hcalled
        have hlooked := hlook.symm.trans hcalled
        cases hl : g.lookUp key a.outcome ⟨a.request.operation, a.request.arguments⟩ with
        | error e =>
          rw [hl] at hlooked
          cases hlooked
        | ok made =>
          rw [hl] at hlooked
          cases hlooked
          obtain ⟨hname, houtcome, -, hused, -⟩ := lookUp_replayed hl
          cases hr : made.replayed with
          | some answer =>
            simp only [Program.bind, Option.bind_some, hr]
            trivial
          | none =>
            simp only [Program.bind, Option.bind_some, hr]
            refine performs _ (some made) ?_ ?_
            · rintro c ⟨⟩
              rw [hname]
              exact hused.mp hr
            · rintro c ⟨⟩
              exact houtcome

/-! ### What units of work keep -/

/-- Whether every unit of work committed over a sound ledger keeps a property of its history. -/
def Maintained (w : World) (unit : Unit) (P : List LedgerEntry → Prop) : Prop :=
  ∀ (g : Governor) (c c' : Chain) (p : Pending), g.Sound w unit c → g.Wrote w p →
    p.Follows w unit g.ledger.resolve g.ledger.state g.refundLookup g.ledger.entries c' →
    P g.ledger.entries → P (g.ledger.entries ++ p.entries)

/-- Whether what a governor serves is sound and its history has a property, if the ids drawn for
it are distinct. -/
def Upholds (w : World) (unit : Unit) (P : List LedgerEntry → Prop) (g : Governor) : Prop :=
  w.Distinct g.draws → (∃ c, g.Sound w unit c) ∧ P g.ledger.entries

variable {P : List LedgerEntry → Prop}

theorem Upholds.keep (h : g.Upholds w unit P) (hk : g.Keeps g') : g'.Upholds w unit P := by
  intro distinct
  obtain ⟨⟨c, hc⟩, hP⟩ := h (distinct.mono hk.draws)
  exact ⟨⟨c, hc.keep hk⟩, hk.ledger ▸ hP⟩

/-- What every unit of work keeps, an instruction keeps. -/
theorem Upholds.advance (hm : Maintained w unit P) (h : g.Upholds w unit P)
    (ha : g.Advances w g') : g'.Upholds w unit P := by
  intro distinct
  obtain ⟨⟨c, hc⟩, hP⟩ := h (distinct.mono ha.handled.draws)
  refine ⟨hc.handled ha.handled distinct, ?_⟩
  cases ha with
  | keep keeps => exact keeps.ledger ▸ hP
  | commit body call result a p run wrote =>
    have hfollows := Staging.run_follows hc.begin body
    rw [run] at hfollows
    rw [draws_commit] at distinct
    obtain ⟨c', hc'⟩ := hfollows distinct
    have hnew := hm g c c' p hc wrote hc' hP
    rw [ledger_commit]
    split_ifs with hnone
    · exact hP
    · exact hnew

theorem Upholds.run (hworks : Writes w works) (hm : Maintained w unit P) (h : g.Upholds w unit P)
    {op : Op α} {Q : Except Exception α → Governor → Prop} (hop : Meets w works Q op g) :
    (op.run (handle w) g).2.Upholds w unit P :=
  Program.run_keeps (fun _ _ _ hasks hu => Upholds.advance hm hu (advances_of_asks hworks hasks))
    (Program.Meets.allowed hop) h

/-- What every unit of work keeps, a trip in its own unit of work keeps. -/
theorem Upholds.trip (hm : Maintained w unit P) (h : g.Upholds w unit P) (scope reason : Text) :
    ((Op.trip scope reason).run (handle w) g).2.Upholds w unit P := by
  rw [run_trip]
  split_ifs
  · exact h
  · rcases hr : (Staging.trip scope reason).run (stage w) g.begin with ⟨e | r, p⟩
    · have hdraws := Staging.run_draws w (Staging.trip scope reason) g.begin
      rw [hr] at hdraws
      exact h.keep ⟨rfl, rfl, rfl, rfl, hdraws⟩
    · have hcommit : (g.commit p none).Upholds w unit P :=
        Upholds.advance hm h (.commit (Staging.trip scope reason) none (fun _ => none) r p hr
          (wrote_trip hr))
      exact hcommit.keep ⟨rfl, rfl, rfl, rfl, Nat.le_refl _⟩

theorem Upholds.retrip (hm : Maintained w unit P) (h : g.Upholds w unit P)
    (trips : List (Text × Text)) : (g.retrip w trips).Upholds w unit P := by
  induction trips generalizing g with
  | nil => exact h
  | cons trip rest ih =>
    exact ih ((h.trip hm trip.1 trip.2).keep ⟨rfl, rfl, rfl, rfl, Nat.le_refl _⟩)

/-- What every unit of work keeps, a call keeps. -/
theorem Upholds.perform (hm : Maintained w unit P) (h : g.Upholds w unit P)
    (hg : g.Orderly w unit) (m : Mutation) : (g.perform w m).2.Upholds w unit P := by
  intro distinct
  have hkept := (hg (distinct.mono (perform_draws g m))).2
  exact Upholds.run (fun hwork hr => hwork.wrote hr) hm h (hkept.meets w m) distinct

/-- What differs only in what its unit of work remembers, and in its trips, upholds the same. -/
theorem Upholds.same {u : Governor} (h : g.Upholds w unit P) (hbare : g.bare = u.bare) :
    u.Upholds w unit P := by
  refine h.keep ⟨?_, ?_, ?_, ?_, ?_⟩
  · exact (congrArg Governor.ledger hbare).symm
  · exact (congrArg Governor.keys hbare).symm
  · exact (congrArg Governor.policy hbare).symm
  · exact (congrArg Governor.store hbare).symm
  · exact (congrArg Governor.draws hbare).le

theorem Goes.upholds (hm : Maintained w unit P) {turns : List Turn} (hgoes : Goes w g turns t)
    (h : g.Upholds w unit P) (hg : g.Orderly w unit) : t.Upholds w unit P := by
  induction hgoes with
  | stay hbare kept => exact h.same hbare
  | turn hbare kept rest ih =>
    have hu := Onward.same hg hbare kept
    exact ih ((h.same hbare).perform hm hu.orderly _) (Onward.perform hu.orderly _).orderly

/-- What every unit of work keeps, an order keeps. -/
theorem Upholds.serve (hm : Maintained w unit P) {o : Order} (h : g.Upholds w unit P)
    (hg : g.Orderly w unit) (hs : g.serve w o = .ok t) : t.Upholds w unit P := by
  cases hstands : g.stands w o with
  | true => exact (serve_stands hs hstands).upholds hm h hg
  | false =>
    obtain ⟨u, hgoes, -, -, hreverts⟩ := serve_goes hs
    obtain ⟨hcalls, hcache, back, trips, hback, rfl⟩ := hreverts hstands
    refine Upholds.retrip hm (fun distinct => ?_) trips
    obtain ⟨hundone, hord⟩ := hg.undone hgoes hback distinct hcalls hcache
    refine ⟨(hord distinct).1, ?_⟩
    rw [hundone.entries]
    rw [rollBackUnit_draws hback] at distinct
    exact (h (distinct.mono (hgoes.onward hg).draws)).2

theorem Upholds.serveAll (hm : Maintained w unit P) {orders : List Order}
    (h : g.Upholds w unit P) (hg : g.Orderly w unit) (hs : g.serveAll w orders = .ok t) :
    t.Upholds w unit P := by
  induction orders generalizing g with
  | nil =>
    cases hs
    exact h
  | cons o rest ih =>
    obtain ⟨u, hu, hs⟩ := bind_eq_ok.mp hs
    exact ih (h.serve hm hg hu) (hg.serve hu) hs

/-- What every unit of work keeps holds of the history of every run of a new governor. -/
theorem serveAll_maintains (hm : Maintained w unit P) (nil : P []) {policy : GovernancePolicy}
    {store : Bool} {orders : List Order}
    (hs : (Governor.new unit policy store).serveAll w orders = .ok t)
    (distinct : w.Distinct t.draws) : (∃ c, t.Sound w unit c) ∧ P t.ledger.entries :=
  Upholds.serveAll hm (fun _ => ⟨⟨_, .new w unit policy store⟩, nil⟩) (.new w unit policy store) hs
    distinct

end Governor

end AgentGov
