import AgentGov.Guards

/-!
# What a call comes to

Every operation is followed through its checks to the unit of work it commits. A call under no key
records nothing; a call under a key that was not used either is refused, and nothing is recorded of
it, or is performed, and recorded together with its entries.

## Main results

* `AgentGov.Governor.meets_release`, …: the operations that take no key record no call.
* `AgentGov.Governor.meets_placeHold`, `AgentGov.Governor.meets_settle`: what holds and settlements
  come to, under a key or not.
-/

open Foundation

namespace AgentGov

namespace Governor

variable {w : World} {g : Governor} {α : Type} {Q : Except Exception α → Governor → Prop}

/-! ### The breaker -/

theorem countCall_idle (w : World) (g : Governor) (scope : Text) :
    g.Idle (g.countCall w scope).2 := by
  have hgrows : g.ledger.entries <+: g.ledger.entries := List.prefix_rfl
  unfold countCall countFleet countOwn
  split_ifs
  · exact .refl g
  · cases Op.cutoff (w.now g.draws) (some g.policy.window.micros) with
    | error e => exact ⟨rfl, rfl, rfl, rfl, rfl, hgrows⟩
    | ok since =>
      dsimp only
      split_ifs <;> exact ⟨rfl, rfl, rfl, rfl, rfl, hgrows⟩
  · dsimp only
    split_ifs <;> exact ⟨rfl, rfl, rfl, rfl, rfl, hgrows⟩

@[simp] theorem meets_noteTrip_bind {scope reason : Text} {f : PUnit → Op α} :
    Meets w Work Q (Program.instr (.noteTrip scope reason) >>= f) g ↔
      Meets w Work Q (f ⟨⟩) { g with trips := g.trips.map fun l => l ++ [(scope, reason)] } :=
  meets_reply rfl trivial

@[simp] theorem meets_forgetVelocity_bind {scope : Text} {f : PUnit → Op α} :
    Meets w Work Q (Program.instr (.forgetVelocity scope) >>= f) g ↔
      Meets w Work Q (f ⟨⟩) { g with
        velocity := if (g.velocity.get? scope).isSome then g.velocity.set scope []
          else g.velocity } :=
  meets_reply rfl trivial

/-- A trip committed leaves a trip, unless the scope is latched. -/
theorem leaves_trip {scope reason : Text} {r : Option LedgerEntry} {p : Pending}
    (hr : (Staging.trip scope reason).run (stage w) g.begin = (.ok r, p)) :
    g.Leaves [.circuitTripped] (g.commit p none) := by
  refine leaves_commit fun e he => ?_
  rcases Staging.trip_ok hr with ⟨-, rfl, -⟩ | ⟨x, -, -, posted⟩
  · exact (List.not_mem_nil he).elim
  · obtain rfl := List.mem_singleton.mp (posted.entries_begin ▸ he)
    exact List.mem_singleton.mpr (List.forall₂_cons.mp posted.records).1.kind

/-- A trip in its own unit of work leaves a trip, unless the scope is latched. -/
theorem meets_trip_bind {f : PUnit → Op α} {scope reason : Text} {n : BudgetNode}
    (known : g.ledger.state.nodes.get? scope = some n)
    (hraise : ∀ e t, g.Leaves [.circuitTripped] t → Q (.error e) t)
    (h : ∀ t, g.Leaves [.circuitTripped] t → Meets w Work Q (f ⟨⟩) t) :
    Meets w Work Q (Op.trip scope reason >>= f) g := by
  rw [Op.trip, bind_assoc, meets_served_bind]
  split_ifs with htrip
  · exact h g (.refl _ g)
  · rw [bind_assoc]
    refine meets_commit_bind (.trip scope reason n known (by simpa using htrip))
      (fun e n => hraise e _ (leaves_draws g n _)) fun r p hr => ?_
    have hleaves := leaves_trip hr
    exact meets_noteTrip_bind.mpr (h _ { hleaves with })

/-- An authorization is counted, and trips a scope called too often. -/
theorem meets_recordVelocity_bind {f : PUnit → Op α} {scope : Text} {n : BudgetNode}
    (known : g.ledger.state.nodes.get? scope = some n)
    (hraise : ∀ e t, g.Leaves [.circuitTripped] t → Q (.error e) t)
    (h : ∀ t, g.Keeps t → g.Idle t → Meets w Work Q (f ⟨⟩) t) :
    Meets w Work Q (Op.recordVelocity scope >>= f) g := by
  rw [Op.recordVelocity, bind_assoc]
  have hkeeps := countCall_keeps w g scope
  have hidle := countCall_idle w g scope
  refine Program.meets_perform.mpr ⟨trivial, fun r t hr => ?_, fun e t hr => ?_⟩
  · rw [show g.countCall w scope = (.ok r, t) from hr] at hkeeps hidle
    cases r with
    | none => exact h t hkeeps hidle
    | some r =>
      have hleaves := hidle.leaves hkeeps.ledger [.circuitTripped]
      change Meets w Work Q ((do
        Op.trip scope (Op.runawayReason (← Program.instr .policy) r)
        Program.raise (.runawayLoopDetected scope r.count) : Op PUnit) >>= f) t
      rw [bind_assoc, meets_policy_bind, bind_assoc]
      refine meets_trip_bind (hkeeps.ledger ▸ known)
        (fun e u hu => hraise e u (hleaves.trans hu)) fun u hu => ?_
      exact hraise _ u (hleaves.trans hu)
  · rw [show g.countCall w scope = (.error e, t) from hr] at hkeeps hidle
    exact hraise e t (hidle.leaves hkeeps.ledger _)

/-! ### Operations that take no key -/

section Plain

variable {Q : Except Exception Answer → Governor → Prop} (hQ : ∀ r t, g.Idle t → Q r t)

include hQ

theorem meets_openRoot (scope : Text) (envelope : AmountArg) (memo : Text) :
    Meets w Work Q (Op.openRoot scope envelope memo) g := by
  have hraise (e : Exception) : Q (.error e) g := hQ _ _ (.refl g)
  simp only [Op.openRoot, meets_unit_bind, meets_lift_bind hraise, meets_argument_bind hraise,
    meets_mutating_bind, meets_served_bind, meets_check_bind hraise]
  intro amount _ _ named new
  refine meets_commit_bind (.openRoot scope amount _ named (by simpa using new))
    (fun _ n => hQ _ _ (idle_draws g n)) fun e p _ => ?_
  have hidle := idle_commit g p
  rw [Op.createdNode, meets_requireNode_bind fun _ => hQ _ _ hidle]
  exact fun _ _ => hQ _ _ hidle

theorem meets_release (scope : Text) (amount : Option AmountArg) (memo : Text) :
    Meets w Work Q (Op.release scope amount memo) g := by
  have hraise (e : Exception) : Q (.error e) g := hQ _ _ (.refl g)
  simp only [Op.release, meets_mutating_bind, meets_requireNode_bind hraise]
  intro n known
  cases hparent : n.parentId with
  | none => exact hraise _
  | some parent =>
    have returns (returned : Decimal) : Meets w Work Q
        (if returned.worth ≤ 0 then pure (Answer.returned (Decimal.ofInt 0))
        else do
          Op.argument (¬g.ledger.state.balance scope < returned.worth)
            (.releasesTooMuch returned scope (g.ledger.state.balance scope))
          Op.commit (Op.releasing scope parent returned memo)
          pure (Answer.returned returned)) g := by
      split_ifs
      · exact hQ _ _ (.refl g)
      · rw [meets_argument_bind hraise]
        intro covered
        exact meets_commit_bind (.release scope parent returned memo n known hparent covered)
          (fun _ n => hQ _ _ (idle_draws g n)) fun _ p _ => hQ _ _ (idle_commit g p)
    dsimp only
    rw [meets_served_bind]
    cases amount with
    | none => exact returns _
    | some amount =>
      dsimp only
      rw [meets_lift_bind hraise]
      exact fun returned _ => returns returned

theorem meets_anchor (scope memo : Text) : Meets w Work Q (Op.anchor scope memo) g := by
  have hraise (e : Exception) : Q (.error e) g := hQ _ _ (.refl g)
  simp only [Op.anchor, meets_argument_bind hraise, meets_mutating_bind,
    meets_requireNode_bind hraise]
  intro _ n known
  exact meets_commit_bind (.anchor scope memo n known) (fun _ n => hQ _ _ (idle_draws g n))
    fun _ p _ => hQ _ _ (idle_commit g p)

theorem meets_tripByHand (scope reason : Text) :
    Meets w Work Q (Op.tripByHand scope reason) g := by
  have hraise (e : Exception) : Q (.error e) g := hQ _ _ (.refl g)
  simp only [Op.tripByHand, meets_mutating_bind, meets_requireNode_bind hraise]
  intro n known
  exact meets_trip_bind known (fun _ _ ht => hQ _ _ ht.toIdle) fun _ ht => hQ _ _ ht.toIdle

theorem meets_reset (scope memo : Text) : Meets w Work Q (Op.reset scope memo) g := by
  have hraise (e : Exception) : Q (.error e) g := hQ _ _ (.refl g)
  simp only [Op.reset, meets_argument_bind hraise, meets_mutating_bind,
    meets_requireNode_bind hraise, meets_served_bind]
  intro _ n known
  split_ifs with htrip
  · exact hQ _ _ (.refl g)
  · refine meets_commit_bind (.reset scope memo n known ?_)
      (fun _ n => hQ _ _ (idle_draws g n)) fun _ p _ => ?_
    · simpa [Option.isSome_iff_ne_none] using htrip
    · have hidle := idle_commit g p
      exact meets_forgetVelocity_bind.mpr (hQ _ _ { hidle with })

omit hQ in
/-- The holds released by an operator, one unit of work each. -/
theorem meets_voidEach_bind {f : List Authorization → Op Answer} (note : Text)
    (stale : List Authorization) (hraise : ∀ e t, g.Idle t → Q (.error e) t)
    (h : ∀ voided t, g.Idle t → Meets w Work Q (f voided) t) :
    Meets w Work Q (Op.voidEach note stale >>= f) g := by
  induction stale generalizing g f with
  | nil => exact h [] g (.refl g)
  | cons a rest ih =>
    rw [Op.voidEach, bind_assoc, meets_mutating_bind, bind_assoc, meets_served_bind]
    split_ifs with hopen
    · exact ih hraise h
    · rw [bind_assoc, Op.voidLocked, bind_assoc]
      refine meets_commitFor_bind (.void a note none ?_ fun c hc => by cases hc)
        (fun e n => hraise e _ (idle_draws g n)) fun e p _ => ?_
      · simpa [Option.isSome_iff_ne_none] using hopen
      · have hidle := idle_commit g p
        rw [meets_answered_bind, bind_assoc]
        exact ih (fun e t ht => hraise e t (hidle.trans ht))
          fun voided t ht => h (a :: voided) t (hidle.trans ht)

theorem meets_voidStale (olderThan : Option ℤ) (scope : Option Text) (memo : Text) :
    Meets w Work Q (Op.voidStale olderThan scope memo) g := by
  set t : Governor := { g with draws := g.draws + 1 } with ht
  have hidle : g.Idle t := idle_draws g _
  have hraise (e : Exception) : Q (.error e) t := hQ _ _ hidle
  rw [Op.voidStale, Op.staleAuthorizations, bind_assoc, meets_now_bind, bind_assoc,
    meets_ofExcept_bind hraise]
  intro since _
  have rest : Meets w Work Q ((do
      pure (Op.Ledger.staleSince (← Op.served) since scope) : Op (List Authorization)) >>=
        fun stale => Op.voidEach (orElse memo (txt "stale hold released by operator")) stale >>=
          fun voided => pure (Answer.voided voided)) t := by
    rw [bind_assoc, meets_served_bind, pure_bind]
    exact meets_voidEach_bind _ _ (fun _ u hu => hQ _ _ (hidle.trans hu))
      fun _ u hu => hQ _ _ (hidle.trans hu)
  cases scope with
  | none => exact rest
  | some s =>
    rw [bind_assoc, bind_assoc, meets_requireNode_bind hraise]
    exact fun n _ => rest

end Plain

/-! ### Operations that take a key -/

/-- A call that is performed by a hold. -/
theorem recorded_hold {p : Pending} {call : Option Call} {e : LedgerEntry} (he : e ∈ p.entries)
    (kind : e.entryType = .hold) (outcome : ∀ c, call = some c → c.outcome = .authorization) :
    g.Recorded call (.authorization (authorizationFor e))
      ((g.commit p (call.map fun c => (c, e))).answered call
        (.authorization (authorizationFor e))) := by
  refine recorded_commit he fun c hc => ?_
  rw [answerIn, show (record c e).outcome = c.outcome from rfl, outcome c hc]
  exact if_pos kind

/-- A call that returns its entry. -/
theorem recorded_entry {p : Pending} {call : Option Call} {e : LedgerEntry} (he : e ∈ p.entries)
    (outcome : ∀ c, call = some c → c.outcome = .entry) :
    g.Recorded call (.entry e)
      ((g.commit p (call.map fun c => (c, e))).answered call (.entry e)) := by
  refine recorded_commit he fun c hc => ?_
  rw [answerIn, show (record c e).outcome = c.outcome from rfl, outcome c hc]

section Keyed

variable {Q : Except Exception Answer → Governor → Prop} {call : Option Call}

/-- A hold is placed, or refused with a trip at most. -/
theorem meets_placeHold_bind {f : Answer → Op Answer} (scope : Text) (held : Decimal) (memo : Text)
    (trips : Bool) (unused : g.Unused call)
    (outcome : ∀ c, call = some c → c.outcome = .authorization)
    (hraise : ∀ e t, g.Leaves [.circuitTripped] t → Q (.error e) t)
    (hrefused : ∀ t, g.Leaves [.circuitTripped] t → Meets w Work Q (f .refused) t)
    (h : ∀ e t, g.Recorded call (.authorization (authorizationFor e)) t →
      (call = none → g.Leaves [.hold] t) →
      Meets w Work Q (f (.authorization (authorizationFor e))) t) :
    Meets w Work Q (Op.placeHold scope held memo trips call >>= f) g := by
  have hraise₀ (e : Exception) : Q (.error e) g := hraise e g (.refl _ g)
  rw [Op.placeHold, bind_assoc, meets_requireNode_bind hraise₀]
  intro n known
  rw [bind_assoc, meets_assertNotHalted_bind hraise₀]
  intro active
  rw [bind_assoc]
  refine meets_recordVelocity_bind known hraise fun t hkeeps hidle => ?_
  have hleaves := hidle.leaves hkeeps.ledger [.circuitTripped]
  rw [bind_assoc, meets_served_bind]
  dsimp only
  by_cases hshort : t.ledger.state.balance scope < held.worth
  · rw [if_pos hshort]
    split_ifs
    · exact hrefused t hleaves
    · rw [bind_assoc, meets_policy_bind]
      split_ifs
      · exact hraise _ t hleaves
      · rw [bind_assoc]
        exact meets_trip_bind (hkeeps.ledger ▸ known)
          (fun e u hu => hraise e u (hleaves.trans hu)) fun u hu => hraise _ u (hleaves.trans hu)
  · rw [if_neg hshort, bind_assoc]
    refine meets_commitFor_bind (.hold scope held _ call n (hkeeps.ledger ▸ known) ?_ hshort
      (hidle.unused unused)) (fun e n => hraise e _ (hleaves.trans (leaves_draws t n _)))
      fun e p hp => ?_
    · rw [Active, hkeeps.ledger]
      exact active
    · have posted := Staging.post₁_ok hp
      have hentries : p.entries = [e] := posted.entries
      have kind : e.entryType = .hold := (List.forall₂_cons.mp posted.records).1.kind
      rw [meets_answered_bind]
      refine h e _ (hidle.recorded (recorded_hold (by simp [hentries]) kind outcome)) ?_
      rintro rfl
      refine (hidle.leaves hkeeps.ledger [.hold]).trans (leaves_commit fun x hx => ?_)
      rw [hentries, List.mem_singleton] at hx
      simp [hx, kind]

theorem meets_placeHold (scope : Text) (held : Decimal) (memo : Text)
    (trips : Bool) (unused : g.Unused call)
    (outcome : ∀ c, call = some c → c.outcome = .authorization) :
    Meets w Work (g.Settled [.circuitTripped] call) (Op.placeHold scope held memo trips call) g := by
  rw [← bind_pure (Op.placeHold scope held memo trips call)]
  exact meets_placeHold_bind scope held memo trips unused outcome (fun e _ ht => ht.raised e)
    (fun _ ht => .refused (Or.inl rfl) ht) fun _ _ ht _ => .performed _ (Or.inl rfl) ht

/-- The release of a hold as the work of a call. -/
theorem meets_voidLocked (a : Authorization) (memo : Text)
    (opened : (g.ledger.openAuths.get? a.authorizationId).isSome) (unused : g.Unused call)
    (outcome : ∀ c, call = some c → c.outcome = .entry) (kinds : List EntryType) :
    Meets w Work (g.Settled kinds call) (Op.voidLocked a memo call) g := by
  rw [Op.voidLocked]
  refine meets_commitFor_bind (.void a memo call opened unused)
    (fun e n => (leaves_draws g n _).raised e) fun e p hp => ?_
  have hentries : p.entries = [e] := (Staging.post₁_ok hp).entries
  exact meets_answered.mpr (.performed _ (Or.inl rfl)
    (recorded_entry (by simp [hentries]) outcome))

theorem meets_requireOpenAuthorization_bind {a : Authorization} {f : PUnit → Op α}
    {Q : Except Exception α → Governor → Prop} (hraise : ∀ e, Q (.error e) g) :
    Meets w Work Q (Op.requireOpenAuthorization a >>= f) g ↔
      ((g.ledger.openAuths.get? a.authorizationId).isSome → Meets w Work Q (f ⟨⟩) g) := by
  rw [Op.requireOpenAuthorization, bind_assoc, meets_served_bind, meets_check_bind hraise]

/-- A settlement of a call. -/
theorem meets_settle (a : Authorization) (settled : Decimal) (memo : Text) (unused : g.Unused call)
    (outcome : ∀ c, call = some c → c.outcome = .entry) (kinds : List EntryType) :
    Meets w Work (g.Settled kinds call) (Op.settle a settled memo call) g := by
  have hraise (e : Exception) : g.Settled kinds call (.error e) g := (Leaves.refl _ g).raised e
  rw [Op.settle, meets_requireOpenAuthorization_bind hraise]
  intro opened
  split_ifs
  · exact meets_voidLocked a _ opened unused outcome kinds
  · rw [meets_policy_bind]
    refine meets_commitFor_bind (.settle a settled memo call opened unused)
      (fun e n => (leaves_draws g n _).raised e) fun e p hp => ?_
    have he : e ∈ p.entries := by
      cases Op.settlement_ok hp with
      | settled release note pair latched => simp [pair.entries]
      | tripped release trip note reason p₁ pair trips reasons =>
        rw [trips.entries, pair.entries]
        simp
    have hrecorded := recorded_entry (g := g) he outcome
    rw [meets_answered_bind]
    have raised (e' : Exception) : g.Settled kinds call (.error e') _ :=
      .performed _ (Or.inr ⟨e', rfl⟩) hrecorded
    split_ifs
    · rw [meets_lift_bind raised]
      exact fun _ _ => raised _
    · exact .performed _ (Or.inl rfl) hrecorded

end Keyed

end Governor

end AgentGov
