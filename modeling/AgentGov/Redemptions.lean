import AgentGov.Calls

/-!
# Settlement claims and their redemption

A caller's own transaction may owe the ledger: a settlement claim is committed with it, and booked
into the chain afterwards. Redemption releases the hold placed for the claim, where it is still
open, and posts the spend, each claim in a unit of work of its own; a claim of nothing for which no
hold is open becomes an anchor (`src/src/agentgov/core.py`, lines 2538–2562 and 5279–5356).

## Main definitions

* `AgentGov.SettlementClaim`: a debt to the ledger.
* `AgentGov.Op.redeem`: the pending claims booked, or one of them.
* `AgentGov.Op.Booking`: what the unit of work that books a claim posts.

## Main results

* `AgentGov.Op.booking_ok`: a claim booked.
* `AgentGov.Governor.meets_redeem`: a redemption commits bookings and records no call.
-/

open Foundation

namespace AgentGov

/-- `SettlementClaim`: a debt a caller's transaction owes the ledger, committed with it. -/
structure SettlementClaim where
  claimId : UUID
  holdId : Option UUID
  scopeId : Text
  amount : Decimal
  memo : Text
  /-- What is owed was coerced when it was claimed. -/
  counted : amount.value?.isSome
deriving DecidableEq

namespace Op

/-! ### Redeeming -/

/-- The reason of a trip for a claim settled above what was left. -/
def overdrewReason (claim : SettlementClaim) (balance : Value) : Text :=
  txt "settled claim " ++ decimalText claim.amount ++ txt " overdrew the scope by " ++
    valueText (-balance)

/-- The lines a claim is booked by: the release of its hold, where it is open, and the spend. -/
def claimLines (claim : SettlementClaim) (hold : Option Authorization) : List LedgerLine :=
  (match hold with
    | none => []
    | some a => [line .holdVoid .credit claim.scopeId a.amount none
        (txt "authorization captured by settlement claim") (some a.entry.entryId)]) ++
    if 0 < claim.amount.worth then
      [line .spend .debit claim.scopeId claim.amount none claim.memo
        (hold.map fun a => a.entry.entryId)]
    else []

/-- The trip of a scope that settling a claim overdraws or, against an open hold, exhausts. -/
def tripSettled (tripOnExhaustion : Bool) (claim : SettlementClaim) (hold : Option Authorization)
    (settling : LedgerEntry) : Staging LedgerEntry := do
  let balance := settling.balanceAfter.worth
  if balance < 0 then do
    let _ ← Staging.trip claim.scopeId (overdrewReason claim balance)
    pure settling
  else if hold.isSome then do
    if ← Staging.exhausted tripOnExhaustion claim.scopeId then do
      let _ ← Staging.trip claim.scopeId (txt "spend envelope exhausted")
      pure settling
    else pure settling
  else pure settling

/-- What `_redeem_locked` does with its unit of work. -/
def booking (tripOnExhaustion : Bool) (claim : SettlementClaim) (hold : Option Authorization) :
    Staging LedgerEntry := do
  if claim.amount.worth = 0 ∧ hold.isNone then
    Staging.post₁ (Staging.event .anchor claim.scopeId claim.memo)
  else do
    match (← Program.instr (.post (claimLines claim hold))).getLast? with
    | none => Program.raise (.value .noLines)
    | some settling => tripSettled tripOnExhaustion claim hold settling

/-- `_redeem_locked`: book one claim. -/
def redeemLocked (claim : SettlementClaim) : Op LedgerEntry := do
  let _ ← requireNode claim.scopeId
  let ledger ← served
  let hold := claim.holdId.bind ledger.openAuths.get?
  commit (booking (← Program.instr .policy).tripOnExhaustion claim hold)

/-- Book claims in order. -/
def redeemEach : List SettlementClaim → Op (List LedgerEntry)
  | [] => pure []
  | claim :: rest => do
    let settling ← redeemLocked claim
    pure (settling :: (← redeemEach rest))

/-- `redeem`, of all the claims pending in the store, or of one. -/
def redeem (pending : List SettlementClaim) (claim : Option SettlementClaim) :
    Op (List LedgerEntry) := do
  mutating
  redeemEach (match claim with
    | none => pending
    | some claim => pending.filter fun c => c.claimId = claim.claimId)

/-- The lines of a claim release a hold of its scope, and spend. -/
theorem mem_claimLines {claim : SettlementClaim} {hold : Option Authorization}
    {l : LedgerLine} (h : l ∈ claimLines claim hold) : l.scopeId = claim.scopeId ∧
      (l.entryType = .holdVoid ∧ l.direction = .credit ∨
        l.entryType = .spend ∧ l.direction = .debit) := by
  unfold claimLines at h
  rw [List.mem_append] at h
  rcases h with h | h
  · cases hold with
    | none => exact (List.not_mem_nil h).elim
    | some a =>
      obtain rfl := List.mem_singleton.mp h
      exact ⟨rfl, Or.inl ⟨rfl, rfl⟩⟩
  · split_ifs at h
    · obtain rfl := List.mem_singleton.mp h
      exact ⟨rfl, Or.inr ⟨rfl, rfl⟩⟩
    · exact (List.not_mem_nil h).elim

/-! ### What a booking posts -/

/-- What booking a claim posts: an anchor, or the lines of the claim, and then a trip of the scope
they have overdrawn or exhausted, unless that is latched. -/
inductive Booking (w : World) (claim : SettlementClaim) (hold : Option Authorization) (p : Pending)
    (e : LedgerEntry) (p' : Pending) : Prop
  | anchored (posted : Posted w p [Staging.event .anchor claim.scopeId claim.memo] [e] p')
  | settled (es : List LedgerEntry) (posted : Posted w p (claimLines claim hold) es p')
      (last : es.getLast? = some e)
      (latched : e.balanceAfter.worth < 0 → (p'.view.tripOf claim.scopeId).isSome)
  | tripped (es : List LedgerEntry) (trip : LedgerEntry) (reason : Text) (p₁ : Pending)
      (posted : Posted w p (claimLines claim hold) es p₁) (last : es.getLast? = some e)
      (trips : Posted w p₁ [Staging.event .circuitTripped claim.scopeId reason] [trip] p')

/-- The trip a booking may cause is staged, unless the scope is latched. -/
theorem tripSettled_ok {w : World} {p₁ p' : Pending} {tripOnExhaustion : Bool}
    {claim : SettlementClaim} {hold : Option Authorization} {settling e : LedgerEntry}
    (h : (tripSettled tripOnExhaustion claim hold settling).run (stage w) p₁ = (.ok e, p')) :
    e = settling ∧ (p' = p₁ ∧
        (settling.balanceAfter.worth < 0 → (p₁.view.tripOf claim.scopeId).isSome) ∨
      ∃ x reason, Posted w p₁ [Staging.event .circuitTripped claim.scopeId reason] [x] p') := by
  have trips (reason : Text) (hr : (Staging.trip claim.scopeId reason >>= fun _ =>
      pure settling).run (stage w) p₁ = (.ok e, p')) : e = settling ∧ (p' = p₁ ∧
        (settling.balanceAfter.worth < 0 → (p₁.view.tripOf claim.scopeId).isSome) ∨
      ∃ x reason, Posted w p₁ [Staging.event .circuitTripped claim.scopeId reason] [x] p') := by
    rw [Program.run_bind] at hr
    rcases ht : (Staging.trip claim.scopeId reason).run (stage w) p₁ with ⟨err | r, p₂⟩ <;>
      rw [ht] at hr
    · cases hr
    · cases hr
      rcases Staging.trip_ok ht with ⟨-, rfl, hlatched⟩ | ⟨x, -, -, hx⟩
      · exact ⟨rfl, Or.inl ⟨rfl, fun _ => hlatched⟩⟩
      · exact ⟨rfl, Or.inr ⟨x, reason, hx⟩⟩
  unfold tripSettled at h
  dsimp only at h
  by_cases hneg : settling.balanceAfter.worth < 0
  · rw [if_pos hneg] at h
    exact trips _ h
  · rw [if_neg hneg] at h
    split_ifs at h
    · rw [Program.run_bind] at h
      rcases hx : (Staging.exhausted tripOnExhaustion claim.scopeId).run (stage w) p₁
        with ⟨err | x, p₂⟩ <;> rw [hx] at h
      · cases h
      · obtain rfl : p₂ = p₁ := (congrArg Prod.snd hx).symm
        rw [Program.proceed_ok] at h
        cases x with
        | true => exact trips _ h
        | false =>
          cases h
          exact ⟨rfl, Or.inl ⟨rfl, fun hlt => absurd hlt hneg⟩⟩
    · cases h
      exact ⟨rfl, Or.inl ⟨rfl, fun hlt => absurd hlt hneg⟩⟩

theorem booking_ok {w : World} {p p' : Pending} {tripOnExhaustion : Bool}
    {claim : SettlementClaim} {hold : Option Authorization} {e : LedgerEntry}
    (h : (booking tripOnExhaustion claim hold).run (stage w) p = (.ok e, p')) :
    Booking w claim hold p e p' := by
  unfold booking at h
  split_ifs at h with hzero
  · exact .anchored (Staging.post₁_ok h)
  · rw [Program.instr_bind, Program.run_perform] at h
    rcases stage_post w (claimLines claim hold) p with ⟨es, p₁, posted, hs⟩ | ⟨err, hs⟩ <;>
      rw [hs] at h
    · rw [Program.proceed_ok] at h
      cases hlast : es.getLast? with
      | none => exact absurd (List.getLast?_eq_none_iff.mp hlast) posted.ne_nil
      | some settling =>
        simp only [hlast] at h
        obtain ⟨rfl, ⟨rfl, hlatched⟩ | ⟨x, reason, hx⟩⟩ := tripSettled_ok h
        · exact .settled es posted hlast hlatched
        · exact .tripped es x reason p₁ posted hlast hx
    · cases h

end Op

/-! ### What a redemption comes to -/

namespace Governor

variable {w : World} {g : Governor}

/-- The units of work a redemption commits: the booking of a claim whose scope is known, its hold
looked up in what is open. -/
inductive Books (g : Governor) :
    {α : Type} → Staging α → Option Call → (α → Option LedgerEntry) → Prop
  | claim (tripOnExhaustion : Bool) (claim : SettlementClaim) (n : BudgetNode)
      (known : g.ledger.state.nodes.get? claim.scopeId = some n) :
      Books g (Op.booking tripOnExhaustion claim (claim.holdId.bind g.ledger.openAuths.get?))
        none fun _ => none

theorem meets_redeemEach {Q : Except Exception (List LedgerEntry) → Governor → Prop}
    (claims : List SettlementClaim) (hQ : ∀ r t, g.Idle t → Q r t) :
    Meets w Books Q (Op.redeemEach claims) g := by
  induction claims generalizing g Q with
  | nil => exact hQ _ _ (.refl g)
  | cons claim rest ih =>
    have hraise (e : Exception) : Q (.error e) g := hQ _ _ (.refl g)
    rw [Op.redeemEach, Op.redeemLocked, bind_assoc, meets_requireNode_bind hraise]
    intro n known
    rw [bind_assoc, meets_served_bind, bind_assoc, meets_policy_bind]
    refine meets_commit_bind (.claim _ claim n known) (fun e n => hQ _ _ (idle_draws g n))
      fun e p _ => ?_
    have hidle := idle_commit g p
    refine Program.meets_bind.mpr (ih fun r t ht => ?_)
    cases r with
    | ok es => exact hQ _ _ (hidle.trans ht)
    | error e => exact hQ _ _ (hidle.trans ht)

/-- A redemption commits bookings, and records no call. -/
theorem meets_redeem {Q : Except Exception (List LedgerEntry) → Governor → Prop}
    (pending : List SettlementClaim) (claim : Option SettlementClaim)
    (hQ : ∀ r t, g.Idle t → Q r t) : Meets w Books Q (Op.redeem pending claim) g := by
  unfold Op.redeem
  rw [meets_mutating_bind]
  exact meets_redeemEach _ hQ

end Governor

end AgentGov
