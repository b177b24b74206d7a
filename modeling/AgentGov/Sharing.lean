import AgentGov.Recorded

/-!
# Calls that share a unit of work

The calls of a transaction or of a group share one unit of work: what was looked up of the records
and what the calls made in it returned is remembered until its end. What each call returns and does
is what it would return and do in a unit of its own.

## Main definitions

* `AgentGov.Governor.bare`: a governor apart from what its unit of work remembers.

## Main results

* `AgentGov.Governor.handle_bare`: an instruction reads nothing of what a unit remembers, but for
  the lookup of a key.
* `AgentGov.Governor.perform_bare`: a call returns and does the same whatever was called before it
  in its unit.
-/

open Foundation

namespace AgentGov

variable {w : World} {unit : Unit} {c c' : Chain} {g t : Governor} {m : Mutation}

/-- A call that may be under no key looks none up. -/
theorem Op.only_keyless {unit : Unit} {m : Mutation} (h : m.asked unit = none) :
    m.program.Only Instr.Keyless := by
  cases m with
  | openRoot scope envelope memo => exact only_openRoot Instr.keyless _ _ _
  | release scope amount memo => exact only_release Instr.keyless _ _ _
  | anchor scope memo => exact only_anchor Instr.keyless _ _
  | voidStale olderThan scope memo => exact only_voidStale Instr.keyless _ _ _
  | trip scope reason => exact only_tripByHand Instr.keyless Instr.keyless_noteTrip _ _
  | reset scope memo => exact only_reset Instr.keyless _ _ (fun _ _ => trivial) trivial
  | fund | delegate | authorize | tryAuthorize | capture | void | spend | refund => cases h

namespace Governor

/-! ### What a unit of work remembers -/

/-- A governor apart from what its unit of work remembers. -/
def bare (g : Governor) : Governor := { g with unitCalls := ∅, keyCache := ∅, trips := none }

theorem bare_bare (g : Governor) : g.bare.bare = g.bare := rfl

theorem bare_leave (g : Governor) : g.leave.bare = g.bare := rfl

theorem bare_commit (p : Pending) (call : Option (Call × LedgerEntry)) :
    (g.commit p call).bare = g.bare.commit p call := by
  unfold commit
  split_ifs <;> rfl

theorem countCall_off {scope : Text}
    (hoff : g.policy.maxCallsPerWindow ≤ 0 ∨ ¬g.policy.window.positive) :
    g.countCall w scope = (.ok none, g) :=
  if_pos hoff

theorem countCall_fleet {scope : Text}
    (hoff : ¬(g.policy.maxCallsPerWindow ≤ 0 ∨ ¬g.policy.window.positive))
    (hfleet : g.policy.fleetVelocity = true) : g.countCall w scope = g.countFleet w scope := by
  rw [countCall, if_neg hoff, if_pos hfleet]

theorem countCall_own {scope : Text}
    (hoff : ¬(g.policy.maxCallsPerWindow ≤ 0 ∨ ¬g.policy.window.positive))
    (hfleet : g.policy.fleetVelocity = false) :
    g.countCall w scope = (.ok (g.countOwn w scope).1, (g.countOwn w scope).2) := by
  rw [countCall, if_neg hoff, if_neg (by simp [hfleet])]

/-- The count of the holds of a window, and what is left of them. -/
theorem countFleet_eq (w : World) (g : Governor) (scope : Text) :
    g.countFleet w scope =
      (match Op.cutoff (w.now g.draws) (some g.policy.window.micros) with
        | .error e => .error e
        | .ok since =>
          let held := ((g.fleetHolds.get? scope).getD []).dropWhile
            fun t => (t.micros : ℤ) < since
          .ok (if g.policy.maxCallsPerWindow < held.length + 1 then
            some { count := held.length + 1, fleetWide := true } else none),
        { g with
          fleetHolds := g.fleetHolds.set scope
            (match Op.cutoff (w.now g.draws) (some g.policy.window.micros) with
              | .error _ => (g.fleetHolds.get? scope).getD []
              | .ok since => ((g.fleetHolds.get? scope).getD []).dropWhile
                  fun t => (t.micros : ℤ) < since)
          draws := g.draws + 1 }) := by
  unfold countFleet
  cases Op.cutoff (w.now g.draws) (some g.policy.window.micros) with
  | error e => rfl
  | ok since =>
    dsimp only
    split_ifs <;> rfl

/-- The count of the calls of a window, and what is left of them. -/
theorem countOwn_eq (w : World) (g : Governor) (scope : Text) :
    g.countOwn w scope =
      (let times := ((g.velocity.get? scope).getD [] ++ [w.monotonic g.draws]).dropWhile
          fun t => t < g.policy.window.before (w.monotonic g.draws)
        if g.policy.maxCallsPerWindow < times.length then
          some { count := times.length, fleetWide := false } else none,
        { g with
          velocity := g.velocity.set scope
            (((g.velocity.get? scope).getD [] ++ [w.monotonic g.draws]).dropWhile
              fun t => t < g.policy.window.before (w.monotonic g.draws))
          draws := g.draws + 1 }) := by
  unfold countOwn
  dsimp only
  split_ifs <;> rfl

/-- An instruction that looks up no key does to a governor what it does to it apart from what its
unit remembers. -/
theorem handle_bare_self {β : Type} (i : Instr β) (hi : Instr.Keyless β i) (g : Governor) :
    (handle w β i g).1 = (handle w β i g.bare).1 ∧
      (handle w β i g).2.bare = (handle w β i g.bare).2.bare := by
  cases i with
  | mutating => exact ⟨rfl, rfl⟩
  | served => exact ⟨rfl, rfl⟩
  | policy => exact ⟨rfl, rfl⟩
  | now => exact ⟨rfl, rfl⟩
  | called key outcome request =>
    obtain rfl : key = none := hi
    exact ⟨rfl, rfl⟩
  | work body call result =>
    simp only [handle, work]
    rw [show g.bare.begin = g.begin from rfl]
    rcases body.run (stage w) g.begin with ⟨_ | a, p⟩
    · exact ⟨rfl, rfl⟩
    · exact ⟨rfl, by rw [bare_commit, bare_commit, bare_bare]⟩
  | answered call answer =>
    refine ⟨rfl, ?_⟩
    have hbare : ∀ g : Governor, (g.answered call answer).bare = g.bare := by
      intro g
      unfold answered
      cases call with
      | none => rfl
      | some call =>
        dsimp only
        cases g.keys.get? call.key <;> rfl
    exact (hbare g).trans (hbare g.bare).symm
  | refundedOfSpend spend => exact ⟨rfl, rfl⟩
  | velocity scope =>
    change (g.countCall w scope).1 = (g.bare.countCall w scope).1 ∧
      (g.countCall w scope).2.bare = (g.bare.countCall w scope).2.bare
    by_cases hoff : g.policy.maxCallsPerWindow ≤ 0 ∨ ¬g.policy.window.positive
    · rw [countCall_off hoff, countCall_off (g := g.bare) hoff]
      exact ⟨rfl, rfl⟩
    · cases hfleet : g.policy.fleetVelocity with
      | true =>
        rw [countCall_fleet hoff hfleet, countCall_fleet (g := g.bare) hoff hfleet, countFleet_eq,
          countFleet_eq]
        exact ⟨rfl, rfl⟩
      | false =>
        rw [countCall_own hoff hfleet, countCall_own (g := g.bare) hoff hfleet, countOwn_eq,
          countOwn_eq]
        exact ⟨rfl, rfl⟩
  | noteTrip scope reason => exact ⟨rfl, rfl⟩
  | forgetVelocity scope => exact ⟨rfl, rfl⟩

/-- An instruction that looks up no key replies alike and does alike, whatever units remember. -/
theorem handle_bare {β : Type} (i : Instr β) (hi : Instr.Keyless β i) (h : g.bare = t.bare) :
    (handle w β i g).1 = (handle w β i t).1 ∧
      (handle w β i g).2.bare = (handle w β i t).2.bare := by
  obtain ⟨h₁, h₂⟩ := handle_bare_self (w := w) i hi g
  obtain ⟨h₃, h₄⟩ := handle_bare_self (w := w) i hi t
  rw [h₁, h₂, h₃, h₄, h]
  exact ⟨rfl, rfl⟩

theorem run_bare {α : Type} {op : Op α} (hop : op.Only Instr.Keyless) (h : g.bare = t.bare) :
    (op.run (handle w) g).1 = (op.run (handle w) t).1 ∧
      (op.run (handle w) g).2.bare = (op.run (handle w) t).2.bare :=
  Program.run_related_of_only (R := fun g t : Governor => g.bare = t.bare)
    (fun _ i _ _ hi h => handle_bare i hi h) hop h

/-- A call returns and does the same whatever its unit of work remembers, where that is what is
recorded. -/
theorem perform_bare (hg : g.Kept) (ht : t.Kept) (h : g.bare = t.bare) (m : Mutation) :
    (g.perform w m).1 = (t.perform w m).1 ∧
      (g.perform w m).2.bare = (t.perform w m).2.bare := by
  have hledger : t.ledger = g.ledger := (congrArg Governor.ledger h).symm
  have hunit : t.ledger.state.unit = g.ledger.state.unit := by rw [hledger]
  cases hx : m.asked g.ledger.state.unit with
  | none => exact run_bare (Op.only_keyless hx) h
  | some x =>
    have hruns := runs_of_asked (w := w) hx
    cases x with
    | error e =>
      rw [hruns g rfl, hruns t hunit]
      exact ⟨rfl, h⟩
    | ok a =>
      obtain ⟨body, hperform, honly, -⟩ := hruns
      rw [hperform g rfl, hperform t hunit]
      cases hkey : a.key with
      | none =>
        rw [run_program_none hkey, run_program_none hkey]
        exact run_bare (honly none) h
      | some key =>
        obtain ⟨cache, -, hrun⟩ := hg.run_program (w := w) hkey body
        obtain ⟨cache', -, hrun'⟩ := ht.run_program (w := w) hkey body
        have hbare := congrArg (fun d : Governor => d.lookUp key a.outcome a.request) h
        have hlookUp : g.lookUp key a.outcome a.request = t.lookUp key a.outcome a.request := hbare
        rw [hrun, hrun', hlookUp]
        cases t.lookUp key a.outcome a.request with
        | error e => exact ⟨rfl, h⟩
        | ok call =>
          dsimp only
          cases call.replayed with
          | some answer => exact ⟨rfl, h⟩
          | none => exact run_bare (honly (some call)) h

/-! ### What a call comes to -/

/-- What a call comes to: it takes no key, its own arguments are refused, it is made under none, its
key is refused or was used, or it is made under its key. -/
inductive Came (g : Governor) (m : Mutation) : Except Exception Answer → Governor → Prop
  | plain {r : Except Exception Answer} {t : Governor}
      (asked : m.asked g.ledger.state.unit = none) (idle : g.Idle t) : Came g m r t
  | rejected {e : Exception} (asked : m.asked g.ledger.state.unit = some (.error e)) :
      Came g m (.error e) g
  | unkeyed {a : Asked} {r : Except Exception Answer} {t : Governor}
      (asked : m.asked g.ledger.state.unit = some (.ok a)) (key : a.key = none)
      (settled : g.Settled m.residue none r t) : Came g m r t
  | conflict {a : Asked} {k : Text} {e : Exception}
      (cache : Dict Text (Option IdempotencyRecord))
      (asked : m.asked g.ledger.state.unit = some (.ok a)) (key : a.key = some k)
      (lookUp : g.lookUp k a.outcome a.request = .error e)
      (kept : Governor.Kept { g with keyCache := cache }) :
      Came g m (.error e) { g with keyCache := cache }
  | retried {a : Asked} {k : Text} {call : Call} {answer : Answer}
      (cache : Dict Text (Option IdempotencyRecord))
      (asked : m.asked g.ledger.state.unit = some (.ok a)) (key : a.key = some k)
      (lookUp : g.lookUp k a.outcome a.request = .ok call) (replayed : call.replayed = some answer)
      (kept : Governor.Kept { g with keyCache := cache }) :
      Came g m (.ok answer) { g with keyCache := cache }
  | made {a : Asked} {k : Text} {call : Call} {r : Except Exception Answer} {t : Governor}
      (cache : Dict Text (Option IdempotencyRecord))
      (asked : m.asked g.ledger.state.unit = some (.ok a)) (key : a.key = some k)
      (lookUp : g.lookUp k a.outcome a.request = .ok call) (unused : g.keys.get? k = none)
      (kept : Governor.Kept { g with keyCache := cache })
      (settled : Governor.Settled m.residue { g with keyCache := cache } (some call) r t) :
      Came g m r t

/-- A call that may be under no key records none. -/
theorem idle_program (hx : m.asked unit = none) : g.Idle (g.perform w m).2 := by
  have hmeets : Meets w Work (fun _ t => g.Idle t) m.program g := by
    cases m with
    | openRoot scope envelope memo => exact meets_openRoot (fun _ _ h => h) _ _ _
    | release scope amount memo => exact meets_release (fun _ _ h => h) _ _ _
    | anchor scope memo => exact meets_anchor (fun _ _ h => h) _ _
    | voidStale olderThan scope memo => exact meets_voidStale (fun _ _ h => h) _ _ _
    | trip scope reason => exact meets_tripByHand (fun _ _ h => h) _ _
    | reset scope memo => exact meets_reset (fun _ _ h => h) _ _
    | fund | delegate | authorize | tryAuthorize | capture | void | spend | refund => cases hx
  exact hmeets.run

theorem Kept.came (h : g.Kept) (w : World) (m : Mutation) :
    g.Came m (g.perform w m).1 (g.perform w m).2 := by
  cases hx : m.asked g.ledger.state.unit with
  | none => exact .plain hx (idle_program hx)
  | some x =>
    have hruns := runs_of_asked (w := w) hx
    cases x with
    | error e =>
      rw [hruns g rfl]
      exact .rejected hx
    | ok a =>
      obtain ⟨body, hperform, -, hbody⟩ := hruns
      rw [hperform g rfl]
      cases hkey : a.key with
      | none =>
        rw [run_program_none hkey]
        exact .unkeyed hx hkey
          (hbody g none (fun c hc => by cases hc) (fun c hc => by cases hc)).run
      | some key =>
        obtain ⟨cache, hkept, hrun⟩ := h.run_program (w := w) hkey body
        rw [hrun]
        cases hl : g.lookUp key a.outcome a.request with
        | error e => exact .conflict cache hx hkey hl hkept
        | ok call =>
          obtain ⟨hname, houtcome, -, hused, -⟩ := lookUp_replayed hl
          dsimp only
          cases hr : call.replayed with
          | some answer => exact .retried cache hx hkey hl hr hkept
          | none =>
            have hnone := hused.mp hr
            refine .made cache hx hkey hl hnone hkept (hbody _ (some call) ?_ ?_).run
            · rintro c ⟨⟩
              rw [hname]
              exact hnone
            · rintro c ⟨⟩
              exact houtcome

/-! ### Records after a call -/

/-- No sound ledger lost a scope that was delegated to. -/
theorem Settled.cases (ht : t.Sound w unit c) {kinds : List EntryType} {call : Option Call}
    {r : Except Exception Answer} (h : g.Settled kinds call r t) :
    ((r = .ok .refused ∨ ∃ e, r = .error e) ∧ g.Leaves kinds t) ∨
      ∃ answer, (r = .ok answer ∨ ∃ e, r = .error e) ∧ g.Recorded call answer t := by
  cases h with
  | refused quiet leaves => exact Or.inl ⟨quiet, leaves⟩
  | performed answer returns recorded => exact Or.inr ⟨answer, returns, recorded⟩
  | lost x mem delegates missing =>
    have hsome := ht.node_of_delegates mem delegates.1 delegates.2
    rw [missing] at hsome
    cases hsome

theorem Settled.kept (h : g.Kept) (hg : g.Sound w unit c) (ht : t.Sound w unit c')
    {kinds : List EntryType} {call : Option Call} {r : Except Exception Answer}
    (hbound : ∀ c, call = some c → bindable c.key = true)
    (hsettled : g.Settled kinds call r t) : t.Kept := by
  rcases hsettled.cases ht with ⟨-, leaves⟩ | ⟨answer, -, recorded⟩
  · exact h.idle hg ht leaves.toIdle
  · exact h.recorded hg ht hbound recorded

/-- A call leaves the records in order. -/
theorem Came.kept {r : Except Exception Answer} (hc : g.Came m r t) (h : g.Kept)
    (hg : g.Sound w unit c) (ht : t.Sound w unit c') : t.Kept := by
  cases hc with
  | plain asked idle => exact h.idle hg ht idle
  | rejected asked => exact h
  | unkeyed asked key settled => exact settled.kept h hg ht fun c hc => by cases hc
  | conflict cache asked key lookUp kept => exact kept
  | retried cache asked key lookUp replayed kept => exact kept
  | made cache asked key lookUp unused kept settled =>
    obtain ⟨hname, -, -, -, hbound⟩ := lookUp_replayed lookUp
    refine settled.kept kept (hg.keep ⟨rfl, rfl, rfl, rfl, Nat.le_refl _⟩) ht ?_
    rintro c ⟨⟩
    rw [hname]
    exact hbound

/-- A governor whose view is what its entries imply, and whose records are in order, if the ids
drawn for it are distinct. -/
def Orderly (w : World) (unit : Unit) (g : Governor) : Prop :=
  w.Distinct g.draws → (∃ c, g.Sound w unit c) ∧ g.Kept

theorem Orderly.new (w : World) (unit : Unit) (policy : GovernancePolicy) (store : Bool) :
    (Governor.new unit policy store).Orderly w unit :=
  fun _ => ⟨⟨_, .new w unit policy store⟩, .new unit policy store⟩

theorem Orderly.within (h : g.Orderly w unit) : g.Within w unit g :=
  .refl fun distinct => (h distinct).1

theorem Orderly.perform (h : g.Orderly w unit) (m : Mutation) :
    (g.perform w m).2.Orderly w unit := by
  intro distinct
  have hwithin := h.within.op m.program
  obtain ⟨⟨c, hc⟩, hkept⟩ := h (distinct.mono hwithin.draws)
  obtain ⟨c', hc'⟩ := hwithin.sound distinct
  exact ⟨⟨c', hc'⟩, (hkept.came w m).kept hkept hc hc'⟩

/-- What leaves the ledger and the records of a governor as they are leaves it in order. -/
theorem Orderly.same (h : g.Orderly w unit) (hkeeps : g.Keeps t)
    (hkept : g.Kept → t.Kept) : t.Orderly w unit := by
  intro distinct
  obtain ⟨⟨c, hc⟩, hg⟩ := h (distinct.mono hkeeps.draws)
  exact ⟨⟨c, hc.keep hkeeps⟩, hkept hg⟩

theorem Orderly.leave (h : g.Orderly w unit) : g.leave.Orderly w unit := by
  intro distinct
  obtain ⟨⟨c, hc⟩, hkept⟩ := h distinct
  exact ⟨⟨c, hc.keep ⟨rfl, rfl, rfl, rfl, Nat.le_refl _⟩⟩, hkept.leave⟩

end Governor

end AgentGov
