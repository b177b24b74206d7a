import AgentGov.Works

/-!
# What operations ask of their governor

An operation commits a unit of work only where its own checks have passed: a hold where the scope
is not halted and can pay for it, a release of what is left, the settlement of an open
authorization. Every unit of work of every operation is one of a dozen, each with what was checked
of the state it is committed in.

## Main definitions

* `AgentGov.Governor.Work`: the units of work an operation commits, and what it has checked.
* `AgentGov.Governor.Asks`: what an operation asks of the governor in a state.

* `AgentGov.Governor.Meets`: an operation asks for nothing else, and ends as a condition says.
* `AgentGov.Governor.Settled`: how a call that was not made before ends.

## Main results

* `AgentGov.Governor.meets_work_bind`: a unit of work, as a step of an operation.
* `AgentGov.Governor.recorded_commit`: a call is recorded with the entries of its work.
-/

open Foundation

namespace AgentGov

namespace Governor

/-- Whether no call was recorded under the key of a call. -/
def Unused (g : Governor) (call : Option Call) : Prop :=
  ∀ c, call = some c → g.keys.get? c.key = none

/-- Whether what was looked up of the recorded calls is what is recorded of them, unless the call
was made since. -/
def Coherent (g : Governor) : Prop :=
  ∀ key found, g.keyCache.get? key = some found → g.unitCalls.get? key = none →
    found = g.keys.get? key

/-- Whether no breaker halts a scope of a state. -/
def Active (g : Governor) (scope : Text) : Prop :=
  g.ledger.state.haltedBy (g.ledger.state.nodes.items.length + 1) scope = none

/-- The units of work an operation commits in a state of its governor, each with the call it is
the work of, the entry that call's result is read back from, and what the operation has
checked. -/
inductive Work (g : Governor) :
    {α : Type} → Staging α → Option Call → (α → Option LedgerEntry) → Prop
  | openRoot (scope : Text) (amount : Decimal) (memo : Text)
      (named : scope ≠ [])
      (new : g.ledger.state.nodes.get? scope = none) :
      Work g (Staging.post₁ (Op.line .funding .credit scope amount none memo none)) none
        fun _ => none
  | fund (scope : Text) (amount : Decimal) (memo : Text) (call : Option Call) (n : BudgetNode)
      (known : g.ledger.state.nodes.get? scope = some n)
      (root : n.parentId = none)
      (unused : g.Unused call) :
      Work g (Staging.post₁ (Op.line .funding .credit scope amount none memo none)) call some
  | delegate (parent child : Text) (amount : Decimal) (memo : Text) (call : Option Call)
      (n : BudgetNode)
      (named : child ≠ [])
      (known : g.ledger.state.nodes.get? parent = some n)
      (new : g.ledger.state.nodes.get? child = none)
      (active : g.Active parent)
      (covered : ¬g.ledger.state.balance parent < amount.worth)
      (unused : g.Unused call) :
      Work g (Op.delegation parent child amount memo) call some
  | release (scope parent : Text) (amount : Decimal) (memo : Text) (n : BudgetNode)
      (known : g.ledger.state.nodes.get? scope = some n)
      (child : n.parentId = some parent)
      (covered : ¬g.ledger.state.balance scope < amount.worth) :
      Work g (Op.releasing scope parent amount memo) none fun _ => none
  | hold (scope : Text) (amount : Decimal) (memo : Text) (call : Option Call) (n : BudgetNode)
      (known : g.ledger.state.nodes.get? scope = some n)
      (active : g.Active scope)
      (covered : ¬g.ledger.state.balance scope < amount.worth)
      (unused : g.Unused call) :
      Work g (Staging.post₁ (Op.line .hold .debit scope amount none memo none)) call some
  | settle (a : Authorization) (amount : Decimal) (memo : Text) (call : Option Call)
      (opened : (g.ledger.openAuths.get? a.authorizationId).isSome)
      (unused : g.Unused call) :
      Work g (Op.settlement g.policy.tripOnExhaustion a amount memo) call some
  | void (a : Authorization) (memo : Text) (call : Option Call)
      (opened : (g.ledger.openAuths.get? a.authorizationId).isSome)
      (unused : g.Unused call) :
      Work g (Staging.post₁ (Op.voiding a memo)) call some
  | refund (scope : Text) (amount : Decimal) (memo : Text) (ref : Option UUID)
      (call : Option Call) (n : BudgetNode)
      (known : g.ledger.state.nodes.get? scope = some n)
      (unused : g.Unused call) :
      Work g (Staging.post₁ (Op.line .reversal .credit scope amount none memo ref)) call some
  | anchor (scope memo : Text) (n : BudgetNode)
      (known : g.ledger.state.nodes.get? scope = some n) :
      Work g (Staging.post₁ (Staging.event .anchor scope memo)) none fun _ => none
  | trip (scope reason : Text) (n : BudgetNode)
      (known : g.ledger.state.nodes.get? scope = some n)
      (untripped : g.ledger.state.tripped.get? scope = none) :
      Work g (Staging.trip scope reason) none fun _ => none
  | reset (scope memo : Text) (n : BudgetNode)
      (known : g.ledger.state.nodes.get? scope = some n)
      (tripped : (g.ledger.state.tripped.get? scope).isSome) :
      Work g (Staging.control .circuitReset scope memo) none fun _ => none

/-- What a program asks of its governor in a state: no units of work but `works`. -/
def Asks (works : (g : Governor) → {α : Type} → Staging α → Option Call →
    (α → Option LedgerEntry) → Prop) (g : Governor) {β : Type} : Instr β → Prop
  | .work body call result => works g body call result
  | _ => True

/-- Whether a program commits no units of work but `works`, and ends as `Q` says. -/
def Meets (w : World) {α : Type} (works : (g : Governor) → {β : Type} → Staging β → Option Call →
    (β → Option LedgerEntry) → Prop) (Q : Except Exception α → Governor → Prop) (op : Op α)
    (g : Governor) : Prop :=
  Program.Meets (handle w) (fun _ i g => g.Asks works i) Q op g

/-- Whether nothing was recorded of any call since a governor, though its history may have
grown. -/
structure Idle (g t : Governor) : Prop where
  keys : t.keys = g.keys
  unitCalls : t.unitCalls = g.unitCalls
  keyCache : t.keyCache = g.keyCache
  policy : t.policy = g.policy
  store : t.store = g.store
  grows : g.ledger.entries <+: t.ledger.entries

theorem Idle.refl (g : Governor) : g.Idle g := ⟨rfl, rfl, rfl, rfl, rfl, List.prefix_rfl⟩

theorem Idle.trans {g t u : Governor} (h : g.Idle t) (h' : t.Idle u) : g.Idle u :=
  ⟨h'.keys.trans h.keys, h'.unitCalls.trans h.unitCalls, h'.keyCache.trans h.keyCache,
    h'.policy.trans h.policy, h'.store.trans h.store, h.grows.trans h'.grows⟩

theorem Idle.unused {g t : Governor} (h : g.Idle t) {call : Option Call} (hu : g.Unused call) :
    t.Unused call := by
  intro c hc
  rw [h.keys]
  exact hu c hc

section Rules

variable {w : World} {g : Governor} {α : Type}
  {works : (g : Governor) → {β : Type} → Staging β → Option Call →
    (β → Option LedgerEntry) → Prop}
  {Q : Except Exception α → Governor → Prop}

@[simp] theorem meets_ret {a : α} : Meets w works Q (Program.ret a) g ↔ Q (.ok a) g := Iff.rfl

@[simp] theorem meets_raise {e : Exception} :
    Meets w works Q (Program.raise e) g ↔ Q (.error e) g := Iff.rfl

/-- An instruction that returns. -/
theorem meets_reply {β : Type} {i : Instr β} {f : β → Op α} {r : β} {t : Governor}
    (hi : handle w β i g = (.ok r, t)) (hasks : g.Asks works i) :
    Meets w works Q (Program.instr i >>= f) g ↔ Meets w works Q (f r) t := by
  refine Program.meets_perform.trans ⟨fun h => h.2.1 r t hi, fun h => ⟨hasks, ?_, ?_⟩⟩
  · intro r' t' hr
    cases hi.symm.trans hr
    exact h
  · intro e t' he
    cases hi.symm.trans he

@[simp] theorem meets_served_bind {f : Ledger → Op α} :
    Meets w works Q (Op.served >>= f) g ↔ Meets w works Q (f g.ledger) g :=
  meets_reply rfl trivial

@[simp] theorem meets_policy_bind {f : GovernancePolicy → Op α} :
    Meets w works Q (Program.instr .policy >>= f) g ↔ Meets w works Q (f g.policy) g :=
  meets_reply rfl trivial

@[simp] theorem meets_mutating_bind {f : PUnit → Op α} :
    Meets w works Q (Op.mutating >>= f) g ↔ Meets w works Q (f ⟨⟩) g :=
  meets_reply rfl trivial

@[simp] theorem meets_now_bind {f : Instant → Op α} :
    Meets w works Q (Program.instr .now >>= f) g ↔
      Meets w works Q (f (w.now g.draws)) { g with draws := g.draws + 1 } :=
  meets_reply rfl trivial

@[simp] theorem meets_unit_bind {f : Unit → Op α} :
    Meets w works Q (Op.unit >>= f) g ↔ Meets w works Q (f g.ledger.state.unit) g := by
  rw [Op.unit, bind_assoc]
  exact meets_served_bind

variable (hraise : ∀ e, Q (.error e) g)

include hraise

theorem meets_check_bind {c : Prop} [Decidable c] {e : Exception} {f : PUnit → Op α} :
    Meets w works Q (Program.check c e >>= f) g ↔ (c → Meets w works Q (f ⟨⟩) g) :=
  Program.meets_check_bind.trans (and_iff_left fun _ => hraise e)

theorem meets_argument_bind {c : Prop} [Decidable c] {fault : ArgumentFault} {f : PUnit → Op α} :
    Meets w works Q (Op.argument c fault >>= f) g ↔ (c → Meets w works Q (f ⟨⟩) g) :=
  meets_check_bind hraise

theorem meets_ofExcept_bind {β : Type} {x : Except Exception β} {f : β → Op α} :
    Meets w works Q (Program.ofExcept x >>= f) g ↔
      ∀ b, x = .ok b → Meets w works Q (f b) g :=
  Program.meets_ofExcept_bind.trans (and_iff_left fun e _ => hraise e)

theorem meets_lift_bind {β : Type} {x : Except Error β} {f : β → Op α} :
    Meets w works Q ((liftM x : Op β) >>= f) g ↔ ∀ b, x = .ok b → Meets w works Q (f b) g := by
  refine (meets_ofExcept_bind hraise).trans ?_
  cases x with
  | error e => simp [Except.mapError]
  | ok b => simp [Except.mapError]

theorem meets_requireNode_bind {scope : Text} {f : BudgetNode → Op α} :
    Meets w works Q (Op.requireNode scope >>= f) g ↔
      ∀ n, g.ledger.state.nodes.get? scope = some n → Meets w works Q (f n) g := by
  rw [Op.requireNode, bind_assoc, meets_served_bind]
  cases g.ledger.state.nodes.get? scope <;> simp [hraise]

theorem meets_assertNotHalted_bind {scope : Text} {f : PUnit → Op α} :
    Meets w works Q (Op.assertNotHalted scope >>= f) g ↔
      (g.Active scope → Meets w works Q (f ⟨⟩) g) := by
  rw [Op.assertNotHalted, bind_assoc, meets_served_bind, Active]
  cases hs : g.ledger.state.haltedBy (g.ledger.state.nodes.items.length + 1) scope <;>
    simp [hs, hraise]

theorem meets_refundedOfSpend_bind {spend : UUID} {f : Value → Op α} :
    Meets w works Q (Program.instr (.refundedOfSpend spend) >>= f) g ↔
      ∀ v, g.refundedOfSpend spend = .ok v → Meets w works Q (f v) g := by
  have hi : handle w Value (.refundedOfSpend spend) g = (g.refundedOfSpend spend, g) := rfl
  cases hv : g.refundedOfSpend spend with
  | ok v =>
    rw [hv] at hi
    rw [meets_reply hi trivial]
    simp
  | error e =>
    rw [hv] at hi
    refine iff_of_true (Program.meets_perform.mpr ⟨trivial, ?_, ?_⟩) (by simp)
    · intro r t hr
      cases hi.symm.trans hr
    · intro e' t he
      cases hi.symm.trans he
      exact hraise _

end Rules

/-! ### Units of work -/

section Commits

variable {w : World} {g : Governor}

/-- A unit of work that returned was committed. -/
theorem work_ok {α : Type} {body : Staging α} {call : Option Call}
    {result : α → Option LedgerEntry} {a : α} {t : Governor}
    (h : g.work w body call result = (.ok a, t)) : ∃ p, body.run (stage w) g.begin = (.ok a, p) ∧
      t = g.commit p (call.bind fun c => (result a).map fun e => (c, e)) := by
  unfold work at h
  rcases hb : body.run (stage w) g.begin with ⟨_ | b, p⟩ <;> rw [hb] at h
  · cases h
  · cases h
    exact ⟨p, rfl, rfl⟩

/-- A unit of work that raised has drawn what it has drawn. -/
theorem work_error {α : Type} {body : Staging α} {call : Option Call}
    {result : α → Option LedgerEntry} {e : Exception} {t : Governor}
    (h : g.work w body call result = (.error e, t)) : ∃ n, t = { g with draws := n } := by
  unfold work at h
  rcases hb : body.run (stage w) g.begin with ⟨_ | b, p⟩ <;> rw [hb] at h
  · cases h
    exact ⟨p.draws, rfl⟩
  · cases h

theorem idle_draws (g : Governor) (n : ℕ) : g.Idle { g with draws := n } :=
  ⟨rfl, rfl, rfl, rfl, rfl, List.prefix_rfl⟩

/-- Work that is of no call records none. -/
theorem idle_commit (g : Governor) (p : Pending) : g.Idle (g.commit p none) := by
  refine ⟨?_, ?_, ?_, ?_, store_commit p none, ?_⟩
  · unfold commit
    split_ifs <;> rfl
  · unfold commit
    split_ifs <;> rfl
  · unfold commit
    split_ifs <;> rfl
  · unfold commit
    split_ifs <;> rfl
  · rw [ledger_commit]
    split_ifs
    · exact List.prefix_rfl
    · exact List.prefix_append _ _

/-- What a call has left recorded of itself, if it is under a key. -/
structure Recorded (g : Governor) (call : Option Call) (answer : Answer) (t : Governor) :
    Prop where
  keyCache : t.keyCache = g.keyCache
  policy : t.policy = g.policy
  store : t.store = g.store
  grows : g.ledger.entries <+: t.ledger.entries
  unkeyed : call = none → t.keys = g.keys ∧ t.unitCalls = g.unitCalls
  keyed : ∀ c, call = some c → ∃ new e, t.ledger.entries = g.ledger.entries ++ new ∧ e ∈ new ∧
    t.keys = g.keys.set c.key (record c e) ∧
    t.unitCalls = g.unitCalls.set c.key (record c e, answer) ∧
    t.answerIn (record c e) e = some answer

theorem Idle.recorded {g t u : Governor} {call : Option Call} {answer : Answer} (h : g.Idle t)
    (h' : t.Recorded call answer u) : g.Recorded call answer u where
  keyCache := h'.keyCache.trans h.keyCache
  policy := h'.policy.trans h.policy
  store := h'.store.trans h.store
  grows := h.grows.trans h'.grows
  unkeyed hc := by
    rw [← h.keys, ← h.unitCalls]
    exact h'.unkeyed hc
  keyed c hc := by
    obtain ⟨new, e, hnew, he, hkeys, hcalls, hanswer⟩ := h'.keyed c hc
    obtain ⟨mid, hmid⟩ := h.grows
    refine ⟨mid ++ new, e, ?_, List.mem_append_right _ he, ?_, ?_, hanswer⟩
    · rw [hnew, ← hmid, List.append_assoc]
    · rw [hkeys, h.keys]
    · rw [hcalls, h.unitCalls]

/-- A call whose work is committed, and what it returned noted. -/
theorem recorded_commit {p : Pending} {call : Option Call} {e : LedgerEntry} {answer : Answer}
    (he : e ∈ p.entries)
    (hanswer : ∀ c, call = some c →
      (g.commit p (call.map fun c => (c, e))).answerIn (record c e) e = some answer) :
    g.Recorded call answer ((g.commit p (call.map fun c => (c, e))).answered call answer) := by
  have hne (x : Option (Call × LedgerEntry)) : ¬(p.entries = [] ∧ x.isNone) :=
    fun h => List.ne_nil_of_mem he h.1
  cases call with
  | none =>
    have hidle := idle_commit g p
    exact ⟨hidle.keyCache, hidle.policy, hidle.store, hidle.grows,
      fun _ => ⟨hidle.keys, hidle.unitCalls⟩, fun c hc => (by cases hc)⟩
  | some c =>
    have hkeys : (g.commit p (some (c, e))).keys = g.keys.set c.key (record c e) := by
      unfold commit
      rw [if_neg (hne _)]
    have hrecorded : (g.commit p (some (c, e))).answered (some c) answer =
        { g.commit p (some (c, e)) with
          unitCalls := (g.commit p (some (c, e))).unitCalls.set c.key (record c e, answer) } := by
      simp only [answered, hkeys, Dict.get?_set_self]
    have hledger := ledger_commit (g := g) p (some (c, e))
    rw [if_neg (hne _)] at hledger
    rw [Option.map_some] at hanswer ⊢
    rw [hrecorded]
    refine ⟨?_, ?_, ?_, ?_, fun hc => (by cases hc), ?_⟩
    · simp only [commit, if_neg (hne _)]
    · simp only [commit, if_neg (hne _)]
    · exact store_commit p _
    · dsimp only
      rw [hledger]
      exact List.prefix_append _ _
    · rintro c' hc'
      cases hc'
      refine ⟨p.entries, e, ?_, he, hkeys, ?_, hanswer c rfl⟩
      · dsimp only
        rw [hledger]
      · simp only [commit, if_neg (hne _)]

/-- Whether nothing was recorded of any call since a governor, and nothing was written but entries
of some kinds. -/
structure Leaves (kinds : List EntryType) (g t : Governor) : Prop extends g.Idle t where
  written : ∃ new, t.ledger.entries = g.ledger.entries ++ new ∧ ∀ e ∈ new, e.entryType ∈ kinds
  same : t.ledger.entries = g.ledger.entries → t.ledger = g.ledger

theorem Leaves.refl (kinds : List EntryType) (g : Governor) : g.Leaves kinds g :=
  { Idle.refl g with
    written := ⟨[], (List.append_nil _).symm, fun _ h => (List.not_mem_nil h).elim⟩
    same := fun _ => rfl }

theorem Leaves.trans {kinds : List EntryType} {g t u : Governor} (h : g.Leaves kinds t)
    (h' : t.Leaves kinds u) : g.Leaves kinds u := by
  obtain ⟨new, hnew, hkinds⟩ := h.written
  obtain ⟨more, hmore, hkinds'⟩ := h'.written
  refine { h.toIdle.trans h'.toIdle with written := ?_, same := fun heq => ?_ }
  · refine ⟨new ++ more, by rw [hmore, hnew, List.append_assoc], fun e he => ?_⟩
    exact (List.mem_append.mp he).elim (hkinds e) (hkinds' e)
  · have hnil : new = [] ∧ more = [] := by
      rw [hmore, hnew, List.append_assoc, List.append_right_eq_self] at heq
      exact List.append_eq_nil_iff.mp heq
    rw [hnil.1, List.append_nil] at hnew
    rw [hnil.2, List.append_nil] at hmore
    exact (h'.same hmore).trans (h.same hnew)

theorem Leaves.mono {kinds kinds' : List EntryType} {g t : Governor} (h : g.Leaves kinds t)
    (hk : kinds ⊆ kinds') : g.Leaves kinds' t := by
  obtain ⟨new, hnew, hkinds⟩ := h.written
  exact { h with written := ⟨new, hnew, fun e he => hk (hkinds e he)⟩ }

/-- What changes neither the ledger nor what is recorded leaves nothing. -/
theorem Idle.leaves {g t : Governor} (h : g.Idle t) (hl : t.ledger = g.ledger)
    (kinds : List EntryType) : g.Leaves kinds t :=
  { h with
    written := ⟨[], by rw [hl, List.append_nil], fun _ h => (List.not_mem_nil h).elim⟩
    same := fun _ => hl }

theorem leaves_draws (g : Governor) (n : ℕ) (kinds : List EntryType) :
    g.Leaves kinds { g with draws := n } :=
  (idle_draws g n).leaves rfl kinds

/-- Work that is of no call leaves what it wrote. -/
theorem leaves_commit {g : Governor} {p : Pending} {kinds : List EntryType}
    (h : ∀ e ∈ p.entries, e.entryType ∈ kinds) : g.Leaves kinds (g.commit p none) := by
  have hledger := ledger_commit (g := g) p none
  by_cases hnil : p.entries = []
  · rw [if_pos ⟨hnil, rfl⟩] at hledger
    exact (idle_commit g p).leaves hledger kinds
  · rw [if_neg fun hn => hnil hn.1] at hledger
    refine { idle_commit g p with written := ⟨p.entries, by rw [hledger], h⟩, same := fun heq => ?_ }
    rw [hledger] at heq
    exact absurd (List.append_right_eq_self.mp heq) hnil

/-- How a call that was not made before ends: refused, with nothing recorded of it and nothing
written but entries of some kinds, or performed, and recorded if it is under a key, even where it
then raises. -/
inductive Settled (kinds : List EntryType) (g : Governor) (call : Option Call) :
    Except Exception Answer → Governor → Prop
  | refused {r : Except Exception Answer} {t : Governor}
      (quiet : r = .ok .refused ∨ ∃ e, r = .error e) (leaves : g.Leaves kinds t) :
      Settled kinds g call r t
  | performed {r : Except Exception Answer} {t : Governor} (answer : Answer)
      (returns : r = .ok answer ∨ ∃ e, r = .error e) (recorded : g.Recorded call answer t) :
      Settled kinds g call r t
  /-- A scope that was delegated to and cannot be found, which no sound ledger serves. -/
  | lost {e : Exception} {t : Governor} (x : LedgerEntry) (mem : x ∈ t.ledger.entries)
      (delegates : x.entryType = .allocation ∧ x.direction = .credit)
      (missing : t.ledger.state.nodes.get? x.scopeId = none) :
      Settled kinds g call (.error e) t

theorem Leaves.settled {kinds : List EntryType} {g t u : Governor} {call : Option Call}
    {r : Except Exception Answer} (h : g.Leaves kinds t) (h' : t.Settled kinds call r u) :
    g.Settled kinds call r u := by
  cases h' with
  | refused quiet leaves => exact .refused quiet (h.trans leaves)
  | performed answer returns recorded =>
    exact .performed answer returns (h.toIdle.recorded recorded)
  | lost x mem delegates missing => exact .lost x mem delegates missing

theorem Leaves.raised {kinds : List EntryType} {t : Governor} {call : Option Call}
    (h : g.Leaves kinds t) (e : Exception) : g.Settled kinds call (.error e) t :=
  .refused (Or.inr ⟨e, rfl⟩) h

end Commits

section WorkRules

variable {w : World} {g : Governor} {α : Type}
  {works : (g : Governor) → {β : Type} → Staging β → Option Call →
    (β → Option LedgerEntry) → Prop}
  {Q : Except Exception α → Governor → Prop}

/-- A unit of work committed. -/
theorem meets_work_bind {β : Type} {body : Staging β} {call : Option Call}
    {result : β → Option LedgerEntry} {f : β → Op α} (hwork : works g body call result)
    (hraise : ∀ e n, Q (.error e) { g with draws := n })
    (h : ∀ a p, body.run (stage w) g.begin = (.ok a, p) →
      Meets w works Q (f a) (g.commit p (call.bind fun c => (result a).map fun e => (c, e)))) :
    Meets w works Q (Program.instr (.work body call result) >>= f) g := by
  refine Program.meets_perform.mpr ⟨hwork, fun a t hr => ?_, fun e t hr => ?_⟩
  · obtain ⟨p, hp, rfl⟩ := work_ok hr
    exact h a p hp
  · obtain ⟨n, rfl⟩ := work_error hr
    exact hraise e n

/-- A unit of work committed for a call. -/
theorem meets_commitFor_bind {call : Option Call} {body : Staging LedgerEntry}
    {f : LedgerEntry → Op α} (hwork : works g body call some)
    (hraise : ∀ e n, Q (.error e) { g with draws := n })
    (h : ∀ e p, body.run (stage w) g.begin = (.ok e, p) →
      Meets w works Q (f e) (g.commit p (call.map fun c => (c, e)))) :
    Meets w works Q (Op.commitFor call body >>= f) g := by
  refine meets_work_bind hwork hraise fun e p hp => ?_
  have hcall : (call.bind fun c => (some e).map fun e => (c, e)) = call.map fun c => (c, e) := by
    cases call <;> rfl
  rw [hcall]
  exact h e p hp

/-- A unit of work committed for no call. -/
theorem meets_commit_bind {β : Type} {body : Staging β} {f : β → Op α}
    (hwork : works g body none fun _ => none)
    (hraise : ∀ e n, Q (.error e) { g with draws := n })
    (h : ∀ a p, body.run (stage w) g.begin = (.ok a, p) →
      Meets w works Q (f a) (g.commit p none)) :
    Meets w works Q (Op.commit body >>= f) g :=
  meets_work_bind hwork hraise h

@[simp] theorem meets_answered_bind {call : Option Call} {answer : Answer} {f : Answer → Op α} :
    Meets w works Q (Op.answered call answer >>= f) g ↔
      Meets w works Q (f answer) (g.answered call answer) := by
  rw [Op.answered, bind_assoc]
  exact meets_reply rfl trivial

theorem meets_answered {Q : Except Exception Answer → Governor → Prop} {call : Option Call}
    {answer : Answer} : Meets w works Q (Op.answered call answer) g ↔
      Q (.ok answer) (g.answered call answer) := by
  rw [← bind_pure (Op.answered call answer), meets_answered_bind]
  rfl

end WorkRules

end Governor

end AgentGov
