import AgentGov.Errands

/-!
# A fleet of governors

Any number of governors share one ledger through PostgreSQL. Before a mutation a governor takes the
writer lock and follows the ledger: it verifies what others committed since and applies it to its
view. It holds the lock until its writes commit. A session that wrote and did not commit, or whose
outcome was lost with the connection, leaves its view possibly ahead of the ledger, and it is
re-read in full before it is used again. A caller's own transaction may take the lock instead, to
owe the ledger a settlement claim, which any governor books into the chain later
(`src/src/agentgov/core.py`, lines 3572–3626, 4639–4688, 4797–4903, 5099–5355 and 5369–5563, and
`src/src/agentgov/postgres.py`, lines 221–263, 491–539, 735–785, 841–906 and 941–1032).

## Main definitions

* `AgentGov.SharedStore`: what is committed.
* `AgentGov.Governor.catchUp`, `AgentGov.Governor.reread`, `AgentGov.Member.follow`: how a view
  follows it.
* `AgentGov.Session`: the transaction that holds the writer lock.
* `AgentGov.Fleet`, `AgentGov.Fleet.step`: the fleet, and what happens in it.
-/

open Foundation

namespace AgentGov

/-- What a shared store holds, committed. -/
structure SharedStore where
  unit : Unit
  entries : List LedgerEntry := []
  /-- The calls recorded under keys. -/
  keys : Dict Text IdempotencyRecord := ∅
  /-- The settlement claims not yet booked, oldest first. -/
  claims : List SettlementClaim := []

namespace SharedStore

variable (store : SharedStore)

/-- `head`: the length of the chain, and the hash of its last entry. -/
def head : ℕ × Text :=
  (store.entries.length, (store.entries.getLast?.map LedgerEntry.entryHash).getD store.unit.genesis)

/-- The hash of the last of the first entries, if there are as many. -/
def anchorHash (after : ℕ) : Option Text :=
  (store.entries[after - 1]?).map LedgerEntry.entryHash

end SharedStore

/-! ### Following the ledger -/

/-- Why a view cannot follow its ledger. -/
inductive Astray
  /-- What the rules refuse of the new entries. -/
  | rule (error : Error)
  /-- `LedgerRollbackError`, or `LedgerIntegrityError`: "the ledger was rewritten under this reader:
  entry {verified} no longer carries the head this view verified" -/
  | moved (verified : ℕ)
deriving DecidableEq

/-- Whether the exception is a `LedgerIntegrityError`. -/
def Astray.IsIntegrity : Astray → Prop
  | rule e => e.IsIntegrity
  | moved _ => True

instance : DecidablePred Astray.IsIntegrity := by
  intro e
  cases e <;> (unfold Astray.IsIntegrity; infer_instance)

namespace Governor

/-- `_resolver_with`: finds a spend among new entries, or an entry this ledger holds. -/
def resolverWith (g : Governor) (entries : List LedgerEntry) (id : UUID) : Option LedgerEntry :=
  (spendIndex entries id).or (g.ledger.resolve id)

/-- A view of new entries over what this ledger serves, each of them verified. -/
def verified (g : Governor) (store : SharedStore) (delta : List LedgerEntry) :
    Except Error Overlay := do
  let view ← runAll (Rules.apply true false) (Overlay.staging g.ledger.state
    (g.resolverWith delta) (some (refundsIn store.entries)) none) delta
  Rules.endTransaction view

/-- `_catch_up`: what was committed after this view, verified and applied to it. -/
def catchUp (g : Governor) (store : SharedStore) : Except Astray Governor :=
  let before := g.ledger.state.length
  let delta := store.entries.drop before
  if before ≠ 0 ∧ store.anchorHash before ≠ some g.ledger.state.head then .error (.moved before)
  else
    match g.verified store delta with
    | .error e => .error (.rule e)
    | .ok view => .ok { g with
        ledger :=
          { entries := g.ledger.entries ++ delta
            state := view.merge
            openAuths := followHolds g.ledger.openAuths view }
        fleetHolds := g.remember delta }

/-- `_reload`: the view of a shared store rebuilt from what it holds, as an open that verifies from
genesis would. The velocity windows are this process's own. -/
def reread (g : Governor) (store : SharedStore) : Except Astray Governor :=
  match replay store.entries [] false none (some (refundsIn store.entries)) store.unit with
  | .error e => .error (.rule e)
  | .ok state => .ok { g with
      ledger :=
        { entries := store.entries
          state := state
          openAuths := state.holds.mapValues authorizationFor } }

end Governor

/-- A governor of a fleet. -/
structure Member where
  governor : Governor
  /-- `_dirty`: whether a session of it wrote and did not commit, as far as it knows. -/
  dirty : Bool := false
  /-- `_unusable`: whether it could not follow the ledger. -/
  unusable : Bool := false

namespace Member

variable (m : Member) (store : SharedStore)

/-- `_follow`: the view brought up to the head of the ledger. One that may be ahead of it is rebuilt,
and one whose length and head are the store's is current. -/
def followed : Except Astray Governor :=
  if m.dirty then m.governor.reread store
  else if store.head = (m.governor.ledger.state.length, m.governor.ledger.state.head) then
    .ok m.governor
  else m.governor.catchUp store

/-- A member that cannot follow the ledger refuses every later write. -/
def astray (e : Astray) : Member := if e.IsIntegrity then { m with unusable := true } else m

/-- A member that follows the ledger, what it draws of the world going on from `draws`. -/
def follow (draws : ℕ) : Member :=
  if m.unusable then m
  else
    match m.followed store with
    | .error e => m.astray e
    | .ok g => { m with governor := { g with draws := draws }, dirty := false }

/-- A new process that opens the ledger. -/
def start (policy : GovernancePolicy) (draws : ℕ) : Member :=
  { governor := Governor.new store.unit policy true, dirty := true : Member }.follow store draws

end Member

/-! ### Sessions -/

/-- `_Session`: a transaction that holds the writer lock, a governor's own or a caller's that a
governor has joined. -/
structure WriterSession (ι : Type) where
  holder : ι
  joined : Bool := false
  /-- The pending claims, as the transaction sees them. -/
  claims : List SettlementClaim
  /-- Whether a statement of it failed: then it can only be rolled back. -/
  failed : Bool := false
  /-- What was booked in it, and what each booking wrote: nothing reads this. -/
  booked : List (SettlementClaim × List LedgerEntry) := []

/-- What comes of a `COMMIT`. -/
inductive Ending
  | committed
  | refused
  /-- The connection is lost before the answer, after the commit or before it. -/
  | lost (happened : Bool)

/-- Whether the transaction is committed. -/
def Ending.happened : Ending → Bool
  | committed => true
  | refused => false
  | lost happened => happened

/-- Why a claim is refused. -/
inductive ClaimFault
  | cost (error : Error)
  /-- "a claim cannot owe a negative amount, got {owed}" -/
  | negative (owed : Decimal)
  /-- "a claim must carry the memo its settlement will record" -/
  | noMemo
  /-- "hold {hold.authorization_id} is on scope {hold.scope_id!r}, not {scope_id!r}" -/
  | holdOfAnother (hold : UUID) (on scope : Text)
  /-- `UnknownScopeError` -/
  | unknownScope (scope : Text)

/-- A coerced amount is a number. -/
theorem cost_counted {v : AmountArg} {unit : Unit} {d : Decimal} (h : cost v unit = .ok d) :
    d.value?.isSome := by
  obtain ⟨s, n, rfl⟩ := coerce_ok h
  rfl

/-- `JoinedTransaction.claim`, as far as the claim: its id is drawn last. -/
def SettlementClaim.make (g : Governor) (id : UUID) (scope : Text) (amount : AmountArg)
    (memo : Text) (hold : Option Authorization) : Except ClaimFault SettlementClaim :=
  match hcost : cost amount g.ledger.state.unit with
  | .error e => .error (.cost e)
  | .ok owed =>
    if owed.worth < 0 then .error (.negative owed)
    else if memo = [] then .error .noMemo
    else
      match hold.filter fun a => a.scopeId ≠ scope with
      | some a => .error (.holdOfAnother a.authorizationId a.scopeId scope)
      | none =>
        if (g.ledger.state.nodes.get? scope).isNone then .error (.unknownScope scope)
        else .ok
          { claimId := id
            holdId := hold.map Authorization.authorizationId
            scopeId := scope
            amount := owed
            memo := memo
            counted := cost_counted hcost }

namespace WriterSession

variable {ι : Type} (s : WriterSession ι)

/-- The constraints of the table of claims: no two of one id, or of one hold. -/
def Admits (claim : SettlementClaim) : Prop :=
  ∀ c ∈ s.claims, c.claimId ≠ claim.claimId ∧ (claim.holdId.isSome → c.holdId ≠ claim.holdId)

instance (claim : SettlementClaim) : Decidable (s.Admits claim) :=
  inferInstanceAs (Decidable (∀ c ∈ s.claims, _))

/-- A claim inserted. A row the table refuses fails the transaction. -/
def claim (c : SettlementClaim) : WriterSession ι :=
  if s.Admits c then { s with claims := s.claims ++ [c] } else { s with failed := true }

/-- The deletion of a claim that is booked. -/
def book (c : SettlementClaim) (wrote : List LedgerEntry) : WriterSession ι :=
  { s with
    claims := s.claims.filter fun d => d.claimId ≠ c.claimId
    booked := s.booked ++ [(c, wrote)] }

/-- `_redeem_locked` of claims, in order, up to one that raises. Each is deleted in the statements
that write what books it, which fail unless it was pending; memory is touched only after them. -/
def redeemEach (w : World) : Governor → WriterSession ι → List SettlementClaim →
    Governor × WriterSession ι
  | g, s, [] => (g, s)
  | g, s, c :: rest =>
    match (Op.redeemLocked c).run (Governor.handle w) g with
    | (.error _, g') => (g', s)
    | (.ok _, g') =>
      if s.claims.countP (fun d => d.claimId = c.claimId) = 1 then
        redeemEach w g' (s.book c (g'.ledger.entries.drop g.ledger.entries.length)) rest
      else ({ g with draws := g'.draws }, { s with failed := true })

/-- `redeem`: book the pending claims, or one of them. -/
def redeem (w : World) (g : Governor) (claim : Option SettlementClaim) :
    Governor × WriterSession ι :=
  redeemEach w g s (match claim with
    | none => s.claims
    | some claim => s.claims.filter fun c => c.claimId = claim.claimId)

end WriterSession

/-! ### The fleet -/

/-- Governors over one shared store, named by `ι`. -/
structure Fleet (ι : Type) where
  store : SharedStore
  member : ι → Member
  /-- The transaction that holds the writer lock, if one does. -/
  session : Option (WriterSession ι) := none
  /-- How many answers of the world have been drawn. -/
  draws : ℕ := 0
  /-- Every claim a transaction committed, and every booking: nothing reads these. -/
  owed : List SettlementClaim := []
  booked : List (SettlementClaim × List LedgerEntry) := []

namespace Fleet

/-- What happens in a fleet. -/
inductive Event (ι : Type)
  /-- A process opens the ledger, in the place of the one before it. -/
  | start (i : ι) (policy : GovernancePolicy)
  /-- `refresh`, a catch-up before the lock is taken, or a re-read after a session that did not
  commit. -/
  | refresh (i : ι)
  /-- The writer lock is granted for a mutation, or for a block, whose trips are noted. -/
  | enter (i : ι) (block : Bool)
  /-- The calls recorded under the keys of what is queued are read. -/
  | lookUp (i : ι) (keys : List Text)
  | perform (i : ι) (m : Mutation)
  | redeem (i : ι) (claim : Option SettlementClaim)
  /-- A trip of a block that did not commit, written on its own. -/
  | retrip (i : ι) (scope reason : Text)
  /-- A statement fails, or a block raises. -/
  | abandon (i : ι)
  | leave (i : ι) (ending : Ending)
  /-- `joined`: a caller's transaction takes the lock. -/
  | join (i : ι)
  | claim (i : ι) (scope : Text) (amount : AmountArg) (memo : Text) (hold : Option Authorization)
  /-- The caller commits or rolls back. -/
  | part (i : ι) (committed : Bool)

variable {ι : Type} [DecidableEq ι]

/-- A new fleet over an empty ledger. -/
def new (unit : Unit) (policy : ι → GovernancePolicy) : Fleet ι where
  store := { unit := unit }
  member i := { governor := Governor.new unit (policy i) true }

variable (f : Fleet ι)

/-- The session a governor holds the lock for, its own or one it joined. -/
def held (i : ι) (joined : Bool) : Option (WriterSession ι) :=
  f.session.filter fun s => s.holder = i ∧ s.joined = joined

/-- A member in another state. -/
def put (i : ι) (m : Member) : Fleet ι := { f with member := Function.update f.member i m }

/-- Work of a governor's own session: what it leaves of the governor, which goes on drawing. -/
def work (i : ι) (g : Governor) (s : WriterSession ι) : Fleet ι :=
  { f.put i { f.member i with governor := g } with session := some s, draws := g.draws }

/-- A governor that begins a session: it reads the calls recorded under keys in the store, and
notes the trips of a block. -/
def begun (g : Governor) (block : Bool) : Governor :=
  { g with keys := f.store.keys, draws := f.draws, trips := if block then some [] else none }

/-- The writer lock granted, and the ledger followed under it, for a session. A member that cannot
follow it leaves nothing written. -/
def grant (i : ι) (block joined : Bool) : Fleet ι :=
  if f.session.isSome ∨ (f.member i).unusable then f
  else
    match (f.member i).followed f.store with
    | .error e => f.put i ((f.member i).astray e)
    | .ok g =>
      { f.put i { governor := if joined then { g with draws := f.draws } else f.begun g block } with
        session := some { holder := i, joined := joined, claims := f.store.claims } }

/-- What a session wrote, committed. -/
def commit (g : Governor) (s : WriterSession ι) : Fleet ι :=
  { f with
    store := { f.store with entries := g.ledger.entries, keys := g.keys, claims := s.claims }
    booked := f.booked ++ s.booked }

/-- The end of a session of a governor's own: one that wrote, and does not know that it committed,
leaves its view to be read again. -/
def ended (i : ι) (s : WriterSession ι) (ending : Ending) : Fleet ι :=
  let g := (f.member i).governor
  let ending := if s.failed then .refused else ending
  let wrote : Bool := decide (f.store.entries.length < g.ledger.entries.length)
  let committed := if ending.happened then f.commit g s else f
  { committed.put i
      { f.member i with
        governor := { g.leave with trips := none }
        dirty := wrote && !(ending matches .committed) } with
    session := none }

/-- The end of a transaction a governor joined. -/
def parted (s : WriterSession ι) (committed : Bool) : Fleet ι :=
  if committed && !s.failed then
    { f with
      store := { f.store with claims := s.claims }
      owed := f.owed ++ s.claims.drop f.store.claims.length
      session := none }
  else { f with session := none }

/-- What an event makes of a fleet. What a governor cannot do now waits. -/
def step (w : World) : Event ι → Fleet ι
  | .start i policy =>
    if f.session.any fun s => s.holder = i then f
    else f.put i (.start f.store policy f.draws)
  | .refresh i =>
    if f.session.any fun s => s.holder = i then f
    else f.put i ((f.member i).follow f.store f.draws)
  | .enter i block => f.grant i block false
  | .lookUp i keys =>
    match f.held i false with
    | none => f
    | some s =>
      match (f.member i).governor.lookUpCalls keys with
      | .ok g => f.work i g s
      | .error _ => { f with session := some { s with failed := true } }
  | .perform i m =>
    match f.held i false with
    | none => f
    | some s => f.work i ((f.member i).governor.perform w m).2 s
  | .redeem i claim =>
    match f.held i false with
    | none => f
    | some s =>
      f.work i (s.redeem w (f.member i).governor claim).1
        (s.redeem w (f.member i).governor claim).2
  | .retrip i scope reason =>
    match f.held i false with
    | none => f
    | some s =>
      f.work i ((Op.trip scope reason).run (Governor.handle w) (f.member i).governor).2 s
  | .abandon i =>
    match f.held i false with
    | none => f
    | some s => { f with session := some { s with failed := true } }
  | .leave i ending =>
    match f.held i false with
    | none => f
    | some s => f.ended i s ending
  | .join i => f.grant i false true
  | .claim i scope amount memo hold =>
    match f.held i true with
    | none => f
    | some s =>
      match SettlementClaim.make (f.member i).governor (w.uuid f.draws) scope amount memo hold with
      | .error _ => f
      | .ok c => { f with session := some (s.claim c), draws := f.draws + 1 }
  | .part i committed =>
    match f.held i true with
    | none => f
    | some s => f.parted s committed

/-- A run of a fleet. -/
def run (w : World) : Fleet ι → List (Event ι) → Fleet ι := List.foldl fun f e => f.step w e

end Fleet

end AgentGov
