import AgentGov.Sharing
import AgentGov.Runs

/-!
# Group commit

Over a single-writer store, callers that arrive together share a unit of work: the first of them
looks up in the store every key of what is queued and runs it in order, again until nothing is
queued, and the store's transaction is committed once (`src/src/agentgov/core.py`, lines 4706–4794,
5159–5189 and 6822–6840, and `src/src/agentgov/storage.py`, lines 913–927). A key that cannot be
looked up fails the whole batch, and what it wrote is rolled back.

## Main definitions

* `AgentGov.Governor.lead`: what is queued, run in one unit of work.
* `AgentGov.Governor.leadAlone`: what is queued, each request in a unit of its own.
* `AgentGov.Governor.serve`: what a governor does of a call, a batch or a block.
-/

open Foundation

namespace AgentGov

/-- Why a request of a batch fails. -/
inductive Failure
  /-- What the request itself raised. -/
  | own (e : Exception)
  /-- What looking up a key raised: a `UnicodeEncodeError` where it has no UTF-8, a `StorageError`
  or an `OverflowError` where it is too long. -/
  | lookUp (key : Text)
deriving DecidableEq

/-- What a caller of a batch gets. -/
abbrev Reply := Except Failure Answer

/-- What a request comes to: what its caller gets, and the entries its unit of work leaves of it. -/
structure Served where
  reply : Reply
  wrote : List LedgerEntry

/-- The idempotency key of a call. -/
def Mutation.key : Mutation → Option Text
  | .fund _ _ _ key | .delegate _ _ _ _ key | .authorize _ _ _ key | .tryAuthorize _ _ _ key
  | .capture _ _ _ key | .void _ _ key | .spend _ _ _ key | .refund _ _ _ _ key => key
  | .openRoot .. | .release .. | .anchor .. | .voidStale .. | .trip .. | .reset .. => none

namespace Governor

variable (w : World) (g : Governor)

/-- The keys of a batch that are to be looked up in the store. -/
def wanted (keys : List Text) : List Text :=
  (keys.eraseDups.filter fun key => (g.unitCalls.get? key).isNone).filter fun key =>
    (g.keyCache.get? key).isNone

/-- `_look_up_calls`: read the calls recorded under keys, in one query, for the unit of work about
to run the calls made under them. -/
def lookUpCalls (keys : List Text) : Except Text Governor :=
  if ¬g.store ∨ g.wanted keys = [] then .ok g
  else
    match (g.wanted keys).find? fun key => !bindable key with
    | some key => .error key
    | none => .ok { g with
        keyCache := (g.wanted keys).foldl (fun cache key => cache.set key (g.keys.get? key))
          g.keyCache }

/-- What a request comes to where its own work decides it. -/
def served (m : Mutation) : Served where
  reply := (g.perform w m).1.mapError .own
  wrote := (g.perform w m).2.ledger.entries.drop g.ledger.entries.length

/-- The requests, each called on its own. -/
def callAll : Governor → List Mutation → List Served × Governor
  | g, [] => ([], g)
  | g, m :: rest =>
    (g.served w m :: (callAll (g.call w m).2 rest).1, (callAll (g.call w m).2 rest).2)

/-- The requests taken, run in order, each failure its own. -/
def runTaken : Governor → List Mutation → List Served × Governor
  | g, [] => ([], g)
  | g, m :: rest =>
    (g.served w m :: (runTaken (g.perform w m).2 rest).1, (runTaken (g.perform w m).2 rest).2)

/-- What was queued at each turn, looked up and run. Where a lookup raises, the key, and what is
still queued. -/
def drain : Governor → List (List Mutation) →
    List Served × Governor × Option (Text × List (List Mutation))
  | g, [] => ([], g, none)
  | g, taken :: queue =>
    match g.lookUpCalls (taken.filterMap Mutation.key) with
    | .error key => (taken.map fun _ => ⟨.error (.lookUp key), []⟩, g, some (key, queue))
    | .ok g =>
      ((g.runTaken w taken).1 ++ (drain (g.runTaken w taken).2 queue).1,
        (drain (g.runTaken w taken).2 queue).2)

/-- `_reload`: the view of a store rebuilt from what it holds, as an open would. -/
def reload (committed : Governor) : Except Error Governor := do
  let state ← replay committed.ledger.entries [] false none
    (some (refundsIn committed.ledger.entries)) g.ledger.state.unit
  .ok { g with
    ledger :=
      { entries := committed.ledger.entries
        state := state
        openAuths := state.holds.mapValues authorizationFor }
    keys := committed.keys }

/-- `_roll_back` of a governor over a single-writer store, which holds what was committed: its view
is read again if the unit of work wrote anything. One that cannot be read again refuses every
later mutation. -/
def rollBackTo (committed : Governor) : Except Error Governor :=
  if committed.ledger.entries.length < g.ledger.entries.length then g.reload committed else .ok g

/-- What a request of a failed batch comes to: its own failure, if it had one, and no entry. -/
def fail (key : Text) (x : Served) : Served where
  reply :=
    match x.reply with
    | .ok _ => .error (.lookUp key)
    | .error failure => .error failure
  wrote := []

/-- `_lead`: what is queued, turn by turn, run in one unit of work of a store. What every request
that was taken comes to, the governor after it, and what is still queued. -/
def lead (queue : List (List Mutation)) :
    List Served × Except Error Governor × List (List Mutation) :=
  match g.drain w queue with
  | (served, g', none) => (served, .ok g'.leave, [])
  | (served, g', some (key, left)) => (served.map (fail key), g'.leave.rollBackTo g, left)

/-- The requests, each in a unit of work of its own. After one that leaves the governor unusable,
none is served. -/
def leadAlone : Governor → List Mutation → List Served × Except Error Governor
  | g, [] => ([], .ok g)
  | g, m :: rest =>
    match g.lead w [[m]] with
    | (served, .ok g, _) => (served ++ (leadAlone g rest).1, (leadAlone g rest).2)
    | (served, .error e, _) => (served, .error e)

/-! ### Orders -/

/-- `_roll_back`: what is served, and recorded of calls, as it was before a unit of work that is
not committed. -/
def rollBackUnit (before : Governor) : Except Error Governor :=
  if g.store then g.rollBackTo before else g.rollBack before.ledger.entries.length

/-- What is asked of a governor: a call by one that holds its lock, what its callers have queued,
or a block. -/
inductive Order
  | alone (m : Mutation)
  | batch (queue : List (List Mutation))
  | block (b : Block)

/-- The governor an order leaves, if it is one that still serves. Without a store, queued calls
are run one after another. -/
def serve : Order → Except Error Governor
  | .alone m => .ok (g.call w m).2
  | .batch queue =>
    if g.store then (g.lead w queue).2.1 else .ok (g.callAll w queue.flatten).2
  | .block b =>
    match runBlock w { g with trips := some [] } b.calls b.raises with
    | (none, g') => .ok { g'.leave with trips := none }
    | (some _, g') => do
      let back ← { g'.leave with trips := none }.rollBackUnit g
      .ok (back.retrip w (g'.trips.getD []))

/-- The governor a run of orders leaves. -/
def serveAll : Governor → List Order → Except Error Governor := List.foldlM (serve w)

end Governor

end AgentGov
