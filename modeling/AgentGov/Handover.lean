import Mathlib.Data.List.Nodup
import Mathlib.Logic.Function.Basic
import Mathlib.Tactic.Common

/-!
# Handing over the lead

Callers of one governor that arrive together share a unit of work. Each queues its request; one of
them leads, and runs what is queued, and hands the lead to the oldest caller still queued; the
others wait, each on a lock of its own that is released once, when its request is settled or when
it is to lead (`src/src/agentgov/core.py`, lines 3866–3885 and 4706–4794). A caller is one call of
`_submit`, and steps are those between which another thread may run. Whoever else takes the
governor's lock is outside.

## Main definitions

* `AgentGov.Handover.Stage`, `AgentGov.Handover.Phase`: where a caller is in `_submit` and `_lead`.
* `AgentGov.Handover.State`: the queue, the locks and the requests.
* `AgentGov.Handover.State.turn`: what a caller does next.
* `AgentGov.Handover.Reached`: the states of any interleaving.
-/

namespace AgentGov.Handover

/-- `_BATCH`: the most requests one unit of work runs. -/
def batchLimit : ℕ := 256

variable {κ α ε : Type*}

/-- Where the caller that leads is, in `_lead` with its batch. -/
inductive Stage (κ : Type*)
  /-- It is to take the governor's lock. -/
  | locking
  /-- `while not request.settled` -/
  | testing
  /-- The unit of work is to begin. -/
  | starting
  /-- It is to take what is queued. -/
  | collecting (batch : List κ)
  /-- It runs what it took. -/
  | running (batch todo : List κ)
  /-- The unit of work is to commit. -/
  | committing (batch : List κ)
  /-- The unit of work has ended, and requests are to be marked as settled. -/
  | marking (todo : List κ)
  /-- A request is marked, and its caller to be woken. -/
  | waking (request : κ) (todo : List κ)
  /-- The governor's lock is released, and a successor to be found. -/
  | handing
  /-- The successor is to be woken. -/
  | releasing (successor : κ)
deriving DecidableEq

/-- Whether the governor's lock is held. -/
def Stage.locked : Stage κ → Bool
  | .locking | .handing | .releasing _ => false
  | _ => true

/-- Where a caller is. -/
inductive Phase (κ : Type*)
  | absent
  /-- It waits for its own lock. -/
  | waiting
  /-- It has its own lock, and is to see whether its request is settled. -/
  | woken
  | leads (stage : Stage κ)
  /-- It has handed over, and is to return. -/
  | leaving
  | returned
deriving DecidableEq

/-- Who holds the governor's lock. -/
inductive Owner (κ : Type*)
  | caller (c : κ)
  | outside
deriving DecidableEq

/-- A unit of work: the requests it carries, and those of them that ran. -/
structure WorkUnit (κ : Type*) where
  carried : List κ := []
  ran : List κ := []
deriving DecidableEq

/-- The governor's queue and lock, and the request of every caller. -/
structure State (κ α ε : Type*) where
  queue : List κ := []
  leading : Bool := false
  lock : Option (Owner κ) := none
  phase : κ → Phase κ := fun _ => .absent
  /-- Whether a request's own lock is free. -/
  wake : κ → Bool := fun _ => false
  settled : κ → Bool := fun _ => false
  /-- A request's value or error, once it has one. -/
  outcome : κ → Option (Except ε α) := fun _ => none
  /-- The callers that queued, in that order. -/
  arrivals : List κ := []
  /-- The units of work that have ended. -/
  ended : List (WorkUnit κ) := []
  /-- The unit of work that has not. -/
  current : WorkUnit κ := {}

/-- What comes of the next thing a unit of work does. -/
inductive Nature (α ε : Type*)
  /-- It goes on; a request that is run returns or raises. -/
  | proceeds (result : Except ε α)
  /-- The unit fails. -/
  | fails (exc : ε)
  /-- The unit fails in the middle of a request. -/
  | interrupts (exc : ε)

namespace State

variable [DecidableEq κ] (s : State κ α ε)

/-- The state with a caller somewhere else. -/
def put (c : κ) (p : Phase κ) : State κ α ε := { s with phase := Function.update s.phase c p }

/-- The outcome of a request whose unit of work failed: its own error, or the unit's. -/
def failed (exc : ε) : Option (Except ε α) → Except ε α
  | some (.error e) => .error e
  | _ => .error exc

/-- The requests that fail with a unit of work: its batch, or what is queued where it has none. -/
def failing (batch : List κ) : List κ := if batch = [] then s.queue.take batchLimit else batch

/-- A unit of work that did not commit, or never began. -/
def fail (c : κ) (batch : List κ) (exc : ε) : State κ α ε :=
  let carried := s.failing batch
  let undone : State κ α ε := { s with
    queue := if batch = [] then s.queue.drop batchLimit else s.queue
    outcome := fun r => if r ∈ carried then some (failed exc (s.outcome r)) else s.outcome r
    ended := s.ended ++ [{ carried := carried, ran := s.current.ran }]
    current := {} }
  undone.put c (.leads (.marking carried))

/-- A unit of work that committed. -/
def commit (c : κ) (batch : List κ) : State κ α ε :=
  { s with ended := s.ended ++ [s.current], current := {} }.put c (.leads (.marking batch))

/-- What is queued taken into the batch, as far as there is room. -/
def take (c : κ) (batch : List κ) : State κ α ε :=
  let room := batchLimit - batch.length
  let taken := s.queue.take room
  if batch.length < batchLimit ∧ taken ≠ [] then
    { s with
      queue := s.queue.drop room
      current := { s.current with carried := batch ++ taken } }.put c
        (.leads (.running (batch ++ taken) taken))
  else s.put c (.leads (.committing batch))

/-- A request run. -/
def run (r : κ) (result : Except ε α) : State κ α ε :=
  { s with
    outcome := Function.update s.outcome r (some result)
    current := { s.current with ran := s.current.ran ++ [r] } }

/-- A request begun and not finished. -/
def begin (r : κ) : State κ α ε :=
  { s with current := { s.current with ran := s.current.ran ++ [r] } }

/-- What the caller that leads does next. -/
def lead (c : κ) (n : Nature α ε) : Stage κ → Option (State κ α ε)
  | .locking =>
    if s.lock = none then
      some ({ s with lock := some (.caller c) }.put c (.leads .testing))
    else none
  | .testing =>
    if s.settled c then some ({ s with lock := none }.put c (.leads .handing))
    else some (s.put c (.leads .starting))
  | .starting =>
    match n with
    | .proceeds _ => some (s.put c (.leads (.collecting [])))
    | .fails exc | .interrupts exc => some (s.fail c [] exc)
  | .collecting batch => some (s.take c batch)
  | .running batch [] => some (s.put c (.leads (.collecting batch)))
  | .running batch (r :: todo) =>
    match n with
    | .proceeds result => some ((s.run r result).put c (.leads (.running batch todo)))
    | .fails exc => some (s.fail c batch exc)
    | .interrupts exc => some ((s.begin r).fail c batch exc)
  | .committing batch =>
    match n with
    | .proceeds _ => some (s.commit c batch)
    | .fails exc | .interrupts exc => some (s.fail c batch exc)
  | .marking [] => some (s.put c (.leads .testing))
  | .marking (r :: todo) =>
    some ({ s with settled := Function.update s.settled r true }.put c (.leads (.waking r todo)))
  | .waking r todo =>
    some ({ s with wake := Function.update s.wake r true }.put c (.leads (.marking todo)))
  | .handing =>
    match s.queue.head? with
    | some t => some ({ s with leading := true }.put c (.leads (.releasing t)))
    | none => some ({ s with leading := false }.put c .leaving)
  | .releasing t => some ({ s with wake := Function.update s.wake t true }.put c .leaving)

/-- What a caller does next, where it can do anything. -/
def turn (c : κ) (n : Nature α ε) : Option (State κ α ε) :=
  match s.phase c with
  | .absent | .returned => none
  | .waiting =>
    if s.wake c then some ({ s with wake := Function.update s.wake c false }.put c .woken) else none
  | .woken => some (s.put c (if s.settled c then .returned else .leads .locking))
  | .leads stage => s.lead c n stage
  | .leaving => some (s.put c .returned)

/-- A caller queues its request, and leads where no other does. -/
def arrive (c : κ) : State κ α ε :=
  { s with
    queue := s.queue ++ [c]
    leading := true
    arrivals := s.arrivals ++ [c] }.put c (if s.leading then .waiting else .leads .locking)

end State

/-- Whose step it is. -/
inductive Actor (κ : Type*)
  /-- A caller that queues its request. -/
  | newcomer (c : κ)
  | caller (c : κ)
  | outside

variable [DecidableEq κ]

/-- One step. -/
inductive Step (s : State κ α ε) : Actor κ → State κ α ε → Prop
  | arrive {c : κ} (h : s.phase c = .absent) : Step s (.newcomer c) (s.arrive c)
  | turn {c : κ} {n : Nature α ε} {s' : State κ α ε} (h : s.turn c n = some s') :
      Step s (.caller c) s'
  | lock (h : s.lock = none) : Step s .outside { s with lock := some .outside }
  | unlock (h : s.lock = some .outside) : Step s .outside { s with lock := none }

/-- The states of any interleaving of the steps of any callers. -/
inductive Reached : State κ α ε → Prop
  | start : Reached {}
  | step {s s' : State κ α ε} {a : Actor κ} (h : Reached s) (hs : Step s a s') : Reached s'

end AgentGov.Handover
