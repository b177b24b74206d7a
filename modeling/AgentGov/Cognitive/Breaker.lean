import AgentGov.Foundation.Sequences
import AgentGov.Vocabulary
import Mathlib.Data.Finset.Basic

/-!
# The cognitive breaker

The breaker that halts a thrashing agent (`src/src/agentgov/cognitive.py`): the calls it records,
its inline detectors, its table of trajectories and its semantic lane.

Agents call from many threads, and the lane's worker is one more. A call holds the breaker's
mutex for a section at a time, so a run is a list of sections. A call that goes on after its first
section is kept in flight, and goes on later or never. Calls are objects that `record_result`
changes: they are kept on a heap, and a trajectory's history and a window name them by their
places, which count the calls recorded before.

The semantic observer is arbitrary: what it answers, or that it raises, comes with the step. So
does what `BudgetManager.trip` does. The worker may take a window whenever one is queued.

## Main definitions

* `AgentGov.Cognitive.Config`: what a breaker is built with, its policy included.
* `AgentGov.Cognitive.Breaker`: the state all threads share, and the calls in flight.
* `AgentGov.Cognitive.Event`: one section of a call, or one step of the worker.
* `AgentGov.Cognitive.Breaker.step`, `AgentGov.Cognitive.Breaker.run`,
  `AgentGov.Cognitive.Breaker.moments`: one step, a run, and all its steps.
-/

open Foundation

namespace AgentGov.Cognitive

/-! ### Calls and verdicts -/

/-- `_UNIT_SEPARATOR`. -/
def unitSeparator : Text := [31]

/-- `shingles`: a text as the set of its character n-grams, sampled from both ends. -/
def shingles (text : Text) (size maxChars : ℤ) : Finset Text :=
  let text :=
    if maxChars < text.length then
      slice text 0 (maxChars / 2) ++ unitSeparator ++ sliceFrom text (-(maxChars / 2))
    else text
  if text.length ≤ size then {text}
  else
    ((List.range (text.length - size + 1).toNat).map fun i => slice text i (i + size)).toFinset

/-- `ToolCall`: one observed tool invocation. -/
structure ToolCall where
  sequence : ℕ
  scopeId : Text
  tool : Text
  arguments : Text
  fingerprint : Text
  shingles : Finset Text
  timestamp : Instant
  resultShingles : Option (Finset Text)
deriving DecidableEq

/-- `Verdict.tier`. -/
inductive Tier
  | deterministic
  | semantic
deriving DecidableEq

/-- `Verdict`: a judgment that a trajectory is thrashing. -/
structure Verdict where
  detector : Text
  reason : Text
  observations : ℕ
  tier : Tier
  evidence : List (Text × Text)
deriving DecidableEq

/-- `LoopDetector.observe`: a judgment of a call against the history before it. A detector is
stateless by contract; it may raise. -/
abbrev Detector := ToolCall → List ToolCall → Except PUnit (Option Verdict)

/-- `ExactRepeatDetector`: trips when a call is repeated byte-identically `maxRepeats` times in a
row. `repr` is how a text is shown in the reason. -/
def exactRepeat (repr : Text → Text) (maxRepeats : ℤ) : Detector := fun call history =>
  if maxRepeats < 1 then .ok none
  else
    let same := history.reverse.takeWhile fun previous => previous.fingerprint = call.fingerprint
    let run := min (1 + same.length : ℤ) (max maxRepeats 2)
    if run < maxRepeats then .ok none
    else
      .ok (some {
        detector := txt "exact_repeat"
        reason := decimalDigits run.toNat ++ txt " byte-identical calls to " ++ repr call.tool ++
          txt " in a row (fingerprint " ++ slice call.fingerprint 0 12 ++ txt ")"
        observations := history.length + 1
        tier := .deterministic
        evidence := [(txt "repeats", decimalDigits run.toNat),
          (txt "fingerprint", call.fingerprint)] })

/-- What `CallCycleDetector` finds at one period. -/
def cycleAt (minRepeats : ℕ) (fingerprints : List Text) (observations period : ℕ) :
    Option Verdict :=
  let span := period * minRepeats
  if fingerprints.length < span then none
  else
    let tail := fingerprints.drop (fingerprints.length - span)
    let distinct := tail.dedup.length
    if (List.range span).all (fun i => tail[i]? = tail[i % period]?) ∧ 2 ≤ distinct then
      some {
        detector := txt "call_cycle"
        reason := txt "call-graph cycle of period " ++ decimalDigits period ++
          txt " repeated " ++ decimalDigits minRepeats ++ txt " times (" ++
          decimalDigits distinct ++ txt " distinct calls looping with no progress)"
        observations := observations
        tier := .deterministic
        evidence := [(txt "period", decimalDigits period),
          (txt "repeats", decimalDigits minRepeats)] }
    else none

/-- `CallCycleDetector`: trips on a repeating cycle of at least two different calls. -/
def callCycle (maxPeriod minRepeats : ℤ) : Detector := fun call history =>
  if maxPeriod < 2 ∨ minRepeats < 2 then .ok none
  else
    let fingerprints := history.map ToolCall.fingerprint ++ [call.fingerprint]
    .ok (((List.range (maxPeriod - 1).toNat).map (· + 2)).findSome?
      (cycleAt minRepeats.toNat fingerprints (history.length + 1)))

/-! ### What a breaker is built with -/

/-- `CognitivePolicy`, as far as the breaker itself reads it. -/
structure Policy where
  maxIdenticalRepeats : ℤ
  comparisonWindow : ℤ
  maxCyclePeriod : ℤ
  minCycleRepeats : ℤ
  historyLimit : ℤ
  maxTrajectories : ℤ
  shingleSize : ℤ
  maxArgumentChars : ℤ
  exemptTools : List Text
  retainArguments : Bool
  asyncQueueSize : ℤ

/-- What a call can raise. -/
inductive Failure
  /-- `UnicodeEncodeError`: the text of the call holds a lone surrogate. -/
  | unicodeEncode
  /-- `ValueError` of `blake2b`: the salt is too long for a key. -/
  | digestKey
  /-- `ValueError` of `deque`: the history limit is negative. -/
  | negativeLimit
  /-- `KeyError` of `popitem`: fewer than no trajectories are to be kept. -/
  | dictionaryIsEmpty
  /-- Whatever `BudgetManager.trip` raises but `UnknownScopeError`. -/
  | trip
deriving DecidableEq

/-- What a `CognitiveBreaker` is built with. -/
structure Config where
  policy : Policy
  /-- The inline detectors, in evaluation order. -/
  detectors : List Detector
  /-- `Redactor.redact`, which may raise. -/
  redactor : Option (Text → Text → Except PUnit Text)
  /-- `hashlib.blake2b(…, key=self._salt, digest_size=16).hexdigest()`. -/
  blake2b : List Byte → Except Failure Text
  /-- Whether there is a semantic observer. -/
  semantic : Bool

/-- `_default_detectors`; the near-duplicate detector compares by floating point. -/
def defaultDetectors (repr : Text → Text) (nearDuplicate : Detector) (policy : Policy) :
    List Detector :=
  [exactRepeat repr policy.maxIdenticalRepeats, nearDuplicate,
    callCycle policy.maxCyclePeriod policy.minCycleRepeats]

namespace Config

variable (cfg : Config)

/-- `_redact`: a redactor that raises leaves no text. -/
def redact (tool text : Text) : Text :=
  match cfg.redactor with
  | none => text
  | some redactor =>
    match redactor tool text with
    | .ok redacted => redacted
    | .error _ => []

/-- `_digest`: the salted digest of the full text. -/
def digest (text : Text) : Except Failure Text :=
  match text.utf8 with
  | none => .error .unicodeEncode
  | some bytes => cfg.blake2b bytes

/-- `shingles` with the policy's bounds. -/
def shingled (text : Text) : Finset Text :=
  shingles text cfg.policy.shingleSize cfg.policy.maxArgumentChars

end Config

/-! ### The state -/

/-- The calls a verdict is computed from: the call that was observed last, and the window before
and with it, by their places among all calls recorded. -/
structure Sample where
  call : ℕ
  window : List ℕ
deriving DecidableEq

/-- A verdict, with the calls it was computed from. -/
structure Finding where
  verdict : Verdict
  sample : Sample
deriving DecidableEq

/-- `_Trajectory`: what the breaker tracks for one logical unit of work. -/
structure Trajectory where
  /-- The calls retained, oldest first, by their places. -/
  calls : List ℕ
  observed : ℕ
  verdict : Option Finding
  pending : Option Finding
deriving DecidableEq

/-- A new trajectory. -/
def Trajectory.new : Trajectory := ⟨[], 0, none, none⟩

/-- A window handed to the semantic lane. -/
structure Item where
  trajectory : Text
  sample : Sample
deriving DecidableEq

/-- What a call has yet to do once its first section is over. -/
inductive Pending
  /-- `_enqueue`: hand over the window. -/
  | enqueue (item : Item)
  /-- `_halt`: trip the financial breaker and raise. -/
  | halt (scopeId trajectory : Text) (finding : Finding)
  /-- The second section of `record_result`: attach the result's shingles. -/
  | attach (trajectory : Text) (digest : Finset Text)
deriving DecidableEq

/-- What the worker of the semantic lane is doing. -/
inductive Lane
  | idle
  | taken (item : Item)
  | evaluated (item : Item) (verdict : Option Verdict)
deriving DecidableEq

/-- The state all threads share, and the calls in flight. -/
structure Breaker where
  /-- Every call recorded, oldest first. -/
  heap : List ToolCall
  /-- `_trajectories`, least recently used first. -/
  trajectories : Dict Text Trajectory
  /-- `_queue`: the windows waiting for the worker. -/
  queue : List Item
  lane : Lane
  /-- The calls that have left their first section and have more to do. -/
  inFlight : List Pending
deriving DecidableEq

/-- A breaker as it is built. -/
def Breaker.new : Breaker := ⟨[], ∅, [], .idle, []⟩

/-! ### Sections of calls -/

/-- The arguments of `observe`, and the time it reads. -/
structure Observation where
  scopeId : Text
  tool : Text
  arguments : Text
  trajectory : Option Text
  now : Instant
deriving DecidableEq

/-- The trajectory a call belongs to: its own, or its scope's. -/
def Observation.key (o : Observation) : Text := o.trajectory.getD o.scopeId

/-- What comes of a section. -/
inductive Outcome
  /-- The call returns. -/
  | returned
  /-- The call leaves the mutex and has more to do. -/
  | goesOn (pending : Pending)
  /-- The call raises `AgentThrashingError`. -/
  | agentThrashing (scopeId trajectory : Text) (finding : Finding)
  /-- The call raises something else. -/
  | raised (failure : Failure)
deriving DecidableEq

/-- What `BudgetManager.trip` does, where there is a manager. -/
inductive Trip
  | done
  | unknownScope
  | failed
deriving DecidableEq

namespace Config

variable (cfg : Config)

/-- `_touch`: fetch or create a trajectory, evicting the least recently used. -/
def touch (table : Dict Text Trajectory) (key : Text) :
    Dict Text Trajectory × Except Failure Trajectory :=
  match table.get? key with
  | some state => (table.moveToEnd key, .ok state)
  | none =>
    if cfg.policy.historyLimit < 0 then (table, .error .negativeLimit)
    else
      let table := (table.set key Trajectory.new).popOver cfg.policy.maxTrajectories
      if cfg.policy.maxTrajectories < 0 then (table, .error .dictionaryIsEmpty)
      else (table, .ok Trajectory.new)

/-- The first verdict of the inline detectors; one that raises is skipped. -/
def firstVerdict (call : ToolCall) (window : List ToolCall) : List Detector → Option Verdict
  | [] => none
  | detector :: rest =>
    match detector call window with
    | .ok (some verdict) => some verdict
    | .ok none => firstVerdict call window rest
    | .error _ => firstVerdict call window rest

/-- `_judge`: run every inline detector over the last calls, the first verdict wins. `place` is
where the call is recorded. -/
def judge (heap : List ToolCall) (call : ToolCall) (place : ℕ) (history : List ℕ) :
    Option Finding :=
  let window := sliceFrom history (-cfg.policy.comparisonWindow)
  (firstVerdict call (window.filterMap (heap[·]?)) cfg.detectors).map (⟨·, ⟨place, window⟩⟩)

/-- The call an observation records, before it has its place in the trajectory. -/
def toolCall (o : Observation) (arguments text fingerprint : Text) : ToolCall where
  sequence := 0
  scopeId := o.scopeId
  tool := o.tool
  arguments :=
    if cfg.policy.retainArguments then slice arguments 0 cfg.policy.maxArgumentChars else []
  fingerprint := fingerprint
  shingles := cfg.shingled text
  timestamp := o.now
  resultShingles := none

end Config

namespace Breaker

variable (cfg : Config)

/-- What is written to a trajectory's state, where the table still holds the state. -/
def put (b : Breaker) (key : Text) (state : Trajectory) : Breaker :=
  if b.trajectories.contains key then { b with trajectories := b.trajectories.set key state }
  else b

/-- The part of `observe` for a trajectory that is not latched: enforce a semantic verdict, or
record the call and judge it. -/
def record (b : Breaker) (o : Observation) (state : Trajectory) (call : ToolCall) :
    Breaker × Outcome :=
  let place := b.heap.length
  let call := { call with sequence := state.observed + 1 }
  let calls := pushLast cfg.policy.historyLimit.toNat state.calls place
  let found :=
    match state.pending with
    | some finding => some finding
    | none => cfg.judge b.heap call place state.calls
  let b := { b with heap := b.heap ++ [call] }.put o.key ⟨calls, state.observed + 1, found, none⟩
  match found with
  | some finding => (b, .goesOn (.halt o.scopeId o.key finding))
  | none =>
    if cfg.semantic then (b, .goesOn (.enqueue ⟨o.key, ⟨place, calls⟩⟩))
    else (b, .returned)

/-- `observe`, up to the end of its section under the mutex. -/
def observe (b : Breaker) (o : Observation) : Breaker × Outcome :=
  if o.tool ∈ cfg.policy.exemptTools then (b, .returned)
  else
    let arguments := cfg.redact o.tool o.arguments
    let text := o.tool ++ unitSeparator ++ arguments
    match cfg.digest text with
    | .error failure => (b, .raised failure)
    | .ok fingerprint =>
      let call := cfg.toolCall o arguments text fingerprint
      match cfg.touch b.trajectories o.key with
      | (table, .error failure) => ({ b with trajectories := table }, .raised failure)
      | (table, .ok state) =>
        let b := { b with trajectories := table }
        match state.verdict with
        | some finding => (b, .goesOn (.halt o.scopeId o.key finding))
        | none => b.record cfg o state call

/-- `check`: refuse a call on a latched trajectory, without recording one. -/
def check (b : Breaker) (scopeId : Text) (trajectory : Option Text) : Breaker × Outcome :=
  let key := trajectory.getD scopeId
  match b.trajectories.get? key with
  | none => (b, .returned)
  | some state =>
    match state.verdict, state.pending with
    | some finding, _ => (b, .goesOn (.halt scopeId key finding))
    | none, some finding =>
      (b.put key { state with verdict := some finding, pending := none },
        .goesOn (.halt scopeId key finding))
    | none, none => (b, .returned)

/-- The tool of the call a trajectory recorded last, or no text. -/
def lastTool (b : Breaker) (key : Text) : Text :=
  match b.trajectories.get? key with
  | some state =>
    match state.calls.getLast? with
    | some place => (b.heap[place]?.map ToolCall.tool).getD []
    | none => []
  | none => []

/-- The first section of `record_result`, and the shingles of the result's text. -/
def recordResult (b : Breaker) (scopeId payload : Text) (trajectory : Option Text) : Outcome :=
  let key := trajectory.getD scopeId
  .goesOn (.attach key (cfg.shingled (cfg.redact (b.lastTool key) payload)))

/-- The second section of `record_result`. -/
def attach (b : Breaker) (key : Text) (digest : Finset Text) : Breaker :=
  match b.trajectories.get? key with
  | some state =>
    match state.calls.getLast? with
    | some place =>
      { b with heap := b.heap.modify place ({ · with resultShingles := some digest }) }
    | none => b
  | none => b

/-- `reset`: clear a trajectory's history and unlatch it. -/
def reset (b : Breaker) (trajectory : Text) : Breaker :=
  { b with trajectories := b.trajectories.erase trajectory }

/-- `_enqueue`: hand a window to the semantic lane, dropping it if saturated. -/
def enqueue (b : Breaker) (item : Item) : Breaker :=
  if 0 < cfg.policy.asyncQueueSize ∧ cfg.policy.asyncQueueSize ≤ b.queue.length then b
  else { b with queue := b.queue ++ [item] }

/-- `_halt`: latch the financial breaker and raise. -/
def halt (scopeId trajectory : Text) (finding : Finding) : Trip → Outcome
  | .failed => .raised .trip
  | _ => .agentThrashing scopeId trajectory finding

/-- The call in flight at a place goes on to its end. -/
def resume (b : Breaker) (place : ℕ) (trip : Trip) : Breaker × Outcome :=
  match b.inFlight[place]? with
  | none => (b, .returned)
  | some pending =>
    let b := { b with inFlight := b.inFlight.eraseIdx place }
    match pending with
    | .enqueue item => (b.enqueue cfg item, .returned)
    | .halt scopeId trajectory finding => (b, halt scopeId trajectory finding trip)
    | .attach trajectory digest => (b.attach trajectory digest, .returned)

/-! ### The worker of the semantic lane -/

/-- The worker takes the oldest window. -/
def take (b : Breaker) : Breaker :=
  match b.lane, b.queue with
  | .idle, item :: rest => { b with lane := .taken item, queue := rest }
  | _, _ => b

/-- The observer answers, or raises: the first part of `_evaluate_window`. -/
def evaluate (b : Breaker) (answer : Except PUnit (Option Verdict)) : Breaker :=
  match b.lane, answer with
  | .taken item, .ok verdict => { b with lane := .evaluated item verdict }
  | .taken _, .error _ => { b with lane := .idle }
  | _, _ => b

/-- The section of `_evaluate_window` under the mutex: the verdict waits for the next call. -/
def publish (b : Breaker) : Breaker :=
  match b.lane with
  | .evaluated item verdict =>
    let b := { b with lane := .idle }
    match verdict, b.trajectories.get? item.trajectory with
    | some verdict, some state =>
      if state.verdict = none ∧ state.pending = none then
        b.put item.trajectory { state with pending := some ⟨verdict, item.sample⟩ }
      else b
    | _, _ => b
  | _ => b

end Breaker

/-! ### Steps and runs -/

/-- One section of a call, or one step of the worker. -/
inductive Event
  | observe (o : Observation)
  | check (scopeId : Text) (trajectory : Option Text)
  /-- `record_result` of a result whose text is `payload`. -/
  | recordResult (scopeId payload : Text) (trajectory : Option Text)
  | reset (trajectory : Text)
  /-- The call in flight at `place` goes on; `trip` is what the manager does if it halts. -/
  | resume (place : ℕ) (trip : Trip)
  | take
  | evaluate (answer : Except PUnit (Option Verdict))
  | publish
deriving DecidableEq

namespace Breaker

variable (cfg : Config)

/-- A section before the call it belongs to is put in flight. -/
def handle (b : Breaker) : Event → Breaker × Outcome
  | .observe o => b.observe cfg o
  | .check scopeId trajectory => b.check scopeId trajectory
  | .recordResult scopeId payload trajectory =>
    (b, b.recordResult cfg scopeId payload trajectory)
  | .reset trajectory => (b.reset trajectory, .returned)
  | .resume place trip => b.resume cfg place trip
  | .take => (b.take, .returned)
  | .evaluate answer => (b.evaluate answer, .returned)
  | .publish => (b.publish, .returned)

/-- A call that goes on is kept in flight. -/
def launch (b : Breaker) : Outcome → Breaker
  | .goesOn pending => { b with inFlight := b.inFlight ++ [pending] }
  | _ => b

/-- One step. -/
def step (b : Breaker) (e : Event) : Breaker :=
  (b.handle cfg e).1.launch (b.handle cfg e).2

/-- A run. -/
def run (b : Breaker) (es : List Event) : Breaker := es.foldl (step cfg) b

@[simp] theorem run_nil (b : Breaker) : b.run cfg [] = b := rfl

@[simp] theorem run_cons (b : Breaker) (e : Event) (es : List Event) :
    b.run cfg (e :: es) = (b.step cfg e).run cfg es := rfl

theorem run_append (b : Breaker) (es es' : List Event) :
    b.run cfg (es ++ es') = (b.run cfg es).run cfg es' := List.foldl_append

end Breaker

/-- One step of a run: the state it found, what it did, and what came of it. -/
structure Moment where
  breaker : Breaker
  event : Event
  outcome : Outcome

/-- The steps of a run. -/
def Breaker.moments (cfg : Config) (b : Breaker) : List Event → List Moment
  | [] => []
  | e :: es => ⟨b, e, (b.handle cfg e).2⟩ :: (b.step cfg e).moments cfg es

theorem Breaker.moments_append (cfg : Config) (b : Breaker) (es es' : List Event) :
    b.moments cfg (es ++ es') = b.moments cfg es ++ (b.run cfg es).moments cfg es' := by
  induction es generalizing b with
  | nil => rfl
  | cons e es ih => simp only [List.cons_append, moments, run_cons, ih]

end AgentGov.Cognitive
