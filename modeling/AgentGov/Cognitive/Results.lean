import AgentGov.Cognitive.Loops
import AgentGov.Cognitive.Slate

/-!
# Results and their calls

An interceptor's call is observed by the breaker, runs its function, and records the result: the
breaker attaches it to the newest call of the trajectory. Other calls on the trajectory may be
observed in between, and a call of an exempt tool is not recorded at all; the result then lands on
a call that is not its own. Where a call is recorded, and no other on its trajectory until its
result is attached, every result recorded is that of its call.

## Main definitions

* `AgentGov.Cognitive.Floor`: the breaker, and the calls made through interceptors.
* `AgentGov.Cognitive.Floor.Belongs`: every result attached to a call is that of its response.
* `AgentGov.Cognitive.Floor.Undisturbed`: no call is recorded between another and its result.

## Main results

* `AgentGov.Cognitive.Breaker.Grows`: what a step of the breaker leaves of the calls recorded.
* `AgentGov.Cognitive.Floor.results_belong`: results belong to their calls in every run that is
  undisturbed.
* `AgentGov.Cognitive.Floor.crossed_not_belongs`: two calls at once, and a result on the wrong one.
-/

open Foundation

namespace AgentGov.Cognitive

/-! ### Calls through interceptors -/

/-- How far a call has come once it was observed. -/
inductive Stage
  | running
  /-- The function returned a text, and `record_result` is between its sections. -/
  | returned (payload : Text) (digest : Finset Text)
  | over (payload : Text)
deriving DecidableEq

/-- A call made through an interceptor: its observation, and the place its call was recorded at. -/
structure Caller where
  observation : Observation
  place : Option ℕ
  stage : Stage
deriving DecidableEq

/-- The breaker, and the calls made through the interceptors on it. -/
structure Floor where
  breaker : Breaker
  callers : List Caller

/-- Before the first call. -/
def Floor.new : Floor := ⟨.new, []⟩

/-- Whether an observation lets its call go ahead. -/
def Outcome.GoesAhead : Outcome → Bool
  | .returned => true
  | .goesOn (.enqueue _) => true
  | _ => false

/-- The trajectory on which a step of the breaker records a call, if it records one. -/
def Event.recordsOn (cfg : Config) (b : Breaker) : Event → Option Text
  | .observe o => if b.heap.length < (b.observe cfg o).1.heap.length then some o.key else none
  | _ => none

/-- Whether a step of the breaker is none of `record_result`. -/
def Event.RecordsNothing : Event → Bool
  | .recordResult _ _ _ => false
  | _ => true

/-- One section of an interceptor's call, or anything else the breaker does meanwhile: calls of
the adapters, which record no result, resets, the semantic lane. -/
inductive Move
  /-- `_observe_cognitive`. -/
  | call (o : Observation)
  /-- The function of a call returns, and `record_result` reads the tool of the newest call. -/
  | returns (i : ℕ) (payload : Text)
  /-- `record_result` attaches the result. -/
  | attaches (i : ℕ)
  | other (e : Event) (h : e.RecordsNothing = true)

/-- The newest call a trajectory retains. -/
def Breaker.newest (b : Breaker) (key : Text) : Option ℕ :=
  (b.trajectories.get? key).bind (·.calls.getLast?)

namespace Config

variable (cfg : Config)

/-- The shingles of what a call of a tool returned. -/
def resultShingles (tool payload : Text) : Finset Text := cfg.shingled (cfg.redact tool payload)

end Config

namespace Floor

variable (cfg : Config)

/-- One step. -/
def step (f : Floor) : Move → Floor
  | .call o =>
    let breaker := f.breaker.step cfg (.observe o)
    let place := if o.tool ∈ cfg.policy.exemptTools then none else some f.breaker.heap.length
    if (f.breaker.observe cfg o).2.GoesAhead then
      ⟨breaker, f.callers ++ [⟨o, place, .running⟩]⟩
    else { f with breaker }
  | .returns i payload =>
    match f.callers[i]? with
    | some ⟨o, place, .running⟩ =>
      let digest := cfg.resultShingles (f.breaker.lastTool o.key) payload
      { f with callers := f.callers.set i ⟨o, place, .returned payload digest⟩ }
    | _ => f
  | .attaches i =>
    match f.callers[i]? with
    | some ⟨o, place, .returned payload digest⟩ =>
      ⟨f.breaker.attach o.key digest, f.callers.set i ⟨o, place, .over payload⟩⟩
    | _ => f
  | .other e _ => { f with breaker := f.breaker.step cfg e }

/-- A run. -/
def run (f : Floor) (ms : List Move) : Floor := ms.foldl (step cfg) f

/-- Every result attached to a recorded call is that of the call's own response. -/
def Belongs (f : Floor) : Prop :=
  ∀ p call digest, f.breaker.heap[p]? = some call → call.resultShingles = some digest →
    ∃ caller ∈ f.callers, caller.place = some p ∧
      ∃ payload, caller.stage = .over payload ∧ digest = cfg.resultShingles call.tool payload

/-- The trajectory on which a step records a call, if it records one. -/
def recordsOn (f : Floor) : Move → Option Text
  | .call o => (Event.observe o).recordsOn cfg f.breaker
  | .other e _ => e.recordsOn cfg f.breaker
  | _ => none

/-- The floor after the first moves of a run. -/
def after (ms : List Move) (n : ℕ) : Floor := Floor.new.run cfg (ms.take n)

/-- Whether the move at `j` is a call, the `i`-th to go ahead. -/
structure Opens (ms : List Move) (j i : ℕ) (o : Observation) : Prop where
  move : ms[j]? = some (.call o)
  index : i = (after cfg ms j).callers.length
  ahead : ((after cfg ms j).breaker.observe cfg o).2.GoesAhead = true

/-- Whether the move at `n` attaches the result of the `i`-th call to go ahead. -/
structure Closes (ms : List Move) (n i : ℕ) : Prop where
  move : ms[n]? = some (.attaches i)
  returned : ∃ o place payload digest,
    (after cfg ms n).callers[i]? = some ⟨o, place, .returned payload digest⟩

/-- Whether each call whose result is attached is of a tool that is not exempt, and no other call
was recorded on its trajectory in between; or the trajectory has been cleared since. -/
def Undisturbed (ms : List Move) : Prop :=
  ∀ j n i o, j < n → Opens cfg ms j i o → Closes cfg ms n i →
    (after cfg ms n).breaker.newest o.key = none ∨
      o.tool ∉ cfg.policy.exemptTools ∧
        ∀ k m, j < k → k < n → ms[k]? = some m → (after cfg ms k).recordsOn cfg m ≠ some o.key

/-- Whether a result that is attached finds its own call newest, or no call at all. -/
def Meets (f : Floor) : Move → Prop
  | .attaches i => ∀ o place payload digest,
      f.callers[i]? = some ⟨o, place, .returned payload digest⟩ →
        ∀ p, f.breaker.newest o.key = some p → place = some p
  | _ => True

end Floor

/-! ### What a step leaves of the calls recorded -/

namespace Breaker

variable {cfg : Config} {b : Breaker}

/-- A step of the breaker but `record_result`: calls recorded stay as they are, new ones have no
result, and none becomes the newest of a trajectory but one that is recorded on it. -/
structure Grows (b b' : Breaker) (recorded : Option Text) : Prop where
  heap : ∃ calls, b'.heap = b.heap ++ calls ∧ ∀ call ∈ calls, call.resultShingles = none
  newest : ∀ k p, b'.newest k = some p → b.newest k = some p ∨
    recorded = some k ∧ p = b.heap.length

/-- No result is about to be attached by the breaker itself. -/
def Unattaching (b : Breaker) : Prop := ∀ k d, Pending.attach k d ∉ b.inFlight

/-- The newest call of a trajectory was recorded before, if not by the step itself. -/
theorem Grows.newest_of_lt {b' : Breaker} {recorded : Option Text} (h : b.Grows b' recorded)
    {k : Text} {p : ℕ} (hnewest : b'.newest k = some p) (hp : p < b.heap.length) :
    b.newest k = some p := by
  rcases h.newest k p hnewest with hnewest | ⟨-, rfl⟩
  · exact hnewest
  · exact absurd hp (lt_irrefl _)

/-- A step that records no call and makes none the newest. -/
theorem Grows.of_newest {b' : Breaker} {recorded : Option Text} (hheap : b'.heap = b.heap)
    (hnewest : ∀ k p, b'.newest k = some p → b.newest k = some p) : b.Grows b' recorded where
  heap := ⟨[], by rw [hheap, List.append_nil], by simp⟩
  newest k p h := .inl (hnewest k p h)

theorem Grows.of_eq {b' : Breaker} {recorded : Option Text} (hheap : b'.heap = b.heap)
    (htable : b'.trajectories = b.trajectories) : b.Grows b' recorded :=
  .of_newest hheap fun k p h => by rwa [Breaker.newest, htable] at h

theorem newest_put {key k : Text} {state : Trajectory} {p : ℕ}
    (h : (b.put key state).newest k = some p) :
    b.newest k = some p ∨ k = key ∧ state.calls.getLast? = some p := by
  rw [newest, get?_put] at h
  split_ifs at h with hk
  · exact .inr ⟨hk.1, h⟩
  · exact .inl h

theorem newest_touch {key k : Text} {p : ℕ}
    (h : ({ b with trajectories := (cfg.touch b.trajectories key).1 } : Breaker).newest k =
      some p) : b.newest k = some p := by
  obtain ⟨state, hstate, hlast⟩ := Option.bind_eq_some_iff.mp h
  rcases get?_touch hstate with hfound | rfl
  · rw [newest, hfound]
    exact hlast
  · simp [Trajectory.new] at hlast

theorem getLast?_pushLast {limit p place : ℕ} {calls : List ℕ}
    (h : (pushLast limit calls place).getLast? = some p) : p = place := by
  rw [pushLast, List.getLast?_drop, List.getLast?_append, List.getLast?_singleton] at h
  split_ifs at h
  exact (Option.some.inj h).symm

/-- Recording a call: it comes last, and is the newest of its trajectory if anything is. -/
theorem grows_record (o : Observation) (state : Trajectory) {call : ToolCall}
    (hcall : call.resultShingles = none) :
    b.Grows (b.record cfg o state call).1 (some o.key) ∧
      (b.record cfg o state call).1.heap =
        b.heap ++ [{ call with sequence := state.observed + 1 }] ∧
      ∀ p, (b.record cfg o state call).1.newest o.key = some p → p = b.heap.length := by
  have hput (found : Option Finding) :
      b.Grows (({ b with heap := b.heap ++ [{ call with sequence := state.observed + 1 }] } :
        Breaker).put o.key ⟨pushLast cfg.policy.historyLimit.toNat state.calls b.heap.length,
          state.observed + 1, found, none⟩) (some o.key) := by
    refine ⟨⟨[_], heap_put _ _ _, by simpa using hcall⟩, fun k p hnewest => ?_⟩
    rcases newest_put hnewest with hnewest | ⟨rfl, hlast⟩
    · exact .inl hnewest
    · exact .inr ⟨rfl, getLast?_pushLast hlast⟩
  have hself (found : Option Finding) (p : ℕ)
      (h : (({ b with heap := b.heap ++ [{ call with sequence := state.observed + 1 }] } :
        Breaker).put o.key ⟨pushLast cfg.policy.historyLimit.toNat state.calls b.heap.length,
          state.observed + 1, found, none⟩).newest o.key = some p) : p = b.heap.length := by
    rw [newest, get?_put] at h
    split_ifs at h with hk
    · exact getLast?_pushLast h
    · have hnone : b.trajectories.get? o.key = none := by
        simpa [Dict.get?_eq_none_iff] using hk
      rw [hnone] at h
      cases h
  simp only [Breaker.record]
  split
  · exact ⟨hput _, heap_put _ _ _, hself _⟩
  · split_ifs
    · exact ⟨hput _, heap_put _ _ _, hself _⟩
    · exact ⟨hput _, heap_put _ _ _, hself _⟩

/-- An observation records nothing, or its call. -/
theorem observe_cases (o : Observation) :
    (b.observe cfg o).1.heap = b.heap ∧ b.Grows (b.observe cfg o).1 none ∧
        ((b.observe cfg o).2.GoesAhead = true → o.tool ∈ cfg.policy.exemptTools) ∨
      (∃ call, (b.observe cfg o).1.heap = b.heap ++ [call] ∧ call.tool = o.tool) ∧
        b.Grows (b.observe cfg o).1 (some o.key) ∧
          ∀ p, (b.observe cfg o).1.newest o.key = some p → p = b.heap.length := by
  simp only [Breaker.observe]
  split_ifs with hexempt
  · exact .inl ⟨rfl, .of_eq rfl rfl, fun _ => hexempt⟩
  · split
    · exact .inl ⟨rfl, .of_eq rfl rfl, fun hgoes => absurd hgoes (by simp [Outcome.GoesAhead])⟩
    · split
      · rename_i table failure htouch
        refine .inl ⟨rfl, .of_newest rfl fun k p hnewest => ?_,
          fun hgoes => absurd hgoes (by simp [Outcome.GoesAhead])⟩
        rw [show table = (cfg.touch b.trajectories o.key).1 by rw [htouch]] at hnewest
        exact newest_touch hnewest
      · rename_i table state htouch
        have htable : table = (cfg.touch b.trajectories o.key).1 := by rw [htouch]
        split
        · refine .inl ⟨rfl, .of_newest rfl fun k p hnewest => ?_,
            fun hgoes => absurd hgoes (by simp [Outcome.GoesAhead])⟩
          rw [htable] at hnewest
          exact newest_touch hnewest
        · obtain ⟨hgrows, hheap, hself⟩ := @grows_record cfg { b with trajectories := table } o
            state (cfg.toolCall o (cfg.redact o.tool o.arguments)
              (o.tool ++ unitSeparator ++ cfg.redact o.tool o.arguments) _) rfl
          refine .inr ⟨⟨_, hheap, rfl⟩, ⟨hgrows.heap, fun k p hnewest => ?_⟩, hself⟩
          refine (hgrows.newest k p hnewest).imp (fun htouched => ?_) id
          rw [htable] at htouched
          exact newest_touch htouched

/-- An observation grows the trajectory it records its call on. -/
theorem grows_observe (o : Observation) :
    b.Grows (b.observe cfg o).1 ((Event.observe o).recordsOn cfg b) := by
  rcases @observe_cases cfg b o with ⟨hheap, hgrows, -⟩ | ⟨⟨call, hheap, -⟩, hgrows, -⟩
  · rwa [Event.recordsOn, hheap, if_neg (lt_irrefl _)]
  · rwa [Event.recordsOn, hheap, if_pos (by simp)]

/-- A call that goes ahead is recorded, and is the newest of its trajectory if anything is; one of
an exempt tool is not recorded. -/
theorem recorded_of_goesAhead {o : Observation} (h : (b.observe cfg o).2.GoesAhead = true)
    (hexempt : o.tool ∉ cfg.policy.exemptTools) :
    (∃ call, (b.observe cfg o).1.heap = b.heap ++ [call] ∧ call.tool = o.tool) ∧
      ∀ p, (b.observe cfg o).1.newest o.key = some p → p = b.heap.length := by
  rcases @observe_cases cfg b o with ⟨-, -, honly⟩ | ⟨hcall, -, hself⟩
  · exact absurd (honly h) hexempt
  · exact ⟨hcall, hself⟩

theorem grows_check (scopeId : Text) (trajectory : Option Text) :
    b.Grows (b.check scopeId trajectory).1 none := by
  simp only [Breaker.check]
  split
  · exact .of_eq rfl rfl
  · rename_i state hstate
    split
    · exact .of_eq rfl rfl
    · refine .of_newest (heap_put _ _ _) fun k p hnewest => ?_
      rcases newest_put hnewest with hnewest | ⟨rfl, hlast⟩
      · exact hnewest
      · rw [newest, hstate]
        exact hlast
    · exact .of_eq rfl rfl

theorem grows_reset (key : Text) : b.Grows (b.reset key) none := by
  refine .of_newest rfl fun k p h => ?_
  rw [newest, Breaker.reset, Dict.get?_erase] at h
  split_ifs at h
  · simp at h
  · exact h

theorem grows_publish : b.Grows b.publish none := by
  simp only [Breaker.publish]
  split
  · rename_i item verdict hlane
    split
    · rename_i verdict' state hstate
      split_ifs
      · refine .of_newest (heap_put _ _ _) fun k p hnewest => ?_
        rcases newest_put hnewest with hnewest | ⟨rfl, hlast⟩
        · exact hnewest
        · rw [newest, hstate]
          exact hlast
      · exact .of_eq rfl rfl
    · exact .of_eq rfl rfl
  · exact .of_eq rfl rfl

theorem heap_enqueue (item : Item) : (b.enqueue cfg item).heap = b.heap := by
  rw [Breaker.enqueue]
  split_ifs <;> rfl

theorem heap_take (b : Breaker) : b.take.heap = b.heap := by
  rw [Breaker.take]
  split <;> rfl

theorem heap_evaluate (b : Breaker) (answer : Except PUnit (Option Verdict)) :
    (b.evaluate answer).heap = b.heap := by
  unfold Breaker.evaluate
  split <;> rfl

theorem grows_resume (h : b.Unattaching) (place : ℕ) (trip : Trip) :
    b.Grows (b.resume cfg place trip).1 none := by
  rw [Breaker.resume]
  split
  · exact .of_eq rfl rfl
  · rename_i pending hpending
    cases pending with
    | enqueue item => exact .of_eq (heap_enqueue item) (trajectories_enqueue _ item)
    | halt scopeId trajectory finding => exact .of_eq rfl rfl
    | attach key digest => exact absurd (List.mem_of_getElem? hpending) (h key digest)

theorem grows_handle (h : b.Unattaching) {e : Event} (he : e.RecordsNothing = true) :
    b.Grows (b.handle cfg e).1 (e.recordsOn cfg b) := by
  cases e with
  | observe o => exact grows_observe o
  | check scopeId trajectory => exact grows_check scopeId trajectory
  | recordResult scopeId payload trajectory => cases he
  | reset trajectory => exact grows_reset trajectory
  | resume place trip => exact grows_resume h place trip
  | take => exact .of_eq (heap_take b) (trajectories_take b)
  | evaluate answer => exact .of_eq (heap_evaluate b answer) (trajectories_evaluate b answer)
  | publish => exact grows_publish

/-- A step of the breaker but `record_result`. -/
theorem grows_step (h : b.Unattaching) {e : Event} (he : e.RecordsNothing = true) :
    b.Grows (b.step cfg e) (e.recordsOn cfg b) := by
  have hgrows : b.Grows (b.handle cfg e).1 (e.recordsOn cfg b) := grows_handle h he
  refine ⟨?_, fun k p hnewest => hgrows.newest k p ?_⟩
  · rw [step, heap_launch]
    exact hgrows.heap
  · rwa [step, newest, trajectories_launch] at hnewest

theorem inFlight_put (b : Breaker) (key : Text) (state : Trajectory) :
    (b.put key state).inFlight = b.inFlight := by
  rw [put]
  split_ifs <;> rfl

theorem unattaching_record (h : b.Unattaching) (o : Observation) (state : Trajectory)
    (call : ToolCall) :
    (b.record cfg o state call).1.Unattaching ∧
      ∀ k d, (b.record cfg o state call).2 ≠ .goesOn (.attach k d) := by
  have hput (heap : List ToolCall) (state' : Trajectory) :
      (({ b with heap := heap } : Breaker).put o.key state').Unattaching := by
    intro k d
    rw [inFlight_put]
    exact h k d
  simp only [Breaker.record]
  split
  · exact ⟨hput _ _, by simp⟩
  · split_ifs
    · exact ⟨hput _ _, by simp⟩
    · exact ⟨hput _ _, by simp⟩

theorem unattaching_observe (h : b.Unattaching) (o : Observation) :
    (b.observe cfg o).1.Unattaching ∧ ∀ k d, (b.observe cfg o).2 ≠ .goesOn (.attach k d) := by
  simp only [Breaker.observe]
  split_ifs
  · exact ⟨h, by simp⟩
  · split
    · exact ⟨h, by simp⟩
    · split
      · exact ⟨h, by simp⟩
      · rename_i table state htouch
        split
        · exact ⟨h, by simp⟩
        · exact unattaching_record (b := { b with trajectories := table }) h o _ _

theorem unattaching_check (h : b.Unattaching) (scopeId : Text) (trajectory : Option Text) :
    (b.check scopeId trajectory).1.Unattaching ∧
      ∀ k d, (b.check scopeId trajectory).2 ≠ .goesOn (.attach k d) := by
  simp only [Breaker.check]
  split
  · exact ⟨h, by simp⟩
  · split
    · exact ⟨h, by simp⟩
    · refine ⟨fun k d => ?_, by simp⟩
      rw [inFlight_put]
      exact h k d
    · exact ⟨h, by simp⟩

theorem unattaching_resume (h : b.Unattaching) (place : ℕ) (trip : Trip) :
    (b.resume cfg place trip).1.Unattaching ∧
      ∀ k d, (b.resume cfg place trip).2 ≠ .goesOn (.attach k d) := by
  have hleft : ({ b with inFlight := b.inFlight.eraseIdx place } : Breaker).Unattaching :=
    fun k d hmem => h k d (List.mem_of_mem_eraseIdx hmem)
  rw [Breaker.resume]
  split
  · exact ⟨h, by simp⟩
  · rename_i pending hpending
    cases pending with
    | enqueue item =>
      refine ⟨?_, by simp⟩
      simp only [Breaker.enqueue]
      split_ifs <;> exact hleft
    | halt scopeId trajectory finding =>
      refine ⟨hleft, ?_⟩
      cases trip <;> simp [halt]
    | attach key digest => exact absurd (List.mem_of_getElem? hpending) (h key digest)

theorem unattaching_publish (h : b.Unattaching) : b.publish.Unattaching := by
  simp only [Breaker.publish]
  split
  · split
    · split_ifs
      · intro k d
        rw [inFlight_put]
        exact h k d
      · exact h
    · exact h
  · exact h

/-- No section but the first of `record_result` leaves a result to be attached. -/
theorem unattaching_handle (h : b.Unattaching) {e : Event} (he : e.RecordsNothing = true) :
    (b.handle cfg e).1.Unattaching ∧ ∀ k d, (b.handle cfg e).2 ≠ .goesOn (.attach k d) := by
  cases e with
  | observe o => exact unattaching_observe h o
  | check scopeId trajectory => exact unattaching_check h scopeId trajectory
  | recordResult scopeId payload trajectory => cases he
  | reset trajectory => exact ⟨h, by simp [handle]⟩
  | resume place trip => exact unattaching_resume h place trip
  | take =>
    refine ⟨?_, by simp [handle]⟩
    simp only [handle, Breaker.take]
    split <;> exact h
  | evaluate answer =>
    refine ⟨?_, by simp [handle]⟩
    simp only [handle, Breaker.evaluate]
    split <;> exact h
  | publish => exact ⟨unattaching_publish h, by simp [handle]⟩

theorem unattaching_step (h : b.Unattaching) {e : Event} (he : e.RecordsNothing = true) :
    (b.step cfg e).Unattaching := by
  obtain ⟨hrest, houtcome⟩ := @unattaching_handle cfg b h e he
  intro k d
  unfold step launch
  split
  · rename_i pending hpending
    intro hmem
    rcases List.mem_append.mp hmem with hmem | hmem
    · exact hrest k d hmem
    · rw [List.mem_singleton] at hmem
      exact houtcome k d (hmem ▸ hpending)
  · exact hrest k d

end Breaker

/-! ### Runs -/

namespace Floor

variable {cfg : Config} {f : Floor}

/-- What every run keeps whose results each find their own call newest, or none. -/
structure Inv (cfg : Config) (f : Floor) : Prop where
  belongs : f.Belongs cfg
  /-- The call of a caller is recorded at its place. -/
  placed : ∀ caller ∈ f.callers, ∀ p, caller.place = some p →
    ∃ call, f.breaker.heap[p]? = some call ∧ call.tool = caller.observation.tool
  /-- A result to be attached while its call is the newest was read as its call's. -/
  digest : ∀ caller ∈ f.callers, ∀ payload digest p, caller.stage = .returned payload digest →
    caller.place = some p → f.breaker.newest caller.observation.key = some p →
      digest = cfg.resultShingles caller.observation.tool payload
  unattaching : f.breaker.Unattaching

theorem inv_new : Inv cfg Floor.new where
  belongs := by
    intro p call digest h
    simp [Floor.new, Breaker.new] at h
  placed := nofun
  digest := nofun
  unattaching := nofun

/-- A step of the breaker but `record_result`. -/
theorem Inv.grow (h : Inv cfg f) {b : Breaker} {recorded : Option Text}
    (hgrows : f.breaker.Grows b recorded) (hun : b.Unattaching) : Inv cfg { f with breaker := b } := by
  obtain ⟨calls, hheap, hnone⟩ := hgrows.heap
  refine ⟨?_, ?_, ?_, hun⟩
  · intro p call digest hcall hresult
    rcases Nat.lt_or_ge p f.breaker.heap.length with hlt | hge
    · rw [hheap, List.getElem?_append_left hlt] at hcall
      exact h.belongs p call digest hcall hresult
    · rw [hheap, List.getElem?_append_right hge] at hcall
      rw [hnone call (List.mem_of_getElem? hcall)] at hresult
      cases hresult
  · intro caller hmem p hplace
    obtain ⟨call, hcall, htool⟩ := h.placed caller hmem p hplace
    refine ⟨call, ?_, htool⟩
    rw [hheap, List.getElem?_append_left (List.getElem?_eq_some_iff.mp hcall).1]
    exact hcall
  · intro caller hmem payload digest p hstage hplace hnewest
    obtain ⟨call, hcall, -⟩ := h.placed caller hmem p hplace
    exact h.digest caller hmem payload digest p hstage hplace
      (hgrows.newest_of_lt hnewest (List.getElem?_eq_some_iff.mp hcall).1)

/-- One more caller, whose call is recorded where it says. -/
theorem Inv.join (h : Inv cfg f) {caller : Caller} (hstage : caller.stage = .running)
    (hplace : ∀ p, caller.place = some p →
      ∃ call, f.breaker.heap[p]? = some call ∧ call.tool = caller.observation.tool) :
    Inv cfg { f with callers := f.callers ++ [caller] } where
  belongs := by
    intro p call digest hcall hresult
    obtain ⟨other, hother, hrest⟩ := h.belongs p call digest hcall hresult
    exact ⟨other, List.mem_append_left _ hother, hrest⟩
  placed := by
    intro other hmem
    rcases List.mem_append.mp hmem with hmem | hmem
    · exact h.placed other hmem
    · obtain rfl := List.mem_singleton.mp hmem
      exact hplace
  digest := by
    intro other hmem payload digest p hreturned
    rcases List.mem_append.mp hmem with hmem | hmem
    · exact h.digest other hmem payload digest p hreturned
    · obtain rfl := List.mem_singleton.mp hmem
      rw [hstage] at hreturned
      cases hreturned
  unattaching := h.unattaching

theorem Inv.call (h : Inv cfg f) (o : Observation) : Inv cfg (f.step cfg (.call o)) := by
  have hgrows := @Breaker.grows_step cfg f.breaker h.unattaching (.observe o) rfl
  have hun : (f.breaker.step cfg (.observe o)).Unattaching :=
    Breaker.unattaching_step h.unattaching rfl
  have hnext := h.grow hgrows hun
  simp only [step]
  split_ifs with hgoes hexempt
  · exact hnext.join rfl nofun
  · refine hnext.join rfl fun p hplace => ?_
    obtain rfl := Option.some.inj hplace
    obtain ⟨⟨call, hheap, htool⟩, -⟩ := Breaker.recorded_of_goesAhead hgoes hexempt
    refine ⟨call, ?_, htool⟩
    rw [Breaker.step, heap_launch]
    simp [Breaker.handle, hheap]
  · exact hnext

/-- The tool of the newest call of a trajectory. -/
theorem lastTool_eq {b : Breaker} {key : Text} {p : ℕ} {call : ToolCall}
    (hnewest : b.newest key = some p) (hcall : b.heap[p]? = some call) :
    b.lastTool key = call.tool := by
  obtain ⟨state, hstate, hlast⟩ := Option.bind_eq_some_iff.mp hnewest
  simp only [Breaker.lastTool, hstate, hlast, hcall, Option.map_some, Option.getD_some]

theorem Inv.returns (h : Inv cfg f) (i : ℕ) (payload : Text) :
    Inv cfg (f.step cfg (.returns i payload)) := by
  simp only [step]
  split
  · rename_i o place hi
    have hmem := List.mem_of_getElem? hi
    refine ⟨?_, ?_, ?_, h.unattaching⟩
    · intro p call digest hcall hresult
      obtain ⟨caller, hcaller, hplace, payload', hover, hdigest⟩ :=
        h.belongs p call digest hcall hresult
      obtain ⟨j, hj⟩ := List.mem_iff_getElem?.mp hcaller
      have hne : i ≠ j := by
        rintro rfl
        obtain rfl := Option.some.inj (hi.symm.trans hj)
        cases hover
      exact ⟨caller, List.mem_of_getElem? ((List.getElem?_set_ne hne).trans hj), hplace, payload',
        hover, hdigest⟩
    · intro caller hcaller p hplace
      rcases List.mem_or_eq_of_mem_set hcaller with hcaller | rfl
      · exact h.placed caller hcaller p hplace
      · exact h.placed _ hmem p hplace
    · intro caller hcaller payload' digest p hstage hplace hnewest
      rcases List.mem_or_eq_of_mem_set hcaller with hcaller | rfl
      · exact h.digest caller hcaller payload' digest p hstage hplace hnewest
      · obtain ⟨call, hcall, htool⟩ := h.placed _ hmem p hplace
        obtain ⟨rfl, rfl⟩ := Stage.returned.inj hstage
        rw [lastTool_eq hnewest hcall, htool]
  · exact h

theorem attach_of_newest_none {b : Breaker} {key : Text} (digest : Finset Text)
    (hnewest : b.newest key = none) : b.attach key digest = b := by
  rw [Breaker.attach]
  split
  · rename_i state hstate
    rw [Breaker.newest, hstate, Option.bind_some] at hnewest
    rw [hnewest]
  · rfl

theorem attach_of_newest {b : Breaker} {key : Text} {p : ℕ} (digest : Finset Text)
    (hnewest : b.newest key = some p) :
    b.attach key digest =
      { b with heap := b.heap.modify p ({ · with resultShingles := some digest }) } := by
  obtain ⟨state, hstate, hlast⟩ := Option.bind_eq_some_iff.mp hnewest
  simp only [Breaker.attach, hstate, hlast]

/-- A result is attached to no call, or to its own. -/
theorem Inv.attached (h : Inv cfg f) {i : ℕ} {o : Observation} {place : Option ℕ} {payload : Text}
    {digest : Finset Text} (hi : f.callers[i]? = some ⟨o, place, .returned payload digest⟩)
    {heap : List ToolCall} (hkeeps : ∀ (p : ℕ) (call : ToolCall), f.breaker.heap[p]? = some call →
      ∃ call' : ToolCall, heap[p]? = some call' ∧ call'.tool = call.tool)
    (hsource : ∀ (p : ℕ) (call : ToolCall) found, heap[p]? = some call →
      call.resultShingles = some found →
      (∃ old : ToolCall, f.breaker.heap[p]? = some old ∧ old.tool = call.tool ∧
        old.resultShingles = some found) ∨
      place = some p ∧ found = cfg.resultShingles call.tool payload) :
    Inv cfg ⟨{ f.breaker with heap }, f.callers.set i ⟨o, place, .over payload⟩⟩ where
  belongs := by
    have hlt := (List.getElem?_eq_some_iff.mp hi).1
    intro p call found hcall hresult
    rcases hsource p call found hcall hresult with ⟨old, hold, htool, hfound⟩ | ⟨hplace, hfound⟩
    · obtain ⟨caller, hcaller, hplace, payload', hover, hdigest⟩ :=
        h.belongs p old found hold hfound
      obtain ⟨j, hj⟩ := List.mem_iff_getElem?.mp hcaller
      have hne : i ≠ j := by
        rintro rfl
        obtain rfl := Option.some.inj (hi.symm.trans hj)
        cases hover
      exact ⟨caller, List.mem_of_getElem? ((List.getElem?_set_ne hne).trans hj), hplace, payload',
        hover, htool ▸ hdigest⟩
    · exact ⟨_, List.mem_of_getElem? (List.getElem?_set_self hlt), hplace, payload, rfl, hfound⟩
  placed := by
    intro caller hcaller p hplace
    rcases List.mem_or_eq_of_mem_set hcaller with hcaller | rfl
    · obtain ⟨call, hcall, htool⟩ := h.placed caller hcaller p hplace
      obtain ⟨call', hcall', heq⟩ := hkeeps p call hcall
      exact ⟨call', hcall', heq.trans htool⟩
    · obtain ⟨call, hcall, htool⟩ := h.placed _ (List.mem_of_getElem? hi) p hplace
      obtain ⟨call', hcall', heq⟩ := hkeeps p call hcall
      exact ⟨call', hcall', heq.trans htool⟩
  digest := by
    intro caller hcaller payload' found p hstage hplace hnewest
    rcases List.mem_or_eq_of_mem_set hcaller with hcaller | rfl
    · exact h.digest caller hcaller payload' found p hstage hplace hnewest
    · cases hstage
  unattaching := h.unattaching

theorem Inv.attaches (h : Inv cfg f) {i : ℕ} (hmeets : f.Meets (.attaches i)) :
    Inv cfg (f.step cfg (.attaches i)) := by
  simp only [step]
  split
  · rename_i o place payload digest hi
    match hnewest : f.breaker.newest o.key with
    | none =>
      rw [attach_of_newest_none digest hnewest]
      exact h.attached hi (fun p call hcall => ⟨call, hcall, rfl⟩)
        fun p call found hcall hfound => .inl ⟨call, hcall, rfl, hfound⟩
    | some newest =>
      have hplace := hmeets o place payload digest hi newest hnewest
      have hmem := List.mem_of_getElem? hi
      obtain ⟨own, hown, htool⟩ := h.placed _ hmem newest hplace
      have hdigest := h.digest _ hmem payload digest newest rfl hplace hnewest
      rw [attach_of_newest digest hnewest]
      refine h.attached hi (fun p call hcall => ?_) fun p call found hcall hfound => ?_
      · rw [List.getElem?_modify, hcall]
        split_ifs <;> exact ⟨_, rfl, rfl⟩
      · rw [List.getElem?_modify] at hcall
        obtain ⟨old, hold, rfl⟩ := Option.map_eq_some_iff.mp hcall
        split_ifs at hfound ⊢ with heq
        · subst heq
          obtain rfl := Option.some.inj (hown.symm.trans hold)
          exact .inr ⟨hplace, (Option.some.inj hfound).symm.trans (htool ▸ hdigest)⟩
        · exact .inl ⟨old, hold, rfl, hfound⟩
  · exact h

theorem Inv.step (h : Inv cfg f) {m : Move} (hmeets : f.Meets m) : Inv cfg (f.step cfg m) := by
  cases m with
  | call o => exact h.call o
  | returns i payload => exact h.returns i payload
  | attaches i => exact h.attaches hmeets
  | other e he =>
    exact h.grow (Breaker.grows_step h.unattaching he) (Breaker.unattaching_step h.unattaching he)

/-! ### Undisturbed runs -/

section Undisturbed

variable {ms : List Move} {i j n : ℕ} {o : Observation}

theorem after_succ {m : Move} (hm : ms[n]? = some m) :
    after cfg ms (n + 1) = (after cfg ms n).step cfg m := by
  rw [after, after, List.take_add_one, hm, Option.toList_some, run, run, List.foldl_append]
  rfl

theorem after_of_none (hm : ms[n]? = none) : after cfg ms (n + 1) = after cfg ms n := by
  rw [after, after, List.take_add_one, hm, Option.toList_none, List.append_nil]

/-- A step makes a call the newest of a trajectory only by recording it there. -/
theorem newest_step (h : f.breaker.Unattaching) (m : Move) {key : Text} {p : ℕ}
    (hnewest : (f.step cfg m).breaker.newest key = some p) :
    f.breaker.newest key = some p ∨ f.recordsOn cfg m = some key := by
  cases m with
  | call o =>
    have hgrows := @Breaker.grows_step cfg f.breaker h (.observe o) rfl
    have hbreaker : (f.step cfg (.call o)).breaker = f.breaker.step cfg (.observe o) := by
      simp only [step]
      split_ifs <;> rfl
    rw [hbreaker] at hnewest
    exact (hgrows.newest key p hnewest).imp id fun hrecorded => hrecorded.1
  | other e he =>
    exact ((@Breaker.grows_step cfg f.breaker h e he).newest key p hnewest).imp id
      fun hrecorded => hrecorded.1
  | returns i payload =>
    refine .inl ?_
    simp only [step] at hnewest
    split at hnewest <;> exact hnewest
  | attaches i =>
    refine .inl ?_
    simp only [step] at hnewest
    split at hnewest
    · rename_i o place payload digest hi
      rcases hself : f.breaker.newest o.key with _ | q
      · rwa [attach_of_newest_none digest hself] at hnewest
      · rwa [attach_of_newest digest hself] at hnewest
    · exact hnewest

/-- Each caller's call is a move of the run, and its place is where the move recorded it. -/
theorem exists_opens {caller : Caller} (hi : (after cfg ms n).callers[i]? = some caller) :
    ∃ j < n, Opens cfg ms j i caller.observation ∧ caller.place =
      if caller.observation.tool ∈ cfg.policy.exemptTools then none
      else some (after cfg ms j).breaker.heap.length := by
  induction n generalizing caller with
  | zero => simp [after, Floor.new, run] at hi
  | succ n ih =>
    have earlier {caller : Caller} (hi : (after cfg ms n).callers[i]? = some caller) :
        ∃ j < n + 1, Opens cfg ms j i caller.observation ∧ caller.place =
          if caller.observation.tool ∈ cfg.policy.exemptTools then none
          else some (after cfg ms j).breaker.heap.length := by
      obtain ⟨j, hj, hrest⟩ := ih hi
      exact ⟨j, Nat.lt_succ_of_lt hj, hrest⟩
    -- a caller that goes on keeps its observation and its place
    have goesOn {k : ℕ} {o : Observation} {place : Option ℕ} {stage stage' : Stage}
        (hk : (after cfg ms n).callers[k]? = some ⟨o, place, stage⟩)
        (hset : ((after cfg ms n).callers.set k ⟨o, place, stage'⟩)[i]? = some caller) :
        ∃ j < n + 1, Opens cfg ms j i caller.observation ∧ caller.place =
          if caller.observation.tool ∈ cfg.policy.exemptTools then none
          else some (after cfg ms j).breaker.heap.length := by
      rw [List.getElem?_set] at hset
      split_ifs at hset with hki hlt
      · subst hki
        obtain rfl := Option.some.inj hset
        have hfound := earlier hk
        exact hfound
      · exact earlier hset
    cases hm : ms[n]? with
    | none =>
      rw [after_of_none hm] at hi
      exact earlier hi
    | some m =>
      rw [after_succ hm] at hi
      cases m with
      | call o =>
        simp only [step] at hi
        generalize hplace : (if o.tool ∈ cfg.policy.exemptTools then none
          else some (after cfg ms n).breaker.heap.length) = place at hi
        split_ifs at hi with hgoes
        · rw [List.getElem?_append] at hi
          split_ifs at hi with hlt
          · exact earlier hi
          · rw [List.getElem?_singleton] at hi
            split_ifs at hi with hzero
            obtain rfl := Option.some.inj hi
            exact ⟨n, Nat.lt_succ_self n, ⟨hm, by omega, hgoes⟩, hplace.symm⟩
        · exact earlier hi
      | other e he => exact earlier hi
      | returns k payload =>
        simp only [step] at hi
        split at hi
        · rename_i o place hk
          exact goesOn hk hi
        · exact earlier hi
      | attaches k =>
        simp only [step] at hi
        split at hi
        · rename_i o place payload digest hk
          exact goesOn hk hi
        · exact earlier hi

/-- While no other call is recorded on its trajectory, a call that was recorded is the newest
there, if anything is. -/
theorem newest_between (hun : ∀ k, (after cfg ms k).breaker.Unattaching)
    (hopens : Opens cfg ms j i o) (hexempt : o.tool ∉ cfg.policy.exemptTools) (hlt : j < n)
    (hquiet : ∀ k m, j < k → k < n → ms[k]? = some m →
      (after cfg ms k).recordsOn cfg m ≠ some o.key) {p : ℕ}
    (hnewest : (after cfg ms n).breaker.newest o.key = some p) :
    p = (after cfg ms j).breaker.heap.length := by
  induction n with
  | zero => exact absurd hlt (Nat.not_lt_zero j)
  | succ n ih =>
    rcases Nat.lt_succ_iff_lt_or_eq.mp hlt with hlt | rfl
    · refine ih hlt (fun k m hjk hkn => hquiet k m hjk (Nat.lt_succ_of_lt hkn)) ?_
      cases hm : ms[n]? with
      | none => rwa [after_of_none hm] at hnewest
      | some m =>
        rw [after_succ hm] at hnewest
        exact (newest_step (hun n) m hnewest).resolve_right
          (hquiet n m hlt (Nat.lt_succ_self n) hm)
    · rw [after_succ hopens.move] at hnewest
      have hbreaker : ((after cfg ms j).step cfg (.call o)).breaker =
          (after cfg ms j).breaker.step cfg (.observe o) := by
        simp only [step]
        split_ifs <;> rfl
      rw [hbreaker, Breaker.step, Breaker.newest, Breaker.trajectories_launch] at hnewest
      exact (Breaker.recorded_of_goesAhead hopens.ahead hexempt).2 p hnewest

/-- In a run that is undisturbed, a result that is attached finds its own call newest, or none. -/
theorem Undisturbed.meets (h : Undisturbed cfg ms) (hun : ∀ k, (after cfg ms k).breaker.Unattaching)
    {m : Move} (hm : ms[n]? = some m) : (after cfg ms n).Meets m := by
  cases m with
  | attaches i =>
    intro o place payload digest hi p hnewest
    obtain ⟨j, hj, hopens, hplace⟩ := exists_opens hi
    rcases h j n i o hj hopens ⟨hm, _, _, _, _, hi⟩ with hcleared | ⟨hexempt, hquiet⟩
    · cases hcleared.symm.trans hnewest
    · rw [newest_between hun hopens hexempt hj hquiet hnewest]
      rwa [if_neg hexempt] at hplace
  | call o => trivial
  | returns i payload => trivial
  | other e he => trivial

end Undisturbed

theorem unattaching_step (h : f.breaker.Unattaching) (m : Move) :
    (f.step cfg m).breaker.Unattaching := by
  cases m with
  | call o =>
    have hun := @Breaker.unattaching_step cfg f.breaker h (.observe o) rfl
    simp only [step]
    split_ifs <;> exact hun
  | other e he => exact Breaker.unattaching_step h he
  | returns i payload =>
    simp only [step]
    split <;> exact h
  | attaches i =>
    simp only [step]
    split
    · rename_i o place payload digest hi
      rcases hself : f.breaker.newest o.key with _ | q
      · rwa [attach_of_newest_none digest hself]
      · rw [attach_of_newest digest hself]
        exact h
    · exact h

theorem unattaching_after (ms : List Move) (n : ℕ) : (after cfg ms n).breaker.Unattaching := by
  induction n with
  | zero => exact nofun
  | succ n ih =>
    cases hm : ms[n]? with
    | none => rwa [after_of_none hm]
    | some m =>
      rw [after_succ hm]
      exact unattaching_step ih m

/-- In every run in which each call whose result is attached was recorded, and no other call on its
trajectory in between, every state reached has attached to every call the result of its own
response, or none. -/
theorem results_belong {ms : List Move} (h : Undisturbed cfg ms) (n : ℕ) :
    (Floor.new.run cfg (ms.take n)).Belongs cfg := by
  have hinv : Inv cfg (after cfg ms n) := by
    induction n with
    | zero => exact inv_new
    | succ n ih =>
      cases hm : ms[n]? with
      | none => rwa [after_of_none hm]
      | some m =>
        rw [after_succ hm]
        exact ih.step (h.meets (unattaching_after ms) hm)
  exact hinv.belongs

/-- A result that does not find its own call newest is attached to another's. -/
theorem attached_astray {i : ℕ} {o : Observation} {place : Option ℕ} {payload : Text}
    {digest : Finset Text} {p : ℕ} {call : ToolCall}
    (hi : f.callers[i]? = some ⟨o, place, .returned payload digest⟩)
    (hnewest : f.breaker.newest o.key = some p) (hcall : f.breaker.heap[p]? = some call)
    (hother : place ≠ some p) :
    ¬f.Meets (.attaches i) ∧ (f.step cfg (.attaches i)).breaker.heap[p]? =
      some { call with resultShingles := some digest } := by
  refine ⟨fun h => hother (h o place payload digest hi p hnewest), ?_⟩
  simp only [step, hi, attach_of_newest digest hnewest, List.getElem?_modify, hcall]
  simp

/-- An observation of a search on the trajectory of a scope. -/
def asking (arguments : String) : Observation :=
  ⟨txt "scope", txt "search", txt arguments, none, sampleNow⟩

/-- Two calls on a trajectory, the second once the first has its result, and one on another. -/
def sampleMoves : List Move :=
  [.call (asking "x"), .call { asking "z" with trajectory := some (txt "aside") },
    .returns 0 (txt "r"), .attaches 0, .call (asking "y"), .returns 2 (txt "s"), .attaches 2]

theorem undisturbed_sampleMoves : Undisturbed (sampleConfig 2) sampleMoves := by
  -- the first result is attached at the fourth move, the other at the last
  have quiet (j n : ℕ) (key : Text) (h : ((List.range n).filter (j < ·)).all (fun k =>
      sampleMoves[k]?.all fun m =>
        (after (sampleConfig 2) sampleMoves k).recordsOn (sampleConfig 2) m ≠ some key) = true) :
      ∀ k m, j < k → k < n → sampleMoves[k]? = some m →
        (after (sampleConfig 2) sampleMoves k).recordsOn (sampleConfig 2) m ≠ some key := by
    intro k m hjk hkn hm
    have hk := List.all_eq_true.mp h k (by simp [hjk, hkn])
    simpa [hm] using hk
  intro j n i o hj hopens hcloses
  have hn : n < 7 := (List.getElem?_eq_some_iff.mp hcloses.move).1
  have hplace : n = 3 ∨ n = 6 := by
    interval_cases n <;> first | exact .inl rfl | exact .inr rfl | cases hcloses.move
  rcases hplace with rfl | rfl
  · cases hcloses.move
    interval_cases j
    · cases hopens.move
      exact .inr ⟨by decide, quiet 0 3 _ (by decide +kernel)⟩
    · exact absurd hopens.index (by decide +kernel)
    · cases hopens.move
  · cases hcloses.move
    interval_cases j
    · exact absurd hopens.index (by decide +kernel)
    · exact absurd hopens.index (by decide +kernel)
    · cases hopens.move
    · cases hopens.move
    · cases hopens.move
      exact .inr ⟨by decide, quiet 4 6 _ (by decide +kernel)⟩
    · cases hopens.move

theorem results_belong_sampleMoves :
    (Floor.new.run (sampleConfig 2) sampleMoves).Belongs (sampleConfig 2) ∧
      (Floor.new.run (sampleConfig 2) sampleMoves).breaker.heap.map
        (fun call => call.resultShingles.isSome) = [true, false, true] :=
  ⟨results_belong undisturbed_sampleMoves 7, by decide +kernel⟩

/-- Two calls are under way when the first returns: its result is attached to the second. -/
theorem crossed_not_belongs : ¬∀ cfg ms, (Floor.new.run cfg ms).Belongs cfg := by
  intro h
  obtain ⟨caller, hmem, hplace, payload, hover, -⟩ := h (sampleConfig 2)
    [.call (asking "x"), .call (asking "y"), .returns 0 (txt "r"), .attaches 0] 1 _ _ rfl rfl
  have hrunning : ∀ caller ∈ (Floor.new.run (sampleConfig 2) [.call (asking "x"),
      .call (asking "y"), .returns 0 (txt "r"), .attaches 0]).callers,
      caller.place = some 1 → caller.stage = .running := by decide +kernel
  rw [hrunning caller hmem hplace] at hover
  cases hover

end Floor

end AgentGov.Cognitive
