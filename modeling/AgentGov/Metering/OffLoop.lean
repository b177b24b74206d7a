import AgentGov.Metering.Interceptor

/-!
# Calls off the event loop

A call of the governor is made on a worker thread while its task waits. A task that is cancelled
meanwhile waits on, has the result undone where there is one, and only then raises
(`src/src/agentgov/_aio.py`, lines 69–146 and 261–294).

The loop is taken in the steps it makes: a task that waits is woken by the future it waits for, or
by a cancellation, which is thrown in where it waits even when the future is done by then. A future
is done some time after the worker has ended, and completes with the outcome of what it ran.

## Main definitions

* `AgentGov.Metering.Job`: what is run off the loop, and what undoes it.
* `AgentGov.Metering.Task`: a task in `_run`, with the worker's side and what was undone.
* `AgentGov.Metering.Task.Sound`: nothing is abandoned, and nothing undone but once.
* `AgentGov.Metering.AsyncBudgetManager.authorize`,
  `AgentGov.Metering.AsyncBudgetManager.tryAuthorize`.

## Main results

* `AgentGov.Metering.Task.sound_run`: every interleaving is sound.
* `AgentGov.Metering.Task.exists_ended`: every task can end from where it is.
* `AgentGov.Metering.AsyncBudgetManager.strands_no_hold`: a hold is handed over or voided.
-/

open Foundation

namespace AgentGov.Metering

/-! ### Tasks and workers -/

/-- What a call raises: `asyncio.CancelledError`, or anything else. -/
inductive Fault (ε : Type)
  | cancelled
  | error (e : ε)
deriving DecidableEq

/-- How a call ends. -/
abbrev Outcome (ε ρ : Type) := Except (Fault ε) ρ

/-- What `run_in_executor` was given: the worker's side, and the future on the loop. -/
inductive Worker (α : Type)
  | queued
  | running
  /-- The worker has ended, and its future is not done yet. -/
  | ended (outcome : α)
  /-- The future is done. -/
  | done (outcome : α)

/-- Whether the worker has ended. -/
def Worker.hasEnded {α : Type} : Worker α → Bool
  | queued | running => false
  | ended _ | done _ => true

/-- Where a task is in `_run`. -/
inductive Place (ε ρ : Type)
  /-- At the `wait` of `_run`. -/
  | waiting
  /-- At the `wait` of `_finish(future)`. -/
  | finishing
  /-- At the `wait` of `_finish(undone)`. -/
  | undoing
  | ended (outcome : Outcome ε ρ)

/-- What is run off the loop over a world, and what undoes its result, if anything does. -/
structure Job (σ ε ρ : Type) where
  call : σ → Outcome ε ρ × σ
  undo : Option (ρ → σ → Outcome ε PUnit.{1} × σ)

/-- A task in `_run`. -/
structure Task (σ ε ρ : Type) where
  world : σ
  place : Place ε ρ := .waiting
  future : Worker (Outcome ε ρ) := .queued
  undone : Option (Worker (Outcome ε PUnit.{1})) := none
  /-- Whether a cancellation has arrived that is not thrown in yet. -/
  pending : Bool := false
  /-- How many cancellations have arrived. -/
  cancellations : ℕ := 0
  /-- What `undo` was run with. -/
  undos : List ρ := []

/-- What happens to a task, its workers or its world. -/
inductive TaskEvent (κ : Type)
  | cancel
  | starts
  | ends
  | reports
  | undoStarts
  | undoEnds
  | undoReports
  /-- The loop runs the task on, if something has woken it. -/
  | resumes
  /-- What others do to the world. -/
  | others (what : κ)

namespace Task

variable {σ ε ρ κ : Type} (job : Job σ ε ρ) (env : κ → σ → σ) (t : Task σ ε ρ)

/-- `raise`, once nothing is left to undo. -/
def raised : Task σ ε ρ := { t with place := .ended (.error .cancelled) }

/-- What `_run` does once the call has ended: run `undo` on its result, or raise. -/
def finished (outcome : Outcome ε ρ) : Task σ ε ρ :=
  match job.undo, outcome with
  | some _, .ok _ => { t with place := .undoing, undone := some .queued }
  | _, _ => t.raised

/-- `_finish(future)`: what is done once the future is, and a wait for it until then. -/
def finish : Task σ ε ρ :=
  match t.future with
  | .done outcome => t.finished job outcome
  | _ => { t with place := .finishing }

/-- `_finish(undone)`. -/
def finishUndo : Task σ ε ρ :=
  match t.undone with
  | some (.done _) => t.raised
  | _ => { t with place := .undoing }

/-- The task is run on: a cancellation is thrown in where it waits, whether or not the future is
done by then. What `future.result()` raises of itself is caught like it. -/
def resume : Task σ ε ρ :=
  match t.place with
  | .waiting =>
    if t.pending then { t with pending := false }.finish job
    else
      match t.future with
      | .done (.error .cancelled) => t.finish job
      | .done outcome => { t with place := .ended outcome }
      | _ => t
  | .finishing => { t with pending := false }.finish job
  | .undoing => { t with pending := false }.finishUndo
  | .ended _ => t

/-- A task after an event. What cannot happen leaves it as it is. -/
def step (e : TaskEvent κ) : Task σ ε ρ :=
  match e with
  | .cancel =>
    match t.place with
    | .ended _ => t
    | _ => { t with pending := true, cancellations := t.cancellations + 1 }
  | .starts =>
    match t.future with
    | .queued => { t with future := .running }
    | _ => t
  | .ends =>
    match t.future with
    | .running => { t with future := .ended (job.call t.world).1, world := (job.call t.world).2 }
    | _ => t
  | .reports =>
    match t.future with
    | .ended outcome => { t with future := .done outcome }
    | _ => t
  | .undoStarts =>
    match t.undone with
    | some .queued => { t with undone := some .running }
    | _ => t
  | .undoEnds =>
    match t.undone, t.future, job.undo with
    | some .running, .done (.ok result), some undo =>
      { t with
        undone := some (.ended (undo result t.world).1)
        world := (undo result t.world).2
        undos := t.undos ++ [result] }
    | _, _, _ => t
  | .undoReports =>
    match t.undone with
    | some (.ended outcome) => { t with undone := some (.done outcome) }
    | _ => t
  | .resumes => t.resume job
  | .others what => { t with world := env what t.world }

/-- A task after any events. -/
def run : Task σ ε ρ → List (TaskEvent κ) → Task σ ε ρ := List.foldl (step job env)

/-- A task that enters `_run`. -/
def enter (world : σ) : Task σ ε ρ where
  world := world

end Task

namespace Task

section Soundness

variable {σ ε ρ κ : Type} {job : Job σ ε ρ} {env : κ → σ → σ} {t : Task σ ε ρ}

/-- What is to be undone of a call that ended: its result, if there is one and something undoes
it. -/
def toUndo (job : Job σ ε ρ) : Outcome ε ρ → List ρ
  | .ok result => if job.undo.isSome then [result] else []
  | .error _ => []

/-- What is claimed of a task: it ends only after the call has; undoing runs only for a cancelled
task, at most once and with the call's result; and when the task has ended, it was undone exactly
where the task was cancelled and the call succeeded, and then the cancellation was raised. -/
structure Sound (job : Job σ ε ρ) (t : Task σ ε ρ) : Prop where
  after : ∀ outcome, t.place = .ended outcome → ∃ called, t.future = .done called
  within : t.undos = [] ∨ 0 < t.cancellations ∧ ∃ called, t.future = .done called ∧
    t.undos = toUndo job called
  kept : ∀ outcome, t.place = .ended outcome → t.cancellations = 0 →
    t.future = .done outcome ∧ t.undos = []
  undone : ∀ outcome, t.place = .ended outcome → 0 < t.cancellations →
    outcome = .error .cancelled ∧ ∃ called, t.future = .done called ∧ t.undos = toUndo job called

/-- Where a task stands, with what has come about there. -/
inductive Stage (job : Job σ ε ρ) (t : Task σ ε ρ) : Prop
  /-- It waits for the call. -/
  | waiting (place : t.place = .waiting) (undone : t.undone = none) (undos : t.undos = [])
      (pending : 0 < t.cancellations ↔ t.pending = true)
  /-- It waits for the call, cancelled. -/
  | finishing (place : t.place = .finishing) (undone : t.undone = none) (undos : t.undos = [])
      (cancelled : 0 < t.cancellations)
  /-- The result of its call is yet to be undone. -/
  | undoing (result : ρ) (worker : Worker (Outcome ε PUnit.{1})) (place : t.place = .undoing)
      (future : t.future = .done (.ok result)) (given : job.undo.isSome)
      (undone : t.undone = some worker) (cancelled : 0 < t.cancellations)
      (undos : t.undos = if worker.hasEnded then [result] else [])
  /-- It has ended as its call did. -/
  | kept (outcome : Outcome ε ρ) (place : t.place = .ended outcome)
      (future : t.future = .done outcome) (uncancelled : t.cancellations = 0)
      (undone : t.undone = none) (undos : t.undos = [])
  /-- It has raised the cancellation, or a call's own. -/
  | raised (called : Outcome ε ρ) (place : t.place = .ended (.error .cancelled))
      (future : t.future = .done called)
      (cancelled : 0 < t.cancellations ∨ called = .error .cancelled)
      (finished : ∀ worker, t.undone = some worker → ∃ outcome, worker = .done outcome)
      (undos : t.undos = toUndo job called)

/-- What running a task on leaves alone: the world, what the call came to and what was undone. -/
def Alike (t u : Task σ ε ρ) : Prop :=
  u.world = t.world ∧ u.future = t.future ∧ u.undos = t.undos

theorem alike_finish : t.Alike (t.finish job) := by
  rw [Task.finish]
  split
  · unfold finished
    split <;> exact ⟨rfl, rfl, rfl⟩
  · exact ⟨rfl, rfl, rfl⟩

theorem alike_finishUndo : t.Alike t.finishUndo := by
  rw [finishUndo]
  split <;> exact ⟨rfl, rfl, rfl⟩

theorem alike_resume (job : Job σ ε ρ) (t : Task σ ε ρ) : t.Alike (t.resume job) := by
  rw [Task.resume]
  split
  · split_ifs
    · exact alike_finish (t := { t with pending := false })
    · split
      · exact alike_finish
      · exact ⟨rfl, rfl, rfl⟩
      · exact ⟨rfl, rfl, rfl⟩
  · exact alike_finish (t := { t with pending := false })
  · exact alike_finishUndo (t := { t with pending := false })
  · exact ⟨rfl, rfl, rfl⟩

theorem Stage.sound (h : Stage job t) : t.Sound job := by
  cases h with
  | waiting place undone undos pending =>
    refine ⟨?_, Or.inl undos, ?_, ?_⟩ <;> (intro outcome hplace; cases place.symm.trans hplace)
  | finishing place undone undos cancelled =>
    refine ⟨?_, Or.inl undos, ?_, ?_⟩ <;> (intro outcome hplace; cases place.symm.trans hplace)
  | undoing result worker place future given undone cancelled undos =>
    refine ⟨?_, ?_, ?_, ?_⟩
    · intro outcome hplace
      cases place.symm.trans hplace
    · cases worker with
      | queued | running => exact Or.inl undos
      | ended | done =>
        refine Or.inr ⟨cancelled, _, future, ?_⟩
        rw [toUndo, if_pos given]
        exact undos
    all_goals
      intro outcome hplace
      cases place.symm.trans hplace
  | kept outcome place future uncancelled undone undos =>
    refine ⟨fun _ _ => ⟨_, future⟩, Or.inl undos, ?_, fun _ _ h => absurd h (by omega)⟩
    intro outcome' hplace _
    obtain rfl : outcome = outcome' := by simpa using place.symm.trans hplace
    exact ⟨future, undos⟩
  | raised called place future cancelled finished undos =>
    have hcalled (h : t.cancellations = 0) : called = .error .cancelled :=
      cancelled.resolve_left (by omega)
    refine ⟨fun _ _ => ⟨_, future⟩, ?_, ?_, ?_⟩
    · rcases Nat.eq_zero_or_pos t.cancellations with h | h
      · rw [hcalled h] at undos
        exact Or.inl undos
      · exact Or.inr ⟨h, called, future, undos⟩
    · intro outcome hplace h
      obtain rfl : outcome = .error .cancelled := by simpa using (place.symm.trans hplace).symm
      rw [hcalled h] at future undos
      exact ⟨future, undos⟩
    · intro outcome hplace _
      exact ⟨by simpa using (place.symm.trans hplace).symm, called, future, undos⟩

/-- A task whose call has ended otherwise than into its caller's hands. -/
theorem Stage.finish (undone : t.undone = none) (undos : t.undos = [])
    (cancelled : 0 < t.cancellations ∨ t.future = .done (.error .cancelled)) :
    Stage job (t.finish job) := by
  rw [Task.finish]
  split
  · rename_i called hfuture
    have hcancelled : 0 < t.cancellations ∨ called = .error .cancelled :=
      cancelled.imp_right fun h => by simpa using hfuture.symm.trans h
    have hraised (hnothing : toUndo job called = []) : Stage job t.raised :=
      .raised called rfl hfuture hcancelled (fun worker h => by cases undone.symm.trans h)
        (undos.trans hnothing.symm)
    cases called with
    | error e => cases hundo : job.undo <;> simpa only [finished, hundo] using hraised rfl
    | ok result =>
      cases hundo : job.undo with
      | none => simpa only [finished, hundo] using hraised (by rw [toUndo, hundo]; rfl)
      | some undo =>
        simp only [finished, hundo]
        exact .undoing result .queued rfl hfuture (by rw [hundo]; rfl) rfl
          (hcancelled.resolve_right (by simp)) undos
  · rename_i hfuture
    exact .finishing rfl undone undos (cancelled.resolve_right fun h => hfuture _ h)

/-- The loop runs a task on. -/
theorem Stage.resume (h : Stage job t) : Stage job (t.resume job) := by
  cases h with
  | waiting place undone undos pending =>
    simp only [Task.resume, place]
    split_ifs with hpending
    · exact finish (t := { t with pending := false }) undone undos (Or.inl (pending.mpr hpending))
    · have hnone : t.cancellations = 0 := by
        by_contra hne
        exact hpending (pending.mp (Nat.pos_of_ne_zero hne))
      split
      · rename_i hfuture
        exact finish undone undos (Or.inr hfuture)
      · rename_i outcome _ hfuture
        exact .kept outcome rfl hfuture hnone undone undos
      · exact .waiting place undone undos pending
  | finishing place undone undos cancelled =>
    simp only [Task.resume, place]
    exact finish (t := { t with pending := false }) undone undos (Or.inl cancelled)
  | undoing result worker place future given undone cancelled undos =>
    simp only [Task.resume, place, finishUndo]
    split
    · rename_i outcome hdone
      obtain rfl : worker = .done outcome := by simpa using undone.symm.trans hdone
      refine .raised (.ok result) rfl future (Or.inl cancelled) (fun w hw => ?_) ?_
      · exact ⟨outcome, by simpa using (undone.symm.trans hw).symm⟩
      · rw [toUndo, if_pos given]
        exact undos
    · exact .undoing result worker rfl future given undone cancelled undos
  | kept outcome place future uncancelled undone undos =>
    simp only [Task.resume, place]
    exact .kept outcome place future uncancelled undone undos
  | raised called place future cancelled finished undos =>
    simp only [Task.resume, place]
    exact .raised called place future cancelled finished undos

/-- A cancellation that arrives. -/
theorem Stage.cancel (h : Stage job t) : Stage job (t.step job env .cancel) := by
  cases h with
  | waiting place undone undos pending =>
    simp only [Task.step, place]
    exact .waiting rfl undone undos (by simp)
  | finishing place undone undos cancelled =>
    simp only [Task.step, place]
    exact .finishing rfl undone undos (Nat.succ_pos _)
  | undoing result worker place future given undone cancelled undos =>
    simp only [Task.step, place]
    exact .undoing result worker rfl future given undone (Nat.succ_pos _) undos
  | kept outcome place future uncancelled undone undos =>
    simp only [Task.step, place]
    exact .kept outcome place future uncancelled undone undos
  | raised called place future cancelled finished undos =>
    simp only [Task.step, place]
    exact .raised called place future cancelled finished undos

/-- What happens to the call's worker and its future before it is done. -/
theorem Stage.called (h : Stage job t) (world : σ) (future : Worker (Outcome ε ρ))
    (undone : ∀ outcome, t.future ≠ .done outcome) :
    Stage job { t with world := world, future := future } := by
  cases h with
  | waiting place none undos pending => exact .waiting place none undos pending
  | finishing place none undos cancelled => exact .finishing place none undos cancelled
  | undoing result worker place future => exact absurd future (undone _)
  | kept outcome place future => exact absurd future (undone _)
  | raised called place future => exact absurd future (undone _)

/-- What others do to the world. -/
theorem Stage.others (h : Stage job t) (world : σ) : Stage job { t with world := world } := by
  cases h with
  | waiting place undone undos pending => exact .waiting place undone undos pending
  | finishing place undone undos cancelled => exact .finishing place undone undos cancelled
  | undoing result worker place future given undone cancelled undos =>
    exact .undoing result worker place future given undone cancelled undos
  | kept outcome place future uncancelled undone undos =>
    exact .kept outcome place future uncancelled undone undos
  | raised called place future cancelled finished undos =>
    exact .raised called place future cancelled finished undos

/-- What happens to the worker that undoes a result before it is done. -/
theorem Stage.undoes (h : Stage job t) {before : Worker (Outcome ε PUnit.{1})}
    (hbefore : t.undone = some before) (open' : ∀ outcome, before ≠ .done outcome) (world : σ)
    (worker : Worker (Outcome ε PUnit.{1})) (undos : List ρ)
    (next : ∀ result, t.future = .done (.ok result) →
      t.undos = (if before.hasEnded then [result] else []) →
        undos = if worker.hasEnded then [result] else []) :
    Stage job { t with world := world, undone := some worker, undos := undos } := by
  cases h with
  | waiting place none => cases none.symm.trans hbefore
  | finishing place none => cases none.symm.trans hbefore
  | undoing result worker' place future given some cancelled before' =>
    obtain rfl : worker' = before := by simpa using some.symm.trans hbefore
    exact .undoing result worker place future given rfl cancelled (next result future before')
  | kept outcome place future uncancelled none => cases none.symm.trans hbefore
  | raised called place future cancelled finished =>
    obtain ⟨outcome, hdone⟩ := finished before hbefore
    exact absurd hdone (open' outcome)

/-- One more event leaves a task at a stage. -/
theorem Stage.step (h : Stage job t) (e : TaskEvent κ) : Stage job (t.step job env e) := by
  cases e with
  | cancel => exact h.cancel
  | resumes => exact h.resume
  | others what => exact h.others (env what t.world)
  | starts =>
    simp only [Task.step]
    split
    · rename_i hfuture
      exact h.called t.world .running fun outcome hdone => by simp [hfuture] at hdone
    · exact h
  | ends =>
    simp only [Task.step]
    split
    · rename_i hfuture
      exact h.called _ _ fun outcome hdone => by simp [hfuture] at hdone
    · exact h
  | reports =>
    simp only [Task.step]
    split
    · rename_i outcome hfuture
      exact h.called t.world _ fun outcome hdone => by simp [hfuture] at hdone
    · exact h
  | undoStarts =>
    simp only [Task.step]
    split
    · rename_i hundone
      exact h.undoes hundone (by simp) t.world .running t.undos fun _ _ hu => hu
    · exact h
  | undoEnds =>
    simp only [Task.step]
    split
    · rename_i result undo hundone hfuture hundo
      refine h.undoes hundone (by simp) _ _ _ fun result' hresult hu => ?_
      obtain rfl : result = result' := by simpa using hfuture.symm.trans hresult
      rw [hu]
      rfl
    · exact h
  | undoReports =>
    simp only [Task.step]
    split
    · rename_i outcome hundone
      exact h.undoes hundone (by simp) t.world _ t.undos fun _ _ hu => hu
    · exact h

theorem stage_enter (world : σ) : Stage job (enter world) := .waiting rfl rfl rfl (by simp [enter])

theorem Stage.run (env : κ → σ → σ) (h : Stage job t) (events : List (TaskEvent κ)) :
    Stage job (t.run job env events) := by
  induction events generalizing t with
  | nil => exact h
  | cons e events ih => exact ih (h.step e)

/-- Every interleaving of cancellations with the call, its worker and the loop is sound. -/
theorem sound_run (job : Job σ ε ρ) (env : κ → σ → σ) (world : σ) (events : List (TaskEvent κ)) :
    ((enter world).run job env events).Sound job :=
  ((stage_enter world).run env events).sound

/-- A call that is taken up and carried through is done. -/
theorem done_of_carried (job : Job σ ε ρ) (env : κ → σ → σ) (t : Task σ ε ρ) : ∃ called,
    (t.run job env [.starts, .ends, .reports]).future = .done called := by
  cases hfuture : t.future <;> simp [Task.run, Task.step, hfuture]

/-- What undoes a result, carried through, leaves the cancellation to be raised. -/
theorem ended_of_undoing {result : ρ} {worker : Worker (Outcome ε PUnit.{1})}
    (place : t.place = .undoing) (future : t.future = .done (.ok result))
    (given : job.undo.isSome) (undone : t.undone = some worker) :
    (t.run job env [.undoStarts, .undoEnds, .undoReports, .resumes]).place =
      .ended (.error .cancelled) := by
  obtain ⟨undo, hundo⟩ := Option.isSome_iff_exists.mp given
  cases worker <;>
    simp [Task.run, Task.step, undone, future, hundo, place, Task.resume, finishUndo, Task.raised]

/-- A task can end from wherever it is, without a further cancellation. -/
theorem Stage.exists_ended (h : Stage job t) (env : κ → σ → σ) : ∃ events : List (TaskEvent κ),
    (∀ e ∈ events, e ≠ .cancel) ∧ ∃ outcome, (t.run job env events).place = .ended outcome := by
  have hcarried := h.run env [.starts, .ends, .reports]
  obtain ⟨called, hcalled⟩ := done_of_carried job env t
  have hresumed := hcarried.resume
  -- once the call is done, the loop runs the task to its end or to what is to be undone
  have hplace : (∃ outcome, ((t.run job env [.starts, .ends, .reports]).resume job).place =
      .ended outcome) ∨ ((t.run job env [.starts, .ends, .reports]).resume job).place =
        .undoing := by
    generalize t.run job env [.starts, .ends, .reports] = u at hcalled ⊢
    rw [Task.resume]
    cases hu : u.place with
    | ended outcome => exact Or.inl ⟨outcome, hu⟩
    | undoing =>
      simp only [finishUndo]
      split
      · exact Or.inl ⟨_, rfl⟩
      · exact Or.inr rfl
    | waiting | finishing =>
      rcases called with (_ | e) | result <;> cases hundo : job.undo <;>
        cases u.pending <;> simp [Task.finish, hcalled, Task.finished, Task.raised, hundo]
  rcases hplace with ⟨outcome, houtcome⟩ | hundoing
  · exact ⟨[.starts, .ends, .reports, .resumes], by simp, outcome, houtcome⟩
  · refine ⟨[.starts, .ends, .reports, .resumes] ++ [.undoStarts, .undoEnds, .undoReports,
      .resumes], by simp, .error .cancelled, ?_⟩
    cases hresumed with
    | undoing result worker place future given undone =>
      rw [Task.run, List.foldl_append]
      exact ended_of_undoing place future given undone
    | waiting place => cases place.symm.trans hundoing
    | finishing place => cases place.symm.trans hundoing
    | kept outcome place => cases place.symm.trans hundoing
    | raised called place => cases place.symm.trans hundoing

end Soundness

end Task

/-! ### Holds -/

/-- The hold a call's answer names. -/
def holdsOf : Answer → List Authorization
  | .authorization a => [a]
  | _ => []

namespace AsyncBudgetManager

variable (w : World)

/-- A call of the governor on a worker thread. -/
def perform (m : Mutation) (d : Desk) : Outcome Exception Answer × Desk :=
  let r := d.governor.call w m
  (r.1.mapError .error, { d with governor := r.2, placed := d.placed ++ heldIn r.1 })

/-- `_void_unused`. -/
def voidUnused (answer : Answer) (d : Desk) : Outcome Exception PUnit.{1} × Desk :=
  match answer with
  | .authorization hold =>
    let r := d.settle w
      (.void hold (txt "released: the caller was cancelled before using the hold"))
    ((r.1.mapError .error).map fun _ => ⟨⟩, r.2)
  | _ => (.ok ⟨⟩, d)

/-- A call that places a hold, undone only where it is made under no key. -/
def placing (m : Mutation) (key : Option Text) : Job Desk Exception Answer where
  call := perform w m
  undo := if key = none then some (voidUnused w) else none

/-- `authorize`. -/
def authorize (scope : Text) (amount : AmountArg) (memo : Text) (key : Option Text) :
    Job Desk Exception Answer :=
  placing w (.authorize scope amount memo key) key

/-- `try_authorize`. -/
def tryAuthorize (scope : Text) (amount : AmountArg) (memo : Text) (key : Option Text) :
    Job Desk Exception Answer :=
  placing w (.tryAuthorize scope amount memo key) key

/-- What is claimed of a hold: it is handed to the caller and not voided, or voided once and not
handed over, and never voided where it was placed under a key. -/
structure HandedOrVoided (key : Option Text) (t : Task Desk Exception Answer) : Prop where
  handed : ∀ answer, t.place = .ended (.ok answer) →
    t.world.placed = holdsOf answer ∧ t.world.deeds = []
  voided : ∀ fault, t.place = .ended (.error fault) → key = none →
    t.world.deeds.map (fun x => x.ask.hold) = t.world.placed ∧ ∀ x ∈ t.world.deeds, x.Frees
  keyed : key ≠ none → t.world.deeds = []

section Holds

variable {w} {m : Mutation} {key : Option Text} {t : Task Desk Exception Answer}

/-- The hold placed by a call that has ended. -/
def placedBy : Worker (Outcome Exception Answer) → List Authorization
  | .ended (.ok answer) | .done (.ok answer) => holdsOf answer
  | _ => []

/-- What the desk of a task records: the hold the call placed, and a void for each undoing. -/
structure Records (t : Task Desk Exception Answer) : Prop where
  placed : t.world.placed = placedBy t.future
  deeds : t.world.deeds.map (fun x => x.ask.hold) = t.undos.flatMap holdsOf
  frees : ∀ x ∈ t.world.deeds, x.Frees

theorem heldIn_eq (r : Except Exception Answer) : heldIn r =
    placedBy (.ended (r.mapError Fault.error)) := by
  rcases r with e | answer
  · rfl
  · cases answer <;> rfl

theorem Records.undone {d : Desk} {undos : List Answer}
    (deeds : d.deeds.map (fun x => x.ask.hold) = undos.flatMap holdsOf)
    (frees : ∀ x ∈ d.deeds, x.Frees) (answer : Answer) :
    (voidUnused w answer d).2.placed = d.placed ∧
      (voidUnused w answer d).2.deeds.map (fun x => x.ask.hold) =
        (undos ++ [answer]).flatMap holdsOf ∧
      ∀ x ∈ (voidUnused w answer d).2.deeds, x.Frees := by
  rw [List.flatMap_append, ← deeds]
  cases answer with
  | authorization hold =>
    refine ⟨rfl, by simp [AsyncBudgetManager.voidUnused, holdsOf, Ask.hold, Desk.deed], ?_⟩
    simp only [AsyncBudgetManager.voidUnused, Desk.deeds_settle, List.forall_mem_append,
      List.forall_mem_singleton]
    exact ⟨frees, frees_void d hold _⟩
  | _ => exact ⟨rfl, by simp [AsyncBudgetManager.voidUnused, holdsOf], frees⟩

/-- One more event keeps what is recorded. -/
theorem Records.step (h : Records t) (e : TaskEvent (List Governor.Command)) :
    Records (t.step (placing w m key) (fun commands d => d.meanwhile w commands) e) := by
  cases e with
  | cancel =>
    simp only [Task.step]
    split <;> exact ⟨h.placed, h.deeds, h.frees⟩
  | others commands => exact ⟨h.placed, h.deeds, h.frees⟩
  | resumes =>
    obtain ⟨hworld, hfuture, hundos⟩ := Task.alike_resume (placing w m key) t
    simp only [Task.step]
    exact ⟨by rw [hworld, hfuture, h.placed], by rw [hworld, hundos, h.deeds],
      by rw [hworld]; exact h.frees⟩
  | starts =>
    simp only [Task.step]
    split
    · rename_i hfuture
      exact ⟨h.placed.trans (by rw [hfuture]; rfl), h.deeds, h.frees⟩
    · exact h
  | ends =>
    simp only [Task.step]
    split
    · rename_i hfuture
      have hnone := h.placed
      rw [hfuture] at hnone
      refine ⟨?_, h.deeds, h.frees⟩
      simp only [placing, perform, hnone, heldIn_eq]
      rfl
    · exact h
  | reports =>
    simp only [Task.step]
    split
    · rename_i outcome hfuture
      refine ⟨h.placed.trans ?_, h.deeds, h.frees⟩
      rw [hfuture]
      cases outcome <;> rfl
    · exact h
  | undoStarts | undoReports =>
    simp only [Task.step]
    split <;> exact ⟨h.placed, h.deeds, h.frees⟩
  | undoEnds =>
    simp only [Task.step]
    split
    · rename_i result undo hundone hfuture hundo
      have hvoid : undo = voidUnused w := by
        simp only [placing] at hundo
        split_ifs at hundo
        exact (Option.some.inj hundo).symm
      subst hvoid
      obtain ⟨hplaced, hdeeds, hfrees⟩ := Records.undone (w := w) h.deeds h.frees result
      exact ⟨hplaced.trans h.placed, hdeeds, hfrees⟩
    · exact h

theorem Records.run (h : Records t) (events : List (TaskEvent (List Governor.Command))) :
    Records (t.run (placing w m key) (fun commands d => d.meanwhile w commands) events) := by
  induction events generalizing t with
  | nil => exact h
  | cons e events ih => exact ih (h.step e)

/-- What is undone of a call made under a key. -/
theorem toUndo_keyed (hkey : key ≠ none) (called : Outcome Exception Answer) :
    Task.toUndo (placing w m key) called = [] := by
  cases called <;> simp [Task.toUndo, placing, hkey]

/-- What is undone of a call made under no key is the hold it placed. -/
theorem toUndo_unkeyed (called : Outcome Exception Answer) :
    (Task.toUndo (placing w m none) called).flatMap holdsOf = placedBy (.done called) := by
  cases called <;> simp [Task.toUndo, placing, placedBy]

/-- A call that is sound and recorded leaves its hold in one pair of hands. -/
theorem Records.handedOrVoided (h : Records t) (sound : t.Sound (placing w m key)) :
    HandedOrVoided key t := by
  have hnone (hundos : t.undos = []) : t.world.deeds = [] := by
    simpa [hundos] using h.deeds
  refine ⟨fun answer hplace => ?_, fun fault hplace hkey => ⟨?_, h.frees⟩, fun hkey => ?_⟩
  · rcases Nat.eq_zero_or_pos t.cancellations with hc | hc
    · obtain ⟨hfuture, hundos⟩ := sound.kept _ hplace hc
      exact ⟨by rw [h.placed, hfuture]; rfl, hnone hundos⟩
    · cases (sound.undone _ hplace hc).1
  · subst hkey
    rw [h.deeds, h.placed]
    rcases Nat.eq_zero_or_pos t.cancellations with hc | hc
    · obtain ⟨hfuture, hundos⟩ := sound.kept _ hplace hc
      rw [hundos, hfuture]
      rfl
    · obtain ⟨-, called, hfuture, hundos⟩ := sound.undone _ hplace hc
      rw [hundos, hfuture, toUndo_unkeyed]
  · rcases sound.within with hundos | ⟨-, called, -, hundos⟩
    · exact hnone hundos
    · exact hnone (hundos.trans (toUndo_keyed hkey called))

theorem records_enter (g : Governor) : Records (Task.enter (ε := Exception) ⟨g, [], []⟩) :=
  ⟨rfl, rfl, by simp [Task.enter]⟩

/-- A call that places a hold, from any governor and through any events. -/
theorem handedOrVoided_placing (w : World) (m : Mutation) (key : Option Text) (g : Governor)
    (events : List (TaskEvent (List Governor.Command))) :
    HandedOrVoided key ((Task.enter ⟨g, [], []⟩).run (placing w m key)
      (fun commands d => d.meanwhile w commands) events) :=
  ((records_enter g).run events).handedOrVoided (Task.sound_run _ _ _ events)

end Holds

/-- Cancellation neither abandons nor strands a call: through any events a task is sound and can
still end, and the hold of `authorize` or `try_authorize` is handed over or voided, never both. -/
theorem strands_no_hold (w : World) (g : Governor) (scope : Text) (amount : AmountArg)
    (memo : Text) (key : Option Text) (events : List (TaskEvent (List Governor.Command))) :
    (∀ {σ ε ρ κ : Type} (job : Job σ ε ρ) (env : κ → σ → σ) (world : σ)
        (events : List (TaskEvent κ)),
      ((Task.enter world).run job env events).Sound job ∧
        ∃ more : List (TaskEvent κ), (∀ e ∈ more, e ≠ .cancel) ∧ ∃ outcome,
          (((Task.enter world).run job env events).run job env more).place = .ended outcome) ∧
    HandedOrVoided key ((Task.enter ⟨g, [], []⟩).run (authorize w scope amount memo key)
      (fun commands d => d.meanwhile w commands) events) ∧
    HandedOrVoided key ((Task.enter ⟨g, [], []⟩).run (tryAuthorize w scope amount memo key)
      (fun commands d => d.meanwhile w commands) events) :=
  ⟨fun job env world events => ⟨Task.sound_run job env world events,
      ((Task.stage_enter world).run env events).exists_ended env⟩,
    handedOrVoided_placing w _ key g events, handedOrVoided_placing w _ key g events⟩

end AsyncBudgetManager

end AgentGov.Metering
