import AgentGov.Cognitive.Breaker
import AgentGov.Foundation.Histories

/-!
# The cognitive latch

A trajectory a call has been halted on is latched in the table of trajectories, and the calls on
it that come after are halted as well, until `reset` removes it. The table forgets its least
recently used trajectories, latched ones too, so a latch is undone by work on others as well.
Where no latched trajectory is evicted, the latch is undone by `reset` only.

## Main definitions

* `AgentGov.Cognitive.LatchHolds`: once halted, a trajectory's calls are halted until its reset.
* `AgentGov.Cognitive.Breaker.Spares`: a step evicts no latched trajectory, and nothing a halted
  call runs fails.

## Main results

* `AgentGov.Cognitive.latched_step`: a latched trajectory stays so.
* `AgentGov.Cognitive.latch_holds`: where every step spares the latched trajectories, the latch
  holds over the run.
* `AgentGov.Cognitive.evicted_latch_not_holds`: a table of one trajectory forgets a latch.
-/

open Foundation

namespace AgentGov.Cognitive

/-! ### What is claimed of a run -/

/-- Whether the event is an `observe` of a tool that is not exempt, or a `check`, of the
trajectory. -/
def Event.Asks (cfg : Config) (k : Text) : Event → Prop
  | .observe o => o.tool ∉ cfg.policy.exemptTools ∧ o.key = k
  | .check scopeId trajectory => trajectory.getD scopeId = k
  | _ => False

/-- Whether a call on the trajectory goes on to be halted. -/
def Moment.Halts (k : Text) (m : Moment) : Prop :=
  ∃ scopeId finding, m.outcome = .goesOn (.halt scopeId k finding)

/-- Whether the trajectory is reset. -/
def Moment.Resets (k : Text) (m : Moment) : Prop := m.event = .reset k

instance (k : Text) (m : Moment) : Decidable (m.Resets k) :=
  inferInstanceAs (Decidable (m.event = .reset k))

/-- Once a call on a trajectory has been halted, every later one is, until the trajectory is
reset; and a call that is halted raises `AgentThrashingError`. -/
structure LatchHolds (cfg : Config) (moments : List Moment) : Prop where
  asks : ∀ k, Throughout (fun before m => m.event.Asks cfg k →
    Since (Moment.Halts k) (Moment.Resets k) before → m.Halts k) moments
  raises : ∀ m ∈ moments, ∀ place trip scopeId k finding, m.event = .resume place trip →
    m.breaker.inFlight[place]? = some (.halt scopeId k finding) →
    m.outcome = .agentThrashing scopeId k finding

namespace Breaker

/-- Whether the trajectory is latched as thrashing. -/
def Latched (b : Breaker) (k : Text) : Prop :=
  ∃ state, b.trajectories.get? k = some state ∧ state.verdict.isSome

/-- The trajectories `_touch` evicts for a key. -/
def evicted (cfg : Config) (b : Breaker) (key : Text) : List (Text × Trajectory) :=
  if b.trajectories.contains key then []
  else (b.trajectories.set key Trajectory.new).popped cfg.policy.maxTrajectories

/-- Whether a step evicts no latched trajectory, and what a halted call runs does not fail. -/
def Spares (cfg : Config) (b : Breaker) : Event → Prop
  | .observe o => o.tool ∈ cfg.policy.exemptTools ∨
      1 ≤ cfg.policy.maxTrajectories ∧ (∀ p ∈ b.evicted cfg o.key, p.2.verdict = none) ∧
      (b.Latched o.key → (cfg.digest
        (o.tool ++ unitSeparator ++ cfg.redact o.tool o.arguments)).isOk)
  | .resume _ trip => trip ≠ .failed
  | _ => True

instance (b : Breaker) (k : Text) : Decidable (b.Latched k) :=
  decidable_of_iff ((b.trajectories.get? k).any (·.verdict.isSome)) (by
    simp [Latched, Option.any_eq_true])

instance (cfg : Config) (b : Breaker) : (e : Event) → Decidable (b.Spares cfg e)
  | .observe _ => inferInstanceAs (Decidable (_ ∨ _ ∧ _ ∧ (_ → _)))
  | .resume _ trip => inferInstanceAs (Decidable (trip ≠ .failed))
  | .check _ _ | .recordResult _ _ _ | .reset _ | .take | .evaluate _ | .publish =>
    inferInstanceAs (Decidable True)

/-! ### One step -/

variable {cfg : Config} {b : Breaker} {k key : Text} {state : Trajectory} {e : Event}

theorem get?_put : (b.put key state).trajectories.get? k =
    if k = key ∧ b.trajectories.contains key then some state else b.trajectories.get? k := by
  unfold put
  by_cases h : b.trajectories.contains key
  · simp [h]
  · simp [h]

theorem Latched.put (h : b.Latched k) (hstate : k = key → state.verdict.isSome) :
    (b.put key state).Latched k := by
  obtain ⟨old, hold, hverdict⟩ := h
  by_cases hk : k = key ∧ b.trajectories.contains key
  · exact ⟨state, by rw [get?_put, if_pos hk], hstate hk.1⟩
  · exact ⟨old, by rw [get?_put, if_neg hk, hold], hverdict⟩

/-- Where an entry of the table is there and nothing latched is evicted, touching keeps it. -/
theorem Latched.touch (h : b.Latched k) (hspared : ∀ p ∈ b.evicted cfg key, p.2.verdict = none) :
    ({ b with trajectories := (cfg.touch b.trajectories key).1 } : Breaker).Latched k := by
  obtain ⟨state, hk, hverdict⟩ := h
  refine ⟨state, ?_, hverdict⟩
  cases hkey : b.trajectories.get? key with
  | some found => simpa only [Config.touch, hkey, Dict.get?_moveToEnd] using hk
  | none =>
    have hcontains : b.trajectories.contains key = false := by simp [Dict.contains, hkey]
    have hne : k ≠ key := by
      rintro rfl
      exact absurd (hkey.symm.trans hk) (by simp)
    have hset : (b.trajectories.set key Trajectory.new).get? k = some state := by
      rw [Dict.get?_set, if_neg hne, hk]
    have hpopped : (k, state) ∉
        (b.trajectories.set key Trajectory.new).popped cfg.policy.maxTrajectories := by
      intro hmem
      have hnone : state.verdict = none :=
        hspared (k, state) (by simpa [evicted, hcontains] using hmem)
      simp [hnone] at hverdict
    simp only [Config.touch, hkey]
    split_ifs
    · exact hk
    · exact Dict.get?_popOver hset hpopped
    · exact Dict.get?_popOver hset hpopped

/-- What `_touch` hands out is in the table, where there is room for one trajectory. -/
theorem touch_mem {table t : Dict Text Trajectory} (hroom : 1 ≤ cfg.policy.maxTrajectories)
    (h : cfg.touch table key = (t, .ok state)) : t.get? key = some state := by
  cases hkey : table.get? key with
  | some found =>
    simp only [Config.touch, hkey, Prod.mk.injEq, Except.ok.injEq] at h
    rw [← h.1, ← h.2, Dict.get?_moveToEnd, hkey]
  | none =>
    simp only [Config.touch, hkey] at h
    split_ifs at h with hlimit
    · simp at h
    · omega
    · simp only [Prod.mk.injEq, Except.ok.injEq] at h
      rw [← h.1, ← h.2]
      exact Dict.get?_popOver_set hroom hkey Trajectory.new

/-- What `_touch` hands out for a trajectory that is there. -/
theorem touch_of_get? {table : Dict Text Trajectory} (h : table.get? key = some state) :
    cfg.touch table key = (table.moveToEnd key, .ok state) := by
  simp only [Config.touch, h]

/-- A latch is not undone by recording a call on a trajectory that is not latched. -/
theorem Latched.record {o : Observation} {call : ToolCall} (h : b.Latched k)
    (hstate : b.trajectories.get? o.key = some state) (hverdict : state.verdict = none) :
    (b.record cfg o state call).1.Latched k := by
  have hne : k ≠ o.key := by
    rintro rfl
    obtain ⟨state', hstate', hlatched⟩ := h
    rw [hstate, Option.some.injEq] at hstate'
    simp [← hstate', hverdict] at hlatched
  have hput : ∀ heap state', (({ b with heap := heap } : Breaker).put o.key state').Latched k :=
    fun heap state' => Latched.put (b := { b with heap := heap }) h fun hk => absurd hk hne
  simp only [Breaker.record]
  split
  · exact hput _ _
  · split_ifs
    · exact hput _ _
    · exact hput _ _

theorem Latched.observe {o : Observation} (h : b.Latched k) (hspares : b.Spares cfg (.observe o)) :
    (b.observe cfg o).1.Latched k := by
  unfold Breaker.observe
  split_ifs with hexempt
  · exact h
  · obtain ⟨hroom, hspared, -⟩ := hspares.resolve_left hexempt
    have htouch := h.touch hspared
    simp only
    split
    · exact h
    · split
      · rename_i heq
        rwa [heq] at htouch
      · rename_i heq
        rw [heq] at htouch
        have hmem := touch_mem hroom heq
        split
        · exact htouch
        · rename_i hverdict
          exact htouch.record hmem hverdict

theorem Latched.check {scopeId : Text} {trajectory : Option Text} (h : b.Latched k) :
    (b.check scopeId trajectory).1.Latched k := by
  simp only [Breaker.check]
  split
  · exact h
  · split
    · exact h
    · exact h.put fun _ => rfl
    · exact h

theorem Latched.publish (h : b.Latched k) : b.publish.Latched k := by
  simp only [Breaker.publish]
  split
  · rename_i item verdict hlane
    split
    · rename_i verdict' state hstate
      split_ifs with hopen
      · refine Latched.put (b := { b with lane := .idle }) h ?_
        rintro rfl
        obtain ⟨state', hstate', hlatched⟩ := h
        rw [hstate, Option.some.injEq] at hstate'
        simp [← hstate', hopen.1] at hlatched
      · exact h
    · exact h
  · exact h

theorem trajectories_attach (b : Breaker) (key : Text) (digest : Finset Text) :
    (b.attach key digest).trajectories = b.trajectories := by
  unfold attach
  split
  · split <;> rfl
  · rfl

theorem trajectories_enqueue (b : Breaker) (item : Item) :
    (b.enqueue cfg item).trajectories = b.trajectories := by
  unfold enqueue
  split_ifs <;> rfl

theorem trajectories_resume (b : Breaker) (place : ℕ) (trip : Trip) :
    (b.resume cfg place trip).1.trajectories = b.trajectories := by
  unfold resume
  split
  · rfl
  · split
    · exact trajectories_enqueue _ _
    · rfl
    · exact trajectories_attach _ _ _

theorem trajectories_take (b : Breaker) : b.take.trajectories = b.trajectories := by
  unfold take
  split <;> rfl

theorem trajectories_evaluate (b : Breaker) (answer : Except PUnit (Option Verdict)) :
    (b.evaluate answer).trajectories = b.trajectories := by
  unfold evaluate
  split <;> rfl

theorem trajectories_launch (b : Breaker) (outcome : Outcome) :
    (b.launch outcome).trajectories = b.trajectories := by
  cases outcome <;> rfl

theorem Latched.of_trajectories {b' : Breaker} (h : b.Latched k)
    (heq : b'.trajectories = b.trajectories) : b'.Latched k := by
  obtain ⟨state, hk, hverdict⟩ := h
  exact ⟨state, by rw [heq, hk], hverdict⟩

/-- A latched trajectory stays so through every step that spares it and is not its reset. -/
theorem latched_step (h : b.Latched k) (hspares : b.Spares cfg e) (hreset : e ≠ .reset k) :
    (b.step cfg e).Latched k := by
  refine Latched.of_trajectories ?_ (trajectories_launch _ _)
  cases e with
  | observe o => exact h.observe hspares
  | check scopeId trajectory => exact h.check
  | recordResult scopeId payload trajectory => exact h
  | reset trajectory =>
    obtain ⟨state, hk, hverdict⟩ := h
    have hne : k ≠ trajectory := fun heq => hreset (by rw [heq])
    exact ⟨state, by simp [handle, Breaker.reset, hne, hk], hverdict⟩
  | resume place trip => exact h.of_trajectories (trajectories_resume _ _ _)
  | take => exact h.of_trajectories (trajectories_take _)
  | evaluate answer => exact h.of_trajectories (trajectories_evaluate _ _)
  | publish => exact h.publish

/-- A call on a latched trajectory goes on to be halted. -/
theorem halts_of_latched (h : b.Latched k) (hspares : b.Spares cfg e) (hasks : e.Asks cfg k) :
    ∃ scopeId finding, (b.handle cfg e).2 = .goesOn (.halt scopeId k finding) := by
  obtain ⟨state, hk, hverdict⟩ := id h
  obtain ⟨finding, hfinding⟩ := Option.isSome_iff_exists.mp hverdict
  cases e with
  | observe o =>
    obtain ⟨hexempt, rfl⟩ := hasks
    obtain ⟨-, -, hdigest⟩ := hspares.resolve_left hexempt
    have hok := hdigest h
    refine ⟨o.scopeId, finding, ?_⟩
    simp only [handle, Breaker.observe, if_neg hexempt]
    split
    · rename_i heq
      rw [heq] at hok
      exact absurd hok (by simp [Except.isOk, Except.toBool])
    · simp only [touch_of_get? hk, hfinding]
  | check scopeId trajectory =>
    obtain rfl := hasks
    exact ⟨scopeId, finding, by simp only [handle, Breaker.check, hk, hfinding]⟩
  | _ => exact hasks.elim

theorem latched_put (h : b.trajectories.contains key) (hverdict : state.verdict.isSome) :
    (b.put key state).Latched key :=
  ⟨state, by rw [get?_put, if_pos ⟨rfl, h⟩], hverdict⟩

theorem latched_record {o : Observation} {call : ToolCall} {scopeId : Text} {finding : Finding}
    (hstate : b.trajectories.get? o.key = some state)
    (h : (b.record cfg o state call).2 = .goesOn (.halt scopeId k finding)) :
    (b.record cfg o state call).1.Latched k := by
  have hcontains : b.trajectories.contains o.key := by simp [Dict.contains, hstate]
  simp only [Breaker.record] at h ⊢
  split at h
  · rename_i hfound
    simp only [Outcome.goesOn.injEq, Pending.halt.injEq] at h
    obtain ⟨-, rfl, -⟩ := h
    rw [hfound]
    exact latched_put (b := { b with heap := _ }) hcontains rfl
  · split_ifs at h
    simp at h

theorem latched_observe {o : Observation} {scopeId : Text} {finding : Finding}
    (hspares : b.Spares cfg (.observe o))
    (h : (b.observe cfg o).2 = .goesOn (.halt scopeId k finding)) :
    (b.observe cfg o).1.Latched k := by
  simp only [Breaker.observe] at h ⊢
  split_ifs at h ⊢ with hexempt
  obtain ⟨hroom, -, -⟩ := hspares.resolve_left hexempt
  split at h
  · simp at h
  · rename_i fingerprint hdigest
    split at h
    · simp at h
    · rename_i table state htouch
      have hmem := touch_mem hroom htouch
      split at h
      · rename_i hverdict
        simp only [Outcome.goesOn.injEq, Pending.halt.injEq] at h
        obtain ⟨-, rfl, -⟩ := h
        exact ⟨state, hmem, by simp [hverdict]⟩
      · exact latched_record hmem h

theorem latched_check {s : Text} {trajectory : Option Text} {scopeId : Text} {finding : Finding}
    (h : (b.check s trajectory).2 = .goesOn (.halt scopeId k finding)) :
    (b.check s trajectory).1.Latched k := by
  unfold Breaker.check at h ⊢
  simp only at h ⊢
  split at h
  · simp at h
  · rename_i state hstate
    split at h
    · rename_i hverdict
      simp only [Outcome.goesOn.injEq, Pending.halt.injEq] at h
      obtain ⟨-, rfl, -⟩ := h
      exact ⟨state, hstate, by simp [hverdict]⟩
    · simp only [Outcome.goesOn.injEq, Pending.halt.injEq] at h
      obtain ⟨-, rfl, -⟩ := h
      exact latched_put (by simp [Dict.contains, hstate]) rfl
    · simp at h

/-- A call that goes on to be halted leaves its trajectory latched. -/
theorem latched_of_halts (hspares : b.Spares cfg e) {scopeId : Text} {finding : Finding}
    (h : (b.handle cfg e).2 = .goesOn (.halt scopeId k finding)) : (b.step cfg e).Latched k := by
  refine Latched.of_trajectories ?_ (trajectories_launch _ _)
  cases e with
  | observe o => exact latched_observe hspares h
  | check s trajectory => exact latched_check h
  | resume place trip =>
    simp only [handle, Breaker.resume] at h
    split at h
    · simp at h
    · split at h
      · simp at h
      · cases trip <;> simp [halt] at h
      · simp at h
  | recordResult s payload trajectory => simp [handle, recordResult] at h
  | reset trajectory => simp [handle] at h
  | take => simp [handle] at h
  | evaluate answer => simp [handle] at h
  | publish => simp [handle] at h

/-! ### Runs -/

/-- Whether every step of a run spares the latched trajectories. -/
def Sparing (cfg : Config) (moments : List Moment) : Prop :=
  ∀ m ∈ moments, m.breaker.Spares cfg m.event

theorem moments_concat (es : List Event) (e : Event) :
    b.moments cfg (es ++ [e]) =
      b.moments cfg es ++ [⟨b.run cfg es, e, ((b.run cfg es).handle cfg e).2⟩] :=
  moments_append cfg b es [e]

theorem run_concat (es : List Event) (e : Event) :
    b.run cfg (es ++ [e]) = (b.run cfg es).step cfg e :=
  run_append cfg b es [e]

/-- A trajectory that has been halted, and not reset since, is latched. -/
theorem latched_of_since {es : List Event} (hspares : Sparing cfg (b.moments cfg es))
    (h : Since (Moment.Halts k) (Moment.Resets k) (b.moments cfg es)) :
    (b.run cfg es).Latched k := by
  induction es using List.reverseRecOn with
  | nil => exact absurd h not_since_nil
  | append_singleton es e ih =>
    rw [moments_concat] at h hspares
    rw [run_concat]
    have hstep : (b.run cfg es).Spares cfg e :=
      hspares _ (List.mem_append_right _ (List.mem_singleton_self _))
    rcases since_concat.mp h with ⟨scopeId, finding, hhalts⟩ | ⟨hreset, hsince⟩
    · exact latched_of_halts hstep hhalts
    · exact latched_step (ih (fun m hm => hspares m (List.mem_append_left _ hm)) hsince) hstep
        hreset

/-- Every call on a trajectory that has been halted, and not reset since, is halted too. -/
theorem asks_of_sparing {es : List Event} (hspares : Sparing cfg (b.moments cfg es)) :
    Throughout (fun before m => m.event.Asks cfg k →
      Since (Moment.Halts k) (Moment.Resets k) before → m.Halts k) (b.moments cfg es) := by
  induction es using List.reverseRecOn with
  | nil => exact throughout_nil _
  | append_singleton es e ih =>
    rw [moments_concat] at hspares ⊢
    have hbefore : Sparing cfg (b.moments cfg es) :=
      fun m hm => hspares m (List.mem_append_left _ hm)
    have hstep : (b.run cfg es).Spares cfg e :=
      hspares _ (List.mem_append_right _ (List.mem_singleton_self _))
    refine throughout_concat.mpr ⟨ih hbefore, fun hasks hsince => ?_⟩
    exact halts_of_latched (latched_of_since hbefore hsince) hstep hasks

/-- What a step comes to is what its section does. -/
theorem outcome_of_mem {es : List Event} {m : Moment} (h : m ∈ b.moments cfg es) :
    m.outcome = (m.breaker.handle cfg m.event).2 := by
  induction es generalizing b with
  | nil => simp [moments] at h
  | cons e es ih =>
    rcases List.mem_cons.mp h with rfl | h
    · rfl
    · exact ih h

/-- A halted call raises `AgentThrashingError`, unless tripping the manager fails. -/
theorem resume_halts {place : ℕ} {trip : Trip} {scopeId : Text} {finding : Finding}
    (h : b.inFlight[place]? = some (.halt scopeId k finding)) (htrip : trip ≠ .failed) :
    (b.resume cfg place trip).2 = .agentThrashing scopeId k finding := by
  simp only [Breaker.resume, h]
  cases trip with
  | failed => exact absurd rfl htrip
  | done => rfl
  | unknownScope => rfl

end Breaker

/-- Where every step spares the latched trajectories, a latch is undone by `reset` only. -/
theorem latch_holds (cfg : Config) (es : List Event)
    (h : Breaker.Sparing cfg (Breaker.new.moments cfg es)) :
    LatchHolds cfg (Breaker.new.moments cfg es) where
  asks := fun _ => Breaker.asks_of_sparing h
  raises := by
    intro m hm place trip scopeId k finding hevent hflight
    have hspares := h m hm
    rw [Breaker.outcome_of_mem hm, hevent]
    rw [hevent] at hspares
    exact Breaker.resume_halts hflight hspares

/-! ### A table of one trajectory -/

/-- A breaker that halts on the second identical call, with room for `room` trajectories, a
semantic observer, and digests of the bytes themselves. -/
def sampleConfig (room : ℤ) : Config where
  policy := {
    maxIdenticalRepeats := 2
    comparisonWindow := 6
    maxCyclePeriod := 4
    minCycleRepeats := 3
    historyLimit := 64
    maxTrajectories := room
    shingleSize := 3
    maxArgumentChars := 16
    exemptTools := []
    retainArguments := false
    asyncQueueSize := 256 }
  detectors := [exactRepeat id 2]
  redactor := none
  blake2b := fun bytes => .ok (toHex bytes)
  semantic := true

/-- The start of 2026. -/
def sampleNow : Instant := ⟨2026, 1, 1, 0, 0, 0, 0, Instant.newYear_valid⟩

/-- A search on a trajectory. -/
def search (trajectory arguments : String) : Event :=
  .observe ⟨txt "scope", txt "search", txt arguments, some (txt trajectory), sampleNow⟩

/-- A trajectory is halted, another one is worked on, and the first calls again. -/
def sampleRetry : List Event :=
  [search "a" "x", search "a" "x", .resume 1 .done, search "b" "y", search "a" "x"]

theorem latch_holds_sampleRetry :
    LatchHolds (sampleConfig 2) (Breaker.new.moments (sampleConfig 2) sampleRetry) := by
  refine latch_holds (sampleConfig 2) sampleRetry ?_
  show ∀ m ∈ Breaker.new.moments (sampleConfig 2) sampleRetry, m.breaker.Spares _ m.event
  decide +kernel

theorem evicted_latch_not_holds :
    ¬LatchHolds (sampleConfig 1) (Breaker.new.moments (sampleConfig 1) sampleRetry) := by
  intro h
  have hhalts : (Breaker.new.moments (sampleConfig 1) sampleRetry)[1].Halts (txt "a") :=
    ⟨_, _, rfl⟩
  obtain ⟨scopeId, finding, houtcome⟩ := h.asks (txt "a")
    ((Breaker.new.moments (sampleConfig 1) sampleRetry).take 4) _ [] rfl ⟨by decide, rfl⟩
    ⟨(Breaker.new.moments (sampleConfig 1) sampleRetry).take 1, _, _, rfl, hhalts, by
      decide +kernel⟩
  cases houtcome

end AgentGov.Cognitive
