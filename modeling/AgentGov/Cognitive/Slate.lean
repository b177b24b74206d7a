import AgentGov.Cognitive.Latch

/-!
# Resets

`reset` removes a trajectory from the table. What the semantic lane still holds of it, and the
calls on it that have yet to raise, are left as they are: a window handed over before the reset is
judged after it, and its verdict is published into whatever state the trajectory then has. Where
nothing of the trajectory is under way at its reset, every halt that comes after rests on a call
that came after.

## Main definitions

* `AgentGov.Cognitive.Breaker.AtRest`: nothing of a trajectory is under way.
* `AgentGov.Cognitive.CleanSlate`: every halt after a reset rests on a call observed since.

## Main results

* `AgentGov.Cognitive.fresh_step`: what is held of a trajectory rests on calls since its reset.
* `AgentGov.Cognitive.reset_cleans`: a reset of a trajectory at rest is a clean slate.
* `AgentGov.Cognitive.staleWindow_not_clean`: a window evaluated over a reset halts the next call.
-/

open Foundation

namespace AgentGov.Cognitive

/-! ### What is claimed of a reset -/

/-- Whether one of the calls is the `n`th recorded or a later one. -/
def Sample.Reaches (n : ℕ) (s : Sample) : Prop := ∃ place ∈ s.call :: s.window, n ≤ place

/-- Whether the call in flight has a window or a verdict of the trajectory. -/
def Pending.Concerns (k : Text) : Pending → Prop
  | .enqueue item => item.trajectory = k
  | .halt _ trajectory _ => trajectory = k
  | .attach _ _ => False

instance (k : Text) : (pending : Pending) → Decidable (pending.Concerns k)
  | .enqueue item => inferInstanceAs (Decidable (item.trajectory = k))
  | .halt _ trajectory _ => inferInstanceAs (Decidable (trajectory = k))
  | .attach _ _ => inferInstanceAs (Decidable False)

/-- Whether the worker has a window or a verdict of the trajectory. -/
def Lane.Concerns (k : Text) : Lane → Prop
  | .taken item => item.trajectory = k
  | .evaluated item (some _) => item.trajectory = k
  | _ => False

instance (k : Text) : (lane : Lane) → Decidable (lane.Concerns k)
  | .taken item => inferInstanceAs (Decidable (item.trajectory = k))
  | .evaluated item (some _) => inferInstanceAs (Decidable (item.trajectory = k))
  | .evaluated _ none | .idle => inferInstanceAs (Decidable False)

/-- Whether no window of the trajectory is being handed over, queued or with the worker, and no
call on it has yet to raise. -/
structure Breaker.AtRest (b : Breaker) (k : Text) : Prop where
  inFlight : ∀ pending ∈ b.inFlight, ¬pending.Concerns k
  queue : ∀ item ∈ b.queue, item.trajectory ≠ k
  lane : ¬b.lane.Concerns k

instance (b : Breaker) (k : Text) : Decidable (b.AtRest k) :=
  decidable_of_iff ((∀ pending ∈ b.inFlight, ¬pending.Concerns k) ∧
      (∀ item ∈ b.queue, item.trajectory ≠ k) ∧ ¬b.lane.Concerns k)
    ⟨fun ⟨h₁, h₂, h₃⟩ => ⟨h₁, h₂, h₃⟩, fun ⟨h₁, h₂, h₃⟩ => ⟨h₁, h₂, h₃⟩⟩

/-- Where the trajectory is reset after `before`, every call on it that raises
`AgentThrashingError` in `after` is halted by a verdict that rests on a call observed after the
reset. -/
def CleanSlate (cfg : Config) (before : List Event) (k : Text) (after : List Event) : Prop :=
  ∀ m ∈ ((Breaker.new.run cfg before).step cfg (.reset k)).moments cfg after,
    ∀ scopeId finding, m.outcome = .agentThrashing scopeId k finding →
      finding.sample.Reaches (Breaker.new.run cfg before).heap.length

/-! ### What is held of a trajectory -/

/-- Whether what a call in flight holds of the trajectory rests on a call from the `n`th on. -/
def Pending.Fresh (n : ℕ) (k : Text) : Pending → Prop
  | .enqueue item => item.trajectory = k → item.sample.Reaches n
  | .halt _ trajectory finding => trajectory = k → finding.sample.Reaches n
  | .attach _ _ => True

/-- Whether what the worker holds of the trajectory rests on a call from the `n`th on. -/
def Lane.Fresh (n : ℕ) (k : Text) : Lane → Prop
  | .taken item => item.trajectory = k → item.sample.Reaches n
  | .evaluated item (some _) => item.trajectory = k → item.sample.Reaches n
  | _ => True

/-- Whether a trajectory's verdicts rest on calls from the `n`th on. -/
structure Trajectory.Fresh (n : ℕ) (state : Trajectory) : Prop where
  verdict : ∀ finding, state.verdict = some finding → finding.sample.Reaches n
  pending : ∀ finding, state.pending = some finding → finding.sample.Reaches n

namespace Breaker

/-- Whether everything held of the trajectory rests on a call from the `n`th on. -/
structure Fresh (n : ℕ) (k : Text) (b : Breaker) : Prop where
  heap : n ≤ b.heap.length
  state : ∀ state, b.trajectories.get? k = some state → state.Fresh n
  queue : ∀ item ∈ b.queue, item.trajectory = k → item.sample.Reaches n
  lane : b.lane.Fresh n k
  inFlight : ∀ pending ∈ b.inFlight, pending.Fresh n k

end Breaker

/-- Whether a verdict a section comes to on the trajectory rests on a call from the `n`th on. -/
def Outcome.Fresh (n : ℕ) (k : Text) : Outcome → Prop
  | .goesOn pending => pending.Fresh n k
  | .agentThrashing _ trajectory finding => trajectory = k → finding.sample.Reaches n
  | _ => True

theorem Trajectory.fresh_new (n : ℕ) : Trajectory.new.Fresh n :=
  ⟨fun _ h => by simp [Trajectory.new] at h, fun _ h => by simp [Trajectory.new] at h⟩

namespace Breaker

variable {cfg : Config} {b : Breaker} {n : ℕ} {k key : Text} {state : Trajectory}

theorem Fresh.put (h : b.Fresh n k) (key : Text) (state : Trajectory)
    (hstate : key = k → state.Fresh n) :
    (b.put key state).Fresh n k where
  heap := by
    unfold Breaker.put
    split_ifs <;> exact h.heap
  state := by
    intro found hfound
    rw [get?_put] at hfound
    split_ifs at hfound with hkey
    · obtain rfl := Option.some.inj hfound
      exact hstate hkey.1.symm
    · exact h.state found hfound
  queue := by
    unfold Breaker.put
    split_ifs <;> exact h.queue
  lane := by
    unfold Breaker.put
    split_ifs <;> exact h.lane
  inFlight := by
    unfold Breaker.put
    split_ifs <;> exact h.inFlight

/-- What `_touch` leaves in the table was there, or is new. -/
theorem get?_touch {table : Dict Text Trajectory} {found : Trajectory}
    (h : (cfg.touch table key).1.get? k = some found) :
    table.get? k = some found ∨ found = Trajectory.new := by
  have hset (h : (table.set key Trajectory.new).get? k = some found) :
      table.get? k = some found ∨ found = Trajectory.new := by
    rw [Dict.get?_set] at h
    split_ifs at h
    · exact Or.inr (Option.some.inj h).symm
    · exact Or.inl h
  unfold Config.touch at h
  split at h
  · exact Or.inl (by simpa using h)
  · split_ifs at h
    · exact Or.inl h
    · exact hset (Dict.get?_of_popOver h)
    · exact hset (Dict.get?_of_popOver h)

/-- What `_touch` hands out was there, or is new. -/
theorem touch_ok {table t : Dict Text Trajectory} (h : cfg.touch table key = (t, .ok state)) :
    table.get? key = some state ∨ state = Trajectory.new := by
  unfold Config.touch at h
  split at h
  · rename_i hkey
    simp only [Prod.mk.injEq, Except.ok.injEq] at h
    exact Or.inl (by rw [hkey, h.2])
  · split_ifs at h
    · simp at h
    · simp at h
    · simp only [Prod.mk.injEq, Except.ok.injEq] at h
      exact Or.inr h.2.symm

theorem Fresh.touch (h : b.Fresh n k) (cfg : Config) (key : Text) :
    ({ b with trajectories := (cfg.touch b.trajectories key).1 } : Breaker).Fresh n k where
  heap := h.heap
  state := by
    intro found hfound
    rcases get?_touch hfound with hfound | rfl
    · exact h.state found hfound
    · exact Trajectory.fresh_new n
  queue := h.queue
  lane := h.lane
  inFlight := h.inFlight

/-- A call observed now is one from the `n`th on. -/
theorem reaches_now (h : b.Fresh n k) (window : List ℕ) :
    Sample.Reaches n ⟨b.heap.length, window⟩ :=
  ⟨b.heap.length, List.mem_cons_self, h.heap⟩

theorem reaches_judge (h : b.Fresh n k) {call : ToolCall} {history : List ℕ} {finding : Finding}
    (hfinding : cfg.judge b.heap call b.heap.length history = some finding) :
    finding.sample.Reaches n := by
  obtain ⟨verdict, -, rfl⟩ := Option.map_eq_some_iff.mp hfinding
  exact reaches_now h _

/-- A call recorded on a trajectory is judged by calls from the `n`th on. -/
theorem Fresh.record {o : Observation} {call : ToolCall} (h : b.Fresh n k)
    (hstate : o.key = k → state.Fresh n) :
    (b.record cfg o state call).1.Fresh n k ∧ (b.record cfg o state call).2.Fresh n k := by
  have hheap (heap : ToolCall) : ({ b with heap := b.heap ++ [heap] } : Breaker).Fresh n k :=
    ⟨by simpa using Nat.le_succ_of_le h.heap, h.state, h.queue, h.lane, h.inFlight⟩
  simp only [Breaker.record]
  split
  · rename_i finding hf
    have hfound (hkey : o.key = k) : finding.sample.Reaches n := by
      split at hf
      · rename_i hpending
        obtain rfl := Option.some.inj hf
        exact (hstate hkey).pending _ hpending
      · exact reaches_judge h hf
    refine ⟨(hheap _).put _ _ fun hkey => ⟨?_, by simp⟩, hfound⟩
    intro finding' hfinding
    obtain rfl := Option.some.inj (hf.symm.trans hfinding)
    exact hfound hkey
  · rename_i hf
    have hput := (hheap { call with sequence := state.observed + 1 }).put o.key
      ⟨pushLast cfg.policy.historyLimit.toNat state.calls b.heap.length,
        state.observed + 1, none, none⟩ fun _ => ⟨by simp, by simp⟩
    split_ifs
    · exact ⟨by rw [hf]; exact hput, fun _ => reaches_now h _⟩
    · exact ⟨by rw [hf]; exact hput, trivial⟩

theorem Fresh.observe {o : Observation} (h : b.Fresh n k) :
    (b.observe cfg o).1.Fresh n k ∧ (b.observe cfg o).2.Fresh n k := by
  simp only [Breaker.observe]
  split_ifs
  · exact ⟨h, trivial⟩
  · have htouch := h.touch cfg o.key
    split
    · exact ⟨h, trivial⟩
    · split
      · rename_i heq
        rw [heq] at htouch
        exact ⟨htouch, trivial⟩
      · rename_i table state heq
        rw [heq] at htouch
        have hstate (hkey : o.key = k) : state.Fresh n := by
          rcases touch_ok heq with hfound | rfl
          · exact h.state state (hkey ▸ hfound)
          · exact Trajectory.fresh_new n
        split
        · rename_i hverdict
          exact ⟨htouch, fun hkey => (hstate hkey).verdict _ hverdict⟩
        · exact htouch.record hstate

theorem Fresh.check {scopeId : Text} {trajectory : Option Text} (h : b.Fresh n k) :
    (b.check scopeId trajectory).1.Fresh n k ∧ (b.check scopeId trajectory).2.Fresh n k := by
  simp only [Breaker.check]
  split
  · exact ⟨h, trivial⟩
  · rename_i state hfound
    have hstate (hkey : trajectory.getD scopeId = k) : state.Fresh n :=
      h.state state (hkey ▸ hfound)
    split
    · rename_i hverdict
      exact ⟨h, fun hkey => (hstate hkey).verdict _ hverdict⟩
    · rename_i finding _ hpending
      refine ⟨h.put _ _ fun hkey => ⟨?_, by simp⟩, fun hkey => (hstate hkey).pending _ hpending⟩
      intro found hfound
      obtain rfl := Option.some.inj hfound
      exact (hstate hkey).pending _ hpending
    · exact ⟨h, trivial⟩

theorem Fresh.attach {digest : Finset Text} (h : b.Fresh n k) : (b.attach key digest).Fresh n k := by
  unfold Breaker.attach
  split
  · split
    · exact ⟨by simpa using h.heap, h.state, h.queue, h.lane, h.inFlight⟩
    · exact h
  · exact h

theorem Fresh.reset (h : b.Fresh n k) : (b.reset key).Fresh n k where
  heap := h.heap
  state := by
    intro state hstate
    simp only [Breaker.reset, Dict.get?_erase] at hstate
    split_ifs at hstate
    exact h.state state hstate
  queue := h.queue
  lane := h.lane
  inFlight := h.inFlight

theorem Fresh.enqueue {item : Item} (h : b.Fresh n k)
    (hitem : item.trajectory = k → item.sample.Reaches n) : (b.enqueue cfg item).Fresh n k := by
  unfold Breaker.enqueue
  split_ifs
  · exact h
  · refine ⟨h.heap, h.state, fun other hother => ?_, h.lane, h.inFlight⟩
    rcases List.mem_append.mp hother with hother | hother
    · exact h.queue other hother
    · obtain rfl := List.mem_singleton.mp hother
      exact hitem

theorem Fresh.resume {place : ℕ} {trip : Trip} (h : b.Fresh n k) :
    (b.resume cfg place trip).1.Fresh n k ∧ (b.resume cfg place trip).2.Fresh n k := by
  unfold Breaker.resume
  split
  · exact ⟨h, trivial⟩
  · rename_i pending hpending
    have hfresh := h.inFlight pending (List.mem_of_getElem? hpending)
    have hleft : ({ b with inFlight := b.inFlight.eraseIdx place } : Breaker).Fresh n k :=
      ⟨h.heap, h.state, h.queue, h.lane, fun other hother =>
        h.inFlight other (List.mem_of_mem_eraseIdx hother)⟩
    cases pending with
    | enqueue item => exact ⟨hleft.enqueue hfresh, trivial⟩
    | halt scopeId trajectory finding =>
      refine ⟨hleft, ?_⟩
      cases trip with
      | failed => trivial
      | done => exact hfresh
      | unknownScope => exact hfresh
    | attach trajectory digest => exact ⟨hleft.attach, trivial⟩

theorem Fresh.take (h : b.Fresh n k) : b.take.Fresh n k := by
  unfold Breaker.take
  split
  · rename_i item rest hlane hqueue
    have hmem := h.queue
    rw [hqueue] at hmem
    exact ⟨h.heap, h.state, fun other hother => hmem other (List.mem_cons_of_mem _ hother),
      hmem item List.mem_cons_self, h.inFlight⟩
  · exact h

theorem Fresh.evaluate {answer : Except PUnit (Option Verdict)} (h : b.Fresh n k) :
    (b.evaluate answer).Fresh n k := by
  unfold Breaker.evaluate
  have hlane := h.lane
  split
  · rename_i item verdict hb
    rw [hb] at hlane
    refine ⟨h.heap, h.state, h.queue, ?_, h.inFlight⟩
    cases verdict with
    | none => trivial
    | some verdict => exact hlane
  · exact ⟨h.heap, h.state, h.queue, trivial, h.inFlight⟩
  · exact h

theorem Fresh.publish (h : b.Fresh n k) : b.publish.Fresh n k := by
  simp only [Breaker.publish]
  split
  · rename_i item verdict hb
    have hlane := h.lane
    rw [hb] at hlane
    have hidle : ({ b with lane := .idle } : Breaker).Fresh n k :=
      ⟨h.heap, h.state, h.queue, trivial, h.inFlight⟩
    split
    · rename_i verdict' state hstate
      split_ifs with hopen
      · refine hidle.put _ _ fun hkey => ⟨fun found hfound => ?_, fun found hfound => ?_⟩
        · simp [hopen.1] at hfound
        · obtain rfl := Option.some.inj hfound
          exact hlane hkey
      · exact hidle
    · exact hidle
  · exact h

theorem Fresh.handle (cfg : Config) (e : Event) (h : b.Fresh n k) :
    (b.handle cfg e).1.Fresh n k ∧ (b.handle cfg e).2.Fresh n k := by
  cases e with
  | observe o => exact h.observe
  | check scopeId trajectory => exact h.check
  | recordResult scopeId payload trajectory => exact ⟨h, trivial⟩
  | reset trajectory => exact ⟨h.reset, trivial⟩
  | resume place trip => exact h.resume
  | take => exact ⟨h.take, trivial⟩
  | evaluate answer => exact ⟨h.evaluate, trivial⟩
  | publish => exact ⟨h.publish, trivial⟩

/-- What is held of a trajectory goes on resting on calls from the `n`th on. -/
theorem fresh_step {e : Event} (h : b.Fresh n k) : (b.step cfg e).Fresh n k := by
  obtain ⟨hb, houtcome⟩ := h.handle cfg e
  unfold Breaker.step Breaker.launch
  split
  · rename_i pending heq
    rw [heq] at houtcome
    refine ⟨hb.heap, hb.state, hb.queue, hb.lane, fun other hother => ?_⟩
    rcases List.mem_append.mp hother with hother | hother
    · exact hb.inFlight other hother
    · obtain rfl := List.mem_singleton.mp hother
      exact houtcome
  · exact hb

/-- Over a run, every verdict on the trajectory rests on a call from the `n`th on. -/
theorem fresh_moments {es : List Event} {m : Moment} (h : b.Fresh n k)
    (hm : m ∈ b.moments cfg es) : m.outcome.Fresh n k := by
  induction es generalizing b with
  | nil => simp [moments] at hm
  | cons e es ih =>
    rcases List.mem_cons.mp hm with rfl | hm
    · exact (h.handle cfg e).2
    · exact ih (fresh_step h) hm

/-- A trajectory at rest is fresh once it is reset. -/
theorem AtRest.fresh (h : b.AtRest k) : (b.step cfg (.reset k)).Fresh b.heap.length k where
  heap := le_rfl
  state := by
    intro state hstate
    simp [step, handle, launch, Breaker.reset] at hstate
  queue := fun item hitem hkey => absurd hkey (h.queue item hitem)
  lane := by
    show b.lane.Fresh _ k
    have hlane := h.lane
    cases hb : b.lane with
    | idle => trivial
    | taken item => exact fun hkey => absurd hkey (by simpa [hb, Lane.Concerns] using hlane)
    | evaluated item verdict =>
      cases verdict with
      | none => trivial
      | some verdict =>
        exact fun hkey => absurd hkey (by simpa [hb, Lane.Concerns] using hlane)
  inFlight := by
    intro pending hpending
    have hrest := h.inFlight pending hpending
    cases pending with
    | enqueue item => exact fun hkey => absurd hkey hrest
    | halt scopeId trajectory finding => exact fun hkey => absurd hkey hrest
    | attach trajectory digest => trivial

end Breaker

/-- A reset of a trajectory at rest is a clean slate, whatever comes after. -/
theorem reset_cleans (cfg : Config) (before : List Event) (k : Text) (after : List Event)
    (h : (Breaker.new.run cfg before).AtRest k) : CleanSlate cfg before k after := by
  intro m hm scopeId finding houtcome
  have hfresh := Breaker.fresh_moments h.fresh hm
  rw [houtcome] at hfresh
  exact hfresh rfl

/-- A trajectory is judged to be fine, and is then reset and halted for a loop. -/
theorem reset_cleans_sampleLoop :
    CleanSlate (sampleConfig 2)
      [search "a" "x", .resume 0 .done, .take, .evaluate (.ok none), .publish] (txt "a")
      [search "a" "y", search "a" "y", .resume 1 .done] :=
  reset_cleans (sampleConfig 2) _ _ _ (by decide +kernel)

/-- What a semantic observer finds. -/
def stagnation : Verdict where
  detector := txt "trajectory_entropy"
  reason := txt "semantic stagnation"
  observations := 1
  tier := .semantic
  evidence := []

/-- The worker has taken the window of a call when its trajectory is reset. Its verdict waits for
the second call after the reset, and halts it. -/
theorem staleWindow_not_clean :
    ¬CleanSlate (sampleConfig 2) [search "a" "x", .resume 0 .done, .take] (txt "a")
      [search "a" "y", .evaluate (.ok (some stagnation)), .publish, search "a" "z",
        .resume 1 .done] := by
  intro h
  obtain ⟨place, hmem, hle⟩ := h _ (List.getElem_mem (n := 4) (by decide)) (txt "scope")
    ⟨stagnation, ⟨0, [0]⟩⟩ rfl
  have hzero : place = 0 := by simpa using hmem
  subst hzero
  exact absurd hle (by decide +kernel)

end AgentGov.Cognitive
