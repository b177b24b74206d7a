import AgentGov.Cognitive.Patterns
import AgentGov.Cognitive.Latch
import Mathlib.Algebra.Order.BigOperators.Group.List
import Mathlib.Data.Nat.ModEq

/-!
# Whether every loop is caught

The breaker hands its detectors the last calls of the history only, as many as the comparison
window holds, whichever detector reads them. A loop is caught where the window holds all of it but
the call that ends it; a policy may name loops longer than that, as the default policy does.

## Main definitions

* `AgentGov.Cognitive.Policy.CatchesLoops`: every loop is halted, and nothing else by the two
  detectors that look for one.
* `AgentGov.Cognitive.Policy.Covers`: the window reaches over every loop the policy names.

## Main results

* `AgentGov.Cognitive.observe_spec`: a call is halted where a detector fires on what it sees.
* `AgentGov.Cognitive.catchesLoops_iff`: every loop is caught exactly where the window covers.
* `AgentGov.Cognitive.laps_of_four_missed`: the default policy misses a cycle of four calls.
-/

open Foundation

namespace AgentGov.Cognitive

/-! ### What is claimed of a policy -/

/-- Whether a call goes on to be halted. -/
def Outcome.Halts : Outcome → Prop
  | .goesOn (.halt _ _ _) => True
  | _ => False

instance : (outcome : Outcome) → Decidable outcome.Halts
  | .goesOn (.halt _ _ _) => inferInstanceAs (Decidable True)
  | .goesOn (.enqueue _) | .goesOn (.attach _ _) | .returned | .agentThrashing _ _ _ | .raised _ =>
    inferInstanceAs (Decidable False)

/-- What tells the call of an observation from others: the digest of its tool and of its redacted
arguments. -/
def Config.identity (cfg : Config) (o : Observation) : Except Failure Text :=
  cfg.digest (o.tool ++ unitSeparator ++ cfg.redact o.tool o.arguments)

/-- Whether the inline detectors are the built-in ones. -/
def Config.Builtin (cfg : Config) : Prop := ∃ repr maxStreak stagnant describe,
  cfg.detectors = defaultDetectors repr (nearDuplicate maxStreak stagnant describe) cfg.policy

/-- Whether a call is on a trajectory, by a tool that is not exempt. -/
def Observation.On (cfg : Config) (key : Text) (o : Observation) : Prop :=
  o.key = key ∧ o.tool ∉ cfg.policy.exemptTools

/-- Whether a loop the policy names ends the calls. -/
def Policy.EndsLoop (policy : Policy) (fs : List Text) : Prop :=
  EndsRepeat policy.maxIdenticalRepeats fs ∨
    EndsCycle policy.maxCyclePeriod policy.minCycleRepeats fs

/-- In every sequence of calls on one trajectory, a call that ends a loop is halted where none
was before; and one that a detector of loops halts ends a loop of its kind. -/
def Policy.CatchesLoops (policy : Policy) : Prop :=
  ∀ cfg : Config, cfg.policy = policy → cfg.Builtin →
    ∀ (key : Text) (os : List Observation) (o : Observation) (fs : List Text),
      (∀ x ∈ os ++ [o], x.On cfg key) → (os ++ [o]).map cfg.identity = fs.map Except.ok →
      (∀ m ∈ Breaker.new.moments cfg (os.map .observe), ¬m.outcome.Halts) →
      (policy.EndsLoop fs →
        ((Breaker.new.run cfg (os.map .observe)).observe cfg o).2.Halts) ∧
      ∀ scopeId k finding,
        ((Breaker.new.run cfg (os.map .observe)).observe cfg o).2 =
          .goesOn (.halt scopeId k finding) →
        (finding.verdict.detector = txt "exact_repeat" →
          EndsRepeat policy.maxIdenticalRepeats fs) ∧
        (finding.verdict.detector = txt "call_cycle" →
          EndsCycle policy.maxCyclePeriod policy.minCycleRepeats fs)

/-- The most calls before its last that a loop the policy names takes. -/
def Policy.needed (policy : Policy) : ℤ :=
  max (policy.maxIdenticalRepeats - 1)
    (if 2 ≤ policy.maxCyclePeriod ∧ 2 ≤ policy.minCycleRepeats then
      policy.maxCyclePeriod * policy.minCycleRepeats - 1
    else 0)

/-- Where a first call is a loop, calls are recorded; else, where a loop is named, the trajectory
is remembered and the comparison window holds all of a loop but its last call. A window of no
calls is the whole history. -/
def Policy.Covers (policy : Policy) : Prop :=
  (policy.maxIdenticalRepeats = 1 → 0 ≤ policy.maxTrajectories) ∧
  (policy.maxIdenticalRepeats ≠ 1 → 1 ≤ policy.needed → 1 ≤ policy.maxTrajectories ∧
    (policy.comparisonWindow = 0 ∨ policy.needed ≤ policy.comparisonWindow))

instance (policy : Policy) : Decidable policy.Covers := inferInstanceAs (Decidable (_ ∧ _))

/-! ### What the detectors see -/

section

variable (cfg : Config)

/-- How many of the calls recorded the trajectory no longer holds. -/
def Config.forgotten (n : ℕ) : ℕ :=
  if 1 ≤ cfg.policy.maxTrajectories then n - cfg.policy.historyLimit.toNat else n

/-- What the detectors are handed of the calls recorded. -/
def Config.visible {α : Type*} (l : List α) : List α :=
  sliceFrom (l.drop (cfg.forgotten l.length)) (-cfg.policy.comparisonWindow)

theorem visible_suffix {α : Type*} (l : List α) : cfg.visible l <:+ l :=
  (List.drop_suffix _ _).trans (List.drop_suffix _ _)

theorem length_visible {α : Type*} (l : List α) : (cfg.visible l).length =
    l.length - cfg.forgotten l.length -
      sliceIndex (l.length - cfg.forgotten l.length) (-cfg.policy.comparisonWindow) := by
  rw [Config.visible, sliceFrom, List.length_drop, List.length_drop]

/-- Enough calls are seen where the history and the window hold as many. -/
theorem le_length_visible {α : Type*} {l : List α} {t : ℤ}
    (hroom : 1 ≤ cfg.policy.maxTrajectories) (hl : t ≤ l.length)
    (hlimit : t ≤ cfg.policy.historyLimit)
    (hwindow : cfg.policy.comparisonWindow = 0 ∨ t ≤ cfg.policy.comparisonWindow) :
    t ≤ (cfg.visible l).length := by
  rw [length_visible, Config.forgotten, if_pos hroom, sliceIndex]
  split_ifs <;> omega

/-- Too few calls are seen where the window is shorter. -/
theorem length_visible_lt {α : Type*} {l : List α} {t : ℤ} (hpos : 1 ≤ t) (hl : l.length ≤ t)
    (hblind : cfg.policy.maxTrajectories < 1 ∨
      cfg.policy.comparisonWindow ≠ 0 ∧ cfg.policy.comparisonWindow < t) :
    (cfg.visible l).length < t := by
  rw [length_visible, Config.forgotten, sliceIndex]
  split_ifs <;> omega

/-- The calls at the places seen are those seen of the calls. -/
theorem filterMap_visible {α : Type*} (l : List α) :
    (cfg.visible (List.range l.length)).filterMap (l[·]?) = cfg.visible l := by
  have hdrop : ∀ j, ((List.range l.length).drop j).filterMap (l[·]?) = l.drop j := by
    intro j
    rw [List.range_eq_range', List.drop_range', Nat.zero_add, Nat.mul_one]
    induction hn : l.length - j generalizing j with
    | zero => rw [List.range'_zero, List.filterMap_nil, List.drop_eq_nil_of_le (by omega)]
    | succ n ih =>
      rw [List.range'_succ, List.filterMap_cons, List.getElem?_eq_getElem (by omega),
        List.drop_eq_getElem_cons (by omega)]
      simp only [ih (j + 1) (by omega)]
  rw [Config.visible, Config.visible, sliceFrom, sliceFrom, List.drop_drop, List.drop_drop,
    hdrop, List.length_drop, List.length_drop, List.length_range]

theorem map_visible {α β : Type*} (f : α → β) (l : List α) :
    (cfg.visible l).map f = cfg.visible (l.map f) := by
  rw [Config.visible, Config.visible, sliceFrom, sliceFrom, List.map_drop, List.map_drop,
    List.length_drop, List.length_drop, List.length_map]

end

/-! ### One call -/

theorem get?_popOver_of_nonpos {α : Type*} (d : Dict Text α) {limit : ℤ} (h : limit < 1)
    (k : Text) : (d.popOver limit).get? k = none := by
  have hempty : ∀ l : List (Text × α), (Dict.splitOver limit l).2 = [] := by
    intro l
    induction l with
    | nil => rfl
    | cons p l ih =>
      rw [Dict.splitOver, if_pos (by omega)]
      exact ih
  rw [Dict.get?_eq_none_iff]
  intro hk
  obtain ⟨p, hp, -⟩ := List.mem_map.mp hk
  simp [Dict.popOver, hempty] at hp

variable {cfg : Config} {b : Breaker} {key f : Text} {fs : List Text} {o : Observation}

theorem heap_launch (b : Breaker) (outcome : Outcome) : (b.launch outcome).heap = b.heap := by
  cases outcome <;> rfl

theorem heap_put (b : Breaker) (key : Text) (state : Trajectory) :
    (b.put key state).heap = b.heap := by
  rw [Breaker.put]
  split_ifs <;> rfl

/-- What the breaker holds of a trajectory on which calls of these fingerprints were recorded and
none was halted. -/
structure Kept (cfg : Config) (key : Text) (fs : List Text) (b : Breaker) : Prop where
  heap : b.heap.map ToolCall.fingerprint = fs
  state : ∃ observed, (b.trajectories.get? key).getD Trajectory.new =
    ⟨(List.range fs.length).drop (cfg.forgotten fs.length), observed, none, none⟩
  gone : cfg.policy.maxTrajectories < 1 → b.trajectories.get? key = none

theorem kept_new (cfg : Config) (key : Text) : Kept cfg key [] Breaker.new :=
  ⟨rfl, ⟨0, by simp [Breaker.new, Trajectory.new]⟩, fun _ => rfl⟩

theorem Kept.length_heap (h : Kept cfg key fs b) : b.heap.length = fs.length := by
  rw [← h.heap, List.length_map]

/-- What `_touch` hands out, where it does not raise. -/
theorem touch_getD {table : Dict Text Trajectory} (hlimit : 0 ≤ cfg.policy.historyLimit)
    (hroom : 0 ≤ cfg.policy.maxTrajectories)
    (hgone : cfg.policy.maxTrajectories < 1 → table.get? key = none) :
    ∃ t, cfg.touch table key = (t, .ok ((table.get? key).getD Trajectory.new)) ∧
      (1 ≤ cfg.policy.maxTrajectories →
        t.get? key = some ((table.get? key).getD Trajectory.new)) ∧
      (cfg.policy.maxTrajectories < 1 → t.get? key = none) := by
  cases hkey : table.get? key with
  | some state =>
    refine ⟨table.moveToEnd key, Breaker.touch_of_get? hkey, fun _ => ?_, fun h => ?_⟩
    · rw [Dict.get?_moveToEnd, hkey, Option.getD_some]
    · rw [hgone h] at hkey
      simp at hkey
  | none =>
    refine ⟨_, ?_, fun h => Dict.get?_popOver_set h hkey _, fun h => get?_popOver_of_nonpos _ h _⟩
    rw [Config.touch, hkey]
    simp only [if_neg (show ¬cfg.policy.historyLimit < 0 by omega),
      if_neg (show ¬cfg.policy.maxTrajectories < 0 by omega)]
    rfl

/-- Where `_touch` raises, a call on a trajectory that is not there raises. -/
theorem observe_of_touch_error (hon : o.On cfg key) (hid : cfg.identity o = .ok f)
    (hgone : b.trajectories.get? key = none)
    (hbad : cfg.policy.historyLimit < 0 ∨ cfg.policy.maxTrajectories < 0) :
    ¬(b.observe cfg o).2.Halts ∧ (b.step cfg (.observe o)).trajectories.get? key = none := by
  obtain ⟨rfl, htool⟩ := hon
  obtain ⟨t, failure, htouch, ht⟩ : ∃ t failure, cfg.touch b.trajectories o.key =
      (t, .error failure) ∧ t.get? o.key = none := by
    simp only [Config.touch, hgone]
    by_cases hlimit : cfg.policy.historyLimit < 0
    · exact ⟨_, _, if_pos hlimit, hgone⟩
    · have hroom := hbad.resolve_left hlimit
      exact ⟨(b.trajectories.set o.key Trajectory.new).popOver cfg.policy.maxTrajectories,
        .dictionaryIsEmpty, by rw [if_neg hlimit, if_pos hroom],
        get?_popOver_of_nonpos _ (hroom.trans one_pos) _⟩
  have hobserve : b.observe cfg o = ({ b with trajectories := t }, .raised failure) := by
    rw [Config.identity] at hid
    simp only [Breaker.observe, if_neg htool, hid, htouch]
  refine ⟨by rw [hobserve]; exact id, ?_⟩
  rw [Breaker.step, Breaker.handle, hobserve]
  exact ht

/-- The places of one more call. -/
theorem pushLast_range {limit n fg : ℕ} (hfg : fg = n - limit) :
    pushLast limit ((List.range n).drop fg) n = (List.range (n + 1)).drop (n + 1 - limit) := by
  rw [pushLast, List.length_drop, List.length_range, List.range_succ,
    ← List.drop_append_of_le_length (by rw [List.length_range]; omega), List.drop_drop]
  congr 1
  omega

/-- A call recorded and not halted. -/
theorem Kept.recorded (h : Kept cfg key fs b) {b' : Breaker} (call : ToolCall) (observed : ℕ)
    (hcall : call.fingerprint = f) (hheap : b'.heap = b.heap ++ [call])
    (hkept : 1 ≤ cfg.policy.maxTrajectories → b'.trajectories.get? key =
      some ⟨pushLast cfg.policy.historyLimit.toNat
        ((List.range fs.length).drop (cfg.forgotten fs.length)) fs.length, observed, none, none⟩)
    (hgone : cfg.policy.maxTrajectories < 1 → b'.trajectories.get? key = none) :
    Kept cfg key (fs ++ [f]) b' where
  heap := by rw [hheap, List.map_append, h.heap, List.map_singleton, hcall]
  state := by
    rw [List.length_append, List.length_singleton]
    by_cases hroom : 1 ≤ cfg.policy.maxTrajectories
    · refine ⟨observed, ?_⟩
      rw [hkept hroom, Option.getD_some, Config.forgotten, Config.forgotten, if_pos hroom,
        if_pos hroom, pushLast_range rfl]
    · refine ⟨0, ?_⟩
      rw [hgone (by omega), Config.forgotten, if_neg hroom,
        List.drop_eq_nil_of_le (by rw [List.length_range])]
      rfl
  gone := hgone

/-- A call is halted where a detector fires on what it sees of the calls before; else it is
recorded. -/
theorem observe_spec (h : Kept cfg key fs b) (hlimit : 0 ≤ cfg.policy.historyLimit)
    (hroom : 0 ≤ cfg.policy.maxTrajectories) (hon : o.On cfg key)
    (hid : cfg.identity o = .ok f) : ∃ call : ToolCall, call.fingerprint = f ∧
      ((∃ v s, Config.firstVerdict call (cfg.visible b.heap) cfg.detectors = some v ∧
          (b.observe cfg o).2 = .goesOn (.halt o.scopeId o.key ⟨v, s⟩)) ∨
        (Config.firstVerdict call (cfg.visible b.heap) cfg.detectors = none ∧
          ¬(b.observe cfg o).2.Halts ∧ Kept cfg key (fs ++ [f]) (b.step cfg (.observe o)))) := by
  obtain ⟨rfl, htool⟩ := hon
  obtain ⟨t, htouch, hkept, hgone⟩ := touch_getD hlimit hroom h.gone
  obtain ⟨observed, hstate⟩ := h.state
  rw [hstate] at htouch hkept
  set cs := (List.range fs.length).drop (cfg.forgotten fs.length) with hcs
  obtain ⟨call, hcall, hrecord⟩ : ∃ call : ToolCall, call.fingerprint = f ∧ b.observe cfg o =
      ({ b with trajectories := t } : Breaker).record cfg o ⟨cs, observed, none, none⟩ call := by
    rw [Config.identity] at hid
    refine ⟨cfg.toolCall o (cfg.redact o.tool o.arguments)
      (o.tool ++ unitSeparator ++ cfg.redact o.tool o.arguments) f, rfl, ?_⟩
    simp only [Breaker.observe, if_neg htool, hid, htouch]
  have hjudge : cfg.judge b.heap { call with sequence := observed + 1 } b.heap.length cs =
      (Config.firstVerdict { call with sequence := observed + 1 } (cfg.visible b.heap)
        cfg.detectors).map (⟨·, ⟨b.heap.length, sliceFrom cs (-cfg.policy.comparisonWindow)⟩⟩) := by
    have hwindow : sliceFrom cs (-cfg.policy.comparisonWindow) =
        cfg.visible (List.range b.heap.length) := by
      rw [hcs, Config.visible, List.length_range, h.length_heap]
    rw [Config.judge, hwindow, filterMap_visible]
  refine ⟨{ call with sequence := observed + 1 }, hcall, ?_⟩
  cases hfound : Config.firstVerdict { call with sequence := observed + 1 } (cfg.visible b.heap)
      cfg.detectors with
  | some v =>
    rw [hfound, Option.map_some] at hjudge
    refine Or.inl ⟨v, ⟨b.heap.length, sliceFrom cs (-cfg.policy.comparisonWindow)⟩, rfl, ?_⟩
    rw [hrecord, Breaker.record]
    simp only [hjudge]
  | none =>
    rw [hfound, Option.map_none] at hjudge
    have hafter : (b.observe cfg o).1 = ({ b with
          heap := b.heap ++ [{ call with sequence := observed + 1 }]
          trajectories := t } : Breaker).put o.key
        ⟨pushLast cfg.policy.historyLimit.toNat cs b.heap.length, observed + 1, none, none⟩ := by
      rw [hrecord, Breaker.record]
      simp only [hjudge]
      split_ifs <;> rfl
    refine Or.inr ⟨rfl, ?_, ?_⟩
    · rw [hrecord, Breaker.record]
      simp only [hjudge]
      split_ifs <;> exact id
    · have hstep : (b.step cfg (.observe o)).trajectories = (b.observe cfg o).1.trajectories := by
        rw [Breaker.step, Breaker.handle, Breaker.trajectories_launch]
      refine h.recorded { call with sequence := observed + 1 } (observed + 1) hcall ?_ (fun hroom => ?_) fun hroom => ?_
      · rw [Breaker.step, Breaker.handle, heap_launch, hafter, heap_put]
      · rw [hstep, hafter, Breaker.get?_put, if_pos, h.length_heap]
        simp [Dict.contains, hkept hroom]
      · rw [hstep, hafter, Breaker.get?_put, if_neg]
        · exact hgone hroom
        · simp [Dict.contains, hgone hroom]

/-! ### Runs -/

/-- Where nothing was halted, everything is kept; where `_touch` raises, nothing is. -/
theorem kept_run (hlimit : 0 ≤ cfg.policy.historyLimit) (hroom : 0 ≤ cfg.policy.maxTrajectories)
    {os : List Observation} (hon : ∀ x ∈ os, x.On cfg key)
    (hid : os.map cfg.identity = fs.map Except.ok)
    (hquiet : ∀ m ∈ Breaker.new.moments cfg (os.map .observe), ¬m.outcome.Halts) :
    Kept cfg key fs (Breaker.new.run cfg (os.map .observe)) := by
  induction os using List.reverseRecOn generalizing fs with
  | nil =>
    obtain rfl : fs = [] := by simpa using hid.symm
    exact kept_new cfg key
  | append_singleton os o ih =>
    obtain ⟨fs, f, rfl⟩ : ∃ gs f, fs = gs ++ [f] := by
      rcases List.eq_nil_or_concat fs with rfl | ⟨gs, f, rfl⟩
      · simp at hid
      · exact ⟨gs, f, List.concat_eq_append⟩
    simp only [List.map_append, List.map_singleton] at hid hquiet ⊢
    obtain ⟨hid, hlast⟩ := List.append_inj' hid rfl
    have hkept := ih (fun x hx => hon x (List.mem_append_left _ hx)) hid fun m hm =>
      hquiet m (by rw [Breaker.moments_append]; exact List.mem_append_left _ hm)
    have hnot : ¬((Breaker.new.run cfg (os.map .observe)).observe cfg o).2.Halts :=
      hquiet ⟨Breaker.new.run cfg (os.map .observe), .observe o, _⟩ (by
        rw [Breaker.moments_append]
        exact List.mem_append_right _ List.mem_cons_self)
    obtain ⟨call, -, ⟨v, s, -, hhalt⟩ | ⟨-, -, hnext⟩⟩ :=
      observe_spec hkept hlimit hroom (hon o (by simp)) (by simpa using hlast)
    · rw [hhalt] at hnot
      exact absurd trivial hnot
    · rw [Breaker.run_append]
      exact hnext

theorem gone_run (hbad : cfg.policy.historyLimit < 0 ∨ cfg.policy.maxTrajectories < 0)
    {os : List Observation} (hon : ∀ x ∈ os, x.On cfg key)
    (hid : os.map cfg.identity = fs.map Except.ok) :
    (Breaker.new.run cfg (os.map .observe)).trajectories.get? key = none := by
  induction os using List.reverseRecOn generalizing fs with
  | nil => rfl
  | append_singleton os o ih =>
    obtain ⟨fs, f, rfl⟩ : ∃ gs f, fs = gs ++ [f] := by
      rcases List.eq_nil_or_concat fs with rfl | ⟨gs, f, rfl⟩
      · simp at hid
      · exact ⟨gs, f, List.concat_eq_append⟩
    simp only [List.map_append, List.map_singleton] at hid ⊢
    obtain ⟨hid, hlast⟩ := List.append_inj' hid rfl
    rw [Breaker.run_append]
    exact (observe_of_touch_error (hon o (by simp)) (by simpa using hlast)
      (ih (fun x hx => hon x (List.mem_append_left _ hx)) hid) hbad).2

/-! ### What the built-in detectors find -/

theorem exists_of_firstVerdict {call : ToolCall} {window : List ToolCall}
    {detectors : List Detector} {v : Verdict}
    (h : Config.firstVerdict call window detectors = some v) :
    ∃ detector ∈ detectors, detector call window = .ok (some v) := by
  induction detectors with
  | nil => simp [Config.firstVerdict] at h
  | cons detector rest ih =>
    rw [Config.firstVerdict] at h
    match hd : detector call window with
    | .ok (some w) =>
      simp only [hd, Option.some.injEq] at h
      exact ⟨detector, List.mem_cons_self, h ▸ hd⟩
    | .ok none | .error _ =>
      simp only [hd] at h
      obtain ⟨d, hmem, hfound⟩ := ih h
      exact ⟨d, List.mem_cons_of_mem _ hmem, hfound⟩

theorem firstVerdict_isSome {call : ToolCall} {window : List ToolCall}
    {detectors : List Detector} {detector : Detector} (hmem : detector ∈ detectors)
    (h : ∃ v, detector call window = .ok (some v)) :
    ∃ v, Config.firstVerdict call window detectors = some v := by
  induction detectors with
  | nil => simp at hmem
  | cons d rest ih =>
    rw [Config.firstVerdict]
    match hd : d call window with
    | .ok (some w) => exact ⟨w, rfl⟩
    | .ok none | .error _ =>
      rcases List.mem_cons.mp hmem with rfl | hmem
      · obtain ⟨v, hv⟩ := h
        simp [hd] at hv
      · exact ih hmem

/-- A verdict of the built-in detectors, by the detector it names. -/
theorem Config.Builtin.endsLoop (h : cfg.Builtin) {call : ToolCall} {window : List ToolCall}
    {v : Verdict} (hv : Config.firstVerdict call window cfg.detectors = some v) :
    (v.detector = txt "exact_repeat" →
      EndsRepeat cfg.policy.maxIdenticalRepeats (seen call window)) ∧
    (v.detector = txt "call_cycle" →
      EndsCycle cfg.policy.maxCyclePeriod cfg.policy.minCycleRepeats (seen call window)) := by
  obtain ⟨repr, maxStreak, stagnant, describe, hdetectors⟩ := h
  rw [hdetectors] at hv
  obtain ⟨d, hmem, hd⟩ := exists_of_firstVerdict hv
  simp only [defaultDetectors, List.mem_cons, List.not_mem_nil, or_false] at hmem
  rcases hmem with rfl | rfl | rfl
  · rw [detector_exactRepeat hd]
    exact ⟨fun _ => exactRepeat_iff.mp ⟨v, hd⟩, fun hname => absurd hname (by decide)⟩
  · rw [detector_nearDuplicate hd]
    exact ⟨fun hname => absurd hname (by decide), fun hname => absurd hname (by decide)⟩
  · rw [detector_callCycle hd]
    exact ⟨fun hname => absurd hname (by decide), fun _ => callCycle_iff.mp ⟨v, hd⟩⟩

/-- A loop that is seen whole is found. -/
theorem Config.Builtin.found (h : cfg.Builtin) (call : ToolCall) (window : List ToolCall)
    (hloop : cfg.policy.EndsLoop (seen call window)) :
    ∃ v, Config.firstVerdict call window cfg.detectors = some v := by
  obtain ⟨repr, maxStreak, stagnant, describe, hdetectors⟩ := h
  rw [hdetectors]
  rcases hloop with hrepeat | hcycle
  · exact firstVerdict_isSome List.mem_cons_self (exactRepeat_iff.mpr hrepeat)
  · exact firstVerdict_isSome (List.mem_cons_of_mem _ (List.mem_cons_of_mem _ List.mem_cons_self))
      (callCycle_iff.mpr hcycle)

theorem seen_visible (h : Kept cfg key fs b) {call : ToolCall} (hcall : call.fingerprint = f) :
    seen call (cfg.visible b.heap) = cfg.visible fs ++ [f] := by
  rw [seen, map_visible, h.heap, hcall]

/-! ### A window that covers -/

/-- A policy whose window covers catches every loop. -/
theorem catchesLoops_of_covers {policy : Policy}
    (hrepeats : policy.maxIdenticalRepeats ≤ policy.historyLimit)
    (hcycles : policy.maxCyclePeriod * policy.minCycleRepeats ≤ policy.historyLimit)
    {cfg : Config} (hpolicy : cfg.policy = policy) (hbuiltin : cfg.Builtin) {key : Text}
    {os : List Observation} {o : Observation} {fs : List Text} {f : Text}
    (hon : ∀ x ∈ os ++ [o], x.On cfg key) (hid : os.map cfg.identity = fs.map Except.ok)
    (hlast : cfg.identity o = .ok f)
    (hquiet : ∀ m ∈ Breaker.new.moments cfg (os.map .observe), ¬m.outcome.Halts)
    (hcovers : policy.Covers) (hloop : policy.EndsLoop (fs ++ [f])) :
    ((Breaker.new.run cfg (os.map .observe)).observe cfg o).2.Halts := by
  subst hpolicy
  have honOs : ∀ x ∈ os, x.On cfg key := fun x hx => hon x (List.mem_append_left _ hx)
  -- a loop is no longer than the history
  have hlimit : 0 ≤ cfg.policy.historyLimit := by
    rcases hloop with ⟨hpos, -⟩ | ⟨htwo, block, hblock, hm, -⟩
    · omega
    · have : (0 : ℤ) ≤ cfg.policy.maxCyclePeriod * cfg.policy.minCycleRepeats :=
        mul_nonneg (by omega) (by omega)
      omega
  have hneeded : cfg.policy.maxIdenticalRepeats ≠ 1 → 1 ≤ cfg.policy.needed := by
    intro hne
    rw [Policy.needed, le_max_iff]
    rcases hloop with ⟨hpos, -⟩ | ⟨htwo, block, hblock, hm, -⟩
    · exact Or.inl (by omega)
    · refine Or.inr ?_
      have : (2 : ℤ) * 2 ≤ cfg.policy.maxCyclePeriod * cfg.policy.minCycleRepeats :=
        mul_le_mul (by omega) htwo (by norm_num) (by omega)
      rw [if_pos ⟨by omega, htwo⟩]
      omega
  have hroom : 0 ≤ cfg.policy.maxTrajectories := by
    by_cases hone : cfg.policy.maxIdenticalRepeats = 1
    · exact hcovers.1 hone
    · have := (hcovers.2 hone (hneeded hone)).1
      omega
  have hkept := kept_run hlimit hroom honOs hid hquiet
  obtain ⟨call, hcall, ⟨v, s, -, hhalt⟩ | ⟨hnone, -, -⟩⟩ :=
    observe_spec hkept hlimit hroom (hon o (by simp)) hlast
  · rw [hhalt]
    trivial
  · -- the loop is seen whole
    refine absurd (hbuiltin.found call
      (cfg.visible (Breaker.new.run cfg (os.map .observe)).heap) ?_) (by simp [hnone])
    rw [seen_visible hkept hcall]
    have hsuffix : cfg.visible fs ++ [f] <:+ fs ++ [f] :=
      (List.suffix_append_inj_of_length_eq rfl).mpr ⟨visible_suffix cfg fs, rfl⟩
    by_cases hone : cfg.policy.maxIdenticalRepeats = 1
    · exact Or.inl ⟨hone.ge, f, by rw [hone]; exact List.suffix_append _ _⟩
    obtain ⟨hroom, hwindow⟩ := hcovers.2 hone (hneeded hone)
    have hlen : ∀ t : ℤ, t - 1 ≤ cfg.policy.needed → t ≤ cfg.policy.historyLimit →
        min t (fs ++ [f]).length ≤ (cfg.visible fs ++ [f]).length := by
      intro t ht hthistory
      have := le_length_visible cfg (l := fs) (t := min t (fs.length + 1) - 1) hroom (by omega)
        (by omega) (hwindow.imp_right (by omega))
      rw [List.length_append, List.length_append, List.length_singleton]
      push_cast
      omega
    refine hloop.imp (fun h => h.of_suffix hsuffix (hlen _ (le_max_left _ _) hrepeats))
      fun h => h.of_suffix hsuffix (hlen _ ?_ hcycles)
    obtain ⟨htwo, block, hblock, hm, -⟩ := h
    rw [Policy.needed, if_pos ⟨by omega, htwo⟩]
    exact le_max_right _ _

/-- What one of the detectors of loops halts ends a loop of its kind. -/
theorem endsLoop_of_halt (hbuiltin : cfg.Builtin) {os : List Observation}
    (hon : ∀ x ∈ os ++ [o], x.On cfg key) (hid : os.map cfg.identity = fs.map Except.ok)
    (hlast : cfg.identity o = .ok f)
    (hquiet : ∀ m ∈ Breaker.new.moments cfg (os.map .observe), ¬m.outcome.Halts)
    {scopeId k : Text} {finding : Finding}
    (hhalt : ((Breaker.new.run cfg (os.map .observe)).observe cfg o).2 =
      .goesOn (.halt scopeId k finding)) :
    (finding.verdict.detector = txt "exact_repeat" →
      EndsRepeat cfg.policy.maxIdenticalRepeats (fs ++ [f])) ∧
    (finding.verdict.detector = txt "call_cycle" →
      EndsCycle cfg.policy.maxCyclePeriod cfg.policy.minCycleRepeats (fs ++ [f])) := by
  have honOs : ∀ x ∈ os, x.On cfg key := fun x hx => hon x (List.mem_append_left _ hx)
  by_cases hbad : cfg.policy.historyLimit < 0 ∨ cfg.policy.maxTrajectories < 0
  · have := (observe_of_touch_error (hon o (by simp)) hlast (gone_run hbad honOs hid) hbad).1
    rw [hhalt] at this
    exact absurd trivial this
  · have hkept := kept_run (by omega) (by omega) honOs hid hquiet
    obtain ⟨call, hcall, ⟨v, s, hv, hhalt'⟩ | ⟨-, hnot, -⟩⟩ :=
      observe_spec hkept (by omega) (by omega) (hon o (by simp)) hlast
    · rw [hhalt, Outcome.goesOn.injEq, Pending.halt.injEq] at hhalt'
      obtain ⟨-, -, rfl⟩ := hhalt'
      have hsuffix : seen call (cfg.visible (Breaker.new.run cfg (os.map .observe)).heap) <:+
          fs ++ [f] := by
        rw [seen_visible hkept hcall]
        exact (List.suffix_append_inj_of_length_eq rfl).mpr ⟨visible_suffix cfg fs, rfl⟩
      obtain ⟨hrepeat, hcycle⟩ := hbuiltin.endsLoop hv
      exact ⟨fun h => (hrepeat h).mono hsuffix, fun h => (hcycle h).mono hsuffix⟩
    · rw [hhalt] at hnot
      exact absurd trivial hnot

/-! ### A window that does not cover -/

/-- Calls in laps of `p` different ones. -/
def lapsOf {α : Type*} (g : ℕ → α) (p j : ℕ) : List α := (List.range j).map fun i => g (i % p)

section

variable {α : Type*} {g : ℕ → α} {p j : ℕ}

theorem lapsOf_succ (g : ℕ → α) (p j : ℕ) : lapsOf g p (j + 1) = lapsOf g p j ++ [g (j % p)] := by
  rw [lapsOf, List.range_succ, List.map_append, List.map_singleton, lapsOf]

theorem getElem?_lapsOf {i : ℕ} (hi : i < j) : (lapsOf g p j)[i]? = some (g (i % p)) := by
  rw [lapsOf, List.getElem?_map, List.getElem?_range hi, Option.map_some]

/-- Equal calls some way apart are whole laps apart. -/
theorem dvd_of_lapsOf (hg : g.Injective) {i d : ℕ} (hi : i + d < j)
    (h : (lapsOf g p j)[i]? = (lapsOf g p j)[i + d]?) : p ∣ d := by
  rw [getElem?_lapsOf hi, getElem?_lapsOf (by omega), Option.some.injEq] at h
  have hmod : Nat.ModEq p i (i + d) := hg h
  have := (Nat.modEq_iff_dvd' (Nat.le_add_right i d)).mp hmod
  rwa [Nat.add_sub_cancel_left] at this

/-- One call twice in a row takes laps of one. -/
theorem eq_one_of_endsRepeat (hg : g.Injective) {n : ℤ} (hn : 2 ≤ n)
    (h : EndsRepeat n (lapsOf g p j)) : p = 1 := by
  obtain ⟨-, a, pre, hpre⟩ := h
  have hlen := congrArg List.length hpre
  rw [List.length_append, List.length_replicate, lapsOf, List.length_map, List.length_range] at hlen
  apply Nat.dvd_one.mp
  refine dvd_of_lapsOf hg (i := pre.length) (d := 1) (j := j) (by omega) ?_
  rw [← hpre, List.getElem?_append_right le_rfl, List.getElem?_append_right (by omega),
    List.getElem?_replicate_of_lt (by omega), List.getElem?_replicate_of_lt (by omega)]

/-- A cycle takes laps of more than one, and as many of them as it repeats. -/
theorem laps_of_endsCycle (hg : g.Injective) {m k : ℤ} {s : List α} (hs : s <:+ lapsOf g p j)
    (h : EndsCycle m k s) : p ≠ 1 ∧ p * k ≤ s.length := by
  obtain ⟨hk, block, htwo, -, ⟨a, ha, b, hb, hab⟩, hsuffix⟩ := h
  have hlen := hsuffix.length_le
  rw [length_flatten_replicate] at hlen
  obtain ⟨pre, hpre⟩ := hsuffix.trans hs
  have hwhole := congrArg List.length hpre
  rw [List.length_append, length_flatten_replicate, lapsOf, List.length_map, List.length_range]
    at hwhole
  have htwice : 2 * block.length ≤ k.toNat * block.length := Nat.mul_le_mul_right _ (by omega)
  constructor
  · rintro rfl
    have hone : ∀ x ∈ block, x = g 0 := by
      intro x hx
      have hmem : x ∈ lapsOf g 1 j := by
        rw [← hpre]
        exact List.mem_append_right _ ((mem_flatten_replicate (by omega)).mpr hx)
      obtain ⟨i, -, rfl⟩ := List.mem_map.mp hmem
      rw [Nat.mod_one]
    exact hab ((hone a ha).trans (hone b hb).symm)
  · have hdvd : p ∣ block.length := by
      refine dvd_of_lapsOf hg (i := pre.length) (j := j) (by omega) ?_
      rw [← hpre, List.getElem?_append_right le_rfl, List.getElem?_append_right (by omega),
        getElem?_flatten_replicate, getElem?_flatten_replicate, if_pos (by omega),
        if_pos (by omega), Nat.sub_self, Nat.add_sub_cancel_left, Nat.mod_self, Nat.zero_mod]
    have hle : p * k.toNat ≤ s.length := by
      refine le_trans ?_ hlen
      rw [mul_comm]
      exact Nat.mul_le_mul_left _ (Nat.le_of_dvd (by omega) hdvd)
    have hcast : ((p * k.toNat : ℕ) : ℤ) = p * k := by
      rw [Nat.cast_mul, Int.toNat_of_nonneg (by omega)]
    omega

end

/-- A lap that makes the longest loop the policy names. -/
def Policy.LongestLap (policy : Policy) (p : ℕ) : Prop :=
  p = 1 ∧ policy.needed = policy.maxIdenticalRepeats - 1 ∨
    p = policy.maxCyclePeriod ∧ 2 ≤ policy.maxCyclePeriod ∧ 2 ≤ policy.minCycleRepeats ∧
      policy.needed = policy.maxCyclePeriod * policy.minCycleRepeats - 1

theorem exists_longestLap {policy : Policy} (h : 1 ≤ policy.needed) : ∃ p, policy.LongestLap p := by
  by_cases hcycle : 2 ≤ policy.maxCyclePeriod ∧ 2 ≤ policy.minCycleRepeats
  · have hneeded : policy.needed = max (policy.maxIdenticalRepeats - 1)
        (policy.maxCyclePeriod * policy.minCycleRepeats - 1) := by
      rw [Policy.needed, if_pos hcycle]
    rcases max_choice (policy.maxIdenticalRepeats - 1)
      (policy.maxCyclePeriod * policy.minCycleRepeats - 1) with hmax | hmax
    · exact ⟨1, Or.inl ⟨rfl, hneeded.trans hmax⟩⟩
    · exact ⟨policy.maxCyclePeriod.toNat, Or.inr ⟨Int.toNat_of_nonneg (by omega), hcycle.1,
        hcycle.2, hneeded.trans hmax⟩⟩
  · have hneeded : policy.needed = max (policy.maxIdenticalRepeats - 1) 0 := by
      rw [Policy.needed, if_neg hcycle]
    exact ⟨1, Or.inl ⟨rfl, by omega⟩⟩

/-- No loop ends a part of the longest laps that is shorter than them. -/
theorem not_endsLoop_of_longestLap {policy : Policy} {p j : ℕ} (hp : policy.LongestLap p)
    (hone : policy.maxIdenticalRepeats ≠ 1) {g : ℕ → Text} (hg : g.Injective) {s : List Text}
    (hs : s <:+ lapsOf g p j) (hlen : s.length ≤ policy.needed) : ¬policy.EndsLoop s := by
  rcases hp with ⟨rfl, hneeded⟩ | ⟨hp, htwo, hk, hneeded⟩
  · rintro (⟨hpos, a, ha⟩ | hcycle)
    · have := ha.length_le
      rw [List.length_replicate] at this
      omega
    · exact (laps_of_endsCycle hg hs hcycle).1 rfl
  · rintro (hrepeat | hcycle)
    · have := eq_one_of_endsRepeat hg (by have := hrepeat.1; omega) (hrepeat.mono hs)
      omega
    · have := (laps_of_endsCycle hg hs hcycle).2
      rw [hp] at this
      omega

/-- The longest laps end a loop. -/
theorem endsLoop_of_longestLap {policy : Policy} {p : ℕ} (hp : policy.LongestLap p)
    (hpos : 1 ≤ policy.needed) {g : ℕ → Text} (hg : g.Injective) :
    policy.EndsLoop (lapsOf g p (policy.needed.toNat + 1)) := by
  rcases hp with ⟨rfl, hneeded⟩ | ⟨hp, htwo, hk, hneeded⟩
  · refine Or.inl ⟨by omega, g 0, ?_⟩
    rw [show policy.maxIdenticalRepeats.toNat = policy.needed.toNat + 1 by omega]
    have hlaps : lapsOf g 1 (policy.needed.toNat + 1) =
        List.replicate (policy.needed.toNat + 1) (g 0) := by
      simp [lapsOf, Nat.mod_one]
    rw [hlaps]
  · have hlap : (lapsOf g p p).length = p := by
      rw [lapsOf, List.length_map, List.length_range]
    have hmem : ∀ i < p, g i ∈ lapsOf g p p := by
      intro i hi
      exact List.mem_map.mpr ⟨i, List.mem_range.mpr hi, by rw [Nat.mod_eq_of_lt hi]⟩
    have hlaps : (List.replicate policy.minCycleRepeats.toNat (lapsOf g p p)).flatten =
        lapsOf g p (policy.needed.toNat + 1) := by
      have hsize : policy.minCycleRepeats.toNat * p = policy.needed.toNat + 1 := by
        have hcast : ((policy.minCycleRepeats.toNat * p : ℕ) : ℤ) =
            policy.maxCyclePeriod * policy.minCycleRepeats := by
          rw [Nat.cast_mul, Int.toNat_of_nonneg (by omega), hp, mul_comm]
        omega
      refine List.ext_getElem? fun i => ?_
      rw [getElem?_flatten_replicate, hlap, hsize]
      split_ifs with hi
      · have hmod : i % p < p := Nat.mod_lt _ (by omega)
        rw [getElem?_lapsOf hmod, getElem?_lapsOf hi, Nat.mod_mod]
      · rw [List.getElem?_eq_none]
        rw [lapsOf, List.length_map, List.length_range]
        omega
    exact Or.inr ⟨hk, lapsOf g p p, by omega, by omega,
      ⟨g 0, hmem 0 (by omega), g 1, hmem 1 (by omega), fun h => absurd (hg h) (by omega)⟩,
      hlaps ▸ List.suffix_refl _⟩

/-! ### A policy that does not cover -/

/-- A breaker of the built-in detectors, the near-duplicate one switched off, with digests of the
bytes themselves. -/
def plainConfig (policy : Policy) : Config where
  policy := policy
  detectors := defaultDetectors id (nearDuplicate 0 (fun _ _ => false) fun _ => ([], [])) policy
  redactor := none
  blake2b := fun bytes => .ok (toHex bytes)
  semantic := false

/-- A tool with a longer name than any that is exempt. -/
def plainTool (policy : Policy) : Text :=
  List.replicate ((policy.exemptTools.map List.length).sum + 1) 97

/-- The `i`th call of a lap. -/
def lapCall (policy : Policy) (i : ℕ) : Observation where
  scopeId := txt "scope"
  tool := plainTool policy
  arguments := List.replicate i 97
  trajectory := none
  now := sampleNow

/-- Its fingerprint. -/
def lapPrint (policy : Policy) (i : ℕ) : Text :=
  toHex (Text.ascii (plainTool policy ++ unitSeparator ++ List.replicate i 97))

section

variable {policy : Policy}

theorem builtin_plainConfig (policy : Policy) : (plainConfig policy).Builtin := ⟨_, _, _, _, rfl⟩

theorem lapCall_on (policy : Policy) (i : ℕ) :
    (lapCall policy i).On (plainConfig policy) (txt "scope") := by
  refine ⟨rfl, fun hmem => ?_⟩
  have hle : (plainTool policy).length ≤ (policy.exemptTools.map List.length).sum :=
    List.le_sum_of_mem (List.mem_map_of_mem hmem)
  rw [plainTool, List.length_replicate] at hle
  omega

theorem identity_lapCall (policy : Policy) (i : ℕ) :
    (plainConfig policy).identity (lapCall policy i) = .ok (lapPrint policy i) := by
  have hascii : ∀ c ∈ plainTool policy ++ unitSeparator ++ List.replicate i (97 : CodePoint),
      Text.isAscii c = true := by
    intro c hc
    simp only [plainTool, unitSeparator, List.mem_append, List.mem_replicate, List.mem_singleton]
      at hc
    rcases hc with (⟨-, rfl⟩ | rfl) | ⟨-, rfl⟩ <;> decide
  rw [Config.identity, Config.digest]
  simp only [lapCall, plainConfig, Config.redact, Text.utf8_ofAscii hascii]
  rfl

theorem injective_lapPrint (policy : Policy) : (lapPrint policy).Injective := by
  intro i j h
  have hbytes := congrArg fromHex h
  rw [lapPrint, lapPrint, fromHex_toHex, fromHex_toHex, Option.some.injEq] at hbytes
  have hlen := congrArg List.length hbytes
  simpa [Text.ascii] using hlen

/-- What a plain breaker halts ends a loop of what it sees. -/
theorem endsLoop_plainConfig {call : ToolCall} {window : List ToolCall} {v : Verdict}
    (h : Config.firstVerdict call window (plainConfig policy).detectors = some v) :
    policy.EndsLoop (seen call window) := by
  obtain ⟨d, hmem, hd⟩ := exists_of_firstVerdict h
  simp only [plainConfig, defaultDetectors, List.mem_cons, List.not_mem_nil, or_false] at hmem
  rcases hmem with rfl | rfl | rfl
  · exact Or.inl (exactRepeat_iff.mp ⟨v, hd⟩)
  · simp [nearDuplicate] at hd
  · exact Or.inr (callCycle_iff.mp ⟨v, hd⟩)

/-- The calls of the first laps. -/
def lapCalls (policy : Policy) (p j : ℕ) : List Observation := lapsOf (lapCall policy) p j

theorem identity_lapCalls (policy : Policy) (p j : ℕ) :
    (lapCalls policy p j).map (plainConfig policy).identity =
      (lapsOf (lapPrint policy) p j).map Except.ok := by
  rw [lapCalls, lapsOf, lapsOf, List.map_map, List.map_map]
  exact List.map_congr_left fun i _ => identity_lapCall policy (i % p)

theorem lapCalls_on {p j : ℕ} : ∀ x ∈ lapCalls policy p j,
    x.On (plainConfig policy) (txt "scope") := by
  intro x hx
  obtain ⟨i, -, rfl⟩ := List.mem_map.mp hx
  exact lapCall_on policy (i % p)

theorem length_lapsOf {α : Type*} (g : ℕ → α) (p j : ℕ) : (lapsOf g p j).length = j := by
  rw [lapsOf, List.length_map, List.length_range]

/-- The breaker after the calls of the first laps. -/
def afterLaps (policy : Policy) (p j : ℕ) : Breaker :=
  Breaker.new.run (plainConfig policy) ((lapCalls policy p j).map .observe)

/-- Where less is seen than the longest loop takes, its next call is not halted. -/
theorem lap_not_halted {p : ℕ} (hp : policy.LongestLap p)
    (hone : policy.maxIdenticalRepeats ≠ 1) (hpos : 1 ≤ policy.needed)
    (hblind : policy.maxTrajectories < 1 ∨
      policy.comparisonWindow ≠ 0 ∧ policy.comparisonWindow < policy.needed)
    {j : ℕ} (hj : j ≤ policy.needed)
    (hquiet : ∀ m ∈ Breaker.new.moments (plainConfig policy)
      ((lapCalls policy p j).map .observe), ¬m.outcome.Halts) :
    ¬((afterLaps policy p j).observe (plainConfig policy) (lapCall policy (j % p))).2.Halts := by
  by_cases hbad : policy.historyLimit < 0 ∨ policy.maxTrajectories < 0
  · exact (observe_of_touch_error (lapCall_on policy _) (identity_lapCall policy _)
      (gone_run hbad lapCalls_on (identity_lapCalls policy p j)) hbad).1
  · have hkept := @kept_run (plainConfig policy) _ _ (by simp only [plainConfig]; omega)
      (by simp only [plainConfig]; omega) _ lapCalls_on (identity_lapCalls policy p j) hquiet
    obtain ⟨call, hcall, ⟨v, s, hv, -⟩ | ⟨-, hnot, -⟩⟩ := observe_spec hkept
      (by simp only [plainConfig]; omega) (by simp only [plainConfig]; omega)
      (lapCall_on policy (j % p)) (identity_lapCall policy (j % p))
    · refine absurd (endsLoop_plainConfig hv)
        (not_endsLoop_of_longestLap hp hone (injective_lapPrint policy) (j := j + 1) ?_ ?_)
      · rw [seen_visible hkept hcall, lapsOf_succ]
        exact (List.suffix_append_inj_of_length_eq rfl).mpr ⟨visible_suffix _ _, rfl⟩
      · rw [seen_visible hkept hcall, List.length_append, List.length_singleton]
        have hle := (visible_suffix (plainConfig policy) (lapsOf (lapPrint policy) p j)).length_le
        have hlt := length_visible_lt (plainConfig policy) (l := lapsOf (lapPrint policy) p j) hpos
          (by rw [length_lapsOf]; exact hj) hblind
        omega
    · exact hnot

theorem laps_quiet {p : ℕ} (hp : policy.LongestLap p) (hone : policy.maxIdenticalRepeats ≠ 1)
    (hpos : 1 ≤ policy.needed) (hblind : policy.maxTrajectories < 1 ∨
      policy.comparisonWindow ≠ 0 ∧ policy.comparisonWindow < policy.needed)
    {j : ℕ} (hj : j ≤ policy.needed) :
    ∀ m ∈ Breaker.new.moments (plainConfig policy) ((lapCalls policy p j).map .observe),
      ¬m.outcome.Halts := by
  induction j with
  | zero => simp [lapCalls, lapsOf, Breaker.moments]
  | succ j ih =>
    have hquiet := ih (by omega)
    rw [lapCalls, lapsOf_succ, List.map_append, List.map_singleton, Breaker.moments_append]
    intro m hm
    rcases List.mem_append.mp hm with hm | hm
    · exact hquiet m hm
    · rw [Breaker.moments, Breaker.moments, List.mem_singleton] at hm
      rw [hm]
      exact lap_not_halted hp hone hpos hblind (by omega) hquiet

/-- A policy that does not cover misses a loop. -/
theorem covers_of_catchesLoops (h : policy.CatchesLoops) : policy.Covers := by
  have hcatches : ∀ p j, (∀ m ∈ Breaker.new.moments (plainConfig policy)
      ((lapCalls policy p j).map .observe), ¬m.outcome.Halts) →
      policy.EndsLoop (lapsOf (lapPrint policy) p (j + 1)) →
      ((afterLaps policy p j).observe (plainConfig policy) (lapCall policy (j % p))).2.Halts := by
    intro p j hquiet hloop
    have hcalls : lapCalls policy p (j + 1) = lapCalls policy p j ++ [lapCall policy (j % p)] :=
      lapsOf_succ _ _ _
    refine (h (plainConfig policy) rfl (builtin_plainConfig policy) (txt "scope")
      (lapCalls policy p j) (lapCall policy (j % p)) (lapsOf (lapPrint policy) p (j + 1))
      ?_ ?_ hquiet).1 hloop
    · rw [← hcalls]
      exact lapCalls_on
    · rw [← hcalls]
      exact identity_lapCalls policy p (j + 1)
  constructor
  · intro hone
    by_contra hroom
    refine (observe_of_touch_error (b := Breaker.new) (lapCall_on policy 0)
      (identity_lapCall policy 0) rfl (Or.inr (not_le.mp hroom))).1 ?_
    exact hcatches 1 0 (by simp [lapCalls, lapsOf, Breaker.moments])
      (Or.inl ⟨hone.ge, lapPrint policy 0, by rw [hone]; exact List.suffix_refl _⟩)
  · intro hone hpos
    by_contra hnot
    have hblind : policy.maxTrajectories < 1 ∨
        policy.comparisonWindow ≠ 0 ∧ policy.comparisonWindow < policy.needed := by omega
    obtain ⟨p, hp⟩ := exists_longestLap hpos
    have hlast : (policy.needed.toNat : ℤ) ≤ policy.needed := by omega
    exact lap_not_halted hp hone hpos hblind hlast (laps_quiet hp hone hpos hblind hlast)
      (hcatches p policy.needed.toNat (laps_quiet hp hone hpos hblind hlast)
        (endsLoop_of_longestLap hp hpos (injective_lapPrint policy)))

end

/-- **Every loop is caught exactly where the window covers.** Of the policies whose history is as
long as their loops, those catch every loop whose comparison window reaches over all of one but
its last call. -/
theorem catchesLoops_iff {policy : Policy}
    (hrepeats : policy.maxIdenticalRepeats ≤ policy.historyLimit)
    (hcycles : policy.maxCyclePeriod * policy.minCycleRepeats ≤ policy.historyLimit) :
    policy.CatchesLoops ↔ policy.Covers := by
  refine ⟨covers_of_catchesLoops, fun hcovers cfg hpolicy hbuiltin key os o gs hon hid hquiet => ?_⟩
  obtain ⟨fs, f, rfl⟩ : ∃ fs f, gs = fs ++ [f] := by
    rcases List.eq_nil_or_concat gs with rfl | ⟨fs, f, rfl⟩
    · simp at hid
    · exact ⟨fs, f, List.concat_eq_append⟩
  simp only [List.map_append, List.map_singleton] at hid
  obtain ⟨hid, hlast⟩ := List.append_inj' hid rfl
  have hlast : cfg.identity o = .ok f := by simpa using hlast
  refine ⟨catchesLoops_of_covers hrepeats hcycles hpolicy hbuiltin hon hid hlast hquiet hcovers,
    fun scopeId k finding hhalt => ?_⟩
  subst hpolicy
  exact endsLoop_of_halt hbuiltin hon hid hlast hquiet hhalt

/-- The default policy, its window wide enough for its longest cycle. -/
def widePolicy : Policy where
  maxIdenticalRepeats := 3
  comparisonWindow := 11
  maxCyclePeriod := 4
  minCycleRepeats := 3
  historyLimit := 64
  maxTrajectories := 256
  shingleSize := 3
  maxArgumentChars := 1024
  exemptTools := []
  retainArguments := false
  asyncQueueSize := 256

theorem catchesLoops_widePolicy : widePolicy.CatchesLoops :=
  (catchesLoops_iff (by decide) (by decide)).mpr (by decide)

/-- The default policy. -/
def defaultPolicy : Policy := { widePolicy with comparisonWindow := 6 }

/-- Three laps of four calls are a loop that the default policy names; none of them is halted. -/
theorem laps_of_four_missed :
    defaultPolicy.EndsLoop (lapsOf (lapPrint defaultPolicy) 4 12) ∧
      (∀ m ∈ Breaker.new.moments (plainConfig defaultPolicy)
        ((lapCalls defaultPolicy 4 11).map .observe), ¬m.outcome.Halts) ∧
      ¬((afterLaps defaultPolicy 4 11).observe (plainConfig defaultPolicy)
        (lapCall defaultPolicy 3)).2.Halts := by
  have hlap : defaultPolicy.LongestLap 4 := Or.inr (by decide)
  have hquiet := laps_quiet hlap (by decide) (by decide) (Or.inr (by decide)) (j := 11) (by decide)
  exact ⟨endsLoop_of_longestLap hlap (by decide) (injective_lapPrint _), hquiet,
    lap_not_halted hlap (by decide) (by decide) (Or.inr (by decide)) (by decide) hquiet⟩

end AgentGov.Cognitive
