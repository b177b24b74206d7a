import AgentGov.Batons
import AgentGov.Foundation.Descents
import Mathlib.Data.Prod.Lex
import Mathlib.Data.List.Basic

/-!
# No caller waits for ever

Whoever waits is served by the caller that has the baton, which always has a step to take unless
somebody outside holds the governor's lock. That step brings every caller that waits nearer: the
queue before it gets shorter, or the unit of work under way gets nearer to its end and the lead to
being handed over. So a caller that queued its request returns, unless one caller, always the same,
is from some time on never scheduled or kept from the governor's lock.

## Main definitions

* `AgentGov.Handover.rank`: how long a caller is still to wait.
* `AgentGov.Handover.helper`: whose step brings it nearer.
* `AgentGov.Handover.Run`: an interleaving, step by step.
* `AgentGov.Handover.Orderly`: what is so of every state.

## Main results

* `AgentGov.Handover.rank_lt`, `AgentGov.Handover.rank_eq`: a step of the helper, and of others.
* `AgentGov.Handover.handover_loses_no_caller`: requests run once and in order, and nobody waits
  for ever.
-/

namespace AgentGov.Handover

variable {κ α ε : Type*}

/-! ### Who is waited for -/

/-- Whether a caller is blocked on its own lock. -/
def Blocked (s : State κ α ε) (c : κ) : Prop := s.phase c = .waiting ∧ s.wake c = false

/-- Whether a caller depends on the baton: it has it, or waits to be woken. -/
def Depends (s : State κ α ε) (b : Baton κ) (c : κ) : Prop := b.Has c ∨ Blocked s c

/-- The caller that has the baton. -/
def Baton.holder (c : κ) : Baton κ → κ
  | free => c
  | left d | held d _ => d

/-- How far the caller that leads is from handing over, its unit of work being one of at most
`batchLimit` requests; it is the less, once the unit has ended, the nearer is the next one. -/
def Stage.weight (settled : Bool) : Stage κ → ℕ
  | .locking => 3
  | .testing => if settled then 8 else 2
  | .starting => 1
  | .collecting [] => 0
  | .collecting batch => 600 + 3 * (batchLimit - batch.length)
  | .running batch todo => 601 + 3 * (batchLimit - batch.length) + todo.length
  | .committing batch => 10 + 2 * batch.length
  | .marking todo => 9 + 2 * todo.length
  | .waking _ todo => 10 + 2 * todo.length
  | .handing => 7
  | .releasing _ => 6

/-- How far a caller that does not depend on another is from its return. -/
def Phase.weight : Phase κ → ℕ
  | .waiting => 2
  | .woken | .leaving => 1
  | _ => 0

namespace Inv

variable {s s' : State κ α ε} {b b' : Baton κ} {c l : κ} {a : Actor κ}

/-- The baton is of one caller. -/
theorem unique (h : Inv s b) (h' : Inv s b') : b = b' := by
  match b, b' with
  | .held d st, _ => exact (h'.baton_of_leads h.fits.1).symm
  | _, .held d st => exact h.baton_of_leads h'.fits.1
  | .free, .free => rfl
  | .left d, .left e => rw [Option.some.inj (h.fits.1.symm.trans h'.fits.1)]
  | .free, .left d => exact absurd ((h'.leading.mpr (by simp))) (by simp [h.leading])
  | .left d, .free => exact absurd ((h.leading.mpr (by simp))) (by simp [h'.leading])

/-- Where a caller is blocked, there is somebody it waits for. -/
theorem ne_free_of_blocked (h : Inv s b) (hc : Blocked s c) : b ≠ .free := by
  rintro rfl
  have hquiet := h.quiet c id
  rw [hc.1] at hquiet
  match hs : s.settled c with
  | true =>
    rcases hquiet hs with hw | hw
    · rw [hc.2] at hw
      cases hw
    · cases hw
  | false =>
    have hin := h.mem_arrivals_of_phase (c := c) (by simp [hc.1])
    obtain ⟨hqueue, hcurrent⟩ := h.fits
    have := (h.settled c hin).mp hs
    simp [Baton.unmarked, hqueue, hcurrent] at this

theorem ne_free_of_depends (h : Inv s b) (hc : Depends s b c) : b ≠ .free := by
  rcases hc with hc | hc
  · rintro rfl
    exact hc
  · exact h.ne_free_of_blocked hc

/-- A caller that depends on nobody has its request settled. -/
theorem settled_of_not_depends (h : Inv s b) (hc : ¬Depends s b c) (hin : c ∈ s.arrivals) :
    s.settled c = true := by
  by_contra hs
  rw [Bool.not_eq_true] at hs
  rcases h.waiting_of_unsettled hin hs with hhas | hwaits
  · exact hc (Or.inl hhas)
  · refine hc (Or.inr ⟨hwaits, Bool.eq_false_iff.mpr fun hw => ?_⟩)
    obtain rfl := (h.asleep c hs hw).1
    exact hc (Or.inl rfl)

end Inv

variable [DecidableEq κ]

/-! ### Places in the queue -/

/-- The callers in a queue up to one, and that one. -/
def ahead (queue : List κ) (c : κ) : ℕ := if c ∈ queue then queue.idxOf c + 1 else 0

theorem ahead_append {queue : List κ} {c d : κ} (h : c ≠ d) :
    ahead (queue ++ [d]) c = ahead queue c := by
  by_cases hc : c ∈ queue
  · rw [ahead, ahead, if_pos hc, if_pos (List.mem_append_left _ hc), List.idxOf_append_of_mem hc]
  · rw [ahead, ahead, if_neg hc, if_neg]
    simp [hc, h]

/-- Those taken from a queue are no longer ahead. -/
theorem ahead_drop {queue : List κ} {c : κ} (hq : queue.Nodup) (n : ℕ) :
    ahead (queue.drop n) c = ahead queue c - n := by
  have hsplit := List.take_append_drop n queue
  by_cases hd : c ∈ queue.drop n
  · have hnot : c ∉ queue.take n := by
      rw [← hsplit, List.nodup_append] at hq
      exact fun ht => hq.2.2 c ht c hd rfl
    have hn : n ≤ queue.length := by
      by_contra hlt
      rw [List.drop_of_length_le (by omega)] at hd
      cases hd
    have hidx : queue.idxOf c = n + (queue.drop n).idxOf c := by
      conv_lhs => rw [← hsplit]
      rw [List.idxOf_append_of_notMem hnot, List.length_take, Nat.min_eq_left hn]
    rw [ahead, ahead, if_pos hd, if_pos (List.mem_of_mem_drop hd), hidx]
    omega
  · rw [ahead, if_neg hd]
    by_cases hc : c ∈ queue
    · have ht : c ∈ queue.take n := by
        rw [← hsplit, List.mem_append] at hc
        exact hc.resolve_right hd
      have hidx : queue.idxOf c = (queue.take n).idxOf c := by
        conv_lhs => rw [← hsplit]
        rw [List.idxOf_append_of_mem ht]
      have hlt := List.idxOf_lt_length_of_mem ht
      rw [List.length_take] at hlt
      rw [ahead, if_pos hc, hidx]
      omega
    · rw [ahead, if_neg hc, Nat.zero_sub]

/-! ### How long a caller waits -/

instance (b : Baton κ) (c : κ) : Decidable (b.Has c) :=
  match b with
  | .free => inferInstanceAs (Decidable False)
  | .left d | .held d _ => inferInstanceAs (Decidable (d = c))

instance (s : State κ α ε) (b : Baton κ) (c : κ) : Decidable (Depends s b c) :=
  inferInstanceAs (Decidable (_ ∨ _ ∧ _))

/-- Whose step brings a caller nearer to its return. -/
def helper (s : State κ α ε) (b : Baton κ) (c : κ) : κ := if Depends s b c then b.holder c else c

/-- How far the baton is from the next unit of work. -/
def Baton.weight (s : State κ α ε) : Baton κ → ℕ
  | free => 0
  | left c => if s.phase c = .waiting then 5 else 4
  | held c stage => stage.weight (s.settled c)

/-- How long a caller is still to wait. -/
def rank (s : State κ α ε) (b : Baton κ) (c : κ) : ℕ ×ₗ ℕ :=
  if Depends s b c then toLex (ahead s.queue c + 1, b.weight s)
  else toLex (0, (s.phase c).weight)

/-- Whether a caller has a step to take, or would if nobody outside held the governor's lock. -/
def Ready (s : State κ α ε) (c : κ) : Prop :=
  (∀ n, (s.turn c n).isSome) ∨ s.phase c = .leads .locking ∧ s.lock = some .outside


namespace Inv

variable {s s' : State κ α ε} {b b' : Baton κ} {c l : κ} {a : Actor κ} {stage : Stage κ}

/-- The caller that leads has a step to take. -/
theorem ready_of_held (h : Inv s (.held l stage)) : Ready s l := by
  have hp := h.fits.1
  match stage with
  | .locking =>
    match hlock : s.lock with
    | none => exact Or.inl fun n => by simp [State.turn, State.lead, hp, hlock]
    | some .outside => exact Or.inr ⟨hp, hlock⟩
    | some (.caller d) =>
      obtain ⟨st, hst, hlocked⟩ := (h.lock d).mp hlock
      cases hst
      cases hlocked
  | .testing => exact Or.inl fun n => by simp only [State.turn, hp, State.lead]; split_ifs <;> rfl
  | .starting | .committing _ =>
    exact Or.inl fun n => by cases n <;> simp [State.turn, hp, State.lead]
  | .collecting _ | .running _ [] | .marking [] | .marking (_ :: _) | .waking _ _ | .releasing _ =>
    exact Or.inl fun n => by simp [State.turn, hp, State.lead]
  | .running _ (_ :: _) => exact Or.inl fun n => by cases n <;> simp [State.turn, hp, State.lead]
  | .handing =>
    refine Or.inl fun n => ?_
    simp only [State.turn, hp, State.lead]
    cases s.queue.head? <;> rfl

/-- Whoever is to help a caller that has not returned has a step to take. -/
theorem ready_helper (h : Inv s b) (hin : c ∈ s.arrivals) (hc : s.phase c ≠ .returned) :
    Ready s (helper s b c) := by
  by_cases hdep : Depends s b c
  · rw [helper, if_pos hdep]
    cases b with
    | free => exact absurd rfl (h.ne_free_of_depends hdep)
    | left l =>
      refine Or.inl fun n => ?_
      rcases h.fits.2.2 with ⟨hp, hw⟩ | hp
      · simp [State.turn, Baton.holder, hp, hw]
      · simp [State.turn, Baton.holder, hp]
    | held l stage => exact h.ready_of_held
  · rw [helper, if_neg hdep]
    have hquiet := h.quiet c fun hhas => hdep (Or.inl hhas)
    refine Or.inl fun n => ?_
    cases hp : s.phase c with
    | absent => exact absurd hin ((h.absent c).mp hp)
    | returned => exact absurd hp hc
    | waiting =>
      have hw : s.wake c = true := by
        by_contra hw
        exact hdep (Or.inr ⟨hp, Bool.eq_false_iff.mpr hw⟩)
      simp [State.turn, hp, hw]
    | woken | leaving => simp [State.turn, hp]
    | leads _ =>
      rw [hp] at hquiet
      exact hquiet.elim

end Inv

/-! ### What a step leaves alone -/

/-- What a step of one caller leaves alone of the others: where they are; and what is settled or
awake stays so. -/
structure Frame (s s' : State κ α ε) (d : κ) : Prop where
  phase : ∀ c, c ≠ d → s'.phase c = s.phase c
  settled : ∀ c, s.settled c = true → s'.settled c = true
  awake : ∀ c, c ≠ d → s.wake c = true → s'.wake c = true
  arrivals : s'.arrivals = s.arrivals

theorem frame_put {s t : State κ α ε} {d : κ} {p : Phase κ} (hp : t.phase = s.phase)
    (hs : ∀ c, s.settled c = true → t.settled c = true)
    (hw : ∀ c, c ≠ d → s.wake c = true → t.wake c = true) (ha : t.arrivals = s.arrivals) :
    Frame s (t.put d p) d where
  phase c hc := by
    show Function.update t.phase d p c = _
    rw [Function.update_of_ne hc, hp]
  settled := hs
  awake := hw
  arrivals := ha

/-- What is set for one caller is set, and stays as it was for the others. -/
theorem update_of_true {f : κ → Bool} (r c : κ) (h : f c = true) :
    Function.update f r true c = true := by
  by_cases hcr : c = r
  · rw [hcr, Function.update_self]
  · rw [Function.update_of_ne hcr, h]

theorem frame_lead {s s' : State κ α ε} {d : κ} {n : Nature α ε} {stage : Stage κ}
    (hs : s.lead d n stage = some s') : Frame s s' d := by
  have hput : ∀ {t : State κ α ε} {p : Phase κ}, some (t.put d p) = some s' → t.phase = s.phase →
      t.settled = s.settled → t.wake = s.wake → t.arrivals = s.arrivals → Frame s s' d := by
    rintro t p ⟨⟩ hp hsettled hw ha
    exact frame_put hp (by simp [hsettled]) (by simp [hw]) ha
  match stage with
  | .locking =>
    rw [State.lead] at hs
    split_ifs at hs
    exact hput hs rfl rfl rfl rfl
  | .testing =>
    rw [State.lead] at hs
    split_ifs at hs <;> exact hput hs rfl rfl rfl rfl
  | .starting | .committing _ | .running _ (_ :: _) => cases n <;> exact hput hs rfl rfl rfl rfl
  | .collecting batch =>
    rw [State.lead, State.take] at hs
    simp only at hs
    split_ifs at hs <;> exact hput hs rfl rfl rfl rfl
  | .running _ [] | .marking [] => exact hput hs rfl rfl rfl rfl
  | .marking (r :: _) =>
    obtain rfl := Option.some.inj hs
    exact frame_put rfl (fun c => update_of_true r c) (fun _ _ => id) rfl
  | .waking r _ | .releasing r =>
    obtain rfl := Option.some.inj hs
    exact frame_put rfl (fun _ => id) (fun c _ => update_of_true r c) rfl
  | .handing =>
    rw [State.lead] at hs
    cases hq : s.queue.head? <;> rw [hq] at hs <;> exact hput hs rfl rfl rfl rfl

theorem frame_turn {s s' : State κ α ε} {d : κ} {n : Nature α ε} (hs : s.turn d n = some s') :
    Frame s s' d := by
  rw [State.turn] at hs
  cases hp : s.phase d with
  | absent | returned =>
    rw [hp] at hs
    cases hs
  | waiting =>
    simp only [hp] at hs
    split_ifs at hs
    obtain rfl := Option.some.inj hs
    exact frame_put rfl (fun _ => id) (fun c hc hw => (Function.update_of_ne hc ..).trans hw) rfl
  | woken | leaving =>
    simp only [hp] at hs
    obtain rfl := Option.some.inj hs
    exact frame_put rfl (fun _ => id) (fun _ _ => id) rfl
  | leads st =>
    simp only [hp] at hs
    exact frame_lead hs

namespace Inv

variable {s s' : State κ α ε} {b b' : Baton κ} {c l : κ} {stage : Stage κ}

/-! ### The steps of the caller that leads -/

/-- Whether the next step takes what is queued into a unit of work, or fails it. -/
def Takes : Stage κ → Prop
  | .starting | .collecting [] => True
  | _ => False

theorem baton_of_put {t : State κ α ε} {st : Stage κ} (h' : Inv (t.put l (.leads st)) b') :
    b' = .held l st := h'.baton_of_leads (Function.update_self ..)

/-- After a step of the caller that leads nobody leads, or the queue has lost none but its first
callers, and the next unit of work is nearer or has taken or failed them. -/
def Descends (s : State κ α ε) (l : κ) (stage : Stage κ) (s' : State κ α ε) (b' : Baton κ) : Prop :=
  b' = .free ∨ ∃ k, s'.queue = s.queue.drop k ∧
    (b'.weight s' < stage.weight (s.settled l) ∨ 0 < k ∧ Takes stage)

/-- A step that leaves the queue alone comes nearer where its stage weighs less. -/
theorem descends_put (h' : Inv s' b') {t : State κ α ε} {st : Stage κ}
    (hs : some (t.put l (.leads st)) = some s') (hq : t.queue = s.queue)
    (hw : st.weight (t.settled l) < stage.weight (s.settled l)) : Descends s l stage s' b' := by
  obtain rfl := Option.some.inj hs
  obtain rfl := h'.baton_of_put
  exact Or.inr ⟨0, hq, Or.inl hw⟩

/-- A unit of work that fails with what it carries comes nearer. -/
theorem descends_fail (h' : Inv s' b') {t : State κ α ε} {batch : List κ} {exc : ε}
    (hs : some (t.fail l batch exc) = some s') (hq : t.queue = s.queue) (hmem : l ∈ batch)
    (hw : 9 + 2 * batch.length < stage.weight (s.settled l)) : Descends s l stage s' b' := by
  have hne := List.ne_nil_of_mem hmem
  refine descends_put h' hs ?_ ?_
  · rw [if_neg hne, hq]
  · rw [show t.failing batch = batch from if_neg hne]
    exact hw

/-- A caller that collects takes the next of what is queued, or runs what it has. -/
theorem descends_collecting {batch : List κ} (h : Inv s (.held l (.collecting batch)))
    (h' : Inv s' b') {n : Nature α ε} (hs : s.lead l n (.collecting batch) = some s') :
    Descends s l (.collecting batch) s' b' := by
  have hlimit : batchLimit = 256 := rfl
  have hlength := h.length_le
  have hfits := h.fits.2
  rw [State.lead, State.take] at hs
  simp only at hs
  cases batch with
  | nil =>
    have hhead := (hfits.2.resolve_right (by simp)).2
    split_ifs at hs with hroom
    · obtain rfl := Option.some.inj hs
      exact Or.inr ⟨batchLimit, rfl, Or.inr ⟨by simp [batchLimit], trivial⟩⟩
    · refine absurd ⟨by simp [batchLimit], fun hnone => ?_⟩ hroom
      cases hq : s.queue with
      | nil => simp [hq] at hhead
      | cons d rest => simp [hq, batchLimit] at hnone
  | cons r batch =>
    rw [hfits.1] at hlength
    replace hlength : (r :: batch).length ≤ batchLimit := hlength
    split_ifs at hs with hroom
    · obtain rfl := Option.some.inj hs
      obtain rfl := h'.baton_of_put
      refine Or.inr ⟨_, rfl, Or.inl ?_⟩
      have hpos := List.length_pos_of_ne_nil hroom.2
      have hlt := hroom.1
      show Stage.weight (s.settled l) (.running _ _) < _
      simp only [Stage.weight, List.length_append, List.length_take] at hpos ⊢
      omega
    · exact descends_put h' hs rfl (by simp only [Stage.weight]; omega)

/-- A caller that runs what it has collected comes nearer. -/
theorem descends_running {batch todo : List κ} (h : Inv s (.held l (.running batch todo)))
    (h' : Inv s' b') {n : Nature α ε} (hs : s.lead l n (.running batch todo) = some s') :
    Descends s l (.running batch todo) s' b' := by
  have hlimit : batchLimit = 256 := rfl
  have hlength := h.length_le
  have hfits := h.fits.2
  cases todo with
  | nil =>
    cases batch with
    | nil => exact absurd hfits.2.2 (by simp)
    | cons r batch => exact descends_put h' hs rfl (by simp [Stage.weight])
  | cons r todo =>
    rw [hfits.1] at hlength
    cases n with
    | proceeds _ => exact descends_put h' hs rfl (by simp [Stage.weight])
    | fails exc | interrupts exc =>
      exact descends_fail h' hs rfl hfits.2.2 (by simp only [Stage.weight]; omega)

/-- A caller that leaves hands the lead to the first of those queued, or gives it up. -/
theorem descends_handing (h : Inv s (.held l .handing)) (h' : Inv s' b') {n : Nature α ε}
    (hs : s.lead l n .handing = some s') : Descends s l .handing s' b' := by
  rw [State.lead] at hs
  cases hq : s.queue.head? with
  | some t =>
    rw [hq] at hs
    exact descends_put h' hs rfl (by simp [Stage.weight])
  | none =>
    rw [hq] at hs
    obtain rfl := Option.some.inj hs
    exact Or.inl (h'.unique (h.vacates hq))

/-- The caller that leads comes nearer to the next unit of work, or takes what is queued. -/
theorem descends (h : Inv s (.held l stage)) (h' : Inv s' b') {n : Nature α ε}
    (hs : s.lead l n stage = some s') : Descends s l stage s' b' := by
  have hfits := h.fits.2
  cases stage with
  | locking =>
    rw [State.lead] at hs
    split_ifs at hs
    have hun := h.unsettled_of_queue (mem_queue_of_head hfits.1)
    exact descends_put h' hs rfl (by simp [Stage.weight, hun])
  | testing =>
    rw [State.lead] at hs
    split_ifs at hs with hsettled
    · exact descends_put h' hs rfl (by simp [Stage.weight, hsettled])
    · exact descends_put h' hs rfl (by simp [Stage.weight, hsettled])
  | starting =>
    cases n with
    | proceeds _ => exact descends_put h' hs rfl (by simp [Stage.weight])
    | fails exc | interrupts exc =>
      obtain rfl := Option.some.inj hs
      exact Or.inr ⟨batchLimit, rfl, Or.inr ⟨by simp [batchLimit], trivial⟩⟩
  | collecting batch => exact descends_collecting h h' hs
  | running batch todo => exact descends_running h h' hs
  | committing batch =>
    cases n with
    | proceeds _ => exact descends_put h' hs rfl (by simp [Stage.weight])
    | fails exc | interrupts exc =>
      exact descends_fail h' hs rfl hfits.2 (by simp [Stage.weight])
  | marking todo =>
    cases todo with
    | nil =>
      have hsettled := hfits.2.resolve_right (by simp)
      exact descends_put h' hs rfl (by simp [Stage.weight, hsettled])
    | cons r todo =>
      exact descends_put h' hs rfl (by simp only [Stage.weight, List.length_cons]; omega)
  | waking r todo => exact descends_put h' hs rfl (by simp [Stage.weight])
  | handing => exact descends_handing h h' hs
  | releasing t =>
    obtain rfl := Option.some.inj hs
    obtain rfl := h'.unique h.hands
    refine Or.inr ⟨0, rfl, Or.inl ?_⟩
    rw [Baton.weight, Stage.weight]
    split_ifs <;> omega

end Inv

/-! ### Every step and a caller that waits -/

section Waiting

variable {s s' : State κ α ε} {b b' : Baton κ} {c l : κ} {a : Actor κ}

/-- A caller of which neither the place nor what it depends on changes is to wait as long. -/
theorem rank_congr (hq : ahead s'.queue c = ahead s.queue c) (hp : s'.phase c = s.phase c)
    (hw : b'.weight s' = b.weight s) (hdep : Depends s' b' c ↔ Depends s b c) :
    rank s' b' c = rank s b c := by
  simp only [rank, hq, hp, hw, hdep]

/-- A caller that comes nearer to being served is to wait less. -/
theorem rank_lt_of_served (hdep : Depends s b c) (hq : ahead s'.queue c ≤ ahead s.queue c)
    (hlt : ahead s'.queue c < ahead s.queue c ∨ b'.weight s' < b.weight s) :
    rank s' b' c < rank s b c := by
  rw [rank, rank, if_pos hdep]
  split_ifs
  · rw [Prod.Lex.toLex_lt_toLex]
    rcases hlt with hlt | hlt
    · exact Or.inl (Nat.succ_lt_succ hlt)
    · rcases Nat.lt_or_eq_of_le hq with hq | hq
      · exact Or.inl (Nat.succ_lt_succ hq)
      · exact Or.inr ⟨congrArg Nat.succ hq, hlt⟩
  · rw [Prod.Lex.toLex_lt_toLex]
    exact Or.inl (Nat.succ_pos _)

/-- A caller in the queue of a caller that is about to take it is queued. -/
theorem mem_queue_of_takes {stage : Stage κ} (h : Inv s (.held l stage)) (ht : Inv.Takes stage)
    (hdep : Depends s (.held l stage) c) : c ∈ s.queue := by
  have hfits : s.queue.head? = some l ∧ s.current.carried = [] ∧
      (Baton.held l stage).unmarked = [] ∧ (Baton.held l stage).waking = none := by
    match stage with
    | .starting => exact ⟨h.fits.2.1, by rw [h.fits.2.2], rfl, rfl⟩
    | .collecting [] => exact ⟨(h.fits.2.2.resolve_right (by simp)).2, by rw [h.fits.2.1], rfl, rfl⟩
  obtain ⟨hhead, hcarried, hunmarked, hwaking⟩ := hfits
  rcases hdep with hhas | hblocked
  · obtain rfl : l = c := hhas
    exact Inv.mem_queue_of_head hhead
  · have hin := h.mem_arrivals_of_phase (c := c) (by simp [hblocked.1])
    by_cases hhas : (Baton.held l stage).Has c
    · obtain rfl : l = c := hhas
      exact Inv.mem_queue_of_head hhead
    · have hquiet := h.quiet c hhas
      rw [hblocked.1, Quiet, hblocked.2, hwaking] at hquiet
      have hun : s.settled c = false := Bool.eq_false_iff.mpr fun hs => by simpa using hquiet hs
      have hmem := (h.settled c hin).mp hun
      rw [hunmarked, hcarried] at hmem
      simpa using hmem

/-- A step of the caller that has the baton. -/
theorem rank_lt_of_holder (h : Inv s b) (h' : Inv s' b') {n : Nature α ε} (hdep : Depends s b c)
    (hs : s.turn (b.holder c) n = some s') : rank s' b' c < rank s b c := by
  match b with
  | .free => exact absurd rfl (h.ne_free_of_depends hdep)
  | .left l =>
    rcases h.turn_left hs with ⟨hp, rfl, hinv⟩ | ⟨hp, rfl, hinv⟩
    · obtain rfl := h'.unique hinv
      refine rank_lt_of_served hdep le_rfl (Or.inr ?_)
      rw [Baton.weight, Baton.weight, if_pos hp, if_neg]
      · omega
      · show ¬Function.update s.phase l _ l = _
        rw [Function.update_self]
        simp
    · obtain rfl := h'.unique hinv
      refine rank_lt_of_served hdep le_rfl (Or.inr ?_)
      rw [Baton.weight, Baton.weight, if_neg (by simp [hp]), Stage.weight]
      omega
  | .held l stage =>
    replace hs : s.turn l n = some s' := hs
    rw [h.turn_held] at hs
    rcases h.descends h' hs with rfl | ⟨k, hqueue, hless⟩
    · rw [rank, rank, if_pos hdep, if_neg fun hdep' => h'.ne_free_of_depends hdep' rfl,
        Prod.Lex.toLex_lt_toLex]
      exact Or.inl (Nat.succ_pos _)
    · have hnodup : s.queue.Nodup := by
        have := h.nodup
        rw [h.order, List.nodup_append] at this
        exact this.2.1
      have hahead : ahead s'.queue c = ahead s.queue c - k := by rw [hqueue, ahead_drop hnodup]
      refine rank_lt_of_served hdep (by omega) ?_
      rcases hless with hless | ⟨hk, htakes⟩
      · exact Or.inr hless
      · have hmem := mem_queue_of_takes h htakes hdep
        have hpos : 0 < ahead s.queue c := by rw [ahead, if_pos hmem]; exact Nat.succ_pos _
        omega

/-- A step of a caller that depends on nobody. -/
theorem rank_lt_of_own (h : Inv s b) (h' : Inv s' b') {n : Nature α ε} (hdep : ¬Depends s b c)
    (hs : s.turn c n = some s') : rank s' b' c < rank s b c := by
  have hhas : ¬b.Has c := fun hhas => hdep (Or.inl hhas)
  obtain ⟨wake, p, rfl, -, hp, hinv⟩ := h.aside hhas hs
  obtain rfl := h'.unique hinv
  have hphase : (State.put { s with wake := wake } c p).phase c = p := Function.update_self ..
  have hdep' : ¬Depends (State.put { s with wake := wake } c p) b' c := by
    rintro (hhas' | hblocked)
    · exact hhas hhas'
    · have hwaits := hphase.symm.trans hblocked.1
      rcases hp with ⟨-, -, rfl⟩ | ⟨-, rfl⟩ <;> cases hwaits
  rw [rank, rank, if_neg hdep, if_neg hdep', hphase, Prod.Lex.toLex_lt_toLex]
  refine Or.inr ⟨rfl, ?_⟩
  rcases hp with ⟨hp, -, rfl⟩ | ⟨hp | hp, rfl⟩ <;> simp [hp, Phase.weight]

/-- A caller that depends on nobody does not come to depend on anybody, whatever others do. -/
theorem rank_eq_of_settled (h : Inv s b) (h' : Inv s' b') (hdep : ¬Depends s b c)
    (hin : c ∈ s.arrivals) (hp : s'.phase c = s.phase c)
    (hsettled : s.settled c = true → s'.settled c = true)
    (hwake : s.wake c = true → s'.wake c = true) :
    rank s' b' c = rank s b c ∧ helper s' b' c = helper s b c := by
  have hs := hsettled (h.settled_of_not_depends hdep hin)
  have hdep' : ¬Depends s' b' c := by
    rintro (hhas | hblocked)
    · match b' with
      | .left d =>
        obtain rfl : d = c := hhas
        have hun := h'.unsettled_of_queue (Inv.mem_queue_of_head h'.fits.1)
        rw [hs] at hun
        cases hun
      | .held d st =>
        obtain rfl : d = c := hhas
        exact hdep (Or.inl ((h.baton_of_leads (hp.symm.trans h'.fits.1)) ▸ rfl))
    · have hw : s.wake c = true := by
        by_contra hw
        exact hdep (Or.inr ⟨hp.symm.trans hblocked.1, Bool.eq_false_iff.mpr hw⟩)
      have hw' := hwake hw
      rw [hblocked.2] at hw'
      cases hw'
  rw [rank, rank, helper, helper, if_neg hdep, if_neg hdep', if_neg hdep, if_neg hdep', hp]
  exact ⟨rfl, rfl⟩

/-- A caller that depends on the baton, while others move. -/
theorem rank_eq_of_baton (h : Inv s b) (h' : Inv s' b') (hinv : Inv s' b) (hdep : Depends s b c)
    (hq : ahead s'.queue c = ahead s.queue c) (hc : s'.phase c = s.phase c)
    (hw : s'.wake c = s.wake c) (hl : s'.phase (b.holder c) = s.phase (b.holder c))
    (hs : s'.settled = s.settled) :
    rank s' b' c = rank s b c ∧ helper s' b' c = helper s b c := by
  obtain rfl := h'.unique hinv
  have hdep' : Depends s' b' c ↔ Depends s b' c := by
    rw [Depends, Depends, Blocked, Blocked, hc, hw]
  have hweight : b'.weight s' = b'.weight s := by
    match b' with
    | .free => rfl
    | .left l => rw [Baton.weight, Baton.weight, show s'.phase l = s.phase l from hl]
    | .held l stage => rw [Baton.weight, Baton.weight, hs]
  exact ⟨rank_congr hq hc hweight hdep', by simp only [helper, hdep']⟩

/-- A step of anybody else leaves a caller that has queued its request as it was. -/
theorem rank_eq (h : Inv s b) (h' : Inv s' b') (hs : Step s a s') (hin : c ∈ s.arrivals)
    (ha : a ≠ .caller (helper s b c)) :
    rank s' b' c = rank s b c ∧ helper s' b' c = helper s b c := by
  have hcome := h.absent c
  by_cases hdep : Depends s b c
  · have hfree := h.ne_free_of_depends hdep
    rw [helper, if_pos hdep] at ha
    cases hs with
    | arrive hd =>
      rename_i d
      have hne : ∀ e, s.phase e ≠ .absent → e ≠ d := by
        rintro e he rfl
        exact he hd
      have hcd := hne c fun hc => hcome.mp hc hin
      have hinv := h.arrives_later hd hfree
      have hholder : b.holder c ≠ d := by
        match b with
        | .free => exact absurd rfl hfree
        | .left l => exact hne l (by rcases h.fits.2.2 with hp | hp <;> simp [hp])
        | .held l stage => exact hne l (by simp [h.fits.1])
      exact rank_eq_of_baton h h' hinv hdep (ahead_append hcd) (Function.update_of_ne hcd ..) rfl
        (Function.update_of_ne hholder ..) rfl
    | turn hturn =>
      rename_i d n
      have hd : b.holder c ≠ d := fun heq => ha (congrArg Actor.caller heq.symm)
      have hhas : ¬b.Has d := by
        match b with
        | .free => exact id
        | .left _ | .held _ _ => exact hd
      have hcd : c ≠ d := by
        rintro rfl
        rcases hdep with hc | ⟨hp, hw⟩
        · exact hhas hc
        · simp [State.turn, hp, hw] at hturn
      obtain ⟨wake, p, rfl, hwake, -, hinv⟩ := h.aside hhas hturn
      exact rank_eq_of_baton h h' hinv hdep rfl (Function.update_of_ne hcd ..) (hwake c hcd)
        (Function.update_of_ne hd ..) rfl
    | lock hfree =>
      have hinv := h.outside (some .outside) (by simp [hfree])
      exact rank_eq_of_baton h h' hinv hdep rfl rfl rfl rfl rfl
    | unlock hout =>
      have hinv := h.outside none (by simp [hout])
      exact rank_eq_of_baton h h' hinv hdep rfl rfl rfl rfl rfl
  · rw [helper, if_neg hdep] at ha
    have hrest := rank_eq_of_settled h h' hdep hin
    cases hs with
    | arrive hd =>
      rename_i d
      have hcd : c ≠ d := by
        rintro rfl
        exact hcome.mp hd hin
      exact hrest (Function.update_of_ne hcd ..) id id
    | turn hturn =>
      have hframe := frame_turn hturn
      have hcd : c ≠ _ := fun heq => ha (congrArg Actor.caller heq.symm)
      exact hrest (hframe.phase c hcd) (hframe.settled c) (hframe.awake c hcd)
    | lock _ | unlock _ => exact hrest rfl id id

/-- A step of the caller that is to help brings it nearer. -/
theorem rank_lt (h : Inv s b) (h' : Inv s' b') (hs : Step s (.caller (helper s b c)) s') :
    rank s' b' c < rank s b c := by
  cases hs with
  | turn hturn =>
    by_cases hdep : Depends s b c
    · rw [helper, if_pos hdep] at hturn
      exact rank_lt_of_holder h h' hdep hturn
    · rw [helper, if_neg hdep] at hturn
      exact rank_lt_of_own h h' hdep hturn

end Waiting

/-! ### Every state and every run -/

/-- What is so of every state. -/
structure Orderly (s : State κ α ε) : Prop where
  came : ∀ c, s.phase c ≠ .absent ↔ c ∈ s.arrivals
  /-- What was queued is carried by units of work, in that order, as far as it is not queued. -/
  order : s.arrivals = carriedBy (s.ended ++ [s.current]) ++ s.queue
  /-- Nothing is queued, or carried, twice. -/
  once : s.arrivals.Nodup
  /-- A unit of work runs what it carries from the first on. -/
  units : ∀ u ∈ s.ended ++ [s.current], u.ran <+: u.carried ∧ u.carried.length ≤ batchLimit
  /-- A caller that is to return has an outcome, and its unit of work has ended. -/
  after : ∀ c, s.phase c = .leaving ∨ s.phase c = .returned →
    c ∈ carriedBy s.ended ∧ (s.outcome c).isSome
  leader : ∀ c d stage stage', s.phase c = .leads stage → s.phase d = .leads stage' → c = d
  /-- Where anything is queued, a caller leads, or the first in the queue was woken to lead. -/
  served : s.queue ≠ [] → (∃ c stage, s.phase c = .leads stage) ∨
    ∃ c, s.queue.head? = some c ∧ s.settled c = false ∧
      (s.phase c = .waiting ∧ s.wake c = true ∨ s.phase c = .woken)
  /-- No request's own lock is released while it is free. -/
  released : ∀ c r, (∃ todo, s.phase c = .leads (.waking r todo)) ∨
    s.phase c = .leads (.releasing r) → s.wake r = false

omit [DecidableEq κ] in
theorem Inv.orderly {s : State κ α ε} {b : Baton κ} (h : Inv s b) : Orderly s where
  came c := by
    have := h.absent c
    tauto
  order := by rw [h.order, carriedBy, carriedBy, List.flatMap_append, List.flatMap_singleton]
  once := h.nodup
  units u hu := h.units u (by simpa [or_comm] using hu)
  after c hp := by
    have hin : c ∈ s.arrivals := h.mem_arrivals_of_phase (by rcases hp with hp | hp <;> simp [hp])
    have hhas : ¬b.Has c := by
      intro hhas
      cases b with
      | free => exact hhas
      | left d =>
        obtain rfl : d = c := hhas
        rcases h.fits.2.2 with ⟨hwaits, -⟩ | hwaits <;> rcases hp with hp | hp <;>
          · rw [hwaits] at hp
            cases hp
      | held d stage =>
        obtain rfl : d = c := hhas
        rcases hp with hp | hp <;>
          · rw [h.fits.1] at hp
            cases hp
    have hsettled : s.settled c = true := by
      have hquiet := h.quiet c hhas
      rcases hp with hp | hp <;>
        · rw [hp] at hquiet
          exact hquiet
    have hmem : c ∈ carriedBy s.ended := by
      have hcarried := (h.settled c hin).not.mp (by simp [hsettled])
      rw [h.order, List.mem_append, List.mem_append] at hin
      tauto
    exact ⟨hmem, h.outcome c (Or.inl hmem)⟩
  leader c d stage stage' hc hd := by
    obtain rfl := h.baton_of_leads hc
    have := h.baton_of_leads hd
    cases this
    rfl
  served hq := by
    cases b with
    | free => exact absurd h.fits.1 hq
    | left c =>
      exact Or.inr ⟨c, h.fits.1, h.unsettled_of_queue (mem_queue_of_head h.fits.1), h.fits.2.2⟩
    | held c stage => exact Or.inl ⟨c, stage, h.fits.1⟩
  released c r hp := by
    rcases hp with ⟨todo, hp⟩ | hp
    · obtain rfl := h.baton_of_leads hp
      exact h.fits.2.2.2.2
    · obtain rfl := h.baton_of_leads hp
      refine Bool.eq_false_iff.mpr fun hw => ?_
      exact h.not_awake (h.unsettled_of_queue (mem_queue_of_head h.fits.2.2.2)) hw

/-- An interleaving from any state that is reached: whose step comes next, if any does. -/
structure Run (κ α ε : Type*) [DecidableEq κ] where
  states : ℕ → State κ α ε
  actors : ℕ → Option (Actor κ)
  start : Reached (states 0)
  next : ∀ k, (actors k = none ∧ states (k + 1) = states k) ∨
    ∃ a, actors k = some a ∧ Step (states k) a (states (k + 1))

namespace Run

variable (run : Run κ α ε)

theorem reached (k : ℕ) : Reached (run.states k) := by
  induction k with
  | zero => exact run.start
  | succ k ih =>
    rcases run.next k with ⟨-, hs⟩ | ⟨a, -, hs⟩
    · rw [hs]
      exact ih
    · exact ih.step hs

/-- A caller that has come has come for good. -/
theorem mem_arrivals_of_step {s s' : State κ α ε} {a : Actor κ} {c : κ} (hs : Step s a s')
    (h : c ∈ s.arrivals) : c ∈ s'.arrivals := by
  cases hs with
  | arrive hd => exact List.mem_append_left _ h
  | turn hturn =>
    rw [(frame_turn hturn).arrivals]
    exact h
  | lock _ | unlock _ => exact h

theorem mem_arrivals {c : κ} {i k : ℕ} (h : c ∈ (run.states i).arrivals) (hk : i ≤ k) :
    c ∈ (run.states k).arrivals := by
  induction k, hk using Nat.le_induction with
  | base => exact h
  | succ k hk ih =>
    rcases run.next k with ⟨-, hs⟩ | ⟨a, -, hs⟩
    · rw [hs]
      exact ih
    · exact mem_arrivals_of_step hs ih

/-- A caller that has come returns, unless somebody has a step to take and does not take it. -/
theorem returns (c : κ) (i : ℕ) (h : c ∈ (run.states i).arrivals) :
    (∃ j, i ≤ j ∧ (run.states j).phase c = .returned) ∨
      ∃ l j, i ≤ j ∧ ∀ k, j ≤ k → Ready (run.states k) l ∧ run.actors k ≠ some (.caller l) := by
  by_cases hreturn : ∃ j, i ≤ j ∧ (run.states j).phase c = .returned
  · exact Or.inl hreturn
  · refine Or.inr ?_
    push Not at hreturn
    choose baton hinv using fun k => (run.reached k).inv
    obtain ⟨j, hij, hstill⟩ := Foundation.eventually_still
      (fun k => rank (run.states k) (baton k) c) (fun k => helper (run.states k) (baton k) c)
      (fun k l => run.actors k = some (.caller l)) i
      (by
        intro k _ hact
        rcases run.next k with ⟨hnone, -⟩ | ⟨a, ha, hs⟩
        · rw [hnone] at hact
          cases hact
        · rw [ha] at hact
          obtain rfl := Option.some.inj hact
          exact rank_lt (hinv k) (hinv (k + 1)) hs)
      (by
        intro k hk hact
        rcases run.next k with ⟨-, hs⟩ | ⟨a, ha, hs⟩
        · have hinv' := hinv (k + 1)
          rw [hs] at hinv'
          simp only [hs, (hinv k).unique hinv', and_self]
        · exact rank_eq (hinv k) (hinv (k + 1)) hs (run.mem_arrivals h hk)
            fun heq => hact (ha.trans (congrArg some heq)))
    refine ⟨_, j, hij, fun k hk => ⟨?_, (hstill k hk).2⟩⟩
    have hready := (hinv k).ready_helper (run.mem_arrivals h (hij.trans hk))
      (hreturn k (hij.trans hk))
    rw [(hstill k hk).1] at hready
    exact hready

end Run

/-- In every interleaving requests run at most once, in one unit of work each and in the order in
which they were queued, and callers return after their units of work; and a caller that has come
returns, unless some caller has from some time on a step to take that it never takes. -/
theorem handover_loses_no_caller :
    (∀ s : State κ α ε, Reached s → Orderly s) ∧
    ∀ (run : Run κ α ε) (c : κ) (i : ℕ), (run.states i).phase c ≠ .absent →
      (∃ j, i ≤ j ∧ (run.states j).phase c = .returned) ∨
        ∃ l j, i ≤ j ∧ ∀ k, j ≤ k → Ready (run.states k) l ∧ run.actors k ≠ some (.caller l) := by
  refine ⟨fun s h => ?_, fun run c i hc => ?_⟩
  · obtain ⟨b, hb⟩ := h.inv
    exact hb.orderly
  · obtain ⟨b, hb⟩ := (run.reached i).inv
    exact run.returns c i (hb.mem_arrivals_of_phase hc)

/-! ### A hand-over -/

/-- The next step of a caller, where requests that are run return. -/
def sampleStep (s : State ℕ PUnit.{1} PUnit.{1}) : Actor ℕ → Option (State ℕ PUnit.{1} PUnit.{1})
  | .newcomer c => if s.phase c = .absent then some (s.arrive c) else none
  | .caller c => s.turn c (.proceeds (.ok ⟨⟩))
  | .outside => none

theorem step_sampleStep {s s' : State ℕ PUnit.{1} PUnit.{1}} {a : Actor ℕ}
    (h : sampleStep s a = some s') : Step s a s' := by
  cases a with
  | newcomer c =>
    simp only [sampleStep] at h
    split_ifs at h with habsent
    obtain rfl := Option.some.inj h
    exact .arrive habsent
  | caller c => exact .turn h
  | outside => cases h

/-- The second caller comes when the unit of work of the first has committed: it waits, is handed
the lead, and returns after a unit of work of its own. -/
def sampleSchedule : List (Actor ℕ) :=
  [.newcomer 1] ++ List.replicate 9 (.caller 1) ++ [.newcomer 2] ++
    List.replicate 6 (.caller 1) ++ List.replicate 16 (.caller 2)

/-- The state after some steps of the schedule. -/
def sampleState (k : ℕ) : Option (State ℕ PUnit.{1} PUnit.{1}) :=
  (sampleSchedule.take k).foldlM sampleStep {}

theorem sampleState_isSome (k : ℕ) : (sampleState k).isSome = true := by
  have hall : (sampleSchedule.foldlM sampleStep {}).isSome = true := by decide
  rw [← List.take_append_drop k sampleSchedule, List.foldlM_append] at hall
  cases hk : sampleState k with
  | none =>
    rw [sampleState] at hk
    rw [hk] at hall
    cases hall
  | some s => rfl

theorem sampleState_succ (k : ℕ) : sampleState (k + 1) =
    sampleState k >>= fun s => sampleSchedule[k]?.toList.foldlM sampleStep s := by
  rw [sampleState, List.take_add_one, List.foldlM_append]
  rfl

/-- The schedule as a run, which stays where it ends. -/
def sampleRun : Run ℕ PUnit.{1} PUnit.{1} where
  states k := (sampleState k).get (sampleState_isSome k)
  actors k := sampleSchedule[k]?
  start := .start
  next k := by
    obtain ⟨s, hs⟩ := Option.isSome_iff_exists.mp (sampleState_isSome k)
    obtain ⟨s', hs'⟩ := Option.isSome_iff_exists.mp (sampleState_isSome (k + 1))
    have hnext := hs'
    rw [sampleState_succ, hs] at hnext
    simp only [hs, hs', Option.get_some]
    cases hactor : sampleSchedule[k]? with
    | none =>
      rw [hactor] at hnext
      exact Or.inl ⟨rfl, (Option.some.inj hnext).symm⟩
    | some a =>
      rw [hactor] at hnext
      refine Or.inr ⟨a, rfl, step_sampleStep ?_⟩
      simpa using hnext

/-- Both callers return, after a unit of work each; and the second is not lost. -/
theorem handover_loses_no_caller_handed :
    ((sampleRun.states 33).phase 2 = .returned ∧
      (sampleRun.states 33).ended.map WorkUnit.carried = [[1], [2]] ∧
      Orderly (sampleRun.states 33)) ∧
    ((∃ j, 11 ≤ j ∧ (sampleRun.states j).phase 2 = .returned) ∨
      ∃ l j, 11 ≤ j ∧ ∀ k, j ≤ k →
        Ready (sampleRun.states k) l ∧ sampleRun.actors k ≠ some (.caller l)) :=
  ⟨⟨by decide, by decide, handover_loses_no_caller.1 _ (sampleRun.reached 33)⟩,
    handover_loses_no_caller.2 sampleRun 2 11 (by decide)⟩

end AgentGov.Handover
