import AgentGov.Handover
import Mathlib.Data.List.Infix

/-!
# The baton

Of all the callers of a governor one at most has the baton: it leads, or has been woken to lead.
Everything that was queued was taken into a unit of work that has ended, is in the one under way,
or is queued still, in the order in which it came.

## Main definitions

* `AgentGov.Handover.Baton`: who has the lead, if anyone.
* `AgentGov.Handover.Inv`: what holds of every state.

## Main results

* `AgentGov.Handover.Inv.step`: every step keeps it.
* `AgentGov.Handover.Reached.inv`: it holds of every state that is reached.
-/

namespace AgentGov.Handover

variable {κ α ε : Type*}

/-- Who has the lead. -/
inductive Baton (κ : Type*)
  | free
  /-- It was handed to a caller that has not taken it up. -/
  | left (c : κ)
  | held (c : κ) (stage : Stage κ)
deriving DecidableEq

namespace Baton

/-- Whether a caller has it. -/
def Has : Baton κ → κ → Prop
  | free, _ => False
  | left c, d => c = d
  | held c _, d => c = d

/-- The requests of a unit of work that has ended that are not marked as settled. -/
def unmarked : Baton κ → List κ
  | held _ (.marking todo) | held _ (.waking _ todo) => todo
  | _ => []

/-- The caller that is about to be woken, its request being settled. -/
def waking : Baton κ → Option κ
  | held _ (.waking r _) => some r
  | _ => none

end Baton

/-- Where a caller without the baton may be. -/
def Quiet (b : Baton κ) (c : κ) (settled wake : Bool) : Phase κ → Prop
  | .absent => True
  | .waiting => settled = true → wake = true ∨ b.waking = some c
  | .woken | .leaving | .returned => settled = true
  | .leads _ => False

/-- The requests carried by units of work, unit by unit. -/
def carriedBy (units : List (WorkUnit κ)) : List κ := units.flatMap WorkUnit.carried

/-- What is so of a stage of the caller that leads. -/
def StageFits (s : State κ α ε) (c : κ) : Stage κ → Prop
  | .locking | .starting => s.queue.head? = some c ∧ s.current = {}
  | .testing => (s.queue.head? = some c ∨ s.settled c = true) ∧ s.current = {}
  | .collecting batch => s.current = ⟨batch, batch⟩ ∧
      ((batch = [] ∧ s.queue.head? = some c) ∨ c ∈ batch)
  | .running batch todo => s.current.carried = batch ∧ s.current.ran ++ todo = batch ∧ c ∈ batch
  | .committing batch => s.current = ⟨batch, batch⟩ ∧ c ∈ batch
  | .marking todo => s.current = {} ∧ (s.settled c = true ∨ c ∈ todo)
  | .waking r todo => s.current = {} ∧ (s.settled c = true ∨ c ∈ todo) ∧ s.settled r = true ∧
      s.wake r = false
  | .handing => s.current = {} ∧ s.settled c = true
  | .releasing t => s.current = {} ∧ s.settled c = true ∧ s.queue.head? = some t

/-- What is so of the caller that has the baton. -/
def Fits (s : State κ α ε) : Baton κ → Prop
  | .free => s.queue = [] ∧ s.current = {}
  | .left c => s.queue.head? = some c ∧ s.current = {} ∧
      (s.phase c = .waiting ∧ s.wake c = true ∨ s.phase c = .woken)
  | .held c stage => s.phase c = .leads stage ∧ StageFits s c stage

/-- What holds of every state. -/
structure Inv (s : State κ α ε) (b : Baton κ) : Prop where
  fits : Fits s b
  leading : s.leading = true ↔ b ≠ .free
  order : s.arrivals = carriedBy s.ended ++ s.current.carried ++ s.queue
  nodup : s.arrivals.Nodup
  absent : ∀ c, s.phase c = .absent ↔ c ∉ s.arrivals
  fresh : ∀ c, c ∉ s.arrivals → s.settled c = false
  settled : ∀ c ∈ s.arrivals, s.settled c = false ↔
    c ∈ b.unmarked ∨ c ∈ s.current.carried ∨ c ∈ s.queue
  unmarked : b.unmarked.Nodup ∧ ∀ c ∈ b.unmarked, c ∈ carriedBy s.ended
  asleep : ∀ c, s.settled c = false → s.wake c = true → b = .left c ∧ s.phase c = .waiting
  quiet : ∀ c, ¬b.Has c → Quiet b c (s.settled c) (s.wake c) (s.phase c)
  lock : ∀ c, s.lock = some (.caller c) ↔ ∃ stage, b = .held c stage ∧ stage.locked = true
  units : ∀ u ∈ s.current :: s.ended, u.ran <+: u.carried ∧ u.carried.length ≤ batchLimit
  outcome : ∀ c, c ∈ carriedBy s.ended ∨ c ∈ s.current.ran → (s.outcome c).isSome

namespace Inv

variable {s s' : State κ α ε} {b : Baton κ} {c : κ}

theorem start : Inv ({} : State κ α ε) .free where
  fits := ⟨rfl, rfl⟩
  leading := by simp
  order := rfl
  nodup := List.nodup_nil
  absent c := by simp
  fresh c _ := rfl
  settled c h := by cases h
  unmarked := ⟨List.nodup_nil, by simp [Baton.unmarked]⟩
  asleep c _ h := by cases h
  quiet c _ := trivial
  lock c := by simp
  units u hu := by
    rw [List.mem_singleton.mp hu]
    exact ⟨List.nil_prefix, Nat.zero_le _⟩
  outcome c h := by simp [carriedBy] at h

/-! ### Who has the baton -/

theorem baton_of_leads (h : Inv s b) {stage : Stage κ} (hc : s.phase c = .leads stage) :
    b = .held c stage := by
  have hquiet := h.quiet c
  rw [hc] at hquiet
  have hhas : b.Has c := by
    by_contra hnot
    exact hquiet hnot
  have hfits := h.fits
  match b with
  | .free => exact hhas.elim
  | .left d =>
    obtain rfl : d = c := hhas
    rcases hfits.2.2 with hp | hp
    · rw [hp.1] at hc
      cases hc
    · rw [hp] at hc
      cases hc
  | .held d stage' =>
    obtain rfl : d = c := hhas
    have hphase := hfits.1
    rw [hc, Phase.leads.injEq] at hphase
    rw [hphase]

/-- A caller that is not settled and not absent waits, or has the baton. -/
theorem waiting_of_unsettled (h : Inv s b) (hc : c ∈ s.arrivals) (hs : s.settled c = false) :
    b.Has c ∨ s.phase c = .waiting := by
  by_cases hhas : b.Has c
  · exact Or.inl hhas
  · refine Or.inr ?_
    have hquiet := h.quiet c hhas
    have hnot := (h.absent c).not.mpr (not_not.mpr hc)
    match hp : s.phase c with
    | .waiting => rfl
    | .absent => exact absurd hp hnot
    | .woken | .leaving | .returned =>
      rw [hp] at hquiet
      exact absurd (hs.symm.trans hquiet) (by simp)
    | .leads stage =>
      rw [hp] at hquiet
      exact hquiet.elim

theorem mem_arrivals_of_queue (h : Inv s b) (hc : c ∈ s.queue) : c ∈ s.arrivals := by
  rw [h.order]
  exact List.mem_append_right _ hc

theorem unsettled_of_queue (h : Inv s b) (hc : c ∈ s.queue) : s.settled c = false :=
  (h.settled c (h.mem_arrivals_of_queue hc)).mpr (Or.inr (Or.inr hc))

theorem mem_arrivals_of_phase (h : Inv s b) (hc : s.phase c ≠ .absent) : c ∈ s.arrivals :=
  not_not.mp ((h.absent c).not.mp hc)

theorem mem_queue_of_head {l : List κ} (h : l.head? = some c) : c ∈ l := List.mem_of_head? h

/-- What is queued last is not first, unless nothing else is queued. -/
theorem head_append {l : List κ} {d : κ} (h : l.head? = some d) : (l ++ [c]).head? = some d := by
  rw [List.head?_append, h]
  rfl

/-! ### Moves of the caller that leads -/

variable {stage stage' : Stage κ} {p : Phase κ}

theorem has_unique {d : κ} (hc : b.Has c) (hd : b.Has d) : c = d := by
  match b with
  | .left x | .held x _ => exact hc.symm.trans hd

theorem mem_arrivals_of_held (h : Inv s (.held c stage)) : c ∈ s.arrivals :=
  h.mem_arrivals_of_phase (by rw [h.fits.1]; simp)

theorem leading_of_held (h : Inv s (.held c stage)) : s.leading = true :=
  h.leading.mpr (by simp)

/-- While a caller leads, no request that is not settled has its lock free. -/
theorem not_awake (h : Inv s (.held c stage)) {d : κ} (hd : s.settled d = false)
    (hw : s.wake d = true) : False := by
  cases (h.asleep d hd hw).1

theorem lock_of_locked (h : Inv s (.held c stage)) (hl : stage'.locked = stage.locked) (d : κ) :
    s.lock = some (.caller d) ↔
      ∃ st, Baton.held c stage' = .held d st ∧ st.locked = true := by
  rw [h.lock]
  constructor <;> rintro ⟨st, hst, hlocked⟩ <;> cases hst
  · exact ⟨stage', rfl, hl.trans hlocked⟩
  · exact ⟨stage, rfl, hl.symm.trans hlocked⟩

/-- The governor's lock before and after a step of one that does not hold it. -/
theorem lock_of_unlocked {b' : Baton κ} (h : Inv s b)
    (hb : ∀ d st, b = .held d st → st.locked = false)
    (hb' : ∀ d st, b' = .held d st → st.locked = false) (d : κ) :
    s.lock = some (.caller d) ↔ ∃ st, b' = .held d st ∧ st.locked = true := by
  rw [h.lock]
  constructor
  · rintro ⟨st, hst, hlocked⟩
    rw [hb d st hst] at hlocked
    cases hlocked
  · rintro ⟨st, hst, hlocked⟩
    rw [hb' d st hst] at hlocked
    cases hlocked

theorem length_le (h : Inv s b) : s.current.carried.length ≤ batchLimit :=
  (h.units s.current List.mem_cons_self).2

/-- A caller that has not come has not the baton. -/
theorem not_has_of_absent (h : Inv s b) (hc : s.phase c = .absent) : ¬b.Has c := by
  have hnot := (h.absent c).mp hc
  intro hhas
  match b with
  | .left d =>
    obtain rfl : d = c := hhas
    exact hnot (h.mem_arrivals_of_queue (mem_queue_of_head h.fits.1))
  | .held d st =>
    obtain rfl : d = c := hhas
    exact hnot h.mem_arrivals_of_held

/-- Somebody outside takes the governor's lock, or releases it. -/
theorem outside (h : Inv s b) (lock : Option (Owner κ))
    (hlock : ∀ d, lock = some (.caller d) ↔ s.lock = some (.caller d)) :
    Inv { s with lock := lock } b :=
  { h with
    lock := fun d => (hlock d).trans (h.lock d)
    quiet := h.quiet }

variable [DecidableEq κ]

theorem absent_put (h : Inv s b) (hc : c ∈ s.arrivals) (hp : p ≠ .absent) (d : κ) :
    Function.update s.phase c p d = .absent ↔ d ∉ s.arrivals := by
  by_cases hd : d = c
  · subst hd
    rw [Function.update_self]
    exact ⟨fun h => absurd h hp, fun h => absurd hc h⟩
  · rw [Function.update_of_ne hd]
    exact h.absent d

/-- Nobody else is woken meanwhile. -/
theorem quiet_put {b' : Baton κ} (h : Inv s b) (hc : b.Has c) (hc' : b'.Has c)
    (hw : b.waking = none) (d : κ) (hd : ¬b'.Has d) :
    Quiet b' d (s.settled d) (s.wake d) (Function.update s.phase c p d) := by
  have hne : d ≠ c := by
    rintro rfl
    exact hd hc'
  have hquiet := h.quiet d fun hhas => hne (has_unique hhas hc)
  rw [Function.update_of_ne hne]
  match hp : s.phase d with
  | .waiting =>
    rw [hp] at hquiet
    exact fun hs => (hquiet hs).imp_right fun hwake => by rw [hw] at hwake; cases hwake
  | .absent | .woken | .leaving | .returned | .leads _ =>
    rw [hp] at hquiet
    exact hquiet

/-- The caller that leads goes on, and nothing else changes. -/
theorem goOn (h : Inv s (.held c stage)) (hl : stage'.locked = stage.locked)
    (hun : (Baton.held c stage').unmarked = (Baton.held c stage).unmarked)
    (hw : (Baton.held c stage).waking = none) (hfits : StageFits s c stage') :
    Inv (s.put c (.leads stage')) (.held c stage') :=
  { h with
    fits := ⟨Function.update_self .., hfits⟩
    leading := iff_of_true h.leading_of_held (by simp)
    absent := h.absent_put h.mem_arrivals_of_held (by simp)
    settled := by rw [hun]; exact h.settled
    unmarked := by rw [hun]; exact h.unmarked
    asleep := fun d hd hwake => (h.not_awake hd hwake).elim
    quiet := h.quiet_put rfl rfl hw
    lock := h.lock_of_locked hl }

/-- It takes the governor's lock. -/
theorem locks (h : Inv s (.held c .locking)) :
    Inv ({ s with lock := some (.caller c) }.put c (.leads .testing)) (.held c .testing) :=
  { h with
    fits := ⟨Function.update_self .., Or.inl h.fits.2.1, h.fits.2.2⟩
    leading := iff_of_true h.leading_of_held (by simp)
    absent := h.absent_put h.mem_arrivals_of_held (by simp)
    asleep := fun d hd hwake => (h.not_awake hd hwake).elim
    quiet := h.quiet_put rfl rfl rfl
    lock := by
      intro d
      constructor
      · intro hd
        cases hd
        exact ⟨.testing, rfl, rfl⟩
      · rintro ⟨st, hst, -⟩
        cases hst
        rfl }

/-- It releases it, its request being settled. -/
theorem unlocks (h : Inv s (.held c .testing)) (hs : s.settled c = true) :
    Inv ({ s with lock := none }.put c (.leads .handing)) (.held c .handing) :=
  { h with
    fits := ⟨Function.update_self .., h.fits.2.2, hs⟩
    leading := iff_of_true h.leading_of_held (by simp)
    absent := h.absent_put h.mem_arrivals_of_held (by simp)
    asleep := fun d hd hwake => (h.not_awake hd hwake).elim
    quiet := h.quiet_put rfl rfl rfl
    lock := by
      intro d
      constructor
      · intro hd
        cases hd
      · rintro ⟨st, hst, hlocked⟩
        cases hst
        cases hlocked }

/-- It takes what is queued, or finds that there is no more to take. -/
theorem takes {batch : List κ} (h : Inv s (.held c (.collecting batch))) :
    ∃ b, Inv (s.take c batch) b := by
  have hcurrent := h.fits.2.1
  rw [State.take]
  split_ifs with hroom
  · obtain ⟨hlt, htaken⟩ := hroom
    refine ⟨.held c (.running (batch ++ s.queue.take (batchLimit - batch.length))
      (s.queue.take (batchLimit - batch.length))), ?_⟩
    have hcarried : s.current.carried = batch := by rw [hcurrent]
    have hran : s.current.ran = batch := by rw [hcurrent]
    have hsplit := List.take_append_drop (batchLimit - batch.length) s.queue
    exact {
      h with
      fits := by
        refine ⟨Function.update_self .., rfl, by rw [← hran]; rfl, ?_⟩
        rcases h.fits.2.2 with ⟨rfl, hhead⟩ | hmem
        · -- the queue begins with the caller itself
          match hq : s.queue with
          | [] => simp [hq] at hhead
          | d :: rest =>
            rw [hq] at hhead
            cases hhead
            simp [batchLimit]
        · exact List.mem_append_left _ hmem
      leading := iff_of_true h.leading_of_held (by simp)
      order := by
        have := h.order
        rw [hcarried, ← hsplit] at this
        simpa [State.put] using this
      absent := h.absent_put h.mem_arrivals_of_held (by simp)
      settled := by
        intro d hd
        have := h.settled d hd
        rw [hcarried, ← hsplit, List.mem_append] at this
        simp only [State.put, Baton.unmarked, List.mem_append] at this ⊢
        rw [this]
        tauto
      asleep := fun d hd hwake => (h.not_awake hd hwake).elim
      quiet := h.quiet_put rfl rfl rfl
      lock := h.lock_of_locked rfl
      units := by
        intro u hu
        rcases List.mem_cons.mp hu with rfl | hu
        · refine ⟨?_, ?_⟩
          · show s.current.ran <+: batch ++ s.queue.take (batchLimit - batch.length)
            rw [hran]
            exact List.prefix_append ..
          · show (batch ++ s.queue.take (batchLimit - batch.length)).length ≤ batchLimit
            rw [List.length_append, List.length_take]
            omega
        · exact h.units u (List.mem_cons_of_mem _ hu) }
  · refine ⟨.held c (.committing batch), h.goOn rfl rfl rfl ⟨hcurrent, ?_⟩⟩
    rcases h.fits.2.2 with ⟨rfl, hhead⟩ | hmem
    · refine absurd ⟨by simp [batchLimit], fun hnone => ?_⟩ hroom
      match hq : s.queue with
      | [] => simp [hq] at hhead
      | d :: rest => simp [hq, batchLimit] at hnone
    · exact hmem

/-- It runs a request, which returns or raises. -/
theorem runs {batch todo : List κ} {r : κ} (h : Inv s (.held c (.running batch (r :: todo))))
    (result : Except ε α) :
    Inv ((s.run r result).put c (.leads (.running batch todo))) (.held c (.running batch todo)) :=
  { h with
    fits := by
      obtain ⟨-, hcarried, hran, hmem⟩ := h.fits
      refine ⟨Function.update_self .., hcarried, ?_, hmem⟩
      rw [← hran]
      exact List.append_assoc s.current.ran [r] todo
    leading := iff_of_true h.leading_of_held (by simp)
    absent := h.absent_put h.mem_arrivals_of_held (by simp)
    asleep := fun d hd hwake => (h.not_awake hd hwake).elim
    quiet := h.quiet_put rfl rfl rfl
    lock := h.lock_of_locked rfl
    units := by
      intro u hu
      rcases List.mem_cons.mp hu with rfl | hu
      · obtain ⟨-, hcarried, hran, -⟩ := h.fits
        refine ⟨?_, (h.units s.current List.mem_cons_self).2⟩
        show s.current.ran ++ [r] <+: s.current.carried
        rw [hcarried, ← hran]
        exact ⟨todo, List.append_assoc ..⟩
      · exact h.units u (List.mem_cons_of_mem _ hu)
    outcome := by
      intro d hd
      show (Function.update s.outcome r (some result) d).isSome
      by_cases hdr : d = r
      · rw [hdr, Function.update_self]
        rfl
      · rw [Function.update_of_ne hdr]
        refine h.outcome d (hd.imp_right fun hran => ?_)
        rcases List.mem_append.mp hran with hran | hran
        · exact hran
        · exact absurd (List.mem_singleton.mp hran) hdr }

/-- A unit of work ends: what it carried is to be marked. -/
theorem ends (h : Inv s (.held c stage)) (hl : stage.locked = true)
    (hun : (Baton.held c stage).unmarked = []) (hw : (Baton.held c stage).waking = none)
    {u : WorkUnit κ} {queue : List κ} {outcome : κ → Option (Except ε α)}
    (hsplit : s.current.carried ++ s.queue = u.carried ++ queue)
    (hunit : u.ran <+: u.carried ∧ u.carried.length ≤ batchLimit) (hc : c ∈ u.carried)
    (hkeep : ∀ d, (s.outcome d).isSome → (outcome d).isSome)
    (hall : ∀ d ∈ u.carried, (outcome d).isSome) :
    Inv ({ s with queue := queue, outcome := outcome, ended := s.ended ++ [u], current := {} }.put c
      (.leads (.marking u.carried))) (.held c (.marking u.carried)) := by
  have hended : carriedBy (s.ended ++ [u]) = carriedBy s.ended ++ u.carried := by
    simp [carriedBy]
  have horder : s.arrivals = carriedBy s.ended ++ u.carried ++ queue := by
    rw [h.order, List.append_assoc, hsplit, List.append_assoc]
  exact { h with
    fits := ⟨Function.update_self .., rfl, Or.inr hc⟩
    leading := iff_of_true h.leading_of_held (by simp)
    order := by
      show s.arrivals = carriedBy (s.ended ++ [u]) ++ [] ++ queue
      rw [hended, List.append_nil, horder]
    absent := h.absent_put h.mem_arrivals_of_held (by simp)
    settled := by
      intro d hd
      show s.settled d = false ↔ d ∈ u.carried ∨ d ∈ [] ∨ d ∈ queue
      have hmem : d ∈ s.current.carried ++ s.queue ↔ d ∈ u.carried ++ queue := by rw [hsplit]
      rw [List.mem_append, List.mem_append] at hmem
      rw [h.settled d hd, hun, hmem]
      simp only [List.not_mem_nil, false_or]
    unmarked := by
      refine ⟨?_, fun d hd => ?_⟩
      · have hnodup := h.nodup
        rw [horder, List.nodup_append, List.nodup_append] at hnodup
        exact hnodup.1.2.1
      · show d ∈ carriedBy (s.ended ++ [u])
        rw [hended]
        exact List.mem_append_right _ hd
    asleep := fun d hd hwake => (h.not_awake hd hwake).elim
    quiet := h.quiet_put rfl rfl hw
    lock := h.lock_of_locked (by rw [hl]; rfl)
    units := by
      intro v hv
      rcases List.mem_cons.mp hv with rfl | hv
      · exact ⟨List.nil_prefix, Nat.zero_le _⟩
      · rcases List.mem_append.mp hv with hv | hv
        · exact h.units v (List.mem_cons_of_mem _ hv)
        · rw [List.mem_singleton.mp hv]
          exact hunit
    outcome := by
      intro d hd
      rcases hd with hd | hd
      · replace hd : d ∈ carriedBy (s.ended ++ [u]) := hd
        rw [hended, List.mem_append] at hd
        exact hd.elim (fun hd => hkeep d (h.outcome d (Or.inl hd))) (hall d)
      · cases hd }

/-- A unit of work commits. -/
theorem commits {batch : List κ} (h : Inv s (.held c (.committing batch))) :
    Inv (s.commit c batch) (.held c (.marking batch)) := by
  obtain ⟨-, hcurrent, hmem⟩ := h.fits
  have hcarried : s.current.carried = batch := by rw [hcurrent]
  have hran : s.current.ran = batch := by rw [hcurrent]
  have hends := h.ends rfl rfl rfl (show s.current.carried ++ s.queue = _ from rfl)
    (h.units s.current List.mem_cons_self) (by rw [hcarried]; exact hmem) (fun d => id)
    (fun d hd => h.outcome d (Or.inr (by rw [hran, ← hcarried]; exact hd)))
  rw [hcarried] at hends
  exact hends

/-- A unit of work fails, whatever it has run. -/
theorem fails (h : Inv s (.held c stage)) (hl : stage.locked = true)
    (hun : (Baton.held c stage).unmarked = []) (hw : (Baton.held c stage).waking = none)
    {batch : List κ} (ran : List κ) (hcarried : s.current.carried = batch)
    (hmem : (batch = [] ∧ s.queue.head? = some c) ∨ c ∈ batch) (hran : ran <+: batch) (exc : ε) :
    Inv ({ s with current := { s.current with ran := ran } }.fail c batch exc)
      (.held c (.marking (s.failing batch))) := by
  have houtcome : ∀ carried : List κ, (∀ d, (s.outcome d).isSome →
      (if d ∈ carried then some (State.failed exc (s.outcome d)) else s.outcome d).isSome) ∧
      ∀ d ∈ carried, (if d ∈ carried then some (State.failed exc (s.outcome d))
        else s.outcome d).isSome := by
    intro carried
    refine ⟨fun d hd => ?_, fun d hd => by rw [if_pos hd]; rfl⟩
    split_ifs
    · rfl
    · exact hd
  refine h.ends (u := ⟨s.failing batch, ran⟩) hl hun hw ?_ ?_ ?_ (houtcome _).1 (houtcome _).2
  · rw [hcarried, State.failing]
    split_ifs with hnone
    · rw [hnone, List.nil_append, List.take_append_drop]
    · rfl
  · rw [State.failing]
    split_ifs with hnone
    · subst hnone
      rw [List.prefix_nil.mp hran]
      exact ⟨List.nil_prefix, List.length_take_le ..⟩
    · exact ⟨hran, hcarried ▸ (h.units s.current List.mem_cons_self).2⟩
  · rw [State.failing]
    rcases hmem with ⟨hnone, hhead⟩ | hmem
    · rw [if_pos hnone]
      match hq : s.queue with
      | [] => simp [hq] at hhead
      | d :: rest =>
        rw [hq] at hhead
        cases hhead
        simp [batchLimit]
    · rw [if_neg (List.ne_nil_of_mem hmem)]
      exact hmem

/-- A request is marked as settled. -/
theorem marks {r : κ} {todo : List κ} (h : Inv s (.held c (.marking (r :: todo)))) :
    Inv ({ s with settled := Function.update s.settled r true }.put c (.leads (.waking r todo)))
      (.held c (.waking r todo)) := by
  obtain ⟨-, hcurrent, hself⟩ := h.fits
  have hnodup : (r :: todo).Nodup := h.unmarked.1
  have hended := h.unmarked.2 r List.mem_cons_self
  have hr : r ∈ s.arrivals := by
    rw [h.order]
    exact List.mem_append_left _ (List.mem_append_left _ hended)
  have hunsettled : s.settled r = false := (h.settled r hr).mpr (Or.inl List.mem_cons_self)
  have hqueue : r ∉ s.queue := by
    have hall := h.nodup
    rw [h.order, List.nodup_append] at hall
    exact fun hq => hall.2.2 r (List.mem_append_left _ hended) r hq rfl
  exact { h with
    fits := by
      refine ⟨Function.update_self .., hcurrent, ?_, Function.update_self ..,
        Bool.eq_false_iff.mpr fun hw => h.not_awake hunsettled hw⟩
      by_cases hcr : c = r
      · exact Or.inl (by rw [hcr]; exact Function.update_self ..)
      · refine hself.imp (fun hs => ?_) fun hm => (List.mem_cons.mp hm).resolve_left hcr
        show Function.update s.settled r true c = true
        rw [Function.update_of_ne hcr, hs]
    leading := iff_of_true h.leading_of_held (by simp)
    absent := h.absent_put h.mem_arrivals_of_held (by simp)
    fresh := by
      intro d hd
      show Function.update s.settled r true d = false
      have hdr : d ≠ r := by
        rintro rfl
        exact hd hr
      rw [Function.update_of_ne hdr]
      exact h.fresh d hd
    settled := by
      intro d hd
      show Function.update s.settled r true d = false ↔
        d ∈ todo ∨ d ∈ s.current.carried ∨ d ∈ s.queue
      by_cases hdr : d = r
      · subst hdr
        rw [Function.update_self, hcurrent]
        have := (List.nodup_cons.mp hnodup).1
        simp [this, hqueue]
      · rw [Function.update_of_ne hdr, h.settled d hd]
        simp [Baton.unmarked, hdr]
    unmarked := ⟨(List.nodup_cons.mp hnodup).2, fun d hd =>
      h.unmarked.2 d (List.mem_cons_of_mem _ hd)⟩
    asleep := by
      intro d hd hwake
      replace hd : Function.update s.settled r true d = false := hd
      have hdr : d ≠ r := by
        rintro rfl
        rw [Function.update_self] at hd
        cases hd
      rw [Function.update_of_ne hdr] at hd
      exact (h.not_awake hd hwake).elim
    quiet := by
      intro d hd
      have hdc : d ≠ c := fun heq => hd heq.symm
      have hquiet := h.quiet d fun heq : c = d => hdc heq.symm
      show Quiet _ d (Function.update s.settled r true d) (s.wake d) (Function.update s.phase c _ d)
      rw [Function.update_of_ne hdc]
      by_cases hdr : d = r
      · subst hdr
        rw [Function.update_self]
        match hp : s.phase d with
        | .absent => trivial
        | .waiting => exact fun _ => Or.inr rfl
        | .woken | .leaving | .returned => rfl
        | .leads _ =>
          rw [hp] at hquiet
          exact hquiet.elim
      · rw [Function.update_of_ne hdr]
        match hp : s.phase d with
        | .waiting =>
          rw [hp] at hquiet
          exact fun hs => (hquiet hs).imp_right fun hwake => by cases hwake
        | .absent | .woken | .leaving | .returned | .leads _ =>
          rw [hp] at hquiet
          exact hquiet
    lock := h.lock_of_locked rfl }

/-- The caller of a request that is settled is woken. -/
theorem wakes {r : κ} {todo : List κ} (h : Inv s (.held c (.waking r todo))) :
    Inv ({ s with wake := Function.update s.wake r true }.put c (.leads (.marking todo)))
      (.held c (.marking todo)) := by
  obtain ⟨-, hcurrent, hself, hr, -⟩ := h.fits
  exact { h with
    fits := ⟨Function.update_self .., hcurrent, hself⟩
    leading := iff_of_true h.leading_of_held (by simp)
    absent := h.absent_put h.mem_arrivals_of_held (by simp)
    asleep := by
      intro d hd hwake
      replace hd : s.settled d = false := hd
      replace hwake : Function.update s.wake r true d = true := hwake
      have hdr : d ≠ r := by
        rintro rfl
        rw [hr] at hd
        cases hd
      rw [Function.update_of_ne hdr] at hwake
      exact (h.not_awake hd hwake).elim
    quiet := by
      intro d hd
      have hdc : d ≠ c := fun heq => hd heq.symm
      have hquiet := h.quiet d fun heq : c = d => hdc heq.symm
      show Quiet _ d (s.settled d) (Function.update s.wake r true d) (Function.update s.phase c _ d)
      rw [Function.update_of_ne hdc]
      match hp : s.phase d with
      | .waiting =>
        rw [hp] at hquiet
        intro hs
        refine Or.inl ?_
        by_cases hdr : d = r
        · rw [hdr, Function.update_self]
        · rw [Function.update_of_ne hdr]
          exact (hquiet hs).resolve_right fun hwake => hdr (Option.some.inj hwake).symm
      | .absent | .woken | .leaving | .returned | .leads _ =>
        rw [hp] at hquiet
        exact hquiet
    lock := h.lock_of_locked rfl }

/-- The lead is to be handed to the oldest caller still queued. -/
theorem picks {t : κ} (h : Inv s (.held c .handing)) (ht : s.queue.head? = some t) :
    Inv ({ s with leading := true }.put c (.leads (.releasing t))) (.held c (.releasing t)) :=
  { h with
    fits := ⟨Function.update_self .., h.fits.2.1, h.fits.2.2, ht⟩
    leading := iff_of_true rfl (by simp)
    absent := h.absent_put h.mem_arrivals_of_held (by simp)
    asleep := fun d hd hwake => (h.not_awake hd hwake).elim
    quiet := h.quiet_put rfl rfl rfl
    lock := h.lock_of_locked rfl }

/-- A caller without the baton, or that gives it up, is where it may be. -/
theorem quiet_given {b' : Baton κ} {wake : κ → Bool} (h : Inv s b) (hw : b.waking = none)
    (hhas : ∀ d, b.Has d → d = c ∨ b'.Has d) (hp : Quiet b' c (s.settled c) (wake c) p)
    (hwake : ∀ d, d ≠ c → ¬b'.Has d → s.wake d = true → wake d = true) (d : κ)
    (hd : ¬b'.Has d) :
    Quiet b' d (s.settled d) (wake d) (Function.update s.phase c p d) := by
  by_cases hdc : d = c
  · subst hdc
    rw [Function.update_self]
    exact hp
  · have hquiet := h.quiet d fun hb => (hhas d hb).elim hdc hd
    rw [Function.update_of_ne hdc]
    match hq : s.phase d with
    | .waiting =>
      rw [hq] at hquiet
      refine fun hs => Or.inl (hwake d hdc hd ?_)
      exact (hquiet hs).resolve_right fun hwaking => by rw [hw] at hwaking; cases hwaking
    | .absent | .woken | .leaving | .returned | .leads _ =>
      rw [hq] at hquiet
      exact hquiet

/-- Nobody is queued, and nobody leads. -/
theorem vacates (h : Inv s (.held c .handing)) (hq : s.queue.head? = none) :
    Inv ({ s with leading := false }.put c .leaving) .free :=
  { h with
    fits := ⟨List.head?_eq_none_iff.mp hq, h.fits.2.1⟩
    leading := by simp [State.put]
    absent := h.absent_put h.mem_arrivals_of_held (by simp)
    asleep := fun d hd hwake => (h.not_awake hd hwake).elim
    quiet := h.quiet_given rfl (fun d hd => Or.inl hd.symm) h.fits.2.2 fun _ _ _ => id
    lock := h.lock_of_unlocked (by rintro d st ⟨⟩; rfl) (by rintro d st ⟨⟩) }

/-- The lead is handed over. -/
theorem hands {t : κ} (h : Inv s (.held c (.releasing t))) :
    Inv ({ s with wake := Function.update s.wake t true }.put c .leaving) (.left t) := by
  obtain ⟨-, hcurrent, hsettled, ht⟩ := h.fits
  have htq := mem_queue_of_head ht
  have hunsettled := h.unsettled_of_queue htq
  have htc : t ≠ c := by
    rintro rfl
    rw [hsettled] at hunsettled
    cases hunsettled
  have hwaits : s.phase t = .waiting :=
    (h.waiting_of_unsettled (h.mem_arrivals_of_queue htq) hunsettled).resolve_left
      fun heq : c = t => htc heq.symm
  exact { h with
    fits := by
      refine ⟨ht, hcurrent, Or.inl ⟨?_, Function.update_self ..⟩⟩
      show Function.update s.phase c _ t = _
      rw [Function.update_of_ne htc, hwaits]
    leading := iff_of_true h.leading_of_held (by simp)
    absent := h.absent_put h.mem_arrivals_of_held (by simp)
    asleep := by
      intro d hd hwake
      replace hwake : Function.update s.wake t true d = true := hwake
      by_cases hdt : d = t
      · subst hdt
        refine ⟨rfl, ?_⟩
        show Function.update s.phase c _ d = _
        rw [Function.update_of_ne htc, hwaits]
      · rw [Function.update_of_ne hdt] at hwake
        exact (h.not_awake hd hwake).elim
    quiet := by
      refine h.quiet_given rfl (fun d hd => Or.inl hd.symm) hsettled fun d _ hd hwake => ?_
      show Function.update s.wake t true d = true
      rw [Function.update_of_ne fun hdt => hd hdt.symm]
      exact hwake
    lock := h.lock_of_unlocked (by rintro d st ⟨⟩; rfl) (by rintro d st ⟨⟩) }

/-! ### Moves of the others -/

/-- A caller whose request is settled goes on. -/
theorem passes {wake : κ → Bool} (h : Inv s b) (hc : ¬b.Has c) (hs : s.settled c = true)
    (hin : c ∈ s.arrivals) (hp : p = .woken ∨ p = .returned)
    (hother : ∀ d, d ≠ c → wake d = s.wake d) (hself : wake c = true → s.wake c = true) :
    Inv ({ s with wake := wake }.put c p) b := by
  have hless : ∀ d, s.wake d = false → wake d = false := by
    intro d hd
    by_cases hdc : d = c
    · rw [hdc] at hd ⊢
      exact Bool.eq_false_iff.mpr fun hw => by rw [hself hw] at hd; cases hd
    · rw [hother d hdc, hd]
  exact { h with
    fits := by
      have hfits := h.fits
      match b with
      | .free => exact hfits
      | .left d =>
        have hdc : d ≠ c := hc
        refine ⟨hfits.1, hfits.2.1, ?_⟩
        show Function.update s.phase c p d = _ ∧ wake d = true ∨ Function.update s.phase c p d = _
        rw [Function.update_of_ne hdc, hother d hdc]
        exact hfits.2.2
      | .held d st =>
        have hdc : d ≠ c := hc
        refine ⟨(Function.update_of_ne hdc ..).trans hfits.1, ?_⟩
        match st with
        | .waking r todo =>
          obtain ⟨-, hcurrent, hd, hr, hw⟩ := hfits
          exact ⟨hcurrent, hd, hr, hless r hw⟩
        | .locking | .testing | .starting | .collecting _ | .running _ _ | .committing _
        | .marking _ | .handing | .releasing _ => exact hfits.2
    absent := h.absent_put hin (by rcases hp with rfl | rfl <;> simp)
    asleep := by
      intro d hd hw
      replace hd : s.settled d = false := hd
      replace hw : wake d = true := hw
      have hdc : d ≠ c := by
        rintro rfl
        rw [hs] at hd
        cases hd
      rw [hother d hdc] at hw
      refine ⟨(h.asleep d hd hw).1, ?_⟩
      show Function.update s.phase c p d = _
      rw [Function.update_of_ne hdc, (h.asleep d hd hw).2]
    quiet := by
      intro d hd
      show Quiet b d (s.settled d) (wake d) (Function.update s.phase c p d)
      by_cases hdc : d = c
      · subst hdc
        rw [Function.update_self]
        rcases hp with rfl | rfl <;> exact hs
      · rw [Function.update_of_ne hdc, hother d hdc]
        exact h.quiet d hd }

/-- A caller to which the lead was handed has its own lock. -/
theorem rises (h : Inv s (.left c)) :
    Inv ({ s with wake := Function.update s.wake c false }.put c .woken) (.left c) :=
  { h with
    fits := ⟨h.fits.1, h.fits.2.1, Or.inr (Function.update_self ..)⟩
    absent := h.absent_put (h.mem_arrivals_of_queue (mem_queue_of_head h.fits.1)) (by simp)
    asleep := by
      intro d hd hw
      replace hw : Function.update s.wake c false d = true := hw
      by_cases hdc : d = c
      · rw [hdc, Function.update_self] at hw
        cases hw
      · rw [Function.update_of_ne hdc] at hw
        cases (h.asleep d hd hw).1
        exact absurd rfl hdc
    quiet := by
      intro d hd
      have hdc : d ≠ c := fun heq => hd heq.symm
      show Quiet _ d (s.settled d) (Function.update s.wake c false d)
        (Function.update s.phase c _ d)
      rw [Function.update_of_ne hdc, Function.update_of_ne hdc]
      exact h.quiet d hd }

/-- A caller to which the lead was handed takes it up. -/
theorem leads (h : Inv s (.left c)) (hc : s.phase c = .woken) :
    Inv (s.put c (.leads .locking)) (.held c .locking) :=
  { h with
    fits := ⟨Function.update_self .., h.fits.1, h.fits.2.1⟩
    leading := iff_of_true (h.leading.mpr (by simp)) (by simp)
    absent := h.absent_put (h.mem_arrivals_of_queue (mem_queue_of_head h.fits.1)) (by simp)
    asleep := by
      intro d hd hw
      obtain ⟨hleft, hwaits⟩ := h.asleep d hd hw
      cases hleft
      rw [hc] at hwaits
      cases hwaits
    quiet := h.quiet_put rfl rfl rfl
    lock := h.lock_of_unlocked (by rintro d st ⟨⟩) (by rintro d st ⟨⟩; rfl) }

/-- The one that has the baton keeps it while others come. -/
theorem fits_arrive (h : Fits s b) (hb : b ≠ .free) (hc : ¬b.Has c) : Fits (s.arrive c) b := by
  match b with
  | .free => exact absurd rfl hb
  | .left d =>
    refine ⟨head_append h.1, h.2.1, ?_⟩
    show Function.update s.phase c _ d = _ ∧ s.wake d = true ∨ Function.update s.phase c _ d = _
    rw [Function.update_of_ne (show d ≠ c from hc)]
    exact h.2.2
  | .held d st =>
    refine ⟨(Function.update_of_ne (show d ≠ c from hc) ..).trans h.1, ?_⟩
    match st with
    | .locking | .starting => exact ⟨head_append h.2.1, h.2.2⟩
    | .testing => exact ⟨h.2.1.imp_left head_append, h.2.2⟩
    | .collecting batch =>
      exact ⟨h.2.1, h.2.2.imp_left fun hhead => ⟨hhead.1, head_append hhead.2⟩⟩
    | .releasing t => exact ⟨h.2.1, h.2.2.1, head_append h.2.2.2⟩
    | .running _ _ | .committing _ | .marking _ | .waking _ _ | .handing => exact h.2

/-- A caller that queues its request. -/
theorem joins {b' : Baton κ} (h : Inv s b) (hc : s.phase c = .absent)
    (hfits : Fits (s.arrive c) b') (hfree : b' ≠ .free) (hunmarked : b'.unmarked = b.unmarked)
    (hleft : ∀ d, b = .left d → b' = .left d) (hhas : ∀ d, b.Has d → b'.Has d)
    (hwaking : b'.waking = b.waking) (hown : ¬b'.Has c → s.leading = true)
    (hlock : ∀ d, s.lock = some (.caller d) ↔ ∃ st, b' = .held d st ∧ st.locked = true) :
    Inv (s.arrive c) b' := by
  have hnot := (h.absent c).mp hc
  have hun := h.fresh c hnot
  have hcarried : c ∉ s.current.carried ∧ c ∉ s.queue ∧ c ∉ carriedBy s.ended := by
    rw [h.order, List.mem_append, List.mem_append] at hnot
    tauto
  exact { h with
    fits := hfits
    leading := iff_of_true rfl hfree
    order := by
      show s.arrivals ++ [c] = carriedBy s.ended ++ s.current.carried ++ (s.queue ++ [c])
      rw [h.order, List.append_assoc]
    nodup := List.nodup_append.mpr ⟨h.nodup, List.nodup_singleton c, fun d hd e he => by
      rw [List.mem_singleton.mp he]
      rintro rfl
      exact hnot hd⟩
    absent := by
      intro d
      show Function.update s.phase c _ d = .absent ↔ d ∉ s.arrivals ++ [c]
      by_cases hdc : d = c
      · subst hdc
        rw [Function.update_self]
        split_ifs <;> simp
      · rw [Function.update_of_ne hdc, h.absent d]
        simp [hdc]
    fresh := fun d hd => h.fresh d fun hin => hd (List.mem_append_left _ hin)
    settled := by
      intro d hd
      show s.settled d = false ↔ d ∈ b'.unmarked ∨ d ∈ s.current.carried ∨ d ∈ s.queue ++ [c]
      rw [hunmarked]
      by_cases hdc : d = c
      · subst hdc
        exact iff_of_true hun (by simp)
      · have hin : d ∈ s.arrivals := (List.mem_append.mp hd).resolve_right (by simpa using hdc)
        rw [h.settled d hin]
        simp [hdc]
    unmarked := by rw [hunmarked]; exact h.unmarked
    asleep := by
      intro d hd hw
      obtain ⟨hb, hp⟩ := h.asleep d hd hw
      refine ⟨hleft d hb, ?_⟩
      have hdc : d ≠ c := by
        rintro rfl
        rw [hc] at hp
        cases hp
      exact (Function.update_of_ne hdc ..).trans hp
    quiet := by
      intro d hd
      show Quiet b' d (s.settled d) (s.wake d) (Function.update s.phase c _ d)
      by_cases hdc : d = c
      · subst hdc
        rw [Function.update_self, if_pos (hown hd), hun]
        exact fun hs => by cases hs
      · have hquiet := h.quiet d fun hb => hd (hhas d hb)
        rw [Function.update_of_ne hdc]
        match hp : s.phase d with
        | .waiting =>
          rw [hp] at hquiet
          rw [Quiet, hwaking]
          exact hquiet
        | .absent | .woken | .leaving | .returned | .leads _ =>
          rw [hp] at hquiet
          exact hquiet
    lock := hlock }

/-- The baton is not given to a caller that comes while another has it. -/
theorem arrives_later (h : Inv s b) (hc : s.phase c = .absent) (hb : b ≠ .free) :
    Inv (s.arrive c) b :=
  h.joins hc (fits_arrive h.fits hb (h.not_has_of_absent hc)) hb rfl (fun _ => id) (fun _ => id)
    rfl (fun _ => h.leading.mpr hb) h.lock

/-- The first caller leads. -/
theorem arrives_first (h : Inv s .free) (hc : s.phase c = .absent) :
    Inv (s.arrive c) (.held c .locking) := by
  obtain ⟨hqueue, hcurrent⟩ := h.fits
  have hleading : s.leading = false := by
    have := h.leading
    simpa using this
  refine h.joins hc ⟨?_, ?_, hcurrent⟩ (by simp) rfl (by simp) (fun _ => False.elim) rfl
    (fun hnot => absurd rfl hnot)
    (h.lock_of_unlocked (by rintro d st ⟨⟩) (by rintro d st ⟨⟩; rfl))
  · show Function.update s.phase c _ c = _
    rw [Function.update_self, hleading]
    rfl
  · show (s.queue ++ [c]).head? = some c
    rw [hqueue]
    rfl

/-! ### Every step -/

/-- Every step of the caller that leads keeps the invariant. -/
theorem lead (h : Inv s (.held c stage)) {n : Nature α ε} (hs : s.lead c n stage = some s') :
    ∃ b', Inv s' b' := by
  match stage with
  | .locking =>
    rw [State.lead] at hs
    split_ifs at hs
    exact ⟨_, Option.some.inj hs ▸ h.locks⟩
  | .testing =>
    rw [State.lead] at hs
    split_ifs at hs with hsettled
    · exact ⟨_, Option.some.inj hs ▸ h.unlocks hsettled⟩
    · exact ⟨.held c .starting, Option.some.inj hs ▸
        h.goOn rfl rfl rfl ⟨h.fits.2.1.resolve_right hsettled, h.fits.2.2⟩⟩
  | .starting =>
    obtain ⟨-, hhead, hcurrent⟩ := h.fits
    have hfail := fun exc => h.fails rfl rfl rfl s.current.ran
      (show s.current.carried = [] by rw [hcurrent]) (Or.inl ⟨rfl, hhead⟩) (by rw [hcurrent]) exc
    match n with
    | .proceeds _ =>
      exact ⟨.held c (.collecting []), Option.some.inj hs ▸
        h.goOn rfl rfl rfl ⟨hcurrent, Or.inl ⟨rfl, hhead⟩⟩⟩
    | .fails exc | .interrupts exc => exact ⟨_, Option.some.inj hs ▸ hfail exc⟩
  | .collecting batch => exact Option.some.inj hs ▸ h.takes
  | .running batch [] =>
    obtain ⟨-, hcarried, hran, hmem⟩ := h.fits
    rw [List.append_nil] at hran
    refine ⟨.held c (.collecting batch), Option.some.inj hs ▸
      h.goOn rfl rfl rfl ⟨?_, Or.inr hmem⟩⟩
    calc s.current = ⟨s.current.carried, s.current.ran⟩ := rfl
      _ = ⟨batch, batch⟩ := by rw [hcarried, hran]
  | .running batch (r :: todo) =>
    obtain ⟨-, hcarried, hran, hmem⟩ := h.fits
    match n with
    | .proceeds result => exact ⟨_, Option.some.inj hs ▸ h.runs result⟩
    | .fails exc =>
      exact ⟨_, Option.some.inj hs ▸ h.fails rfl rfl rfl s.current.ran hcarried
        (Or.inr hmem) ⟨r :: todo, hran⟩ exc⟩
    | .interrupts exc =>
      have hmore : s.current.ran ++ [r] <+: batch :=
        ⟨todo, (List.append_assoc ..).trans hran⟩
      exact ⟨_, Option.some.inj hs ▸ h.fails rfl rfl rfl _ hcarried (Or.inr hmem) hmore exc⟩
  | .committing batch =>
    obtain ⟨-, hcurrent, hmem⟩ := h.fits
    have hfail := fun exc => h.fails rfl rfl rfl s.current.ran
      (show s.current.carried = batch by rw [hcurrent]) (Or.inr hmem) (by rw [hcurrent]) exc
    match n with
    | .proceeds _ => exact ⟨_, Option.some.inj hs ▸ h.commits⟩
    | .fails exc | .interrupts exc => exact ⟨_, Option.some.inj hs ▸ hfail exc⟩
  | .marking [] =>
    exact ⟨.held c .testing, Option.some.inj hs ▸ h.goOn rfl rfl rfl
      ⟨h.fits.2.2.elim Or.inr (fun hnil => by cases hnil), h.fits.2.1⟩⟩
  | .marking (r :: todo) => exact ⟨_, Option.some.inj hs ▸ h.marks⟩
  | .waking r todo => exact ⟨_, Option.some.inj hs ▸ h.wakes⟩
  | .handing =>
    rw [State.lead] at hs
    match hhead : s.queue.head? with
    | none =>
      rw [hhead] at hs
      exact ⟨_, Option.some.inj hs ▸ h.vacates hhead⟩
    | some t =>
      rw [hhead] at hs
      exact ⟨_, Option.some.inj hs ▸ h.picks hhead⟩
  | .releasing t => exact ⟨_, Option.some.inj hs ▸ h.hands⟩

/-- A caller that has not the baton leaves it where it is, and the queue as it is. -/
theorem aside (h : Inv s b) (hc : ¬b.Has c) {n : Nature α ε} (hs : s.turn c n = some s') :
    ∃ wake p, s' = { s with wake := wake }.put c p ∧ (∀ d, d ≠ c → wake d = s.wake d) ∧
      (s.phase c = .waiting ∧ s.wake c = true ∧ p = .woken ∨
        (s.phase c = .woken ∨ s.phase c = .leaving) ∧ p = .returned) ∧ Inv s' b := by
  have hquiet := h.quiet c hc
  have harrived := h.mem_arrivals_of_phase (c := c)
  rw [State.turn] at hs
  match hp : s.phase c with
  | .absent | .returned =>
    rw [hp] at hs
    cases hs
  | .waiting =>
    simp only [hp] at hs
    split_ifs at hs with hw
    have hsettled : s.settled c = true := by
      by_contra hun
      obtain rfl := (h.asleep c (Bool.eq_false_iff.mpr hun) hw).1
      exact hc rfl
    have hother : ∀ d, d ≠ c → Function.update s.wake c false d = s.wake d :=
      fun d hd => Function.update_of_ne hd ..
    refine ⟨_, _, (Option.some.inj hs).symm, hother, Or.inl ⟨rfl, hw, rfl⟩, Option.some.inj hs ▸
      h.passes hc hsettled (harrived (by simp [hp])) (Or.inl rfl) hother ?_⟩
    rw [Function.update_self]
    exact fun hfalse => by cases hfalse
  | .woken =>
    rw [hp] at hquiet
    simp only [hp, show s.settled c = true from hquiet, if_true] at hs
    exact ⟨s.wake, _, (Option.some.inj hs).symm, fun _ _ => rfl, Or.inr ⟨Or.inl rfl, rfl⟩,
      Option.some.inj hs ▸ h.passes hc hquiet (harrived (by simp [hp])) (Or.inr rfl)
        (fun _ _ => rfl) id⟩
  | .leads st =>
    rw [hp] at hquiet
    exact hquiet.elim
  | .leaving =>
    rw [hp] at hquiet
    simp only [hp] at hs
    exact ⟨s.wake, _, (Option.some.inj hs).symm, fun _ _ => rfl, Or.inr ⟨Or.inr rfl, rfl⟩,
      Option.some.inj hs ▸ h.passes hc hquiet (harrived (by simp [hp])) (Or.inr rfl)
        (fun _ _ => rfl) id⟩

/-- A caller to which the lead was handed comes to take it up. -/
theorem turn_left (h : Inv s (.left c)) {n : Nature α ε} (hs : s.turn c n = some s') :
    (s.phase c = .waiting ∧ s' = { s with wake := Function.update s.wake c false }.put c .woken ∧
      Inv s' (.left c)) ∨
    (s.phase c = .woken ∧ s' = s.put c (.leads .locking) ∧ Inv s' (.held c .locking)) := by
  rw [State.turn] at hs
  rcases h.fits.2.2 with ⟨hp, hw⟩ | hp
  · simp only [hp, hw, if_true, Option.some.injEq] at hs
    subst hs
    exact Or.inl ⟨hp, rfl, h.rises⟩
  · have hun := h.unsettled_of_queue (mem_queue_of_head h.fits.1)
    simp only [hp, hun, Bool.false_eq_true, if_false, Option.some.injEq] at hs
    subst hs
    exact Or.inr ⟨hp, rfl, h.leads hp⟩

theorem turn_held (h : Inv s (.held c stage)) (n : Nature α ε) : s.turn c n = s.lead c n stage := by
  simp only [State.turn, h.fits.1]

/-- Every step of a caller keeps the invariant. -/
theorem turn (h : Inv s b) {n : Nature α ε} (hs : s.turn c n = some s') : ∃ b', Inv s' b' := by
  by_cases hc : b.Has c
  · match b with
    | .left d =>
      obtain rfl : d = c := hc
      rcases h.turn_left hs with ⟨-, -, hinv⟩ | ⟨-, -, hinv⟩
      · exact ⟨_, hinv⟩
      · exact ⟨_, hinv⟩
    | .held d st =>
      obtain rfl : d = c := hc
      rw [h.turn_held] at hs
      exact h.lead hs
  · obtain ⟨-, -, -, -, -, hinv⟩ := h.aside hc hs
    exact ⟨b, hinv⟩

/-- Every step keeps the invariant. -/
theorem step {a : Actor κ} (h : Inv s b) (hs : Step s a s') : ∃ b', Inv s' b' := by
  cases hs with
  | arrive hc =>
    by_cases hb : b = .free
    · subst hb
      exact ⟨_, h.arrives_first hc⟩
    · exact ⟨b, h.arrives_later hc hb⟩
  | turn hturn => exact h.turn hturn
  | lock hnone => exact ⟨b, h.outside _ (by simp [hnone])⟩
  | unlock hout => exact ⟨b, h.outside _ (by simp [hout])⟩

end Inv

/-- The invariant holds of every state that is reached. -/
theorem Reached.inv [DecidableEq κ] {s : State κ α ε} (h : Reached s) : ∃ b, Inv s b := by
  induction h with
  | start => exact ⟨.free, Inv.start⟩
  | step _ hs ih =>
    obtain ⟨b, hb⟩ := ih
    exact hb.step hs

end AgentGov.Handover
