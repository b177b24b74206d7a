import AgentGov.Latches

/-!
# Errands

A governor over a store that holds settlement claims is asked to redeem them too, on its own or in
a block, between the calls, batches and blocks it is asked for anyway. What a block does that
raises is undone, redemptions and all.

## Main definitions

* `AgentGov.Task`: a call, or a redemption.
* `AgentGov.Errand`, `AgentGov.Governor.attend`: what a governor is asked for at once, and what it
  leaves.
* `AgentGov.Governor.deeds`, `AgentGov.Governor.lasting`: the tasks of errands, and those whose
  work stands.

## Main results

* `AgentGov.Governor.attend_leads`: what an errand comes to.
* `AgentGov.Governor.Upholds.attend`: what every unit of work keeps, an errand keeps.
* `AgentGov.Governor.lasting_wrote`: who wrote an entry of the chain.
-/

open Foundation

namespace AgentGov

variable {w : World} {unit : Unit} {c c₀ : Chain} {e : LedgerEntry}

/-- What a governor over a store that holds claims does: a call, or the redemption of the claims
pending in the store. -/
inductive Task
  | call (m : Mutation)
  | redeem (pending : List SettlementClaim) (claim : Option SettlementClaim)

namespace Task

/-- What was raised, if anything, and the governor left. -/
def raised {α : Type} (r : Except Exception α × Governor) : Option Exception × Governor :=
  (match r.1 with
    | .ok _ => none
    | .error e => some e, r.2)

/-- What a task raises, if anything, and the governor it leaves. -/
def perform (w : World) (g : Governor) : Task → Option Exception × Governor
  | call m => raised (g.perform w m)
  | redeem pending claim => raised ((Op.redeem pending claim).run (Governor.handle w) g)

/-- The governor after each instruction of a task, each unit of work it commits among them. -/
def stages (w : World) (g : Governor) : Task → List Governor
  | call m => (Program.steps (Governor.handle w) m.program g).map Prod.snd
  | redeem pending claim =>
    (Program.steps (Governor.handle w) (Op.redeem pending claim) g).map Prod.snd

/-- The scope whose breaker a task resets, if it is a reset. -/
def resets : Task → Option Text
  | call m => m.resets
  | redeem _ _ => none

/-- Whether a task settles what is owed. -/
def settles : Task → Bool
  | call m => m.settles
  | redeem _ _ => true

/-- Whether a task may post an entry of a kind at a scope. -/
def MayPost (t : Task) (kind : EntryType) (scope : Text) : Prop :=
  (kind = .circuitReset → t.resets = some scope) ∧ (kind = .spend → t.settles = true)

end Task

/-- A task, and the governor it is asked of. -/
structure Deed where
  before : Governor
  task : Task

/-- The governor a deed leaves. -/
def Deed.after (w : World) (d : Deed) : Governor := (d.task.perform w d.before).2

/-- The entries a deed writes. -/
def Deed.wrote (w : World) (d : Deed) : List LedgerEntry :=
  (d.after w).ledger.entries.drop d.before.ledger.entries.length

/-- A call, as a deed. -/
def Turn.deed (t : Turn) : Deed := ⟨t.before, .call t.call⟩

/-- What a governor is asked for at once: a task of a caller that holds its lock, what its callers
have queued, or a block of tasks, each with whether the block catches what it raises, and what the
block raises of its own at their end, if anything. -/
inductive Errand
  | alone (t : Task)
  | batch (queue : List (List Mutation))
  | block (tasks : List (Task × Bool)) (raises : Option Exception)

namespace Governor

section Errands

variable (w : World) (g : Governor)

/-- The tasks of a block, up to the one whose exception ends it; and what the block raises. -/
def runTasks : Governor → List (Task × Bool) → Option Exception → Option Exception × Governor
  | g, [], raises => (raises, g)
  | g, (task, caught) :: rest, raises =>
    match task.perform w g with
    | (none, g) => runTasks g rest raises
    | (some e, g) => if caught then runTasks g rest raises else (some e, g)

/-- The deeds of a block, up to the one whose exception ends it. -/
def taskDeeds : Governor → List (Task × Bool) → List Deed
  | _, [] => []
  | g, (task, caught) :: rest =>
    ⟨g, task⟩ ::
      match task.perform w g with
      | (none, g) => taskDeeds g rest
      | (some _, g) => if caught then taskDeeds g rest else []

/-- The governor an errand leaves, if it is one that still serves. -/
def attend : Errand → Except Error Governor
  | .alone t => .ok (t.perform w g).2.leave
  | .batch queue => g.serve w (.batch queue)
  | .block tasks raises =>
    match runTasks w { g with trips := some [] } tasks raises with
    | (none, g') => .ok { g'.leave with trips := none }
    | (some _, g') => do
      let back ← { g'.leave with trips := none }.rollBackUnit g
      .ok (back.retrip w (g'.trips.getD []))

/-- The deeds of an errand. -/
def deeds : Errand → List Deed
  | .alone t => [⟨g, t⟩]
  | .batch queue => (g.turns w (.batch queue)).map Turn.deed
  | .block tasks _ => taskDeeds w { g with trips := some [] } tasks

/-- Whether what the deeds of an errand do stands. -/
def lasts : Errand → Bool
  | .alone _ => true
  | .batch queue => g.stands w (.batch queue)
  | .block tasks raises => (runTasks w { g with trips := some [] } tasks raises).1.isNone

/-- The governor a run of errands leaves. -/
def attendAll : Governor → List Errand → Except Error Governor := List.foldlM (attend w)

/-- The governors after each of the trips written again. -/
def retrips : Governor → List (Text × Text) → List Governor
  | _, [] => []
  | g, trip :: rest =>
    ((Op.trip trip.1 trip.2).run (handle w) g).2.leave ::
      retrips ((Op.trip trip.1 trip.2).run (handle w) g).2.leave rest

/-- The governors after each instruction an errand performs, and after each trip written again
where it is undone: every commit is among them. -/
def commits (errand : Errand) : List Governor :=
  ((g.deeds w errand).flatMap fun d => d.task.stages w d.before) ++
    match errand with
    | .block tasks raises =>
      match runTasks w { g with trips := some [] } tasks raises with
      | (none, _) => []
      | (some _, g') =>
        match { g'.leave with trips := none }.rollBackUnit g with
        | .ok back => back.retrips w (g'.trips.getD [])
        | .error _ => []
    | _ => []

/-- The governors at every commit of a run of errands, and after each of them. -/
def commitsAll : Governor → List Errand → List Governor
  | _, [] => []
  | g, errand :: rest =>
    g.commits w errand ++
      match g.attend w errand with
      | .ok g => g :: commitsAll g rest
      | .error _ => []

/-- The deeds of a run of errands whose work stands. -/
def lasting : Governor → List Errand → List Deed
  | _, [] => []
  | g, errand :: rest =>
    (if g.lasts w errand then g.deeds w errand else []) ++
      match g.attend w errand with
      | .ok g => lasting g rest
      | .error _ => []

end Errands

variable {g g₀ t u : Governor}

/-! ### Tasks -/

theorem redeem_idle (w : World) (g : Governor) (pending : List SettlementClaim)
    (claim : Option SettlementClaim) :
    g.Idle ((Op.redeem pending claim).run (handle w) g).2 :=
  Program.Meets.run (meets_redeem pending claim fun _ _ h => h)

/-- A task goes on from where it began. -/
theorem Onward.task (h : g.Orderly w unit) (task : Task) :
    Onward w unit g (task.perform w g).2 := by
  cases task with
  | call m => exact .perform h m
  | redeem pending claim =>
    have hwithin := h.within.op (Op.redeem pending claim)
    have hidle := redeem_idle w g pending claim
    exact
      { toWithin := hwithin
        kept := fun distinct => (h.op hwithin hidle distinct).2
        adds := fun _ => adds_of_keys hidle.keys }

theorem task_store (w : World) (g : Governor) (task : Task) :
    (task.perform w g).2.store = g.store := by
  cases task with
  | call m => exact perform_store g m
  | redeem pending claim => exact (redeem_idle w g pending claim).store

/-! ### Going on -/

/-- A governor that deeds lead to, one after another. What a unit of work remembers may change
between them. -/
inductive Leads (w : World) : Governor → List Deed → Governor → Prop
  | stay {g t : Governor} (same : g.bare = t.bare) (kept : g.Kept → t.Kept) : Leads w g [] t
  | deed {g u t : Governor} {task : Task} {deeds : List Deed} (same : g.bare = u.bare)
      (kept : g.Kept → u.Kept) (rest : Leads w (task.perform w u).2 deeds t) :
      Leads w g (⟨u, task⟩ :: deeds) t

/-- What calls lead to, their deeds lead to. -/
theorem Goes.leads {turns : List Turn} (h : Goes w g turns t) :
    Leads w g (turns.map Turn.deed) t := by
  induction h with
  | stay same kept => exact .stay same kept
  | turn same kept rest ih => exact .deed same kept ih

namespace Leads

theorem refl (g : Governor) : Leads w g [] g := .stay rfl id

theorem before {deeds : List Deed} (same : g.bare = u.bare) (kept : g.Kept → u.Kept)
    (h : Leads w u deeds t) : Leads w g deeds t := by
  cases h with
  | stay same' kept' => exact .stay (same.trans same') (kept' ∘ kept)
  | deed same' kept' rest => exact .deed (same.trans same') (kept' ∘ kept) rest

theorem after {deeds : List Deed} (h : Leads w g deeds t) (same : t.bare = u.bare)
    (kept : t.Kept → u.Kept) : Leads w g deeds u := by
  induction h with
  | stay same' kept' => exact .stay (same'.trans same) (kept ∘ kept')
  | deed same' kept' rest ih => exact .deed same' kept' (ih same kept)

/-- What deeds lead to goes on from where they began. -/
theorem onward {deeds : List Deed} (h : Leads w g deeds t) (hg : g.Orderly w unit) :
    Onward w unit g t := by
  induction h with
  | stay same kept => exact .same hg same kept
  | deed same kept rest ih =>
    have hu := Onward.same hg same kept
    have hd := Onward.task hu.orderly
    exact (hu.trans (hd _)).trans (ih (hd _).orderly)

theorem store {deeds : List Deed} (h : Leads w g deeds t) : t.store = g.store := by
  induction h with
  | stay same kept => exact (congrArg Governor.store same).symm
  | deed same kept rest ih =>
    exact ih.trans ((task_store _ _ _).trans (congrArg Governor.store same).symm)

end Leads

theorem taskDeeds_leads (g : Governor) (tasks : List (Task × Bool)) (raises : Option Exception) :
    Leads w g (taskDeeds w g tasks) (runTasks w g tasks raises).2 := by
  induction tasks generalizing g with
  | nil => exact .refl g
  | cons p rest ih =>
    obtain ⟨task, caught⟩ := p
    unfold taskDeeds runTasks
    rcases hr : task.perform w g with ⟨_ | e, u⟩
    · have hu : (task.perform w g).2 = u := by rw [hr]
      exact .deed rfl id (hu ▸ ih u)
    · have hu : (task.perform w g).2 = u := by rw [hr]
      dsimp only
      split_ifs
      · exact .deed rfl id (hu ▸ ih u)
      · subst hu
        exact .deed rfl id (.refl _)

/-- What a block's tasks lead to. -/
theorem tasks_leads (w : World) (g : Governor) (tasks : List (Task × Bool))
    (raises : Option Exception) : Leads w g (g.deeds w (.block tasks raises))
      { (runTasks w { g with trips := some [] } tasks raises).2.leave with trips := none } := by
  have hleads := taskDeeds_leads (w := w) { g with trips := some [] } tasks raises
  exact Leads.before (u := { g with trips := some [] }) rfl (fun h => h.trips _)
    (hleads.after rfl fun h => h.leave.trips none)

/-! ### What an errand comes to -/

/-- What an errand comes to: what its deeds lead to, where it lasts; and else that undone, and trips
written again. -/
theorem attend_leads {errand : Errand} (hs : g.attend w errand = .ok t) :
    ∃ u, Leads w g (g.deeds w errand) u ∧ u.draws ≤ t.draws ∧
      (g.lasts w errand = true → u = t) ∧
      (g.lasts w errand = false → u.unitCalls = ∅ ∧ u.keyCache = ∅ ∧
        ∃ back trips, u.rollBackUnit g = .ok back ∧ t = back.retrip w trips) := by
  cases errand with
  | alone task =>
    cases hs
    exact ⟨(task.perform w g).2.leave, .deed rfl id (.stay rfl Kept.leave), Nat.le_refl _,
      fun _ => rfl, fun h => by cases h⟩
  | batch queue =>
    have hs' : g.serve w (.batch queue) = .ok t := hs
    obtain ⟨u, hgoes, hrest⟩ := serve_goes hs'
    exact ⟨u, hgoes.leads, hrest⟩
  | block tasks raises =>
    have hleads := tasks_leads w g tasks raises
    refine ⟨_, hleads, ?_⟩
    rw [lasts]
    simp only [attend] at hs
    rcases hr : runTasks w { g with trips := some [] } tasks raises with ⟨_ | e, u⟩ <;>
      rw [hr] at hs
    · cases hs
      exact ⟨Nat.le_refl _, fun _ => rfl, fun h => by cases h⟩
    · obtain ⟨back, hback, hs⟩ := bind_eq_ok.mp hs
      cases hs
      refine ⟨?_, fun h => (by cases h), fun _ => ⟨rfl, rfl, back, _, hback, rfl⟩⟩
      have hdraws := rollBackUnit_draws hback
      exact hdraws.ge.trans (retrip_draws w back _)

/-- An errand that lasts leaves what its deeds lead to. -/
theorem attend_lasts {errand : Errand} (hs : g.attend w errand = .ok t)
    (hlasts : g.lasts w errand = true) : Leads w g (g.deeds w errand) t := by
  obtain ⟨u, hleads, -, hu, -⟩ := attend_leads hs
  exact hu hlasts ▸ hleads

/-- What deeds lead to is undone, where an errand does not last. -/
theorem Orderly.undoneDeeds (h : g.Orderly w unit) {deeds : List Deed}
    (hleads : Leads w g deeds u) (hback : u.rollBackUnit g = .ok t) (distinct : w.Distinct t.draws)
    (hcalls : u.unitCalls = ∅) (hcache : u.keyCache = ∅) : Undone g u t ∧ t.Orderly w unit := by
  have hon := hleads.onward h
  rw [rollBackUnit_draws hback] at distinct
  obtain ⟨⟨c, hc⟩, hkept⟩ := h (distinct.mono hon.draws)
  obtain ⟨t', ht', hsound, hundone⟩ := hon.rollBackUnit hc hkept distinct
  rw [hback, Except.ok.injEq] at ht'
  subst ht'
  exact ⟨hundone, hundone.orderly hc hkept hsound hcalls hcache⟩

/-- An errand that does not last leaves what was served before it, and trips. -/
theorem attend_reverts {errand : Errand} (h : g.Orderly w unit) (hs : g.attend w errand = .ok t)
    (hlasts : g.lasts w errand = false) (distinct : w.Distinct t.draws) :
    g.Reverted t ∧ t.Orderly w unit := by
  obtain ⟨u, hleads, -, -, hreverts⟩ := attend_leads hs
  obtain ⟨hcalls, hcache, back, trips, hback, rfl⟩ := hreverts hlasts
  obtain ⟨hundone, hord⟩ := h.undoneDeeds hleads hback (distinct.mono (retrip_draws w back trips))
    hcalls hcache
  exact ⟨hundone.retrip trips, hord.retrip trips⟩

/-- An errand leaves a governor in order. -/
theorem Orderly.attend {errand : Errand} (h : g.Orderly w unit) (hs : g.attend w errand = .ok t) :
    t.Orderly w unit := by
  cases hlasts : g.lasts w errand with
  | true => exact ((attend_lasts hs hlasts).onward h).orderly
  | false => exact fun distinct => (attend_reverts h hs hlasts distinct).2 distinct

theorem attend_draws {errand : Errand} (h : g.Orderly w unit) (hs : g.attend w errand = .ok t) :
    g.draws ≤ t.draws := by
  obtain ⟨u, hleads, hdraws, -⟩ := attend_leads hs
  exact (hleads.onward h).draws.trans hdraws

theorem attendAll_draws {errands : List Errand} (h : g.Orderly w unit)
    (hs : g.attendAll w errands = .ok t) : g.draws ≤ t.draws := by
  induction errands generalizing g with
  | nil =>
    cases hs
    exact Nat.le_refl _
  | cons errand rest ih =>
    obtain ⟨u, hu, hs⟩ := bind_eq_ok.mp hs
    exact (attend_draws h hu).trans (ih (h.attend hu) hs)

/-! ### What units of work keep -/

variable {P : List LedgerEntry → Prop}

theorem Upholds.task (hm : Maintained w unit P) (h : g.Upholds w unit P)
    (hg : g.Orderly w unit) (task : Task) : (task.perform w g).2.Upholds w unit P := by
  cases task with
  | call m => exact h.perform hm hg m
  | redeem pending claim =>
    exact Upholds.run (fun hbooks hr => hbooks.wrote hr) hm h
      (meets_redeem (Q := fun _ _ => True) pending claim fun _ _ _ => trivial)

/-- What every unit of work keeps holds after every instruction of a program that commits none
but such. -/
theorem Upholds.steps {works : (g : Governor) → {α : Type} → Staging α → Option Call →
    (α → Option LedgerEntry) → Prop} (hworks : Writes w works) (hm : Maintained w unit P)
    (h : g.Upholds w unit P) {α : Type} {op : Op α} {Q : Except Exception α → Governor → Prop}
    (hop : Meets w works Q op g) :
    ∀ step ∈ Program.steps (handle w) op g, step.2.Upholds w unit P :=
  Program.forall_steps (I := fun g => g.Upholds w unit P) (P := fun _ t => t.Upholds w unit P)
    (fun _ _ _ hasks hu =>
      have ht := Upholds.advance hm hu (advances_of_asks hworks hasks)
      ⟨ht, ht⟩) (Program.Meets.allowed hop) h

theorem steps_draws (w : World) (g : Governor) {α : Type} (op : Op α) :
    ∀ step ∈ Program.steps (handle w) op g,
      g.draws ≤ step.2.draws ∧ step.2.draws ≤ (op.run (handle w) g).2.draws :=
  (Program.steps_between (R := fun g t : Governor => g.draws ≤ t.draws) (fun _ => Nat.le_refl _)
    (fun _ _ _ => Nat.le_trans) (fun _ i g => (handled w i g).draws) op g).2

/-- What every unit of work keeps holds at every stage of a task. -/
theorem Upholds.stages (hm : Maintained w unit P) (h : g.Upholds w unit P)
    (hg : g.Orderly w unit) (task : Task) : ∀ u ∈ task.stages w g,
      u.Upholds w unit P ∧ u.draws ≤ (task.perform w g).2.draws := by
  intro u hu
  cases task with
  | call m =>
    obtain ⟨step, hstep, rfl⟩ := List.mem_map.mp hu
    obtain ⟨hle, hdraws⟩ := steps_draws w g m.program step hstep
    refine ⟨fun distinct => ?_, hdraws⟩
    have hkept := (hg (distinct.mono hle)).2
    exact Upholds.steps (fun hwork hr => hwork.wrote hr) hm h (hkept.meets w m) step hstep distinct
  | redeem pending claim =>
    obtain ⟨step, hstep, rfl⟩ := List.mem_map.mp hu
    exact ⟨Upholds.steps (fun hbooks hr => hbooks.wrote hr) hm h
      (meets_redeem (Q := fun _ _ => True) pending claim fun _ _ _ => trivial) step hstep,
      (steps_draws w g _ step hstep).2⟩

/-- What every unit of work keeps holds at every stage of deeds, and of what they lead to. -/
theorem Leads.upholds (hm : Maintained w unit P) {deeds : List Deed} (h : Leads w g deeds t)
    (hP : g.Upholds w unit P) (hg : g.Orderly w unit) : t.Upholds w unit P ∧
      ∀ d ∈ deeds, ∀ u ∈ d.task.stages w d.before, u.Upholds w unit P ∧ u.draws ≤ t.draws := by
  induction h with
  | stay same kept => exact ⟨hP.same same, fun _ hd => (List.not_mem_nil hd).elim⟩
  | @deed g u t task deeds same kept rest ih =>
    have hu := (Onward.same hg same kept).orderly
    have hPu := hP.same same
    have hd := (Onward.task hu task).orderly
    obtain ⟨ht, hdeeds⟩ := ih (hPu.task hm hu task) hd
    refine ⟨ht, fun d hdm v hv => ?_⟩
    rcases List.mem_cons.mp hdm with rfl | hdm
    · obtain ⟨hv, hdraws⟩ := hPu.stages hm hu task v hv
      exact ⟨hv, hdraws.trans (rest.onward hd).draws⟩
    · exact hdeeds d hdm v hv

/-- What every unit of work keeps holds after each trip written again. -/
theorem Upholds.retrips (hm : Maintained w unit P) (h : g.Upholds w unit P)
    (trips : List (Text × Text)) :
    ∀ u ∈ g.retrips w trips, u.Upholds w unit P ∧ u.draws ≤ (g.retrip w trips).draws := by
  induction trips generalizing g with
  | nil => exact fun _ hu => (List.not_mem_nil hu).elim
  | cons trip rest ih =>
    have ht : ((Op.trip trip.1 trip.2).run (handle w) g).2.leave.Upholds w unit P :=
      (h.trip hm trip.1 trip.2).keep ⟨rfl, rfl, rfl, rfl, Nat.le_refl _⟩
    intro u hu
    rcases List.mem_cons.mp hu with rfl | hu
    · exact ⟨ht, retrip_draws w _ rest⟩
    · exact ih ht u hu

/-- A governor brought back upholds what it upheld. -/
theorem Orderly.upholds_undone (hg : g.Orderly w unit) (h : g.Upholds w unit P)
    {deeds : List Deed} (hleads : Leads w g deeds u) (hback : u.rollBackUnit g = .ok t)
    (hcalls : u.unitCalls = ∅) (hcache : u.keyCache = ∅) : t.Upholds w unit P := by
  intro distinct
  obtain ⟨hundone, hord⟩ := hg.undoneDeeds hleads hback distinct hcalls hcache
  refine ⟨(hord distinct).1, ?_⟩
  rw [hundone.entries]
  rw [rollBackUnit_draws hback] at distinct
  exact (h (distinct.mono (hleads.onward hg).draws)).2

/-- What every unit of work keeps, an errand keeps, at every commit. -/
theorem Upholds.attend (hm : Maintained w unit P) {errand : Errand} (h : g.Upholds w unit P)
    (hg : g.Orderly w unit) (hs : g.attend w errand = .ok t) : t.Upholds w unit P ∧
      ∀ u ∈ g.commits w errand, u.Upholds w unit P ∧ u.draws ≤ t.draws := by
  obtain ⟨u, hleads, hdraws, hlasts, hreverts⟩ := attend_leads hs
  obtain ⟨hu, hstages⟩ := hleads.upholds hm h hg
  have stages : ∀ v ∈ (g.deeds w errand).flatMap fun d => d.task.stages w d.before,
      v.Upholds w unit P ∧ v.draws ≤ t.draws := by
    intro v hv
    obtain ⟨d, hd, hv⟩ := List.mem_flatMap.mp hv
    exact (hstages d hd v hv).imp_right fun hle => hle.trans hdraws
  have ht : t.Upholds w unit P := by
    cases hl : g.lasts w errand with
    | true => exact hlasts hl ▸ hu
    | false =>
      obtain ⟨hcalls, hcache, back, trips, hback, rfl⟩ := hreverts hl
      exact (hg.upholds_undone h hleads hback hcalls hcache).retrip hm trips
  refine ⟨ht, fun v hv => ?_⟩
  rcases List.mem_append.mp hv with hv | hv
  · exact stages v hv
  · cases errand with
    | alone task => exact (List.not_mem_nil hv).elim
    | batch queue => exact (List.not_mem_nil hv).elim
    | block tasks raises =>
      have hblock := tasks_leads w g tasks raises
      simp only [Governor.attend] at hs
      rcases hr : runTasks w { g with trips := some [] } tasks raises with ⟨_ | e, g'⟩ <;>
        rw [hr] at hs hblock <;> dsimp only at hv
      · rw [hr] at hv
        exact (List.not_mem_nil hv).elim
      · obtain ⟨back, hback, hs⟩ := bind_eq_ok.mp hs
        cases hs
        rw [hr] at hv
        dsimp only at hv
        rw [hback] at hv
        exact (hg.upholds_undone h hblock hback rfl rfl).retrips hm _ v hv

/-- What every unit of work keeps holds at every commit of a run of errands. -/
theorem Upholds.attendAll (hm : Maintained w unit P) {errands : List Errand}
    (h : g.Upholds w unit P) (hg : g.Orderly w unit) (hs : g.attendAll w errands = .ok t) :
    t.Upholds w unit P ∧
      ∀ u ∈ g.commitsAll w errands, u.Upholds w unit P ∧ u.draws ≤ t.draws := by
  induction errands generalizing g with
  | nil =>
    cases hs
    exact ⟨h, fun _ hu => (List.not_mem_nil hu).elim⟩
  | cons errand rest ih =>
    obtain ⟨v, hv, hs⟩ := bind_eq_ok.mp hs
    obtain ⟨hPv, hcommits⟩ := h.attend hm hg hv
    have hgv := hg.attend hv
    obtain ⟨ht, hrest⟩ := ih hPv hgv hs
    have hdraws := attendAll_draws hgv hs
    refine ⟨ht, fun u hu => ?_⟩
    rw [commitsAll, hv] at hu
    rcases List.mem_append.mp hu with hu | hu
    · exact (hcommits u hu).imp_right fun hle => hle.trans hdraws
    · rcases List.mem_cons.mp hu with rfl | hu
      · exact ⟨hPv, hdraws⟩
      · exact hrest u hu

end Governor

/-! ### Who wrote an entry -/

/-- The booking of a claim resets no breaker. -/
theorem Op.only_booking {may : EntryType → Text → Prop}
    (hmay : ∀ kind scope, kind ≠ .circuitReset → may kind scope) (tripOnExhaustion : Bool)
    (claim : SettlementClaim) (hold : Option Authorization) :
    Program.Only (Stage.Posting may) (Op.booking tripOnExhaustion claim hold) := by
  have htrip (reason : Text) :
      Program.Only (Stage.Posting may) (Staging.trip claim.scopeId reason) :=
    Staging.only_trip trivial (by simpa [Stage.Posting, Staging.event] using hmay _ _ (by simp))
  have hlines : Stage.Posting may _ (.post (Op.claimLines claim hold)) := by
    intro line hl
    refine hmay _ _ ?_
    rcases (Op.mem_claimLines hl).2 with ⟨kind, -⟩ | ⟨kind, -⟩ <;> simp [kind]
  unfold Op.booking
  split_ifs
  · exact Staging.only_post₁ (by simpa [Stage.Posting, Staging.event] using hmay _ _ (by simp))
  · refine Program.only_bind (Program.only_instr hlines) fun es => ?_
    cases es.getLast? with
    | none => trivial
    | some settling =>
      unfold Op.tripSettled
      dsimp only
      split_ifs
      · exact Program.only_bind (htrip _) fun _ => Program.only_ret _
      · refine Program.only_bind (Staging.only_exhausted _ _ trivial) fun exhausted => ?_
        split_ifs
        · exact Program.only_bind (htrip _) fun _ => Program.only_ret _
        · trivial
      · trivial

/-- A redemption resets no breaker. -/
theorem Op.only_redeem {may : EntryType → Text → Prop}
    (hmay : ∀ kind scope, kind ≠ .circuitReset → may kind scope)
    (pending : List SettlementClaim) (claim : Option SettlementClaim) :
    Program.Only (Instr.Posting may) (Op.redeem pending claim) := by
  have h : Instr.Covers (Instr.Posting may) :=
    Instr.covers_posting fun kind scope hreset _ => hmay kind scope hreset
  have each (claims : List SettlementClaim) :
      Program.Only (Instr.Posting may) (Op.redeemEach claims) := by
    induction claims with
    | nil => trivial
    | cons claim rest ih =>
      refine Program.only_bind ?_ fun _ => Program.only_bind ih fun _ => Program.only_ret _
      exact Program.only_bind (Op.only_requireNode h _) fun _ =>
        Program.only_bind (Op.only_served h) fun _ =>
        Program.only_bind (Program.only_instr h.policy) fun _ =>
        Program.only_instr (Op.only_booking hmay _ _ _)
  exact Program.only_bind (Op.only_mutating h) fun _ => each _

/-- A task writes only what it may. -/
theorem Task.posting (w : World) (g : Governor) (t : Task) :
    Governor.WroteOnly t.MayPost g (t.perform w g).2 := by
  cases t with
  | call m => exact Governor.op_posting w g (Op.only_of m)
  | redeem pending claim =>
    exact Governor.op_posting w g (Op.only_redeem
      (fun _ _ hreset => ⟨fun hk => absurd hk hreset, fun _ => rfl⟩) pending claim)

/-- What a deed leaves was there before, or it wrote it, as it may. -/
theorem Deed.mem_after {d : Deed} (he : e ∈ (d.after w).ledger.entries) :
    e ∈ d.before.ledger.entries ∨ e ∈ d.wrote w ∧ d.task.MayPost e.entryType e.scopeId := by
  obtain ⟨new, hnew, hmay⟩ := d.task.posting w d.before
  have hafter : (d.after w).ledger.entries = d.before.ledger.entries ++ new := hnew
  have hwrote : d.wrote w = new := by rw [Deed.wrote, hafter, List.drop_left]
  rw [hafter, List.mem_append] at he
  exact he.imp id fun hm => ⟨hwrote ▸ hm, hmay e hm⟩

namespace Governor

variable {g t : Governor}

/-- What deeds leave was there before, or one of them wrote it, as it may. -/
theorem Leads.mem_entries {deeds : List Deed} (h : Leads w g deeds t)
    (he : e ∈ t.ledger.entries) : e ∈ g.ledger.entries ∨
      ∃ d ∈ deeds, e ∈ d.wrote w ∧ d.task.MayPost e.entryType e.scopeId := by
  induction h with
  | stay same kept => exact Or.inl (entries_eq_of_bare same ▸ he)
  | @deed g u t task deeds same kept rest ih =>
    rcases ih he with hm | ⟨d, hd, hwrote⟩
    · have hafter : e ∈ ((⟨u, task⟩ : Deed).after w).ledger.entries := hm
      rcases Deed.mem_after hafter with hbefore | hwrote
      · exact Or.inl (entries_eq_of_bare same ▸ hbefore)
      · exact Or.inr ⟨⟨u, task⟩, List.mem_cons_self, hwrote⟩
    · exact Or.inr ⟨d, List.mem_cons_of_mem _ hd, hwrote⟩

/-- An entry of the chain was written by a deed whose work stands, as it may, or is a trip. -/
theorem lasting_wrote {errands : List Errand} (hg : g.Orderly w unit)
    (hs : g.attendAll w errands = .ok t) (distinct : w.Distinct t.draws)
    (he : e ∈ t.ledger.entries) (kind : e.entryType ≠ .circuitTripped) :
    e ∈ g.ledger.entries ∨ ∃ d ∈ g.lasting w errands,
      e ∈ d.wrote w ∧ d.task.MayPost e.entryType e.scopeId := by
  induction errands generalizing g with
  | nil =>
    cases hs
    exact Or.inl he
  | cons errand rest ih =>
    obtain ⟨u, hu, hs⟩ := bind_eq_ok.mp hs
    have hu' := hg.attend hu
    rw [lasting, hu]
    rcases ih hu' hs with hm | ⟨d, hd, hwrote⟩
    · cases hlasts : g.lasts w errand with
      | true =>
        rw [if_pos rfl]
        refine ((attend_lasts hu hlasts).mem_entries hm).imp id ?_
        rintro ⟨d, hd, hwrote⟩
        exact ⟨d, List.mem_append_left _ hd, hwrote⟩
      | false =>
        have hrev := (attend_reverts hg hu hlasts (distinct.mono (attendAll_draws hu' hs))).1
        obtain ⟨trips, htrips, hkinds⟩ := hrev.entries
        rw [htrips, List.mem_append] at hm
        exact hm.elim Or.inl fun hm => absurd (hkinds e hm) kind
    · exact Or.inr ⟨d, List.mem_append_right _ hd, hwrote⟩

end Governor

end AgentGov
