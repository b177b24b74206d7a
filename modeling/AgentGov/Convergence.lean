import AgentGov.Following
import AgentGov.Foundation.SharedHistory

/-!
# Governors that share a ledger agree

Whatever governors of a fleet do and in whatever order, whichever of their sessions commit, are
refused or are lost with the connection, the committed chain is one that a replay accepts, and it is
only gone on from. A governor that is not in a session serves a part of it, up to the end of a
transaction; one in a session serves all of it, and what it wrote since. None is refused what another
wrote.

## Main definitions

* `AgentGov.Fleet.Moved`: everything an event may do to a fleet.
* `AgentGov.Fleet.shared`: the history a fleet shares.
* `AgentGov.Fleet.Safe`: what holds of every fleet.

## Main results

* `AgentGov.Fleet.Safe.moved`: every event keeps a fleet safe.
* `AgentGov.fleet_agrees`: the governors of a fleet serve one chain.
-/

open Foundation

namespace AgentGov

variable {w : World} {unit : Unit} {c : Chain} {g t : Governor} {store : SharedStore}

/-! ### What happens in a fleet -/

/-- What a governor does in its own session. -/
inductive Labour {ι : Type} (w : World) (g : Governor) (s : WriterSession ι) :
    Governor → WriterSession ι → Prop
  | lookUp {keys : List Text} {t : Governor} (looked : g.lookUpCalls keys = .ok t) :
      Labour w g s t s
  | perform (m : Mutation) : Labour w g s (g.perform w m).2 s
  | redeem (claim : Option SettlementClaim) :
      Labour w g s (s.redeem w g claim).1 (s.redeem w g claim).2
  | retrip (scope reason : Text) :
      Labour w g s ((Op.trip scope reason).run (Governor.handle w) g).2 s

/-- What a governor does in a session proceeds. -/
theorem Labour.proceeds {ι : Type} {s s' : WriterSession ι} (h : Labour w g s t s')
    (hg : g.Orderly w unit) : Governor.Proceeds w unit g t := by
  cases h with
  | lookUp looked => exact .lookUpCalls hg looked
  | perform m => exact .perform hg m
  | redeem claim => exact s.redeem_proceeds hg claim
  | retrip scope reason => exact .trip hg scope reason

/-- What a governor does in a session writes transactions drawn for it. -/
theorem Labour.lengthens {ι : Type} {s s' : WriterSession ι} (h : Labour w g s t s') :
    g.Lengthens w t := by
  cases h with
  | lookUp looked => exact .of_keeps (Governor.lookUpCalls_ok looked).1
  | perform m => exact .op g m.program
  | redeem claim => exact s.redeemEach_lengthens g _
  | retrip scope reason => exact .op g _

theorem Labour.session {ι : Type} {s s' : WriterSession ι} (h : Labour w g s t s') :
    s'.holder = s.holder ∧ s'.joined = s.joined := by
  cases h with
  | redeem claim => exact s.redeemEach_holder _ _
  | lookUp | perform | retrip => exact ⟨rfl, rfl⟩

namespace Fleet

variable {ι : Type} [DecidableEq ι] {f f' : Fleet ι}

theorem held_eq_some {i : ι} {joined : Bool} {s : WriterSession ι} :
    f.held i joined = some s ↔ f.session = some s ∧ s.holder = i ∧ s.joined = joined := by
  simp only [held, Option.filter_eq_some_iff, decide_eq_true_eq]

/-- Whether a governor is in no session. -/
def Away (f : Fleet ι) (i : ι) : Prop := ∀ s, f.session = some s → s.holder ≠ i

/-- Everything an event may do to a fleet. -/
inductive Moved (w : World) (f : Fleet ι) : Fleet ι → Prop
  | rest : Moved w f f
  | follow (i : ι) (m : Member) (away : f.Away i)
      (member : m = f.member i ∨
        ∃ policy, m = { governor := Governor.new f.store.unit policy true, dirty := true }) :
      Moved w f (f.put i (m.follow f.store f.draws))
  | astray (i : ι) (e : Astray) (free : f.session = none)
      (astray : (f.member i).followed f.store = .error e) :
      Moved w f (f.put i ((f.member i).astray e))
  | grant (i : ι) (block joined : Bool) (t : Governor) (free : f.session = none)
      (followed : (f.member i).followed f.store = .ok t) :
      Moved w f { f.put i
        { governor := if joined then { t with draws := f.draws } else f.begun t block } with
        session := some { holder := i, joined := joined, claims := f.store.claims } }
  | work (i : ι) (s s' : WriterSession ι) (g : Governor) (held : f.held i false = some s)
      (labour : Labour w (f.member i).governor s g s') : Moved w f (f.work i g s')
  /-- A statement fails, or a claim is inserted. -/
  | fail (i : ι) (joined : Bool) (s : WriterSession ι) (held : f.held i joined = some s) :
      Moved w f { f with session := some { s with failed := true } }
  | claim (i : ι) (s : WriterSession ι) (c : SettlementClaim) (held : f.held i true = some s)
      (drawn : c.claimId = w.uuid f.draws) (owes : ¬c.amount.worth < 0) :
      Moved w f { f with session := some (s.claim c), draws := f.draws + 1 }
  | leave (i : ι) (s : WriterSession ι) (ending : Ending) (held : f.held i false = some s) :
      Moved w f (f.ended i s ending)
  | part (i : ι) (s : WriterSession ι) (committed : Bool) (held : f.held i true = some s) :
      Moved w f (f.parted s committed)

theorem away_of_not_any {i : ι} (h : ¬f.session.any fun s => s.holder = i) : f.Away i := by
  intro s hs hi
  rw [hs] at h
  exact h (by simpa using hi)

theorem grant_moved (f : Fleet ι) (i : ι) (block joined : Bool) :
    Moved w f (f.grant i block joined) := by
  unfold grant
  by_cases hbusy : f.session.isSome ∨ (f.member i).unusable
  · rw [if_pos hbusy]
    exact .rest
  · rw [if_neg hbusy]
    rw [not_or, Option.not_isSome_iff_eq_none] at hbusy
    cases hfollowed : (f.member i).followed f.store with
    | error e => exact .astray i e hbusy.1 hfollowed
    | ok t => exact .grant i block joined t hbusy.1 hfollowed

/-- A claim has the id drawn for it, and owes no negative amount. -/
theorem make_ok {id : UUID} {scope memo : Text} {amount : AmountArg}
    {hold : Option Authorization} {claim : SettlementClaim}
    (h : SettlementClaim.make g id scope amount memo hold = .ok claim) :
    claim.claimId = id ∧ ¬claim.amount.worth < 0 := by
  unfold SettlementClaim.make at h
  split at h
  · cases h
  · split_ifs at h with hneg hmemo hscope
    · split at h <;> cases h
    · split at h
      · cases h
      · cases h
        exact ⟨rfl, hneg⟩

/-- Every event moves a fleet. -/
theorem step_moved (f : Fleet ι) (e : Event ι) : Moved w f (f.step w e) := by
  cases e with
  | start i policy =>
    rw [step]
    split_ifs with hany
    · exact .rest
    · exact .follow i _ (away_of_not_any hany) (Or.inr ⟨policy, rfl⟩)
  | refresh i =>
    rw [step]
    split_ifs with hany
    · exact .rest
    · exact .follow i _ (away_of_not_any hany) (Or.inl rfl)
  | enter i block => exact f.grant_moved i block false
  | join i => exact f.grant_moved i false true
  | lookUp i keys =>
    rw [step]
    cases hheld : f.held i false with
    | none => exact .rest
    | some s =>
      dsimp only
      cases hlook : (f.member i).governor.lookUpCalls keys with
      | ok g => exact .work i s s g hheld (.lookUp hlook)
      | error key => exact .fail i false s hheld
  | perform i m =>
    rw [step]
    cases hheld : f.held i false with
    | none => exact .rest
    | some s => exact .work i s s _ hheld (.perform m)
  | redeem i claim =>
    rw [step]
    cases hheld : f.held i false with
    | none => exact .rest
    | some s => exact .work i s _ _ hheld (.redeem claim)
  | retrip i scope reason =>
    rw [step]
    cases hheld : f.held i false with
    | none => exact .rest
    | some s => exact .work i s s _ hheld (.retrip scope reason)
  | abandon i =>
    rw [step]
    cases hheld : f.held i false with
    | none => exact .rest
    | some s => exact .fail i false s hheld
  | leave i ending =>
    rw [step]
    cases hheld : f.held i false with
    | none => exact .rest
    | some s => exact .leave i s ending hheld
  | claim i scope amount memo hold =>
    rw [step]
    cases hheld : f.held i true with
    | none => exact .rest
    | some s =>
      dsimp only
      cases hmake : SettlementClaim.make (f.member i).governor (w.uuid f.draws) scope amount memo
          hold with
      | error fault => exact .rest
      | ok c => exact .claim i s c hheld (make_ok hmake).1 (make_ok hmake).2
  | part i committed =>
    rw [step]
    cases hheld : f.held i true with
    | none => exact .rest
    | some s => exact .part i s committed hheld

/-! ### What holds of every fleet -/

/-- The history a fleet shares. -/
def shared (f : Fleet ι) : SharedHistory ι History where
  committed := f.store.history
  copy i := (f.member i).governor.history
  stale := {i | (f.member i).dirty = true}
  holder := f.session.map WriterSession.holder

/-- A governor draws in its session what the fleet draws. -/
def Paced (f : Fleet ι) : Prop :=
  ∀ s, f.session = some s → s.joined = false → (f.member s.holder).governor.draws = f.draws

theorem put_member (f : Fleet ι) (i j : ι) (m : Member) :
    (f.put i m).member j = if j = i then m else f.member j := Function.update_apply f.member i m j

/-- Every event draws on. -/
theorem Paced.moved (h : f.Paced) (hmoved : Moved w f f') : f'.Paced ∧ f.draws ≤ f'.draws := by
  cases hmoved with
  | rest => exact ⟨h, le_rfl⟩
  | follow i m away member =>
    refine ⟨fun s hs hj => ?_, le_rfl⟩
    rw [put_member, if_neg (away s hs)]
    exact h s hs hj
  | astray i e free astray =>
    refine ⟨fun s hs hj => ?_, le_rfl⟩
    rw [put_member]
    split_ifs with hi
    · have hdraws := h s hs hj
      rw [hi] at hdraws
      unfold Member.astray
      split_ifs <;> exact hdraws
    · exact h s hs hj
  | grant i block joined t free followed =>
    refine ⟨fun s hs hj => ?_, le_rfl⟩
    cases hs
    change joined = false at hj
    subst hj
    change ((f.put i _).member i).governor.draws = f.draws
    rw [put_member, if_pos rfl]
    rfl
  | work i s s' g held labour =>
    obtain ⟨hs, hi, hj⟩ := held_eq_some.mp held
    refine ⟨fun s₁ hs₁ _ => ?_, ?_⟩
    · cases hs₁
      change ((f.put i _).member s'.holder).governor.draws = g.draws
      rw [put_member, if_pos (labour.session.1.trans hi)]
    · have hdraws := labour.lengthens.1
      rwa [← hi, h s hs hj] at hdraws
  | fail i joined s held =>
    obtain ⟨hs, -, -⟩ := held_eq_some.mp held
    refine ⟨fun s₁ hs₁ hj => ?_, le_rfl⟩
    cases hs₁
    exact h s hs hj
  | claim i s c held drawn owes =>
    obtain ⟨hs, -, hj⟩ := held_eq_some.mp held
    refine ⟨fun s₁ hs₁ hj₁ => ?_, Nat.le_succ _⟩
    cases hs₁
    have hjoined : (s.claim c).joined = s.joined := by
      unfold WriterSession.claim
      split_ifs <;> rfl
    rw [hjoined, hj] at hj₁
    cases hj₁
  | leave i s ending held =>
    refine ⟨fun s₁ hs₁ => (by cases hs₁), ?_⟩
    unfold ended
    dsimp only
    split_ifs <;> exact le_rfl
  | part i s committed held =>
    unfold parted
    split_ifs
    · exact ⟨fun s₁ hs₁ => (by cases hs₁), le_rfl⟩
    · exact ⟨fun s₁ hs₁ => (by cases hs₁), le_rfl⟩

end Fleet

/-- Whether a governor serves a history with every property that units of work keep. -/
def Governor.Maintains (w : World) (unit : Unit) (g : Governor) : Prop :=
  ∀ P, Governor.Maintained w unit P → P [] → P g.ledger.entries

/-- A governor that serves what is committed, and what is recorded with it. -/
structure SharedStore.Served (w : World) (store : SharedStore) (n : ℕ) (u : Governor) : Prop where
  sound : ∃ c, u.Sound w store.unit c
  kept : u.Kept
  valid : u.Valid
  entries : u.ledger.entries = store.entries
  keys : u.keys = store.keys
  stores : u.store = true
  draws : u.draws ≤ n
  maintains : u.Maintains w store.unit

/-- A governor that has followed what is committed, and recorded nothing. -/
structure SharedStore.Current (w : World) (store : SharedStore) (n : ℕ) (g t : Governor) :
    Prop where
  sound : ∃ c, Governor.Sound w store.unit { t with draws := n } c
  entries : t.ledger.entries = store.entries
  stores : t.store = true
  unitCalls : t.unitCalls = g.unitCalls
  keyCache : t.keyCache = g.keyCache

/-- A member that may be ahead of the ledger, or serves a part of it, follows it. -/
theorem Member.followed_ok {n : ℕ} {m : Member} (hu : store.Served w n u)
    (hstore : m.governor.store = true)
    (hm : m.dirty = false → m.governor.history ≤ store.history ∧ m.governor.draws ≤ n ∧
      ∃ c, m.governor.Sound w store.unit c) :
    ∃ t, m.followed store = .ok t ∧ store.Current w n m.governor t := by
  obtain ⟨c', hc'⟩ := hu.sound
  have drawn {t : Governor} (ht : Governor.Sound w store.unit { t with draws := u.draws } c') :
      ∃ c, Governor.Sound w store.unit { t with draws := n } c :=
    ⟨c', ht.keep ⟨rfl, rfl, rfl, rfl, hu.draws⟩⟩
  unfold followed
  split_ifs with hdirty hhead
  · obtain ⟨t, ht, hentries, hsound, hs, hcalls, hcache⟩ :=
      hc'.reread_shared hu.stores hu.entries rfl hstore
    exact ⟨t, ht, drawn hsound, hentries, hs, hcalls, hcache⟩
  · obtain ⟨⟨new, hnew, -⟩, hdraws, c, hc⟩ := hm (Bool.eq_false_of_not_eq_true hdirty)
    change store.entries = m.governor.ledger.entries ++ new at hnew
    have hlength : store.entries.length = m.governor.ledger.entries.length :=
      (congrArg Prod.fst hhead).trans hc.length_eq
    have hnil : new = [] := by
      rw [hnew, List.length_append] at hlength
      exact List.eq_nil_of_length_eq_zero (by omega)
    rw [hnil, List.append_nil] at hnew
    exact ⟨m.governor, rfl, ⟨c, hc.keep ⟨rfl, rfl, rfl, rfl, hdraws⟩⟩, hnew.symm, hstore, rfl, rfl⟩
  · obtain ⟨hle, -, c, hc⟩ := hm (Bool.eq_false_of_not_eq_true hdirty)
    obtain ⟨t, ht, hentries, hsound, hs, hcalls, hcache⟩ := hc.catchUp hc' hstore hu.entries hle
    exact ⟨t, ht, drawn hsound, hentries, hs, hcalls, hcache⟩

/-- A member that has followed serves what it followed. -/
theorem Member.follow_eq {m : Member} {n : ℕ} (husable : m.unusable = false)
    (ht : m.followed store = .ok t) : m.follow store n = { governor := { t with draws := n } } := by
  unfold follow
  rw [husable, ht]
  rfl

namespace Fleet

variable {ι : Type} {f f' : Fleet ι}

/-- Whether a governor is not in a session of its own. -/
def Rests (f : Fleet ι) (i : ι) : Prop :=
  ∀ s, f.session = some s → s.joined = false → s.holder ≠ i

theorem away_of_free (free : f.session = none) (i : ι) : f.Away i := by
  intro s hs
  rw [free] at hs
  cases hs

theorem Away.rests {i : ι} (h : f.Away i) : f.Rests i := fun s hs _ => h s hs

/-- What holds of the governors of a fleet. -/
structure Serves (w : World) (f : Fleet ι) : Prop where
  served : ∃ u, f.store.Served w f.draws u
  usable : ∀ i, (f.member i).unusable = false
  stores : ∀ i, (f.member i).governor.store = true
  forgets : ∀ i, f.Rests i →
    (f.member i).governor.unitCalls = ∅ ∧ (f.member i).governor.keyCache = ∅
  /-- One that rests serves its own part of the chain, unless it may be ahead. -/
  rests : ∀ i, f.Rests i → (f.member i).dirty = false →
    ((f.member i).governor.draws ≤ f.draws ∧ ∃ c, (f.member i).governor.Sound w f.store.unit c) ∧
      (f.member i).governor.Maintains w f.store.unit
  /-- One in its own session proceeds from what is committed. -/
  works : ∀ s, f.session = some s → s.joined = false → ∃ u, f.store.Served w f.draws u ∧
    Governor.Proceeds w f.store.unit u (f.member s.holder).governor
  /-- One that joined a session serves what is committed. -/
  joins : ∀ s, f.session = some s → s.joined = true →
    (f.member s.holder).governor.ledger.entries = f.store.entries

/-- What holds of every fleet: its governors serve what they share. -/
structure Safe (w : World) (f : Fleet ι) : Prop extends f.Serves w where
  coherent : f.shared.Coherent
  paced : f.Paced

namespace Safe

variable (h : f.Safe w)

include h

/-- A governor that may not be ahead serves what leads to what is committed. -/
theorem behind {i : ι} (away : f.Away i) (hdirty : (f.member i).dirty = false) :
    (f.member i).governor.history ≤ f.store.history := by
  refine h.coherent.behind i (fun hd => ?_) fun hi => ?_
  · exact Bool.noConfusion (hdirty.symm.trans hd)
  · obtain ⟨s, hs, rfl⟩ := Option.map_eq_some_iff.mp hi
    exact away s hs rfl

/-- Any member follows what is committed. -/
theorem followed_ok {i : ι} (away : f.Away i) : ∃ t, (f.member i).followed f.store = .ok t ∧
    f.store.Current w f.draws (f.member i).governor t := by
  obtain ⟨u, hu⟩ := h.served
  refine Member.followed_ok hu (h.stores i) fun hdirty => ⟨h.behind away hdirty, ?_⟩
  exact (h.rests i away.rests hdirty).1

/-- What a session is begun with serves what is committed. -/
theorem begun {g t : Governor} (hm : f.store.Current w f.draws g t) (hcalls : g.unitCalls = ∅)
    (hcache : g.keyCache = ∅) (block : Bool) : f.store.Served w f.draws (f.begun t block) := by
  obtain ⟨u, hu⟩ := h.served
  obtain ⟨c', hc'⟩ := hu.sound
  obtain ⟨c, hc⟩ := hm.sound
  have hsound : (f.begun t block).Sound w f.store.unit c :=
    ⟨hc.run, hc.net, hc.stands, hc.auths, hc.drawn⟩
  have hentries : (f.begun t block).ledger.entries = u.ledger.entries :=
    hm.entries.trans hu.entries.symm
  refine ⟨⟨c, hsound⟩, ?_, fun key r hr => hu.valid key r (hu.keys.symm ▸ hr), hm.entries, rfl,
    hm.stores, le_rfl, fun P hP nil => hentries ▸ hu.maintains P hP nil⟩
  refine hu.kept.of_same hentries ?_ (fun key => by rw [hu.keys]; rfl) (hm.unitCalls.trans hcalls)
    (hm.keyCache.trans hcache)
  exact (hc'.of_entries_eq hsound hentries).nodes_eq.trans hc'.nodes_eq.symm

/-- What a governor serves in its session is maintained. -/
theorem maintains {s : WriterSession ι} (hs : f.session = some s) (hj : s.joined = false)
    (distinct : w.Distinct f.draws) :
    (f.member s.holder).governor.Maintains w f.store.unit := by
  obtain ⟨u, hu, hproceeds⟩ := h.works s hs hj
  intro P hP nil
  rw [← h.paced s hs hj] at distinct
  exact (hproceeds.upholds P hP (fun _ => ⟨hu.sound, hu.maintains P hP nil⟩) distinct).2

/-- A governor that rests serves a part of what is committed, unless it may be ahead. -/
theorem rests_behind {i : ι} (hi : f.Rests i) (hdirty : (f.member i).dirty = false) :
    (f.member i).governor.history ≤ f.store.history := by
  by_cases away : f.Away i
  · exact h.behind away hdirty
  · simp only [Away, not_forall, not_not] at away
    obtain ⟨s, hs, rfl⟩ := away
    have hjoined : s.joined = true := by
      by_contra hj
      exact hi s hs (Bool.eq_false_of_not_eq_true hj) rfl
    have hhistory : (f.member s.holder).governor.history = f.store.history := h.joins s hs hjoined
    exact hhistory.le

/-- What a governor serves is what its entries imply, unless it may be ahead. -/
theorem servesReplay {i : ι} (hdirty : (f.member i).dirty = false)
    (distinct : w.Distinct f.draws) : (f.member i).governor.ServesReplay f.store.unit := by
  by_cases hi : f.Rests i
  · obtain ⟨c, hc⟩ := (h.rests i hi hdirty).1.2
    exact hc.servesReplay
  · simp only [Rests, not_forall, not_not] at hi
    obtain ⟨s, hs, hj, rfl⟩ := hi
    obtain ⟨u, hu, hproceeds⟩ := h.works s hs hj
    obtain ⟨c, hc⟩ := hproceeds.sound (h.paced s hs hj ▸ distinct)
    exact hc.servesReplay

theorem works_ahead {s : WriterSession ι} (hs : f.session = some s) :
    f.store.history ≤ (f.member s.holder).governor.history :=
  h.coherent.ahead s.holder (congrArg (Option.map WriterSession.holder) hs)

end Safe

theorem paced_new (unit : Unit) (policy : ι → GovernancePolicy) :
    (Fleet.new unit policy).Paced := fun s hs => by cases hs

/-- A new fleet is safe. -/
theorem safe_new (w : World) (unit : Unit) (policy : ι → GovernancePolicy) :
    (Fleet.new unit policy).Safe w where
  served := by
    -- whatever its policy
    refine ⟨Governor.new unit samplePolicy true, ⟨_, .new w unit samplePolicy true⟩,
      .new unit samplePolicy true, fun key r hr => (by cases hr), rfl, rfl, rfl, le_rfl,
      fun P _ nil => nil⟩
  usable i := rfl
  stores i := rfl
  forgets i _ := ⟨rfl, rfl⟩
  rests i _ _ := ⟨⟨le_rfl, _, .new w unit (policy i) true⟩, fun P _ nil => nil⟩
  works s hs := by cases hs
  joins s hs := by cases hs
  coherent := ⟨fun i _ _ => le_rfl, fun i hi => (by cases hi), fun i hi => (by cases hi)⟩
  paced := paced_new unit policy

variable [DecidableEq ι]

theorem shared_put (f : Fleet ι) (i : ι) (m : Member) {stale : Set ι}
    (h : ∀ j, j ∈ stale ↔ if j = i then m.dirty = true else j ∈ f.shared.stale) :
    (f.put i m).shared =
      { f.shared with
        copy := Function.update f.shared.copy i m.governor.history
        stale := stale } := by
  refine SharedHistory.ext rfl (funext fun j => ?_) (Set.ext fun j => ?_) rfl
  · change ((f.put i m).member j).governor.history =
      Function.update f.shared.copy i m.governor.history j
    rw [put_member, Function.update_apply]
    split_ifs <;> rfl
  · change ((f.put i m).member j).dirty = true ↔ j ∈ stale
    rw [put_member, h j]
    split_ifs <;> rfl

/-- A member that has followed what is committed shares it. -/
theorem shared_follow {i : ι} {m : Member} (hdirty : m.dirty = false)
    (hentries : m.governor.ledger.entries = f.store.entries) :
    (f.put i m).shared = f.shared.follow i := by
  have hhistory : m.governor.history = f.shared.committed := hentries
  rw [@shared_put _ _ f i m (f.shared.stale \ {i}) fun j => ?_, hhistory, SharedHistory.follow]
  rw [Set.mem_sdiff, Set.mem_singleton_iff]
  split_ifs with hj <;> simp [hj, hdirty]

namespace Safe

variable (h : f.Safe w)

include h

/-- A member that has followed what is committed is one of its fleet. -/
theorem follow {i : ι} {g t : Governor} (away : f.Away i)
    (hm : f.store.Current w f.draws g t) (hcalls : g.unitCalls = ∅) (hcache : g.keyCache = ∅) :
    (f.put i { governor := { t with draws := f.draws } }).Serves w where
  served := h.served
  usable j := by
    rw [put_member]
    split_ifs
    · rfl
    · exact h.usable j
  stores j := by
    rw [put_member]
    split_ifs
    · exact hm.stores
    · exact h.stores j
  forgets j hj := by
    rw [put_member]
    split_ifs
    · exact ⟨hm.unitCalls.trans hcalls, hm.keyCache.trans hcache⟩
    · exact h.forgets j hj
  rests j hj hdirty := by
    rw [put_member] at hdirty ⊢
    split_ifs at hdirty ⊢
    · obtain ⟨u, hu⟩ := h.served
      have hentries : t.ledger.entries = u.ledger.entries := hm.entries.trans hu.entries.symm
      refine ⟨⟨le_rfl, hm.sound⟩, fun P hP nil => ?_⟩
      dsimp only
      rw [hentries]
      exact hu.maintains P hP nil
    · exact h.rests j hj hdirty
  works s hs hj := by
    rw [put_member, if_neg (away s hs)]
    exact h.works s hs hj
  joins s hs hj := by
    rw [put_member, if_neg (away s hs)]
    exact h.joins s hs hj

/-- A session of a governor's own is begun. -/
theorem enter {i : ι} {t : Governor} (free : f.session = none)
    (hm : f.store.Current w f.draws (f.member i).governor t) (block : Bool) :
    Serves w { f.put i { governor := f.begun t block } with
      session := some { holder := i, claims := f.store.claims } } := by
  have away := away_of_free free
  obtain ⟨hcalls, hcache⟩ := h.forgets i (away i).rests
  have hserved := h.begun hm hcalls hcache block
  have member (j : ι) := f.put_member i j { governor := f.begun t block }
  refine ⟨h.served, fun j => ?_, fun j => ?_, fun j hj => ?_, fun j hj hdirty => ?_,
    fun s hs hj => ?_, fun s hs hj => ?_⟩
  · change ((f.put i _).member j).unusable = false
    rw [member]
    split_ifs
    · rfl
    · exact h.usable j
  · change ((f.put i _).member j).governor.store = true
    rw [member]
    split_ifs
    · exact hm.stores
    · exact h.stores j
  · have hne : j ≠ i := (hj _ rfl rfl).symm
    change ((f.put i _).member j).governor.unitCalls = ∅ ∧ ((f.put i _).member j).governor.keyCache = ∅
    rw [member, if_neg hne]
    exact h.forgets j (away j).rests
  · have hne : j ≠ i := (hj _ rfl rfl).symm
    change ((f.put i _).member j).dirty = false at hdirty
    change (((f.put i _).member j).governor.draws ≤ f.draws ∧
      ∃ c, ((f.put i _).member j).governor.Sound w f.store.unit c) ∧
        ((f.put i _).member j).governor.Maintains w f.store.unit
    rw [member, if_neg hne] at hdirty ⊢
    exact h.rests j (away j).rests hdirty
  · cases hs
    refine ⟨_, hserved, ?_⟩
    change Governor.Proceeds w f.store.unit _ ((f.put i _).member i).governor
    rw [member, if_pos rfl]
    exact .refl fun _ => ⟨hserved.sound, hserved.kept⟩
  · cases hs
    cases hj

/-- A caller's transaction is joined. -/
theorem join {i : ι} {t : Governor} (free : f.session = none)
    (hm : f.store.Current w f.draws (f.member i).governor t) :
    Serves w { f.put i { governor := { t with draws := f.draws } } with
      session := some { holder := i, joined := true, claims := f.store.claims } } := by
  have away := away_of_free free
  obtain ⟨hcalls, hcache⟩ := h.forgets i (away i).rests
  have hfollow : (f.put i { governor := { t with draws := f.draws } }).Serves w :=
    h.follow (away i) hm hcalls hcache
  refine ⟨hfollow.served, hfollow.usable, hfollow.stores, fun j _ => hfollow.forgets j (away j).rests,
    fun j _ => hfollow.rests j (away j).rests, fun s hs hj => ?_, fun s hs _ => ?_⟩
  · cases hs
    cases hj
  · cases hs
    change ((f.put i _).member i).governor.ledger.entries = f.store.entries
    rw [put_member, if_pos rfl]
    exact hm.entries

/-- A governor works in its session. -/
theorem work {i : ι} {s s' : WriterSession ι} (held : f.held i false = some s)
    (labour : Labour w (f.member i).governor s g s') (distinct : w.Distinct g.draws) :
    f.shared.Step (f.work i g s').shared ∧ (f.work i g s').Serves w := by
  obtain ⟨hs, rfl, hj⟩ := held_eq_some.mp held
  obtain ⟨u, hu, hproceeds⟩ := h.works s hs hj
  obtain ⟨hholder, hjoined⟩ := labour.session
  have hlater := labour.proceeds hproceeds.orderly
  have hdraws : f.draws ≤ g.draws := h.paced s hs hj ▸ hlater.draws
  obtain ⟨c, hc⟩ := hproceeds.sound (distinct.mono hlater.draws)
  have hholds : f.shared.holder = some s.holder := congrArg (Option.map WriterSession.holder) hs
  have hrests {j : ι} (hj' : (f.work s.holder g s').Rests j) : j ≠ s.holder ∧ f.Rests j := by
    have hne : j ≠ s.holder := fun heq => hj' s' rfl (hjoined.trans hj) (hholder.trans heq.symm)
    refine ⟨hne, fun s₁ hs₁ _ => ?_⟩
    obtain rfl : s = s₁ := Option.some.inj (hs.symm.trans hs₁)
    exact hne.symm
  have member (j : ι) : (f.work s.holder g s').member j = if j = s.holder then
      { f.member s.holder with governor := g } else f.member j := put_member _ _ _ _
  constructor
  · have hshared : (f.work s.holder g s').shared =
        { f.shared with copy := Function.update f.shared.copy s.holder g.history } := by
      have hput := @shared_put _ _ f s.holder { f.member s.holder with governor := g }
        f.shared.stale fun j => ?_
      · have hcopy := congrArg SharedHistory.copy hput
        have hstale := congrArg SharedHistory.stale hput
        refine SharedHistory.ext rfl hcopy hstale ?_
        rw [hholds]
        exact congrArg some hholder
      · split_ifs with hji
        · rw [hji]
          rfl
        · rfl
    rw [hshared]
    exact .goOn s.holder _ hholds (labour.lengthens.history_le hc distinct)
  · refine ⟨⟨u, { hu with draws := hu.draws.trans hdraws }⟩, fun j => ?_, fun j => ?_,
      fun j hj' => ?_, fun j hj' hdirty => ?_, fun s₁ hs₁ _ => ?_, fun s₁ hs₁ hj₁ => ?_⟩
    · rw [member]
      split_ifs <;> exact h.usable _
    · rw [member]
      split_ifs
      · exact hlater.store.trans (h.stores _)
      · exact h.stores j
    · rw [member, if_neg (hrests hj').1]
      exact h.forgets j (hrests hj').2
    · rw [member, if_neg (hrests hj').1] at hdirty ⊢
      exact (h.rests j (hrests hj').2 hdirty).imp_left (And.imp_left fun hle => hle.trans hdraws)
    · cases hs₁
      refine ⟨u, { hu with draws := hu.draws.trans hdraws }, ?_⟩
      rw [member, if_pos hholder]
      exact hproceeds.trans hlater
    · cases hs₁
      rw [hjoined, hj] at hj₁
      cases hj₁

/-- A session goes on by what does not touch the governor that holds it. -/
theorem goOn {s s' : WriterSession ι} {n : ℕ} (hs : f.session = some s)
    (hholder : s'.holder = s.holder) (hjoined : s'.joined = s.joined) (hn : f.draws ≤ n) :
    f.shared.Step (Fleet.shared { f with session := some s', draws := n }) ∧
      Serves w { f with session := some s', draws := n } := by
  have hrests {j : ι} (hj' : Rests { f with session := some s', draws := n } j) : f.Rests j := by
    intro s₁ hs₁ hj₁ heq
    obtain rfl : s = s₁ := Option.some.inj (hs.symm.trans hs₁)
    exact hj' s' rfl (hjoined.trans hj₁) (hholder.trans heq)
  have mono {u : Governor} (hu : f.store.Served w f.draws u) : f.store.Served w n u :=
    { hu with draws := hu.draws.trans hn }
  constructor
  · have hshared : Fleet.shared { f with session := some s', draws := n } = f.shared := by
      refine SharedHistory.ext rfl rfl rfl ?_
      change some s'.holder = f.session.map WriterSession.holder
      rw [hs, hholder]
      rfl
    rw [hshared]
    exact .rest
  · refine ⟨h.served.imp fun _ => mono, h.usable, h.stores, fun j hj' => h.forgets j (hrests hj'),
      fun j hj' hdirty =>
        (h.rests j (hrests hj') hdirty).imp_left (And.imp_left fun hle => hle.trans hn),
      fun s₁ hs₁ hj₁ => ?_, fun s₁ hs₁ hj₁ => ?_⟩
    · cases hs₁
      rw [hholder]
      obtain ⟨u, hu, hproceeds⟩ := h.works s hs (hjoined ▸ hj₁)
      exact ⟨u, mono hu, hproceeds⟩
    · cases hs₁
      rw [hholder]
      exact h.joins s hs (hjoined ▸ hj₁)

/-- A governor leaves its session, over a store it left as it was or committed to. -/
theorem quit {s : WriterSession ι} (hs : f.session = some s) (hj : s.joined = false)
    (distinct : w.Distinct f.draws) (store : SharedStore)
    (booked : List (SettlementClaim × List LedgerEntry)) (dirty : Bool)
    (hunit : store.unit = f.store.unit) (hserved : ∃ u, store.Served w f.draws u)
    (hstore : store.entries = (f.member s.holder).governor.ledger.entries ∨
      dirty = true ∧ store.entries = f.store.entries) :
    let f' : Fleet ι :=
      { put { f with store := store, booked := booked } s.holder
          { f.member s.holder with
            governor := { (f.member s.holder).governor.leave with trips := none }
            dirty := dirty } with session := none }
    f.shared.Step f'.shared ∧ f'.Serves w := by
  intro f'
  obtain ⟨u, hu, hproceeds⟩ := h.works s hs hj
  have hdraws := h.paced s hs hj
  obtain ⟨c, hc⟩ := hproceeds.sound (hdraws ▸ distinct)
  have hholds : f.shared.holder = some s.holder := congrArg (Option.map WriterSession.holder) hs
  have hrests {j : ι} (hne : j ≠ s.holder) : f.Rests j := by
    intro s₁ hs₁ _
    obtain rfl : s = s₁ := Option.some.inj (hs.symm.trans hs₁)
    exact hne.symm
  have member (j : ι) : f'.member j = if j = s.holder then
      { f.member s.holder with
        governor := { (f.member s.holder).governor.leave with trips := none }
        dirty := dirty } else f.member j := put_member _ _ _ _
  constructor
  · have hshared : f'.shared =
        { committed := store.history
          copy := f.shared.copy
          stale := if dirty then insert s.holder f.shared.stale else f.shared.stale
          holder := none } := by
      refine SharedHistory.ext rfl (funext fun j => ?_) (Set.ext fun j => ?_) rfl
      · change (f'.member j).governor.history = (f.member j).governor.history
        rw [member]
        split_ifs with hji
        · rw [hji]
          rfl
        · rfl
      · change (f'.member j).dirty = true ↔ _
        rw [member]
        have hclean := h.coherent.current s.holder hholds
        cases dirty with
        | true =>
          rw [if_pos rfl, Set.mem_insert_iff]
          split_ifs with hji
          · exact iff_of_true rfl (Or.inl hji)
          · exact ⟨Or.inr, fun hm => hm.resolve_left hji⟩
        | false =>
          rw [if_neg Bool.false_ne_true]
          split_ifs with hji
          · exact iff_of_false id (hji ▸ hclean)
          · exact Iff.rfl
    rw [hshared]
    rcases hstore with hcopy | ⟨hdirty, hsame⟩
    · have hhistory : store.history = f.shared.copy s.holder := hcopy
      rw [hhistory]
      cases dirty with
      | true => exact .lose s.holder hholds
      | false => exact .commit s.holder hholds
    · have hhistory : store.history = f.shared.committed := hsame
      rw [hhistory, hdirty]
      exact .refuse s.holder hholds
  · refine ⟨hserved, fun j => ?_, fun j => ?_, fun j _ => ?_, fun j _ hdirty => ?_,
      fun s₁ hs₁ => (by cases hs₁), fun s₁ hs₁ => (by cases hs₁)⟩
    · rw [member]
      split_ifs <;> exact h.usable _
    · rw [member]
      split_ifs <;> exact h.stores _
    · rw [member]
      split_ifs with hji
      · exact ⟨rfl, rfl⟩
      · exact h.forgets j (hrests hji)
    · rw [member] at hdirty ⊢
      change (_ ∧ ∃ c, Governor.Sound w store.unit _ c) ∧ Governor.Maintains w store.unit _
      rw [hunit]
      split_ifs at hdirty ⊢ with hji
      · exact ⟨⟨hdraws.le, c, hc.run, hc.net, hc.stands, hc.auths, hc.drawn⟩,
          h.maintains hs hj distinct⟩
      · exact h.rests j (hrests hji) hdirty

/-- A session of a governor's own ends. -/
theorem leave {i : ι} {s : WriterSession ι} (held : f.held i false = some s) (ending : Ending)
    (distinct : w.Distinct f.draws) :
    f.shared.Step (f.ended i s ending).shared ∧ (f.ended i s ending).Serves w := by
  obtain ⟨hs, rfl, hj⟩ := held_eq_some.mp held
  obtain ⟨u, hu, hproceeds⟩ := h.works s hs hj
  have hdraws := h.paced s hs hj
  unfold ended
  dsimp only
  generalize (if s.failed then Ending.refused else ending) = ending
  cases hhappened : ending.happened with
  | true =>
    rw [if_pos rfl]
    refine h.quit hs hj distinct _ _ _ rfl ?_ (Or.inl rfl)
    have hkept := hproceeds.kept (hdraws ▸ distinct)
    have hvalid := (hproceeds.adds (hdraws ▸ distinct)).valid hu.valid
    exact ⟨(f.member s.holder).governor, hproceeds.sound (hdraws ▸ distinct), hkept, hvalid, rfl,
      rfl, h.stores _, hdraws.le, h.maintains hs hj distinct⟩
  | false =>
    rw [if_neg Bool.false_ne_true]
    refine h.quit hs hj distinct _ _ _ rfl h.served ?_
    obtain ⟨new, hnew⟩ := hproceeds.grows
    rw [hu.entries] at hnew
    by_cases hwrote : f.store.entries.length < (f.member s.holder).governor.ledger.entries.length
    · refine Or.inr ⟨?_, rfl⟩
      cases ending with
      | committed => cases hhappened
      | refused | lost => simp [hwrote]
    · refine Or.inl ?_
      rw [← hnew, List.length_append] at hwrote
      have hnil : new = [] := List.eq_nil_of_length_eq_zero (by omega)
      rw [← hnew, hnil, List.append_nil]

/-- A caller's transaction ends. -/
theorem part {i : ι} {s : WriterSession ι} (held : f.held i true = some s) (committed : Bool) :
    f.shared.Step (f.parted s committed).shared ∧ (f.parted s committed).Serves w := by
  obtain ⟨hs, rfl, hj⟩ := held_eq_some.mp held
  have hholds : f.shared.holder = some s.holder := congrArg (Option.map WriterSession.holder) hs
  have hrests (j : ι) : f.Rests j := by
    intro s₁ hs₁ hj₁
    obtain rfl : s = s₁ := Option.some.inj (hs.symm.trans hs₁)
    rw [hj] at hj₁
    cases hj₁
  have hcommitted : f.shared.copy s.holder = f.shared.committed := h.joins s hs hj
  have hstep : f.shared.Step { f.shared with holder := none } := by
    have hcommit := SharedHistory.Step.commit (s := f.shared) s.holder hholds
    rwa [hcommitted] at hcommit
  have hserves (claims owed : List SettlementClaim) : Serves w
      { f with store := { f.store with claims := claims }, owed := owed, session := none } := by
    obtain ⟨u, hu⟩ := h.served
    refine ⟨⟨u, hu.sound, hu.kept, hu.valid, hu.entries, hu.keys, hu.stores, hu.draws,
      hu.maintains⟩, h.usable, h.stores, fun j _ => h.forgets j (hrests j), fun j _ => h.rests j (hrests j),
      fun s₁ hs₁ => (by cases hs₁), fun s₁ hs₁ => (by cases hs₁)⟩
  unfold parted
  split_ifs
  · exact ⟨hstep, hserves _ _⟩
  · exact ⟨hstep, hserves f.store.claims f.owed⟩

/-- Every event keeps a fleet safe, and is a step of the history it shares. -/
theorem moved (hmoved : Moved w f f') (distinct : w.Distinct f'.draws) :
    f.shared.Step f'.shared ∧ f'.Safe w := by
  obtain ⟨hpaced, hdraws⟩ := h.paced.moved hmoved
  suffices hboth : f.shared.Step f'.shared ∧ f'.Serves w from
    ⟨hboth.1, { hboth.2 with coherent := h.coherent.step hboth.1, paced := hpaced }⟩
  cases hmoved with
  | rest => exact ⟨.rest, h.toServes⟩
  | follow i m away member =>
    have hm : m.unusable = false ∧ m.governor.unitCalls = ∅ ∧ m.governor.keyCache = ∅ ∧
        ∃ t, m.followed f.store = .ok t ∧ f.store.Current w f.draws m.governor t := by
      rcases member with rfl | ⟨policy, rfl⟩
      · obtain ⟨hcalls, hcache⟩ := h.forgets i away.rests
        exact ⟨h.usable i, hcalls, hcache, h.followed_ok away⟩
      · obtain ⟨u, hu⟩ := h.served
        exact ⟨rfl, rfl, rfl, Member.followed_ok hu rfl fun hdirty => by cases hdirty⟩
    obtain ⟨husable, hcalls, hcache, t, ht, hcurrent⟩ := hm
    rw [Member.follow_eq husable ht]
    refine ⟨?_, h.follow away hcurrent hcalls hcache⟩
    rw [shared_follow rfl hcurrent.entries]
    refine .follow i fun hi => ?_
    obtain ⟨s, hs, rfl⟩ := Option.map_eq_some_iff.mp hi
    exact away s hs rfl
  | astray i e free astray =>
    obtain ⟨t, ht, -⟩ := h.followed_ok (away_of_free free i)
    rw [astray] at ht
    cases ht
  | grant i block joined t free followed =>
    obtain ⟨t', ht', hcurrent⟩ := h.followed_ok (away_of_free free i)
    obtain rfl : t = t' := Except.ok.inj (followed.symm.trans ht')
    have hfree : f.shared.holder = none := congrArg (Option.map WriterSession.holder) free
    have henter (m : Member) (s : WriterSession ι) (hs : s.holder = i) (hdirty : m.dirty = false)
        (hentries : m.governor.ledger.entries = f.store.entries) :
        f.shared.Step (Fleet.shared { f.put i m with session := some s }) := by
      have hput := shared_follow (f := f) (i := i) hdirty hentries
      have hshared : Fleet.shared { f.put i m with session := some s } =
          { f.shared.follow i with holder := some i } := by
        rw [← hput, ← hs]
        rfl
      rw [hshared]
      exact .enter i hfree
    cases joined with
    | true => exact ⟨henter _ _ rfl rfl hcurrent.entries, h.join free hcurrent⟩
    | false => exact ⟨henter _ _ rfl rfl hcurrent.entries, h.enter free hcurrent block⟩
  | work i s s' g held labour => exact h.work held labour distinct
  | fail i joined s held => exact h.goOn (held_eq_some.mp held).1 rfl rfl le_rfl
  | claim i s c held drawn owes =>
    refine h.goOn (held_eq_some.mp held).1 ?_ ?_ (Nat.le_succ _) <;>
      (unfold WriterSession.claim; split_ifs <;> rfl)
  | leave i s ending held => exact h.leave held ending (distinct.mono hdraws)
  | part i s committed held => exact h.part held committed

end Safe

/-! ### Runs -/

/-- Every run draws on. -/
theorem Paced.run (h : f.Paced) (events : List (Event ι)) :
    (f.run w events).Paced ∧ f.draws ≤ (f.run w events).draws := by
  induction events generalizing f with
  | nil => exact ⟨h, le_rfl⟩
  | cons e rest ih =>
    obtain ⟨hpaced, hdraws⟩ := h.moved (f.step_moved (w := w) e)
    obtain ⟨hrun, hle⟩ := ih hpaced
    exact ⟨hrun, hdraws.trans hle⟩

/-- Every run of a fleet is one of the history it shares, and keeps it safe. -/
theorem Safe.run (h : f.Safe w) (events : List (Event ι))
    (distinct : w.Distinct (f.run w events).draws) :
    Relation.ReflTransGen SharedHistory.Step f.shared (f.run w events).shared ∧
      (f.run w events).Safe w := by
  induction events generalizing f with
  | nil => exact ⟨.refl, h⟩
  | cons e rest ih =>
    have hmoved := f.step_moved (w := w) e
    have hle := ((h.paced.moved hmoved).1.run (w := w) rest).2
    obtain ⟨hstep, hsafe⟩ := h.moved hmoved (distinct.mono hle)
    obtain ⟨hrun, hend⟩ := ih hsafe distinct
    exact ⟨.head hstep hrun, hend⟩

end Fleet

/-! ### Agreement -/

namespace Fleet

variable {ι : Type} [DecidableEq ι] {f f' : Fleet ι}

theorem Moved.unit_eq (h : Moved w f f') : f'.store.unit = f.store.unit := by
  cases h with
  | leave i s ending held =>
    unfold ended
    dsimp only
    split_ifs <;> rfl
  | part i s committed held =>
    unfold parted
    split_ifs <;> rfl
  | rest | follow | astray | grant | work | fail | claim => rfl

theorem run_unit (f : Fleet ι) (events : List (Event ι)) :
    (f.run w events).store.unit = f.store.unit := by
  induction events generalizing f with
  | nil => rfl
  | cons e rest ih => exact (ih _).trans (f.step_moved (w := w) e).unit_eq

/-- What holds of the governors of a fleet, whatever has happened. -/
structure Converges (w : World) (unit : Unit) (f : Fleet ι) : Prop where
  /-- None was refused what was committed. -/
  usable : ∀ i, (f.member i).unusable = false
  /-- What is committed is accepted by a replay. -/
  accepted : ∃ s,
    replay f.store.entries [] false none (some (refundsIn f.store.entries)) unit = .ok s
  /-- A governor that does not wait for a re-read serves a part of what is committed. -/
  behind : ∀ i, f.Rests i → (f.member i).dirty = false →
    (f.member i).governor.history ≤ f.store.history ∧ (f.member i).governor.ServesReplay unit
  /-- One in its session goes on from what is committed. -/
  ahead : ∀ s, f.session = some s → s.joined = false →
    f.store.history ≤ (f.member s.holder).governor.history ∧
      (f.member s.holder).governor.ServesReplay unit
  /-- Of two governors that do not wait for a re-read, one serves a part of what the other does. -/
  forkless : ∀ i j, (f.member i).dirty = false → (f.member j).dirty = false →
    (f.member i).governor.ledger.entries <+: (f.member j).governor.ledger.entries ∨
      (f.member j).governor.ledger.entries <+: (f.member i).governor.ledger.entries
  /-- One that is in no session catches up with what is committed, when it next reads it. -/
  catchesUp : ∀ i, f.Away i → ((f.step w (.refresh i)).member i).dirty = false ∧
    ((f.step w (.refresh i)).member i).governor.ledger.entries = f.store.entries

namespace Safe

variable (h : f.Safe w)

include h

/-- Governors that share a ledger serve one chain. -/
theorem converges (distinct : w.Distinct f.draws) : f.Converges w f.store.unit where
  usable := h.usable
  accepted := by
    obtain ⟨u, hu⟩ := h.served
    obtain ⟨c, hc⟩ := hu.sound
    obtain ⟨s, hs, -⟩ := hc.reread
    rw [Governor.refundLookup, if_pos hu.stores, hu.entries] at hs
    exact ⟨s, hs⟩
  behind i hi hdirty := ⟨h.rests_behind hi hdirty, h.servesReplay hdirty distinct⟩
  ahead s hs hj := by
    refine ⟨h.works_ahead hs, h.servesReplay ?_ distinct⟩
    have hcurrent := h.coherent.current s.holder (congrArg (Option.map WriterSession.holder) hs)
    exact Bool.eq_false_of_not_eq_true hcurrent
  forkless i j hi hj := by
    have around (i : ι) (hi : (f.member i).dirty = false) :
        (f.member i).governor.ledger.entries <+: f.store.entries ∨
          (f.shared.holder = some i) := by
      by_cases away : f.shared.holder = some i
      · exact Or.inr away
      · exact Or.inl (History.isPrefix (h.coherent.behind i (by simp [shared, hi]) away))
    have hold {i : ι} (hi : f.shared.holder = some i) :
        f.store.entries <+: (f.member i).governor.ledger.entries :=
      History.isPrefix (h.coherent.ahead i hi)
    rcases around i hi with hbefore | hholds <;> rcases around j hj with hbefore' | hholds'
    · exact List.prefix_or_prefix_of_prefix hbefore hbefore'
    · exact Or.inl (hbefore.trans (hold hholds'))
    · exact Or.inr (hbefore'.trans (hold hholds))
    · obtain rfl : i = j := Option.some.inj (hholds.symm.trans hholds')
      exact Or.inl List.prefix_rfl
  catchesUp i away := by
    obtain ⟨t, ht, hcurrent⟩ := h.followed_ok away
    have hany : ¬f.session.any fun s => s.holder = i := by
      cases hs : f.session with
      | none => simp
      | some s => simpa using away s hs
    rw [step, if_neg hany, Member.follow_eq (h.usable i) ht, put_member, if_pos rfl]
    exact ⟨rfl, hcurrent.entries⟩

end Safe

end Fleet

/-- Whatever happens in a fleet, what is committed is only gone on from, and its governors serve
it. -/
theorem fleet_agrees {ι : Type} [DecidableEq ι] (w : World) (unit : Unit)
    (policy : ι → GovernancePolicy) (before after : List (Fleet.Event ι))
    (distinct : w.Distinct ((Fleet.new unit policy).run w (before ++ after)).draws) :
    Relation.ReflTransGen SharedHistory.Step ((Fleet.new unit policy).run w before).shared
        ((Fleet.new unit policy).run w (before ++ after)).shared ∧
      ((Fleet.new unit policy).run w before).store.history ≤
        ((Fleet.new unit policy).run w (before ++ after)).store.history ∧
      ((Fleet.new unit policy).run w (before ++ after)).Converges w unit := by
  have hunit := Fleet.run_unit (w := w) (Fleet.new unit policy) (before ++ after)
  have hsafe := (Fleet.safe_new w unit policy).run (before ++ after) distinct
  have hrun : (Fleet.new unit policy).run w (before ++ after) =
      ((Fleet.new unit policy).run w before).run w after := List.foldl_append
  rw [hrun] at distinct
  have hdraws := (((Fleet.paced_new unit policy).run (w := w) before).1.run (w := w) after).2
  obtain ⟨-, hmid⟩ := (Fleet.safe_new w unit policy).run before (distinct.mono hdraws)
  obtain ⟨hgoes, -⟩ := hmid.run after distinct
  have hconverges := hsafe.2.converges (hrun ▸ distinct)
  rw [hunit] at hconverges
  rw [← hrun] at hgoes
  exact ⟨hgoes, SharedHistory.committed_le_of_run hmid.coherent hgoes, hconverges⟩

/-- Two governors that take turns: one's commit is lost after it happened, the other owes a claim
and redeems it, at first in vain. -/
def sampleFleet : List (Fleet.Event Bool) :=
  [.enter true false, .perform true (.openRoot (txt "a") (wholeAmount 10) []), .leave true .committed,
   .enter false false, .lookUp false [txt "k"],
   .perform false (.authorize (txt "a") (wholeAmount 3) [] (some (txt "k"))),
   .leave false (.lost true),
   .join true, .claim true (txt "a") (wholeAmount 2) (txt "owed") none, .part true true,
   .enter true false, .redeem true none, .leave true .refused,
   .enter true true, .redeem true none, .leave true .committed, .enter false false]

/-- Both commit, the redemption once, and the record of the call under a key is kept. -/
theorem sampleFleet_run :
    ((Fleet.new USD fun _ => samplePolicy).run sampleWorld sampleFleet).draws ≤ 2 ^ 128 ∧
      ((Fleet.new USD fun _ => samplePolicy).run sampleWorld sampleFleet).store.entries.map
        LedgerEntry.entryType = [.funding, .hold, .spend] ∧
      (((Fleet.new USD fun _ => samplePolicy).run sampleWorld
        sampleFleet).store.keys.get? (txt "k")).isSome ∧
      ((Fleet.new USD fun _ => samplePolicy).run sampleWorld sampleFleet).booked.length = 1 ∧
      (((Fleet.new USD fun _ => samplePolicy).run sampleWorld sampleFleet).member true).dirty =
        false := by
  decide +kernel

theorem fleet_agrees_sampleFleet :
    ((Fleet.new USD fun _ => samplePolicy).run sampleWorld (sampleFleet.take 7)).store.history ≤
        ((Fleet.new USD fun _ => samplePolicy).run sampleWorld sampleFleet).store.history ∧
      ((Fleet.new USD fun _ => samplePolicy).run sampleWorld sampleFleet).Converges sampleWorld
        USD := by
  have hsplit : sampleFleet.take 7 ++ sampleFleet.drop 7 = sampleFleet := List.take_append_drop _ _
  have hagrees := fleet_agrees sampleWorld USD (fun _ => samplePolicy) (sampleFleet.take 7)
    (sampleFleet.drop 7)
  rw [hsplit] at hagrees
  exact (hagrees (sampleWorld_distinct sampleFleet_run.1)).2

end AgentGov
