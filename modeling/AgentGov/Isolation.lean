import AgentGov.Serving

/-!
# Batches that isolate their requests

A batch whose keys can all be looked up gives every request what it would come to alone, and leaves
the governor the requests would leave one after another. A key that cannot be looked up takes from
every other request of the batch what it got, and what it wrote.

## Main definitions

* `AgentGov.Governor.Isolated`: the requests of a batch come to what they would alone.
* `AgentGov.Governor.Hopeless`: a batch that comes to nothing alone either.

## Main results

* `AgentGov.Governor.lead_bindable`: a batch whose keys can all be looked up.
* `AgentGov.Governor.isolated_iff`: when a batch isolates its requests.
* `AgentGov.isolated_iff_bindable`: the same after every run.
-/

open Foundation

namespace AgentGov

variable {w : World} {unit : Unit} {c : Chain}

namespace Governor

variable {g t u : Governor} {m : Mutation} {ms : List Mutation} {queue : List (List Mutation)}

/-! ### Between units of work -/

/-- Outside of a block no trip is noted. -/
theorem handle_trips {β : Type} (i : Instr β) (h : g.trips = none) :
    (handle w β i g).2.trips = none := by
  have hcommit (p : Pending) (call : Option (Call × LedgerEntry)) :
      (g.commit p call).trips = none := by
    unfold commit
    split_ifs <;> exact h
  cases i with
  | mutating | served | policy | now | refundedOfSpend | forgetVelocity => exact h
  | called key outcome request =>
    have hrec (key : Text) : (g.recorded key).2.trips = none := by
      unfold recorded
      split_ifs
      · cases g.keyCache.get? key <;> exact h
      · exact h
    change (g.called key outcome request).2.trips = none
    unfold called
    cases key with
    | none => exact h
    | some key =>
      have hkey := hrec key
      dsimp only
      split
      · exact h
      · split
        · exact h
        · rcases hr : g.recorded key with ⟨_ | r, t⟩ <;> (rw [hr] at hkey; exact hkey)
  | work body call result =>
    simp only [handle, work]
    rcases body.run (stage w) g.begin with ⟨e | a, p⟩
    · exact h
    · exact hcommit _ _
  | answered call answer =>
    change (g.answered call answer).trips = none
    unfold answered
    cases call with
    | none => exact h
    | some call =>
      dsimp only
      cases g.keys.get? call.key <;> exact h
  | velocity scope =>
    change (g.countCall w scope).2.trips = none
    unfold countCall countFleet countOwn
    split_ifs
    · exact h
    · cases Op.cutoff (w.now g.draws) (some g.policy.window.micros) with
      | error e => exact h
      | ok since =>
        dsimp only
        split_ifs <;> exact h
    · dsimp only
      split_ifs <;> exact h
  | noteTrip scope reason =>
    change g.trips.map _ = none
    rw [h]
    rfl

theorem perform_trips (h : g.trips = none) (m : Mutation) : (g.perform w m).2.trips = none :=
  Program.run_invariant (I := fun t : Governor => t.trips = none) (fun _ i _ hg => handle_trips i hg)
    m.program h

/-- Whether a governor is in no unit of work. -/
structure Rests (g : Governor) : Prop where
  unitCalls : g.unitCalls = ∅
  keyCache : g.keyCache = ∅
  trips : g.trips = none

theorem Rests.bare_eq (h : g.Rests) : g.bare = g := by
  obtain ⟨hcalls, hcache, htrips⟩ := h
  rw [bare, ← hcalls, ← hcache, ← htrips]

theorem rests_leave (h : g.trips = none) : g.leave.Rests := ⟨rfl, rfl, h⟩

/-- Governors that rest are what they are apart from what units remember. -/
theorem Rests.ext (hg : g.Rests) (ht : t.Rests) (h : g.bare = t.bare) : g = t := by
  rw [← hg.bare_eq, h, ht.bare_eq]

theorem Rests.call (h : g.Rests) (m : Mutation) : (g.call w m).2.Rests :=
  rests_leave (perform_trips h.trips m)

theorem Rests.callAll (h : g.Rests) (ms : List Mutation) : (g.callAll w ms).2.Rests := by
  induction ms generalizing g with
  | nil => exact h
  | cons m rest ih => exact ih (h.call m)

theorem runTaken_trips (h : g.trips = none) (ms : List Mutation) :
    (g.runTaken w ms).2.trips = none := by
  induction ms generalizing g with
  | nil => exact h
  | cons m rest ih => exact ih (perform_trips h m)

theorem drain_trips (h : g.trips = none) (queue : List (List Mutation)) :
    (g.drain w queue).2.1.trips = none := by
  induction queue generalizing g with
  | nil => exact h
  | cons taken queue ih =>
    unfold drain
    cases hlook : g.lookUpCalls (taken.filterMap Mutation.key) with
    | error key => exact h
    | ok u =>
      obtain ⟨-, -, htrips, -⟩ := lookUpCalls_ok hlook
      exact ih (runTaken_trips (htrips.trans h) taken)

theorem Rests.retrip (h : g.Rests) (trips : List (Text × Text)) : (g.retrip w trips).Rests := by
  induction trips generalizing g with
  | nil => exact h
  | cons trip rest ih =>
    exact ih (rests_leave (Program.run_invariant (I := fun t : Governor => t.trips = none)
      (fun _ i _ hg => handle_trips i hg) _ h.trips))

theorem Rests.rollBackUnit (h : g.Rests) (hb : g.rollBackUnit u = .ok t) : t.Rests := by
  obtain ⟨-, -, hcalls, hcache, htrips⟩ := rollBackUnit_frame hb
  exact ⟨hcalls.trans h.unitCalls, hcache.trans h.keyCache, htrips.trans h.trips⟩

/-- A governor that serves an order rests after it. -/
theorem Rests.serve {o : Order} (h : g.Rests) (hs : g.serve w o = .ok t) : t.Rests := by
  cases o with
  | alone m =>
    cases hs
    exact h.call m
  | batch queue =>
    simp only [Governor.serve] at hs
    split_ifs at hs with hstore
    · have hdrain := rests_leave (drain_trips (w := w) h.trips queue)
      unfold lead at hs
      rcases hd : g.drain w queue with ⟨served, u, _ | ⟨key, left⟩⟩ <;> rw [hd] at hs hdrain
      · cases hs
        exact hdrain
      · have hback : u.leave.rollBackTo g = .ok t := hs
        unfold rollBackTo at hback
        split_ifs at hback
        · obtain ⟨s, -, hback⟩ := bind_eq_ok.mp hback
          cases hback
          exact ⟨rfl, rfl, hdrain.trips⟩
        · cases hback
          exact hdrain
    · cases hs
      exact h.callAll _
  | block b =>
    simp only [Governor.serve] at hs
    rcases hr : runBlock w { g with trips := some [] } b.calls b.raises with ⟨_ | e, u⟩ <;>
      rw [hr] at hs
    · cases hs
      exact ⟨rfl, rfl, rfl⟩
    · obtain ⟨back, hback, hs⟩ := bind_eq_ok.mp hs
      cases hs
      exact Rests.retrip (Rests.rollBackUnit ⟨rfl, rfl, rfl⟩ hback) _

theorem Rests.serveAll {orders : List Order} (h : g.Rests) (hs : g.serveAll w orders = .ok t) :
    t.Rests := by
  induction orders generalizing g with
  | nil =>
    cases hs
    exact h
  | cons o rest ih =>
    obtain ⟨u, hu, hs⟩ := bind_eq_ok.mp hs
    exact ih (h.serve hu) hs

theorem serveAll_store {orders : List Order} (hs : g.serveAll w orders = .ok t) :
    t.store = g.store := by
  induction orders generalizing g with
  | nil =>
    cases hs
    rfl
  | cons o rest ih =>
    obtain ⟨u, hu, hs⟩ := bind_eq_ok.mp hs
    exact (ih hs).trans (serve_store hu)

/-! ### Batches whose keys can be looked up -/

/-- Whether every key of some requests can be given to the store. -/
def Bindable (ms : List Mutation) : Prop := ∀ m ∈ ms, ∀ key, m.key = some key → bindable key = true

/-- A batch whose keys can all be looked up is served as its requests are, one after another. -/
theorem lead_bindable (hg : g.Orderly w unit) (hrests : g.Rests) (hb : Bindable queue.flatten)
    (distinct : w.Distinct (g.callAll w queue.flatten).2.draws) :
    g.lead w queue =
      ((g.callAll w queue.flatten).1, .ok (g.callAll w queue.flatten).2, []) := by
  obtain ⟨hserved, hbare, hnone⟩ := drain_alone hg hg rfl queue hb distinct
  have hleave := rests_leave (drain_trips (w := w) hrests.trips queue)
  have hsame := hleave.ext (hrests.callAll queue.flatten) ((bare_leave _).trans hbare)
  unfold lead
  rcases hd : g.drain w queue with ⟨served, u, x⟩
  rw [hd] at hserved hnone hsame
  obtain rfl : x = none := hnone
  dsimp only at hserved hsame ⊢
  rw [hserved, hsame]

/-- Requests whose keys can all be looked up are served alone as they are called alone, and what
comes after them from there. -/
theorem leadAlone_append (hg : g.Orderly w unit) (hrests : g.Rests) (hb : Bindable ms)
    (distinct : w.Distinct (g.callAll w ms).2.draws) (ns : List Mutation) :
    g.leadAlone w (ms ++ ns) = ((g.callAll w ms).1 ++ ((g.callAll w ms).2.leadAlone w ns).1,
      ((g.callAll w ms).2.leadAlone w ns).2) := by
  induction ms generalizing g with
  | nil => rfl
  | cons m rest ih =>
    have hone : g.lead w [[m]] = _ := lead_bindable hg hrests
      (fun x hx => hb x (List.mem_cons.mpr (Or.inl (by simpa using hx))))
      (distinct.mono (callAll_draws (g.call w m).2 rest))
    have hrest : (g.call w m).2.leadAlone w (rest ++ ns) = _ := ih (hg.perform m).leave
      (hrests.call m) (fun x hx => hb x (List.mem_cons_of_mem m hx)) distinct
    rw [List.cons_append, leadAlone, hone]
    change (_ ++ ((g.call w m).2.leadAlone w (rest ++ ns)).1,
      ((g.call w m).2.leadAlone w (rest ++ ns)).2) = _
    rw [hrest]
    rfl

theorem leadAlone_bindable (hg : g.Orderly w unit) (hrests : g.Rests) (hb : Bindable ms)
    (distinct : w.Distinct (g.callAll w ms).2.draws) :
    g.leadAlone w ms = ((g.callAll w ms).1, .ok (g.callAll w ms).2) := by
  have happend := leadAlone_append hg hrests hb distinct []
  rw [List.append_nil] at happend
  rw [happend, leadAlone, List.append_nil]

/-! ### Keys that cannot be looked up -/

/-- What a request whose batch fails at a key comes to, if it was not run. -/
def unserved (key : Text) : Served := ⟨.error (.lookUp key), []⟩

/-- The first of the turns of a queue with a key that cannot be looked up. -/
theorem bindable_or_split (queue : List (List Mutation)) : Bindable queue.flatten ∨
    ∃ early bad rest, queue = early ++ bad :: rest ∧ Bindable early.flatten ∧
      ∃ key ∈ bad.filterMap Mutation.key, bindable key = false := by
  induction queue with
  | nil => exact Or.inl fun _ h => (List.not_mem_nil h).elim
  | cons taken queue ih =>
    by_cases htaken : ∃ key ∈ taken.filterMap Mutation.key, bindable key = false
    · exact Or.inr ⟨[], taken, queue, rfl, fun _ h => (List.not_mem_nil h).elim, htaken⟩
    · have hb : Bindable taken := by
        intro m hm key hkey
        by_contra hne
        exact htaken ⟨key, List.mem_filterMap.mpr ⟨m, hm, hkey⟩, by simpa using hne⟩
      have happend (early : List (List Mutation)) (he : Bindable early.flatten) :
          Bindable (taken :: early).flatten := by
        intro m hm
        rw [List.flatten_cons, List.mem_append] at hm
        exact hm.elim (hb m) (he m)
      rcases ih with hrest | ⟨early, bad, rest, rfl, hearly, hbad⟩
      · exact Or.inl (happend queue hrest)
      · exact Or.inr ⟨taken :: early, bad, rest, rfl, happend early hearly, hbad⟩

theorem drain_cons_ok {taken : List Mutation}
    (h : g.lookUpCalls (taken.filterMap Mutation.key) = .ok u) :
    g.drain w (taken :: queue) = ((u.runTaken w taken).1 ++
      ((u.runTaken w taken).2.drain w queue).1, ((u.runTaken w taken).2.drain w queue).2) := by
  rw [drain, h]

theorem drain_cons_error {taken : List Mutation} {key : Text}
    (h : g.lookUpCalls (taken.filterMap Mutation.key) = .error key) :
    g.drain w (taken :: queue) = (taken.map fun _ => unserved key, g, some (key, queue)) := by
  rw [drain, h]
  rfl

/-- A queue drained as far as a turn that can be looked up is drained from there. -/
theorem drain_append (early late : List (List Mutation)) (h : (g.drain w early).2.2 = none) :
    g.drain w (early ++ late) =
      ((g.drain w early).1 ++ ((g.drain w early).2.1.drain w late).1,
        ((g.drain w early).2.1.drain w late).2) := by
  induction early generalizing g with
  | nil => rfl
  | cons taken early ih =>
    cases hlook : g.lookUpCalls (taken.filterMap Mutation.key) with
    | error key =>
      rw [drain_cons_error hlook] at h
      cases h
    | ok u =>
      rw [drain_cons_ok hlook] at h ⊢
      rw [List.cons_append, drain_cons_ok hlook, ih h, List.append_assoc]

/-- A batch that fails at a key: every request of it, and the governor it leaves. -/
theorem lead_split (hg : g.Orderly w unit) (hrests : g.Rests) (hstore : g.store = true)
    (early : List (List Mutation)) (bad : List Mutation) (rest : List (List Mutation))
    (hb : Bindable early.flatten)
    (hbad : ∃ key ∈ bad.filterMap Mutation.key, bindable key = false)
    (distinct : w.Distinct (g.callAll w early.flatten).2.draws) :
    ∃ key, key ∈ bad.filterMap Mutation.key ∧ bindable key = false ∧
      g.lead w (early ++ bad :: rest) =
        ((g.callAll w early.flatten).1.map (fail key) ++ bad.map fun _ => unserved key,
          (g.callAll w early.flatten).2.rollBackTo g, rest) := by
  obtain ⟨hserved, hbare, hnone⟩ := drain_alone hg hg rfl early hb distinct
  have hleave := rests_leave (drain_trips (w := w) hrests.trips early)
  have hsame := hleave.ext (hrests.callAll early.flatten) ((bare_leave _).trans hbare)
  have hgoes := drainTurns_goes (w := w) g early
  have hon := hgoes.onward hg
  have hdraws : (g.drain w early).2.1.bare.draws = (g.callAll w early.flatten).2.bare.draws :=
    congrArg Governor.draws hbare
  obtain ⟨k, hk, hbound⟩ := hbad
  obtain ⟨key, hlook⟩ := lookUpCalls_unbindable (hon.kept (hdraws ▸ distinct))
    (hgoes.store.trans hstore) hk hbound
  obtain ⟨hmem, hkey⟩ := lookUpCalls_error hlook
  refine ⟨key, hmem, hkey, ?_⟩
  have hdrain : (g.drain w early).2.1.drain w (bad :: rest) =
      (bad.map fun _ => unserved key, (g.drain w early).2.1, some (key, rest)) :=
    drain_cons_error hlook
  rw [lead, drain_append early (bad :: rest) hnone, hdrain, ← hsame, ← hserved]
  simp only [List.map_append, List.map_map]
  rfl

/-- A request whose key cannot be looked up is not run, alone. -/
theorem lead_unbindable (hg : g.Orderly w unit) (hrests : g.Rests) (hstore : g.store = true)
    (distinct : w.Distinct g.draws) {key : Text} (hkey : m.key = some key)
    (hbound : bindable key = false) : g.lead w [[m]] = ([unserved key], .ok g, []) := by
  have hmem : [m].filterMap Mutation.key = [key] := by simp [hkey]
  obtain ⟨k, hk, -, hlead⟩ := lead_split (w := w) hg hrests hstore [] [m] []
    (fun _ h => (List.not_mem_nil h).elim) ⟨key, by simp [hmem], hbound⟩ distinct
  rw [hmem] at hk
  obtain rfl := List.mem_singleton.mp hk
  refine hlead.trans ?_
  rw [rollBackTo, if_neg (by simp [callAll])]
  rfl

/-- A request whose key can be looked up comes to what its own work decides, alone. -/
theorem lead_own (g : Governor) (m : Mutation)
    (hb : ∀ key, m.key = some key → bindable key = true) :
    ∃ u : Governor, (g.lead w [[m]]).1 = [u.served w m] := by
  have hbindable : ∀ key ∈ [m].filterMap Mutation.key, bindable key = true := by
    intro key hk
    obtain ⟨x, hx, hkey⟩ := List.mem_filterMap.mp hk
    rw [List.mem_singleton.mp hx] at hkey
    exact hb key hkey
  obtain ⟨u, hlook⟩ := lookUpCalls_isOk g hbindable
  refine ⟨u, ?_⟩
  rw [lead, drain, hlook]
  rfl

theorem served_ne_unserved (g : Governor) (m : Mutation) (key : Text) :
    g.served w m ≠ unserved key := by
  intro h
  have hreply := congrArg Served.reply h
  simp only [served, unserved] at hreply
  cases hr : (g.perform w m).1 with
  | error e =>
    rw [hr] at hreply
    cases hreply
  | ok a =>
    rw [hr] at hreply
    cases hreply

/-- Requests under one key that cannot be looked up come to nothing, alone. -/
theorem leadAlone_unbindable (hg : g.Orderly w unit) (hrests : g.Rests) (hstore : g.store = true)
    (distinct : w.Distinct g.draws) {key : Text} (hbound : bindable key = false)
    (hms : ∀ m ∈ ms, m.key = some key) :
    g.leadAlone w ms = (ms.map fun _ => unserved key, .ok g) := by
  induction ms with
  | nil => rfl
  | cons m rest ih =>
    unfold leadAlone
    rw [lead_unbindable hg hrests hstore distinct (hms m List.mem_cons_self) hbound]
    dsimp only
    rw [ih fun x hx => hms x (List.mem_cons_of_mem m hx)]
    rfl

/-- Requests that come to nothing alone, for a key that cannot be looked up, are all under it. -/
theorem key_of_leadAlone (hg : g.Orderly w unit) (hrests : g.Rests) (hstore : g.store = true)
    (distinct : w.Distinct g.draws) {key : Text}
    (h : (g.leadAlone w ms).1 = ms.map fun _ => unserved key) : ∀ m ∈ ms, m.key = some key := by
  induction ms with
  | nil => exact fun _ h => (List.not_mem_nil h).elim
  | cons m rest ih =>
    by_cases hb : ∀ k, m.key = some k → bindable k = true
    · obtain ⟨u, hu⟩ := lead_own (w := w) g m hb
      exfalso
      unfold leadAlone at h
      rcases hl : g.lead w [[m]] with ⟨served, _ | t, left⟩ <;> rw [hl] at h hu
      · dsimp only at h hu
        rw [hu] at h
        cases rest with
        | nil => exact served_ne_unserved u m key (List.cons.inj h).1
        | cons _ _ => simp at h
      · dsimp only at h hu
        rw [hu] at h
        exact served_ne_unserved u m key (List.cons.inj h).1
    · push Not at hb
      obtain ⟨k, hk, hbound⟩ := hb
      have hlead := lead_unbindable hg hrests hstore distinct hk (by simpa using hbound)
      unfold leadAlone at h
      rw [hlead] at h
      dsimp only at h
      obtain ⟨hhead, htail⟩ := List.cons.inj h
      have hkeys : k = key := by
        have hreply := congrArg Served.reply hhead
        cases hreply
        rfl
      intro x hx
      rcases List.mem_cons.mp hx with rfl | hx
      · rw [hk, hkeys]
      · exact ih htail x hx

/-! ### Isolation -/

/-- Whether the requests of a batch come to what they would in units of their own, one after
another: each gets the same and has written the same, and they leave the same governor. -/
def Isolated (w : World) (g : Governor) (queue : List (List Mutation)) : Prop :=
  ∃ taken, queue = taken ++ (g.lead w queue).2.2 ∧
    (g.lead w queue).1 = (g.leadAlone w taken.flatten).1 ∧
      (g.lead w queue).2.1 = (g.leadAlone w taken.flatten).2

/-- Whether a batch with a key that cannot be looked up comes to nothing alone either: the requests
before the turn it is looked up in all raise and write nothing, and those of that turn are all under
the key. -/
def Hopeless (w : World) (g : Governor) (queue : List (List Mutation)) : Prop :=
  ∃ early bad rest key, queue = early ++ bad :: rest ∧ Bindable early.flatten ∧
    (∀ x ∈ (g.callAll w early.flatten).1, (∃ failure, x.reply = .error failure) ∧ x.wrote = []) ∧
    bad ≠ [] ∧ bindable key = false ∧ ∀ m ∈ bad, m.key = some key

/-- What a failed batch leaves a request of, it had come to anyway. -/
theorem fail_eq_self {key : Text} {x : Served} :
    fail key x = x ↔ (∃ failure, x.reply = .error failure) ∧ x.wrote = [] := by
  obtain ⟨reply, wrote⟩ := x
  simp only [fail, Served.mk.injEq]
  cases reply with
  | ok a => simp
  | error failure => simp [eq_comm]

/-- A failed batch leaves its requests what they had come to, where it was nothing. -/
theorem map_fail_eq_self {key : Text} {l : List Served} : l.map (fail key) = l ↔
    ∀ x ∈ l, (∃ failure, x.reply = .error failure) ∧ x.wrote = [] := by
  conv_lhs => rhs; rw [← List.map_id l]
  rw [List.map_inj_left]
  exact forall₂_congr fun x _ => fail_eq_self

/-- Requests that write nothing leave the history as it was. -/
theorem callAll_silent (h : ∀ x ∈ (g.callAll w ms).1, x.wrote = []) :
    (g.callAll w ms).2.ledger.entries = g.ledger.entries := by
  induction ms generalizing g with
  | nil => rfl
  | cons m rest ih =>
    rw [callAll] at h
    have hm : (g.served w m).wrote = [] := h _ List.mem_cons_self
    have hgrows := perform_grows (w := w) g m
    have hlength := (List.drop_eq_nil_iff.mp hm)
    have hsame := hgrows.eq_of_length_le hlength
    exact (ih fun x hx => h x (List.mem_cons_of_mem _ hx)).trans hsame.symm

/-- A batch isolates its requests if every key can be looked up, or it is hopeless. -/
theorem isolated_iff (hg : g.Orderly w unit) (hrests : g.Rests) (hstore : g.store = true)
    (distinct : w.Distinct (g.callAll w queue.flatten).2.draws) :
    g.Isolated w queue ↔ Bindable queue.flatten ∨ g.Hopeless w queue := by
  have split {early rest : List (List Mutation)} {bad : List Mutation}
      (hq : queue = early ++ bad :: rest) (hb : Bindable early.flatten) :
      w.Distinct (g.callAll w early.flatten).2.draws := by
    subst hq
    rw [List.flatten_append, callAll_append] at distinct
    exact distinct.mono (callAll_draws _ _)
  constructor
  · rintro ⟨taken, hq, hserved, hgovernor⟩
    rcases bindable_or_split queue with hb | ⟨early, bad, rest, rfl, hb, hbad⟩
    · exact Or.inl hb
    · have hdist := split rfl hb
      obtain ⟨key, hmem, hbound, hlead⟩ := lead_split hg hrests hstore early bad rest hb hbad hdist
      rw [hlead] at hq hserved hgovernor
      have htaken : taken = early ++ [bad] := by
        have happ : early ++ bad :: rest = (early ++ [bad]) ++ rest := by simp
        exact (List.append_cancel_right (happ.symm.trans hq)).symm
      have hflat : taken.flatten = early.flatten ++ bad := by
        rw [htaken]
        simp
      rw [hflat, leadAlone_append hg hrests hb hdist] at hserved hgovernor
      obtain ⟨hearly, hlate⟩ := List.append_inj hserved (by simp)
      refine Or.inr ⟨early, bad, rest, key, rfl, hb, map_fail_eq_self.mp hearly, ?_, hbound, ?_⟩
      · rintro rfl
        exact (List.not_mem_nil hmem).elim
      · exact key_of_leadAlone (callAll_orderly hg _) (hrests.callAll _)
          ((callAll_store g _).trans hstore) hdist hlate.symm
  · rintro (hb | ⟨early, bad, rest, key, rfl, hb, hearly, hbad, hbound, hkeys⟩)
    · refine ⟨queue, ?_⟩
      rw [lead_bindable hg hrests hb distinct, leadAlone_bindable hg hrests hb distinct]
      exact ⟨(List.append_nil _).symm, rfl, rfl⟩
    · have hdist := split rfl hb
      obtain ⟨m, hm⟩ := List.exists_mem_of_ne_nil bad hbad
      obtain ⟨key', hmem, -, hlead⟩ := lead_split hg hrests hstore early bad rest hb
        ⟨key, List.mem_filterMap.mpr ⟨m, hm, hkeys m hm⟩, hbound⟩ hdist
      obtain ⟨m', hm', hkey'⟩ := List.mem_filterMap.mp hmem
      obtain rfl : key = key' := Option.some.inj ((hkeys m' hm').symm.trans hkey')
      have hsilent := callAll_silent fun x hx => (hearly x hx).2
      refine ⟨early ++ [bad], ?_⟩
      rw [hlead, show (early ++ [bad]).flatten = early.flatten ++ bad by simp,
        leadAlone_append hg hrests hb hdist, leadAlone_unbindable (callAll_orderly hg _)
          (hrests.callAll _) ((callAll_store g _).trans hstore) hdist hbound hkeys,
        map_fail_eq_self.mpr hearly, rollBackTo,
        if_neg (by rw [hsilent]; exact Nat.lt_irrefl _)]
      exact ⟨by simp, rfl, rfl⟩

end Governor

open Governor

/-- After any run, a batch isolates its requests exactly where every key in it can be given to the
store, or it is hopeless. -/
theorem isolated_iff_bindable (w : World) (unit : Unit) (policy : GovernancePolicy)
    (orders : List Order) (g : Governor)
    (served : (Governor.new unit policy true).serveAll w orders = .ok g)
    (queue : List (List Mutation)) (distinct : w.Distinct (g.callAll w queue.flatten).2.draws) :
    g.Isolated w queue ↔
      (∀ m ∈ queue.flatten, ∀ key, m.key = some key → bindable key = true) ∨
        g.Hopeless w queue :=
  isolated_iff ((Orderly.new w unit policy true).serveAll served)
    (Rests.serveAll ⟨rfl, rfl, rfl⟩ served) (serveAll_store served) distinct

/-- A root opened, and topped up under a key that is half of a surrogate pair. -/
def surrogateBatch : List (List Mutation) :=
  [[.openRoot (txt "a") (wholeAmount 10) [],
    .fund (txt "a") (wholeAmount 1) [] (some [Fin.ofNat _ 0xD800])]]

theorem surrogateBatch_draws :
    ((Governor.new USD samplePolicy true).callAll sampleWorld surrogateBatch.flatten).2.draws ≤
      2 ^ 128 := by
  decide +kernel

theorem isolated_iff_bindable_surrogateBatch :
    (Governor.new USD samplePolicy true).Isolated sampleWorld surrogateBatch ↔
      (∀ m ∈ surrogateBatch.flatten, ∀ key, m.key = some key → bindable key = true) ∨
        (Governor.new USD samplePolicy true).Hopeless sampleWorld surrogateBatch :=
  isolated_iff_bindable sampleWorld USD samplePolicy [] _ rfl surrogateBatch
    (sampleWorld_distinct surrogateBatch_draws)

theorem surrogateBatch_not_isolated :
    ¬(Governor.new USD samplePolicy true).Isolated sampleWorld surrogateBatch := by
  have hlead : (((Governor.new USD samplePolicy true).lead sampleWorld
      surrogateBatch).1.map fun x => x.reply.isOk) = [false, false] ∧
      ((Governor.new USD samplePolicy true).lead sampleWorld surrogateBatch).2.2.isEmpty =
        true := by
    decide
  have halone : (((Governor.new USD samplePolicy true).leadAlone sampleWorld
      surrogateBatch.flatten).1.map fun x => x.reply.isOk) = [true, false] := by
    decide +kernel
  rintro ⟨taken, hq, hserved, -⟩
  obtain ⟨hreplies, hleft⟩ := hlead
  rw [List.isEmpty_iff.mp hleft, List.append_nil] at hq
  rw [hserved, ← hq, halone] at hreplies
  cases hreplies

end AgentGov
