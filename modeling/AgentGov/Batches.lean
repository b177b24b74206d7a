import AgentGov.Grouping

/-!
# Batches and calls alone

Requests whose keys can all be looked up come to the same turn by turn, in one unit of work, as
each called on its own, and leave the same governor.

## Main results

* `AgentGov.Governor.lookUpCalls_ok`, `AgentGov.Governor.lookUpCalls_error`: keys looked up.
* `AgentGov.Governor.drain_alone`: requests looked up and run turn by turn are run as if alone.
-/

open Foundation

namespace AgentGov

namespace Governor

variable {w : World} {unit : Unit} {g t : Governor}

/-! ### Looking keys up -/

/-- A cache filled from the records holds what it held, or what is recorded. -/
theorem get?_fill (keys : List Text) (cache : Dict Text (Option IdempotencyRecord)) {key : Text}
    {found : Option IdempotencyRecord}
    (h : (keys.foldl (fun cache key => cache.set key (g.keys.get? key)) cache).get? key =
      some found) :
    (key ∈ keys ∧ found = g.keys.get? key) ∨ cache.get? key = some found := by
  induction keys generalizing cache with
  | nil => exact Or.inr h
  | cons k rest ih =>
    rcases ih _ h with ⟨hm, hfound⟩ | hc
    · exact Or.inl ⟨List.mem_cons_of_mem _ hm, hfound⟩
    · rw [Dict.get?_set] at hc
      split_ifs at hc with hk
      · cases hc
        exact Or.inl ⟨hk ▸ List.mem_cons_self, by rw [hk]⟩
      · exact Or.inr hc

theorem mem_of_mem_wanted {keys : List Text} {key : Text} (h : key ∈ g.wanted keys) :
    key ∈ keys :=
  List.mem_eraseDups.mp (List.mem_filter.mp (List.mem_filter.mp h).1).1

/-- Keys looked up leave a governor as it was, and its records in order. -/
theorem lookUpCalls_ok {keys : List Text} (h : g.lookUpCalls keys = .ok t) :
    g.Keeps t ∧ t.bare = g.bare ∧ t.trips = g.trips ∧ (g.Kept → t.Kept) := by
  unfold lookUpCalls at h
  split_ifs at h with hnone
  · cases h
    exact ⟨.refl g, rfl, rfl, id⟩
  · cases hf : (g.wanted keys).find? fun key => !bindable key with
    | some key =>
      rw [hf] at h
      cases h
    | none =>
      rw [hf] at h
      cases h
      refine ⟨⟨rfl, rfl, rfl, rfl, Nat.le_refl _⟩, rfl, rfl, fun hkept => ?_⟩
      refine hkept.same rfl rfl rfl (fun key found hc hu => ?_) fun key hc => ?_
      · exact (get?_fill _ _ hc).elim And.right fun hc => hkept.coherent key found hc hu
      · obtain ⟨found, hfound⟩ := Option.isSome_iff_exists.mp hc
        refine (get?_fill _ _ hfound).symm.imp (fun hc => by rw [hc]; rfl) fun hm => ?_
        simpa using List.find?_eq_none.mp hf key hm.1

/-- Keys that can be given to the store are looked up. -/
theorem lookUpCalls_isOk (g : Governor) {keys : List Text}
    (h : ∀ key ∈ keys, bindable key = true) : ∃ t, g.lookUpCalls keys = .ok t := by
  unfold lookUpCalls
  split_ifs
  · exact ⟨g, rfl⟩
  · have hnone : ((g.wanted keys).find? fun key => !bindable key) = none :=
      List.find?_eq_none.mpr fun key hm => by simp [h key (mem_of_mem_wanted hm)]
    rw [hnone]
    exact ⟨_, rfl⟩

/-- The lookup raises for a key of the batch that cannot be given to the store. -/
theorem lookUpCalls_error {keys : List Text} {key : Text} (h : g.lookUpCalls keys = .error key) :
    key ∈ keys ∧ bindable key = false := by
  unfold lookUpCalls at h
  split_ifs at h
  cases hf : (g.wanted keys).find? fun key => !bindable key with
  | none =>
    rw [hf] at h
    cases h
  | some k =>
    rw [hf] at h
    cases h
    exact ⟨mem_of_mem_wanted (List.mem_of_find?_eq_some hf), by simpa using List.find?_some hf⟩

/-- A key that cannot be given to the store makes the lookup raise. -/
theorem lookUpCalls_unbindable (hkept : g.Kept) (hstore : g.store = true) {keys : List Text}
    {k : Text} (hk : k ∈ keys) (hb : bindable k = false) :
    ∃ key, g.lookUpCalls keys = .error key := by
  have hunit : g.unitCalls.get? k = none := by
    by_contra hne
    have := hkept.bound k (Or.inl (Option.isSome_iff_ne_none.mpr hne))
    simp [hb] at this
  have hcache : g.keyCache.get? k = none := by
    by_contra hne
    have := hkept.bound k (Or.inr (Option.isSome_iff_ne_none.mpr hne))
    simp [hb] at this
  have hm : k ∈ g.wanted keys := by
    simp [wanted, List.mem_filter, List.mem_eraseDups, hk, hunit, hcache]
  unfold lookUpCalls
  rw [if_neg (by simp [hstore, List.ne_nil_of_mem hm])]
  cases hf : (g.wanted keys).find? fun key => !bindable key with
  | none =>
    have hno := List.find?_eq_none.mp hf k hm
    simp [hb] at hno
  | some key => exact ⟨key, rfl⟩

/-! ### Requests in order -/

theorem entries_eq_of_bare (h : g.bare = t.bare) : g.ledger.entries = t.ledger.entries := by
  have hledger := congrArg Governor.ledger h
  exact congrArg Ledger.entries hledger

theorem callAll_append (g : Governor) (ms ns : List Mutation) :
    g.callAll w (ms ++ ns) = ((g.callAll w ms).1 ++ ((g.callAll w ms).2.callAll w ns).1,
      ((g.callAll w ms).2.callAll w ns).2) := by
  induction ms generalizing g with
  | nil => rfl
  | cons m rest ih => simp only [List.cons_append, callAll, ih]

theorem perform_draws (g : Governor) (m : Mutation) : g.draws ≤ (g.perform w m).2.draws :=
  run_handled (w := w) (I := fun t => g.draws ≤ t.draws)
    (fun _ _ hg h => Nat.le_trans h hg.draws) m.program (Nat.le_refl _)

theorem perform_grows (g : Governor) (m : Mutation) :
    g.ledger.entries <+: (g.perform w m).2.ledger.entries :=
  run_handled (w := w) (I := fun t => g.ledger.entries <+: t.ledger.entries)
    (fun _ _ hg h => h.trans hg.grows) m.program List.prefix_rfl

theorem perform_store (g : Governor) (m : Mutation) : (g.perform w m).2.store = g.store :=
  run_handled (w := w) (I := fun t => t.store = g.store)
    (fun _ _ hg h => hg.store.trans h) m.program rfl

theorem callAll_draws (g : Governor) (ms : List Mutation) :
    g.draws ≤ (g.callAll w ms).2.draws := by
  induction ms generalizing g with
  | nil => exact Nat.le_refl _
  | cons m rest ih => exact Nat.le_trans (perform_draws g m) (ih (g.call w m).2)

theorem callAll_store (g : Governor) (ms : List Mutation) :
    (g.callAll w ms).2.store = g.store := by
  induction ms generalizing g with
  | nil => rfl
  | cons m rest ih => exact (ih (g.call w m).2).trans (perform_store g m)

theorem callAll_orderly (h : g.Orderly w unit) (ms : List Mutation) :
    (g.callAll w ms).2.Orderly w unit := by
  induction ms generalizing g with
  | nil => exact h
  | cons m rest ih => exact ih (h.perform m).leave

/-- Requests that share a unit of work get and do what they get and do alone. -/
theorem runTaken_alone (hg : g.Orderly w unit) (ht : t.Orderly w unit) (h : g.bare = t.bare)
    (ms : List Mutation) (distinct : w.Distinct (t.callAll w ms).2.draws) :
    (g.runTaken w ms).1 = (t.callAll w ms).1 ∧
      (g.runTaken w ms).2.bare = (t.callAll w ms).2.bare ∧
      (g.runTaken w ms).2.Orderly w unit := by
  induction ms generalizing g t with
  | nil => exact ⟨rfl, h, hg⟩
  | cons m rest ih =>
    have hdraws : g.bare.draws = t.bare.draws := congrArg Governor.draws h
    have distinct₀ : w.Distinct t.draws := distinct.mono (callAll_draws t (m :: rest))
    obtain ⟨hr, hb⟩ := perform_bare (w := w) (hg (hdraws ▸ distinct₀)).2 (ht distinct₀).2 h m
    obtain ⟨h₁, h₂, h₃⟩ := ih (hg.perform m) (ht.perform m).leave hb distinct
    refine ⟨?_, h₂, h₃⟩
    simp only [runTaken, callAll, served]
    rw [h₁, hr, entries_eq_of_bare h, entries_eq_of_bare hb]
    rfl

/-- Requests looked up and run turn by turn get and do what they get and do alone, where every key
can be looked up. -/
theorem drain_alone (hg : g.Orderly w unit) (ht : t.Orderly w unit) (h : g.bare = t.bare)
    (queue : List (List Mutation))
    (hkeys : ∀ m ∈ queue.flatten, ∀ key, m.key = some key → bindable key = true)
    (distinct : w.Distinct (t.callAll w queue.flatten).2.draws) :
    (g.drain w queue).1 = (t.callAll w queue.flatten).1 ∧
      (g.drain w queue).2.1.bare = (t.callAll w queue.flatten).2.bare ∧
      (g.drain w queue).2.2 = none := by
  induction queue generalizing g t with
  | nil => exact ⟨rfl, h, rfl⟩
  | cons taken queue ih =>
    simp only [List.flatten_cons, List.mem_append] at hkeys
    rw [List.flatten_cons, callAll_append] at distinct ⊢
    have hbindable : ∀ key ∈ taken.filterMap Mutation.key, bindable key = true := by
      intro key hk
      obtain ⟨m, hm, hkey⟩ := List.mem_filterMap.mp hk
      exact hkeys m (Or.inl hm) key hkey
    obtain ⟨g₁, hlook⟩ := lookUpCalls_isOk g hbindable
    obtain ⟨hkeeps, hbare, -, hkept⟩ := lookUpCalls_ok hlook
    have hg₁ : g₁.Orderly w unit := hg.same hkeeps hkept
    obtain ⟨h₁, h₂, h₃⟩ := runTaken_alone hg₁ ht (hbare.trans h) taken
      (distinct.mono (callAll_draws _ _))
    obtain ⟨h₄, h₅, h₆⟩ := ih h₃ (callAll_orderly ht taken) h₂ (fun m hm => hkeys m (Or.inr hm))
      distinct
    simp only [drain, hlook]
    exact ⟨by rw [h₁, h₄], h₅, h₆⟩

end Governor

end AgentGov
