import AgentGov.Reconciling

/-!
# The rows of stored authorizations, one by one

The first loop of the matching takes at most one row for each hold, and one where it reports
nothing. An authorization's id stands for the hold that a row with that id names, or for the hold
with that very id, so what is served on different holds has different ids.

## Main definitions

* `AgentGov.ChainView.Roll`: what is served, under ids that stand for distinct holds.
* `AgentGov.ChainView.Matched`: what the rows matched so far have led to.

## Main results

* `AgentGov.ChainView.Lists.matchRow_cases`: everything that matching a row can do.
* `AgentGov.ChainView.Matched.run`: what the first loop leads to.
-/

open Foundation

namespace AgentGov

namespace ChainView

/-! ### Ids -/

variable {v : ChainView} {index : HoldIndex} {rows : List PersistedAuthorization}

/-- The hold an authorization's id stands for: the one a row with that id names, or that very
hold. -/
def Stands (v : ChainView) (rows : List PersistedAuthorization) (id hold : UUID) : Prop :=
  (∃ row ∈ rows, row.authorizationId = id ∧ row.entryId = hold) ∨
    id = hold ∧ (v.openHold hold).isSome

theorem Stands.unique (distinct : (rows.map PersistedAuthorization.authorizationId).Nodup)
    (own : OwnIds v rows) {id hold hold' : UUID} (h : Stands v rows id hold)
    (h' : Stands v rows id hold') : hold = hold' := by
  rcases h with ⟨row, hrow, hid, rfl⟩ | ⟨rfl, hopen⟩ <;>
    rcases h' with ⟨row', hrow', hid', rfl⟩ | ⟨rfl, hopen'⟩
  · have := List.inj_on_of_nodup_map distinct hrow hrow' (hid.trans hid'.symm)
    rw [this]
  · rw [own row hrow (by rwa [hid]), hid]
  · rw [own row' hrow' (by rwa [hid']), hid']
  · rfl

/-- What is served, in the order it was, and holds among which are those the ids stand for. -/
structure Roll (v : ChainView) (rows : List PersistedAuthorization)
    (result : Dict UUID Authorization) (as : List Authorization) (names : List UUID) : Prop where
  items : result.items = as.map fun a => (a.authorizationId, a)
  stands : ∀ a ∈ as, ∃ hold ∈ names, Stands v rows a.authorizationId hold

namespace Roll

variable {result : Dict UUID Authorization} {as : List Authorization} {names : List UUID}

theorem values (h : Roll v rows result as names) : result.values = as := by
  rw [Dict.values, h.items, List.map_map]
  exact List.map_id _

theorem get? (h : Roll v rows result as names) {a : Authorization} (ha : a ∈ as) :
    result.get? a.authorizationId = some a := by
  rw [Dict.get?_eq_some_iff, h.items]
  exact List.mem_map_of_mem ha

theorem ids (h : Roll v rows result as names) {id : UUID} {a : Authorization}
    (ha : result.get? id = some a) : a.authorizationId = id := by
  rw [Dict.get?_eq_some_iff, h.items] at ha
  obtain ⟨b, -, hb⟩ := List.mem_map.mp ha
  cases hb
  rfl

/-- An id that stands for a hold none of the others stands for is new. -/
theorem serve (h : Roll v rows result as names)
    (distinct : (rows.map PersistedAuthorization.authorizationId).Nodup) (own : OwnIds v rows)
    (a : Authorization) (hold : UUID) (hs : Stands v rows a.authorizationId hold)
    (new : hold ∉ names) :
    Roll v rows (result.set a.authorizationId a) (as ++ [a]) (names ++ [hold]) := by
  have hnone : result.get? a.authorizationId = none := by
    by_contra hsome
    obtain ⟨b, hb⟩ := Option.ne_none_iff_exists'.mp hsome
    have hid := h.ids hb
    have hmem : b ∈ as := h.values ▸ Dict.mem_values_iff.mpr ⟨_, hb⟩
    obtain ⟨hold', hhold', hs'⟩ := h.stands b hmem
    rw [hid] at hs'
    exact new (hs.unique distinct own hs' ▸ hhold')
  constructor
  · rw [Dict.items_set_of_get?_eq_none hnone, h.items, List.map_append]
    rfl
  · intro b hb
    rcases List.mem_append.mp hb with hb | hb
    · obtain ⟨hold', hhold', hs'⟩ := h.stands b hb
      exact ⟨hold', List.mem_append_left _ hhold', hs'⟩
    · rw [List.mem_singleton.mp hb]
      exact ⟨hold, by simp, hs⟩

/-- Several ids that stand for distinct holds none of the others stands for are new. -/
theorem serveAll (h : Roll v rows result as names)
    (distinct : (rows.map PersistedAuthorization.authorizationId).Nodup) (own : OwnIds v rows)
    (holds : List LedgerEntry) (hopen : ∀ e ∈ holds, (v.openHold e.entryId).isSome)
    (nodup : (holds.map LedgerEntry.entryId).Nodup)
    (new : ∀ e ∈ holds, e.entryId ∉ names) :
    Roll v rows (holds.foldl (fun result hold => result.set hold.entryId (authorizationFor hold))
      result) (as ++ holds.map authorizationFor) (names ++ holds.map LedgerEntry.entryId) := by
  induction holds generalizing result as names with
  | nil => simpa using h
  | cons e holds ih =>
    rw [List.map_cons, List.nodup_cons] at nodup
    have hstep := h.serve distinct own (authorizationFor e) e.entryId
      (Or.inr ⟨rfl, hopen e List.mem_cons_self⟩) (new e List.mem_cons_self)
    have hrest := ih hstep (fun x hx => hopen x (List.mem_cons_of_mem _ hx)) nodup.2 ?_
    · rw [List.append_assoc, List.append_assoc] at hrest
      exact hrest
    · intro x hx hmem
      rcases List.mem_append.mp hmem with hmem | hmem
      · exact new x (List.mem_cons_of_mem _ hx) hmem
      · have heq : x.entryId = e.entryId := List.mem_singleton.mp hmem
        exact nodup.1 (heq ▸ List.mem_map_of_mem hx)

end Roll

/-! ### The rows -/

/-- What matching a row does: it reports a problem, keeps the row for those of its key, or serves
it; an open hold that the row records is not reported. -/
theorem Lists.matchRow_cases (hv : v.Lists) {m m' : Matching} {row : PersistedAuthorization}
    (h : v.matchRow index m row = .ok m') :
    (row.entryId ∈ m.named ∧ ∃ p, m' = m.report p) ∨
    row.entryId ∉ m.named ∧
      ((∃ p, m' = (m.note row.entryId).report p ∧
          ∀ hold, v.openHold row.entryId = some hold → ¬Records row hold) ∨
        ∃ hold, v.known index row.entryId = some hold ∧ Records row hold ∧
          ((v.isAmbiguous hold.holdKey = true ∧
              m' = (m.note row.entryId).defer (authorizationOf row hold)) ∨
            (v.isAmbiguous hold.holdKey = false ∧ v.openHold row.entryId = some hold ∧
              m' = (m.note row.entryId).serve (authorizationOf row hold)))) := by
  rw [matchRow] at h
  split_ifs at h with hnamed
  · exact Or.inl ⟨hnamed, _, (Except.ok.inj h).symm⟩
  refine Or.inr ⟨hnamed, ?_⟩
  have hopenKnown : ∀ hold, v.openHold row.entryId = some hold →
      v.known index row.entryId = some hold := by
    intro hold hopen
    rw [known, hopen]
    rfl
  match hknown : v.known index row.entryId with
  | none =>
    simp only [hknown, Except.ok.injEq] at h
    exact Or.inl ⟨_, h.symm, fun hold hopen => by simp [hopenKnown hold hopen] at hknown⟩
  | some hold =>
    have honly : ∀ hold', v.openHold row.entryId = some hold' → hold' = hold := by
      intro hold' hopen
      exact Option.some.inj ((hopenKnown hold' hopen).symm.trans hknown)
    simp only [hknown] at h
    split_ifs at h with hscope
    · refine Or.inl ⟨_, (Except.ok.inj h).symm, fun hold' hopen hrecords => hscope ?_⟩
      rw [← honly hold' hopen]
      exact hrecords.1
    match hequal : hold.amount.eq? row.amount with
    | none => simp [hequal] at h
    | some false =>
      simp only [hequal, Except.ok.injEq] at h
      refine Or.inl ⟨_, h.symm, fun hold' hopen hrecords => ?_⟩
      have := hrecords.2
      rw [honly hold' hopen, hequal] at this
      cases this
    | some true =>
      simp only [hequal, Except.ok.injEq] at h
      subst h
      have hid : hold.entryId = row.entryId := by
        rcases Option.or_eq_some_iff.mp hknown with hopen | ⟨-, hindex⟩
        · exact hv.keyed _ ((hv.openHold _ _).mp hopen)
        · exact index.named _ _ hindex
      have hclosed : (v.openHold hold.entryId).isSome = false →
          ∀ hold', v.openHold row.entryId = some hold' → ¬Records row hold' := by
        intro hnone hold' hopen
        rw [hid, hopen] at hnone
        cases hnone
      rw [matchHold]
      split_ifs with hreleased hambiguous hnot
      · refine Or.inl ⟨_, rfl, hclosed ?_⟩
        simp only [Bool.and_eq_true, Bool.not_eq_true'] at hreleased
        exact hreleased.1
      · exact Or.inr ⟨hold, rfl, ⟨not_not.mp hscope, hequal⟩, Or.inl ⟨hambiguous, rfl⟩⟩
      · exact Or.inl ⟨_, rfl, hclosed (by simpa using hnot)⟩
      · refine Or.inr ⟨hold, rfl, ⟨not_not.mp hscope, hequal⟩,
          Or.inr ⟨by simpa using hambiguous, ?_, rfl⟩⟩
        obtain ⟨hold', hopen⟩ := Option.isSome_iff_exists.mp
          (show (v.openHold row.entryId).isSome by
            rw [← hid, Option.isSome_iff_ne_none]; simpa using hnot)
        rw [hopen, honly hold' hopen]

/-- A matching of comparable amounts is not cut short. -/
theorem exists_matchRow (m : Matching) {row : PersistedAuthorization}
    (hrow : ∀ hold, v.known index row.entryId = some hold → (hold.amount.eq? row.amount).isSome) :
    ∃ m', v.matchRow index m row = .ok m' := by
  rw [matchRow]
  split_ifs
  · exact ⟨_, rfl⟩
  match hknown : v.known index row.entryId with
  | none => exact ⟨_, rfl⟩
  | some hold =>
    obtain ⟨b, hb⟩ := Option.isSome_iff_exists.mp (hrow hold hknown)
    simp only [hb]
    split_ifs
    · exact ⟨_, rfl⟩
    · cases b <;> exact ⟨_, rfl⟩

theorem fits_of_records {row : PersistedAuthorization} {hold : LedgerEntry}
    (h : Records row hold) : Fits (authorizationOf row hold) :=
  ⟨h.1.symm, (Decimal.value?_eq_of_eq? h.2).symm⟩

/-- The rows seen so far and the authorizations taken from them: for each hold a row names one at
most, which records what it encumbered; where no problem was found, one. -/
structure Seen (v : ChainView) (index : HoldIndex) (rows done : List PersistedAuthorization)
    (problems : List RowProblem) (named : List UUID) (taken : List Authorization) : Prop where
  row : ∀ a ∈ taken, Stands v rows a.authorizationId a.entry.entryId ∧
    v.known index a.entry.entryId = some a.entry ∧ Fits a
  distinct : (taken.map fun a => a.entry.entryId).Nodup
  within : ∀ a ∈ taken, a.entry.entryId ∈ named
  noted : ∀ id, id ∈ named ↔ ∃ row ∈ done, row.entryId = id
  complete : problems = [] → ∀ id ∈ named, ∃ a ∈ taken, a.entry.entryId = id

namespace Seen

variable {done : List PersistedAuthorization} {problems : List RowProblem} {named : List UUID}
  {taken taken' : List Authorization} {row : PersistedAuthorization} {hold : LedgerEntry}

theorem perm (h : Seen v index rows done problems named taken) (hp : taken'.Perm taken) :
    Seen v index rows done problems named taken' where
  row a ha := h.row a (hp.mem_iff.mp ha)
  distinct := (hp.map _).nodup_iff.mpr h.distinct
  within a ha := h.within a (hp.mem_iff.mp ha)
  noted := h.noted
  complete hnone id hid := by
    obtain ⟨a, ha, heq⟩ := h.complete hnone id hid
    exact ⟨a, hp.mem_iff.mpr ha, heq⟩

theorem noted_again (h : Seen v index rows done problems named taken)
    (hnamed : row.entryId ∈ named) (id : UUID) :
    id ∈ named ↔ ∃ r ∈ done ++ [row], r.entryId = id := by
  rw [h.noted]
  constructor
  · rintro ⟨r, hr, rfl⟩
    exact ⟨r, List.mem_append_left _ hr, rfl⟩
  · rintro ⟨r, hr, rfl⟩
    rcases List.mem_append.mp hr with hr | hr
    · exact ⟨r, hr, rfl⟩
    · rw [List.mem_singleton.mp hr]
      exact (h.noted _).mp hnamed

theorem noted_new (h : Seen v index rows done problems named taken) (id : UUID) :
    id ∈ row.entryId :: named ↔ ∃ r ∈ done ++ [row], r.entryId = id := by
  rw [List.mem_cons, h.noted]
  constructor
  · rintro (rfl | ⟨r, hr, rfl⟩)
    · exact ⟨row, by simp, rfl⟩
    · exact ⟨r, List.mem_append_left _ hr, rfl⟩
  · rintro ⟨r, hr, rfl⟩
    rcases List.mem_append.mp hr with hr | hr
    · exact Or.inr ⟨r, hr, rfl⟩
    · exact Or.inl (by rw [List.mem_singleton.mp hr])

/-- A row that is reported is not taken. -/
theorem report (h : Seen v index rows done problems named taken) {named' : List UUID}
    (hsub : named ⊆ named') (hnoted : ∀ id, id ∈ named' ↔ ∃ r ∈ done ++ [row], r.entryId = id)
    (p : RowProblem) : Seen v index rows (done ++ [row]) (problems ++ [p]) named' taken where
  row := h.row
  distinct := h.distinct
  within a ha := hsub (h.within a ha)
  noted := hnoted
  complete hnone := by simp at hnone

/-- A row that records the hold it names is taken. -/
theorem take (h : Seen v index rows done problems named taken) (hrow : row ∈ rows)
    (hnew : row.entryId ∉ named) (hknown : v.known index row.entryId = some hold)
    (hid : hold.entryId = row.entryId) (hrecords : Records row hold) :
    Seen v index rows (done ++ [row]) problems (row.entryId :: named)
      (taken ++ [authorizationOf row hold]) where
  row a ha := by
    rcases List.mem_append.mp ha with ha | ha
    · exact h.row a ha
    · rw [List.mem_singleton.mp ha]
      exact ⟨Or.inl ⟨row, hrow, rfl, hid.symm⟩, by rw [← hid] at hknown; exact hknown,
        fits_of_records hrecords⟩
  distinct := by
    rw [List.map_append, List.nodup_append]
    refine ⟨h.distinct, List.nodup_singleton _, ?_⟩
    rintro _ hx _ hy rfl
    obtain ⟨a, ha, heq⟩ := List.mem_map.mp hx
    have hy' : a.entry.entryId = hold.entryId := heq.trans (List.mem_singleton.mp hy)
    exact hnew (hid ▸ hy' ▸ h.within a ha)
  within a ha := by
    rcases List.mem_append.mp ha with ha | ha
    · exact List.mem_cons_of_mem _ (h.within a ha)
    · rw [List.mem_singleton.mp ha]
      exact hid ▸ List.mem_cons_self
  noted := h.noted_new
  complete hnone id hmem := by
    rcases List.mem_cons.mp hmem with rfl | hmem
    · exact ⟨authorizationOf row hold, by simp, hid⟩
    · obtain ⟨a, ha, heq⟩ := h.complete hnone id hmem
      exact ⟨a, List.mem_append_left _ ha, heq⟩

end Seen

/-- The rows matched so far, and what is served of them. -/
structure Matched (v : ChainView) (index : HoldIndex) (rows done : List PersistedAuthorization)
    (m : Matching) : Prop where
  seen : Seen v index rows done m.problems m.named (m.result.values ++ m.ambiguousRows)
  roll : Roll v rows m.result m.result.values m.servedHolds
  plain : ∀ a ∈ m.result.values, v.openHold a.entry.entryId = some a.entry ∧
    v.isAmbiguous a.entry.holdKey = false
  doubtful : ∀ a ∈ m.ambiguousRows, v.isAmbiguous a.entry.holdKey = true
  keeps : ∀ row hold, done.find? (fun r => r.entryId = hold.entryId) = some row →
    v.openHold hold.entryId = some hold → v.isAmbiguous hold.holdKey = false → Records row hold →
    authorizationOf row hold ∈ m.result.values

namespace Matched

variable {done : List PersistedAuthorization} {m m' : Matching} {row : PersistedAuthorization}

theorem init : Matched v index rows [] {} where
  seen := { row := by simp [Dict.values], distinct := List.nodup_nil, within := by simp [Dict.values]
            noted := by simp, complete := by simp }
  roll := { items := rfl, stands := by simp [Dict.values] }
  plain := by simp [Dict.values]
  doubtful := by simp
  keeps := by simp

theorem find?_snoc {p : PersistedAuthorization → Bool} {r : PersistedAuthorization}
    (h : (done ++ [row]).find? p = some r) :
    done.find? p = some r ∨ (∀ x ∈ done, ¬p x) ∧ p row ∧ r = row := by
  rw [List.find?_append, Option.or_eq_some_iff] at h
  rcases h with h | ⟨hnone, hlast⟩
  · exact Or.inl h
  · refine Or.inr ⟨List.find?_eq_none.mp hnone, ?_⟩
    rw [List.find?_singleton] at hlast
    split_ifs at hlast with hrow
    exact ⟨hrow, (Option.some.inj hlast).symm⟩

/-- A row keeps what is matched. -/
theorem step (h : Matched v index rows done m) (hv : v.Lists)
    (distinct : (rows.map PersistedAuthorization.authorizationId).Nodup) (own : OwnIds v rows)
    (hrow : row ∈ rows) (hm : v.matchRow index m row = .ok m') :
    Matched v index rows (done ++ [row]) m' := by
  rcases hv.matchRow_cases hm with ⟨hnamed, p, rfl⟩ | ⟨hnew, ⟨p, rfl, hnot⟩ |
    ⟨hold, hknown, hrecords, ⟨hambiguous, rfl⟩ | ⟨hplain, hopen, rfl⟩⟩⟩
  · refine ⟨h.seen.report (fun _ => id) (h.seen.noted_again hnamed) p, h.roll, h.plain,
      h.doubtful, fun r hold hfind => ?_⟩
    rcases find?_snoc hfind with hfind | ⟨hnone, hid, rfl⟩
    · exact h.keeps r hold hfind
    · obtain ⟨r', hr', heq⟩ := (h.seen.noted _).mp hnamed
      exact absurd (by simpa [heq] using hid) (hnone r' hr')
  · refine ⟨h.seen.report (List.subset_cons_self _ _) h.seen.noted_new p, h.roll, h.plain,
      h.doubtful, fun r hold hfind hopen => ?_⟩
    rcases find?_snoc hfind with hfind | ⟨-, hid, rfl⟩
    · exact h.keeps r hold hfind hopen
    · rw [← of_decide_eq_true hid] at hopen
      exact fun _ hrecords => absurd hrecords (hnot hold hopen)
  · have hid : hold.entryId = row.entryId := by
      rcases Option.or_eq_some_iff.mp hknown with hopen | ⟨-, hindex⟩
      · exact hv.keyed _ ((hv.openHold _ _).mp hopen)
      · exact index.named _ _ hindex
    refine ⟨?_, h.roll, h.plain, ?_, fun r hold' hfind hopen => ?_⟩
    · exact (h.seen.take hrow hnew hknown hid hrecords).perm (by
        rw [Matching.defer, Matching.note, List.append_assoc])
    · intro a ha
      rcases List.mem_append.mp ha with ha | ha
      · exact h.doubtful a ha
      · rw [List.mem_singleton.mp ha]
        exact hambiguous
    · rcases find?_snoc hfind with hfind | ⟨-, hid', rfl⟩
      · exact h.keeps r hold' hfind hopen
      · rw [← of_decide_eq_true hid'] at hopen
        have hsame : hold' = hold := by
          have hknown' : v.known index r.entryId = some hold' := by rw [known, hopen]; rfl
          exact Option.some.inj (hknown'.symm.trans hknown)
        intro hplain
        rw [hsame, hambiguous] at hplain
        cases hplain
  · have hid : hold.entryId = row.entryId := hv.keyed _ ((hv.openHold _ _).mp hopen)
    have hroll := h.roll.serve distinct own (authorizationOf row hold) row.entryId
      (Or.inl ⟨row, hrow, rfl, rfl⟩) (by
        intro hmem
        obtain ⟨a, ha, heq⟩ := List.mem_map.mp hmem
        exact hnew (heq ▸ h.seen.within a (List.mem_append_left _ ha)))
    have hvalues : ((m.note row.entryId).serve (authorizationOf row hold)).result.values =
        m.result.values ++ [authorizationOf row hold] := hroll.values
    refine ⟨?_, ?_, ?_, h.doubtful, ?_⟩
    · refine (h.seen.take hrow hnew hknown hid hrecords).perm ?_
      rw [hvalues, List.append_assoc, List.append_assoc]
      exact (List.perm_append_comm).append_left _
    · have hholds : ((m.note row.entryId).serve (authorizationOf row hold)).servedHolds =
          m.servedHolds ++ [row.entryId] := by
        rw [Matching.servedHolds, hvalues, List.map_append, List.map_singleton, ← hid]
        rfl
      rw [hvalues, hholds]
      exact hroll
    · rw [hvalues]
      intro a ha
      rcases List.mem_append.mp ha with ha | ha
      · exact h.plain a ha
      · rw [List.mem_singleton.mp ha]
        exact ⟨by rw [← hid] at hopen; exact hopen, hplain⟩
    · rw [hvalues]
      intro r hold' hfind hopen' hplain' hrecords'
      rcases find?_snoc hfind with hfind | ⟨-, hid', rfl⟩
      · exact List.mem_append_left _ (h.keeps r hold' hfind hopen' hplain' hrecords')
      · rw [← of_decide_eq_true hid', hopen, Option.some.injEq] at hopen'
        rw [hopen']
        simp

/-- The first loop matches all rows. -/
theorem run (hv : v.Lists) (distinct : (rows.map PersistedAuthorization.authorizationId).Nodup)
    (own : OwnIds v rows) {todo : List PersistedAuthorization}
    (h : Matched v index rows done m) (hall : ∀ row ∈ todo, row ∈ rows)
    (hm : todo.foldlM (v.matchRow index) m = .ok m') :
    Matched v index rows (done ++ todo) m' := by
  induction todo generalizing done m with
  | nil =>
    rw [List.foldlM_nil] at hm
    cases hm
    rwa [List.append_nil]
  | cons row todo ih =>
    rw [List.foldlM_cons] at hm
    match hstep : v.matchRow index m row with
    | .error fault => simp [hstep, bind, Except.bind] at hm
    | .ok m₁ =>
      have hm₁ : todo.foldlM (v.matchRow index) m₁ = .ok m' := by
        simpa [hstep, bind, Except.bind] using hm
      have := ih (h.step hv distinct own (hall row List.mem_cons_self) hstep)
        (fun r hr => hall r (List.mem_cons_of_mem _ hr)) hm₁
      rwa [List.append_assoc, List.singleton_append] at this

end Matched

/-- Where amounts compare, the first loop comes to its end. -/
theorem exists_matchRows {todo : List PersistedAuthorization}
    (h : ∀ row ∈ todo, ∀ hold, v.known index row.entryId = some hold →
      (hold.amount.eq? row.amount).isSome) (m : Matching) :
    ∃ m', todo.foldlM (v.matchRow index) m = .ok m' := by
  induction todo generalizing m with
  | nil => exact ⟨m, rfl⟩
  | cons row todo ih =>
    obtain ⟨m₁, hm₁⟩ := exists_matchRow m (h row List.mem_cons_self)
    obtain ⟨m', hm'⟩ := ih (fun r hr => h r (List.mem_cons_of_mem _ hr)) m₁
    exact ⟨m', by rw [List.foldlM_cons, hm₁]; exact hm'⟩

end ChainView

end AgentGov
