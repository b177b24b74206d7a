import AgentGov.Foundation.Checked
import AgentGov.Invoices
import Mathlib.Data.List.Perm.Subperm
import Mathlib.Data.List.ReduceOption

/-!
# What an audit of an invoice tells

Greedy pairing of the candidates accounts for every billed line and every settled call once, pairs
only what is within the tolerances, and leaves no line and call that could be paired. A billed cost
that is NaN exceeds no tolerance, and one that is out of range of the ledger's decimals raises. An
invoice whose lines all have a call of their own may still be left with phantom lines, since a line
may be given the only call of another.

## Main definitions

* `AgentGov.Invoices.Accounts`: what a report has to tell.
* `AgentGov.Invoices.Auditable`: no cost is NaN and nothing overflows, where it matters.
* `AgentGov.Invoices.Assigned`: an assignment of a call of its own to every line.

## Main results

* `AgentGov.Invoices.accounts_iff`: every report accounts just of what is auditable.
* `AgentGov.Invoices.healthy`: what is found of an auditable invoice with an assignment.
-/

open Foundation

namespace AgentGov.Invoices

/-! ### Records at places -/

section Places

variable {α : Type} {l : List α}

/-- The records at distinct places and those at no such place are the records. -/
theorem perm_leftOut {places : List ℕ} (nodup : places.Nodup) :
    ((places.filterMap fun i => l[i]?) ++ leftOut l places).Perm l := by
  have hat : (l.zipIdx.filter fun r => r.2 ∈ places).Perm
      (places.filterMap fun i => l[i]?.map fun a => (a, i)) := by
    have hzip : l.zipIdx.Nodup :=
      List.Nodup.of_map Prod.snd (by rw [List.zipIdx_map_snd]; exact List.nodup_range')
    refine (List.perm_ext_iff_of_nodup (hzip.filter _) ?_).mpr fun r => ?_
    · refine nodup.filterMap fun i j r hi hj => ?_
      obtain ⟨a, -, rfl⟩ := Option.map_eq_some_iff.mp hi
      obtain ⟨b, -, heq⟩ := Option.map_eq_some_iff.mp hj
      exact (congrArg Prod.snd heq).symm
    · rw [List.mem_filter, List.mem_zipIdx_iff_getElem?, List.mem_filterMap]
      constructor
      · rintro ⟨hr, hmem⟩
        exact ⟨r.2, of_decide_eq_true hmem, by rw [hr]; rfl⟩
      · rintro ⟨i, hi, hr⟩
        obtain ⟨a, ha, rfl⟩ := Option.map_eq_some_iff.mp hr
        exact ⟨ha, decide_eq_true hi⟩
  have hsplit : ((l.zipIdx.filter fun r => r.2 ∈ places) ++
      l.zipIdx.filter fun r => r.2 ∉ places).Perm l.zipIdx := by
    simpa using List.filter_append_perm (fun r : α × ℕ => decide (r.2 ∈ places)) l.zipIdx
  have hfst := (hat.symm.append_right _).trans hsplit |>.map Prod.fst
  rw [List.map_append, List.zipIdx_map_fst, List.map_filterMap] at hfst
  simpa [Function.comp_def, leftOut, Option.map_map] using hfst

theorem mem_leftOut {places : List ℕ} {a : α} :
    a ∈ leftOut l places ↔ ∃ i, l[i]? = some a ∧ i ∉ places := by
  simp only [leftOut, List.mem_map, List.mem_filter, List.mem_zipIdx_iff_getElem?,
    decide_eq_true_eq, Prod.exists]
  constructor
  · rintro ⟨b, i, ⟨hb, hi⟩, rfl⟩
    exact ⟨i, hb, hi⟩
  · rintro ⟨i, hb, hi⟩
    exact ⟨a, i, ⟨hb, hi⟩, rfl⟩

end Places

/-! ### Candidates -/

variable {reading : Reading} {normalizeModelId : Text → Text} {rules : ReconciliationPolicy}
  {metered : List MeteredRecord} {provider : List ProviderUsageRecord} {found : List Candidate}

theorem mem_crossed {r : (ProviderUsageRecord × ℕ) × MeteredRecord × ℕ} :
    r ∈ crossed metered provider ↔
      provider[r.1.2]? = some r.1.1 ∧ metered[r.2.2]? = some r.2.1 := by
  simp only [crossed, List.mem_flatMap, List.mem_map]
  constructor
  · rintro ⟨billed, hbilled, settled, hsettled, rfl⟩
    exact ⟨List.mem_zipIdx_iff_getElem?.mp hbilled, List.mem_zipIdx_iff_getElem?.mp hsettled⟩
  · rintro ⟨hbilled, hsettled⟩
    exact ⟨r.1, List.mem_zipIdx_iff_getElem?.mpr hbilled, r.2,
      List.mem_zipIdx_iff_getElem?.mpr hsettled, rfl⟩

/-- Whether a line and a call stand at some places, within the tolerances. -/
structure Pairable (reading : Reading) (normalizeModelId : Text → Text)
    (rules : ReconciliationPolicy) (metered : List MeteredRecord)
    (provider : List ProviderUsageRecord) (billed : ProviderUsageRecord) (settled : MeteredRecord)
    (places : ℕ × ℕ) : Prop where
  line : provider[places.1]? = some billed
  call : metered[places.2]? = some settled
  within : Within reading normalizeModelId rules billed settled

theorem candidates_eq_ok (h : candidates reading normalizeModelId rules metered provider =
    .ok found) : ∃ all, (crossed metered provider).mapM
      (candidate reading normalizeModelId rules) = .ok all ∧ found = all.reduceOption := by
  obtain ⟨all, hall, h⟩ := bind_eq_ok.mp h
  exact ⟨all, hall, (Except.ok.inj h).symm⟩

/-- A candidate is a pair within the tolerances, with its score. -/
theorem pairable_of_mem
    (h : candidates reading normalizeModelId rules metered provider = .ok found)
    {c : Candidate} (hc : c ∈ found) : ∃ billed settled,
      Pairable reading normalizeModelId rules metered provider billed settled c.places ∧
        score reading normalizeModelId rules billed settled = .ok (some c.score) := by
  obtain ⟨all, hall, rfl⟩ := candidates_eq_ok h
  obtain ⟨r, hr, hrc⟩ := exists_of_mem_mapM hall (List.reduceOption_mem_iff.mp hc)
  obtain ⟨hbilled, hsettled⟩ := mem_crossed.mp hr
  obtain ⟨o, hscore, hrc⟩ := bind_eq_ok.mp hrc
  obtain ⟨s, rfl, hcs⟩ := Option.map_eq_some_iff.mp (Except.ok.inj hrc)
  subst hcs
  rcases score_eq_ok hscore with ⟨hnone, -⟩ | ⟨-, -, hwithin, -, -⟩
  · cases hnone
  · exact ⟨r.1.1, r.2.1, ⟨hbilled, hsettled, hwithin⟩, hscore⟩

/-- Every pair within the tolerances is a candidate. -/
theorem Pairable.exists_mem
    (h : candidates reading normalizeModelId rules metered provider = .ok found)
    {billed : ProviderUsageRecord} {settled : MeteredRecord} {places : ℕ × ℕ}
    (hp : Pairable reading normalizeModelId rules metered provider billed settled places) :
    ∃ c ∈ found, c.places = places ∧
      score reading normalizeModelId rules billed settled = .ok (some c.score) := by
  obtain ⟨all, hall, rfl⟩ := candidates_eq_ok h
  have hmem : ((billed, places.1), settled, places.2) ∈ crossed metered provider :=
    mem_crossed.mpr ⟨hp.line, hp.call⟩
  obtain ⟨o, ho, hro⟩ := exists_mem_mapM hall hmem
  obtain ⟨found, hscore, hro⟩ := bind_eq_ok.mp hro
  rcases score_eq_ok hscore with ⟨-, hnot⟩ | ⟨_, _, -, -, rfl⟩
  · exact absurd hp.within hnot
  · cases hro
    exact ⟨_, List.reduceOption_mem_iff.mpr ho, rfl, hscore⟩

/-- Candidates are found where every pair is looked at without an error. -/
theorem exists_candidates_iff :
    (∃ found, candidates reading normalizeModelId rules metered provider = .ok found) ↔
      ∀ billed ∈ provider, ∀ settled ∈ metered,
        ∃ found, score reading normalizeModelId rules billed settled = .ok found := by
  constructor
  · rintro ⟨found, hfound⟩ billed hbilled settled hsettled
    obtain ⟨all, hall, -⟩ := candidates_eq_ok hfound
    obtain ⟨i, hi⟩ := List.mem_iff_getElem?.mp hbilled
    obtain ⟨j, hj⟩ := List.mem_iff_getElem?.mp hsettled
    have hmem : ((billed, i), settled, j) ∈ crossed metered provider := mem_crossed.mpr ⟨hi, hj⟩
    obtain ⟨o, -, hro⟩ := exists_mem_mapM hall hmem
    obtain ⟨found, hscore, -⟩ := bind_eq_ok.mp hro
    exact ⟨found, hscore⟩
  · intro h
    have hall : ∀ r ∈ crossed metered provider,
        ∃ o, candidate reading normalizeModelId rules r = .ok o := by
      intro r hr
      obtain ⟨hbilled, hsettled⟩ := mem_crossed.mp hr
      obtain ⟨found, hfound⟩ :=
        h _ (List.mem_of_getElem? hbilled) _ (List.mem_of_getElem? hsettled)
      exact ⟨_, bind_eq_ok.mpr ⟨found, hfound, rfl⟩⟩
    obtain ⟨all, hall⟩ := exists_mapM_eq_ok hall
    exact ⟨_, bind_eq_ok.mpr ⟨all, hall, rfl⟩⟩

/-- A cost that is a number exceeds the tolerance just where it does not agree. -/
theorem costAgrees_iff {billed : ProviderUsageRecord} {settled : MeteredRecord} {percent : Number}
    (hd : costDeltaPercent reading billed settled = .ok percent)
    (hv : billed.totalCost.value? ≠ none) :
    CostAgrees reading rules billed settled ↔
      percent.exceeds rules.costTolerancePercent = false := by
  obtain ⟨v, hv⟩ := Option.ne_none_iff_exists'.mp hv
  obtain ⟨c, rfl⟩ := costDeltaPercent_of_value hv hd
  rw [← Number.atMost_some]
  constructor
  · rintro ⟨w, hw, hmost⟩
    rw [hv, Option.some.injEq] at hw
    subst hw
    cases reading with
    | floats =>
      obtain ⟨percent, hpercent, hmost⟩ := hmost
      rw [hd, Except.ok.injEq] at hpercent
      exact hpercent ▸ hmost
    | rationals => exact hmost
  · intro hmost
    refine ⟨v, hv, ?_⟩
    cases reading with
    | floats => exact ⟨_, hd, hmost⟩
    | rationals => exact hmost

/-- What every report accounts of: where a pair could be the same call, its tokens are in range,
and where it is within the tolerances, the cost of its line is a number and in range. -/
structure Auditable (reading : Reading) (normalizeModelId : Text → Text)
    (rules : ReconciliationPolicy) (metered : List MeteredRecord)
    (provider : List ProviderUsageRecord) : Prop where
  tokens : ∀ billed ∈ provider, ∀ settled ∈ metered,
    Plausible reading normalizeModelId rules billed settled → TokensInRange billed settled
  costs : ∀ billed ∈ provider, ∀ settled ∈ metered,
    Within reading normalizeModelId rules billed settled →
      ∃ v, billed.totalCost.value? = some v ∧ CostInRange v settled.settledCost.worth.toRat

/-- What is auditable is looked at without an error. -/
theorem Auditable.exists_score
    (h : Auditable reading normalizeModelId rules metered provider) :
    ∀ billed ∈ provider, ∀ settled ∈ metered,
      ∃ found, score reading normalizeModelId rules billed settled = .ok found := by
  intro billed hbilled settled hsettled
  refine exists_score_iff.mpr ⟨h.tokens _ hbilled _ hsettled, fun hwithin => ?_⟩
  obtain ⟨x, hx⟩ := exists_costDeltaPercent_iff.mpr (h.costs _ hbilled _ hsettled hwithin)
  exact ⟨_, hx⟩

theorem Auditable.numbers (h : Auditable reading normalizeModelId rules metered provider)
    {billed : ProviderUsageRecord} {settled : MeteredRecord} {places : ℕ × ℕ}
    (hp : Pairable reading normalizeModelId rules metered provider billed settled places) :
    billed.totalCost.value? ≠ none := by
  obtain ⟨v, hv, -⟩ := h.costs _ (List.mem_of_getElem? hp.line) _ (List.mem_of_getElem? hp.call)
    hp.within
  rw [hv]
  exact Option.some_ne_none v

/-! ### What a report tells -/

/-- The pairs of a report. -/
def ReconciliationReport.pairs (r : ReconciliationReport) :
    List (ProviderUsageRecord × MeteredRecord) :=
  (r.matched.map fun m => (m.provider, m.metered)) ++
    r.discrepant.map fun d => (d.provider, d.metered)

/-- What a report has to tell of a list of calls and a list of lines. -/
structure Accounts (reading : Reading) (normalizeModelId : Text → Text)
    (rules : ReconciliationPolicy) (metered : List MeteredRecord)
    (provider : List ProviderUsageRecord) (report : ReconciliationReport) : Prop where
  lines : (report.pairs.map Prod.fst ++ report.phantom).Perm provider
  calls : (report.pairs.map Prod.snd ++ report.unsettled).Perm metered
  within : ∀ p ∈ report.pairs, Within reading normalizeModelId rules p.1 p.2
  matched : ∀ m ∈ report.matched, CostAgrees reading rules m.provider m.metered
  discrepant : ∀ d ∈ report.discrepant, ¬CostAgrees reading rules d.provider d.metered
  maximal : ∀ billed ∈ report.phantom, ∀ settled ∈ report.unsettled,
    ¬Within reading normalizeModelId rules billed settled
  passed : report.passed = true ↔ (report.pairs.map Prod.fst).Perm provider ∧
    ∀ p ∈ report.pairs, CostAgrees reading rules p.1 p.2

/-- What a pair that is assessed comes to. -/
theorem assess_eq_ok {p : ProviderUsageRecord × MeteredRecord} {r : MatchedCall ⊕ Discrepancy}
    (h : assess reading rules p = .ok r) :
    ∃ percent, costDeltaPercent reading p.1 p.2 = .ok percent ∧
      ((∃ m, r = .inl m ∧ (m.provider, m.metered) = p ∧
          percent.exceeds rules.costTolerancePercent = false) ∨
        ∃ d, r = .inr d ∧ (d.provider, d.metered) = p ∧
          percent.exceeds rules.costTolerancePercent = true) := by
  obtain ⟨delta, -, h⟩ := bind_eq_ok.mp h
  obtain ⟨percent, hpercent, h⟩ := bind_eq_ok.mp h
  obtain ⟨tokens, -, h⟩ := bind_eq_ok.mp h
  refine ⟨percent, hpercent, ?_⟩
  by_cases hexceeds : percent.exceeds rules.costTolerancePercent = true
  · rw [if_pos hexceeds, Except.ok.injEq] at h
    exact Or.inr ⟨_, h.symm, rfl, hexceeds⟩
  · rw [if_neg hexceeds, Except.ok.injEq] at h
    exact Or.inl ⟨_, h.symm, rfl, Bool.eq_false_iff.mpr hexceeds⟩

/-- A pair whose drifts are computed is assessed. -/
theorem exists_assess {p : ProviderUsageRecord × MeteredRecord} {percent : Number}
    (h : costDeltaPercent reading p.1 p.2 = .ok percent) (tokens : TokensInRange p.1 p.2) :
    ∃ r, assess reading rules p = .ok r := by
  obtain ⟨delta, hdelta, -⟩ := costDeltaPercent_eq_ok.mp h
  obtain ⟨drift, hdrift⟩ := exists_tokenDeltaPercent_iff.mpr tokens
  rw [assess, hdelta, ok_bind, h, ok_bind, hdrift, ok_bind]
  split_ifs
  · exact ⟨_, rfl⟩
  · exact ⟨_, rfl⟩

/-- What a run of `reconcile` that has found candidates gives. -/
structure Reports (reading : Reading) (rules : ReconciliationPolicy)
    (metered : List MeteredRecord) (provider : List ProviderUsageRecord)
    (claimed : List (ℕ × ℕ)) (report : ReconciliationReport) : Prop where
  pairs : report.pairs.Perm (recordsAt metered provider claimed)
  matched : ∀ m ∈ report.matched, ∃ drift, costDeltaPercent reading m.provider m.metered = .ok drift ∧
    drift.exceeds rules.costTolerancePercent = false
  discrepant : ∀ d ∈ report.discrepant, ∃ drift,
    costDeltaPercent reading d.provider d.metered = .ok drift ∧
      drift.exceeds rules.costTolerancePercent = true
  phantom : report.phantom = leftOut provider (claimed.map Prod.fst)
  unsettled : report.unsettled = leftOut metered (claimed.map Prod.snd)

/-- The pairs that are assessed are those of what they come to. -/
theorem perm_of_assessed {ps : List (ProviderUsageRecord × MeteredRecord)}
    {rs : List (MatchedCall ⊕ Discrepancy)}
    (h : List.Forall₂ (fun p r => assess reading rules p = .ok r) ps rs) :
    (((rs.filterMap Sum.getLeft?).map fun m => (m.provider, m.metered)) ++
      (rs.filterMap Sum.getRight?).map fun d => (d.provider, d.metered)).Perm ps := by
  induction h with
  | nil => exact List.Perm.nil
  | @cons p r ps rs hassess _ ih =>
    obtain ⟨drift, -, ⟨m, rfl, rfl, -⟩ | ⟨d, rfl, rfl, -⟩⟩ := assess_eq_ok hassess
    · exact ih.cons _
    · exact List.perm_middle.trans (ih.cons _)

theorem reports_of_reconcile {sorting : Sorting} {report : ReconciliationReport}
    (h : reconcile reading normalizeModelId rules sorting metered provider = .ok report) :
    ∃ found, candidates reading normalizeModelId rules metered provider = .ok found ∧
      Reports reading rules metered provider
        (greedy [] [] ((sorting.sort found).map Candidate.places)) report := by
  obtain ⟨found, hfound, h⟩ := bind_eq_ok.mp h
  obtain ⟨assessed, hassessed, h⟩ := bind_eq_ok.mp h
  cases h
  refine ⟨found, hfound, perm_of_assessed (mapM_eq_ok.mp hassessed), fun m hm => ?_, fun d hd => ?_,
    rfl, rfl⟩
  · obtain ⟨r, hr, hleft⟩ := List.mem_filterMap.mp hm
    obtain ⟨p, -, hp⟩ := exists_of_mem_mapM hassessed hr
    obtain ⟨drift, hdrift, ⟨m', rfl, rfl, hbelow⟩ | ⟨d, rfl, -, -⟩⟩ := assess_eq_ok hp
    · cases hleft
      exact ⟨drift, hdrift, hbelow⟩
    · cases hleft
  · obtain ⟨r, hr, hright⟩ := List.mem_filterMap.mp hd
    obtain ⟨p, -, hp⟩ := exists_of_mem_mapM hassessed hr
    obtain ⟨drift, hdrift, ⟨m, rfl, -, -⟩ | ⟨d', rfl, rfl, habove⟩⟩ := assess_eq_ok hp
    · cases hright
    · cases hright
      exact ⟨drift, hdrift, habove⟩

/-! ### What is claimed -/

section Claimed

variable {places : List (ℕ × ℕ)} {p : ProviderUsageRecord × MeteredRecord}

theorem mem_recordsAt : p ∈ recordsAt metered provider places ↔
    ∃ q ∈ places, provider[q.1]? = some p.1 ∧ metered[q.2]? = some p.2 := by
  rw [recordsAt, List.mem_filterMap]
  constructor
  · rintro ⟨q, hq, hp⟩
    obtain ⟨billed, hbilled, hp⟩ := Option.bind_eq_some_iff.mp hp
    obtain ⟨settled, hsettled, rfl⟩ := Option.map_eq_some_iff.mp hp
    exact ⟨q, hq, hbilled, hsettled⟩
  · rintro ⟨q, hq, hbilled, hsettled⟩
    exact ⟨q, hq, by rw [hbilled, hsettled]; rfl⟩

/-- The records at places that hold some. -/
theorem map_recordsAt (h : ∀ q ∈ places, ∃ billed settled,
      provider[q.1]? = some billed ∧ metered[q.2]? = some settled) :
    (recordsAt metered provider places).map Prod.fst =
        (places.map Prod.fst).filterMap (fun i => provider[i]?) ∧
      (recordsAt metered provider places).map Prod.snd =
        (places.map Prod.snd).filterMap (fun i => metered[i]?) ∧
      (recordsAt metered provider places).length = places.length := by
  induction places with
  | nil => exact ⟨rfl, rfl, rfl⟩
  | cons q places ih =>
    obtain ⟨billed, settled, hbilled, hsettled⟩ := h q List.mem_cons_self
    obtain ⟨hfst, hsnd, hlength⟩ := ih fun q hq => h q (List.mem_cons_of_mem _ hq)
    have hcons : recordsAt metered provider (q :: places) =
        (billed, settled) :: recordsAt metered provider places := by
      rw [recordsAt, List.filterMap_cons, hbilled, hsettled]
      rfl
    rw [hcons, List.map_cons, List.map_cons, List.map_cons, List.map_cons, List.filterMap_cons,
      List.filterMap_cons, hbilled, hsettled, hfst, hsnd, List.length_cons, List.length_cons,
      hlength]
    exact ⟨rfl, rfl, rfl⟩

variable {sorting : Sorting}

theorem mem_sorted {c : Candidate} : c ∈ sorting.sort found ↔ c ∈ found :=
  (sorting.perm found).mem_iff

/-- What is claimed is within the tolerances. -/
theorem pairable_of_claimed (h : candidates reading normalizeModelId rules metered provider = .ok found)
    {q : ℕ × ℕ} (hq : q ∈ greedy [] [] ((sorting.sort found).map Candidate.places)) :
    ∃ billed settled, Pairable reading normalizeModelId rules metered provider billed settled q := by
  obtain ⟨c, hc, rfl⟩ := List.mem_map.mp ((greedy_sublist _ _ _).subset hq)
  obtain ⟨billed, settled, hp, -⟩ := pairable_of_mem h (mem_sorted.mp hc)
  exact ⟨billed, settled, hp⟩

end Claimed

/-! ### What is auditable -/

section Telling

variable {sorting : Sorting} {report : ReconciliationReport}

/-- The pairs of a report, by their places. -/
structure Paired (reading : Reading) (normalizeModelId : Text → Text)
    (rules : ReconciliationPolicy) (metered : List MeteredRecord)
    (provider : List ProviderUsageRecord) (claimed : List (ℕ × ℕ))
    (report : ReconciliationReport) : Prop
    extends Reports reading rules metered provider claimed report where
  places : ∀ q ∈ claimed, ∃ billed settled,
    Pairable reading normalizeModelId rules metered provider billed settled q
  fst : (claimed.map Prod.fst).Nodup
  snd : (claimed.map Prod.snd).Nodup

namespace Paired

variable {claimed : List (ℕ × ℕ)}
  (h : Paired reading normalizeModelId rules metered provider claimed report)
include h

theorem held : ∀ q ∈ claimed, ∃ billed settled,
    provider[q.1]? = some billed ∧ metered[q.2]? = some settled := by
  intro q hq
  obtain ⟨billed, settled, hp⟩ := h.places q hq
  exact ⟨billed, settled, hp.line, hp.call⟩

theorem lines : (report.pairs.map Prod.fst ++ report.phantom).Perm provider := by
  have hfst := h.pairs.map Prod.fst
  rw [(map_recordsAt h.held).1] at hfst
  rw [h.phantom]
  exact (hfst.append_right _).trans (perm_leftOut h.fst)

theorem calls : (report.pairs.map Prod.snd ++ report.unsettled).Perm metered := by
  have hsnd := h.pairs.map Prod.snd
  rw [(map_recordsAt h.held).2.1] at hsnd
  rw [h.unsettled]
  exact (hsnd.append_right _).trans (perm_leftOut h.snd)

theorem length_pairs : report.pairs.length = claimed.length :=
  h.pairs.length_eq.trans (map_recordsAt h.held).2.2

/-- A pair stands at a place that is claimed. -/
theorem exists_place {p : ProviderUsageRecord × MeteredRecord} (hp : p ∈ report.pairs) :
    ∃ q ∈ claimed, Pairable reading normalizeModelId rules metered provider p.1 p.2 q := by
  obtain ⟨q, hq, hbilled, hsettled⟩ := mem_recordsAt.mp (h.pairs.mem_iff.mp hp)
  obtain ⟨billed, settled, hpair⟩ := h.places q hq
  have hline := hpair.line
  have hcall := hpair.call
  rw [hbilled, Option.some.injEq] at hline
  rw [hsettled, Option.some.injEq] at hcall
  subst hline hcall
  exact ⟨q, hq, hpair⟩

theorem length_lines : report.pairs.length + report.phantom.length = provider.length := by
  have hlength := h.lines.length_eq
  rwa [List.length_append, List.length_map] at hlength

end Paired

theorem paired_of_reconcile
    (h : reconcile reading normalizeModelId rules sorting metered provider = .ok report) :
    ∃ found, candidates reading normalizeModelId rules metered provider = .ok found ∧
      Paired reading normalizeModelId rules metered provider
        (greedy [] [] ((sorting.sort found).map Candidate.places)) report := by
  obtain ⟨found, hfound, hreports⟩ := reports_of_reconcile h
  exact ⟨found, hfound,
    { hreports with
      places := fun q hq => pairable_of_claimed hfound hq
      fst := nodup_fst_greedy _ _ _
      snd := nodup_snd_greedy _ _ _ }⟩

theorem mem_pairs_of_matched {m : MatchedCall} (hm : m ∈ report.matched) :
    (m.provider, m.metered) ∈ report.pairs :=
  List.mem_append_left _ (List.mem_map.mpr ⟨m, hm, rfl⟩)

theorem mem_pairs_of_discrepant {d : Discrepancy} (hd : d ∈ report.discrepant) :
    (d.provider, d.metered) ∈ report.pairs :=
  List.mem_append_right _ (List.mem_map.mpr ⟨d, hd, rfl⟩)

/-- A report passes where every line is paired and no pair disagrees. -/
theorem passed_iff (lines : (report.pairs.map Prod.fst ++ report.phantom).Perm provider)
    (matched : ∀ m ∈ report.matched, CostAgrees reading rules m.provider m.metered)
    (discrepant : ∀ d ∈ report.discrepant, ¬CostAgrees reading rules d.provider d.metered) :
    report.passed = true ↔ (report.pairs.map Prod.fst).Perm provider ∧
      ∀ p ∈ report.pairs, CostAgrees reading rules p.1 p.2 := by
  rw [ReconciliationReport.passed, Bool.and_eq_true, List.isEmpty_iff, List.isEmpty_iff]
  constructor
  · rintro ⟨hphantom, hdiscrepant⟩
    rw [hphantom, List.append_nil] at lines
    refine ⟨lines, fun p hp => ?_⟩
    rw [ReconciliationReport.pairs, hdiscrepant, List.map_nil, List.append_nil] at hp
    obtain ⟨m, hm, rfl⟩ := List.mem_map.mp hp
    exact matched m hm
  · rintro ⟨hlines, hagree⟩
    constructor
    · have hlength := lines.length_eq
      rw [List.length_append, hlines.length_eq] at hlength
      exact List.length_eq_zero_iff.mp (by omega)
    · refine List.eq_nil_iff_forall_not_mem.mpr fun d hd => ?_
      exact discrepant d hd (hagree _ (mem_pairs_of_discrepant hd))

/-- A report of what is auditable accounts. -/
theorem accounts_of_reconcile
    (auditable : Auditable reading normalizeModelId rules metered provider)
    (h : reconcile reading normalizeModelId rules sorting metered provider = .ok report) :
    Accounts reading normalizeModelId rules metered provider report := by
  obtain ⟨found, hfound, hpaired⟩ := paired_of_reconcile h
  have hnumber : ∀ p ∈ report.pairs, p.1.totalCost.value? ≠ none := by
    intro p hp
    obtain ⟨q, -, hq⟩ := hpaired.exists_place hp
    exact auditable.numbers hq
  have hmatched : ∀ m ∈ report.matched, CostAgrees reading rules m.provider m.metered := by
    intro m hm
    obtain ⟨drift, hdrift, hbelow⟩ := hpaired.matched m hm
    exact (costAgrees_iff hdrift (hnumber _ (mem_pairs_of_matched hm))).mpr hbelow
  have hdiscrepant : ∀ d ∈ report.discrepant, ¬CostAgrees reading rules d.provider d.metered := by
    intro d hd hagree
    obtain ⟨drift, hdrift, habove⟩ := hpaired.discrepant d hd
    rw [(costAgrees_iff hdrift (hnumber _ (mem_pairs_of_discrepant hd))).mp hagree] at habove
    cases habove
  refine ⟨hpaired.lines, hpaired.calls, fun p hp => ?_, hmatched, hdiscrepant, ?_,
    passed_iff hpaired.lines hmatched hdiscrepant⟩
  · obtain ⟨q, -, hq⟩ := hpaired.exists_place hp
    exact hq.within
  · intro billed hbilled settled hsettled hwithin
    rw [hpaired.phantom] at hbilled
    rw [hpaired.unsettled] at hsettled
    obtain ⟨i, hi, hfree⟩ := mem_leftOut.mp hbilled
    obtain ⟨j, hj, hfree'⟩ := mem_leftOut.mp hsettled
    -- a candidate has an end that is claimed
    have hp : Pairable reading normalizeModelId rules metered provider billed settled (i, j) :=
      ⟨hi, hj, hwithin⟩
    obtain ⟨c, hc, hplaces, -⟩ := hp.exists_mem hfound
    have hmem : (i, j) ∈ (sorting.sort found).map Candidate.places :=
      List.mem_map.mpr ⟨c, mem_sorted.mpr hc, hplaces⟩
    obtain ⟨q, hq, hends⟩ := taken_of_mem hmem
    rcases hends with heq | heq
    · exact hfree (List.mem_map.mpr ⟨q, hq, heq⟩)
    · exact hfree' (List.mem_map.mpr ⟨q, hq, heq⟩)

/-- There is a report of what is auditable. -/
theorem exists_report (sorting : Sorting)
    (auditable : Auditable reading normalizeModelId rules metered provider) :
    ∃ report, reconcile reading normalizeModelId rules sorting metered provider = .ok report := by
  obtain ⟨found, hfound⟩ := exists_candidates_iff.mpr auditable.exists_score
  have hassess : ∀ p ∈ recordsAt metered provider
      (greedy [] [] ((sorting.sort found).map Candidate.places)),
        ∃ r, assess reading rules p = .ok r := by
    intro p hp
    obtain ⟨q, hq, hbilled, hsettled⟩ := mem_recordsAt.mp hp
    obtain ⟨billed, settled, hpair⟩ := pairable_of_claimed hfound hq
    have hline := hpair.line
    have hcall := hpair.call
    rw [hbilled, Option.some.injEq] at hline
    rw [hsettled, Option.some.injEq] at hcall
    have hwithin : Within reading normalizeModelId rules p.1 p.2 := hline ▸ hcall ▸ hpair.within
    have hmem : p.1 ∈ provider := List.mem_of_getElem? hbilled
    have hmem' : p.2 ∈ metered := List.mem_of_getElem? hsettled
    obtain ⟨x, hx⟩ := exists_costDeltaPercent_iff.mpr (auditable.costs _ hmem _ hmem' hwithin)
    exact exists_assess hx (auditable.tokens _ hmem _ hmem' hwithin.toPlausible)
  obtain ⟨assessed, hassessed⟩ := exists_mapM_eq_ok hassess
  exact ⟨_, bind_eq_ok.mpr ⟨found, hfound, bind_eq_ok.mpr ⟨assessed, hassessed, rfl⟩⟩⟩

end Telling

/-! ### Where a cost is NaN -/

/-- What is favoured comes first where a score is no number. -/
theorem head_favouring {p : Candidate → Bool} {c d : Candidate} (hc : c ∈ found) (hp : p c = true)
    (hd : d ∈ found) (hscore : d.score = none) :
    ∃ e l, (favouring p).sort found = e :: l ∧ p e = true := by
  have hnone : ¬∀ c ∈ found, c.score ≠ none := fun h => h d hd hscore
  have hsort : (favouring p).sort found = found.filter p ++ found.filter fun c => !p c :=
    if_neg hnone
  have hmem : c ∈ found.filter p := List.mem_filter.mpr ⟨hc, hp⟩
  rw [hsort]
  cases hfilter : found.filter p with
  | nil =>
    rw [hfilter] at hmem
    exact absurd hmem List.not_mem_nil
  | cons e l =>
    have he : e ∈ found.filter p := hfilter ▸ List.mem_cons_self
    exact ⟨e, _, rfl, (List.mem_filter.mp he).2⟩

/-- A claimed pair whose cost is NaN is matched. -/
theorem exists_matched {places : List (ℕ × ℕ)} {report : ReconciliationReport}
    (h : Paired reading normalizeModelId rules metered provider places report)
    {q : ℕ × ℕ} (hq : q ∈ places) {billed : ProviderUsageRecord} {settled : MeteredRecord}
    (hp : Pairable reading normalizeModelId rules metered provider billed settled q)
    (hnan : billed.totalCost.value? = none) : ∃ m ∈ report.matched, m.provider = billed := by
  have hmem : (billed, settled) ∈ report.pairs :=
    h.pairs.mem_iff.mpr (mem_recordsAt.mpr ⟨q, hq, hp.line, hp.call⟩)
  rcases List.mem_append.mp hmem with hmem | hmem
  · obtain ⟨m, hm, heq⟩ := List.mem_map.mp hmem
    exact ⟨m, hm, congrArg Prod.fst heq⟩
  · obtain ⟨d, hd, heq⟩ := List.mem_map.mp hmem
    obtain ⟨percent, hpercent, habove⟩ := h.discrepant d hd
    have hbilled : d.provider = billed := congrArg Prod.fst heq
    rw [hbilled] at hpercent
    rw [costDeltaPercent_of_nan hnan hpercent] at habove
    cases habove

/-- Where every report accounts, no line of a cost that is NaN is within the tolerances of a
call. -/
theorem numbers_of_accounts
    (h : ∀ sorting, ∃ report,
      reconcile reading normalizeModelId rules sorting metered provider = .ok report ∧
        Accounts reading normalizeModelId rules metered provider report)
    {billed : ProviderUsageRecord} {settled : MeteredRecord} (places : ℕ × ℕ)
    (hp : Pairable reading normalizeModelId rules metered provider billed settled places) :
    billed.totalCost.value? ≠ none := by
  intro hnan
  obtain ⟨report, hreport, haccounts⟩ := h (favouring fun c => decide (c.places = places))
  obtain ⟨found, hfound, hpaired⟩ := paired_of_reconcile hreport
  -- its candidate has no score, so a sorting may have it first, and then it is claimed
  obtain ⟨c, hc, hplaces, hscore⟩ := hp.exists_mem hfound
  have hnone : c.score = none := by
    rcases score_eq_ok hscore with ⟨hnone, -⟩ | ⟨tokens, cost, -, hcost, hsome⟩
    · cases hnone
    · rw [costDeltaPercent_of_nan hnan hcost] at hsome
      exact Option.some.inj hsome
  obtain ⟨e, l, hsort, he⟩ := head_favouring
    (p := fun c => decide (c.places = places)) hc (decide_eq_true hplaces) hc hnone
  have hclaimed : places ∈ greedy [] []
      (((favouring fun c => decide (c.places = places)).sort found).map Candidate.places) := by
    rw [hsort, List.map_cons, of_decide_eq_true he, greedy, if_neg (by simp)]
    exact List.mem_cons_self
  obtain ⟨m, hm, hmbilled⟩ := exists_matched hpaired hclaimed hp hnan
  obtain ⟨v, hv, -⟩ := haccounts.matched m hm
  rw [hmbilled, hnan] at hv
  cases hv

/-- Every report accounts, whichever sorting and however floats are read, just where the tokens of
pairs that could be the same call and the costs of pairs within the tolerances are in range, and
none of these costs is NaN. -/
theorem accounts_iff (reading : Reading) (normalizeModelId : Text → Text)
    (rules : ReconciliationPolicy) (metered : List MeteredRecord)
    (provider : List ProviderUsageRecord) :
    (∀ sorting, ∃ report,
        reconcile reading normalizeModelId rules sorting metered provider = .ok report ∧
          Accounts reading normalizeModelId rules metered provider report) ↔
      Auditable reading normalizeModelId rules metered provider := by
  constructor
  · intro h
    obtain ⟨report, hreport, -⟩ := h bestFirst
    obtain ⟨found, hfound, -⟩ := paired_of_reconcile hreport
    have hscores := exists_candidates_iff.mp ⟨found, hfound⟩
    refine ⟨fun billed hbilled settled hsettled hp => ?_,
      fun billed hbilled settled hsettled hwithin => ?_⟩
    · exact (exists_score_iff.mp (hscores _ hbilled _ hsettled)).1 hp
    · obtain ⟨i, hi⟩ := List.mem_iff_getElem?.mp hbilled
      obtain ⟨j, hj⟩ := List.mem_iff_getElem?.mp hsettled
      have hnumber := numbers_of_accounts h (i, j) ⟨hi, hj, hwithin⟩
      obtain ⟨v, hv⟩ := Option.ne_none_iff_exists'.mp hnumber
      obtain ⟨cost, hcost⟩ := (exists_score_iff.mp (hscores _ hbilled _ hsettled)).2 hwithin
      obtain ⟨c, rfl⟩ := costDeltaPercent_of_value hv hcost
      exact exists_costDeltaPercent_iff.mp ⟨_, hcost⟩
  · intro auditable sorting
    obtain ⟨report, hreport⟩ := exists_report sorting auditable
    exact ⟨report, hreport, accounts_of_reconcile auditable hreport⟩

/-- A call settled for a dollar. -/
def settledAt (s : Fin 60) : MeteredRecord where
  transactionId := 0
  timestamp := ⟨2026, 1, 1, 0, 0, s, 0, ⟨by decide, by decide, by decide, by decide, by decide,
    by decide, by decide, by decide, s.isLt, by decide⟩⟩
  model := []
  inputTokens := none
  outputTokens := none
  settledCost := Decimal.ofInt 1
  settled := ⟨1, by norm_num, by simp [Decimal.ofInt, Decimal.value?, Decimal.rat]⟩

/-- A line of some cost. -/
def billedAt (cost : Decimal) (s : Fin 60) : ProviderUsageRecord where
  recordId := []
  timestamp := (settledAt s).timestamp
  model := []
  inputTokens := 0
  outputTokens := 0
  totalCost := cost

/-- The seconds between a line and a call. -/
def apart (s t : Fin 60) : ℕ := ((s : ℤ) - (t : ℤ)).natAbs

section Samples

variable {cost : Decimal} {s t : Fin 60}

theorem gap_at : gap reading (billedAt cost s) (settledAt t) = .finite (apart s t) := by
  have hmicros : ∀ u : Fin 60, ((settledAt u).timestamp.micros : ℚ) =
      (settledAt 0).timestamp.micros + (u : ℕ) * 1000000 := by
    intro u
    simp only [settledAt, Instant.micros, Instant.ordinal, Fin.val_zero]
    push_cast
    ring
  have hseconds : (((billedAt cost s).timestamp.micros : ℚ) - (settledAt t).timestamp.micros) /
      1000000 = (((s : ℤ) - (t : ℤ) : ℤ) : ℚ) := by
    rw [show (billedAt cost s).timestamp = (settledAt s).timestamp from rfl, hmicros s, hmicros t]
    push_cast
    ring
  rw [gap, hseconds, read_whole reading (by omega), magnitude, apart, Nat.cast_natAbs, Int.cast_abs]

theorem plausible_at :
    Plausible reading id {} (billedAt cost s) (settledAt t) ↔ apart s t ≤ 5 := by
  have hexceeds : Number.AtMost (some (.finite (apart s t))) (some (.finite 5)) ↔
      apart s t ≤ 5 := by
    rw [Number.atMost_some]
    simp only [Number.exceeds, Value.finite_lt_finite, decide_eq_false_iff_not, not_lt]
    exact_mod_cast Iff.rfl
  rw [← hexceeds]
  constructor
  · intro h
    have htime := h.time
    rwa [gap_at] at htime
  · intro h
    refine ⟨?_, rfl⟩
    rwa [gap_at]

theorem within_at : Within reading id {} (billedAt cost s) (settledAt t) ↔ apart s t ≤ 5 := by
  have hnone : tokenDeltaPercent reading (billedAt cost s) (settledAt t) = .ok none := rfl
  refine ⟨fun h => plausible_at.mp h.toPlausible, fun h => ⟨plausible_at.mpr h, ?_⟩⟩
  exact (tokensAgree_iff hnone).mpr rfl

theorem worth_settledAt : (settledAt t).settledCost.worth.toRat = 1 := by
  simp [settledAt, Decimal.worth, Decimal.ofInt, Decimal.value?, Decimal.rat]

theorem value_billedAt :
    (billedAt (Decimal.ofInt 1) s).totalCost.value? = some (.finite 1) := by
  simp [billedAt, Decimal.ofInt, Decimal.value?, Decimal.rat]

theorem costInRange_at : CostInRange (.finite 1) (settledAt t).settledCost.worth.toRat := by
  rw [worth_settledAt]
  intro q hq
  cases hq
  rw [sub_self, abs_zero, RadixFormat.nearest_zero]
  refine ⟨RadixFormat.limit_pos, fun delta hdelta => ?_⟩
  cases hdelta
  rw [mul_zero, mul_one]
  exact RadixFormat.limit_pos

theorem costDeltaPercent_at :
    costDeltaPercent reading (billedAt (Decimal.ofInt 1) s) (settledAt t) =
      .ok (some (.finite 0)) := by
  have hdelta : costDelta (billedAt (Decimal.ofInt 1) s) (settledAt t) = .ok (some (.finite 0)) := by
    rw [costDelta_of_finite value_billedAt, worth_settledAt, sub_self, RadixFormat.nearest_zero]
  have hzero : (drift (.finite 1) 1 : Value) = .finite ((0 : ℤ) : ℚ) := by
    simp [drift]
  refine costDeltaPercent_eq_ok.mpr ⟨_, hdelta, some (.finite 0), ?_, some (.finite 0), ?_, ?_⟩
  · rw [(settledAt t).value, Option.map_some, worth_settledAt]
    rw [operate_rounded (fun a _ => arithmetic.dividedBy a 1) (q := 0)
      (by rw [magnitude, abs_zero, DecimalContext.dividedBy, zero_div])]
    rw [RadixFormat.nearest_zero]
  · rw [operate_rounded arithmetic.times (q := 0) (by rw [DecimalContext.times, zero_mul]),
      RadixFormat.nearest_zero]
  · rw [Option.map_some, Decimal.worth, value_billedAt, Option.getD_some, worth_settledAt, hzero]
    have hread := read_whole reading (n := 0) (by decide)
    rw [Int.cast_zero] at hread ⊢
    rw [hread]

theorem costAgrees_at : CostAgrees reading {} (billedAt (Decimal.ofInt 1) s) (settledAt t) := by
  refine (costAgrees_iff costDeltaPercent_at ?_).mpr ?_
  · rw [value_billedAt]
    exact Option.some_ne_none _
  · simp [Number.exceeds]

theorem score_at (h : apart s t ≤ 5) :
    score reading id {} (billedAt (Decimal.ofInt 1) s) (settledAt t) =
      .ok (some (some (.finite (apart s t)))) := by
  rw [score_of_near (plausible_at.mpr h), show tokenDeltaPercent reading
    (billedAt (Decimal.ofInt 1) s) (settledAt t) = .ok none from rfl, ok_bind, costDeltaPercent_at,
    gap_at]
  have hzero := read_whole reading (n := 0) (by decide)
  have hapart := read_whole reading (n := apart s t) (by omega)
  rw [Int.cast_zero] at hzero
  rw [Int.cast_natCast] at hapart
  simp [Number.plus, Value.zero_def, hzero, hapart]

/-- The lines and the calls of a dollar at some seconds are auditable. -/
theorem auditable_at (ls cs : List (Fin 60)) :
    Auditable reading id {} (cs.map settledAt) (ls.map (billedAt (Decimal.ofInt 1))) := by
  constructor
  · rintro billed - settled hsettled - total htotal
    obtain ⟨t, -, rfl⟩ := List.mem_map.mp hsettled
    cases htotal
  · rintro billed hbilled settled hsettled -
    obtain ⟨s, -, rfl⟩ := List.mem_map.mp hbilled
    obtain ⟨t, -, rfl⟩ := List.mem_map.mp hsettled
    exact ⟨_, value_billedAt, costInRange_at⟩

end Samples

/-- A line of a cost that is NaN is matched, and passes. -/
theorem passed_of_nan : ∃ report,
    reconcile .rationals id {} bestFirst [settledAt 0] [billedAt (.nan false false 0) 0] =
        .ok report ∧
      report.passed = true ∧
      ¬Accounts .rationals id {} [settledAt 0] [billedAt (.nan false false 0) 0] report := by
  have hdrift : costDeltaPercent .rationals (billedAt (.nan false false 0) 0) (settledAt 0) =
      .ok none :=
    costDeltaPercent_eq_ok.mpr ⟨none, rfl, none, rfl, none, rfl, rfl⟩
  have hscore : score .rationals id {} (billedAt (.nan false false 0) 0) (settledAt 0) =
      .ok (some none) := by
    rw [score_of_near (plausible_at.mpr (by decide)), show tokenDeltaPercent .rationals
      (billedAt (.nan false false 0) 0) (settledAt 0) = .ok none from rfl, ok_bind, hdrift]
    rfl
  have hfound : candidates .rationals id {} [settledAt 0] [billedAt (.nan false false 0) 0] =
      .ok [⟨none, 0, 0⟩] := by
    refine bind_eq_ok.mpr ⟨[some ⟨none, 0, 0⟩], mapM_eq_ok.mpr (.cons ?_ .nil), rfl⟩
    exact bind_eq_ok.mpr ⟨some none, hscore, rfl⟩
  have hsort : bestFirst.sort [⟨none, 0, 0⟩] = [⟨none, 0, 0⟩] :=
    List.perm_singleton.mp (bestFirst.perm _)
  have hassess : ∃ m, assess .rationals {} (billedAt (.nan false false 0) 0, settledAt 0) =
      .ok (.inl m) ∧ m.provider = billedAt (.nan false false 0) 0 :=
    ⟨_, bind_eq_ok.mpr ⟨none, rfl, bind_eq_ok.mpr ⟨none, hdrift, rfl⟩⟩, rfl⟩
  obtain ⟨m, hm, hprovider⟩ := hassess
  refine ⟨⟨[m], [], [], [], false⟩, ?_, rfl, fun h => ?_⟩
  · rw [reconcile, hfound, ok_bind, hsort]
    exact bind_eq_ok.mpr ⟨[.inl m], mapM_eq_ok.mpr (.cons hm .nil), rfl⟩
  · obtain ⟨v, hv, -⟩ := h.matched m List.mem_cons_self
    rw [hprovider] at hv
    cases hv

/-! ### An invoice whose lines have calls of their own -/

/-- An assignment of a call of its own to every line, within every tolerance. -/
structure Assigned (reading : Reading) (normalizeModelId : Text → Text)
    (rules : ReconciliationPolicy) (metered : List MeteredRecord)
    (provider : List ProviderUsageRecord) (f : Fin provider.length ↪ Fin metered.length) : Prop where
  within : ∀ i, Within reading normalizeModelId rules (provider.get i) (metered.get (f i))
  agrees : ∀ i, CostAgrees reading rules (provider.get i) (metered.get (f i))

/-- Whether the candidate at some places comes before every other one of its line and of its
call. -/
def First (reading : Reading) (normalizeModelId : Text → Text) (rules : ReconciliationPolicy)
    (metered : List MeteredRecord) (provider : List ProviderUsageRecord) (places : ℕ × ℕ) : Prop :=
  ∀ billed settled s,
    Pairable reading normalizeModelId rules metered provider billed settled places →
    score reading normalizeModelId rules billed settled = .ok (some s) →
    ∀ other billed' settled' t,
      Pairable reading normalizeModelId rules metered provider billed' settled' other →
      score reading normalizeModelId rules billed' settled' = .ok (some t) →
      other.1 = places.1 ∨ other.2 = places.2 → other ≠ places →
      Candidate.key ⟨s, places.1, places.2⟩ < Candidate.key ⟨t, other.1, other.2⟩

section Healthy

variable {sorting : Sorting} {report : ReconciliationReport}
  {f : Fin provider.length ↪ Fin metered.length}

theorem length_leftOut {α : Type} {l : List α} {places : List ℕ} :
    (leftOut l places).length = ((Finset.range l.length).filter fun i => i ∉ places).card := by
  have hzip : (leftOut l places).length = ((List.range l.length).filter (· ∉ places)).length := by
    rw [leftOut, List.length_map, List.range_eq_range', ← List.zipIdx_map_snd 0 l,
      List.filter_map, List.length_map]
    rfl
  rw [hzip, ← List.toFinset_card_of_nodup (List.nodup_range.filter _)]
  congr 1
  ext i
  simp

/-- Whether the score of every candidate is a number. -/
def Scored (reading : Reading) (normalizeModelId : Text → Text) (rules : ReconciliationPolicy)
    (metered : List MeteredRecord) (provider : List ProviderUsageRecord) : Prop :=
  ∀ billed ∈ provider, ∀ settled ∈ metered,
    score reading normalizeModelId rules billed settled ≠ .ok (some none)

/-- A candidate that comes before the other ones of its line and of its call is claimed. -/
theorem mem_claimed (scored : Scored reading normalizeModelId rules metered provider)
    (hfound : candidates reading normalizeModelId rules metered provider = .ok found)
    {places : ℕ × ℕ} {billed : ProviderUsageRecord} {settled : MeteredRecord}
    (hp : Pairable reading normalizeModelId rules metered provider billed settled places)
    (first : First reading normalizeModelId rules metered provider places) :
    places ∈ greedy [] [] ((sorting.sort found).map Candidate.places) := by
  have hscores : ∀ c ∈ found, c.score ≠ none := by
    intro c hc hnone
    obtain ⟨billed, settled, hp, hscore⟩ := pairable_of_mem hfound hc
    rw [hnone] at hscore
    exact scored _ (List.mem_of_getElem? hp.line) _ (List.mem_of_getElem? hp.call) hscore
  -- the candidates at two places, in the order they are sorted in
  have hsorted : ((sorting.sort found).map Candidate.places).Pairwise fun p q =>
      ∃ c ∈ found, ∃ d ∈ found, c.places = p ∧ d.places = q ∧ c.key ≤ d.key :=
    List.pairwise_map.mpr ((sorting.sorted found hscores).imp_of_mem fun hc hd hle =>
      ⟨_, mem_sorted.mp hc, _, mem_sorted.mp hd, rfl, rfl, hle⟩)
  obtain ⟨c₀, hc₀, hplaces, -⟩ := hp.exists_mem hfound
  refine mem_greedy_of_first hsorted
    (List.mem_map.mpr ⟨c₀, mem_sorted.mpr hc₀, hplaces⟩) ?_
  rintro q - hends hne ⟨d, hd, c, hc, rfl, rfl, hle⟩
  obtain ⟨billed', settled', hp', hs⟩ := pairable_of_mem hfound hc
  obtain ⟨billed'', settled'', hp'', ht⟩ := pairable_of_mem hfound hd
  have hlt : c.key < d.key := first _ _ _ hp' hs _ _ _ _ hp'' ht hends hne
  exact absurd hle hlt.not_ge

namespace Assigned

variable (h : Assigned reading normalizeModelId rules metered provider f)
include h

/-- The assigned pair of a line stands at its places. -/
theorem pairable (i : Fin provider.length) :
    Pairable reading normalizeModelId rules metered provider (provider.get i) (metered.get (f i))
      ((i : ℕ), (f i : ℕ)) :=
  ⟨List.getElem?_eq_getElem i.isLt, List.getElem?_eq_getElem (f i).isLt, h.within i⟩

/-- The assigned pair of a line is among the candidates. -/
theorem mem_sorted_places (sorting : Sorting)
    (hfound : candidates reading normalizeModelId rules metered provider = .ok found)
    (i : Fin provider.length) :
    ((i : ℕ), (f i : ℕ)) ∈ (sorting.sort found).map Candidate.places := by
  obtain ⟨c, hc, hplaces, -⟩ := (h.pairable i).exists_mem hfound
  exact List.mem_map.mpr ⟨c, mem_sorted.mpr hc, hplaces⟩

/-- No more lines are left out than pairs are claimed. -/
theorem length_phantom_le
    (hfound : candidates reading normalizeModelId rules metered provider = .ok found)
    (hpaired : Paired reading normalizeModelId rules metered provider
      (greedy [] [] ((sorting.sort found).map Candidate.places)) report) :
    report.phantom.length ≤ report.pairs.length := by
  rw [hpaired.phantom, hpaired.length_pairs, length_leftOut]
  let g : ℕ → ℕ := fun i => if hi : i < provider.length then f ⟨i, hi⟩ else 0
  have hg : ∀ i : Fin provider.length, g i = f i := fun i => dif_pos i.isLt
  refine card_left_out_le (f := g) ?_ ?_
  · intro i hi j hj heq
    have hi : i < provider.length := Finset.mem_range.mp hi
    have hj : j < provider.length := Finset.mem_range.mp hj
    have hfeq : (f ⟨i, hi⟩ : ℕ) = f ⟨j, hj⟩ := by
      rw [← hg ⟨i, hi⟩, ← hg ⟨j, hj⟩]
      exact heq
    exact congrArg Fin.val (f.injective (Fin.ext hfeq))
  · intro i hi
    have hi : i < provider.length := Finset.mem_range.mp hi
    rw [show g i = f ⟨i, hi⟩ from hg ⟨i, hi⟩]
    exact h.mem_sorted_places sorting hfound ⟨i, hi⟩

/-- The call assigned to a line that is left out is paired with another. -/
theorem exists_other
    (hfound : candidates reading normalizeModelId rules metered provider = .ok found)
    (hpaired : Paired reading normalizeModelId rules metered provider
      (greedy [] [] ((sorting.sort found).map Candidate.places)) report)
    {billed : ProviderUsageRecord} (hbilled : billed ∈ report.phantom) :
    ∃ settled other, Within reading normalizeModelId rules billed settled ∧
      CostAgrees reading rules billed settled ∧ (other, settled) ∈ report.pairs := by
  rw [hpaired.phantom] at hbilled
  obtain ⟨i, hi, hfree⟩ := mem_leftOut.mp hbilled
  obtain ⟨hlt, rfl⟩ := List.getElem?_eq_some_iff.mp hi
  obtain ⟨q, hq, hends⟩ := taken_of_mem
    (h.mem_sorted_places sorting hfound ⟨i, hlt⟩)
  rcases hends with heq | heq
  · exact absurd (List.mem_map.mpr ⟨q, hq, heq⟩) hfree
  · obtain ⟨other, settled, hp⟩ := hpaired.places q hq
    have hcall := hp.call
    rw [heq, List.getElem?_eq_getElem (f ⟨i, hlt⟩).isLt, Option.some.injEq] at hcall
    subst hcall
    refine ⟨_, other, h.within ⟨i, hlt⟩, h.agrees ⟨i, hlt⟩, ?_⟩
    exact hpaired.pairs.mem_iff.mpr (mem_recordsAt.mpr ⟨q, hq, hp.line, hp.call⟩)

end Assigned

/-- Of an auditable invoice whose lines have calls of their own within every tolerance, at most half
of the lines are left out, each since its call is paired with another, and none where scores are
numbers and every assigned pair comes before the other pairs of its ends. -/
theorem healthy (sorting : Sorting) (f : Fin provider.length ↪ Fin metered.length)
    (h : Assigned reading normalizeModelId rules metered provider f)
    (auditable : Auditable reading normalizeModelId rules metered provider) :
    ∃ report, reconcile reading normalizeModelId rules sorting metered provider = .ok report ∧
      2 * report.phantom.length ≤ provider.length ∧
      (∀ billed ∈ report.phantom, ∃ settled other,
        Within reading normalizeModelId rules billed settled ∧
        CostAgrees reading rules billed settled ∧ (other, settled) ∈ report.pairs) ∧
      (Scored reading normalizeModelId rules metered provider →
        (∀ i : Fin provider.length,
          First reading normalizeModelId rules metered provider ((i : ℕ), (f i : ℕ))) →
        report.phantom = [] ∧ report.passed = true) := by
  obtain ⟨report, hreport⟩ := exists_report sorting auditable
  have haccounts := accounts_of_reconcile auditable hreport
  obtain ⟨found, hfound, hpaired⟩ := paired_of_reconcile hreport
  refine ⟨report, hreport, ?_, fun _ => h.exists_other hfound hpaired,
    fun scored first => ?_⟩
  · have hle := h.length_phantom_le hfound hpaired
    have hlength := hpaired.length_lines
    omega
  · have hclaimed : ∀ i : Fin provider.length, ((i : ℕ), (f i : ℕ)) ∈
        greedy [] [] ((sorting.sort found).map Candidate.places) :=
      fun i => mem_claimed scored hfound (h.pairable i) (first i)
    have hphantom : report.phantom = [] := by
      refine List.eq_nil_iff_forall_not_mem.mpr fun billed hbilled => ?_
      rw [hpaired.phantom] at hbilled
      obtain ⟨i, hi, hfree⟩ := mem_leftOut.mp hbilled
      obtain ⟨hlt, -⟩ := List.getElem?_eq_some_iff.mp hi
      exact hfree (List.mem_map.mpr ⟨_, hclaimed ⟨i, hlt⟩, rfl⟩)
    refine ⟨hphantom, haccounts.passed.mpr ⟨?_, fun p hp => ?_⟩⟩
    · have hlines := haccounts.lines
      rwa [hphantom, List.append_nil] at hlines
    · obtain ⟨q, hq, hp⟩ := hpaired.exists_place hp
      obtain ⟨hlt, hline⟩ := List.getElem?_eq_some_iff.mp hp.line
      -- the pair of a line is the one assigned to it
      have heq : q = (q.1, (f ⟨q.1, hlt⟩ : ℕ)) :=
        List.inj_on_of_nodup_map hpaired.fst hq (hclaimed ⟨q.1, hlt⟩) rfl
      obtain ⟨hlt', hcall⟩ := List.getElem?_eq_some_iff.mp hp.call
      have hagrees := h.agrees ⟨q.1, hlt⟩
      have hsettled : metered.get (f ⟨q.1, hlt⟩) = p.2 := by
        rw [← hcall]
        exact congrArg metered.get (Fin.ext (congrArg Prod.snd heq).symm)
      rw [hsettled] at hagrees
      exact hline ▸ hagrees

end Healthy

section Samples

variable {ls cs : List (Fin 60)}

theorem key_lt_of_score {a b : Candidate} {p q : ℚ} (ha : a.score = some (.finite p))
    (hb : b.score = some (.finite q)) (hlt : p < q) : a.key < b.key := by
  refine Prod.Lex.lt_iff.mpr (Or.inl ?_)
  change (show WithBot Value from a.score) < (show WithBot Value from b.score)
  rw [ha, hb]
  exact WithBot.coe_lt_coe.mpr (Value.finite_lt_finite.mpr hlt)

theorem scored_at :
    Scored reading id {} (cs.map settledAt) (ls.map (billedAt (Decimal.ofInt 1))) := by
  intro billed hbilled settled hsettled hnone
  obtain ⟨s, -, rfl⟩ := List.mem_map.mp hbilled
  obtain ⟨t, -, rfl⟩ := List.mem_map.mp hsettled
  rcases score_eq_ok hnone with ⟨hsome, -⟩ | ⟨-, -, hwithin, -, -⟩
  · cases hsome
  · rw [score_at (within_at.mp hwithin)] at hnone
    cases hnone

/-- A pair of lines and calls of a dollar is scored by the seconds between them. -/
theorem pairable_at {billed : ProviderUsageRecord} {settled : MeteredRecord} {places : ℕ × ℕ}
    (h : Pairable reading id {} (cs.map settledAt) (ls.map (billedAt (Decimal.ofInt 1))) billed
      settled places) :
    ∃ (i : Fin ls.length) (j : Fin cs.length), places = (i.val, j.val) ∧
      apart (ls.get i) (cs.get j) ≤ 5 ∧ score reading id {} billed settled =
        .ok (some (some (.finite (apart (ls.get i) (cs.get j))))) := by
  have hline := h.line
  have hcall := h.call
  rw [List.getElem?_map, Option.map_eq_some_iff] at hline hcall
  obtain ⟨s, hs, rfl⟩ := hline
  obtain ⟨t, ht, rfl⟩ := hcall
  obtain ⟨hi, rfl⟩ := List.getElem?_eq_some_iff.mp hs
  obtain ⟨hj, rfl⟩ := List.getElem?_eq_some_iff.mp ht
  have hnear := within_at.mp h.within
  exact ⟨⟨_, hi⟩, ⟨_, hj⟩, rfl, hnear, score_at hnear⟩

/-- A pair comes first where the other calls and lines are further from its line and its call. -/
theorem first_at (ls cs : List (Fin 60)) {i : Fin ls.length} {j : Fin cs.length}
    (h : ∀ i' j', i' = i ∨ j' = j → (i', j') ≠ (i, j) →
      apart (ls.get i) (cs.get j) < apart (ls.get i') (cs.get j')) :
    First reading id {} (cs.map settledAt) (ls.map (billedAt (Decimal.ofInt 1))) (i.val, j.val) := by
  intro billed settled s hp hs other billed' settled' t hp' ht hends hne
  obtain ⟨k, l, hplaces, -, hscore⟩ := pairable_at hp
  obtain ⟨k', l', rfl, -, hscore'⟩ := pairable_at hp'
  obtain ⟨hk, hl⟩ := Prod.mk.inj hplaces
  obtain rfl := Fin.ext hk
  obtain rfl := Fin.ext hl
  rw [hscore, Except.ok.injEq, Option.some.injEq] at hs
  rw [hscore', Except.ok.injEq, Option.some.injEq] at ht
  refine key_lt_of_score hs.symm ht.symm ?_
  refine Nat.cast_lt.mpr (h k' l' (hends.imp Fin.ext Fin.ext) fun heq => hne ?_)
  obtain ⟨rfl, rfl⟩ := Prod.mk.inj heq
  rfl

theorem assigned_at {f : Fin (ls.map (billedAt (Decimal.ofInt 1))).length ↪
      Fin (cs.map settledAt).length}
    (h : ∀ i, apart (ls.get (i.cast (List.length_map _))) (cs.get ((f i).cast
      (List.length_map _))) ≤ 5) :
    Assigned reading id {} (cs.map settledAt) (ls.map (billedAt (Decimal.ofInt 1))) f := by
  refine ⟨fun i => ?_, fun i => ?_⟩
  · rw [List.get_eq_getElem, List.get_eq_getElem, List.getElem_map, List.getElem_map]
    exact within_at.mpr (h i)
  · rw [List.get_eq_getElem, List.get_eq_getElem, List.getElem_map, List.getElem_map]
    exact costAgrees_at

end Samples

/-- Two lines and their calls, each of which is within the tolerances of the other line too. -/
theorem healthy_pairs : ∃ report,
    reconcile .floats id {} bestFirst ([0, 4].map settledAt)
        ([0, 3].map (billedAt (Decimal.ofInt 1))) = .ok report ∧
      report.phantom = [] ∧ report.passed = true := by
  have hassigned : Assigned .floats id {} ([0, 4].map settledAt)
      ([0, 3].map (billedAt (Decimal.ofInt 1))) (Function.Embedding.refl (Fin 2)) :=
    assigned_at (Fin.forall_fin_two.mpr ⟨by decide, by decide⟩)
  obtain ⟨report, hreport, -, -, hfirst⟩ := healthy bestFirst _ hassigned (auditable_at _ _)
  refine ⟨report, hreport, hfirst scored_at (Fin.forall_fin_two.mpr ⟨?_, ?_⟩)⟩
  · exact first_at [0, 3] [0, 4] (i := 0) (j := 0) (by decide)
  · exact first_at [0, 3] [0, 4] (i := 1) (j := 1) (by decide)

/-- Two lines with a call of its own each. The call of the first is closest to the second. -/
theorem phantom_of_assigned :
    (∃ f, Assigned .floats id {} ([4, 12].map settledAt)
      ([0, 7].map (billedAt (Decimal.ofInt 1))) f) ∧
    ∃ report, reconcile .floats id {} bestFirst ([4, 12].map settledAt)
        ([0, 7].map (billedAt (Decimal.ofInt 1))) = .ok report ∧
      report.phantom ≠ [] ∧ report.passed = false := by
  have hassigned : Assigned .floats id {} ([4, 12].map settledAt)
      ([0, 7].map (billedAt (Decimal.ofInt 1))) (Function.Embedding.refl (Fin 2)) :=
    assigned_at (Fin.forall_fin_two.mpr ⟨by decide, by decide⟩)
  have hauditable : Auditable .floats id {} ([4, 12].map settledAt)
      ([0, 7].map (billedAt (Decimal.ofInt 1))) := auditable_at _ _
  obtain ⟨report, hreport⟩ := exists_report bestFirst hauditable
  obtain ⟨found, hfound, hpaired⟩ := paired_of_reconcile hreport
  have hclaimed : (1, 0) ∈ greedy [] [] ((bestFirst.sort found).map Candidate.places) := by
    have hp : Pairable .floats id {} ([4, 12].map settledAt)
        ([0, 7].map (billedAt (Decimal.ofInt 1))) (billedAt (Decimal.ofInt 1) 7) (settledAt 4)
        (1, 0) :=
      ⟨rfl, rfl, within_at.mpr (by decide)⟩
    exact mem_claimed scored_at hfound hp
      (first_at [0, 7] [4, 12] (i := 1) (j := 0) (by decide))
  have hphantom : report.phantom ≠ [] := by
    intro hnil
    have hmem : 0 ∈ (greedy [] [] ((bestFirst.sort found).map Candidate.places)).map Prod.fst := by
      by_contra hfree
      have hleft : billedAt (Decimal.ofInt 1) 0 ∈
          leftOut ([0, 7].map (billedAt (Decimal.ofInt 1))) _ :=
        mem_leftOut.mpr ⟨0, rfl, hfree⟩
      rw [← hpaired.phantom, hnil] at hleft
      exact absurd hleft List.not_mem_nil
    obtain ⟨q, hq, hzero⟩ := List.mem_map.mp hmem
    obtain ⟨billed, settled, hp⟩ := hpaired.places _ hq
    obtain ⟨i, j, rfl, hnear, -⟩ := pairable_at hp
    obtain rfl : i = 0 := Fin.ext hzero
    rcases Fin.exists_fin_two.mp ⟨j, rfl⟩ with hj | hj
    · subst hj
      have heq := List.inj_on_of_nodup_map hpaired.snd hq hclaimed rfl
      cases heq
    · subst hj
      exact absurd hnear (by decide)
  refine ⟨⟨_, hassigned⟩, report, hreport, hphantom, ?_⟩
  rw [ReconciliationReport.passed, Bool.and_eq_false_iff]
  exact Or.inl (by simpa using hphantom)

end AgentGov.Invoices
