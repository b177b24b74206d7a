import AgentGov.Foundation.Sequences
import AgentGov.Matchings

/-!
# Authorizations and open holds

The second and third loop of the matching, and what all three leave: one authorization for each
open hold. For a key that an unnamed release has touched there are at least as many free holds as
rows to be served on them, since no more rows are served than the key has holds.

## Main results

* `AgentGov.ChainView.Roll.matchKey`: what the third loop does for a key.
* `AgentGov.ChainView.Matched.reconcile`: what a matching comes to.
-/

open Foundation

namespace AgentGov

namespace ChainView

variable {v : ChainView} {index : HoldIndex} {rows : List PersistedAuthorization}

/-! ### The open holds -/

/-- The open holds. -/
def openHolds (v : ChainView) : List LedgerEntry := v.iterHolds.map Prod.snd

/-- The open holds of a key. -/
def holdsOf (v : ChainView) (key : HoldKey) : List LedgerEntry :=
  v.openHolds.filter fun e => HoldKey.same key e.holdKey

/-- The open holds that no unnamed release can have closed and that nothing serves. -/
def unserved (v : ChainView) (servedHolds : List UUID) : List LedgerEntry :=
  v.openHolds.filter fun e => !v.isAmbiguous e.holdKey && e.entryId ∉ servedHolds

namespace Lists

theorem mem_openHolds (hv : v.Lists) {e : LedgerEntry} :
    e ∈ v.openHolds ↔ v.openHold e.entryId = some e := by
  rw [hv.openHold, openHolds, List.mem_map]
  constructor
  · rintro ⟨p, hp, rfl⟩
    rwa [hv.keyed p hp]
  · exact fun h => ⟨_, h, rfl⟩

theorem nodup_openHolds (hv : v.Lists) : (v.openHolds.map LedgerEntry.entryId).Nodup := by
  have hids : v.openHolds.map LedgerEntry.entryId = v.iterHolds.map Prod.fst := by
    rw [openHolds, List.map_map]
    exact List.map_congr_left hv.keyed
  rw [hids]
  exact hv.nodup

theorem known_of_mem (hv : v.Lists) {e : LedgerEntry} (he : e ∈ v.openHolds) :
    v.known index e.entryId = some e := by
  rw [known, hv.mem_openHolds.mp he]
  rfl

end Lists

/-- The second loop, over holds each under its own id: what it serves, and what it reports. -/
theorem foldl_matchOpen (repairing : Bool) (named servedHolds : List UUID)
    {holds : List (UUID × LedgerEntry)} (keyed : ∀ p ∈ holds, p.2.entryId = p.1)
    (problems : List RowProblem) (result : Dict UUID Authorization) :
    (holds.foldl (v.matchOpen repairing named servedHolds) (problems, result)).2 =
        (if repairing then ((holds.map Prod.snd).filter fun e =>
          !v.isAmbiguous e.holdKey && e.entryId ∉ servedHolds) else []).foldl
          (fun result hold => result.set hold.entryId (authorizationFor hold)) result ∧
      ((holds.foldl (v.matchOpen repairing named servedHolds) (problems, result)).1 = [] →
        problems = [] ∧ ∀ p ∈ holds, v.isAmbiguous p.2.holdKey = false → p.1 ∉ servedHolds →
          p.1 ∈ named) := by
  induction holds generalizing problems result with
  | nil => cases repairing <;> simp
  | cons p holds ih =>
    have hp := keyed p List.mem_cons_self
    have hrest := fun problems result => ih (fun q hq => keyed q (List.mem_cons_of_mem _ hq))
      problems result
    rw [List.foldl_cons, List.map_cons]
    by_cases hskip : v.isAmbiguous p.2.holdKey = true ∨ p.1 ∈ servedHolds
    · rw [matchOpen, if_pos hskip, List.filter_cons_of_neg (by
        rw [hp]; rcases hskip with h | h <;> simp [h])]
      refine ⟨(hrest problems result).1, fun hnone => ?_⟩
      obtain ⟨hbefore, hall⟩ := (hrest problems result).2 hnone
      refine ⟨hbefore, fun q hq hplain hserved => ?_⟩
      rcases List.mem_cons.mp hq with rfl | hq
      · rcases hskip with h | h
        · rw [h] at hplain
          cases hplain
        · exact absurd h hserved
      · exact hall q hq hplain hserved
    · rw [matchOpen, if_neg hskip, List.filter_cons_of_pos (by
        rw [hp]; push Not at hskip; simp [hskip.1, hskip.2])]
      refine ⟨?_, fun hnone => ?_⟩
      · rw [(hrest _ _).1]
        cases repairing with
        | true => simp [hp]
        | false => simp
      · obtain ⟨hbefore, hall⟩ := (hrest _ _).2 hnone
        split_ifs at hbefore with hnamed
        · refine ⟨hbefore, fun q hq => ?_⟩
          rcases List.mem_cons.mp hq with rfl | hq
          · exact fun _ _ => hnamed
          · exact hall q hq
        · simp at hbefore

/-! ### The keys an unnamed release has touched -/

variable {result : Dict UUID Authorization} {as : List Authorization} {names : List UUID}

/-- The rows of a key are served one by one, on distinct holds: those that name an open hold on
that, the others on free ones. -/
theorem Roll.serveKept (h : Roll v rows result as names)
    (distinct : (rows.map PersistedAuthorization.authorizationId).Nodup) (own : OwnIds v rows)
    {kept : List Authorization} {free : List LedgerEntry}
    (hs : ∀ a ∈ kept, Stands v rows a.authorizationId a.entry.entryId)
    (nodup : (kept.map fun a => a.entry.entryId).Nodup)
    (new : ∀ a ∈ kept, a.entry.entryId ∉ names)
    (room : (kept.filter fun a => !(v.openHold a.entry.entryId).isSome).length ≤ free.length) :
    ∃ served rest result', v.serveKept free result kept = .ok (rest, result') ∧
      Roll v rows result' (as ++ served) (names ++ kept.map fun a => a.entry.entryId) ∧
      (served.map Authorization.entry ++ rest).Perm
        ((kept.filter fun a => (v.openHold a.entry.entryId).isSome).map Authorization.entry ++
          free) ∧
      rest.Sublist free ∧
      ∀ s ∈ served, ∃ a ∈ kept, s = a ∨ ∃ e ∈ free, s = { a with entry := e } := by
  induction kept generalizing result as names free with
  | nil => exact ⟨[], free, result, rfl, by simpa using h, by simp, List.Sublist.refl _, by simp⟩
  | cons a kept ih =>
    rw [List.map_cons, List.nodup_cons] at nodup
    have hs' := fun x hx => hs x (List.mem_cons_of_mem a hx)
    have new' : ∀ x ∈ kept, x.entry.entryId ∉ names ++ [a.entry.entryId] := by
      intro x hx hmem
      rcases List.mem_append.mp hmem with hmem | hmem
      · exact new x (List.mem_cons_of_mem _ hx) hmem
      · have heq : x.entry.entryId = a.entry.entryId := List.mem_singleton.mp hmem
        exact nodup.1 (heq ▸ List.mem_map_of_mem hx)
    have hnames : names ++ (a :: kept).map (fun a => a.entry.entryId) =
        names ++ [a.entry.entryId] ++ kept.map fun a => a.entry.entryId := by simp
    by_cases hopen : (v.openHold a.entry.entryId).isSome = true
    · rw [List.filter_cons_of_neg (by simp [hopen])] at room
      have hroll := h.serve distinct own a _ (hs a List.mem_cons_self) (new a List.mem_cons_self)
      obtain ⟨served, rest, result', hok, hroll', hperm, hsub, hfrom⟩ :=
        ih hroll hs' nodup.2 new' room
      refine ⟨a :: served, rest, result', ?_, ?_, ?_, hsub, ?_⟩
      · rw [ChainView.serveKept.eq_def]
        simp only [if_pos hopen, hok]
      · rw [hnames, List.append_cons]
        exact hroll'
      · rw [List.filter_cons_of_pos (by simpa using hopen)]
        exact hperm.cons _
      · intro s hs
        rcases List.mem_cons.mp hs with rfl | hs
        · exact ⟨s, List.mem_cons_self, Or.inl rfl⟩
        · obtain ⟨x, hx, hxs⟩ := hfrom s hs
          exact ⟨x, List.mem_cons_of_mem _ hx, hxs⟩
    · rw [List.filter_cons_of_pos (by simpa using hopen), List.length_cons] at room
      match free with
      | [] => simp at room
      | hold :: free =>
        have hroll := h.serve distinct own { a with entry := hold } a.entry.entryId
          (hs a List.mem_cons_self) (new a List.mem_cons_self)
        obtain ⟨served, rest, result', hok, hroll', hperm, hsub, hfrom⟩ :=
          ih hroll hs' nodup.2 new' (Nat.le_of_succ_le_succ room)
        refine ⟨{ a with entry := hold } :: served, rest, result', ?_, ?_, ?_, hsub.cons _, ?_⟩
        · rw [ChainView.serveKept.eq_def]
          simp only [if_neg hopen, hok]
        · rw [hnames, List.append_cons]
          exact hroll'
        · rw [List.filter_cons_of_neg (by simpa using hopen)]
          exact (hperm.cons _).trans List.perm_middle.symm
        · intro s hs
          rcases List.mem_cons.mp hs with rfl | hs
          · exact ⟨a, List.mem_cons_self, Or.inr ⟨hold, List.mem_cons_self, rfl⟩⟩
          · obtain ⟨x, hx, hxs⟩ := hfrom s hs
            refine ⟨x, List.mem_cons_of_mem _ hx, hxs.imp_right ?_⟩
            rintro ⟨e, he, rfl⟩
            exact ⟨e, List.mem_cons_of_mem _ he, rfl⟩

/-- What is served of the rows of a key, or waits to be: on the hold it names, in the scope and
for the amount of one. -/
structure Waiting (v : ChainView) (index : HoldIndex) (rows : List PersistedAuthorization)
    (waiting : List Authorization) : Prop where
  row : ∀ a ∈ waiting, Stands v rows a.authorizationId a.entry.entryId ∧
    v.known index a.entry.entryId = some a.entry ∧ Fits a
  distinct : (waiting.map fun a => a.entry.entryId).Nodup

theorem Waiting.of_sublist {waiting waiting' : List Authorization}
    (h : Waiting v index rows waiting) (hsub : waiting'.Subperm waiting) :
    Waiting v index rows waiting' where
  row a ha := h.row a (hsub.subset ha)
  distinct := by
    obtain ⟨l, hl, hsublist⟩ := hsub
    exact (hl.map _).nodup_iff.mp (h.distinct.sublist (hsublist.map _))

/-- The open holds that rows claim are those of the rows that name open ones. -/
theorem Lists.claimed_perm (hv : v.Lists) {kept : List Authorization} {key : HoldKey}
    (h : Waiting v index rows kept)
    (hkey : ∀ a ∈ kept, HoldKey.same key a.entry.holdKey = true) {inKey : List LedgerEntry}
    (hinKey : inKey.Perm (v.holdsOf key)) :
    ((kept.filter fun a => (v.openHold a.entry.entryId).isSome).map Authorization.entry).Perm
      (inKey.filter fun e => e.entryId ∈ kept.map fun a => a.entry.entryId) := by
  have hnodup : (inKey.map LedgerEntry.entryId).Nodup :=
    (hinKey.map _).nodup_iff.mpr (hv.nodup_openHolds.sublist (List.filter_sublist.map _))
  refine (List.perm_ext_iff_of_nodup ?_ (hnodup.of_map.filter _)).mpr fun e => ?_
  · refine List.Nodup.of_map LedgerEntry.entryId ?_
    rw [List.map_map]
    exact h.distinct.sublist (List.filter_sublist.map _)
  rw [List.mem_map, List.mem_filter, hinKey.mem_iff, holdsOf, List.mem_filter, decide_eq_true_eq,
    List.mem_map]
  constructor
  · rintro ⟨a, ha, rfl⟩
    obtain ⟨ha, hopen⟩ := List.mem_filter.mp ha
    obtain ⟨e, he⟩ := Option.isSome_iff_exists.mp hopen
    have hknown := (h.row a ha).2.1
    rw [known, he, Option.some_or, Option.some.injEq] at hknown
    subst hknown
    exact ⟨⟨hv.mem_openHolds.mpr he, hkey a ha⟩, a, ha, rfl⟩
  · rintro ⟨⟨he, -⟩, a, ha, hid⟩
    have hknown := (h.row a ha).2.1
    rw [hid, hv.known_of_mem he, Option.some.injEq] at hknown
    refine ⟨a, List.mem_filter.mpr ⟨ha, ?_⟩, hknown.symm⟩
    rw [hid, hv.mem_openHolds.mp he]
    rfl

/-- Every open hold of a key that an unnamed release has touched gets one authorization. -/
theorem Roll.matchKey (h : Roll v rows result as names) (hv : v.Lists)
    (distinct : (rows.map PersistedAuthorization.authorizationId).Nodup) (own : OwnIds v rows)
    {waiting : List Authorization} (hwaiting : Waiting v index rows waiting) (key : HoldKey)
    (clear : ∀ n ∈ names, ∀ e, v.known index n = some e → HoldKey.same key e.holdKey = false)
    (problems : List RowProblem) :
    ∃ new newNames result' problems', v.matchKey waiting (problems, result) key =
        .ok (problems', result') ∧
      Roll v rows result' (as ++ new) (names ++ newNames) ∧
      (new.map Authorization.entry).Perm (v.holdsOf key) ∧ (∀ a ∈ new, Fits a) ∧
      (∀ n ∈ newNames, ∃ e, v.known index n = some e ∧ HoldKey.same key e.holdKey = true) ∧
      (problems' = [] → problems = []) := by
  rw [ChainView.matchKey]
  have hholds : (v.inKey key).Perm (v.holdsOf key) := List.perm_insertionSort _ _
  have hof : (v.candidates waiting key).Perm
      (waiting.filter fun a => HoldKey.same key a.entry.holdKey) := List.perm_insertionSort _ _
  generalize v.inKey key = inKey at *
  generalize v.candidates waiting key = candidates at *
  have hkept : Waiting v index rows (candidates.take inKey.length) :=
    hwaiting.of_sublist (((List.take_sublist _ _).subperm.trans hof.subperm).trans
      List.filter_sublist.subperm)
  have hkey : ∀ a ∈ candidates.take inKey.length, HoldKey.same key a.entry.holdKey = true :=
    fun a ha => (List.mem_filter.mp (hof.mem_iff.mp (List.mem_of_mem_take ha))).2
  have hlength : (candidates.take inKey.length).length ≤ inKey.length := by simp
  generalize candidates.take inKey.length = kept at *
  -- there are as many free holds as rows that name no open one
  have hclaimed := hv.claimed_perm hkept hkey hholds
  have hsplit := List.filter_append_perm
    (fun e : LedgerEntry => decide (e.entryId ∈ kept.map fun a => a.entry.entryId)) inKey
  have hfree : (inKey.filter fun e => !decide (e.entryId ∈ kept.map fun a => a.entry.entryId)) =
      inKey.filter fun e => decide (e.entryId ∉ kept.map fun a => a.entry.entryId) :=
    List.filter_congr fun e _ => decide_not.symm
  rw [hfree] at hsplit
  generalize hfreeList : (inKey.filter fun e =>
    decide (e.entryId ∉ kept.map fun a => a.entry.entryId)) = free at *
  have hroom : (kept.filter fun a => !(v.openHold a.entry.entryId).isSome).length ≤
      free.length := by
    have hall := (List.filter_append_perm
      (fun a : Authorization => (v.openHold a.entry.entryId).isSome) kept).length_eq
    have hin := hsplit.length_eq
    have hcount := hclaimed.length_eq
    rw [List.length_append] at hall hin
    rw [List.length_map] at hcount
    omega
  have hfreeOf : ∀ e ∈ free, e ∈ v.holdsOf key := by
    intro e he
    rw [← hfreeList] at he
    exact hholds.mem_iff.mp (List.mem_filter.mp he).1
  obtain ⟨served, rest, result', hok, hroll, hperm, hsub, hfrom⟩ := h.serveKept distinct own
    (fun a ha => (hkept.row a ha).1) hkept.distinct
    (fun a ha hmem => by
      have := clear _ hmem _ (hkept.row a ha).2.1
      rw [hkey a ha] at this
      cases this) hroom
  have hrestOf : ∀ e ∈ rest, e ∈ v.holdsOf key := fun e he => hfreeOf e (hsub.subset he)
  have hrestOpen : ∀ e ∈ rest, e ∈ v.openHolds := fun e he => (List.mem_filter.mp (hrestOf e he)).1
  have hrestNodup : (rest.map LedgerEntry.entryId).Nodup := by
    refine List.Nodup.sublist (hsub.map _) ?_
    rw [← hfreeList]
    refine List.Nodup.sublist (List.filter_sublist.map _) ?_
    exact (hholds.map _).nodup_iff.mpr (hv.nodup_openHolds.sublist (List.filter_sublist.map _))
  have hfinal := hroll.serveAll distinct own rest
    (fun e he => by rw [hv.mem_openHolds.mp (hrestOpen e he)]; rfl) hrestNodup
    (fun e he hmem => by
      rcases List.mem_append.mp hmem with hmem | hmem
      · have := clear _ hmem e (hv.known_of_mem (hrestOpen e he))
        rw [(List.mem_filter.mp (hrestOf e he)).2] at this
        cases this
      · have hnot := hsub.subset he
        rw [← hfreeList, List.mem_filter, decide_eq_true_eq] at hnot
        exact hnot.2 hmem)
  refine ⟨served ++ rest.map authorizationFor,
    kept.map (fun a => a.entry.entryId) ++ rest.map LedgerEntry.entryId, _, _, by rw [hok],
    by simpa only [List.append_assoc] using hfinal, ?_, ?_, ?_, ?_⟩
  · have hself : (rest.map authorizationFor).map Authorization.entry = rest := by
      rw [List.map_map]
      exact List.map_id _
    rw [List.map_append, hself]
    exact hperm.trans ((hclaimed.append_right _).trans (hsplit.trans hholds))
  · intro a ha
    rcases List.mem_append.mp ha with ha | ha
    · obtain ⟨x, hx, rfl | ⟨e, he, rfl⟩⟩ := hfrom a ha
      · exact (hkept.row a hx).2.2
      · -- the hold it is served on has the key of the one it names
        have hsame := HoldKey.same_iff.mp (hkey x hx)
        have hsame' := HoldKey.same_iff.mp (List.mem_filter.mp (hfreeOf e he)).2
        obtain ⟨hscope, hamount⟩ := (hkept.row x hx).2.2
        exact ⟨hscope.trans (hsame.1.symm.trans hsame'.1),
          hamount.trans (hsame.2.symm.trans hsame'.2)⟩
    · obtain ⟨e, -, rfl⟩ := List.mem_map.mp ha
      exact ⟨rfl, rfl⟩
  · intro n hn
    rcases List.mem_append.mp hn with hn | hn
    · obtain ⟨a, ha, rfl⟩ := List.mem_map.mp hn
      exact ⟨a.entry, (hkept.row a ha).2.1, hkey a ha⟩
    · obtain ⟨e, he, rfl⟩ := List.mem_map.mp hn
      exact ⟨e, hv.known_of_mem (hrestOpen e he), (List.mem_filter.mp (hrestOf e he)).2⟩
  · intro hnone
    split_ifs at hnone with hcount
    · simp at hnone
    · exact hnone

/-- The third loop gives one authorization to every open hold of the keys. -/
theorem Roll.matchKeys (h : Roll v rows result as names) (hv : v.Lists)
    (distinct : (rows.map PersistedAuthorization.authorizationId).Nodup) (own : OwnIds v rows)
    {waiting : List Authorization} (hwaiting : Waiting v index rows waiting) {keys : List HoldKey}
    (hkeys : keys.Pairwise fun a b => HoldKey.same a b = false)
    (clear : ∀ key ∈ keys, ∀ n ∈ names, ∀ e, v.known index n = some e →
      HoldKey.same key e.holdKey = false) (problems : List RowProblem) :
    ∃ new newNames result' problems', keys.foldlM (v.matchKey waiting) (problems, result) =
        .ok (problems', result') ∧
      Roll v rows result' (as ++ new) (names ++ newNames) ∧
      (new.map Authorization.entry).Perm (keys.flatMap v.holdsOf) ∧ (∀ a ∈ new, Fits a) ∧
      (problems' = [] → problems = []) := by
  induction keys generalizing result as names problems with
  | nil => exact ⟨[], [], result, problems, rfl, by simpa using h, by simp, by simp, id⟩
  | cons key keys ih =>
    rw [List.pairwise_cons] at hkeys
    obtain ⟨new₁, names₁, result₁, problems₁, hok₁, hroll₁, hperm₁, hfits₁, hof₁, hnone₁⟩ :=
      h.matchKey hv distinct own hwaiting key (clear key List.mem_cons_self) problems
    have clear' : ∀ k ∈ keys, ∀ n ∈ names ++ names₁, ∀ e, v.known index n = some e →
        HoldKey.same k e.holdKey = false := by
      intro k hk n hn e hknown
      rcases List.mem_append.mp hn with hn | hn
      · exact clear k (List.mem_cons_of_mem _ hk) n hn e hknown
      · obtain ⟨e', hknown', hsame⟩ := hof₁ n hn
        obtain rfl := Option.some.inj (hknown.symm.trans hknown')
        by_contra hk'
        rw [Bool.not_eq_false, HoldKey.same_iff] at hk'
        rw [HoldKey.same_iff] at hsame
        have : HoldKey.same key k = true := HoldKey.same_iff.mpr
          ⟨hsame.1.trans hk'.1.symm, hsame.2.trans hk'.2.symm⟩
        rw [hkeys.1 k hk] at this
        cases this
    obtain ⟨new₂, names₂, result₂, problems₂, hok₂, hroll₂, hperm₂, hfits₂, hnone₂⟩ :=
      ih hroll₁ hkeys.2 clear' problems₁
    refine ⟨new₁ ++ new₂, names₁ ++ names₂, result₂, problems₂, ?_,
      by simpa only [List.append_assoc] using hroll₂, ?_, ?_, fun hnone => hnone₁ (hnone₂ hnone)⟩
    · rw [List.foldlM_cons, hok₁]
      exact hok₂
    · rw [List.map_append, List.flatMap_cons]
      exact hperm₁.append hperm₂
    · intro a ha
      exact (List.mem_append.mp ha).elim (hfits₁ a) (hfits₂ a)

/-! ### The whole matching -/

/-- The keys an unnamed release has touched are distinct, in whatever order. -/
theorem Lists.pairwise_keys (hv : v.Lists) {keys : List HoldKey} (h : keys.Perm v.ambiguousKeys) :
    keys.Pairwise fun a b => HoldKey.same a b = false :=
  (h.pairwise_iff fun {a b} hab => by rwa [HoldKey.same_comm]).mpr hv.distinct

theorem Matched.nodup_servedHolds {m : Matching} (h : Matched v index rows rows m) :
    m.servedHolds.Nodup := by
  have hdistinct := h.seen.distinct
  rw [List.map_append] at hdistinct
  exact (List.nodup_append.mp hdistinct).1

theorem Matched.waiting {m : Matching} (h : Matched v index rows rows m) :
    Waiting v index rows m.ambiguousRows := by
  have hdistinct := h.seen.distinct
  rw [List.map_append] at hdistinct
  exact ⟨fun a ha => h.seen.row a (List.mem_append_right _ ha),
    (List.nodup_append.mp hdistinct).2.1⟩

/-- The open holds: those served as the rows name them, those no row is left to serve, and those
of the keys that an unnamed release has touched. -/
theorem Matched.openHolds_perm {m : Matching} (h : Matched v index rows rows m) (hv : v.Lists)
    {keys : List HoldKey} (hkeys : keys.Perm v.ambiguousKeys) :
    (m.result.values.map Authorization.entry ++ v.unserved m.servedHolds ++
      keys.flatMap v.holdsOf).Perm v.openHolds := by
  have hambiguous : (keys.flatMap v.holdsOf).Perm
      (v.openHolds.filter fun e => v.isAmbiguous e.holdKey) := by
    have hcongr : (v.openHolds.filter fun e => v.isAmbiguous e.holdKey) =
        v.openHolds.filter fun e => keys.any fun k => HoldKey.same k e.holdKey := by
      refine List.filter_congr fun e _ => ?_
      rw [Bool.eq_iff_iff, hv.ambiguous, List.any_eq_true]
      simp only [hkeys.mem_iff]
    rw [hcongr]
    refine flatMap_filter_perm ((hv.pairwise_keys hkeys).imp fun {a b} hab e hae => ?_) _
    rw [← Bool.not_eq_true, HoldKey.same_iff] at hab ⊢
    rw [HoldKey.same_iff] at hae
    exact fun hbe => hab ⟨hae.1.trans hbe.1.symm, hae.2.trans hbe.2.symm⟩
  have hserved : (m.result.values.map Authorization.entry).Perm
      ((v.openHolds.filter fun e => !v.isAmbiguous e.holdKey).filter fun e =>
        e.entryId ∈ m.servedHolds) := by
    have hnodup := hv.nodup_openHolds.of_map
    refine (List.perm_ext_iff_of_nodup ?_ ((hnodup.filter _).filter _)).mpr fun e => ?_
    · refine List.Nodup.of_map LedgerEntry.entryId ?_
      rw [List.map_map]
      exact h.nodup_servedHolds
    rw [List.mem_map, List.mem_filter, List.mem_filter, decide_eq_true_eq, Matching.servedHolds,
      List.mem_map]
    constructor
    · rintro ⟨a, ha, rfl⟩
      obtain ⟨hopen, hplain⟩ := h.plain a ha
      exact ⟨⟨hv.mem_openHolds.mpr hopen, by rw [hplain]; rfl⟩, a, ha, rfl⟩
    · rintro ⟨⟨he, -⟩, a, ha, hid⟩
      have hopen := (h.plain a ha).1
      rw [hid, hv.mem_openHolds.mp he, Option.some.injEq] at hopen
      exact ⟨a, ha, hopen.symm⟩
  have hunserved : v.unserved m.servedHolds =
      (v.openHolds.filter fun e => !v.isAmbiguous e.holdKey).filter fun e =>
        !decide (e.entryId ∈ m.servedHolds) := by
    rw [unserved, List.filter_filter]
    exact List.filter_congr fun e _ => by rw [Bool.and_comm, decide_not]
  rw [hunserved]
  refine ((hserved.append_right _).append hambiguous).trans ?_
  refine ((List.filter_append_perm _ _).append_right _).trans ?_
  exact List.perm_append_comm.trans (List.filter_append_perm _ _)

/-- Where the first two loops report nothing, every hold that no unnamed release can have closed
is served. -/
theorem Matched.unserved_eq_nil {m : Matching} (h : Matched v index rows rows m) (hv : v.Lists)
    (hnone : m.problems = [])
    (hnamed : ∀ p ∈ v.iterHolds, v.isAmbiguous p.2.holdKey = false → p.1 ∉ m.servedHolds →
      p.1 ∈ m.named) : v.unserved m.servedHolds = [] := by
  rw [List.eq_nil_iff_forall_not_mem]
  intro e he
  obtain ⟨hmem, hplain⟩ := List.mem_filter.mp he
  simp only [Bool.and_eq_true, Bool.not_eq_true', decide_eq_true_eq] at hplain
  obtain ⟨p, hp, rfl⟩ := List.mem_map.mp hmem
  have hid := hv.keyed p hp
  obtain ⟨a, ha, heq⟩ := h.seen.complete hnone _ (hnamed p hp hplain.1 (hid ▸ hplain.2))
  rcases List.mem_append.mp ha with ha | ha
  · exact hplain.2 (by rw [hid, ← heq]; exact List.mem_map_of_mem ha)
  · have hknown := (h.seen.row a (List.mem_append_right _ ha)).2.1
    rw [heq, ← hid, hv.known_of_mem hmem, Option.some.injEq] at hknown
    have := h.doubtful a ha
    rw [← hknown, hplain.1] at this
    cases this

/-- The holds served by their own ids in the second loop. -/
def repaired (v : ChainView) (m : Matching) (repairing : Bool) : List LedgerEntry :=
  if repairing then v.unserved m.servedHolds else []

theorem mem_repaired {m : Matching} {repairing : Bool} {e : LedgerEntry}
    (he : e ∈ v.repaired m repairing) :
    e ∈ v.openHolds ∧ v.isAmbiguous e.holdKey = false ∧ e.entryId ∉ m.servedHolds := by
  cases repairing with
  | true =>
    obtain ⟨hmem, hplain⟩ := List.mem_filter.mp he
    simp only [Bool.and_eq_true, Bool.not_eq_true', decide_eq_true_eq] at hplain
    exact ⟨hmem, hplain⟩
  | false => cases he

theorem sublist_repaired (v : ChainView) (m : Matching) (repairing : Bool) :
    (v.repaired m repairing).Sublist v.openHolds := by
  cases repairing with
  | true => exact List.filter_sublist
  | false => exact List.nil_sublist _

/-- After the first two loops nothing stands for a hold of a key that an unnamed release has
touched. -/
theorem Matched.clear {m : Matching} (h : Matched v index rows rows m) (hv : v.Lists)
    (repairing : Bool) {key : HoldKey} (hkey : key ∈ v.ambiguousKeys) {n : UUID}
    (hn : n ∈ m.servedHolds ++ (v.repaired m repairing).map LedgerEntry.entryId)
    {e : LedgerEntry} (hknown : v.known index n = some e) :
    HoldKey.same key e.holdKey = false := by
  have hplain : v.isAmbiguous e.holdKey = false := by
    rcases List.mem_append.mp hn with hn | hn
    · obtain ⟨a, ha, rfl⟩ := List.mem_map.mp hn
      rw [(h.seen.row a (List.mem_append_left _ ha)).2.1, Option.some.injEq] at hknown
      exact hknown ▸ (h.plain a ha).2
    · obtain ⟨x, hx, rfl⟩ := List.mem_map.mp hn
      obtain ⟨hmem, hx, -⟩ := mem_repaired hx
      rw [hv.known_of_mem hmem, Option.some.injEq] at hknown
      exact hknown ▸ hx
  by_contra hsame
  rw [Bool.not_eq_false] at hsame
  have := (hv.ambiguous _).mpr ⟨key, hkey, hsame⟩
  rw [hplain] at this
  cases this

/-- What a matching comes to, from the rows matched one by one: one authorization for each open
hold where it repairs or reports nothing, and all that the first loop serves. -/
theorem Matched.reconcile {m : Matching} (h : Matched v index rows rows m) (hv : v.Lists)
    (distinct : (rows.map PersistedAuthorization.authorizationId).Nodup) (own : OwnIds v rows)
    (hm : rows.foldlM (v.matchRow index) {} = .ok m) (render : HoldKey → Text)
    (repairing : Bool) :
    ∃ result problems, v.reconcile index render rows repairing = .ok (result, problems) ∧
      (repairing = true ∨ problems = [] → v.InCorrespondence result) ∧
      ∀ a ∈ m.result.values, result.get? a.authorizationId = some a := by
  obtain ⟨hloop, hreport⟩ := foldl_matchOpen (v := v) repairing m.named m.servedHolds
    hv.keyed m.problems m.result
  generalize hacc : v.iterHolds.foldl _ (m.problems, m.result) = acc at hloop hreport
  have hresult : acc.2 = (v.repaired m repairing).foldl
      (fun result hold => result.set hold.entryId (authorizationFor hold)) m.result := hloop
  have hroll := h.roll.serveAll distinct own (v.repaired m repairing)
    (fun e he => by
      rw [hv.mem_openHolds.mp (mem_repaired he).1]
      rfl)
    (hv.nodup_openHolds.sublist ((v.sublist_repaired m repairing).map _))
    (fun e he => (mem_repaired he).2.2)
  rw [← hresult] at hroll
  have hkeys : (v.ambiguousKeys.insertionSort fun a b =>
      (render a).map Fin.val ≤ (render b).map Fin.val).Perm v.ambiguousKeys :=
    List.perm_insertionSort _ _
  obtain ⟨new, newNames, result, problems, hok, hfinal, hperm, hfits, hnone⟩ :=
    hroll.matchKeys hv distinct own h.waiting (hv.pairwise_keys hkeys)
      (fun key hkey n hn e => h.clear hv repairing (hkeys.mem_iff.mp hkey) hn) acc.1
  refine ⟨result, problems, ?_, fun hwhen => ⟨fun id a ha => hfinal.ids ha, ?_, ?_⟩,
    fun a ha => hfinal.get? (List.mem_append_left _ (List.mem_append_left _ ha))⟩
  · rw [ChainView.reconcile, hm]
    simp only [bind, Except.bind, hacc]
    rw [show acc = (acc.1, acc.2) from rfl, hok]
  · have hrepaired : v.repaired m repairing = v.unserved m.servedHolds := by
      rcases hwhen with rfl | hproblems
      · rfl
      · obtain ⟨hbefore, hnamed⟩ := hreport (hnone hproblems)
        rw [repaired, h.unserved_eq_nil hv hbefore hnamed, ite_self]
    have hself : ((v.unserved m.servedHolds).map authorizationFor).map Authorization.entry =
        v.unserved m.servedHolds := by
      rw [List.map_map]
      exact List.map_id _
    rw [hfinal.values, List.map_append, List.map_append, hrepaired, hself]
    exact (hperm.append_left _).trans (h.openHolds_perm hv hkeys)
  · rw [hfinal.values]
    intro a ha
    rcases List.mem_append.mp ha with ha | ha
    · rcases List.mem_append.mp ha with ha | ha
      · exact (h.seen.row a (List.mem_append_left _ ha)).2.2
      · obtain ⟨e, -, rfl⟩ := List.mem_map.mp ha
        exact ⟨rfl, rfl⟩
    · exact hfits a ha

end ChainView

end AgentGov
