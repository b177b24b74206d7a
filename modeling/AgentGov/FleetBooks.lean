import AgentGov.Branches
import AgentGov.Convergence

/-!
# The books of a fleet

What one governor keeps of its books, of the calls under keys and of the claims it is owed, a fleet
keeps, whichever of its governors writes, and whether its sessions commit or are lost. What every
unit of work keeps holds of what each governor serves. A call recorded under a key is answered from
its record by every governor ever after. A settlement claim that was committed is pending, or was
booked once.

## Main definitions

* `AgentGov.SettlementClaim.BookedBy`: what books a claim.
* `AgentGov.Fleet.Accounted`: every claim that was committed is pending, or was booked.

## Main results

* `AgentGov.fleet_books_balance`: overdrafts halt, breakers hold and branches balance.
* `AgentGov.fleet_keys`: calls under keys are made once.
* `AgentGov.claims_booked_once`: claims are booked once.
-/

open Foundation

namespace AgentGov

variable {w : World} {unit : Unit} {c : Chain} {g t : Governor} {store : SharedStore}

/-! ### Books -/

/-- Whether the books of a governor balance: its overdrafts halt, its breakers hold, and what was
allotted to each branch of its scopes is what is left there, held or spent. -/
structure Governor.BooksBalance (g : Governor) : Prop where
  overdrafts : OverdraftsHalt g.ledger.entries
  breakers : HeldBack g.ledger.entries
  branches : ∀ scope n, g.ledger.state.nodes.get? scope = some n →
    ∃ order, g.BranchBalances scope n order

/-- The books of a governor that keeps what units of work keep balance. -/
theorem Governor.Sound.booksBalance (h : g.Sound w unit c) (hm : g.Maintains w unit) :
    g.BooksBalance := by
  have hhalts := hm _ Governor.halts_maintained (along_nil _)
  have hheld := hm _ Governor.heldBack_maintained (throughout_nil _)
  have hpaired := hm _ Governor.paired_maintained fun _ => rfl
  exact ⟨overdraftsHalt_of_run h.run hhalts hheld, hheld,
    fun scope n hn => h.branchBalances hpaired hhalts hn⟩

namespace Fleet

variable {ι : Type} {f f' : Fleet ι}

/-- The books of every governor balance, unless it may be ahead. -/
theorem Safe.booksBalance (h : f.Safe w) (distinct : w.Distinct f.draws) {i : ι}
    (hdirty : (f.member i).dirty = false) : (f.member i).governor.BooksBalance := by
  by_cases hi : f.Rests i
  · obtain ⟨⟨-, c, hc⟩, hm⟩ := h.rests i hi hdirty
    exact hc.booksBalance hm
  · simp only [Rests, not_forall, not_not] at hi
    obtain ⟨s, hs, hj, rfl⟩ := hi
    obtain ⟨u, hu, hproceeds⟩ := h.works s hs hj
    obtain ⟨c, hc⟩ := hproceeds.sound (h.paced s hs hj ▸ distinct)
    exact hc.booksBalance (h.maintains hs hj distinct)

/-- A governor that reads what is committed has its books balance. -/
theorem Safe.committed (h : f.Safe w) : ∃ u : Governor, u.ledger.entries = f.store.entries ∧
    u.ServesReplay f.store.unit ∧ u.BooksBalance := by
  obtain ⟨u, hu⟩ := h.served
  obtain ⟨c, hc⟩ := hu.sound
  exact ⟨u, hu.entries, hc.servesReplay, hc.booksBalance hu.maintains⟩

end Fleet

/-- Whatever happens in a fleet, its books balance: those committed, as whoever reads them has
them, and those of every governor, in its session or between, unless it waits to be read again. -/
theorem fleet_books_balance {ι : Type} [DecidableEq ι] (w : World) (unit : Unit)
    (policy : ι → GovernancePolicy) (events : List (Fleet.Event ι))
    (distinct : w.Distinct ((Fleet.new unit policy).run w events).draws) :
    (OverdraftsHalt ((Fleet.new unit policy).run w events).store.entries ∧
        HeldBack ((Fleet.new unit policy).run w events).store.entries ∧
        ∃ u : Governor,
          u.ledger.entries = ((Fleet.new unit policy).run w events).store.entries ∧
          u.ServesReplay unit ∧ u.BooksBalance) ∧
      ∀ i, (((Fleet.new unit policy).run w events).member i).dirty = false →
        (((Fleet.new unit policy).run w events).member i).governor.BooksBalance := by
  have hunit := Fleet.run_unit (w := w) (Fleet.new unit policy) events
  obtain ⟨-, hsafe⟩ := (Fleet.safe_new w unit policy).run events distinct
  obtain ⟨u, hentries, hserves, hbooks⟩ := hsafe.committed
  rw [hunit] at hserves
  refine ⟨⟨?_, ?_, u, hentries, hserves, hbooks⟩, fun i hdirty => hsafe.booksBalance distinct hdirty⟩
  · exact hentries ▸ hbooks.overdrafts
  · exact hentries ▸ hbooks.breakers

theorem fleet_books_balance_sampleFleet :
    (∃ u : Governor, u.ledger.entries = ((Fleet.new USD fun _ => samplePolicy).run sampleWorld
        sampleFleet).store.entries ∧ u.ServesReplay USD ∧ u.BooksBalance) ∧
      (((Fleet.new USD fun _ => samplePolicy).run sampleWorld sampleFleet).member
        true).governor.BooksBalance := by
  have hbooks := fleet_books_balance sampleWorld USD (fun _ => samplePolicy) sampleFleet
    (sampleWorld_distinct sampleFleet_run.1)
  exact ⟨hbooks.1.2.2, hbooks.2 true sampleFleet_run.2.2.2.2⟩

/-! ### Calls under keys -/

namespace Fleet

variable {ι : Type} [DecidableEq ι] {f f' : Fleet ι}

/-- What the end of a session leaves of the store: what it was, or what the session wrote. -/
theorem ended_store (f : Fleet ι) (i : ι) (s : WriterSession ι) (ending : Ending) :
    (f.ended i s ending).store = f.store ∧ (f.ended i s ending).booked = f.booked ∨
      (f.ended i s ending).store =
          { f.store with
            entries := (f.member i).governor.ledger.entries
            keys := (f.member i).governor.keys
            claims := s.claims } ∧
        (f.ended i s ending).booked = f.booked ++ s.booked := by
  unfold ended
  dsimp only
  generalize (if s.failed then Ending.refused else ending) = ending
  cases hhappened : ending.happened with
  | true => exact Or.inr ⟨rfl, rfl⟩
  | false => exact Or.inl ⟨rfl, rfl⟩

theorem ended_rest (f : Fleet ι) (i : ι) (s : WriterSession ι) (ending : Ending) :
    (f.ended i s ending).owed = f.owed ∧ (f.ended i s ending).draws = f.draws ∧
      (f.ended i s ending).session = none := by
  unfold ended
  dsimp only
  split_ifs <;> exact ⟨rfl, rfl, rfl⟩

/-- What is recorded under a key and committed stays so. -/
theorem Safe.keys_moved (h : f.Safe w) (hmoved : Moved w f f') (distinct : w.Distinct f'.draws)
    {key : Text} {r : IdempotencyRecord} (hr : f.store.keys.get? key = some r) :
    f'.store.keys.get? key = some r := by
  have hdraws := (h.paced.moved hmoved).2
  cases hmoved with
  | leave i s ending held =>
    obtain ⟨hs, rfl, hj⟩ := held_eq_some.mp held
    obtain ⟨u, hu, hproceeds⟩ := h.works s hs hj
    have hadds := hproceeds.adds ((h.paced s hs hj).symm ▸ distinct.mono hdraws)
    have hkept := hadds.kept (hu.keys.symm ▸ hr)
    rcases f.ended_store s.holder s ending with ⟨hstore, -⟩ | ⟨hstore, -⟩ <;> rw [hstore]
    · exact hr
    · exact hkept
  | part i s committed held =>
    unfold parted
    split_ifs <;> exact hr
  | rest | follow | astray | grant | work | fail | claim => exact hr

theorem Safe.keys_run (h : f.Safe w) (events : List (Event ι))
    (distinct : w.Distinct (f.run w events).draws) {key : Text} {r : IdempotencyRecord}
    (hr : f.store.keys.get? key = some r) : (f.run w events).store.keys.get? key = some r := by
  induction events generalizing f with
  | nil => exact hr
  | cons e rest ih =>
    have hmoved := f.step_moved (w := w) e
    have hle := ((h.paced.moved hmoved).1.run (w := w) rest).2
    exact ih (h.moved hmoved (distinct.mono hle)).2 distinct
      (h.keys_moved hmoved (distinct.mono hle) hr)

/-- What holds of the calls under keys in a fleet. -/
structure KeysHold (w : World) (f : Fleet ι) : Prop where
  /-- What is recorded under a key names an entry of the chain. -/
  named : ∀ key r, f.store.keys.get? key = some r → r.key = key ∧ 0 < r.sequence ∧
    ∃ e, f.store.entries[r.sequence.toNat - 1]? = some e
  /-- A governor in a session knows every call recorded before. -/
  known : ∀ s, f.session = some s → s.joined = false → ∀ key r,
    f.store.keys.get? key = some r → (f.member s.holder).governor.keys.get? key = some r
  /-- Whatever call it makes obeys its key. -/
  obeys : ∀ s, f.session = some s → s.joined = false → ∀ m,
    w.Distinct ((f.member s.holder).governor.perform w m).2.draws →
      Turn.Obeys w ⟨(f.member s.holder).governor, m⟩

omit [DecidableEq ι] in
theorem Safe.keysHold (h : f.Safe w) (distinct : w.Distinct f.draws) : f.KeysHold w where
  named key r hr := by
    obtain ⟨u, hu⟩ := h.served
    obtain ⟨hkey, e, answer, he, -⟩ := hu.kept.named key r (hu.keys.symm ▸ hr)
    unfold Ledger.entry at he
    split_ifs at he with hpos
    rw [hu.entries] at he
    exact ⟨hkey, hpos, e, he⟩
  known s hs hj key r hr := by
    obtain ⟨u, hu, hproceeds⟩ := h.works s hs hj
    exact (hproceeds.adds ((h.paced s hs hj).symm ▸ distinct)).kept (hu.keys.symm ▸ hr)
  obeys s hs hj m hdistinct := by
    obtain ⟨u, hu, hproceeds⟩ := h.works s hs hj
    have hperform := Governor.Onward.perform (w := w) hproceeds.orderly m
    obtain ⟨c, hc⟩ := hperform.sound hdistinct
    have hbefore := hdistinct.mono hperform.draws
    exact Turn.obeys (hproceeds.kept hbefore) hc ((hproceeds.adds hbefore).valid hu.valid)

end Fleet

/-- Whatever happens in a fleet, a call recorded under a key stays recorded, and every governor
makes it once: later ones answer it from its record, and refuse another call under its key. -/
theorem fleet_keys {ι : Type} [DecidableEq ι] (w : World) (unit : Unit)
    (policy : ι → GovernancePolicy) (before after : List (Fleet.Event ι))
    (distinct : w.Distinct ((Fleet.new unit policy).run w (before ++ after)).draws) :
    (∀ key r, ((Fleet.new unit policy).run w before).store.keys.get? key = some r →
        ((Fleet.new unit policy).run w (before ++ after)).store.keys.get? key = some r) ∧
      ((Fleet.new unit policy).run w (before ++ after)).KeysHold w := by
  have hsafe := ((Fleet.safe_new w unit policy).run (before ++ after) distinct).2
  refine ⟨fun key r hr => ?_, hsafe.keysHold distinct⟩
  have hrun : (Fleet.new unit policy).run w (before ++ after) =
      ((Fleet.new unit policy).run w before).run w after := List.foldl_append
  rw [hrun] at distinct ⊢
  have hdraws := (((Fleet.paced_new unit policy).run (w := w) before).1.run (w := w) after).2
  obtain ⟨-, hmid⟩ := (Fleet.safe_new w unit policy).run before (distinct.mono hdraws)
  exact hmid.keys_run after distinct hr

theorem fleet_keys_sampleFleet :
    (∀ key r, ((Fleet.new USD fun _ => samplePolicy).run sampleWorld
        (sampleFleet.take 7)).store.keys.get? key = some r →
      ((Fleet.new USD fun _ => samplePolicy).run sampleWorld sampleFleet).store.keys.get? key =
        some r) ∧
      ((Fleet.new USD fun _ => samplePolicy).run sampleWorld sampleFleet).KeysHold
        sampleWorld := by
  have hkeys := fleet_keys sampleWorld USD (fun _ => samplePolicy) (sampleFleet.take 7)
    (sampleFleet.drop 7)
  rw [List.take_append_drop] at hkeys
  exact hkeys (sampleWorld_distinct sampleFleet_run.1)

/-! ### What books a claim -/

/-- Whether entries book a claim: what it owes is spent, once, and its hold released. -/
structure SettlementClaim.BookedBy (claim : SettlementClaim) (l : List LedgerEntry) : Prop where
  written : l ≠ []
  spends : (l.filter fun e => e.entryType = .spend).map
      (fun e => (e.scopeId, e.direction, e.worth, e.memo)) =
    if 0 < claim.amount.worth then [(claim.scopeId, .debit, claim.amount.worth, claim.memo)] else []
  releases : ((l.filter fun e => e.entryType = .holdVoid).map LedgerEntry.ref).Sublist
    [claim.holdId]
  within : ∀ e ∈ l, e.scopeId = claim.scopeId ∧
    e.entryType ∈ [.anchor, .holdVoid, .spend, .circuitTripped]

variable {claim : SettlementClaim} {hold : Option Authorization} {es : List LedgerEntry}
  {p p' : Pending}

/-- The lines of a claim book it. -/
theorem bookedBy_claimLines (hhold : ∀ a, hold = some a → claim.holdId = some a.entry.entryId)
    (posted : Posted w p (Op.claimLines claim hold) es p') : claim.BookedBy es := by
  have hrecords := posted.records
  have within : ∀ e ∈ es, e.scopeId = claim.scopeId ∧
      e.entryType ∈ [.anchor, .holdVoid, .spend, .circuitTripped] := by
    intro e he
    obtain ⟨line, hl, hr⟩ := posted.exists_line he
    obtain ⟨hscope, hkind⟩ := Op.mem_claimLines hl
    refine ⟨hr.scope.trans hscope, ?_⟩
    rw [hr.kind]
    rcases hkind with ⟨kind, -⟩ | ⟨kind, -⟩ <;> simp [kind]
  unfold Op.claimLines at hrecords
  cases hold with
  | none =>
    split_ifs at hrecords with hpos
    · obtain ⟨spend, rest, hspend, hnil, rfl⟩ := List.forall₂_cons_left_iff.mp hrecords
      obtain rfl := List.forall₂_nil_left_iff.mp hnil
      have kind : spend.entryType = .spend := hspend.kind
      refine ⟨posted.ne_nil, ?_, ?_, within⟩
      · rw [if_pos hpos]
        simp [kind, hspend.worth rfl, hspend.scope, hspend.direction, hspend.memo, Op.line]
      · simp [kind]
    · exact absurd (List.forall₂_nil_left_iff.mp hrecords) posted.ne_nil
  | some a =>
    obtain ⟨release, rest, hrelease, hrest, rfl⟩ := List.forall₂_cons_left_iff.mp hrecords
    have released : release.entryType = .holdVoid := hrelease.kind
    have ref : release.ref = claim.holdId := hrelease.ref.trans (hhold a rfl).symm
    split_ifs at hrest with hpos
    · obtain ⟨spend, rest, hspend, hnil, rfl⟩ := List.forall₂_cons_left_iff.mp hrest
      obtain rfl := List.forall₂_nil_left_iff.mp hnil
      have kind : spend.entryType = .spend := hspend.kind
      refine ⟨posted.ne_nil, ?_, ?_, within⟩
      · rw [if_pos hpos]
        simp [released, kind, hspend.worth rfl, hspend.scope, hspend.direction, hspend.memo,
          Op.line]
      · simp [released, kind, ref]
    · obtain rfl := List.forall₂_nil_left_iff.mp hrest
      refine ⟨posted.ne_nil, ?_, ?_, within⟩
      · rw [if_neg hpos]
        simp [released]
      · simp [released, ref]

/-- A trip after what books a claim is of its booking. -/
theorem SettlementClaim.BookedBy.trip (h : claim.BookedBy es) {x : LedgerEntry}
    (kind : x.entryType = .circuitTripped) (hscope : x.scopeId = claim.scopeId) :
    claim.BookedBy (es ++ [x]) where
  written := by simp
  spends := by
    rw [List.filter_append, ← h.spends]
    simp [kind]
  releases := by
    rw [List.filter_append]
    simpa [kind] using h.releases
  within e he := by
    rcases List.mem_append.mp he with he | he
    · exact h.within e he
    · obtain rfl := List.mem_singleton.mp he
      exact ⟨hscope, by simp [kind]⟩

/-- What the unit of work of a redemption posts books its claim. -/
theorem bookedBy_booking {tripOnExhaustion : Bool} {e : LedgerEntry}
    (hhold : ∀ a, hold = some a → claim.holdId = some a.entry.entryId)
    (h : (Op.booking tripOnExhaustion claim hold).run (stage w) g.begin = (.ok e, p)) :
    claim.BookedBy p.entries := by
  unfold Op.booking at h
  split_ifs at h with hzero
  · have posted := Staging.post₁_ok h
    obtain ⟨x, hx, hrecords⟩ : ∃ x, p.entries = [x] ∧
        x.Records (Staging.event .anchor claim.scopeId claim.memo) := by
      have hrecords := posted.records
      rw [List.forall₂_cons] at hrecords
      exact ⟨e, posted.entries_begin, hrecords.1⟩
    have kind : x.entryType = .anchor := hrecords.kind
    have hscope : x.scopeId = claim.scopeId := hrecords.scope
    rw [hx]
    refine ⟨by simp, ?_, by simp [kind], by simp [kind, hscope]⟩
    rw [hzero.1, if_neg (lt_irrefl 0)]
    simp [kind]
  · rw [Program.instr_bind, Program.run_perform] at h
    rcases stage_post w (Op.claimLines claim hold) g.begin with ⟨es, p₁, posted, hs⟩ | ⟨err, hs⟩ <;>
      rw [hs] at h
    · rw [Program.proceed_ok] at h
      have hbooked := bookedBy_claimLines hhold posted
      rw [← posted.entries_begin] at hbooked
      cases hlast : es.getLast? with
      | none => exact absurd (List.getLast?_eq_none_iff.mp hlast) posted.ne_nil
      | some settling =>
        simp only [hlast] at h
        obtain ⟨-, ⟨rfl, -⟩ | ⟨x, reason, hx⟩⟩ := Op.tripSettled_ok h
        · exact hbooked
        · have hrecords := hx.records
          rw [List.forall₂_cons] at hrecords
          rw [hx.entries]
          exact hbooked.trip hrecords.1.kind hrecords.1.scope
    · cases h

namespace Governor

/-- The hold a claim names, where it is open, is the one it is found by. -/
theorem Sound.hold_named (h : g.Sound w unit c) (claim : SettlementClaim) {a : Authorization}
    (ha : claim.holdId.bind g.ledger.openAuths.get? = some a) :
    claim.holdId = some a.entry.entryId := by
  obtain ⟨id, hid, ha⟩ := Option.bind_eq_some_iff.mp ha
  rw [h.auths, Dict.get?_mapValues, Option.map_eq_some_iff] at ha
  obtain ⟨hold, hhold, rfl⟩ := ha
  rw [h.holds_eq] at hhold
  rw [hid, ← (run_holds_known h.run id hold hhold).2.2]
  rfl

/-- A claim is booked by what its redemption writes, or nothing is written. -/
theorem Sound.redeemLocked (h : g.Sound w unit c) (claim : SettlementClaim) :
    (∃ e wrote, ((Op.redeemLocked claim).run (handle w) g).1 = .ok e ∧
      ((Op.redeemLocked claim).run (handle w) g).2.ledger.entries =
        g.ledger.entries ++ wrote ∧ claim.BookedBy wrote) ∨
    ∃ x n, (Op.redeemLocked claim).run (handle w) g = (.error x, { g with draws := n }) := by
  rcases (meets_redeemLocked (w := w) (g := g) claim).run with ⟨e, p, hr, ht, hp⟩ | ⟨x, n, hr, ht⟩
  · have hbooked := bookedBy_booking (fun a ha => h.hold_named claim ha) hp
    refine Or.inl ⟨e, p.entries, hr, ?_, hbooked⟩
    rw [ht, ledger_commit, if_neg fun hnone => hbooked.written hnone.1]
  · exact Or.inr ⟨x, n, Prod.ext hr ht⟩

end Governor

/-! ### Claims -/

/-- The ids of claims. -/
def claimIds (claims : List SettlementClaim) : List UUID := claims.map SettlementClaim.claimId

/-- Whether a session accounts for the claims that were pending: each is pending, or was booked in
it by entries of its own. -/
structure WriterSession.Accounts {ι : Type} (store : SharedStore) (g : Governor)
    (s : WriterSession ι) : Prop where
  claims : store.claims.Perm (s.claims ++ s.booked.map Prod.fst)
  entries : ∃ new, g.ledger.entries = store.entries ++ new ∧
    (s.booked.flatMap Prod.snd).Sublist new
  booked : ∀ b ∈ s.booked, b.1.BookedBy b.2

namespace WriterSession.Accounts

variable {ι : Type} {s s' : WriterSession ι}

/-- What is written besides leaves the claims accounted for. -/
theorem grow (h : s.Accounts store g) (hgrows : g.ledger.entries <+: t.ledger.entries) :
    s.Accounts store t := by
  obtain ⟨new, hnew, hsub⟩ := h.entries
  obtain ⟨more, hmore⟩ := hgrows
  refine ⟨h.claims, ⟨new ++ more, ?_, hsub.trans (List.sublist_append_left _ _)⟩, h.booked⟩
  rw [← hmore, hnew, List.append_assoc]

/-- The booking of a claim accounts for it. -/
theorem book (h : s.Accounts store g) (hids : (claimIds s.claims).Nodup) (hc : claim ∈ s.claims)
    {wrote : List LedgerEntry} (ht : t.ledger.entries = g.ledger.entries ++ wrote)
    (hbooked : claim.BookedBy wrote) : (s.book claim wrote).Accounts store t where
  claims := by
    have hperm := (perm_cons_filter hids hc).1
    refine h.claims.trans ((hperm.append_right _).trans ?_)
    rw [WriterSession.book, List.map_append, List.map_singleton, ← List.append_assoc]
    exact List.perm_append_singleton claim _ |>.symm
  entries := by
    obtain ⟨new, hnew, hsub⟩ := h.entries
    refine ⟨new ++ wrote, by rw [ht, hnew, List.append_assoc], ?_⟩
    rw [WriterSession.book, List.flatMap_append]
    simpa using hsub.append (List.Sublist.refl wrote)
  booked b hb := by
    rcases List.mem_append.mp hb with hb | hb
    · exact h.booked b hb
    · rw [List.mem_singleton.mp hb]
      exact hbooked

end WriterSession.Accounts

section Redeeming

variable {ι : Type} {s s' : WriterSession ι}

/-- Claims redeemed one after another are accounted for, and none of them is refused as no longer
pending. -/
theorem redeemEach_accounts {claims : List SettlementClaim} (hg : g.Orderly w unit)
    (distinct : w.Distinct (s.redeemEach w g claims).1.draws) (h : s.Accounts store g)
    (hids : (claimIds s.claims).Nodup) (hnodup : (claimIds claims).Nodup)
    (hsub : claims ⊆ s.claims) :
    (s.redeemEach w g claims).2.Accounts store (s.redeemEach w g claims).1 ∧
      (s.redeemEach w g claims).2.failed = s.failed := by
  induction claims generalizing g s with
  | nil => exact ⟨h, rfl⟩
  | cons claim rest ih =>
    have hone := Governor.Proceeds.redeemLocked hg claim
    obtain ⟨c, hc⟩ := (hg (distinct.mono (s.redeemEach_lengthens g _).1)).1
    have hlocked := hc.redeemLocked claim
    have hmem := hsub List.mem_cons_self
    unfold WriterSession.redeemEach at distinct ⊢
    rcases hr : (Op.redeemLocked claim).run (Governor.handle w) g with ⟨x | e, t⟩ <;>
      rw [hr] at hone hlocked distinct
    · rcases hlocked with ⟨e, -, he, -⟩ | ⟨y, n, heq⟩
      · cases he
      · cases heq
        exact ⟨h.grow List.prefix_rfl, rfl⟩
    · rcases hlocked with ⟨-, wrote, -, ht, hbooked⟩ | ⟨y, n, heq⟩
      · dsimp only at ht hone distinct ⊢
        have hdrop : t.ledger.entries.drop g.ledger.entries.length = wrote := by
          rw [ht, List.drop_left]
        rw [if_pos (perm_cons_filter hids hmem).2, hdrop] at distinct ⊢
        rw [claimIds, List.map_cons, List.nodup_cons] at hnodup
        refine ih hone.orderly distinct (h.book hids hmem ht hbooked) ?_ hnodup.2 fun d hd => ?_
        · exact hids.sublist (List.filter_sublist.map _)
        · refine List.mem_filter.mpr ⟨hsub (List.mem_cons_of_mem _ hd), ?_⟩
          refine decide_eq_true fun heq => hnodup.1 (heq ▸ List.mem_map_of_mem hd)
      · cases heq

theorem redeem_accounts {claim : Option SettlementClaim} (hg : g.Orderly w unit)
    (distinct : w.Distinct (s.redeem w g claim).1.draws) (h : s.Accounts store g)
    (hids : (claimIds s.claims).Nodup) :
    (s.redeem w g claim).2.Accounts store (s.redeem w g claim).1 ∧
      (s.redeem w g claim).2.failed = s.failed := by
  cases claim with
  | none => exact redeemEach_accounts hg distinct h hids hids (List.Subset.refl _)
  | some claim =>
    exact redeemEach_accounts hg distinct h hids (hids.sublist (List.filter_sublist.map _))
      (List.filter_subset_self _)

/-- What a governor does in a session leaves the claims accounted for. -/
theorem Labour.accounts (hlabour : Labour w g s t s') (hg : g.Orderly w unit)
    (distinct : w.Distinct t.draws) (h : s.Accounts store g) (hids : (claimIds s.claims).Nodup) :
    s'.Accounts store t := by
  obtain ⟨-, new, hnew, -⟩ := hlabour.lengthens
  have hgrows : g.ledger.entries <+: t.ledger.entries := hnew ▸ List.prefix_append _ new
  cases hlabour with
  | lookUp | perform | retrip => exact h.grow hgrows
  | redeem claim => exact (redeem_accounts hg distinct h hids).1

end Redeeming

namespace Fleet

variable {ι : Type} {f f' : Fleet ι}

/-- Whether claims are owed: each under an id of its own, drawn for it. -/
structure Owing (w : World) (n : ℕ) (claims : List SettlementClaim) : Prop where
  ids : (claimIds claims).Nodup
  drawn : ∀ claim ∈ claims, ∃ i < n, claim.claimId = w.uuid i
  owes : ∀ claim ∈ claims, ¬claim.amount.worth < 0

/-- Whether a fleet accounts for the claims that were committed: each is pending, or was booked
once by entries of its own. -/
structure Accounted (w : World) (f : Fleet ι) : Prop where
  owing : Owing w f.draws f.owed
  claims : f.owed.Perm (f.store.claims ++ f.booked.map Prod.fst)
  entries : (f.booked.flatMap Prod.snd).Sublist f.store.entries
  booked : ∀ b ∈ f.booked, b.1.BookedBy b.2
  works : ∀ s, f.session = some s → s.joined = false →
    s.Accounts f.store (f.member s.holder).governor
  joins : ∀ s, f.session = some s → s.joined = true →
    ∃ new, s.claims = f.store.claims ++ new ∧ Owing w f.draws (f.owed ++ new)

theorem Owing.mono {n n' : ℕ} {claims : List SettlementClaim} (h : Owing w n claims)
    (hn : n ≤ n') : Owing w n' claims where
  ids := h.ids
  drawn claim hc := by
    obtain ⟨i, hi, hid⟩ := h.drawn claim hc
    exact ⟨i, hi.trans_le hn, hid⟩
  owes := h.owes

/-- A claim is owed under an id that was not drawn before. -/
theorem Owing.concat {n : ℕ} {claims : List SettlementClaim} (h : Owing w n claims)
    (drawn : claim.claimId = w.uuid n) (owes : ¬claim.amount.worth < 0)
    (distinct : w.Distinct (n + 1)) : Owing w (n + 1) (claims ++ [claim]) where
  ids := by
    rw [claimIds, List.map_append, List.nodup_append]
    refine ⟨h.ids, List.nodup_singleton _, ?_⟩
    rintro id hid id' hid' rfl
    obtain ⟨d, hd, rfl⟩ := List.mem_map.mp hid
    obtain ⟨i, hi, hdraw⟩ := h.drawn d hd
    rw [List.map_singleton, List.mem_singleton, hdraw, drawn] at hid'
    have hindex := distinct.index_eq (hi.trans (Nat.lt_succ_self n)) (Nat.lt_succ_self n) hid'
    omega
  drawn d hd := by
    rcases List.mem_append.mp hd with hd | hd
    · obtain ⟨i, hi, hid⟩ := h.drawn d hd
      exact ⟨i, hi.trans (Nat.lt_succ_self n), hid⟩
    · rw [List.mem_singleton.mp hd]
      exact ⟨n, Nat.lt_succ_self n, drawn⟩
  owes d hd := by
    rcases List.mem_append.mp hd with hd | hd
    · exact h.owes d hd
    · rw [List.mem_singleton.mp hd]
      exact owes

namespace Accounted

variable (h : f.Accounted w)

include h

/-- The claims pending in a session have ids of their own. -/
theorem session_ids {s : WriterSession ι} (hs : f.session = some s) (hj : s.joined = false) :
    (claimIds s.claims).Nodup := by
  have hstore : (claimIds f.store.claims).Nodup := by
    refine (h.claims.map SettlementClaim.claimId |>.nodup_iff.mp h.owing.ids).sublist ?_
    rw [List.map_append]
    exact List.sublist_append_left _ _
  refine ((h.works s hs hj).claims.map SettlementClaim.claimId |>.nodup_iff.mp hstore).sublist ?_
  rw [List.map_append]
  exact List.sublist_append_left _ _

/-- A claim inserted leaves the claims accounted for. -/
theorem inserted {s : WriterSession ι} {c : SettlementClaim} (hs : f.session = some s)
    (hj : s.joined = true) (drawn : c.claimId = w.uuid f.draws) (owes : ¬c.amount.worth < 0)
    (distinct : w.Distinct (f.draws + 1)) :
    Accounted w { f with session := some (s.claim c), draws := f.draws + 1 } := by
  have hlt : f.draws < f.draws + 1 := Nat.lt_succ_self _
  obtain ⟨new, hclaims, howing⟩ := h.joins s hs hj
  refine ⟨h.owing.mono hlt.le, h.claims, h.entries, h.booked, fun s₁ hs₁ hj₁ => ?_,
    fun s₁ hs₁ _ => ?_⟩
  · cases hs₁
    have hjoined : (s.claim c).joined = s.joined := by
      unfold WriterSession.claim
      split_ifs <;> rfl
    rw [hjoined, hj] at hj₁
    cases hj₁
  · cases hs₁
    unfold WriterSession.claim
    split_ifs
    · refine ⟨new ++ [c], by dsimp only; rw [hclaims, List.append_assoc], ?_⟩
      dsimp only
      rw [← List.append_assoc]
      exact howing.concat drawn owes distinct
    · exact ⟨new, hclaims, howing.mono hlt.le⟩

/-- The end of a caller's transaction leaves the claims accounted for. -/
theorem part {s : WriterSession ι} (hs : f.session = some s) (hj : s.joined = true)
    (committed : Bool) : (f.parted s committed).Accounted w := by
  obtain ⟨new, hclaims, howing⟩ := h.joins s hs hj
  unfold parted
  split_ifs
  · have hnew : s.claims.drop f.store.claims.length = new := by rw [hclaims, List.drop_left]
    rw [hnew]
    refine ⟨howing, ?_, h.entries, h.booked, fun s₁ hs₁ => (by cases hs₁),
      fun s₁ hs₁ => (by cases hs₁)⟩
    dsimp only
    rw [hclaims, List.append_assoc]
    refine (h.claims.append_right new).trans ?_
    rw [List.append_assoc]
    exact List.perm_append_comm.append_left _
  · exact ⟨h.owing, h.claims, h.entries, h.booked, fun s₁ hs₁ => (by cases hs₁),
      fun s₁ hs₁ => (by cases hs₁)⟩

variable [DecidableEq ι]

/-- The end of a session leaves the claims accounted for. -/
theorem leave {s : WriterSession ι} (hs : f.session = some s) (hj : s.joined = false)
    (ending : Ending) : (f.ended s.holder s ending).Accounted w := by
  obtain ⟨howed, hdraws, hsession⟩ := f.ended_rest s.holder s ending
  have haccounts := h.works s hs hj
  obtain ⟨new, hnew, hsub⟩ := haccounts.entries
  have howing := h.owing.mono hdraws.ge
  have hnone (s₁ : WriterSession ι) (hs₁ : (f.ended s.holder s ending).session = some s₁) :
      False := by
    rw [hsession] at hs₁
    cases hs₁
  rcases f.ended_store s.holder s ending with ⟨hstore, hbooked⟩ | ⟨hstore, hbooked⟩
  · refine ⟨howed ▸ howing, ?_, ?_, ?_, fun s₁ hs₁ => (hnone s₁ hs₁).elim,
      fun s₁ hs₁ => (hnone s₁ hs₁).elim⟩
    · rw [howed, hstore, hbooked]
      exact h.claims
    · rw [hstore, hbooked]
      exact h.entries
    · rw [hbooked]
      exact h.booked
  · refine ⟨howed ▸ howing, ?_, ?_, ?_, fun s₁ hs₁ => (hnone s₁ hs₁).elim,
      fun s₁ hs₁ => (hnone s₁ hs₁).elim⟩
    · rw [howed, hstore, hbooked, List.map_append]
      dsimp only
      refine h.claims.trans ((haccounts.claims.append_right _).trans ?_)
      rw [List.append_assoc]
      exact List.perm_append_comm.append_left _
    · rw [hstore, hbooked, List.flatMap_append]
      dsimp only
      rw [hnew]
      exact h.entries.append hsub
    · rw [hbooked]
      intro b hb
      exact (List.mem_append.mp hb).elim (h.booked b) (haccounts.booked b)

/-- The lock granted leaves the claims accounted for. -/
theorem grant {i : ι} {m : Member} (joined : Bool)
    (hentries : m.governor.ledger.entries = f.store.entries) :
    Accounted w { f.put i m with
      session := some { holder := i, joined := joined, claims := f.store.claims } } := by
  refine ⟨h.owing, h.claims, h.entries, h.booked, fun s hs hj => ?_, fun s hs hj => ?_⟩
  · cases hs
    change WriterSession.Accounts f.store ((f.put i m).member i).governor _
    rw [put_member, if_pos rfl]
    exact ⟨by simp, ⟨[], by rw [hentries, List.append_nil], .refl _⟩,
      fun b hb => (List.not_mem_nil hb).elim⟩
  · cases hs
    refine ⟨[], (List.append_nil _).symm, ?_⟩
    rw [List.append_nil]
    exact h.owing

/-- What a governor does in its session leaves the claims accounted for. -/
theorem work {s s' : WriterSession ι} (hsafe : f.Safe w) (hs : f.session = some s)
    (hj : s.joined = false) (labour : Labour w (f.member s.holder).governor s g s')
    (distinct : w.Distinct g.draws) : (f.work s.holder g s').Accounted w := by
  obtain ⟨hholder, hjoined⟩ := labour.session
  obtain ⟨u, hu, hproceeds⟩ := hsafe.works s hs hj
  have hdraws : f.draws ≤ g.draws := hsafe.paced s hs hj ▸ labour.lengthens.1
  refine ⟨h.owing.mono hdraws, h.claims, h.entries, h.booked, fun s₁ hs₁ _ => ?_,
    fun s₁ hs₁ hj₁ => ?_⟩
  · cases hs₁
    change WriterSession.Accounts f.store ((f.put s.holder _).member s'.holder).governor s'
    rw [put_member, if_pos hholder]
    exact labour.accounts hproceeds.orderly distinct (h.works s hs hj) (h.session_ids hs hj)
  · cases hs₁
    rw [hjoined, hj] at hj₁
    cases hj₁

/-- Every event leaves the claims accounted for. -/
theorem moved (hsafe : f.Safe w) (hmoved : Moved w f f') (distinct : w.Distinct f'.draws) :
    f'.Accounted w := by
  cases hmoved with
  | rest => exact h
  | follow i m away member =>
    refine ⟨h.owing, h.claims, h.entries, h.booked, fun s hs hj => ?_, h.joins⟩
    rw [put_member, if_neg (away s hs)]
    exact h.works s hs hj
  | astray i e free astray =>
    obtain ⟨t, ht, -⟩ := hsafe.followed_ok (away_of_free free i)
    rw [astray] at ht
    cases ht
  | grant i block joined t free followed =>
    obtain ⟨t', ht', hcurrent⟩ := hsafe.followed_ok (away_of_free free i)
    obtain rfl : t = t' := Except.ok.inj (followed.symm.trans ht')
    cases joined with
    | true => exact h.grant true hcurrent.entries
    | false => exact h.grant false hcurrent.entries
  | work i s s' g held labour =>
    obtain ⟨hs, rfl, hj⟩ := held_eq_some.mp held
    exact h.work hsafe hs hj labour distinct
  | fail i joined s held =>
    obtain ⟨hs, -, -⟩ := held_eq_some.mp held
    refine ⟨h.owing, h.claims, h.entries, h.booked, fun s₁ hs₁ hj₁ => ?_,
      fun s₁ hs₁ hj₁ => ?_⟩
    · cases hs₁
      have haccounts := h.works s hs hj₁
      exact ⟨haccounts.claims, haccounts.entries, haccounts.booked⟩
    · cases hs₁
      exact h.joins s hs hj₁
  | claim i s c held drawn owes =>
    obtain ⟨hs, -, hj⟩ := held_eq_some.mp held
    exact h.inserted hs hj drawn owes distinct
  | leave i s ending held =>
    obtain ⟨hs, rfl, hj⟩ := held_eq_some.mp held
    exact h.leave hs hj ending
  | part i s committed held =>
    obtain ⟨hs, -, hj⟩ := held_eq_some.mp held
    exact h.part hs hj committed

theorem run (hsafe : f.Safe w) (events : List (Event ι))
    (distinct : w.Distinct (f.run w events).draws) : (f.run w events).Accounted w := by
  induction events generalizing f with
  | nil => exact h
  | cons e rest ih =>
    have hmoved := f.step_moved (w := w) e
    have hle := ((hsafe.paced.moved hmoved).1.run (w := w) rest).2
    exact ih (h.moved hsafe hmoved (distinct.mono hle))
      (hsafe.moved hmoved (distinct.mono hle)).2 distinct

end Accounted

end Fleet

/-- Claims that were committed stay so, and so does what booked them. -/
theorem Fleet.Moved.ledgered {ι : Type} [DecidableEq ι] {f f' : Fleet ι} (h : f.Moved w f') :
    f.owed <+: f'.owed ∧ f.booked <+: f'.booked := by
  cases h with
  | leave i s ending held =>
    refine ⟨by rw [(f.ended_rest i s ending).1], ?_⟩
    rcases f.ended_store i s ending with ⟨-, hbooked⟩ | ⟨-, hbooked⟩ <;> rw [hbooked]
    exact List.prefix_append _ _
  | part i s committed held =>
    unfold Fleet.parted
    split_ifs
    · exact ⟨List.prefix_append _ _, List.prefix_rfl⟩
    · exact ⟨List.prefix_rfl, List.prefix_rfl⟩
  | rest | follow | astray | grant | work | fail | claim => exact ⟨List.prefix_rfl, List.prefix_rfl⟩

theorem Fleet.run_ledgered {ι : Type} [DecidableEq ι] (f : Fleet ι) (events : List (Fleet.Event ι)) :
    f.owed <+: (f.run w events).owed ∧ f.booked <+: (f.run w events).booked := by
  induction events generalizing f with
  | nil => exact ⟨List.prefix_rfl, List.prefix_rfl⟩
  | cons e rest ih =>
    obtain ⟨howed, hbooked⟩ := (f.step_moved (w := w) e).ledgered
    exact ⟨howed.trans (ih _).1, hbooked.trans (ih _).2⟩

/-- Whatever happens in a fleet, every settlement claim that was committed is pending or was booked
once, by entries of its own that spend what it owes; what was booked stays so, and no session finds
that a claim it redeems is gone. -/
theorem claims_booked_once {ι : Type} [DecidableEq ι] (w : World) (unit : Unit)
    (policy : ι → GovernancePolicy) (before after : List (Fleet.Event ι))
    (distinct : w.Distinct ((Fleet.new unit policy).run w (before ++ after)).draws) :
    (((Fleet.new unit policy).run w before).owed <+:
        ((Fleet.new unit policy).run w (before ++ after)).owed ∧
      ((Fleet.new unit policy).run w before).booked <+:
        ((Fleet.new unit policy).run w (before ++ after)).booked) ∧
      ((Fleet.new unit policy).run w (before ++ after)).Accounted w ∧
      ∀ s, ((Fleet.new unit policy).run w (before ++ after)).session = some s → s.joined = false →
        ∀ claim, w.Distinct (s.redeem w (((Fleet.new unit policy).run w
            (before ++ after)).member s.holder).governor claim).1.draws →
          (s.redeem w (((Fleet.new unit policy).run w
            (before ++ after)).member s.holder).governor claim).2.failed = s.failed := by
  have haccounted : ((Fleet.new unit policy).run w (before ++ after)).Accounted w := by
    refine Fleet.Accounted.run ?_ (Fleet.safe_new w unit policy) _ distinct
    exact ⟨⟨List.nodup_nil, fun _ hc => (List.not_mem_nil hc).elim,
      fun _ hc => (List.not_mem_nil hc).elim⟩, .nil, .refl _,
      fun _ hb => (List.not_mem_nil hb).elim, fun s hs => (by cases hs), fun s hs => (by cases hs)⟩
  have hsafe := ((Fleet.safe_new w unit policy).run (before ++ after) distinct).2
  refine ⟨?_, haccounted, fun s hs hj claim hdistinct => ?_⟩
  · have hrun : (Fleet.new unit policy).run w (before ++ after) =
        ((Fleet.new unit policy).run w before).run w after := List.foldl_append
    rw [hrun]
    exact Fleet.run_ledgered _ after
  · obtain ⟨u, hu, hproceeds⟩ := hsafe.works s hs hj
    exact (redeem_accounts hproceeds.orderly hdistinct (haccounted.works s hs hj)
      (haccounted.session_ids hs hj)).2

theorem claims_booked_once_sampleFleet :
    ((Fleet.new USD fun _ => samplePolicy).run sampleWorld sampleFleet).Accounted sampleWorld ∧
      ((Fleet.new USD fun _ => samplePolicy).run sampleWorld sampleFleet).booked.length = 1 := by
  have hbooked := claims_booked_once sampleWorld USD (fun _ => samplePolicy) [] sampleFleet
    (sampleWorld_distinct sampleFleet_run.1)
  exact ⟨hbooked.2.1, sampleFleet_run.2.2.2.1⟩

end AgentGov
