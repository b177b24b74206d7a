import AgentGov.Governor
import AgentGov.Standing
import Mathlib.Data.Set.Function

/-!
# What a governor writes

The entries of a unit of work are built to the newest format, hashed and linked to the chain the
unit of work began on, and checked through its overlay as a replay checks them. So the ledger a
governor serves stands for the chain of its entries, whatever its operations did, as long as the
ids drawn from the world are distinct.

## Main definitions

* `AgentGov.Posted`: what a transaction added to a unit of work is made of.
* `AgentGov.Pending.Follows`: a unit of work continues a chain.
* `AgentGov.Governor.Sound`: what a governor serves is what its entries imply.
* `AgentGov.Governor.Step`: what an instruction does to a governor.

## Main results

* `AgentGov.Pending.Follows.post`: a transaction a unit of work accepts continues the chain.
* `AgentGov.Governor.Sound.handle`: every instruction leaves what is served sound.
-/

open Foundation

namespace AgentGov

/-! ### Entries built to be written -/

/-- Whether an entry is ready to be written: of the newest format, and hashed. -/
structure LedgerEntry.Ready (e : LedgerEntry) : Prop where
  version : e.version = auditV3
  hashed : e.recomputeHash = .ok e.entryHash

/-- The rules of a write and of a replay are the same for an entry that is ready. -/
theorem Rules.apply_ready {σ : Type} [View σ] (v : σ) {e : LedgerEntry} (h : e.Ready) :
    Rules.apply false true v e = Rules.apply true false v e := by
  have hlink : Rules.checkLink v e false = Rules.checkLink v e true := by
    simp only [Rules.checkLink, h.hashed, Bool.false_eq_true, if_false, if_true, ne_eq,
      not_true_eq_false]
  have hflows (v : σ) (amount : Value) :
      Rules.checkFlows v e amount true = Rules.checkFlows v e amount false := by
    simp only [Rules.checkFlows, h.version, or_true, true_and]
  simp only [Rules.apply, hlink, hflows]

theorem Rules.runAll_ready {σ : Type} [View σ] (v : σ) {l : List LedgerEntry}
    (h : ∀ e ∈ l, e.Ready) :
    runAll (Rules.apply false true) v l = runAll (Rules.apply true false) v l :=
  runAll_congr (fun e he v => Rules.apply_ready v (h e he)) v

/-- Whether an entry records what a line does. -/
structure LedgerEntry.Records (e : LedgerEntry) (line : LedgerLine) : Prop where
  kind : e.entryType = line.entryType
  direction : e.direction = line.direction
  scope : e.scopeId = line.scopeId
  counterparty : e.counterpartyId = line.counterpartyId
  memo : e.memo = line.memo
  ref : e.ref = line.ref
  amount : checkLine line = .ok e.amount

/-- What an entry of a transaction built at an instant is, of a line and the id drawn for it. -/
structure LedgerEntry.BuiltOf (txn : UUID) (now : Instant) (p : LedgerLine × UUID)
    (e : LedgerEntry) : Prop where
  ready : e.Ready
  records : e.Records p.1
  id : e.entryId = p.2
  txn : e.transactionId = txn
  timestamp : e.timestamp = now

theorem Built.line_ok {view : Overlay} {txn : UUID} {now : Instant} {b b' : Built}
    {p : LedgerLine × UUID} (h : Built.line view txn now b p = .ok b') :
    ∃ e, LedgerEntry.BuiltOf txn now p e ∧ b'.entries = b.entries ++ [e] := by
  unfold Built.line at h
  obtain ⟨amount, hamount, h⟩ := bind_eq_ok.mp h
  obtain ⟨after, -, h⟩ := bind_eq_ok.mp h
  obtain ⟨hash, hhash, h⟩ := bind_eq_ok.mp h
  cases h
  refine ⟨_, ?_, rfl⟩
  refine ⟨⟨rfl, ?_⟩, ⟨rfl, rfl, rfl, rfl, rfl, rfl, hamount⟩, rfl, rfl, rfl⟩
  rw [LedgerEntry.recomputeHash, hashEntry_entryHash]
  exact lift_eq_ok.mp hhash

/-- The entries a transaction is built of, one to a line. -/
theorem Built.runAll_line_ok {view : Overlay} {txn : UUID} {now : Instant}
    {l : List (LedgerLine × UUID)} {b b' : Built}
    (h : runAll (Built.line view txn now) b l = .ok b') :
    ∃ es, List.Forall₂ (LedgerEntry.BuiltOf txn now) l es ∧ b'.entries = b.entries ++ es := by
  induction l generalizing b with
  | nil =>
    cases h
    exact ⟨[], .nil, (List.append_nil _).symm⟩
  | cons p l ih =>
    obtain ⟨b₁, h₁, h⟩ := runAll_cons_eq_ok.mp h
    obtain ⟨e, he, hb₁⟩ := Built.line_ok h₁
    obtain ⟨es, hes, hb'⟩ := ih h
    refine ⟨e :: es, .cons he hes, ?_⟩
    rw [hb', hb₁, List.append_assoc, List.singleton_append]

/-! ### Transactions -/

/-- What a transaction of `lines` added to a unit of work is made of. -/
structure Posted (w : World) (p : Pending) (lines : List LedgerLine) (es : List LedgerEntry)
    (p' : Pending) : Prop where
  nonempty : lines ≠ []
  built : List.Forall₂ (LedgerEntry.BuiltOf (w.uuid p.draws) (p.instant w)) (p.drawn w lines) es
  checked : ∃ view, runAll (Rules.apply true false) p.view es = .ok view ∧
    Rules.endTransaction view = .ok p'.view
  entries : p'.entries = p.entries ++ es
  draws : p'.draws = p.draws + 1 + lines.length

variable {w : World} {p p' : Pending} {lines : List LedgerLine} {es : List LedgerEntry}

/-- Each entry of a transaction is built of a line. -/
theorem forall_built {l : List (LedgerLine × UUID)} {txn : UUID} {now : Instant}
    (h : List.Forall₂ (LedgerEntry.BuiltOf txn now) l es) :
    ∀ e ∈ es, ∃ q ∈ l, LedgerEntry.BuiltOf txn now q e := by
  induction h with
  | nil => simp
  | cons hq _ ih =>
    intro e he
    rcases List.mem_cons.mp he with rfl | he
    · exact ⟨_, List.mem_cons_self, hq⟩
    · obtain ⟨q, hm, hq⟩ := ih e he
      exact ⟨q, List.mem_cons_of_mem _ hm, hq⟩

theorem Pending.post_ok (h : p.post w lines = .ok (es, p')) : Posted w p lines es p' := by
  unfold Pending.post at h
  split_ifs at h with hlines
  obtain ⟨built, hbuilt, h⟩ := bind_eq_ok.mp h
  obtain ⟨view, hview, h⟩ := bind_eq_ok.mp h
  obtain ⟨view', hend, h⟩ := bind_eq_ok.mp h
  cases h
  obtain ⟨es, hes, hentries⟩ := Built.runAll_line_ok hbuilt
  rw [List.nil_append] at hentries
  rw [hentries] at hview ⊢
  refine ⟨hlines, hes, ⟨view, ?_, lift_eq_ok.mp hend⟩, rfl, rfl⟩
  rw [← Rules.runAll_ready p.view fun e he => ?_]
  · exact lift_eq_ok.mp hview
  · obtain ⟨q, -, hq⟩ := forall_built hes e he
    exact hq.ready

namespace Posted

variable (h : Posted w p lines es p')

include h

theorem ready : ∀ e ∈ es, e.Ready := by
  intro e he
  obtain ⟨q, -, hq⟩ := forall_built h.built e he
  exact hq.ready

theorem txn : ∀ e ∈ es, e.transactionId = w.uuid p.draws := by
  intro e he
  obtain ⟨q, -, hq⟩ := forall_built h.built e he
  exact hq.txn

/-- The ids of the entries, in the order they were drawn. -/
theorem ids : es.map LedgerEntry.entryId =
    (List.range lines.length).map fun k => w.uuid (p.draws + 1 + k) := by
  have hids : ∀ {l : List (LedgerLine × UUID)} {es : List LedgerEntry},
      List.Forall₂ (LedgerEntry.BuiltOf (w.uuid p.draws) (p.instant w)) l es →
      es.map LedgerEntry.entryId = l.map Prod.snd := by
    intro l es h
    induction h with
    | nil => rfl
    | cons hq _ ih => rw [List.map_cons, List.map_cons, hq.id, ih]
  rw [hids h.built, Pending.drawn, List.map_map, List.range_eq_range',
    ← List.zipIdx_map_snd 0 lines, List.map_map]
  rfl

theorem length : es.length = lines.length := by
  have hlen := congrArg List.length h.ids
  simpa using hlen

theorem ne_nil : es ≠ [] := by
  have hlen := h.length
  have hpos := List.length_pos_iff.mpr h.nonempty
  exact List.ne_nil_of_length_pos (by omega)

/-- The entries record the lines, one each. -/
theorem records : List.Forall₂ (fun line e => LedgerEntry.Records e line) lines es := by
  have hlines : lines = (p.drawn w lines).map Prod.fst := by
    rw [Pending.drawn, List.map_map]
    exact (List.zipIdx_map_fst 0 lines).symm
  rw [hlines, List.forall₂_map_left_iff]
  exact h.built.imp fun _ _ hq => hq.records

/-- Each entry of a transaction records one of its lines. -/
theorem exists_line {e : LedgerEntry} (he : e ∈ es) : ∃ line ∈ lines, e.Records line := by
  obtain ⟨q, hq, hb⟩ := forall_built h.built e he
  obtain ⟨⟨line, k⟩, hk, rfl⟩ := List.mem_map.mp hq
  exact ⟨line, (List.mem_zipIdx' hk).2 ▸ List.getElem_mem _, hb.records⟩

/-- The id of an entry of a transaction, as it was drawn. -/
theorem id_drawn {e : LedgerEntry} (he : e ∈ es) :
    ∃ i, p.draws < i ∧ i < p'.draws ∧ e.entryId = w.uuid i := by
  have hid : e.entryId ∈ es.map LedgerEntry.entryId := List.mem_map_of_mem he
  rw [h.ids] at hid
  obtain ⟨k, hk, hid⟩ := List.mem_map.mp hid
  rw [List.mem_range] at hk
  exact ⟨p.draws + 1 + k, by omega, by rw [h.draws]; omega, hid.symm⟩

end Posted

/-! ### What has been drawn -/

/-- Entries of the newest format whose ids were drawn, each of them once. -/
structure Drawn (w : World) (n : ℕ) (l : List LedgerEntry) : Prop where
  versions : ∀ e ∈ l, e.version = auditV3
  ids : ∀ e ∈ l, ∃ i < n, e.entryId = w.uuid i
  txns : ∀ e ∈ l, ∃ i < n, e.transactionId = w.uuid i
  distinct : (l.map LedgerEntry.entryId).Nodup

/-- Whether the first ids drawn are distinct. -/
def World.Distinct (w : World) (n : ℕ) : Prop := Set.InjOn w.uuid {i | i < n}

theorem World.Distinct.index_eq {n i j : ℕ} (h : w.Distinct n) (hi : i < n) (hj : j < n)
    (heq : w.uuid i = w.uuid j) : i = j :=
  h hi hj heq

theorem World.Distinct.mono {m n : ℕ} (h : w.Distinct n) (hmn : m ≤ n) : w.Distinct m :=
  Set.InjOn.mono (fun _ hi => Nat.lt_of_lt_of_le hi hmn) h

namespace Drawn

variable {n : ℕ} {l : List LedgerEntry}

theorem nil (w : World) (n : ℕ) : Drawn w n [] := by
  constructor <;> simp

theorem mono {m : ℕ} (h : Drawn w n l) (hnm : n ≤ m) : Drawn w m l where
  versions := h.versions
  ids e he := by
    obtain ⟨i, hi, hid⟩ := h.ids e he
    exact ⟨i, by omega, hid⟩
  txns e he := by
    obtain ⟨i, hi, hid⟩ := h.txns e he
    exact ⟨i, by omega, hid⟩
  distinct := h.distinct

/-- No entry written before a transaction has the id of one of its entries. -/
theorem id_ne (hd : Drawn w p.draws l) (h : Posted w p lines es p') (distinct : w.Distinct p'.draws)
    {e x : LedgerEntry} (he : e ∈ es) (hx : x ∈ l) : x.entryId ≠ e.entryId := by
  obtain ⟨i, hi, hi', hid⟩ := h.id_drawn he
  obtain ⟨j, hj, hjd⟩ := hd.ids x hx
  intro heq
  rw [hid, hjd] at heq
  have hji := distinct.index_eq (by omega) hi' heq
  omega

/-- No entry written before a transaction is of it. -/
theorem txn_ne (hd : Drawn w p.draws l) (h : Posted w p lines es p')
    (distinct : w.Distinct p'.draws) {x : LedgerEntry} (hx : x ∈ l) :
    x.transactionId ≠ w.uuid p.draws := by
  have hlt : p.draws < p'.draws := by
    rw [h.draws]
    omega
  obtain ⟨j, hj, hjd⟩ := hd.txns x hx
  intro heq
  rw [hjd] at heq
  have hji := distinct.index_eq (by omega) hlt heq
  omega

/-- What a transaction adds has been drawn after it. -/
theorem append (hd : Drawn w p.draws l) (h : Posted w p lines es p')
    (distinct : w.Distinct p'.draws) : Drawn w p'.draws (l ++ es) := by
  have hlt : p.draws < p'.draws := by
    rw [h.draws]
    omega
  have hl := hd.mono (Nat.le_of_lt hlt)
  refine ⟨?_, ?_, ?_, ?_⟩
  · intro e he
    rcases List.mem_append.mp he with he | he
    · exact hl.versions e he
    · exact (h.ready e he).version
  · intro e he
    rcases List.mem_append.mp he with he | he
    · exact hl.ids e he
    · obtain ⟨i, -, hi, hid⟩ := h.id_drawn he
      exact ⟨i, hi, hid⟩
  · intro e he
    rcases List.mem_append.mp he with he | he
    · exact hl.txns e he
    · exact ⟨p.draws, hlt, h.txn e he⟩
  · rw [List.map_append, List.nodup_append]
    refine ⟨hl.distinct, ?_, ?_⟩
    · rw [h.ids]
      refine List.Nodup.map_on ?_ List.nodup_range
      intro i hi j hj heq
      rw [List.mem_range] at hi hj
      have hij := distinct.index_eq (by rw [h.draws]; omega) (by rw [h.draws]; omega) heq
      omega
    · intro a ha b hb heq
      obtain ⟨x, hx, rfl⟩ := List.mem_map.mp ha
      obtain ⟨e, he, rfl⟩ := List.mem_map.mp hb
      exact hd.id_ne h distinct he hx heq

end Drawn

/-! ### Units of work -/

section Between

variable {checkHash writing : Bool} {c c' : Chain} {e : LedgerEntry} {unit : Unit}
  {legacy : List ControlEvent} {find : UUID → Option LedgerEntry} {l piece : List LedgerEntry}

/-- Where the transfers balance, a chain is ready for the first entry of another transaction. -/
theorem run_fresh {txn : UUID}
    (h : runAll (Rules.apply checkHash writing) (Chain.empty unit legacy find) l = .ok c)
    (net : c.frame.net = 0) (other : ∀ x ∈ l, x.transactionId ≠ txn) : c.frame.Fresh txn := by
  have htxn := Chain.run_txn h
  refine ⟨net, ?_, fun hnone => ?_⟩
  · rw [htxn]
    intro hl
    obtain ⟨x, hx, hxt⟩ := Option.map_eq_some_iff.mp hl
    exact other x (List.mem_of_getLast? hx) hxt
  · rw [htxn, Option.map_eq_none_iff, List.getLast?_eq_none_iff] at hnone
    subst hnone
    cases h
    rfl

/-- The entries of a transaction are read alike wherever the one before has ended. -/
theorem Frame.Fresh.run {es : List LedgerEntry} {txn : UUID} (h : c.frame.Fresh txn)
    (hes : es ≠ []) (htxn : ∀ e ∈ es, e.transactionId = txn) :
    runAll (Rules.apply checkHash writing) { c with frame := {} } es =
      runAll (Rules.apply checkHash writing) c es := by
  cases es with
  | nil => exact absurd rfl hes
  | cons e l =>
    rw [← htxn e List.mem_cons_self] at h
    rw [runAll_cons, runAll_cons, ← Rules.apply_fresh h]

end Between

/-- A unit of work over a state continues the chain of the entries before it. -/
structure Pending.Follows (w : World) (unit : Unit) (find : UUID → Option LedgerEntry)
    (s : ChainState) (refunds : Option (UUID → ℕ → Except Error Value)) (l : List LedgerEntry)
    (p : Pending) (c : Chain) : Prop where
  run : runAll (Rules.apply true false) (Chain.empty unit [] find) (l ++ p.entries) = .ok c
  net : c.frame.net = 0
  reads : Overlay.Reads id s refunds find find p.view { c with frame := {} }
  drawn : Drawn w p.draws (l ++ p.entries)
  /-- What is open in the state is a hold of the entries before. -/
  known : ∀ id hold, s.holds.get? id = some hold → ∃ x ∈ l, x.entryId = id

namespace Pending.Follows

variable {unit : Unit} {find : UUID → Option LedgerEntry} {s : ChainState}
  {refunds : Option (UUID → ℕ → Except Error Value)} {l : List LedgerEntry} {c : Chain}

/-- A transaction a unit of work accepts continues the chain. -/
theorem posted (h : p.Follows w unit find s refunds l c) (hp : Posted w p lines es p')
    (distinct : w.Distinct p'.draws) : ∃ c', p'.Follows w unit find s refunds l c' ∧
      runAll (Rules.apply true false) c es = .ok c' := by
  obtain ⟨view, hrun, hend⟩ := hp.checked
  have S := Overlay.reads_simulation (f := id) (fun _ => rfl) s refunds find find
  have hP : ∀ e ∈ es, Overlay.MayRead s find find e := by
    refine fun e he => ⟨fun _ => ?_, fun _ _ _ => rfl⟩
    cases hs : s.holds.get? e.entryId with
    | none => rfl
    | some hold =>
      obtain ⟨x, hx, hid⟩ := h.known _ _ hs
      exact absurd hid (h.drawn.id_ne hp distinct he (List.mem_append_left _ hx))
  obtain ⟨c₁, hc₁, hr₁⟩ := (S.runAll h.reads hP true false).exists_ok hrun
  obtain ⟨c₂, hc₂, hr₂⟩ := (S.endTransaction hr₁).exists_ok hend
  obtain ⟨hnet, rfl⟩ := Rules.endTransaction_ok hc₂
  have hfresh := run_fresh h.run h.net fun x hx => h.drawn.txn_ne hp distinct hx
  rw [hfresh.run hp.ne_nil hp.txn] at hc₁
  refine ⟨c₁, ⟨?_, hnet, ?_, ?_, h.known⟩, hc₁⟩
  · rw [hp.entries, ← List.append_assoc]
    exact runAll_append_eq_ok.mpr ⟨c, h.run, hc₁⟩
  · have hframe : ({ c₁.frame with txn := none, settleable := [] } : Frame) = {} := by
      simp only [hnet]
    rwa [hframe] at hr₂
  · rw [hp.entries, ← List.append_assoc]
    exact h.drawn.append hp distinct

/-- What a refused transaction has drawn changes nothing else. -/
theorem skip (h : p.Follows w unit find s refunds l c) (lines : List LedgerLine) :
    (p.skip lines).Follows w unit find s refunds l c :=
  { h with drawn := h.drawn.mono (by simp only [Pending.skip]; omega) }

end Pending.Follows

/-- What a unit of work takes of the world, it takes once. -/
theorem stage_draws (w : World) {β : Type} (i : Stage β) (p : Pending) :
    p.draws ≤ (stage w β i p).2.draws := by
  cases i with
  | view => exact Nat.le_refl _
  | post lines =>
    simp only [stage]
    cases hp : p.post w lines with
    | error e =>
      simp only [Pending.skip]
      omega
    | ok r =>
      obtain ⟨es, p'⟩ := r
      have hdraws := (Pending.post_ok hp).draws
      dsimp only
      omega

theorem Staging.run_draws {α : Type} (w : World) (body : Staging α) (p : Pending) :
    p.draws ≤ (body.run (stage w) p).2.draws :=
  Program.run_invariant (I := fun q => p.draws ≤ q.draws)
    (fun _ i q hq => Nat.le_trans hq (stage_draws w i q)) body (Nat.le_refl _)

/-- Everything an operation does with its unit of work continues the chain. -/
theorem Staging.run_follows {α : Type} {unit : Unit} {find : UUID → Option LedgerEntry}
    {s : ChainState} {refunds : Option (UUID → ℕ → Except Error Value)} {l : List LedgerEntry}
    {c : Chain} (h : p.Follows w unit find s refunds l c) (body : Staging α)
    (distinct : w.Distinct (body.run (stage w) p).2.draws) :
    ∃ c', (body.run (stage w) p).2.Follows w unit find s refunds l c' := by
  refine Program.run_invariant
    (I := fun p : Pending => w.Distinct p.draws → ∃ c, p.Follows w unit find s refunds l c) ?_ body
    (fun _ => ⟨c, h⟩) distinct
  intro β i p ih distinct
  obtain ⟨c, hc⟩ := ih (distinct.mono (stage_draws w i p))
  cases i with
  | view => exact ⟨c, hc⟩
  | post lines =>
    simp only [stage] at distinct ⊢
    cases hp : p.post w lines with
    | error e => exact ⟨c, hc.skip lines⟩
    | ok r =>
      obtain ⟨es, p'⟩ := r
      rw [hp] at distinct
      obtain ⟨c', hc', -⟩ := hc.posted (Pending.post_ok hp) distinct
      exact ⟨c', hc'⟩

/-! ### The ledger a governor serves -/

/-- In a ledger of distinct ids, an entry is found by its id. -/
theorem Ledger.resolve_eq_some {g : Ledger} {id : UUID} {x : LedgerEntry}
    (distinct : (g.entries.map LedgerEntry.entryId).Nodup) :
    g.resolve id = some x ↔ x ∈ g.entries ∧ x.entryId = id := by
  unfold Ledger.resolve
  constructor
  · intro h
    exact ⟨List.mem_reverse.mp (List.mem_of_find?_eq_some h), by simpa using List.find?_some h⟩
  · rintro ⟨hx, hid⟩
    cases hf : g.entries.reverse.find? fun e => e.entryId = id with
    | none =>
      have hne := List.find?_eq_none.mp hf x (List.mem_reverse.mpr hx)
      simp [hid] at hne
    | some y =>
      have hy := List.mem_reverse.mp (List.mem_of_find?_eq_some hf)
      have hyid : y.entryId = id := by simpa using List.find?_some hf
      rw [List.inj_on_of_nodup_map distinct hy hx (hyid.trans hid.symm)]

/-- A refund is answered wherever the spends found before are found. -/
theorem Answers.mono {find find' : UUID → Option LedgerEntry} {l : List LedgerEntry}
    (h : Answers find l) (hfind : ∀ ref x, find ref = some x → find' ref = some x) :
    Answers find' l := by
  intro before e after ref hl kind named
  obtain ⟨x, hx, covers⟩ := h before e after ref hl kind named
  exact ⟨x, hfind ref x hx, covers⟩

/-- The refunds of a spend counted among the entries are what the chain remembers of them. -/
theorem refundsIn_run {checkHash writing : Bool} {unit : Unit} {legacy : List ControlEvent}
    {find : UUID → Option LedgerEntry} {l : List LedgerEntry} {c : Chain}
    (h : runAll (Rules.apply checkHash writing) (Chain.empty unit legacy find) l = .ok c) (n : ℕ)
    (hn : l.length ≤ n) (spend : UUID) : refundsIn l spend n = .ok (c.refundedOfSpend spend) := by
  refine Chain.run_induction (motive := fun l c => l.length ≤ n →
    refundsIn l spend n = .ok (c.refundedOfSpend spend)) (fun _ => rfl) ?_ h hn
  intro l e c c' hl ih ha hn
  rw [List.length_append, List.length_singleton] at hn
  have ih := ih (by omega)
  have hsequence : e.sequence ≤ (n : ℤ) := by
    rw [ha.sequence, Chain.run_length hl]
    change ((0 + l.length + 1 : ℕ) : ℤ) ≤ n
    omega
  have other : ¬(e.entryType = .reversal ∧ e.ref = some spend) →
      c'.spendRefunds = c.spendRefunds →
      refundsIn (l ++ [e]) spend n = .ok (c'.refundedOfSpend spend) := by
    intro hne hsame
    have hf : ¬(e.entryType = .reversal ∧ e.ref = some spend ∧ e.sequence ≤ (n : ℤ)) :=
      fun hf => hne ⟨hf.1, hf.2.1⟩
    rw [refundsIn, List.filter_append, List.filter_singleton, decide_eq_false hf, cond_false,
      List.append_nil, Chain.refundedOfSpend, hsame]
    exact ih
  cases ha.holds with
  | place kind _ _ _ _ same => exact other (by simp [kind]) same
  | release _ _ kind _ _ _ _ _ _ _ _ same => exact other (by simp [kind]) same
  | releaseUnnamed _ _ kind _ _ _ _ _ _ _ same => exact other (by simp [kind]) same
  | spend kind _ _ _ _ same => exact other (by simp [kind]) same
  | keep _ unnamed _ _ _ same => exact other (by simp [unnamed]) same
  | reverse _ ref _ refunded kind named _ _ _ _ sum _ _ _ _ after =>
    by_cases hr : spend = ref
    · subst hr
      have hf : e.entryType = .reversal ∧ e.ref = some spend ∧ e.sequence ≤ (n : ℤ) :=
        ⟨kind, named, hsequence⟩
      rw [refundsIn, List.filter_append, List.filter_singleton, decide_eq_true hf, cond_true,
        List.foldlM_append]
      have hafter : c'.refundedOfSpend spend = refunded := by
        rw [Chain.refundedOfSpend, after, Dict.get?_set_self]
        rfl
      rw [refundsIn] at ih
      rw [ih, hafter]
      change (add (c.refundedOfSpend spend) e.worth >>= fun t => pure t) = _
      rw [sum]
      rfl
    · have hne : ¬(e.entryType = .reversal ∧ e.ref = some spend) := by
        rw [named, Option.some.injEq]
        exact fun h => hr h.2.symm
      have hf : ¬(e.entryType = .reversal ∧ e.ref = some spend ∧ e.sequence ≤ (n : ℤ)) :=
        fun hf => hne ⟨hf.1, hf.2.1⟩
      rw [refundsIn, List.filter_append, List.filter_singleton, decide_eq_false hf, cond_false,
        List.append_nil, Chain.refundedOfSpend, after, Dict.get?_set, if_neg hr]
      exact ih

/-- A state stands for a chain however the chain finds its spends. -/
theorem ChainState.Stands.finding {f : LedgerEntry → LedgerEntry}
    {refunds : Option (UUID → ℕ → Except Error Value)} {s : ChainState} {c : Chain}
    (h : s.Stands f refunds { c with frame := {} }) (find : UUID → Option LedgerEntry) :
    s.Stands f refunds (c.finding find) where
  alike := { h.alike with }
  kept := h.kept
  counted := h.counted
  tidy := h.tidy

/-- What a governor serves is what its entries imply. -/
structure Governor.Sound (w : World) (unit : Unit) (g : Governor) (c : Chain) : Prop where
  run : runAll (Rules.apply true false) (Chain.empty unit [] g.ledger.resolve) g.ledger.entries =
    .ok c
  net : c.frame.net = 0
  stands : g.ledger.state.Stands id g.refundLookup c
  auths : g.ledger.openAuths = g.ledger.state.holds.mapValues authorizationFor
  drawn : Drawn w g.draws g.ledger.entries

namespace Governor

variable {unit : Unit} {g : Governor} {c c' : Chain}

theorem Sound.new (w : World) (unit : Unit) (policy : GovernancePolicy) (store : Bool) :
    (Governor.new unit policy store).Sound w unit (Chain.empty unit [] (fun _ => none)) where
  run := rfl
  net := rfl
  stands :=
    { alike := .refl fun scope n h => by cases h
      kept := fun _ => .refl _
      counted := fun _ _ _ => rfl
      tidy := fun _ h => by cases h }
  auths := rfl
  drawn := .nil w 0

namespace Sound

theorem unit_eq (h : g.Sound w unit c) : g.ledger.state.unit = unit :=
  h.stands.alike.unit.trans (Chain.run_unit h.run)

theorem holds_eq (h : g.Sound w unit c) : g.ledger.state.holds = c.holds := by
  have hh := h.stands.alike.holds
  rwa [Dict.mapValues_id, Dict.mapValues_id] at hh

/-- A unit of work begins on the chain that is served. -/
theorem begin (h : g.Sound w unit c) : g.begin.Follows w unit g.ledger.resolve g.ledger.state
    g.refundLookup g.ledger.entries c where
  run := by
    rw [show g.begin.entries = [] from rfl, List.append_nil]
    exact h.run
  net := h.net
  reads := by
    have hr := h.stands.staging g.ledger.resolve none
    rw [Chain.run_resolve h.run] at hr ⊢
    exact hr
  drawn := by
    rw [show g.begin.entries = [] from rfl, List.append_nil]
    exact h.drawn
  known := by
    intro id hold hid
    rw [h.holds_eq] at hid
    obtain ⟨hm, -, hid⟩ := run_holds_known h.run id hold hid
    exact ⟨hold, hm, hid⟩

end Sound

/-- What follows the merge of a unit of work opens and closes the authorizations of its holds. -/
theorem followHolds_eq {s : ChainState} {o : Overlay} (base : o.base = s)
    (keyed : ∀ id hold, o.merge.holds.get? id = some hold → hold.entryId = id) :
    followHolds (s.holds.mapValues authorizationFor) o =
      o.merge.holds.mapValues authorizationFor := by
  have hitems : ∀ p ∈ o.opened.items, p.2.entryId = p.1 := by
    intro p hp
    refine keyed p.1 p.2 ?_
    change (o.base.holds.eraseAll o.closed |>.update o.opened).get? p.1 = _
    rw [Dict.get?_update, Dict.get?_eq_some_iff.mpr hp]
    rfl
  change _ = ((o.base.holds.eraseAll o.closed).setAll o.opened.items).mapValues authorizationFor
  rw [followHolds, Dict.mapValues_setAll, Dict.mapValues_eraseAll, base]
  congr 1
  rw [Dict.values, List.map_map]
  refine List.map_congr_left fun p hp => ?_
  simp only [Function.comp_apply, hitems p hp]

/-- The ledger after a unit of work is committed. -/
theorem ledger_commit (p : Pending) (call : Option (Call × LedgerEntry)) :
    (g.commit p call).ledger = if p.entries = [] ∧ call.isNone then g.ledger else
      { entries := g.ledger.entries ++ p.entries
        state := p.view.merge
        openAuths := followHolds g.ledger.openAuths p.view } := by
  unfold commit
  split_ifs <;> rfl

@[simp] theorem store_commit (p : Pending) (call : Option (Call × LedgerEntry)) :
    (g.commit p call).store = g.store := by
  unfold commit
  split_ifs <;> rfl

@[simp] theorem draws_commit (p : Pending) (call : Option (Call × LedgerEntry)) :
    (g.commit p call).draws = p.draws := by
  unfold commit
  split_ifs <;> rfl

/-- A unit of work committed leaves what is served sound. -/
theorem Sound.commit (h : g.Sound w unit c)
    (hp : p.Follows w unit g.ledger.resolve g.ledger.state g.refundLookup g.ledger.entries c')
    (call : Option (Call × LedgerEntry)) :
    (g.commit p call).Sound w unit (c'.finding (g.commit p call).ledger.resolve) := by
  have hledger := ledger_commit (g := g) p call
  by_cases hnone : p.entries = [] ∧ call.isNone
  · rw [if_pos hnone] at hledger
    have hrun := hp.run
    have hdrawn := hp.drawn
    rw [hnone.1, List.append_nil] at hrun hdrawn
    rw [h.run, Except.ok.injEq] at hrun
    subst hrun
    have hc : c.finding g.ledger.resolve = c := by
      rw [← show c.resolve = g.ledger.resolve from Chain.run_resolve h.run]
      rfl
    have hlookup : (g.commit p call).refundLookup = g.refundLookup := by
      simp only [refundLookup, hledger, store_commit]
    refine ⟨?_, ?_, ?_, ?_, ?_⟩
    · rw [hledger, hc]
      exact h.run
    · exact h.net
    · rw [hlookup, hledger, hc]
      exact h.stands
    · rw [hledger]
      exact h.auths
    · rw [hledger, draws_commit]
      exact hdrawn
  · rw [if_neg hnone] at hledger
    have hmono : ∀ ref x, g.ledger.resolve ref = some x →
        (g.commit p call).ledger.resolve ref = some x := by
      intro ref x hx
      rw [Ledger.resolve_eq_some h.drawn.distinct] at hx
      rw [Ledger.resolve_eq_some (by rw [hledger]; exact hp.drawn.distinct), hledger]
      exact ⟨List.mem_append_left _ hx.1, hx.2⟩
    have hrun := run_finding ((run_answers hp.run).mono hmono) hp.run
    have hstands : (g.commit p call).ledger.state.Stands id (g.commit p call).refundLookup
        { c' with frame := {} } := by
      rw [hledger]
      refine hp.reads.merge h.stands.tidy (fun hr => ?_) fun r hr spend => ?_
      · simpa [refundLookup] using hr
      · have hlength := Chain.run_length hp.run
        simp only [refundLookup, store_commit, hledger] at hr
        split_ifs at hr with hstore
        cases hr
        split_ifs with hzero
        · have hnil : g.ledger.entries ++ p.entries = [] := by
            refine List.eq_nil_of_length_eq_zero ?_
            change c'.core.length = 0 at hzero
            omega
          have hempty := hp.run
          rw [hnil] at hempty
          cases hempty
          rfl
        · exact refundsIn_run hp.run _ (by rw [hlength]; exact Nat.le_add_left _ _) spend
    refine ⟨?_, ?_, hstands.finding _, ?_, ?_⟩
    · have hentries : (g.commit p call).ledger.entries = g.ledger.entries ++ p.entries := by
        rw [hledger]
      rw [hentries]
      exact hrun
    · exact hp.net
    · have hbase : p.view.base = g.ledger.state := by
        obtain ⟨m, hm, -⟩ := hp.reads
        exact hm.base
      rw [hledger, h.auths]
      refine followHolds_eq hbase fun id hold hid => ?_
      have hholds : p.view.merge.holds = c'.holds := by
        have hh := hstands.alike.holds
        rw [hledger] at hh
        rwa [Dict.mapValues_id, Dict.mapValues_id] at hh
      rw [hholds] at hid
      exact (run_holds_known hp.run id hold hid).2.2
    · rw [hledger, draws_commit]
      exact hp.drawn

/-! ### Instructions -/

/-- Whether a governor serves the same ledger and the same recorded calls as another. -/
structure Keeps (g g' : Governor) : Prop where
  ledger : g'.ledger = g.ledger
  keys : g'.keys = g.keys
  policy : g'.policy = g.policy
  store : g'.store = g.store
  draws : g.draws ≤ g'.draws

/-- What an instruction does to a governor: it leaves the ledger and the recorded calls as they
are, or it commits a unit of work. -/
inductive Handled (w : World) (g : Governor) : Governor → Prop
  | keep {g' : Governor} (keeps : g.Keeps g') : Handled w g g'
  | commit {α : Type} (body : Staging α) (call : Option Call) (result : α → Option LedgerEntry)
      (a : α) (p : Pending) (run : body.run (stage w) g.begin = (.ok a, p)) :
      Handled w g (g.commit p (call.bind fun c => (result a).map fun e => (c, e)))

theorem Keeps.refl (g : Governor) : g.Keeps g := ⟨rfl, rfl, rfl, rfl, Nat.le_refl _⟩

theorem recorded_keeps (g : Governor) (key : Text) : g.Keeps (g.recorded key).2 := by
  unfold recorded
  split_ifs
  · cases g.keyCache.get? key with
    | some found => exact .refl g
    | none => exact ⟨rfl, rfl, rfl, rfl, Nat.le_refl _⟩
  · exact .refl g

theorem called_keeps (g : Governor) (key : Option Text) (outcome : Outcome) (request : Request) :
    g.Keeps (g.called key outcome request).2 := by
  unfold called
  cases key with
  | none => exact .refl g
  | some key =>
    have hkeeps := recorded_keeps g key
    dsimp only
    split
    · exact .refl g
    · split
      · exact .refl g
      · rcases hr : g.recorded key with ⟨_ | record, g'⟩ <;> (rw [hr] at hkeeps; exact hkeeps)

theorem answered_keeps (g : Governor) (call : Option Call) (answer : Answer) :
    g.Keeps (g.answered call answer) := by
  unfold answered
  cases call with
  | none => exact .refl g
  | some call =>
    dsimp only
    split
    · exact .refl g
    · exact ⟨rfl, rfl, rfl, rfl, Nat.le_refl _⟩

theorem countCall_keeps (w : World) (g : Governor) (scope : Text) :
    g.Keeps (g.countCall w scope).2 := by
  unfold countCall countFleet countOwn
  have later : g.Keeps { g with draws := g.draws + 1 } := ⟨rfl, rfl, rfl, rfl, Nat.le_succ _⟩
  split_ifs
  · exact .refl g
  · cases Op.cutoff (w.now g.draws) (some g.policy.window.micros) with
    | error e => exact { later with }
    | ok since =>
      dsimp only
      split_ifs <;> exact { later with }
  · dsimp only
    split_ifs <;> exact { later with }

/-- What an instruction does to a governor. -/
theorem handled (w : World) {β : Type} (i : Instr β) (g : Governor) :
    g.Handled w (handle w β i g).2 := by
  have same : g.Handled w g := .keep (.refl g)
  cases i with
  | mutating => exact same
  | served => exact same
  | policy => exact same
  | now => exact .keep ⟨rfl, rfl, rfl, rfl, Nat.le_succ _⟩
  | called key outcome request => exact .keep (called_keeps g key outcome request)
  | answered call answer => exact .keep (answered_keeps g call answer)
  | refundedOfSpend spend => exact same
  | velocity scope => exact .keep (countCall_keeps w g scope)
  | noteTrip scope reason => exact .keep ⟨rfl, rfl, rfl, rfl, Nat.le_refl _⟩
  | forgetVelocity scope => exact .keep ⟨rfl, rfl, rfl, rfl, Nat.le_refl _⟩
  | work body call result =>
    simp only [handle, work]
    rcases hb : body.run (stage w) g.begin with ⟨_ | a, p⟩
    · have hdraws := Staging.run_draws w body g.begin
      rw [hb] at hdraws
      exact .keep ⟨rfl, rfl, rfl, rfl, hdraws⟩
    · exact .commit body call result a p hb

namespace Handled

/-- A governor draws on. -/
theorem draws {g g' : Governor} (h : g.Handled w g') : g.draws ≤ g'.draws := by
  cases h with
  | keep keeps => exact keeps.draws
  | commit body call result a p run =>
    have hdraws := Staging.run_draws w body g.begin
    rw [run] at hdraws
    rw [draws_commit]
    exact hdraws

/-- A governor's history grows at its end. -/
theorem grows {g g' : Governor} (h : g.Handled w g') :
    g.ledger.entries <+: g'.ledger.entries := by
  cases h with
  | keep keeps => rw [keeps.ledger]
  | commit body call result a p run =>
    rw [ledger_commit]
    split_ifs
    · exact List.prefix_rfl
    · exact List.prefix_append _ _

theorem store {g g' : Governor} (h : g.Handled w g') : g'.store = g.store := by
  cases h with
  | keep keeps => exact keeps.store
  | commit body call result a p run => exact store_commit p _

end Handled

/-- What keeps the ledger keeps it sound. -/
theorem Sound.keep {g g' : Governor} (h : g.Sound w unit c) (hk : g.Keeps g') :
    g'.Sound w unit c := by
  have hlookup : g'.refundLookup = g.refundLookup := by
    simp only [refundLookup, hk.ledger, hk.store]
  exact
    { run := hk.ledger ▸ h.run
      net := h.net
      stands := by rw [hlookup, hk.ledger]; exact h.stands
      auths := hk.ledger ▸ h.auths
      drawn := hk.ledger ▸ h.drawn.mono hk.draws }

/-- Every instruction leaves what is served sound. -/
theorem Sound.handled {g g' : Governor} (h : g.Sound w unit c) (hg : g.Handled w g')
    (distinct : w.Distinct g'.draws) : ∃ c', g'.Sound w unit c' := by
  cases hg with
  | keep keeps => exact ⟨c, h.keep keeps⟩
  | commit body call result a p run =>
    have hfollows := Staging.run_follows h.begin body
    rw [run] at hfollows
    rw [draws_commit] at distinct
    obtain ⟨c', hc'⟩ := hfollows distinct
    exact ⟨_, h.commit hc' _⟩

end Governor

end AgentGov
