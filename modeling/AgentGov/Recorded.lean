import AgentGov.Keys
import AgentGov.Runs
import AgentGov.Tree

/-!
# What is recorded of calls

A record names the entry its call's result is read back from, and the entry stays where it was
written. What was looked up of the records within a unit of work is what is recorded, so a call is
looked up alike whatever was called before it in the same unit.

## Main definitions

* `AgentGov.Governor.Kept`: the records of a governor name entries of its ledger, and what its unit
  of work remembers of calls is what is recorded of them.
* `AgentGov.Governor.lookUp`: what the lookup of a key finds.

## Main results

* `AgentGov.Governor.Kept.called`: the lookup through every layer finds what is recorded.
* `AgentGov.Governor.Kept.recorded`: a call that is performed leaves the records in order.
-/

open Foundation

namespace AgentGov

variable {w : World} {unit : Unit} {c c' : Chain}

/-! ### Entries where they stand -/

/-- The entries of a chain stand at their sequences. -/
theorem run_getElem? {checkHash writing : Bool} {legacy : List ControlEvent}
    {find : UUID → Option LedgerEntry} {l : List LedgerEntry} {e : LedgerEntry}
    (h : runAll (Rules.apply checkHash writing) (Chain.empty unit legacy find) l = .ok c)
    (he : e ∈ l) : ∃ i : ℕ, l[i]? = some e ∧ e.sequence = ((i + 1 : ℕ) : ℤ) := by
  obtain ⟨before, after, rfl⟩ := List.append_of_mem he
  obtain ⟨c₁, c₂, hbefore, happlied, -⟩ := Chain.run_split h
  refine ⟨before.length, by simp, ?_⟩
  have hlength : c₁.core.length = 0 + before.length := Chain.run_length hbefore
  rw [happlied.sequence, hlength, Nat.zero_add]

/-- An entry found at a sequence is found there in every longer ledger. -/
theorem Ledger.entry_grows {l l' : Ledger} (h : l.entries <+: l'.entries) {sequence : ℤ}
    {e : LedgerEntry} (he : l.entry sequence = some e) : l'.entry sequence = some e := by
  unfold Ledger.entry at he ⊢
  split_ifs at he ⊢ with hpos
  obtain ⟨more, hmore⟩ := h
  rw [← hmore, List.getElem?_append_left (List.getElem?_eq_some_iff.mp he).1]
  exact he

namespace Governor

variable {g t : Governor}

namespace Sound

/-- An entry is found at its sequence. -/
theorem entry_of_mem (h : g.Sound w unit c) {e : LedgerEntry} (he : e ∈ g.ledger.entries) :
    g.ledger.entry e.sequence = some e := by
  obtain ⟨i, hi, hs⟩ := run_getElem? h.run he
  rw [Ledger.entry, hs, if_pos (by omega)]
  rwa [Int.toNat_natCast, Nat.add_sub_cancel]

/-- An entry that was not written yet has a later sequence. -/
theorem lt_sequence (h : g.Sound w unit c) {before new : List LedgerEntry}
    (hnew : g.ledger.entries = before ++ new) {e : LedgerEntry} (he : e ∈ new) :
    (before.length : ℤ) < e.sequence := by
  obtain ⟨first, rest, rfl⟩ := List.append_of_mem he
  have hrun := h.run
  rw [hnew, ← List.append_assoc] at hrun
  obtain ⟨c₁, c₂, hbefore, happlied, -⟩ := Chain.run_split hrun
  have hlength : c₁.core.length = 0 + (before ++ first).length := Chain.run_length hbefore
  rw [happlied.sequence, hlength, List.length_append]
  omega

theorem nodes_eq (h : g.Sound w unit c) : g.ledger.state.nodes = c.nodes := h.stands.alike.nodes

/-- A scope is served under its own name. -/
theorem node_named (h : g.Sound w unit c) {scope : Text} {n : BudgetNode}
    (hn : g.ledger.state.nodes.get? scope = some n) : n.scopeId = scope :=
  (run_treeKept h.run).keyed scope n (h.nodes_eq ▸ hn)

/-- A scope is served where the entries create it. -/
theorem node_iff (h : g.Sound w unit c) (scope : Text) :
    (g.ledger.state.nodes.get? scope).isSome ↔ Created g.ledger.entries scope := by
  rw [← (run_treeKept h.run).created scope, h.nodes_eq, Chain.place]
  cases c.nodes.get? scope <;> simp

/-- A scope that is served is served ever after. -/
theorem node_grows (h : g.Sound w unit c) (h' : t.Sound w unit c')
    (hgrows : g.ledger.entries <+: t.ledger.entries) {scope : Text}
    (hn : (g.ledger.state.nodes.get? scope).isSome) :
    (t.ledger.state.nodes.get? scope).isSome := by
  obtain ⟨more, hmore⟩ := hgrows
  rw [h'.node_iff, ← hmore]
  rw [h.node_iff] at hn
  refine hn.imp (fun hf => ?_) fun ha => ?_
  · simp only [fundingsOf, List.filter_append] at hf ⊢
    exact List.append_ne_nil_of_left_ne_nil hf _
  · simp only [allocationsTo, List.filter_append] at ha ⊢
    exact List.append_ne_nil_of_left_ne_nil ha _

/-- A scope that was delegated to is served. -/
theorem node_of_delegates (h : g.Sound w unit c) {e : LedgerEntry} (he : e ∈ g.ledger.entries)
    (kind : e.entryType = .allocation) (direction : e.direction = .credit) :
    (g.ledger.state.nodes.get? e.scopeId).isSome := by
  rw [h.node_iff]
  refine Or.inr (List.ne_nil_of_mem (a := e) (List.mem_filter.mpr ⟨he, ?_⟩))
  simp [LedgerEntry.delegates, kind, direction]

end Sound

/-! ### What records say -/

/-- What a record's entry holds, as it stands now. -/
theorem current_answerIn (h : g.Sound w unit c) {r : IdempotencyRecord} {e : LedgerEntry}
    {answer : Answer} (ha : g.answerIn r e = some answer) : g.current answer = answer := by
  unfold answerIn at ha
  cases ho : r.outcome with
  | entry =>
    rw [ho] at ha
    cases ha
    rfl
  | authorization =>
    rw [ho] at ha
    dsimp only at ha
    split_ifs at ha
    cases ha
    rfl
  | node =>
    rw [ho] at ha
    dsimp only at ha
    split_ifs at ha
    obtain ⟨n, hn, rfl⟩ := Option.map_eq_some_iff.mp ha
    rw [current, h.node_named hn, hn]
    rfl

/-- What an entry held of an outcome it holds ever after, a scope as it is served then. -/
theorem answerIn_grows (h : g.Sound w unit c) (h' : t.Sound w unit c')
    (hgrows : g.ledger.entries <+: t.ledger.entries) {r : IdempotencyRecord} {e : LedgerEntry}
    {answer answer' : Answer} (ha : g.answerIn r e = some answer')
    (hc : g.current answer = answer') : t.answerIn r e = some (t.current answer) := by
  unfold answerIn at ha ⊢
  cases ho : r.outcome with
  | entry =>
    rw [ho] at ha
    cases ha
    cases answer <;> simp_all [current]
  | authorization =>
    rw [ho] at ha
    dsimp only at ha ⊢
    split_ifs at ha ⊢
    cases ha
    cases answer <;> simp_all [current]
  | node =>
    rw [ho] at ha
    dsimp only at ha ⊢
    split_ifs at ha ⊢
    obtain ⟨n, hn, rfl⟩ := Option.map_eq_some_iff.mp ha
    obtain ⟨m, hm⟩ := Option.isSome_iff_exists.mp (h.node_grows h' hgrows (by rw [hn]; rfl))
    cases answer with
    | node k =>
      have hk : k.scopeId = e.scopeId := by
        have hnamed := h.node_named hn
        cases hget : g.ledger.state.nodes.get? k.scopeId with
        | none =>
          simp only [current, hget, Option.getD_none, Answer.node.injEq] at hc
          rw [hc, hnamed]
        | some x =>
          simp only [current, hget, Option.getD_some, Answer.node.injEq] at hc
          rw [← h.node_named hget, hc, hnamed]
      rw [hm, current, hk, hm]
      rfl
    | entry | authorization | refused | returned | voided | nothing => cases hc

/-- The most bytes SQLite takes of a text. -/
def sqliteLength : ℕ := 1000000000

/-- Whether a text can be given to a statement of SQLite: in UTF-8, and not too long. -/
def bindable (t : Text) : Bool :=
  match utf8Size t with
  | some n => decide (n ≤ sqliteLength)
  | none => false

/-- A key that is accepted can be given to a statement. -/
theorem bindable_of_requireKey {key : Text} {u : PUnit} (h : requireKey key = .ok u) :
    bindable key = true := by
  unfold requireKey at h
  split_ifs at h
  unfold checkText at h
  unfold bindable
  cases hs : utf8Size key with
  | none =>
    rw [hs] at h
    cases h
  | some n =>
    rw [hs] at h
    dsimp only at h ⊢
    by_cases hlimit : keyBytes < n
    · rw [if_pos hlimit] at h
      cases h
    · refine decide_eq_true (Nat.le_trans (Nat.not_lt.mp hlimit) ?_)
      decide

/-- The records of a governor name entries of its ledger, and what its unit of work remembers of
the calls made in it is what is recorded of them. -/
structure Kept (g : Governor) : Prop where
  named : ∀ key r, g.keys.get? key = some r → r.key = key ∧
    ∃ e answer, g.ledger.entry r.sequence = some e ∧ g.answerIn r e = some answer
  made : ∀ key r answer, g.unitCalls.get? key = some (r, answer) → g.keys.get? key = some r ∧
    ∃ e, g.ledger.entry r.sequence = some e ∧ g.answerIn r e = some (g.current answer)
  coherent : g.Coherent
  /-- What the unit of work remembers is of keys that can be looked up. -/
  bound : ∀ key, (g.unitCalls.get? key).isSome ∨ (g.keyCache.get? key).isSome →
    bindable key = true

namespace Kept

theorem new (unit : Unit) (policy : GovernancePolicy) (store : Bool) :
    (Governor.new unit policy store).Kept where
  named key r h := by cases h
  made key r answer h := by cases h
  coherent key found h := by cases h
  bound key h := by simp [Governor.new] at h

theorem resultOf (h : g.Kept) {key : Text} {r : IdempotencyRecord}
    (hr : g.keys.get? key = some r) : ∃ e answer, g.ledger.entry r.sequence = some e ∧
      g.answerIn r e = some answer ∧ g.resultOf r = .ok answer := by
  obtain ⟨-, e, answer, he, ha⟩ := h.named key r hr
  refine ⟨e, answer, he, ha, ?_⟩
  rw [Governor.resultOf, he, Option.bind_some, ha]

/-- What leaves the ledger and the records as they are keeps them in order. -/
theorem same (h : g.Kept) (hledger : t.ledger = g.ledger) (hkeys : t.keys = g.keys)
    (hcalls : t.unitCalls = g.unitCalls) (hcoherent : t.Coherent)
    (hbound : ∀ key, (t.keyCache.get? key).isSome → (g.keyCache.get? key).isSome ∨
      bindable key = true) : t.Kept where
  named key r hr := by
    rw [hkeys] at hr
    simpa only [hledger, answerIn] using h.named key r hr
  made key r answer hr := by
    rw [hcalls] at hr
    have hmade := h.made key r answer hr
    simpa only [hledger, hkeys, answerIn, current] using hmade
  coherent := hcoherent
  bound key hk := by
    rw [hcalls] at hk
    exact hk.elim (fun hu => h.bound key (Or.inl hu)) fun hc =>
      (hbound key hc).elim (fun hc => h.bound key (Or.inr hc)) id

/-- The end of a unit of work. -/
theorem leave (h : g.Kept) : g.leave.Kept where
  named := h.named
  made key r answer hr := by cases hr
  coherent key found hr := by cases hr
  bound key hk := by simp [Governor.leave] at hk

/-- What no call is recorded of keeps the records in order. -/
theorem idle (h : g.Kept) (hg : g.Sound w unit c) (ht : t.Sound w unit c') (hidle : g.Idle t) :
    t.Kept where
  named key r hr := by
    rw [hidle.keys] at hr
    obtain ⟨hkey, e, answer, he, ha⟩ := h.named key r hr
    exact ⟨hkey, e, _, Ledger.entry_grows hidle.grows he,
      answerIn_grows hg ht hidle.grows ha (current_answerIn hg ha)⟩
  made key r answer hr := by
    rw [hidle.unitCalls] at hr
    obtain ⟨hkey, e, he, ha⟩ := h.made key r answer hr
    exact ⟨hidle.keys ▸ hkey, e, Ledger.entry_grows hidle.grows he,
      answerIn_grows hg ht hidle.grows ha rfl⟩
  coherent key found hc hu := by
    rw [hidle.keyCache] at hc
    rw [hidle.unitCalls] at hu
    rw [hidle.keys]
    exact h.coherent key found hc hu
  bound key hk := by
    rw [hidle.keyCache, hidle.unitCalls] at hk
    exact h.bound key hk

/-- A call that is performed leaves the records in order. -/
theorem recorded {call : Option Call} {answer : Answer} (h : g.Kept) (hg : g.Sound w unit c)
    (ht : t.Sound w unit c') (hbound : ∀ c, call = some c → bindable c.key = true)
    (hr : g.Recorded call answer t) : t.Kept := by
  cases call with
  | none =>
    obtain ⟨hkeys, hcalls⟩ := hr.unkeyed rfl
    exact h.idle hg ht ⟨hkeys, hcalls, hr.keyCache, hr.policy, hr.store, hr.grows⟩
  | some call =>
    obtain ⟨new, e, hnew, he, hkeys, hcalls, hanswer⟩ := hr.keyed call rfl
    have hentry : t.ledger.entry e.sequence = some e :=
      ht.entry_of_mem (hnew ▸ List.mem_append_right _ he)
    refine ⟨fun key r hget => ?_, fun key r answer' hget => ?_, fun key found hc hu => ?_,
      fun key hk => ?_⟩
    · rw [hkeys, Dict.get?_set] at hget
      split_ifs at hget with hkey
      · cases hget
        exact ⟨hkey.symm, e, answer, hentry, hanswer⟩
      · obtain ⟨hname, x, answer₁, hx, ha⟩ := h.named key r hget
        exact ⟨hname, x, _, Ledger.entry_grows hr.grows hx,
          answerIn_grows hg ht hr.grows ha (current_answerIn hg ha)⟩
    · rw [hcalls, Dict.get?_set] at hget
      rw [hkeys, Dict.get?_set]
      split_ifs at hget ⊢ with hkey
      · cases hget
        exact ⟨rfl, e, hentry, by rw [current_answerIn ht hanswer]; exact hanswer⟩
      · obtain ⟨hname, x, hx, ha⟩ := h.made key r answer' hget
        exact ⟨hname, x, Ledger.entry_grows hr.grows hx, answerIn_grows hg ht hr.grows ha rfl⟩
    · rw [hr.keyCache] at hc
      rw [hcalls, Dict.get?_set] at hu
      split_ifs at hu with hkey
      rw [hkeys, Dict.get?_set, if_neg hkey]
      exact h.coherent key found hc hu
    · rw [hr.keyCache, hcalls, Dict.get?_set] at hk
      split_ifs at hk with hkey
      · rw [hkey]
        exact hbound call rfl
      · exact h.bound key hk

end Kept

/-! ### The lookup -/

/-- What the lookup of a key finds: the call, with what it returned when it was first made, if it
was. -/
def lookUp (g : Governor) (key : Text) (outcome : Outcome) (request : Request) :
    Except Exception Call := do
  let text ← (do requireKey key; request.text : Except Exception Text)
  match g.keys.get? key with
  | none => .ok { key := key, request := text, outcome := outcome }
  | some record => do
    sameCall { key := key, request := text, outcome := outcome } record
    .ok { key := key, request := text, outcome := outcome, replayed := some (← g.resultOf record) }

/-- Looking a record up leaves it in order, and finds what is recorded. -/
theorem Kept.looked (h : g.Kept) {key : Text} (hu : g.unitCalls.get? key = none)
    (hbound : bindable key = true) :
    ∃ cache, g.recorded key = (g.keys.get? key, { g with keyCache := cache }) ∧
      Governor.Kept { g with keyCache := cache } := by
  have hsame : Governor.Kept { g with keyCache := g.keyCache } := h
  unfold Governor.recorded
  split_ifs
  · cases hc : g.keyCache.get? key with
    | some found =>
      exact ⟨g.keyCache, by rw [h.coherent key found hc hu], hsame⟩
    | none =>
      refine ⟨g.keyCache.set key (g.keys.get? key), rfl, h.same rfl rfl rfl ?_ ?_⟩
      · intro k found hk hku
        rw [Dict.get?_set] at hk
        split_ifs at hk with hkey
        · cases hk
          rw [hkey]
        · exact h.coherent k found hk hku
      · intro k hk
        rw [Dict.get?_set] at hk
        split_ifs at hk with hkey
        · exact Or.inr (hkey ▸ hbound)
        · exact Or.inl hk
  · exact ⟨g.keyCache, rfl, hsame⟩

/-- The lookup through the calls of this unit of work, what was looked up in it and what is
recorded finds what is recorded. -/
theorem Kept.called (h : g.Kept) (key : Text) (outcome : Outcome) (request : Request) :
    ∃ cache, g.called (some key) outcome request =
        ((g.lookUp key outcome request).map some, { g with keyCache := cache }) ∧
      Governor.Kept { g with keyCache := cache } := by
  have hsame : Governor.Kept { g with keyCache := g.keyCache } := h
  unfold Governor.called lookUp
  dsimp only
  cases htext : (do requireKey key; request.text : Except Exception Text) with
  | error e => exact ⟨g.keyCache, rfl, hsame⟩
  | ok text =>
    obtain ⟨u, hkey, -⟩ := bind_eq_ok.mp htext
    dsimp only
    cases hu : g.unitCalls.get? key with
    | some made =>
      obtain ⟨r, answer⟩ := made
      obtain ⟨hr, e, he, ha⟩ := h.made key r answer hu
      have hresult : g.resultOf r = .ok (g.current answer) := by
        rw [Governor.resultOf, he, Option.bind_some, ha]
      refine ⟨g.keyCache, ?_, hsame⟩
      rw [hr]
      dsimp only
      rw [ok_bind, hresult]
      cases sameCall { key := key, request := text, outcome := outcome } r <;> rfl
    | none =>
      obtain ⟨cache, hrec, hkept⟩ := h.looked hu (bindable_of_requireKey hkey)
      refine ⟨cache, ?_, hkept⟩
      rw [hrec]
      cases g.keys.get? key with
      | none => rfl
      | some r =>
        dsimp only
        rw [ok_bind]
        cases sameCall { key := key, request := text, outcome := outcome } r with
        | error e => rfl
        | ok u =>
          have hresult : Governor.resultOf { g with keyCache := cache } r = g.resultOf r := rfl
          rw [ok_bind, ok_bind, hresult]
          cases g.resultOf r <;> rfl

/-- What a call is when it is looked up under a key that was not used. -/
theorem lookUp_replayed {key : Text} {outcome : Outcome} {request : Request} {call : Call}
    (hc : g.lookUp key outcome request = .ok call) : call.key = key ∧ call.outcome = outcome ∧
      request.text = .ok call.request ∧ (call.replayed = none ↔ g.keys.get? key = none) ∧
      bindable key = true := by
  unfold lookUp at hc
  obtain ⟨text, htext, hc⟩ := bind_eq_ok.mp hc
  obtain ⟨u, hkey, htext⟩ := bind_eq_ok.mp htext
  have hbound := bindable_of_requireKey hkey
  have htext := lift_eq_ok.mp htext
  cases hr : g.keys.get? key with
  | none =>
    rw [hr] at hc
    cases hc
    exact ⟨rfl, rfl, htext, by simp, hbound⟩
  | some r =>
    rw [hr] at hc
    obtain ⟨u, -, hc⟩ := bind_eq_ok.mp hc
    obtain ⟨answer, -, hc⟩ := bind_eq_ok.mp hc
    cases hc
    exact ⟨rfl, rfl, htext, by simp, hbound⟩

/-- A key that is looked up may be used. -/
theorem requireKey_of_lookUp {key : Text} {outcome : Outcome} {request : Request} {call : Call}
    (hc : g.lookUp key outcome request = .ok call) : requireKey key = .ok PUnit.unit.{1} := by
  obtain ⟨text, htext, -⟩ := bind_eq_ok.mp hc
  obtain ⟨u, hkey, -⟩ := bind_eq_ok.mp htext
  exact hkey

/-- A call under no key is made. -/
theorem run_program_none {a : Asked} {body : Option Call → Op Answer} (hkey : a.key = none) :
    (a.program body).run (handle w) g = (body none).run (handle w) g := by
  rw [Asked.program, hkey]
  rfl

/-- A call under a key is looked up, and made if it was not. -/
theorem Kept.run_program (h : g.Kept) {a : Asked} {key : Text} (hkey : a.key = some key)
    (body : Option Call → Op Answer) : ∃ cache, Governor.Kept { g with keyCache := cache } ∧
      (a.program body).run (handle w) g =
        match g.lookUp key a.outcome a.request with
        | .error e => (.error e, { g with keyCache := cache })
        | .ok call =>
          match call.replayed with
          | some answer => (.ok answer, { g with keyCache := cache })
          | none => (body (some call)).run (handle w) { g with keyCache := cache } := by
  obtain ⟨cache, hcalled, hkept⟩ := h.called key a.outcome a.request
  refine ⟨cache, hkept, ?_⟩
  have hi : handle w _ (.called (some key) a.outcome ⟨a.request.operation, a.request.arguments⟩) g =
      ((g.lookUp key a.outcome a.request).map some, { g with keyCache := cache }) := hcalled
  rw [Asked.program, Op.keyed, hkey, Program.instr_bind, Program.run_perform, hi]
  cases g.lookUp key a.outcome a.request with
  | error e => rfl
  | ok call =>
    change Program.run (handle w) (match call.replayed with
      | some answer => pure answer
      | none => body (some call)) { g with keyCache := cache } = _
    dsimp only
    cases call.replayed <;> rfl

end Governor

end AgentGov
