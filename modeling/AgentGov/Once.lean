import AgentGov.Serving

/-!
# Calls made once

A call under an idempotency key is recorded with the entries of its work, and looked up by every
later call under that key: the same call is answered from its record, another is refused. In any run
of calls, batches and blocks, over a store or without one, a record is there exactly where a call
whose work stands made it, and no two calls whose work stands are recorded under one key.

## Main definitions

* `AgentGov.Turn.Records`: a call is recorded under a key.
* `AgentGov.Turn.Obeys`: a call under a key is made, answered from its record or refused.
* `AgentGov.ExactlyOnce`: what a run of orders keeps of the keys used in it.

## Main results

* `AgentGov.Turn.obeys`: every call obeys its key.
* `AgentGov.keys_exactly_once`: every run does.
-/

open Foundation

namespace AgentGov

variable {w : World} {unit : Unit} {c : Chain} {g t : Governor}

namespace Turn

/-- Whether a call asks for something under a key, its own arguments accepted. -/
def Asks (turn : Turn) (key : Text) (a : Asked) : Prop :=
  turn.call.asked turn.before.ledger.state.unit = some (.ok a) ∧ a.key = some key

/-- Whether a call is recorded under a key that was not used: its request, and an entry it wrote
that holds what it returned. -/
structure Records (w : World) (turn : Turn) (key : Text) (r : IdempotencyRecord) : Prop where
  asks : ∃ a, turn.Asks key a ∧ a.request.text = .ok r.request
  unused : turn.before.keys.get? key = none
  recorded : (turn.after w).keys.get? key = some r
  wrote : ∃ new e answer, (turn.after w).ledger.entries = turn.before.ledger.entries ++ new ∧
    e ∈ new ∧ e.sequence = r.sequence ∧ (turn.after w).answerIn r e = some answer ∧
    (turn.result w = .ok answer ∨ ∃ x, turn.result w = .error x)

/-- Whether a call leaves the ledger and what is recorded of calls as they were. -/
def Unchanged (w : World) (turn : Turn) : Prop :=
  (turn.after w).ledger = turn.before.ledger ∧ (turn.after w).keys = turn.before.keys

/-- Whether a call is refused: it raises, or returns that it is refused, nothing is recorded of
it, and nothing is left in the ledger of it but what its refusal leaves. -/
structure Refused (w : World) (turn : Turn) : Prop where
  result : turn.result w = .ok .refused ∨ ∃ x, turn.result w = .error x
  keys : (turn.after w).keys = turn.before.keys
  wrote : ∃ new, (turn.after w).ledger.entries = turn.before.ledger.entries ++ new ∧
    ∀ e ∈ new, e.entryType ∈ turn.call.residue

/-- What comes of a call that may be under a key. -/
structure Obeys (w : World) (turn : Turn) : Prop where
  /-- One whose own arguments are refused raises so, whatever its key was used for. -/
  rejected : ∀ x, turn.call.asked turn.before.ledger.state.unit = some (.error x) →
    turn.result w = .error x ∧ turn.Unchanged w
  /-- Under a key that was used, nothing is done. -/
  used : ∀ key a r, turn.Asks key a → turn.before.keys.get? key = some r → turn.Unchanged w
  /-- The call recorded under its key is answered from the record. -/
  retried : ∀ key a r, turn.Asks key a → turn.before.keys.get? key = some r →
    a.request.text = .ok r.request → ∃ e answer,
      turn.before.ledger.entry r.sequence = some e ∧ turn.before.answerIn r e = some answer ∧
        turn.result w = .ok answer
  /-- Another call under the key is refused. -/
  conflicting : ∀ key a r text, turn.Asks key a → turn.before.keys.get? key = some r →
    a.request.text = .ok text → text ≠ r.request →
      turn.result w = .error (.idempotencyConflict key r.request)
  /-- Under a key that was not used, a call is recorded, or refused. -/
  made : ∀ key a, turn.Asks key a → turn.before.keys.get? key = none →
    (∃ r, turn.Records w key r ∧ (turn.after w).keys = turn.before.keys.set key r) ∨
      turn.Refused w
  /-- Nothing is recorded of a call under no key. -/
  unkeyed : (∀ key a, ¬turn.Asks key a) → (turn.after w).keys = turn.before.keys

section Obeying

variable {turn : Turn} {key : Text} {a : Asked} {r : IdempotencyRecord} {text : Text}

/-- What the lookup of a used key finds. -/
theorem lookUp_of_used {outcome : Outcome} {request : Request}
    (hr : g.keys.get? key = some r) (hkey : Governor.requireKey key = .ok PUnit.unit.{1})
    (htext : request.text = .ok text) :
    g.lookUp key outcome request = (do
      Governor.sameCall { key := key, request := text, outcome := outcome } r
      .ok { key := key, request := text, outcome := outcome,
            replayed := some (← g.resultOf r) }) := by
  rw [Governor.lookUp, hkey, htext]
  simp only [ok_bind, hr]
  rfl

/-- A call under a key is refused by its lookup, answered by it, or made. -/
theorem came_asks (hcame : turn.before.Came turn.call (turn.result w) (turn.after w))
    (hasks : turn.Asks key a) :
    (∃ e, turn.before.lookUp key a.outcome a.request = .error e ∧ turn.result w = .error e ∧
      turn.Unchanged w) ∨
    (∃ call answer, turn.before.lookUp key a.outcome a.request = .ok call ∧
      call.replayed = some answer ∧ turn.result w = .ok answer ∧ turn.Unchanged w) ∨
    ∃ call cache, turn.before.lookUp key a.outcome a.request = .ok call ∧
      turn.before.keys.get? key = none ∧
      Governor.Settled turn.call.residue { turn.before with keyCache := cache } (some call)
        (turn.result w) (turn.after w) := by
  obtain ⟨hasked, hkey⟩ := hasks
  generalize hres : turn.result w = res at hcame
  generalize haft : turn.after w = after at hcame
  cases hcame with
  | plain asked idle => rw [hasked] at asked; cases asked
  | rejected asked => rw [hasked] at asked; cases asked
  | unkeyed asked key' settled =>
    rw [hasked] at asked
    cases asked
    rw [hkey] at key'
    cases key'
  | conflict cache asked key' lookUp kept =>
    rw [hasked] at asked
    cases asked
    rw [hkey] at key'
    cases key'
    exact Or.inl ⟨_, lookUp, rfl, by rw [Unchanged, haft]; exact ⟨rfl, rfl⟩⟩
  | retried cache asked key' lookUp replayed kept =>
    rw [hasked] at asked
    cases asked
    rw [hkey] at key'
    cases key'
    exact Or.inr (Or.inl ⟨_, _, lookUp, replayed, rfl, by rw [Unchanged, haft]; exact ⟨rfl, rfl⟩⟩)
  | made cache asked key' lookUp unused kept settled =>
    rw [hasked] at asked
    cases asked
    rw [hkey] at key'
    cases key'
    exact Or.inr (Or.inr ⟨_, cache, lookUp, unused, settled⟩)

/-- A call that was made is recorded, or refused. -/
theorem records_of_settled {call : Call} {cache : Dict Text (Option IdempotencyRecord)}
    (hasks : turn.Asks key a) (hafter : (turn.after w).Sound w unit c)
    (hlook : turn.before.lookUp key a.outcome a.request = .ok call)
    (unused : turn.before.keys.get? key = none)
    (settled : Governor.Settled turn.call.residue { turn.before with keyCache := cache }
      (some call) (turn.result w) (turn.after w)) :
    (∃ r, turn.Records w key r ∧ (turn.after w).keys = turn.before.keys.set key r) ∨
      turn.Refused w := by
  obtain ⟨hname, -, htext, -, -⟩ := Governor.lookUp_replayed hlook
  rcases settled.cases hafter with ⟨hquiet, hleaves⟩ | ⟨answer, hreturns, hrecorded⟩
  · exact Or.inr ⟨hquiet, hleaves.keys, hleaves.written⟩
  · obtain ⟨new, e, hnew, he, hkeys, -, hanswer⟩ := hrecorded.keyed call rfl
    rw [hname] at hkeys
    refine Or.inl ⟨Governor.record call e, ⟨⟨a, hasks, htext⟩, unused, ?_, ?_⟩, hkeys⟩
    · rw [hkeys, Dict.get?_set_self]
    · exact ⟨new, e, answer, hnew, he, rfl, hanswer, hreturns⟩

/-- Every call obeys its key. -/
theorem obeys (hkept : turn.before.Kept) (hafter : (turn.after w).Sound w unit c)
    (hvalid : ∀ key r, turn.before.keys.get? key = some r →
      Governor.requireKey key = .ok PUnit.unit.{1}) : turn.Obeys w := by
  have hcame : turn.before.Came turn.call (turn.result w) (turn.after w) := hkept.came w turn.call
  refine ⟨fun x hx => ?_, fun key a r hasks hr => ?_, fun key a r hasks hr htext => ?_,
    fun key a r text hasks hr htext hne => ?_, fun key a hasks hnone => ?_, fun hno => ?_⟩
  · have hruns : turn.before.perform w turn.call = (.error x, turn.before) :=
      Governor.runs_of_asked (w := w) hx turn.before rfl
    rw [Unchanged, result, after, hruns]
    exact ⟨rfl, rfl, rfl⟩
  · rcases came_asks hcame hasks with ⟨-, -, -, hsame⟩ | ⟨-, -, -, -, -, hsame⟩ |
        ⟨-, -, -, hnone, -⟩
    · exact hsame
    · exact hsame
    · rw [hr] at hnone
      cases hnone
  · have hlook : turn.before.lookUp key a.outcome a.request = _ :=
      lookUp_of_used hr (hvalid key r hr) htext
    obtain ⟨e, answer, he, ha, hresult⟩ := hkept.resultOf hr
    rw [Governor.sameCall, if_pos rfl, ok_bind, hresult, ok_bind] at hlook
    rcases came_asks hcame hasks with ⟨x, hx, -⟩ | ⟨call, answer', hc, hreplay, hres, -⟩ |
        ⟨call, cache, -, hnone, -⟩
    · rw [hlook] at hx
      cases hx
    · rw [hlook, Except.ok.injEq] at hc
      subst hc
      cases hreplay
      exact ⟨e, answer, he, ha, hres⟩
    · rw [hr] at hnone
      cases hnone
  · have hlook : turn.before.lookUp key a.outcome a.request = _ :=
      lookUp_of_used hr (hvalid key r hr) htext
    rw [Governor.sameCall, if_neg (Ne.symm hne)] at hlook
    rcases came_asks hcame hasks with ⟨x, hx, hres, -⟩ | ⟨call, answer', hc, -⟩ |
        ⟨call, cache, -, hnone, -⟩
    · rw [hlook] at hx
      cases hx
      exact hres
    · rw [hlook] at hc
      cases hc
    · rw [hr] at hnone
      cases hnone
  · rcases came_asks hcame hasks with ⟨x, -, hres, hledger, hkeys⟩ | ⟨call, answer, hc, hreplay, -⟩ |
        ⟨call, cache, hlook, -, settled⟩
    · refine Or.inr ⟨Or.inr ⟨x, hres⟩, hkeys, [], ?_, fun _ h => (List.not_mem_nil h).elim⟩
      rw [hledger, List.append_nil]
    · have hused := (Governor.lookUp_replayed hc).2.2.2.1.mpr hnone
      rw [hused] at hreplay
      cases hreplay
    · exact records_of_settled hasks hafter hlook hnone settled
  · generalize hres : turn.result w = res at hcame
    generalize haft : turn.after w = u at hcame hafter ⊢
    cases hcame with
    | plain asked idle => exact idle.keys
    | rejected asked => rfl
    | unkeyed asked key settled =>
      rcases settled.cases hafter with ⟨-, leaves⟩ | ⟨answer, -, recorded⟩
      · exact leaves.keys
      · exact (recorded.unkeyed rfl).1
    | conflict cache asked key lookUp kept => rfl
    | retried cache asked key lookUp replayed kept => rfl
    | made cache asked key lookUp unused kept settled => exact absurd ⟨asked, key⟩ (hno _ _)

/-- A record is one there was before a call, or the call's own. -/
theorem Obeys.keys_after (h : turn.Obeys w) (key : Text) (r : IdempotencyRecord) :
    (turn.after w).keys.get? key = some r ↔
      turn.before.keys.get? key = some r ∨ turn.Records w key r := by
  have same (hkeys : (turn.after w).keys = turn.before.keys) :
      (turn.after w).keys.get? key = some r ↔
        turn.before.keys.get? key = some r ∨ turn.Records w key r := by
    rw [hkeys, or_iff_left fun hrec => ?_]
    have hrecorded := hrec.recorded
    rw [hkeys, hrec.unused] at hrecorded
    cases hrecorded
  by_cases hasks : ∃ k a, turn.Asks k a
  · obtain ⟨k, a, hasks⟩ := hasks
    cases hk : turn.before.keys.get? k with
    | some r₀ => exact same (h.used k a r₀ hasks hk).2
    | none =>
      rcases h.made k a hasks hk with ⟨r₀, hrec, hkeys⟩ | hrefused
      · refine ⟨fun hr => ?_, fun hr => hr.elim (fun hr => ?_) Records.recorded⟩
        · rw [hkeys, Dict.get?_set] at hr
          split_ifs at hr with hkey
          · cases hr
            exact Or.inr (hkey ▸ hrec)
          · exact Or.inl hr
        · rw [hkeys, Dict.get?_set, if_neg fun hkey => ?_, hr]
          rw [hkey, hk] at hr
          cases hr
      · exact same hrefused.keys
  · exact same (h.unkeyed fun k a hk => hasks ⟨k, a, hk⟩)

end Obeying

end Turn

namespace Governor

/-- Whether every key that is used may be used. -/
def Valid (g : Governor) : Prop :=
  ∀ key r, g.keys.get? key = some r → requireKey key = .ok PUnit.unit.{1}

theorem Adds.valid (h : g.Adds t) (hg : g.Valid) : t.Valid := by
  intro key r hr
  rcases h key with hsame | ⟨-, hkey, -⟩
  · exact hg key r (hsame ▸ hr)
  · exact hkey

section Runs

variable (w : World)

/-- The calls a run of orders makes. -/
def made : Governor → List Order → List Turn
  | _, [] => []
  | g, o :: rest =>
    g.turns w o ++
      match g.serve w o with
      | .ok g => made g rest
      | .error _ => []

/-- The calls of a run of orders whose work stands. -/
def standing : Governor → List Order → List Turn
  | _, [] => []
  | g, o :: rest =>
    (if g.stands w o then g.turns w o else []) ++
      match g.serve w o with
      | .ok g => standing g rest
      | .error _ => []

end Runs

/-- Whether two calls are not recorded under one key. -/
def Apart (w : World) (turn turn' : Turn) : Prop :=
  ∀ key r r', turn.Records w key r → ¬turn'.Records w key r'

namespace Goes

variable {turns : List Turn}

/-- Every call obeys its key. -/
theorem obeys (h : Goes w g turns t) (hg : g.Orderly w unit) (hvalid : g.Valid)
    (distinct : w.Distinct t.draws) : ∀ turn ∈ turns, turn.Obeys w := by
  intro turn hturn
  obtain ⟨hbefore, hafter⟩ := h.forall_turns hg turn hturn
  have hperform := Onward.perform (w := w) hbefore.orderly turn.call
  have hdist := distinct.mono hafter.draws
  obtain ⟨c, hc⟩ := hperform.sound hdist
  have hdist' := hdist.mono hperform.draws
  exact Turn.obeys (hbefore.kept hdist') hc ((hbefore.adds hdist').valid hvalid)

/-- The records are those there were, and those of the calls. -/
theorem keys_iff (h : Goes w g turns t) (hg : g.Orderly w unit) (hvalid : g.Valid)
    (distinct : w.Distinct t.draws) (key : Text) (r : IdempotencyRecord) :
    t.keys.get? key = some r ↔
      g.keys.get? key = some r ∨ ∃ turn ∈ turns, turn.Records w key r := by
  have hobeys := h.obeys hg hvalid distinct
  induction h with
  | @stay g t same kept =>
    have hkeys : t.keys = g.keys := (congrArg Governor.keys same).symm
    rw [hkeys]
    simp
  | @turn g u t m turns same kept rest ih =>
    have hu := Onward.same hg same kept
    have hm := Onward.perform (w := w) hu.orderly m
    have hdist := distinct.mono (rest.onward hm.orderly).draws
    have hvalid' := ((hu.trans hm).adds hdist).valid hvalid
    have hkeys : u.keys = g.keys := (congrArg Governor.keys same).symm
    have hrest := ih hm.orderly hvalid' distinct fun x hx => hobeys x (List.mem_cons_of_mem _ hx)
    have hone := (hobeys ⟨u, m⟩ List.mem_cons_self).keys_after key r
    rw [Turn.after] at hone
    refine hrest.trans ?_
    rw [hone, List.exists_mem_cons_iff, ← hkeys, or_assoc]

/-- No two calls are recorded under one key. -/
theorem apart (h : Goes w g turns t) (hg : g.Orderly w unit) (distinct : w.Distinct t.draws) :
    turns.Pairwise (Apart w) := by
  induction h with
  | stay same kept => exact .nil
  | @turn g u t m turns same kept rest ih =>
    have hu := Onward.same hg same kept
    have hm := Onward.perform (w := w) hu.orderly m
    refine .cons (fun later hlater key r r' hr hr' => ?_) (ih hm.orderly distinct)
    obtain ⟨hbefore, hafter⟩ := rest.forall_turns hm.orderly later hlater
    have hdist := distinct.mono ((Onward.perform hbefore.orderly _).trans hafter).draws
    have hkept := (hbefore.adds hdist).kept hr.recorded
    rw [hr'.unused] at hkept
    cases hkept

end Goes

/-! ### Runs of orders -/

variable {o : Order} {orders : List Order}

theorem Reverted.grows (h : g.Reverted t) : g.ledger.entries <+: t.ledger.entries := by
  obtain ⟨trips, htrips, -⟩ := h.entries
  exact ⟨trips, htrips.symm⟩

/-- An order keeps the history and what is recorded. -/
theorem serve_adds (hg : g.Orderly w unit) (hs : g.serve w o = .ok t)
    (distinct : w.Distinct t.draws) :
    g.ledger.entries <+: t.ledger.entries ∧ g.Adds t := by
  cases hstands : g.stands w o with
  | true =>
    have hon := (serve_stands hs hstands).onward hg
    exact ⟨hon.grows, hon.adds distinct⟩
  | false =>
    have hrev := (serve_reverts hg hs hstands distinct).1
    exact ⟨hrev.grows, fun key => Or.inl (hrev.keys key)⟩

theorem serveAll_grows (hg : g.Orderly w unit) (hs : g.serveAll w orders = .ok t)
    (distinct : w.Distinct t.draws) : g.ledger.entries <+: t.ledger.entries := by
  induction orders generalizing g with
  | nil =>
    cases hs
    exact List.prefix_rfl
  | cons o rest ih =>
    obtain ⟨u, hu, hs⟩ := bind_eq_ok.mp hs
    have hu' := hg.serve hu
    exact (serve_adds hg hu (distinct.mono (serveAll_draws hu' hs))).1.trans (ih hu' hs)

/-- Every call of a run obeys its key. -/
theorem obeys_of_made (hg : g.Orderly w unit) (hvalid : g.Valid)
    (hs : g.serveAll w orders = .ok t) (distinct : w.Distinct t.draws) :
    ∀ turn ∈ g.made w orders, turn.Obeys w := by
  induction orders generalizing g with
  | nil => exact fun _ h => (List.not_mem_nil h).elim
  | cons o rest ih =>
    obtain ⟨u, hu, hs⟩ := bind_eq_ok.mp hs
    have hu' := hg.serve hu
    have hdist := distinct.mono (serveAll_draws hu' hs)
    intro turn hturn
    rw [made, hu, List.mem_append] at hturn
    rcases hturn with hturn | hturn
    · obtain ⟨v, hgoes, hdraws, -⟩ := serve_goes hu
      exact hgoes.obeys hg hvalid (hdist.mono hdraws) turn hturn
    · exact ih hu' ((serve_adds hg hu hdist).2.valid hvalid) hs turn hturn

/-- The records are those there were, and those of the calls whose work stands. -/
theorem keys_of_standing (hg : g.Orderly w unit) (hvalid : g.Valid)
    (hs : g.serveAll w orders = .ok t) (distinct : w.Distinct t.draws) (key : Text)
    (r : IdempotencyRecord) : t.keys.get? key = some r ↔
      g.keys.get? key = some r ∨ ∃ turn ∈ g.standing w orders, turn.Records w key r := by
  induction orders generalizing g with
  | nil =>
    cases hs
    simp [standing]
  | cons o rest ih =>
    obtain ⟨u, hu, hs⟩ := bind_eq_ok.mp hs
    have hu' := hg.serve hu
    have hdist := distinct.mono (serveAll_draws hu' hs)
    have hrest := ih hu' ((serve_adds hg hu hdist).2.valid hvalid) hs
    rw [standing, hu, hrest]
    simp only [List.mem_append, or_and_right, exists_or]
    rw [← or_assoc]
    refine or_congr_left ?_
    cases hstands : g.stands w o with
    | true =>
      rw [if_pos rfl]
      exact (serve_stands hu hstands).keys_iff hg hvalid hdist key r
    | false =>
      rw [if_neg (by simp), (serve_reverts hg hu hstands hdist).1.keys]
      simp

/-- What is recorded is recorded before every later call whose work stands. -/
theorem kept_of_standing (hg : g.Orderly w unit) (hs : g.serveAll w orders = .ok t)
    (distinct : w.Distinct t.draws) {key : Text} {r : IdempotencyRecord}
    (hr : g.keys.get? key = some r) :
    ∀ turn ∈ g.standing w orders, turn.before.keys.get? key = some r := by
  induction orders generalizing g with
  | nil => exact fun _ h => (List.not_mem_nil h).elim
  | cons o rest ih =>
    obtain ⟨u, hu, hs⟩ := bind_eq_ok.mp hs
    have hu' := hg.serve hu
    have hdist := distinct.mono (serveAll_draws hu' hs)
    intro turn hturn
    rw [standing, hu, List.mem_append] at hturn
    rcases hturn with hturn | hturn
    · split_ifs at hturn with hstands
      · obtain ⟨hbefore, hafter⟩ := (serve_stands hu hstands).forall_turns hg turn hturn
        have hperform := Onward.perform (w := w) hbefore.orderly turn.call
        exact (hbefore.adds (hdist.mono (hperform.draws.trans hafter.draws))).kept hr
      · exact (List.not_mem_nil hturn).elim
    · exact ih hu' hs ((serve_adds hg hu hdist).2.kept hr) turn hturn

/-- No two calls whose work stands are recorded under one key. -/
theorem standing_apart (hg : g.Orderly w unit) (hs : g.serveAll w orders = .ok t)
    (distinct : w.Distinct t.draws) : (g.standing w orders).Pairwise (Apart w) := by
  induction orders generalizing g with
  | nil => exact .nil
  | cons o rest ih =>
    obtain ⟨u, hu, hs⟩ := bind_eq_ok.mp hs
    have hu' := hg.serve hu
    have hdist := distinct.mono (serveAll_draws hu' hs)
    rw [standing, hu]
    refine List.pairwise_append.mpr ⟨?_, ih hu' hs, fun turn hturn later hlater => ?_⟩
    · split_ifs with hstands
      · exact (serve_stands hu hstands).apart hg hdist
      · exact .nil
    · split_ifs at hturn with hstands
      · obtain ⟨-, hafter⟩ := (serve_stands hu hstands).forall_turns hg turn hturn
        intro key r r' hr hr'
        have hkept := kept_of_standing hu' hs distinct ((hafter.adds hdist).kept hr.recorded) later
          hlater
        rw [hr'.unused] at hkept
        cases hkept
      · exact (List.not_mem_nil hturn).elim

/-- What a call whose work stands has written stays. -/
theorem standing_grows (hg : g.Orderly w unit) (hs : g.serveAll w orders = .ok t)
    (distinct : w.Distinct t.draws) :
    ∀ turn ∈ g.standing w orders, (turn.after w).ledger.entries <+: t.ledger.entries := by
  induction orders generalizing g with
  | nil => exact fun _ h => (List.not_mem_nil h).elim
  | cons o rest ih =>
    obtain ⟨u, hu, hs⟩ := bind_eq_ok.mp hs
    have hu' := hg.serve hu
    intro turn hturn
    rw [standing, hu, List.mem_append] at hturn
    rcases hturn with hturn | hturn
    · split_ifs at hturn with hstands
      · obtain ⟨-, hafter⟩ := (serve_stands hu hstands).forall_turns hg turn hturn
        exact hafter.grows.trans (serveAll_grows hu' hs distinct)
      · exact (List.not_mem_nil hturn).elim
    · exact ih hu' hs turn hturn

end Governor

open Governor

/-- What a run of orders keeps of the keys used in it. -/
structure ExactlyOnce (w : World) (g : Governor) (orders : List Order) (t : Governor) : Prop where
  /-- A key is recorded where a call whose work stands was recorded under it. -/
  recorded : ∀ key r, t.keys.get? key = some r ↔
    ∃ turn ∈ g.standing w orders, turn.Records w key r
  /-- At most one such call is. -/
  once : (g.standing w orders).Pairwise (Apart w)
  /-- What it wrote is in the chain. -/
  stays : ∀ turn ∈ g.standing w orders, (turn.after w).ledger.entries <+: t.ledger.entries
  /-- Every call, its work committed or undone, is made once, answered from its record or
  refused. -/
  obeys : ∀ turn ∈ g.made w orders, turn.Obeys w
  /-- An order that is undone leaves the records as they were, and nothing in the chain but
  trips. -/
  reverts : ∀ early o late u v, orders = early ++ o :: late → g.serveAll w early = .ok u →
    u.serve w o = .ok v → u.stands w o = false → u.Reverted v

/-- A run of calls, batches and blocks, over a store or without one, makes each call under a key
exactly once. -/
theorem keys_exactly_once (w : World) (unit : Unit) (policy : GovernancePolicy) (store : Bool)
    (orders : List Order) (t : Governor)
    (served : (Governor.new unit policy store).serveAll w orders = .ok t)
    (distinct : w.Distinct t.draws) :
    ExactlyOnce w (Governor.new unit policy store) orders t := by
  have hg := Orderly.new w unit policy store
  have hvalid : (Governor.new unit policy store).Valid := fun _ _ h => by cases h
  refine ⟨fun key r => ?_, standing_apart hg served distinct, standing_grows hg served distinct,
    obeys_of_made hg hvalid served distinct, ?_⟩
  · have hnone : (Governor.new unit policy store).keys.get? key ≠ some r := by
      intro h
      cases h
    rw [keys_of_standing hg hvalid served distinct key r, or_iff_right hnone]
  · rintro early o late u v rfl hu hv hstands
    rw [serveAll, List.foldlM_append] at served
    obtain ⟨u', hu', hrest⟩ := bind_eq_ok.mp served
    obtain ⟨v', hv', hlate⟩ := bind_eq_ok.mp hrest
    have hsame : u' = u := Except.ok.inj (hu'.symm.trans hu)
    subst hsame
    have hsame' : v' = v := Except.ok.inj (hv'.symm.trans hv)
    subst hsame'
    have hord := hg.serveAll hu
    exact (serve_reverts hord hv hstands
      (distinct.mono (serveAll_draws (hord.serve hv) hlate))).1

/-- A root opened and topped up under a key, the top-up retried, and a block that raises after one
under another key. -/
def sampleOrders : List Order :=
  [.batch [[.openRoot (txt "a") (wholeAmount 10) [], .fund (txt "a") (wholeAmount 1) [] (some (txt "k"))]],
   .alone (.fund (txt "a") (wholeAmount 1) [] (some (txt "k"))),
   .block
    { calls := [⟨.fund (txt "a") (wholeAmount 2) [] (some (txt "l")), false⟩]
      raises := some (.callers (txt "KeyError")) }]

theorem sampleOrders_draws : ((((Governor.new USD samplePolicy true).serveAll sampleWorld
    sampleOrders).toOption.map Governor.draws).any (· ≤ 2 ^ 128)) = true := by
  decide +kernel

theorem keys_exactly_once_sampleOrders : ∃ t,
    (Governor.new USD samplePolicy true).serveAll sampleWorld sampleOrders = .ok t ∧
      ExactlyOnce sampleWorld (Governor.new USD samplePolicy true) sampleOrders t := by
  have hdraws := sampleOrders_draws
  cases hs : (Governor.new USD samplePolicy true).serveAll sampleWorld sampleOrders with
  | error e =>
    rw [hs] at hdraws
    cases hdraws
  | ok t =>
    rw [hs] at hdraws
    exact ⟨t, rfl, keys_exactly_once sampleWorld USD samplePolicy true sampleOrders t hs
      (sampleWorld_distinct (of_decide_eq_true hdraws))⟩

/-- Whether every other call under a key that was used raises that it was. -/
def Conflicts (w : World) (g : Governor) : Prop :=
  ∀ m key r, m.key = some key → g.keys.get? key = some r →
    (∀ a, m.asked g.ledger.state.unit = some (.ok a) → a.request.text ≠ .ok r.request) →
      (g.call w m).1 = .error (.idempotencyConflict key r.request)

/-- A root opened, and topped up under a key. -/
def usedKey : Governor :=
  ((Governor.new USD samplePolicy false).callAll sampleWorld
    [.openRoot (txt "a") (wholeAmount 10) [],
     .fund (txt "a") (wholeAmount 1) [] (some (txt "k"))]).2

/-- A top-up that is refused for its amount, under the key. -/
def refusedFund : Mutation := .fund (txt "a") (wholeAmount (-5)) [] (some (txt "k"))

theorem usedKey_not_conflicts : ¬Conflicts sampleWorld usedKey := by
  have hrun : (usedKey.keys.get? (txt "k")).isSome = true ∧ usedKey.ledger.state.unit = USD ∧
      (usedKey.call sampleWorld refusedFund).1 =
        .error (.value (.fundingNotPositive (.finite true 500000000 (-8)))) := by decide +kernel
  obtain ⟨hkey, hunit, hresult⟩ := hrun
  obtain ⟨r, hr⟩ := Option.isSome_iff_exists.mp hkey
  have hnone : (refusedFund.asked USD).bind Except.toOption = none := by decide +kernel
  intro h
  have hraises := h refusedFund (txt "k") r rfl hr fun a ha => by
    rw [hunit] at ha
    rw [ha] at hnone
    cases hnone
  rw [hraises] at hresult
  cases hresult

end AgentGov
