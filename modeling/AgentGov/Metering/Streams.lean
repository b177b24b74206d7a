import AgentGov.Metering.Interceptor

/-!
# Metered streams

A stream places its hold when it is entered, merges the usage its events report, and resolves the
hold on its way out (`src/src/agentgov/streaming.py`, lines 60–330, 429–499 and 580–643). Entering
is taken in two steps, up to the hold and from there: what opens the stream may use the object
itself, and may be awaited.

## Main definitions

* `AgentGov.Metering.StreamCore`, `AgentGov.Metering.MeteredStream`: a stream and its uses.
* `AgentGov.Metering.Session`: a stream in use, with what is claimed of it kept beside it.
* `AgentGov.Metering.Session.Resolved`: every hold is resolved once, at the price of the usage.

## Main results

* `AgentGov.Metering.Session.resolved_run`: a stream that is not entered again once it holds, and
  whose usage can be priced when it is resolved, resolves its hold once.
* `AgentGov.Metering.reentered_not_resolved`: a stream that is entered again strands its hold.
-/

open Foundation

namespace AgentGov.Metering

/-! ### The usage of a stream -/

/-- `_try_usage`: the usage of an event, if it carries any. -/
def tryUsage (extract : Reply → Except ReadFault TokenUsage) (chunk : Reply) :
    Except ReadFault (Option TokenUsage) :=
  match extract chunk with
  | .ok usage => .ok (some usage)
  | .error .other => .error .other
  | .error _ => .ok none

/-- The per-field maximum of usage reports. -/
def TokenUsage.total (reports : List TokenUsage) : TokenUsage where
  inputTokens := (reports.map inputTokens).foldr max 0
  outputTokens := (reports.map outputTokens).foldr max 0
  cacheReadInputTokens := (reports.map cacheReadInputTokens).foldr max 0
  cacheCreationInputTokens := (reports.map cacheCreationInputTokens).foldr max 0

theorem foldr_max_append (l : List ℕ) (n : ℕ) :
    (l ++ [n]).foldr max 0 = max (l.foldr max 0) n := by
  induction l with
  | nil => simp
  | cons m l ih => rw [List.cons_append, List.foldr_cons, List.foldr_cons, ih, max_assoc]

/-- One more report is merged into the total. -/
theorem TokenUsage.total_append (reports : List TokenUsage) (u : TokenUsage) :
    total (reports ++ [u]) = (total reports).merged u := by
  simp only [total, merged, List.map_append, List.map_cons, List.map_nil, foldr_max_append]

/-! ### The core of a stream -/

/-- What a stream was made with. -/
structure StreamConfig where
  scopeId : Text
  hold : Decimal
  pricing : ModelPricing
  extract : Reply → Except ReadFault TokenUsage
  memo : Text
  /-- Whether a cognitive breaker watches the call the stream is opened with. -/
  observed : Bool
  /-- Whether a final message can be compared with a text. -/
  comparable : Reply → Bool

/-- What a use of a stream can raise. -/
inductive StreamFault
  | thrashing
  | refused
  | cancelled
  | opening
  | closing
  | notEntered
  | stopped
  | source
  | read (fault : ReadFault)
  | comparison
  | price (e : Error)
  | governor (e : Exception)

/-- `_StreamCore`: what the sync and async wrappers share. -/
structure StreamCore where
  auth : Option Authorization := none
  entry : Option LedgerEntry := none
  usage : TokenUsage := .none
  settled : Option Decimal := none
  resolved : Bool := false
  final : Option Reply := none
  chunks : ℕ := 0

namespace StreamCore

variable (w : World) (cfg : StreamConfig) (c : StreamCore) (d : Desk)

/-- `record_usage`. -/
def recordUsage (usage : TokenUsage) : StreamCore := { c with usage := c.usage.merged usage }

/-- What a core takes in of a usage that was tried for. -/
def take (found : Except ReadFault (Option TokenUsage)) : Option StreamFault × StreamCore :=
  match found with
  | .ok (some usage) => (none, c.recordUsage usage)
  | .ok none => (none, c)
  | .error fault => (some (.read fault), c)

/-- `absorb`: fold one event's usage into the running total. -/
def absorb (chunk : Reply) : Option StreamFault × StreamCore :=
  { c with chunks := c.chunks + 1 }.take (tryUsage cfg.extract chunk)

/-- `absorb_final`: the usage of the final message, if the source has one. -/
def absorbFinal (final : Option Reply) : Option StreamFault × StreamCore :=
  match final with
  | none => (none, c)
  | some message => { c with final := some message }.take (tryUsage cfg.extract message)

/-- `authorize`: place the hold. Nothing is placed where the governor refuses it. -/
def authorize : Option StreamCore × Desk :=
  match d.authorize w cfg.scopeId cfg.hold (txt "streamed call authorization") with
  | (.ok (.authorization a), d) => (some { c with auth := some a }, d)
  | (_, d) => (none, d)

/-- Whether `_record_result` raises: a final message that is compared with a text may. -/
def recordRaises : Bool :=
  match c.final with
  | none | some .none => false
  | some message => cfg.observed && !cfg.comparable message

/-- `cost <= 0`. A comparison with a NaN is an invalid operation. -/
def notPositive (cost : Decimal) : Except Error Bool :=
  match cost.value? with
  | some v => .ok (decide (v ≤ 0))
  | none => .error .arithmetic

/-- `resolve`, once the hold counts as resolved: settle it at the usage observed, or void it. -/
def charge (a : Authorization) : Option StreamFault × StreamCore × Desk :=
  if c.recordRaises cfg then (some .comparison, c, d)
  else
    match (do let cost ← cfg.pricing.costOf c.usage; .ok (cost, ← notPositive cost)) with
    | .error e => (some (.price e), c, d)
    | .ok (_, true) =>
      match d.settle w (.void a (txt "stream produced no billable usage")) with
      | (.ok _, d) => (none, { c with settled := some (Decimal.ofInt 0) }, d)
      | (.error e, d) => (some (.governor e), c, d)
    | .ok (cost, false) =>
      let c := { c with settled := some cost }
      match d.settle w (.capture a cost cfg.memo) with
      | (.ok (.entry e), d) => (none, { c with entry := some e }, d)
      | (.ok _, d) => (none, c, d)
      | (.error e, d) => (some (.governor e), c, d)

/-- `resolve`: settle or void the hold, if there is one and it is not resolved. With the core and
the governor, what it raises, if anything. -/
def resolve : Option StreamFault × StreamCore × Desk :=
  match c.auth with
  | none => (none, c, d)
  | some a => if c.resolved then (none, c, d) else { c with resolved := true }.charge w cfg d a

end StreamCore

/-! ### Uses of a stream -/

/-- `MeteredStream` or `AsyncMeteredStream`: its core, whether the provider's stream is a context
manager, and whether there is a source to iterate. -/
structure MeteredStream where
  core : StreamCore := {}
  inner : Bool := false
  source : Bool := false

/-- How opening the provider's stream goes. -/
inductive Opening
  /-- The provider's call raises. -/
  | callFails
  /-- Entering its context manager, if it is one, or iterating it raises. -/
  | openFails (inner : Bool)
  | opens (inner : Bool)
deriving DecidableEq

/-- What a source answers to `next`. -/
inductive Event
  | chunk (chunk : Reply)
  /-- The source is exhausted, with what its `get_final_message` returns, if it has one. -/
  | exhausted (final : Option Reply)
  | raises

/-- A use of a stream, and what befalls it; or what others do with the governor. -/
inductive Use
  /-- `__enter__` or `__aenter__`, as far as the hold. -/
  | place (thrashes cancelled : Bool)
  /-- `__enter__` or `__aenter__`, once the hold is placed. -/
  | enter (how : Opening)
  | next (event : Event)
  | recordUsage (usage : TokenUsage)
  | close
  /-- `__exit__` or `__aexit__`, and whether the provider's own raises. -/
  | exit (raises : Bool)
  | others (commands : List Governor.Command)

namespace MeteredStream

variable (w : World) (cfg : StreamConfig) (s : MeteredStream) (d : Desk)

/-- A stream whose hold is resolved, and what that raises over what was raised. -/
def resolve (raised : Option StreamFault) : Option StreamFault × MeteredStream × Desk :=
  let r := s.core.resolve w cfg d
  (r.1 <|> raised, { s with core := r.2.1 }, r.2.2)

/-- `__enter__`, as far as the hold. One that is cancelled while it is placed is resolved. -/
def place (thrashes cancelled : Bool) : Option StreamFault × MeteredStream × Desk :=
  if thrashes then (some .thrashing, s, d)
  else
    match s.core.authorize w cfg d with
    | (none, d) => (some .refused, s, d)
    | (some core, d) =>
      if cancelled then { s with core := core }.resolve w cfg d (some .cancelled)
      else (none, { s with core := core }, d)

/-- `__enter__`, once the hold is placed: what fails to open is resolved. -/
def enter (how : Opening) : Option StreamFault × MeteredStream × Desk :=
  match how with
  | .callFails => s.resolve w cfg d (some .opening)
  | .openFails inner => { s with inner := s.inner || inner }.resolve w cfg d (some .opening)
  | .opens inner => (none, { s with inner := s.inner || inner, source := true }, d)

/-- `__next__`. -/
def next (event : Event) : Option StreamFault × MeteredStream :=
  if s.source then
    match event with
    | .chunk chunk =>
      let r := s.core.absorb cfg chunk
      (r.1, { s with core := r.2 })
    | .exhausted final =>
      let r := s.core.absorbFinal cfg final
      (r.1 <|> some .stopped, { s with core := r.2 })
    | .raises => (some .source, s)
  else (some .notEntered, s)

/-- What a use does to a stream. -/
def use : Use → Option StreamFault × MeteredStream × Desk
  | .place thrashes cancelled => s.place w cfg d thrashes cancelled
  | .enter how => s.enter w cfg d how
  | .next event => ((s.next cfg event).1, (s.next cfg event).2, d)
  | .recordUsage usage => (none, { s with core := s.core.recordUsage usage }, d)
  | .close => s.resolve w cfg d none
  | .exit raises => s.resolve w cfg d (if raises && s.inner then some .closing else none)
  | .others commands => (none, s, d.meanwhile w commands)

end MeteredStream

/-! ### A stream in use -/

/-- The usage reported by what was tried for. -/
def reported : Except ReadFault (Option TokenUsage) → List TokenUsage
  | .ok (some usage) => [usage]
  | _ => []

/-- The usage a use reports. -/
def Use.reports (cfg : StreamConfig) (s : MeteredStream) : Use → List TokenUsage
  | .recordUsage usage => [usage]
  | .next (.chunk chunk) => if s.source then reported (tryUsage cfg.extract chunk) else []
  | .next (.exhausted (some message)) =>
    if s.source then reported (tryUsage cfg.extract message) else []
  | _ => []

/-- What was asked about holds since a desk, each with the usage reported by then. -/
def noted (d d' : Desk) (reports : List TokenUsage) : List (Deed × List TokenUsage) :=
  (d'.deeds.drop d.deeds.length).map fun x => (x, reports)

@[simp] theorem noted_of_eq {d d' : Desk} (h : d'.deeds = d.deeds) (reports : List TokenUsage) :
    noted d d' reports = [] := by
  rw [noted, h, List.drop_length, List.map_nil]

/-- A stream in use, with what is claimed of it kept beside it. -/
structure Session where
  stream : MeteredStream := {}
  desk : Desk
  /-- How many times it is being entered, its hold placed and its source not open yet. -/
  entering : ℕ := 0
  /-- How many `with` blocks on it are open. -/
  blocks : ℕ := 0
  /-- The usage reported so far. -/
  reports : List TokenUsage := []
  /-- What was asked about its holds, each with the usage reported by then. -/
  resolutions : List (Deed × List TokenUsage) := []

/-- A stream that was made. -/
def Session.new (g : Governor) : Session where
  desk := { governor := g }

namespace Session

variable (w : World) (cfg : StreamConfig) (s : Session)

/-- A stream is opened only while it is being entered. -/
def Possible : Use → Prop
  | .enter _ => 0 < s.entering
  | _ => True

instance (u : Use) : Decidable (s.Possible u) := by
  cases u <;> unfold Possible <;> infer_instance

/-- A stream once it has been put to a use. -/
def after (u : Use) : Session :=
  let r := s.stream.use w cfg s.desk u
  { stream := r.2.1
    desk := r.2.2
    entering :=
      match u with
      | .place _ _ => if r.1.isNone then s.entering + 1 else s.entering
      | .enter _ => s.entering - 1
      | _ => s.entering
    blocks :=
      match u with
      | .enter (.opens _) => s.blocks + 1
      | .exit _ => s.blocks - 1
      | _ => s.blocks
    reports := s.reports ++ u.reports cfg s.stream
    resolutions := s.resolutions ++ noted s.desk r.2.2 s.reports }

/-- A stream used once more, if it can be. -/
def step (u : Use) : Session := if s.Possible u then s.after w cfg u else s

/-- A stream used any number of times. -/
def run : Session → List Use → Session := List.foldl (step w cfg)

/-- How often a hold was resolved. -/
def count (a : Authorization) : ℕ := s.resolutions.countP fun r => r.1.ask.hold = a

end Session

/-- Whether a hold was resolved at the price of the usage reported by then: captured where there is
something to pay, voided where there is not. -/
def Priced (cfg : StreamConfig) (r : Deed × List TokenUsage) : Prop :=
  ∃ cost, cfg.pricing.costOf (TokenUsage.total r.2) = .ok cost ∧
    if 0 < cost.worth then r.1.Charges cost else r.1.Frees

/-- Every hold a stream has placed is captured or voided at most once, and exactly once when no
`with` block on it is open, at the price of the per-field maximum of the usage reported before. -/
structure Session.Resolved (cfg : StreamConfig) (s : Session) : Prop where
  all : s.resolutions.map Prod.fst = s.desk.deeds
  once : ∀ a ∈ s.desk.placed, s.count a ≤ 1
  left : s.blocks = 0 → s.entering = 0 → ∀ a ∈ s.desk.placed, s.count a = 1
  priced : ∀ r ∈ s.resolutions, Priced cfg r

/-- Whether the usage of a core can be priced, at no more than the greatest amount, and its final
message can be compared. -/
def StreamCore.Ready (cfg : StreamConfig) (c : StreamCore) : Prop :=
  c.recordRaises cfg = false ∧ ∃ cost q, cfg.pricing.costOf c.usage = .ok cost ∧
    cost.value? = some (.finite q) ∧ q ≤ maxAmount

instance (cfg : StreamConfig) (c : StreamCore) : Decidable (c.Ready cfg) :=
  decidable_of_iff (c.recordRaises cfg = false ∧
      (match cfg.pricing.costOf c.usage with
      | .ok cost =>
        match cost.value? with
        | some (.finite q) => decide (q ≤ maxAmount)
        | _ => false
      | .error _ => false) = true) (by
    unfold StreamCore.Ready
    refine and_congr_right fun _ => ?_
    cases cfg.pricing.costOf c.usage with
    | error e => simp
    | ok cost => rcases hvalue : cost.value? with _ | _ | _ <;> simp [hvalue])

/-- Whether a hold of a core is ready to be resolved, if it is not resolved yet. -/
def StreamCore.Settled (cfg : StreamConfig) (c : StreamCore) : Prop :=
  c.auth.isSome → c.resolved = false → c.Ready cfg

/-- Whether a use places no second hold, and resolves none that cannot be priced. -/
def Session.Heeds (cfg : StreamConfig) (s : Session) : Use → Prop
  | .place thrashes cancelled => thrashes = true ∨
      s.stream.core.auth = none ∧ (cancelled = true → s.stream.core.Ready cfg)
  | .enter .callFails | .enter (.openFails _) | .close | .exit _ => s.stream.core.Settled cfg
  | .enter (.opens _) | .next _ | .recordUsage _ | .others _ => True

instance (cfg : StreamConfig) (c : StreamCore) : Decidable (c.Settled cfg) :=
  inferInstanceAs (Decidable (_ → _ → _))

instance (cfg : StreamConfig) (s : Session) (u : Use) : Decidable (s.Heeds cfg u) := by
  unfold Session.Heeds
  split <;> infer_instance

/-! ### Resolving a hold -/

section Resolving

variable {w : World} {cfg : StreamConfig} {c : StreamCore} {d : Desk} {a : Authorization}

namespace StreamCore

theorem resolve_none (h : c.auth = none) : c.resolve w cfg d = (none, c, d) := by
  rw [resolve, h]

@[simp] theorem usage_resolve : (c.resolve w cfg d).2.1.usage = c.usage := by
  rw [resolve]
  cases c.auth with
  | none => rfl
  | some a =>
    dsimp only
    split_ifs
    · rfl
    · unfold charge
      split_ifs
      · rfl
      · split
        · rfl
        · split <;> rfl
        · dsimp only
          split <;> rfl

theorem resolve_resolved (h : c.resolved = true) : c.resolve w cfg d = (none, c, d) := by
  rw [resolve]
  cases c.auth with
  | none => rfl
  | some a => simp only [h, if_true]

/-- A hold is placed, or refused. -/
theorem authorize_cases (w : World) (cfg : StreamConfig) (c : StreamCore) (d : Desk) :
    (∃ d', c.authorize w cfg d = (none, d') ∧ d'.placed = d.placed ∧ d'.deeds = d.deeds) ∨
      ∃ a d', c.authorize w cfg d = (some { c with auth := some a }, d') ∧
        d'.placed = d.placed ++ [a] ∧ d'.deeds = d.deeds := by
  have hplaced : (d.authorize w cfg.scopeId cfg.hold (txt "streamed call authorization")).2.placed =
    d.placed ++ heldIn (d.authorize w cfg.scopeId cfg.hold
      (txt "streamed call authorization")).1 := rfl
  have hdeeds := d.deeds_authorize w cfg.scopeId cfg.hold (txt "streamed call authorization")
  rw [authorize]
  rcases hd : d.authorize w cfg.scopeId cfg.hold (txt "streamed call authorization") with
    ⟨e | answer, d'⟩ <;> rw [hd] at hplaced hdeeds
  · exact Or.inl ⟨d', rfl, hplaced.trans (List.append_nil _), hdeeds⟩
  · cases answer with
    | authorization a => exact Or.inr ⟨a, d', rfl, hplaced, hdeeds⟩
    | _ => exact Or.inl ⟨d', rfl, hplaced.trans (List.append_nil _), hdeeds⟩

/-- What a core takes in is merged into its usage. -/
theorem take_spec (found : Except ReadFault (Option TokenUsage)) :
    (c.take found).2.auth = c.auth ∧ (c.take found).2.resolved = c.resolved ∧
      ∀ reports, c.usage = TokenUsage.total reports →
        (c.take found).2.usage = TokenUsage.total (reports ++ reported found) := by
  rcases found with fault | _ | usage
  · exact ⟨rfl, rfl, fun reports h => h.trans (congrArg _ (List.append_nil reports).symm)⟩
  · exact ⟨rfl, rfl, fun reports h => h.trans (congrArg _ (List.append_nil reports).symm)⟩
  · exact ⟨rfl, rfl, fun reports h => by rw [reported, TokenUsage.total_append, ← h]; rfl⟩

/-- What resolving a hold that is ready comes to. -/
structure Came (cfg : StreamConfig) (c : StreamCore) (d : Desk) (a : Authorization)
    (c' : StreamCore) (d' : Desk) : Prop where
  auth : c'.auth = some a
  resolved : c'.resolved = true
  usage : c'.usage = c.usage
  placed : d'.placed = d.placed
  deeds : ∃ x, d'.deeds = d.deeds ++ [x] ∧ x.ask.hold = a ∧
    ∃ cost, cfg.pricing.costOf c.usage = .ok cost ∧
      if 0 < cost.worth then x.Charges cost else x.Frees

/-- A core that has asked about its hold. -/
theorem Came.of_settle {ask : Ask} {cost : Decimal} {c' : StreamCore} {d' : Desk}
    (hd : d' = (d.settle w ask).2) (hask : ask.hold = a) (hauth : c'.auth = some a)
    (hresolved : c'.resolved = true) (husage : c'.usage = c.usage)
    (hcost : cfg.pricing.costOf c.usage = .ok cost)
    (hdeed : if 0 < cost.worth then (d.deed w ask).Charges cost else (d.deed w ask).Frees) :
    Came cfg c d a c' d' where
  auth := hauth
  resolved := hresolved
  usage := husage
  placed := by rw [hd, Desk.placed_settle]
  deeds := ⟨d.deed w ask, by rw [hd, Desk.deeds_settle], hask, cost, hcost, hdeed⟩

/-- A hold that is ready is captured at the price of the usage, or voided where that is nothing. -/
theorem charge_ready (hauth : c.auth = some a) (hresolved : c.resolved = true)
    (hready : c.Ready cfg) : Came cfg c d a (c.charge w cfg d a).2.1 (c.charge w cfg d a).2.2 := by
  obtain ⟨hrecord, cost, q, hcost, hvalue, hmax⟩ := hready
  have hworth : cost.worth = .finite q := worth_finite hvalue
  have hprice : (do let cost ← cfg.pricing.costOf c.usage; .ok (cost, ← notPositive cost)) =
      (.ok (cost, decide (q ≤ 0)) : Except Error (Decimal × Bool)) := by
    simp only [hcost, notPositive, hvalue, Value.finite_le_zero, bind, Except.bind]
  by_cases hq : q ≤ 0
  · have hfrees (x : Deed) (hx : x.Frees) : if 0 < cost.worth then x.Charges cost else x.Frees := by
      rwa [if_neg (by simpa [hworth] using hq)]
    rw [decide_eq_true hq] at hprice
    simp only [charge, hrecord, Bool.false_eq_true, if_false, hprice]
    rcases hd : d.settle w (.void a (txt "stream produced no billable usage")) with ⟨_ | _, d'⟩
    · exact .of_settle (congrArg Prod.snd hd).symm rfl hauth hresolved rfl hcost
        (hfrees _ (frees_void d a _))
    · exact .of_settle (congrArg Prod.snd hd).symm rfl hauth hresolved rfl hcost
        (hfrees _ (frees_void d a _))
  · have hpos : 0 < cost.worth := by simpa [hworth] using hq
    have hcharges : if 0 < cost.worth then (d.deed w (.capture a cost cfg.memo)).Charges cost
        else (d.deed w (.capture a cost cfg.memo)).Frees := by
      rw [if_pos hpos]
      cases cost with
      | finite s n e =>
        obtain rfl : Decimal.rat s n e = q := Value.finite.inj (Option.some.inj hvalue)
        obtain ⟨settled, taken, hzero⟩ :=
          cost_finite (not_le.mp hq).le hmax d.governor.ledger.state.unit
        exact charges_taken d a _ hpos.le taken hzero
      | infinity s => cases hvalue
      | nan s b n => cases hvalue
    rw [decide_eq_false hq] at hprice
    simp only [charge, hrecord, Bool.false_eq_true, if_false, hprice]
    rcases hd : d.settle w (.capture a cost cfg.memo) with ⟨_ | answer, d'⟩
    · exact .of_settle (congrArg Prod.snd hd).symm rfl hauth hresolved rfl hcost hcharges
    · cases answer <;>
        exact .of_settle (congrArg Prod.snd hd).symm rfl hauth hresolved rfl hcost hcharges

theorem resolve_ready (hauth : c.auth = some a) (hopen : c.resolved = false)
    (hready : c.Ready cfg) : Came cfg c d a (c.resolve w cfg d).2.1 (c.resolve w cfg d).2.2 := by
  have hcame := charge_ready (w := w) (d := d) (c := { c with resolved := true }) hauth rfl hready
  have hresolve : c.resolve w cfg d = { c with resolved := true }.charge w cfg d a := by
    cases c
    cases hauth
    cases hopen
    rfl
  rw [hresolve]
  exact { hcame with }

end StreamCore

end Resolving

/-! ### What holds of a stream in use -/

/-- Where a stream stands with its hold: none was placed, one is outstanding within a block or
while it is entered, or one was resolved. -/
inductive Stands (cfg : StreamConfig) (c : StreamCore) (d : Desk)
    (resolutions : List (Deed × List TokenUsage)) (inside : ℕ) : Prop
  | idle (auth : c.auth = none) (fresh : c.resolved = false) (placed : d.placed = [])
      (deeds : d.deeds = []) (none : resolutions = [])
  | holding (a : Authorization) (auth : c.auth = some a) (fresh : c.resolved = false)
      (placed : d.placed = [a]) (deeds : d.deeds = []) (none : resolutions = [])
      (within : 0 < inside)
  | resolved (a : Authorization) (x : Deed) (reports : List TokenUsage) (auth : c.auth = some a)
      (stale : c.resolved = true) (placed : d.placed = [a]) (deeds : d.deeds = [x])
      (one : resolutions = [(x, reports)]) (about : x.ask.hold = a) (priced : Priced cfg (x, reports))

namespace Stands

variable {w : World} {cfg : StreamConfig} {c c' : StreamCore} {d d' : Desk}
  {resolutions : List (Deed × List TokenUsage)} {m n : ℕ} {reports : List TokenUsage}

/-- What is no resolution and places nothing leaves a stream where it stands. -/
theorem congr (h : Stands cfg c d resolutions m) (hauth : c'.auth = c.auth)
    (hresolved : c'.resolved = c.resolved) (hplaced : d'.placed = d.placed)
    (hdeeds : d'.deeds = d.deeds) (hmn : m ≤ n) : Stands cfg c' d' resolutions n := by
  cases h with
  | idle auth fresh placed deeds none =>
    exact .idle (hauth.trans auth) (hresolved.trans fresh) (hplaced.trans placed)
      (hdeeds.trans deeds) none
  | holding a auth fresh placed deeds none within =>
    exact .holding a (hauth.trans auth) (hresolved.trans fresh) (hplaced.trans placed)
      (hdeeds.trans deeds) none (by omega)
  | resolved a x reports auth stale placed deeds one about priced =>
    exact .resolved a x reports (hauth.trans auth) (hresolved.trans stale)
      (hplaced.trans placed) (hdeeds.trans deeds) one about priced

/-- A stream that is resolved holds nothing, whether or not a block is open. -/
theorem resolve (h : Stands cfg c d resolutions m) (husage : c.usage = TokenUsage.total reports)
    (hsettled : c.Settled cfg) :
    Stands cfg (c.resolve w cfg d).2.1 (c.resolve w cfg d).2.2
      (resolutions ++ noted d (c.resolve w cfg d).2.2 reports) n := by
  cases h with
  | idle auth fresh placed deeds none =>
    rw [StreamCore.resolve_none auth]
    simp only [noted_of_eq, List.append_nil]
    exact .idle auth fresh placed deeds none
  | holding a auth fresh placed deeds none within =>
    have hcame := StreamCore.resolve_ready (w := w) (d := d) auth fresh
      (hsettled (by simp [auth]) fresh)
    obtain ⟨x, hx, habout, cost, hcost, hprice⟩ := hcame.deeds
    refine .resolved a x reports hcame.auth hcame.resolved (hcame.placed.trans placed)
      (by rw [hx, deeds, List.nil_append]) ?_ habout ⟨cost, husage ▸ hcost, hprice⟩
    rw [none, List.nil_append, noted, hx, deeds]
    rfl
  | resolved a x reports auth stale placed deeds one about priced =>
    rw [StreamCore.resolve_resolved stale]
    simp only [noted_of_eq, List.append_nil]
    exact .resolved a x reports auth stale placed deeds one about priced

end Stands

/-- What holds of a stream in use. -/
structure Session.Inv (cfg : StreamConfig) (s : Session) : Prop where
  usage : s.stream.core.usage = TokenUsage.total s.reports
  stands : Stands cfg s.stream.core s.desk s.resolutions (s.blocks + s.entering)

namespace Session

variable {w : World} {cfg : StreamConfig} {s : Session}

theorem inv_new (g : Governor) : (Session.new g).Inv cfg where
  usage := rfl
  stands := .idle rfl rfl rfl rfl rfl

/-- A hold that was resolved once is settled. -/
theorem Inv.resolved (h : s.Inv cfg) : s.Resolved cfg := by
  have hcount (x : Deed) (reports : List TokenUsage) (hs : s.resolutions = [(x, reports)]) :
      s.count x.ask.hold = 1 := by
    rw [count, hs]
    simp
  cases h.stands with
  | idle auth fresh placed deeds none =>
    exact ⟨by simp [none, deeds], by simp [placed], by simp [placed], by simp [none]⟩
  | holding a auth fresh placed deeds none within =>
    refine ⟨by simp [none, deeds], by simp [count, none], ?_, by simp [none]⟩
    intro hblocks hentering
    omega
  | resolved a x reports auth stale placed deeds one about priced =>
    have hone : ∀ b ∈ s.desk.placed, s.count b = 1 := by
      intro b hb
      rw [placed, List.mem_singleton] at hb
      rw [hb, ← about]
      exact hcount x reports one
    refine ⟨by simp [one, deeds], fun b hb => (hone b hb).le, fun _ _ => hone, ?_⟩
    intro r hr
    rw [one, List.mem_singleton] at hr
    exact hr ▸ priced

/-- A use that neither places a hold nor resolves one keeps what holds. -/
theorem Inv.quiet (h : s.Inv cfg) (stream : MeteredStream) (d : Desk)
    (hauth : stream.core.auth = s.stream.core.auth)
    (hresolved : stream.core.resolved = s.stream.core.resolved)
    (hplaced : d.placed = s.desk.placed) (hdeeds : d.deeds = s.desk.deeds) {m n : ℕ}
    (hmn : s.blocks + s.entering ≤ n + m) {reports : List TokenUsage}
    (husage : stream.core.usage = TokenUsage.total reports) :
    ({ stream := stream
       desk := d
       entering := m
       blocks := n
       reports := reports
       resolutions := s.resolutions ++ noted s.desk d s.reports } : Session).Inv cfg where
  usage := husage
  stands := by
    rw [noted_of_eq hdeeds, List.append_nil]
    exact h.stands.congr hauth hresolved hplaced hdeeds hmn

/-- A use that resolves the hold, and reports nothing, keeps what holds. -/
theorem Inv.resolves (h : s.Inv cfg) (stream : MeteredStream)
    (hcore : stream.core = s.stream.core) (settled : s.stream.core.Settled cfg)
    (raised : Option StreamFault) (m n : ℕ) :
    ({ stream := (stream.resolve w cfg s.desk raised).2.1
       desk := (stream.resolve w cfg s.desk raised).2.2
       entering := m
       blocks := n
       reports := s.reports ++ []
       resolutions := s.resolutions ++
        noted s.desk (stream.resolve w cfg s.desk raised).2.2 s.reports } : Session).Inv cfg where
  usage := by simpa [MeteredStream.resolve, hcore] using h.usage
  stands := by
    simp only [MeteredStream.resolve, hcore]
    exact h.stands.resolve h.usage settled

/-- A source that is asked for what comes next has what it reports taken in. -/
theorem Inv.next (h : s.Inv cfg) (event : Event) :
    (s.stream.next cfg event).2.core.auth = s.stream.core.auth ∧
      (s.stream.next cfg event).2.core.resolved = s.stream.core.resolved ∧
      (s.stream.next cfg event).2.core.usage =
        TokenUsage.total (s.reports ++ (Use.next event).reports cfg s.stream) := by
  have hsame : s.stream.core.usage = TokenUsage.total (s.reports ++ []) := by
    rw [List.append_nil, h.usage]
  unfold MeteredStream.next
  cases hsource : s.stream.source with
  | false =>
    cases event with
    | chunk chunk => simp [Use.reports, hsource, h.usage]
    | exhausted final => cases final <;> simp [Use.reports, hsource, h.usage]
    | raises => exact ⟨rfl, rfl, hsame⟩
  | true =>
    cases event with
    | chunk chunk =>
      obtain ⟨hauth, hresolved, husage⟩ := StreamCore.take_spec
        (c := { s.stream.core with chunks := s.stream.core.chunks + 1 })
        (tryUsage cfg.extract chunk)
      refine ⟨hauth, hresolved, ?_⟩
      rw [Use.reports, hsource, if_pos rfl]
      exact husage s.reports h.usage
    | exhausted final =>
      cases final with
      | none => exact ⟨rfl, rfl, hsame⟩
      | some message =>
        obtain ⟨hauth, hresolved, husage⟩ := StreamCore.take_spec
          (c := { s.stream.core with final := some message }) (tryUsage cfg.extract message)
        refine ⟨hauth, hresolved, ?_⟩
        rw [Use.reports, hsource, if_pos rfl]
        exact husage s.reports h.usage
    | raises => exact ⟨rfl, rfl, hsame⟩

/-- A use that places the first hold keeps what holds. -/
theorem Inv.place (h : s.Inv cfg) (hauth : s.stream.core.auth = none) (cancelled : Bool)
    (hready : cancelled = true → s.stream.core.Ready cfg) :
    (s.after w cfg (.place false cancelled)).Inv cfg := by
  have hidle : s.stream.core.resolved = false ∧ s.desk.placed = [] ∧ s.desk.deeds = [] ∧
      s.resolutions = [] := by
    cases h.stands with
    | idle auth fresh placed deeds none => exact ⟨fresh, placed, deeds, none⟩
    | holding a auth => cases hauth.symm.trans auth
    | resolved a x reports auth => cases hauth.symm.trans auth
  obtain ⟨hfresh, hplaced, hdeeds, hnone⟩ := hidle
  have husage : s.stream.core.usage = TokenUsage.total (s.reports ++ []) := by
    rw [List.append_nil, h.usage]
  rcases StreamCore.authorize_cases w cfg s.stream.core s.desk with
    ⟨d', hd, hplaced', hdeeds'⟩ | ⟨a, d', hd, hplaced', hdeeds'⟩
  · have huse : s.stream.use w cfg s.desk (.place false cancelled) =
        (some .refused, s.stream, d') := by
      simp only [MeteredStream.use, MeteredStream.place, Bool.false_eq_true, if_false, hd]
    unfold after
    rw [huse]
    exact h.quiet _ _ rfl rfl hplaced' hdeeds' le_rfl husage
  · have holding : Stands cfg { s.stream.core with auth := some a } d' s.resolutions 1 :=
      .holding a rfl hfresh (by rw [hplaced', hplaced]; rfl) (hdeeds'.trans hdeeds) hnone
        Nat.one_pos
    cases cancelled with
    | false =>
      have huse : s.stream.use w cfg s.desk (.place false false) =
          (none, { s.stream with core := { s.stream.core with auth := some a } }, d') := by
        simp only [MeteredStream.use, MeteredStream.place, Bool.false_eq_true, if_false, hd]
      unfold after
      rw [huse]
      refine ⟨husage, ?_⟩
      simp only [noted_of_eq hdeeds', List.append_nil]
      exact holding.congr rfl rfl rfl rfl (Nat.le_add_left 1 _)
    | true =>
      have huse : s.stream.use w cfg s.desk (.place false true) =
          { s.stream with core := { s.stream.core with auth := some a } }.resolve w cfg d'
            (some .cancelled) := by
        simp only [MeteredStream.use, MeteredStream.place, Bool.false_eq_true, if_false, hd, if_true]
      have hdrop (d'' : Desk) : noted s.desk d'' s.reports = noted d' d'' s.reports := by
        rw [noted, noted, hdeeds']
      unfold after
      rw [huse]
      constructor
      · simpa [MeteredStream.resolve, Use.reports] using h.usage
      · simp only [MeteredStream.resolve, hdrop]
        exact holding.resolve h.usage fun _ _ => hready rfl

/-- One more use that heeds its hold keeps what holds. -/
theorem Inv.step (h : s.Inv cfg) (u : Use) (heeds : s.Possible u → s.Heeds cfg u) :
    (s.step w cfg u).Inv cfg := by
  have husage : s.stream.core.usage = TokenUsage.total (s.reports ++ []) := by
    rw [List.append_nil, h.usage]
  rw [Session.step]
  split_ifs with hpossible
  swap
  · exact h
  specialize heeds hpossible
  cases u with
  | place thrashes cancelled =>
    cases thrashes with
    | true => exact h.quiet _ _ rfl rfl rfl rfl le_rfl husage
    | false =>
      obtain ⟨hauth, hready⟩ := heeds.resolve_left Bool.false_ne_true
      exact h.place hauth cancelled hready
  | enter how =>
    have hentering : 0 < s.entering := hpossible
    cases how with
    | callFails => exact h.resolves _ rfl heeds _ _ _
    | openFails inner =>
      exact h.resolves { s.stream with inner := s.stream.inner || inner } rfl heeds _ _ _
    | opens inner =>
      refine h.quiet { s.stream with inner := s.stream.inner || inner, source := true } s.desk rfl rfl
        rfl rfl (m := s.entering - 1) (n := s.blocks + 1) ?_ husage
      omega
  | next event =>
    obtain ⟨hauth, hresolved, hreports⟩ := h.next event
    exact h.quiet _ _ hauth hresolved rfl rfl le_rfl hreports
  | recordUsage usage =>
    refine h.quiet { s.stream with core := s.stream.core.recordUsage usage } s.desk rfl rfl rfl rfl
      le_rfl ?_
    rw [Use.reports, TokenUsage.total_append, ← h.usage]
    rfl
  | close => exact h.resolves _ rfl heeds _ _ _
  | exit raises => exact h.resolves _ rfl heeds _ _ _
  | others commands =>
    exact h.quiet s.stream (s.desk.meanwhile w commands) rfl rfl rfl rfl le_rfl husage

/-- Whether every use of a run heeds the hold of the stream it finds. -/
def Careful (w : World) (cfg : StreamConfig) (s : Session) (uses : List Use) : Prop :=
  ∀ before u after, uses = before ++ u :: after →
    (run w cfg s before).Possible u → (run w cfg s before).Heeds cfg u

theorem careful_nil : s.Careful w cfg [] := fun _ _ _ h => absurd h (by simp)

theorem careful_cons {u : Use} {uses : List Use} : s.Careful w cfg (u :: uses) ↔
    (s.Possible u → s.Heeds cfg u) ∧ (s.step w cfg u).Careful w cfg uses := by
  constructor
  · intro h
    refine ⟨h [] u uses rfl, fun before v after hv => ?_⟩
    exact h (u :: before) v after (by rw [hv, List.cons_append])
  · rintro ⟨hu, hrest⟩ before v after hv
    cases before with
    | nil =>
      obtain ⟨rfl, -⟩ := List.cons.inj hv
      exact hu
    | cons x before =>
      obtain ⟨rfl, htail⟩ := List.cons.inj hv
      exact hrest before v after htail

instance decidableCareful : (s : Session) → (uses : List Use) → Decidable (s.Careful w cfg uses)
  | _, [] => isTrue careful_nil
  | s, u :: uses =>
    have := decidableCareful (s.step w cfg u) uses
    decidable_of_iff _ careful_cons.symm

theorem Inv.run {uses : List Use} (h : s.Inv cfg) (careful : s.Careful w cfg uses) :
    (Session.run w cfg s uses).Inv cfg := by
  induction uses generalizing s with
  | nil => exact h
  | cons u uses ih =>
    obtain ⟨heeds, careful⟩ := careful_cons.mp careful
    exact ih (h.step u heeds) careful

/-- A stream that is not entered again once it holds, and whose usage can be priced whenever its
hold is resolved, resolves its hold once, by the time it was left. -/
theorem resolved_run (w : World) (cfg : StreamConfig) (g : Governor) (uses : List Use)
    (careful : (Session.new g).Careful w cfg uses) :
    (run w cfg (.new g) uses).Resolved cfg :=
  ((inv_new g).run careful).resolved

end Session

/-! ### Two streams -/

/-- A stream of the sample rates, with a hold of a dollar. -/
def sampleStream : StreamConfig where
  scopeId := txt "a"
  hold := Decimal.ofInt 1
  pricing := sampleRates
  extract := defaultUsageExtractor
  memo := txt "settled streamed call"
  observed := true
  comparable := fun _ => true

/-- A stream that reports usage twice and is left. -/
def sampleUses : List Use :=
  [.place false false, .enter (.opens true),
   .next (.chunk (.mapping [(txt "input_tokens", .int 1000)])),
   .next (.chunk (.mapping [(txt "output_tokens", .int 200)])), .exit false]

theorem resolved_run_sampleUses :
    (Session.run sampleWorld sampleStream (.new sampleDesk.governor) sampleUses).Resolved
      sampleStream :=
  Session.resolved_run sampleWorld sampleStream sampleDesk.governor sampleUses (by decide +kernel)

/-- A stream that is entered again once it was left, and left again. -/
def sampleReentry : List Use :=
  [.place false false, .enter (.opens true), .exit false,
   .place false false, .enter (.opens true), .exit false]

/-- The hold that is placed when a stream is entered again is never resolved. -/
theorem reentered_not_resolved :
    ¬(Session.run sampleWorld sampleStream (.new sampleDesk.governor) sampleReentry).Resolved
      sampleStream := by
  intro h
  have hstranded : (Session.run sampleWorld sampleStream (.new sampleDesk.governor)
      sampleReentry).desk.placed.all (fun a => (Session.run sampleWorld sampleStream
        (.new sampleDesk.governor) sampleReentry).count a = 1) = false := by decide +kernel
  rw [List.all_eq_false] at hstranded
  obtain ⟨a, ha, hcount⟩ := hstranded
  exact hcount (decide_eq_true (h.left (by decide +kernel) (by decide +kernel) a ha))

end AgentGov.Metering
