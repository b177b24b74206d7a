import AgentGov.Metering.Interceptor
import Mathlib.Data.Finset.Basic

/-!
# Governed clients

A client is a graph of objects, and `govern` puts a proxy before it: what an attribute of the proxy
is depends on whether the client's own is callable, a scalar or a container, or a namespace
(`src/src/agentgov/proxy.py`, lines 43–244, and `src/src/agentgov/interceptor.py`, lines 762–824).
What an interceptor holds, its options and the last response among it, is taken to be none of the
client's objects.

## Main definitions

* `AgentGov.Metering.ObjectGraph`: the objects of a client.
* `AgentGov.Metering.GovernedClient`, `AgentGov.Metering.GovernorHandle`: the proxies.
* `AgentGov.Metering.follow`: what a chain of accesses leads to.
* `AgentGov.Metering.Mediated`: a method whose name is to be metered is called through the
  interceptor of its scope, and not handed out.
* `AgentGov.Metering.Leads`, `AgentGov.Metering.Bypasses`: a chain gets to a method through
  namespaces, or gets an object of the client as it is, and from there to the method.

## Main results

* `AgentGov.Metering.mediated_iff`: which chains are mediated.
* `AgentGov.Metering.rescoped_not_mediated`: the names given to `govern` do not outlast `for_scope`.
-/

open Foundation

namespace AgentGov.Metering

/-! ### Clients -/

/-- The objects of a client, as far as their attributes are read. -/
structure ObjectGraph (ι : Type*) where
  /-- `getattr`, where it does not raise. -/
  getattr : ι → Text → Option ι
  /-- `callable`. -/
  callable : ι → Bool
  /-- Whether the object is a scalar of `_PASSTHROUGH`, a mapping, a list, a tuple or a set. -/
  passthrough : ι → Bool

/-- `for_scope`: the interceptor bound to another scope, its rates given to it. -/
def Interceptor.forScope (i : Interceptor) (scope : Text) : Interceptor where
  scopeId := scope
  tariff := { i.tariff with pricingIsExplicit := true }

/-- The method names a proxy meters. -/
structure MethodNames where
  /-- `metered_methods`. -/
  metered : Finset Text := {txt "create", txt "parse", txt "generate"}
  /-- `stream_methods`. -/
  stream : Finset Text := {txt "stream"}
deriving DecidableEq

/-- `DEFAULT_METERED_METHODS` and `DEFAULT_STREAM_METHODS`. -/
def MethodNames.default : MethodNames := {}

instance : Membership Text MethodNames where
  mem names name := name ∈ names.stream ∨ name ∈ names.metered

instance (name : Text) (names : MethodNames) : Decidable (name ∈ names) :=
  inferInstanceAs (Decidable (_ ∨ _))

/-- `GovernedClient`. -/
structure GovernedClient (ι : Type*) where
  target : ι
  recorder : Interceptor
  names : MethodNames := .default

/-- `GovernorHandle`. -/
structure GovernorHandle (ι : Type*) where
  recorder : Interceptor
  target : ι

/-- What a chain of accesses leads to. -/
inductive Thing (ι : Type*)
  /-- An object of the client, as it is. -/
  | raw (o : ι)
  | client (c : GovernedClient ι)
  | handle (h : GovernorHandle ι)
  /-- The closure of `_wrap_metered`. -/
  | metered (call : ι) (i : Interceptor)
  /-- The closure of `_wrap_stream`. -/
  | streamed (call : ι) (i : Interceptor)
  /-- A method bound to something that is not of the client. -/
  | bound (self : Thing ι)
  /-- Something else that is not of the client, and holds nothing of it. -/
  | other

/-! ### Accesses -/

/-- The names of the methods every object has. -/
def objectMethods : List Text :=
  [txt "__delattr__", txt "__dir__", txt "__eq__", txt "__format__", txt "__ge__",
   txt "__getattribute__", txt "__getstate__", txt "__gt__", txt "__hash__", txt "__init__",
   txt "__le__", txt "__lt__", txt "__ne__", txt "__reduce__", txt "__reduce_ex__",
   txt "__repr__", txt "__setattr__", txt "__sizeof__", txt "__str__"]

/-- The names of what every object has of its class. -/
def objectData : List Text :=
  [txt "__class__", txt "__doc__", txt "__init_subclass__", txt "__module__", txt "__new__",
   txt "__slots__", txt "__subclasshook__"]

/-- The methods of a proxy. -/
def clientMethods : List Text :=
  [txt "__getattr__", txt "_wrap_metered", txt "_wrap_stream"] ++ objectMethods

/-- What a proxy answers itself, its methods, `agentgov` and `_target` apart. -/
def clientData : List Text := [txt "_metered", txt "_recorder", txt "_stream"] ++ objectData

/-- The names a proxy answers itself. -/
def clientNames : List Text := [txt "agentgov", txt "_target"] ++ clientData ++ clientMethods

/-- The methods of a handle. -/
def handleMethods : List Text := txt "for_scope" :: objectMethods

/-- What a handle answers, its methods, `raw` and `_target` apart. -/
def handleData : List Text :=
  [txt "_recorder", txt "interceptor", txt "manager", txt "scope_id", txt "last_call"] ++ objectData

/-- The methods of a closure. -/
def closureMethods : List Text := [txt "__call__", txt "__get__"] ++ objectMethods

/-- The methods of a bound method. -/
def boundMethods : List Text := txt "__call__" :: objectMethods

/-- One access of a chain. -/
inductive Access
  | attr (name : Text)
  /-- The call of a handle's `for_scope`. -/
  | forScope (scope : Text)
deriving DecidableEq

variable {ι : Type*}

namespace GovernorHandle

variable (h : GovernorHandle ι)

/-- An attribute of a handle, its methods apart. `raw` is the slot `_target`. -/
def getattr (name : Text) : Option (Thing ι) :=
  if name = txt "raw" ∨ name = txt "_target" then some (.raw h.target)
  else if name ∈ handleData then some .other
  else none

/-- `for_scope`: a client bound to another scope. -/
def forScope (scope : Text) : GovernedClient ι where
  target := h.target
  recorder := h.recorder.forScope scope

end GovernorHandle

variable (g : ObjectGraph ι)

namespace GovernedClient

variable (c : GovernedClient ι)

/-- `__getattr__`. -/
def forwarded (name : Text) : Option (Thing ι) :=
  match g.getattr c.target name with
  | none => none
  | some x =>
    if g.callable x then
      if name ∈ c.names.stream then some (.streamed x c.recorder)
      else if name ∈ c.names.metered then some (.metered x c.recorder)
      else some (.raw x)
    else if g.passthrough x then some (.raw x)
    else some (.client { c with target := x })

/-- An attribute of a proxy, its methods apart: `__getattr__` is asked for what the proxy has not
itself. -/
def getattr (name : Text) : Option (Thing ι) :=
  if name = txt "agentgov" then some (.handle ⟨c.recorder, c.target⟩)
  else if name = txt "_target" then some (.raw c.target)
  else if name ∈ clientData then some .other
  else c.forwarded g name

end GovernedClient

namespace Thing

/-- The names of the methods of what is not of the client. -/
def methods : Thing ι → List Text
  | client _ => clientMethods
  | handle _ => handleMethods
  | metered _ _ | streamed _ _ => closureMethods
  | bound _ => boundMethods
  | raw _ | other => []

/-- An attribute that is not a method of what is not of the client. -/
def getattr (name : Text) : Thing ι → Option (Thing ι)
  | raw o => (g.getattr o name).map raw
  | client c => c.getattr g name
  | handle h => h.getattr name
  | bound self => some (if name = txt "__self__" then self else other)
  | metered _ _ | streamed _ _ | other => some other

/-- What one more access leads to. -/
def access (t : Thing ι) : Access → Option (Thing ι)
  | .attr name => if name ∈ t.methods then some (bound t) else t.getattr g name
  | .forScope scope =>
    match t with
    | handle h => some (client (h.forScope scope))
    | _ => none

end Thing

/-- What a chain of accesses leads to. -/
def follow (t : Thing ι) (chain : List Access) : Option (Thing ι) := chain.foldlM (Thing.access g) t

/-- `govern`. -/
def govern (client : ι) (scope : Text) (tariff : Tariff) (names : MethodNames) :
    GovernedClient ι where
  target := client
  recorder := ⟨scope, tariff⟩
  names := names

/-! ### Calls -/

/-- Which way a callable of the client is called. -/
inductive Route (ι : Type*)
  /-- `interceptor.invoke`. -/
  | invoke (i : Interceptor) (call : ι)
  /-- `interceptor.stream`. -/
  | stream (i : Interceptor) (call : ι)
  /-- As it is. -/
  | direct (call : ι)

/-- Which way calling a thing calls a callable of the client, and whether it is called with
`stream=True`. -/
def Thing.call (streaming : Bool) : Thing ι → Option (Route ι)
  | raw o => if g.callable o then some (.direct o) else none
  | metered x i => some (if streaming then .stream i x else .invoke i x)
  | streamed x i => some (.stream i x)
  | client _ | handle _ | bound _ | other => none

/-- Whether a call is one of a callable through the interceptor of a scope. -/
def Route.Through (scope : Text) (m : ι) : Route ι → Prop
  | invoke i call | stream i call => i.scopeId = scope ∧ call = m
  | direct _ => False

/-- The scope a chain was derived for. -/
def scopeAfter (scope : Text) (chain : List Access) : Text :=
  chain.foldl (fun s a => match a with | .forScope t => t | .attr _ => s) scope

/-- The object that names lead to on the client itself. -/
def ObjectGraph.walk (o : ι) (path : List Text) : Option ι := path.foldlM g.getattr o

/-- The names a chain spells, the derivations for other scopes apart. -/
def spelled : List Access → Option (List Text)
  | [] => some []
  | .attr name :: .forScope _ :: chain => if name = txt "agentgov" then spelled chain else none
  | .attr name :: chain => (spelled chain).map (name :: ·)
  | .forScope _ :: _ => none

/-- Whether a callable is the method that the client has at the end of some names, the last of them
one to be metered. -/
structure IsMethod (client : ι) (names : MethodNames) (path : List Text) (m : ι) : Prop where
  named : ∃ name ∈ path.getLast?, name ∈ names
  walks : g.walk client path = some m
  callable : g.callable m = true

/-- Whether a chain that spells the way to a method to be metered leads to what calls that method
through the interceptor of the scope it was derived for, whether or not it is called with
`stream=True`, and no such method is what the chain leads to. -/
structure Mediated (c : GovernedClient ι) (chain : List Access) : Prop where
  through : ∀ path m, spelled chain = some path → IsMethod g c.target c.names path m →
    ∃ thing, follow g (.client c) chain = some thing ∧ ∀ streaming, ∃ route,
      thing.call g streaming = some route ∧
        route.Through (scopeAfter c.recorder.scopeId chain) m
  wrapped : ∀ path m, IsMethod g c.target c.names path m →
    follow g (.client c) chain ≠ some (.raw m)

/-! ### Ways to a method -/

/-- The names in force after a chain: those given, until a `for_scope` puts the defaults in their
place. -/
def namesAfter (names : MethodNames) (chain : List Access) : MethodNames :=
  chain.foldl (fun names a => match a with | .forScope _ => .default | .attr _ => names) names

/-- A chain through methods of a thing and back by their `__self__`. -/
inductive Detour : List Text → List Access → Prop
  | none (own : List Text) : Detour own []
  | through {own : List Text} {m : Text} {inner rest : List Access} (method : m ∈ own)
      (within : Detour boundMethods inner) (after : Detour own rest) :
      Detour own (.attr m :: (inner ++ .attr (txt "__self__") :: rest))

/-- A chain through namespaces of the client, each neither callable nor a scalar or a container,
and through handles to other scopes. -/
inductive Namespaces : ι → List Access → ι → Prop
  | here (o : ι) : Namespaces o [] o
  | within {o x y : ι} {name : Text} {chain : List Access} (own : name ∉ clientNames)
      (found : g.getattr o name = some x) (callable : g.callable x = false)
      (passthrough : g.passthrough x = false) (rest : Namespaces x chain y) :
      Namespaces o (.attr name :: chain) y
  | derived {o y : ι} {scope : Text} {detour chain : List Access}
      (around : Detour handleMethods detour) (rest : Namespaces o chain y) :
      Namespaces o (.attr (txt "agentgov") :: (detour ++ .forScope scope :: chain)) y
  | around {o y : ι} {detour chain : List Access} (around : Detour clientMethods detour)
      (rest : Namespaces o chain y) : Namespaces o (detour ++ chain) y

/-- The accesses to a proxy of an object that hand out an object of the client as it is: a callable
whose name is not in force, a scalar or a container, or the private slot behind `agentgov.raw`. -/
inductive HandsOut (names : MethodNames) (o : ι) : List Access → ι → Prop
  | callable {name : Text} {x : ι} (own : name ∉ clientNames) (found : g.getattr o name = some x)
      (callable : g.callable x = true) (outside : name ∉ names) : HandsOut names o [.attr name] x
  | passthrough {name : Text} {x : ι} (own : name ∉ clientNames)
      (found : g.getattr o name = some x) (callable : g.callable x = false)
      (passthrough : g.passthrough x = true) : HandsOut names o [.attr name] x
  | slot : HandsOut names o [.attr (txt "_target")] o
  | handleSlot {name : Text} {detour : List Access} (around : Detour handleMethods detour)
      (slot : name = txt "raw" ∨ name = txt "_target") :
      HandsOut names o (.attr (txt "agentgov") :: (detour ++ [.attr name])) o

/-- Whether a chain leads through namespaces of a client to a callable under a name in force. -/
def Leads (client : ι) (names : MethodNames) (chain : List Access) (m : ι) : Prop :=
  ∃ before name detour o, chain = before ++ .attr name :: detour ∧ Namespaces g client before o ∧
    name ∉ clientNames ∧ g.getattr o name = some m ∧ g.callable m = true ∧
      name ∈ namesAfter names before ∧ Detour closureMethods detour

/-- Whether a chain leads through namespaces of a client to an object that is handed out as it is,
and from there to another. -/
def GetsOut (client : ι) (names : MethodNames) (chain : List Access) (x : ι) : Prop :=
  ∃ before out path o y, chain = before ++ out ++ path.map .attr ∧ Namespaces g client before o ∧
    HandsOut g (namesAfter names before) o out y ∧ g.walk y path = some x

/-- Whether a chain gets round the proxies of a client to a method to be metered. -/
def Bypasses (client : ι) (names : MethodNames) (chain : List Access) : Prop :=
  ∃ path m, IsMethod g client names path m ∧ GetsOut g client names chain m

/-- Whether a chain unwraps a client by `agentgov.raw`. -/
def Unwraps (chain : List Access) : Prop := [.attr (txt "agentgov"), .attr (txt "raw")] <:+: chain

instance (chain : List Access) : Decidable (Unwraps chain) := inferInstanceAs (Decidable (_ <:+: _))

/-! ### What a chain leads to -/

section Chains

variable {g}

theorem follow_cons (t : Thing ι) (a : Access) (chain : List Access) :
    follow g t (a :: chain) = (t.access g a).bind fun u => follow g u chain := rfl

theorem follow_append (t : Thing ι) (chain rest : List Access) :
    follow g t (chain ++ rest) = (follow g t chain).bind fun u => follow g u rest :=
  List.foldlM_append ..

/-- From an object of the client, attributes lead to its own. -/
theorem follow_raw (o : ι) (path : List Text) :
    follow g (.raw o) (path.map .attr) = (g.walk o path).map .raw := by
  induction path generalizing o with
  | nil => rfl
  | cons name path ih =>
    rw [List.map_cons, follow_cons, ObjectGraph.walk, List.foldlM_cons]
    change ((g.getattr o name).map Thing.raw).bind _ = _
    cases g.getattr o name with
    | none => rfl
    | some x => exact ih x

/-- From an object of the client, only attributes lead on. -/
theorem follow_raw_eq_some {o : ι} {chain : List Access} {t : Thing ι}
    (h : follow g (.raw o) chain = some t) :
    ∃ path x, chain = path.map .attr ∧ g.walk o path = some x ∧ t = .raw x := by
  induction chain generalizing o with
  | nil => exact ⟨[], o, rfl, rfl, (Option.some.inj h).symm⟩
  | cons a chain ih =>
    rw [follow_cons, Option.bind_eq_some_iff] at h
    obtain ⟨u, hu, h⟩ := h
    cases a with
    | forScope scope => cases hu
    | attr name =>
      obtain ⟨x, hx, rfl⟩ : ∃ x, g.getattr o name = some x ∧ .raw x = u :=
        Option.map_eq_some_iff.mp hu
      obtain ⟨path, y, rfl, hy, rfl⟩ := ih h
      refine ⟨name :: path, y, rfl, ?_, rfl⟩
      rw [ObjectGraph.walk, List.foldlM_cons, hx]
      exact hy

theorem access_method {t : Thing ι} {name : Text} (h : name ∈ t.methods) :
    t.access g (.attr name) = some (.bound t) := if_pos h

theorem access_getattr {t : Thing ι} {name : Text} (h : name ∉ t.methods) :
    t.access g (.attr name) = t.getattr g name := if_neg h

/-- A method leads back to what it is bound to. -/
theorem follow_self (t : Thing ι) (chain : List Access) :
    follow g (.bound t) (.attr (txt "__self__") :: chain) = follow g t chain := by
  have hself : txt "__self__" ∉ (Thing.bound t).methods := by
    change txt "__self__" ∉ boundMethods
    decide
  rw [follow_cons, access_getattr hself, Thing.getattr, if_pos rfl, Option.bind_some]

/-- A detour leads back to where it begins. -/
theorem follow_detour {t : Thing ι} {detour : List Access} (h : Detour t.methods detour) :
    follow g t detour = some t := by
  generalize hown : t.methods = own at h
  induction h generalizing t with
  | none own => rfl
  | through method within after ih ih' =>
    subst hown
    rw [follow_cons, access_method method, Option.bind_some, follow_append,
      ih (t := .bound t) rfl, Option.bind_some, follow_self, ih' rfl]

/-- What is of AgentGov and neither a proxy, a handle nor a closure. -/
def Thing.Inner : Thing ι → Prop
  | bound _ | other => True
  | _ => False

theorem follow_other {chain : List Access} {u : Thing ι} (h : follow g .other chain = some u) :
    u = .other := by
  induction chain with
  | nil => exact (Option.some.inj h).symm
  | cons a chain ih =>
    rw [follow_cons, Option.bind_eq_some_iff] at h
    obtain ⟨v, hv, h⟩ := h
    cases a with
    | forScope scope => cases hv
    | attr name =>
      obtain rfl : .other = v := Option.some.inj hv
      exact ih h

/-- A chain starts with detours, unless it ends in one. -/
theorem detours_of_follow (n : ℕ) : ∀ (chain : List Access) (t u : Thing ι), chain.length ≤ n →
    follow g t chain = some u → u.Inner ∨ ∃ detour rest, chain = detour ++ rest ∧
      Detour t.methods detour ∧ follow g t rest = some u ∧
        ∀ m ∈ t.methods, rest.head? ≠ some (.attr m) := by
  induction n with
  | zero =>
    intro chain t u hlength h
    obtain rfl := List.length_eq_zero_iff.mp (Nat.le_zero.mp hlength)
    exact Or.inr ⟨[], [], rfl, .none _, h, fun _ _ => nofun⟩
  | succ n ih =>
    intro chain t u hlength h
    by_cases hmethod : ∃ m ∈ t.methods, chain.head? = some (.attr m)
    · obtain ⟨m, hm, hhead⟩ := hmethod
      obtain ⟨chain, rfl⟩ : ∃ rest, chain = .attr m :: rest :=
        ⟨chain.tail, (List.cons_head?_tail hhead).symm⟩
      have hlength : chain.length ≤ n := Nat.le_of_succ_le_succ hlength
      rw [follow_cons, access_method hm, Option.bind_some] at h
      rcases ih chain (.bound t) u hlength h with hinner | ⟨d, rest, rfl, hd, hrest, hhead⟩
      · exact Or.inl hinner
      cases rest with
      | nil =>
        obtain rfl := Option.some.inj hrest
        exact Or.inl trivial
      | cons a rest =>
        cases a with
        | forScope scope => cases hrest
        | attr name =>
          have hname : name ∉ (Thing.bound t).methods := fun hmem => hhead name hmem rfl
          rcases eq_or_ne name (txt "__self__") with rfl | hne
          · rw [follow_self] at hrest
            have hshort : rest.length ≤ n := by
              rw [List.length_append, List.length_cons] at hlength
              omega
            rcases ih rest t u hshort hrest with hinner | ⟨d', rest', rfl, hd', hrest', hhead'⟩
            · exact Or.inl hinner
            · exact Or.inr ⟨.attr m :: (d ++ .attr (txt "__self__") :: d'), rest', by simp,
                .through hm hd hd', hrest', hhead'⟩
          · rw [follow_cons, access_getattr hname, Thing.getattr, if_neg hne,
              Option.bind_some] at hrest
            obtain rfl := follow_other hrest
            exact Or.inl trivial
    · exact Or.inr ⟨[], chain, rfl, .none _, h, fun m hm hhead => hmethod ⟨m, hm, hhead⟩⟩

/-- What a proxy has not itself, `__getattr__` is asked for. -/
theorem access_forwarded {c : GovernedClient ι} {name : Text} (own : name ∉ clientNames) :
    (Thing.client c).access g (.attr name) = c.forwarded g name := by
  simp only [clientNames, List.mem_append, List.mem_cons, not_or] at own
  rw [access_getattr own.2, Thing.getattr, GovernedClient.getattr, if_neg own.1.1.1,
    if_neg own.1.1.2.1, if_neg own.1.2]

theorem access_agentgov (c : GovernedClient ι) : (Thing.client c).access g (.attr (txt "agentgov")) =
    some (.handle ⟨c.recorder, c.target⟩) := by
  have hmethod : txt "agentgov" ∉ (Thing.client c).methods := by
    change txt "agentgov" ∉ clientMethods
    decide
  rw [access_getattr hmethod, Thing.getattr, GovernedClient.getattr, if_pos rfl]

/-- A slot of a handle, after detours through its methods. -/
theorem follow_handleSlot {h : GovernorHandle ι} {name : Text} {detour : List Access}
    (around : Detour handleMethods detour) (slot : name = txt "raw" ∨ name = txt "_target") :
    follow g (.handle h) (detour ++ [.attr name]) = some (.raw h.target) := by
  have hmethod : name ∉ (Thing.handle h).methods := by
    change name ∉ handleMethods
    rcases slot with rfl | rfl <;> decide
  rw [follow_append, follow_detour (t := .handle h) around, Option.bind_some, follow_cons,
    access_getattr hmethod, Thing.getattr, GovernorHandle.getattr, if_pos slot]
  rfl

/-- The names in force stay over a detour. -/
theorem Detour.namesAfter {own : List Text} {detour : List Access} (h : Detour own detour)
    (names : MethodNames) (chain : List Access) :
    namesAfter names (detour ++ chain) = namesAfter names chain := by
  induction h generalizing chain with
  | none own => rfl
  | through method within after ih ih' =>
    rename_i own m inner rest
    change Metering.namesAfter names ((inner ++ .attr (txt "__self__") :: rest) ++ chain) = _
    rw [List.append_assoc, ih, List.cons_append]
    exact ih' chain

/-- A proxy stands before every namespace a chain leads through. -/
theorem follow_namespaces {c : GovernedClient ι} {chain : List Access} {o : ι}
    (h : Namespaces g c.target chain o) : ∃ i, follow g (.client c) chain =
      some (.client ⟨o, i, namesAfter c.names chain⟩) := by
  generalize htarget : c.target = client at h
  induction h generalizing c with
  | here o =>
    obtain rfl := htarget
    exact ⟨c.recorder, rfl⟩
  | within own found callable passthrough rest ih =>
    obtain rfl := htarget
    rename_i x _ name chain
    have hstep : (Thing.client c).access g (.attr name) =
        some (.client { c with target := x }) := by
      rw [access_forwarded own, GovernedClient.forwarded, found]
      simp [callable, passthrough]
    obtain ⟨i, hi⟩ := ih (c := { c with target := x }) rfl
    exact ⟨i, by rw [follow_cons, hstep, Option.bind_some, hi]; rfl⟩
  | derived around rest ih =>
    obtain rfl := htarget
    rename_i scope detour chain
    let h : GovernorHandle ι := ⟨c.recorder, c.target⟩
    obtain ⟨i, hi⟩ := ih (c := h.forScope scope) rfl
    refine ⟨i, ?_⟩
    rw [follow_cons, access_agentgov, Option.bind_some, follow_append,
      follow_detour (t := .handle h) around, Option.bind_some, follow_cons]
    change follow g (.client (h.forScope scope)) chain = _
    rw [hi]
    congr 3
    change _ = namesAfter c.names (detour ++ .forScope scope :: chain)
    rw [around.namesAfter]
    rfl
  | around around rest ih =>
    obtain ⟨i, hi⟩ := ih htarget
    refine ⟨i, ?_⟩
    rw [follow_append, follow_detour (t := .client c) around, Option.bind_some, hi,
      around.namesAfter]

/-- What is handed out is the client's own. -/
theorem follow_handsOut {c : GovernedClient ι} {out : List Access} {x : ι}
    (h : HandsOut g c.names c.target out x) : follow g (.client c) out = some (.raw x) := by
  cases h with
  | callable own found callable outside =>
    obtain ⟨hstream, hmetered⟩ := not_or.mp outside
    rw [follow_cons, access_forwarded own, GovernedClient.forwarded, found]
    simp [callable, hstream, hmetered, follow]
  | passthrough own found callable passthrough =>
    rw [follow_cons, access_forwarded own, GovernedClient.forwarded, found]
    simp [callable, passthrough, follow]
  | slot =>
    have hmethod : txt "_target" ∉ (Thing.client c).methods := by
      change txt "_target" ∉ clientMethods
      decide
    rw [follow_cons, access_getattr hmethod, Thing.getattr, GovernedClient.getattr,
      if_neg (by decide), if_pos rfl]
    rfl
  | handleSlot around slot =>
    rw [follow_cons, access_agentgov, Option.bind_some]
    exact follow_handleSlot around slot

/-- What a chain gets out is what it leads to. -/
theorem follow_of_getsOut {c : GovernedClient ι} {chain : List Access} {x : ι}
    (h : GetsOut g c.target c.names chain x) : follow g (.client c) chain = some (.raw x) := by
  obtain ⟨before, out, path, o, y, rfl, hbefore, hout, hwalk⟩ := h
  obtain ⟨i, hi⟩ := follow_namespaces hbefore
  rw [follow_append, follow_append, hi, Option.bind_some,
    follow_handsOut (c := ⟨o, i, namesAfter c.names before⟩) hout, Option.bind_some, follow_raw,
    hwalk]
  rfl

/-- What a chain leads to under a name in force is wrapped. -/
theorem follow_of_leads {c : GovernedClient ι} {chain : List Access} {m : ι}
    (h : Leads g c.target c.names chain m) : ∃ i, follow g (.client c) chain = some (.metered m i) ∨
      follow g (.client c) chain = some (.streamed m i) := by
  obtain ⟨before, name, detour, o, rfl, hbefore, own, found, callable, hforce, haround⟩ := h
  obtain ⟨i, hi⟩ := follow_namespaces hbefore
  refine ⟨i, ?_⟩
  rw [follow_append, hi, Option.bind_some, follow_cons, access_forwarded own,
    GovernedClient.forwarded, found]
  simp only [callable, if_true]
  by_cases hstream : name ∈ (namesAfter c.names before).stream
  · refine Or.inr ?_
    rw [if_pos hstream, Option.bind_some, follow_detour (t := .streamed m i) haround]
  · refine Or.inl ?_
    rw [if_neg hstream, if_pos (hforce.resolve_left hstream), Option.bind_some,
      follow_detour (t := .metered m i) haround]

/-! ### Where a chain comes from -/

/-- How a chain has come to an object of the client, or to a closure. -/
def Found (g : ObjectGraph ι) (client : ι) (names : MethodNames) (chain : List Access) :
    Thing ι → Prop
  | .raw x => GetsOut g client names chain x
  | .metered m _ | .streamed m _ => Leads g client names chain m
  | _ => True

theorem namesAfter_append (names : MethodNames) (chain rest : List Access) :
    namesAfter names (chain ++ rest) = namesAfter (namesAfter names chain) rest :=
  List.foldl_append

/-- A way is found from a namespace on. -/
theorem Found.prepend {client : ι} (o : ι) {names : MethodNames} (before : List Access)
    {chain : List Access} {u : Thing ι}
    (hbefore : ∀ rest y, Namespaces g o rest y → Namespaces g client (before ++ rest) y)
    (h : Found g o (namesAfter names before) chain u) :
    Found g client names (before ++ chain) u := by
  cases u with
  | raw x =>
    obtain ⟨mid, out, path, y, z, rfl, hmid, hout, hwalk⟩ := h
    refine ⟨before ++ mid, out, path, y, z, by simp, hbefore mid y hmid, ?_, hwalk⟩
    rwa [namesAfter_append]
  | metered m i | streamed m i =>
    obtain ⟨mid, name, detour, y, rfl, hmid, own, found, callable, hforce, haround⟩ := h
    refine ⟨before ++ mid, name, detour, y, by simp, hbefore mid y hmid, own, found, callable, ?_,
      haround⟩
    rwa [namesAfter_append]
  | _ => trivial

theorem found_of_inner {client : ι} {names : MethodNames} {chain : List Access} {u : Thing ι}
    (h : u.Inner) : Found g client names chain u := by
  cases u with
  | bound _ | other => trivial
  | _ => exact h.elim

/-- What is handed out at once. -/
theorem found_of_handsOut {c : GovernedClient ι} {out chain : List Access} {y : ι} {u : Thing ι}
    (hout : HandsOut g c.names c.target out y) (h : follow g (.raw y) chain = some u) :
    Found g c.target c.names (out ++ chain) u := by
  obtain ⟨path, z, rfl, hwalk, rfl⟩ := follow_raw_eq_some h
  exact ⟨[], out, path, c.target, y, rfl, .here _, hout, hwalk⟩

/-- What a closure leads to. -/
theorem found_of_closure {c : GovernedClient ι} {name : Text} {x : ι} {chain : List Access}
    {t u : Thing ι} (ht : t = .metered x c.recorder ∨ t = .streamed x c.recorder)
    (own : name ∉ clientNames) (found : g.getattr c.target name = some x)
    (callable : g.callable x = true) (hforce : name ∈ c.names)
    (h : follow g t chain = some u) : Found g c.target c.names (.attr name :: chain) u := by
  have hmethods : t.methods = closureMethods := by
    rcases ht with rfl | rfl <;> rfl
  have hother : ∀ n, t.getattr g n = some .other := by
    intro n
    rcases ht with rfl | rfl <;> rfl
  have hscope : ∀ scope, t.access g (.forScope scope) = none := by
    intro scope
    rcases ht with rfl | rfl <;> rfl
  rcases detours_of_follow _ chain t u le_rfl h with hinner |
    ⟨detour, rest, rfl, hdetour, hrest, hhead⟩
  · exact found_of_inner hinner
  cases rest with
  | nil =>
    rw [List.append_nil]
    rw [hmethods] at hdetour
    have hleads : Leads g c.target c.names (.attr name :: detour) x :=
      ⟨[], name, detour, c.target, rfl, .here _, own, found, callable, hforce, hdetour⟩
    obtain rfl := Option.some.inj hrest
    rcases ht with rfl | rfl
    · exact hleads
    · exact hleads
  | cons a rest =>
    rw [follow_cons] at hrest
    cases a with
    | forScope scope =>
      rw [hscope] at hrest
      cases hrest
    | attr n =>
      rw [access_getattr fun hmem => hhead n hmem rfl, hother, Option.bind_some] at hrest
      obtain rfl := follow_other hrest
      trivial

theorem Unwraps.append (before : List Access) {chain : List Access} (h : Unwraps chain) :
    Unwraps (before ++ chain) :=
  h.trans (List.suffix_append before chain).isInfix

/-- What a handle leads to: a proxy for another scope, or what is behind it. -/
theorem handle_cases {h : GovernorHandle ι} {chain : List Access} {u : Thing ι}
    (hu : follow g (.handle h) chain = some u) : u.Inner ∨ u = .handle h ∨
      ∃ detour rest, Detour handleMethods detour ∧
        ((∃ scope, chain = detour ++ .forScope scope :: rest ∧
            follow g (.client (h.forScope scope)) rest = some u) ∨
          ∃ name, chain = detour ++ .attr name :: rest ∧ (name = txt "raw" ∨ name = txt "_target") ∧
            follow g (.raw h.target) rest = some u) := by
  rcases detours_of_follow _ chain (.handle h) u le_rfl hu with hinner |
    ⟨detour, rest, rfl, hdetour, hrest, hhead⟩
  · exact Or.inl hinner
  cases rest with
  | nil => exact Or.inr (Or.inl (Option.some.inj hrest).symm)
  | cons a rest =>
    cases a with
    | forScope scope => exact Or.inr (Or.inr ⟨detour, rest, hdetour, Or.inl ⟨scope, rfl, hrest⟩⟩)
    | attr name =>
      rw [follow_cons, access_getattr fun hmem => hhead name hmem rfl, Thing.getattr,
        GovernorHandle.getattr] at hrest
      split_ifs at hrest with hslot hdata
      · exact Or.inr (Or.inr ⟨detour, rest, hdetour, Or.inr ⟨name, rfl, hslot, hrest⟩⟩)
      · obtain rfl := follow_other hrest
        exact Or.inl trivial
      · cases hrest

/-- What a handle leads to, where what a shorter chain leads a proxy to is found. -/
theorem found_of_handle {c : GovernedClient ι} {rest : List Access} {u : Thing ι}
    (next : ∀ (tail : List Access) (c' : GovernedClient ι), tail.length < rest.length →
      tail <:+ rest → follow g (.client c') tail = some u → Found g c'.target c'.names tail u)
    (h : follow g (.handle ⟨c.recorder, c.target⟩) rest = some u) :
    Found g c.target c.names (.attr (txt "agentgov") :: rest) u := by
  rcases handle_cases h with hinner | rfl | ⟨d, tail, hd, ⟨scope, rfl, htail⟩ |
    ⟨name, rfl, hslot, htail⟩⟩
  · exact found_of_inner hinner
  · trivial
  · have hsplit : .attr (txt "agentgov") :: (d ++ .forScope scope :: tail) =
        (.attr (txt "agentgov") :: (d ++ [.forScope scope])) ++ tail := by simp
    have hshort : tail.length < (d ++ .forScope scope :: tail).length := by
      rw [List.length_append, List.length_cons]
      omega
    have hfound := next tail _ hshort ⟨d ++ [.forScope scope], by simp⟩ htail
    rw [hsplit]
    refine Found.prepend c.target _ (fun chain y hn => ?_) ?_
    · have hderived : Namespaces g c.target
          (.attr (txt "agentgov") :: (d ++ .forScope scope :: chain)) y := .derived hd hn
      simpa using hderived
    · have hnames : namesAfter c.names (.attr (txt "agentgov") :: (d ++ [.forScope scope])) =
          .default := hd.namesAfter c.names [.forScope scope]
      rw [hnames]
      exact hfound
  · have hsplit : .attr (txt "agentgov") :: (d ++ .attr name :: tail) =
        (.attr (txt "agentgov") :: (d ++ [.attr name])) ++ tail := by simp
    rw [hsplit]
    exact found_of_handsOut (.handleSlot hd hslot) htail

/-- What `__getattr__` leads to, where what the chain leads the proxy of a namespace to is found. -/
theorem found_of_forwarded {c : GovernedClient ι} {name : Text} {rest : List Access} {u : Thing ι}
    (own : name ∉ clientNames)
    (next : ∀ x, follow g (.client { c with target := x }) rest = some u →
      Found g x c.names rest u)
    (h : ((c.forwarded g name).bind fun t => follow g t rest) = some u) :
    Found g c.target c.names (.attr name :: rest) u := by
  rw [GovernedClient.forwarded] at h
  cases found : g.getattr c.target name with
  | none =>
    rw [found] at h
    cases h
  | some x =>
    rw [found] at h
    dsimp only at h
    split_ifs at h with callable hstream hmetered passthrough
    · exact found_of_closure (Or.inr rfl) own found callable (Or.inl hstream) h
    · exact found_of_closure (Or.inl rfl) own found callable (Or.inr hmetered) h
    · exact found_of_handsOut (.callable own found callable (not_or.mpr ⟨hstream, hmetered⟩)) h
    · exact found_of_handsOut (.passthrough own found (by simpa using callable) passthrough) h
    · exact Found.prepend x [.attr name]
        (fun _ _ hn => .within own found (by simpa using callable) (by simpa using passthrough) hn)
        (next x h)

/-- Every chain that does not unwrap the client has found its way. -/
theorem found_of_follow (n : ℕ) : ∀ (chain : List Access) (c : GovernedClient ι) {u : Thing ι},
    chain.length ≤ n → ¬Unwraps chain → follow g (.client c) chain = some u →
      Found g c.target c.names chain u := by
  induction n with
  | zero =>
    intro chain c u hlength _ h
    obtain rfl := List.length_eq_zero_iff.mp (Nat.le_zero.mp hlength)
    obtain rfl := Option.some.inj h
    trivial
  | succ n ih =>
    intro chain c u hlength hraw h
    rcases detours_of_follow _ chain (.client c) u le_rfl h with hinner |
      ⟨detour, rest, rfl, hdetour, hrest, hhead⟩
    · exact found_of_inner hinner
    have hraw : ¬Unwraps rest := fun hu => hraw (hu.append _)
    refine Found.prepend c.target _ (fun _ _ hn => .around hdetour hn) ?_
    have hnames := hdetour.namesAfter c.names []
    rw [List.append_nil] at hnames
    rw [hnames]
    change Found g c.target c.names rest u
    cases rest with
    | nil =>
      obtain rfl := Option.some.inj hrest
      trivial
    | cons a rest =>
      have hrestLength : rest.length ≤ n := by
        rw [List.length_append, List.length_cons] at hlength
        omega
      have hrestRaw : ¬Unwraps rest := fun hu => hraw (hu.append [a])
      cases a with
      | forScope scope => cases hrest
      | attr name =>
        have hmethod : name ∉ clientMethods := fun hmem => hhead name hmem rfl
        rw [follow_cons, access_getattr hmethod, Thing.getattr, GovernedClient.getattr] at hrest
        split_ifs at hrest with agentgov slot data
        · obtain rfl := agentgov
          rw [Option.bind_some] at hrest
          refine found_of_handle (fun tail c' hlt hsuffix htail => ?_) hrest
          exact ih tail c' (by omega) (fun hu => hrestRaw (hu.trans hsuffix.isInfix)) htail
        · obtain rfl := slot
          exact found_of_handsOut .slot hrest
        · obtain rfl := follow_other hrest
          trivial
        · have own : name ∉ clientNames := by
            simp only [clientNames, List.mem_append, List.mem_cons, not_or]
            exact ⟨⟨⟨agentgov, slot, List.not_mem_nil⟩, data⟩, hmethod⟩
          exact found_of_forwarded own
            (fun x hx => ih rest { c with target := x } hrestLength hrestRaw hx) hrest

/-! ### Scopes -/

/-- The scope of what is AgentGov's. -/
def Thing.scope : Thing ι → Option Text
  | client c => some c.recorder.scopeId
  | handle h => some h.recorder.scopeId
  | metered _ i | streamed _ i => some i.scopeId
  | bound self => self.scope
  | raw _ | other => none

/-- One access keeps the scope, or takes the one it derives for. -/
theorem scope_access {t u : Thing ι} {a : Access} {scope : Text} (h : t.access g a = some u)
    (hu : u.scope = some scope) :
    ∃ s, t.scope = some s ∧ scope = scopeAfter s [a] := by
  cases a with
  | forScope s =>
    cases t with
    | handle h' =>
      obtain rfl := Option.some.inj h
      exact ⟨_, rfl, (Option.some.inj hu).symm⟩
    | _ => cases h
  | attr name =>
    by_cases hmethod : name ∈ t.methods
    · rw [access_method hmethod] at h
      obtain rfl := Option.some.inj h
      exact ⟨scope, hu, rfl⟩
    rw [access_getattr hmethod] at h
    cases t with
    | raw o =>
      obtain ⟨x, -, rfl⟩ := Option.map_eq_some_iff.mp h
      cases hu
    | client c =>
      rw [Thing.getattr, GovernedClient.getattr] at h
      refine ⟨_, rfl, ?_⟩
      split_ifs at h
      · obtain rfl := Option.some.inj h
        exact (Option.some.inj hu).symm
      · obtain rfl := Option.some.inj h
        cases hu
      · obtain rfl := Option.some.inj h
        cases hu
      · rw [GovernedClient.forwarded] at h
        split at h
        · cases h
        · split_ifs at h
          all_goals
            obtain rfl := Option.some.inj h
            first
            | exact (Option.some.inj hu).symm
            | cases hu
    | handle h' =>
      rw [Thing.getattr, GovernorHandle.getattr] at h
      split_ifs at h
      all_goals
        obtain rfl := Option.some.inj h
        cases hu
    | bound self =>
      rw [Thing.getattr, Option.some.injEq] at h
      split_ifs at h
      · subst h
        exact ⟨scope, hu, rfl⟩
      · subst h
        cases hu
    | _ =>
      obtain rfl := Option.some.inj h
      cases hu

/-- Whatever is AgentGov's is of the scope the chain was derived for. -/
theorem scope_follow {t u : Thing ι} {chain : List Access} {scope : Text}
    (h : follow g t chain = some u) (hu : u.scope = some scope) :
    ∃ s, t.scope = some s ∧ scope = scopeAfter s chain := by
  induction chain generalizing t with
  | nil =>
    obtain rfl := Option.some.inj h
    exact ⟨scope, hu, rfl⟩
  | cons a chain ih =>
    rw [follow_cons, Option.bind_eq_some_iff] at h
    obtain ⟨v, hv, h⟩ := h
    obtain ⟨s, hs, rfl⟩ := ih h
    obtain ⟨s', hs', rfl⟩ := scope_access hv hs
    exact ⟨s', hs', rfl⟩

end Chains

/-- A chain that does not use `agentgov.raw` is mediated exactly where it leads through namespaces,
under a name in force, to every method to be metered that it spells the way to, and gets round the
proxies to none. -/
theorem mediated_iff (client : ι) (scope : Text) (tariff : Tariff) (names : MethodNames)
    {chain : List Access} (hraw : ¬Unwraps chain) :
    Mediated g (govern client scope tariff names) chain ↔
      (∀ path m, spelled chain = some path → IsMethod g client names path m →
        Leads g client names chain m) ∧ ¬Bypasses g client names chain := by
  have hfound : ∀ {u}, follow g (.client (govern client scope tariff names)) chain = some u →
      Found g client names chain u := found_of_follow _ chain _ le_rfl hraw
  constructor
  · intro h
    refine ⟨fun path m hpath hmethod => ?_, fun ⟨path, m, hmethod, hout⟩ => ?_⟩
    · obtain ⟨thing, hfollow, hcall⟩ := h.through path m hpath hmethod
      obtain ⟨route, hroute, hthrough⟩ := hcall false
      have hway := hfound hfollow
      cases thing with
      | metered x i =>
        obtain rfl := Option.some.inj hroute
        exact hthrough.2 ▸ hway
      | streamed x i =>
        obtain rfl := Option.some.inj hroute
        exact hthrough.2 ▸ hway
      | raw o =>
        rw [Thing.call] at hroute
        split_ifs at hroute
        obtain rfl := Option.some.inj hroute
        exact hthrough.elim
      | _ => cases hroute
    · exact h.wrapped path m hmethod (follow_of_getsOut (c := govern client scope tariff names) hout)
  · rintro ⟨hleads, hbypasses⟩
    refine ⟨fun path m hpath hmethod => ?_, fun path m hmethod hfollow => ?_⟩
    · obtain ⟨i, hfollow⟩ := follow_of_leads (c := govern client scope tariff names)
        (hleads path m hpath hmethod)
      have hscope : i.scopeId = scopeAfter scope chain := by
        rcases hfollow with hfollow | hfollow
        all_goals
          obtain ⟨s, hs, heq⟩ := scope_follow hfollow rfl
          obtain rfl := Option.some.inj hs
          exact heq
      rcases hfollow with hfollow | hfollow
      · refine ⟨_, hfollow, fun streaming => ⟨_, rfl, ?_⟩⟩
        cases streaming <;> exact ⟨hscope, rfl⟩
      · exact ⟨_, hfollow, fun streaming => ⟨_, rfl, hscope, rfl⟩⟩
    · exact hbypasses ⟨path, m, hmethod, hfound hfollow⟩

/-! ### A client -/

/-- A client with one namespace, `messages`, and its two methods, `ask` and `create`. -/
def sampleClient : ObjectGraph (Fin 4) where
  getattr o name :=
    if o = 0 ∧ name = txt "messages" then some 1
    else if o = 1 ∧ name = txt "ask" then some 2
    else if o = 1 ∧ name = txt "create" then some 3
    else none
  callable o := o = 2 ∨ o = 3
  passthrough _ := false

/-- `metered_methods={"ask", "create"}`. -/
def askNames : MethodNames where
  metered := {txt "ask", txt "create"}

/-- `client.agentgov.for_scope("b").messages`, and an attribute of it. -/
def rescopedChain (name : Text) : List Access :=
  [.attr (txt "agentgov"), .forScope (txt "b"), .attr (txt "messages"), .attr name]

/-- `client.agentgov.for_scope("b").messages.create`: a method under a default name is metered for
the other scope. -/
theorem mediated_rescopedChain :
    Mediated sampleClient (govern 0 (txt "a") sampleInterceptor.tariff askNames)
      (rescopedChain (txt "create")) := by
  refine (mediated_iff sampleClient 0 (txt "a") sampleInterceptor.tariff askNames (by decide)).mpr
    ⟨fun path m hpath hmethod => ?_, fun ⟨path, m, hmethod, hout⟩ => ?_⟩
  · obtain rfl := Option.some.inj hpath
    obtain rfl := Option.some.inj hmethod.walks
    exact ⟨[.attr (txt "agentgov"), .forScope (txt "b"), .attr (txt "messages")], txt "create", [], 1,
      rfl, .derived (.none _) (.within (by decide) rfl rfl rfl (.here 1)), by decide, rfl, rfl,
      by decide, .none _⟩
  · have hraw := follow_of_getsOut
      (c := govern 0 (txt "a") sampleInterceptor.tariff askNames) hout
    cases hraw

/-- `client.agentgov.for_scope("b").messages.ask`: the names given to `govern` do not outlast
`for_scope`, and the method comes back as it is. -/
theorem rescoped_not_mediated : txt "ask" ∈ askNames ∧ ¬Unwraps (rescopedChain (txt "ask")) ∧
    ¬Mediated sampleClient (govern 0 (txt "a") sampleInterceptor.tariff askNames)
      (rescopedChain (txt "ask")) := by
  refine ⟨by decide, by decide, fun h => ?_⟩
  have hmethod : IsMethod sampleClient 0 askNames [txt "messages", txt "ask"] 2 :=
    ⟨⟨txt "ask", rfl, by decide⟩, rfl, rfl⟩
  exact h.wrapped _ _ hmethod rfl

end AgentGov.Metering
