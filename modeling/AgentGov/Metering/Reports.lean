import AgentGov.Foundation.OrderedDict
import AgentGov.Metering.Pricing

/-!
# Usage as the adapters read it

How the adapters of agent frameworks read token counts off whatever a run reports
(`src/src/agentgov/adapters/crewai.py`, lines 49–51 and 79–123, and
`src/src/agentgov/adapters/langchain.py`, lines 50–142). Counts stand under several names, in
several containers, and may be floats; what is no count is passed over.

## Main definitions

* `AgentGov.Metering.Report`: a Python value, as far as usage is read off it.
* `AgentGov.Metering.extractCrewUsage`: the cumulative usage of a crew.
* `AgentGov.Metering.extractLangchainUsage`: the usage of a model call.
-/

open Foundation

namespace AgentGov.Metering

/-! ### Values -/

/-- A Python float. -/
inductive FloatValue
  | finite (q : ℚ)
  | infinite
  | nan
deriving DecidableEq

/-- `int(value)` of a float, towards zero. -/
def FloatValue.toInt : FloatValue → Except ReadFault ℤ
  | finite q => .ok (if q < 0 then ⌈q⌉ else ⌊q⌋)
  -- OverflowError
  | infinite => .error .other
  | nan => .error .valueError

/-- A Python value, as far as usage is read off it. -/
inductive Report
  /-- `None` -/
  | none
  | int (n : ℤ)
  | float (x : FloatValue)
  /-- A value with no counts in it: a boolean, a text, a number of another type. -/
  | other
  /-- Any other value: its attributes, its items if it is a mapping, and its elements if it is a
  sequence. -/
  | object (attributes : List (Text × Report)) (items : Option (List (Text × Report)))
      (elements : Option (List Report))
  /-- What stands where reading raises. -/
  | faulty (fault : ReadFault)

namespace Report

/-- `getattr(source, name, default)`. -/
def getattr (source : Report) (name : Text) (default : Report) : Except ReadFault Report :=
  match source with
  | object attributes _ _ =>
    match Dict.assoc attributes name with
    | some (faulty .attributeError) => .ok default
    | some (faulty fault) => .error fault
    | some value => .ok value
    | Option.none => .ok default
  | _ => .ok default

/-- `source.get(name)` of a mapping's items. -/
def get (items : List (Text × Report)) (name : Text) : Except ReadFault Report :=
  match Dict.assoc items name with
  | some (faulty fault) => .error fault
  | some value => .ok value
  | Option.none => .ok none

/-- What a mapping or an object has under a name. -/
def field (source : Report) (name : Text) : Except ReadFault Report :=
  match source with
  | object _ (some items) _ => get items name
  | source => source.getattr name none

/-- The elements of a sequence. A value of another type has none to read. -/
def elements : Report → List Report
  | object _ _ (some elements) => elements
  | _ => []

/-- `_read_int`: the first integer among some names. -/
def readInt (source : Report) : List Text → Except ReadFault ℤ
  | [] => .ok 0
  | name :: rest => do
    match ← source.field name with
    | int n => .ok n
    | float x => x.toInt
    | _ => readInt source rest

end Report

/-- `total_tokens`. -/
def TokenUsage.totalTokens (u : TokenUsage) : ℕ :=
  u.inputTokens + u.outputTokens + u.cacheReadInputTokens + u.cacheCreationInputTokens

/-- `TokenUsage(...)` of counts that were read, which refuses a negative one. -/
def usageOf (input output cacheRead cacheCreation : ℤ) : Except ReadFault TokenUsage := do
  .ok {
    inputTokens := ← countField (some input)
    outputTokens := ← countField (some output)
    cacheReadInputTokens := ← countField (some cacheRead)
    cacheCreationInputTokens := ← countField (some cacheCreation) }

/-! ### Crews -/

namespace Crew

/-- `_USAGE_CONTAINERS`. -/
def usageContainers : List Text := [txt "token_usage", txt "usage_metrics", txt "usage"]

/-- `_INPUT_ALIASES`. -/
def inputAliases : List Text := [txt "prompt_tokens", txt "input_tokens"]

/-- `_OUTPUT_ALIASES`. -/
def outputAliases : List Text := [txt "completion_tokens", txt "output_tokens"]

/-- `_CACHED_ALIASES`. -/
def cachedAliases : List Text := [txt "cached_prompt_tokens", txt "cache_read_input_tokens"]

/-- The counts a holder carries itself. -/
def counts (holder : Report) : Except ReadFault TokenUsage := do
  usageOf (← holder.readInt inputAliases) (← holder.readInt outputAliases)
    (← holder.readInt cachedAliases) 0

/-- The counts in the first container that has any, or else the result's own. -/
def countsIn (result : Report) : List Text → Except ReadFault TokenUsage
  | [] => counts result
  | container :: rest => do
    match ← result.field container with
    | .none => countsIn result rest
    | holder => do
      let usage ← counts holder
      if usage.totalTokens ≠ 0 then .ok usage else countsIn result rest

end Crew

/-- `extract_crew_usage`: the cumulative token counts of a crew's result, or of a crew. -/
def extractCrewUsage (result : Report) : Except ReadFault TokenUsage :=
  Crew.countsIn result Crew.usageContainers

/-! ### Model calls -/

namespace Langchain

/-- `_USAGE_CONTAINERS`. -/
def usageContainers : List Text := [txt "usage_metadata", txt "token_usage", txt "usage"]

/-- `_INPUT_ALIASES`. -/
def inputAliases : List Text := [txt "input_tokens", txt "prompt_tokens", txt "promptTokens"]

/-- `_OUTPUT_ALIASES`. -/
def outputAliases : List Text :=
  [txt "output_tokens", txt "completion_tokens", txt "completionTokens"]

/-- `_CACHE_READ_ALIASES`. -/
def cacheReadAliases : List Text := [txt "cache_read_input_tokens", txt "cache_read"]

/-- `_CACHE_WRITE_ALIASES`. -/
def cacheWriteAliases : List Text := [txt "cache_creation_input_tokens", txt "cache_creation"]

/-- `_usage_from`: the usage a source carries, unless it carries no token. -/
def usageFrom (source : Report) : Except ReadFault (Option TokenUsage) :=
  match source with
  | .none => .ok none
  | source => do
    let usage ← usageOf (← source.readInt inputAliases) (← source.readInt outputAliases)
      (← source.readInt cacheReadAliases) (← source.readInt cacheWriteAliases)
    .ok (if usage.totalTokens = 0 then none else some usage)

/-- The first usage among sources, each read when its turn comes. -/
def firstUsage : List (Except ReadFault Report) → Except ReadFault (Option TokenUsage)
  | [] => .ok none
  | source :: rest => do
    match ← usageFrom (← source) with
    | some usage => .ok (some usage)
    | none => firstUsage rest

/-- The containers on the messages of the generations. -/
def generationSources (generations : Report) : List (Except ReadFault Report) :=
  (generations.elements.flatMap Report.elements).flatMap fun generation =>
    usageContainers.map fun container => do
      (← generation.getattr (txt "message") generation).getattr container .none

/-- The containers in the bag of a provider, and the bag itself. -/
def outputSources (llmOutput : Report) : List (Except ReadFault Report) :=
  match llmOutput with
  | .object _ (some items) _ => usageContainers.map (Report.get items) ++ [.ok llmOutput]
  | _ => []

/-- The containers on a result, and the result itself. -/
def resultSources (result : Report) : List (Except ReadFault Report) :=
  (usageContainers.map fun container => result.getattr container .none) ++
    (match result with
    | .object _ (some items) _ => usageContainers.map (Report.get items)
    | _ => []) ++ [.ok result]

end Langchain

/-- `extract_langchain_usage`: the token counts of a result or a message. -/
def extractLangchainUsage (result : Report) : Except ReadFault TokenUsage := do
  match ← Langchain.firstUsage
    (Langchain.generationSources (← result.getattr (txt "generations") .none)) with
  | some usage => .ok usage
  | none =>
    match ← Langchain.firstUsage
      (Langchain.outputSources (← result.getattr (txt "llm_output") .none)) with
    | some usage => .ok usage
    | none =>
      match ← Langchain.firstUsage (Langchain.resultSources result) with
      | some usage => .ok usage
      | none => .error .typeError

end AgentGov.Metering
