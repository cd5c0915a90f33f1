import KCore.Impl.CatForm
import KCore.Impl.MainAgent

/-!
# The agents (`main_agent.py`, `procedures_agent.py`, `form_agent.py`, `memory_agent.py`, `output_parser.py`)

An answer comes from the active form, from a tool or a form that the LLM chooses, or from the
memory chain. `Turn` is what the agents get from outside in one turn: the plugins' hooks and tools,
the LLM's replies, and what the forms get. The agents leave the history and the recalled memories as they are. `Act` is what they do
besides, in order; a form instance is numbered as it is made.
-/

namespace KCore.Agents

open Text MainAgent

variable {N : Type*}

/-! ## Procedures -/

structure CatTool where
  name : Str
  description : Str
  returnDirect : Bool
  startExamples : List Str
  deriving DecidableEq

/-- A subclass of `CatForm`. -/
structure FormClass extends CatForm.Class where
  description : Str
  startExamples : List Str

inductive Procedure
  | tool (t : CatTool)
  | form (f : FormClass)

def Procedure.name : Procedure → Str
  | tool t => t.name
  | form f => f.name

def Procedure.description : Procedure → Str
  | tool t => t.description
  | form f => f.description

def Procedure.startExamples : Procedure → List Str
  | tool t => t.startExamples
  | form f => f.startExamples

/-! ## The state -/

/-- An entry of `intermediate_steps`: the procedure with its input, and its output. -/
structure Step (N : Type*) where
  procedure : Str
  input : Json N
  output : Option Str

structure AgentOutput (N : Type*) where
  output : Option Str
  intermediateSteps : List (Step N)
  returnDirect : Bool

/-- `AgentOutput()`. -/
def AgentOutput.empty : AgentOutput N := ⟨none, [], false⟩

/-- An object of a form class, by its number. -/
structure FormInstance (N : Type*) where
  id : Nat
  cls : FormClass
  form : CatForm.Form N

/-- The working memory, as far as the agents write it; `forms` is the number of form instances so far. -/
structure Memory (N : Type*) where
  activeForm : Option (FormInstance N)
  forms : Nat
  agentInput : AgentInput

/-- What the agents do: a form is started, goes on, answers or is removed; the LLM is asked to choose among procedures;
a tool is run. The result is `none` where a tool raises or returns no text. -/
inductive Act (N : Type*)
  | started (id : Nat) (cls : FormClass)
  | form (id : Nat) (e : CatForm.Event N)
  | answered (id : Nat) (name output : Str)
  | removed (id : Nat)
  | asked (allowed : List Str)
  | ran (tool : CatTool) (input : Json N) (result : Option (Option Str))

/-- The variables of the tool prompt. -/
structure PromptVariables where
  tools : Str
  toolNames : Str
  examples : Str

/-- An exception: the name of its class, and its text. -/
structure Raised where
  name : Str
  text : Str

/-- What a turn gets from outside. A call whose exception is caught by the agents gives nothing where it raises. -/
structure Turn (N : Type*) where
  /-- what `format_agent_input` raises -/
  formatError : Raised
  beforeAgentStarts : AgentInput → Except Raised AgentInput
  agentFastReply : Except Raised (Option (AgentOutput N))
  /-- the prompt of the memory chain, its prefix and its suffix -/
  agentPrompt : Except Raised Str
  agentPromptInstructions : Option Str
  agentAllowedTools : List Str → Option (List Str)
  /-- `random.choice` -/
  choice : List Str → Str
  toolChain : PromptVariables → Str → Option Str
  /-- langchain's JSON parser -/
  parse : Str → Option (Json N)
  runTool : CatTool → Json N → Option (Option Str)
  memoryChain : Str → AgentInput → Except Raised Str
  /-- what the form gets that is active as the turn begins, and the one that the LLM chooses -/
  activeForm : CatForm.Turn N
  chosenForm : CatForm.Turn N

/-! ## `form_agent.py` -/

section

variable [Numeral N]

def formAgent (t : CatForm.Turn N) (m : Memory N) : Memory N × List (Act N) × AgentOutput N :=
  match m.activeForm with
  | none => (m, [], .empty)
  | some a =>
    if a.form.state = .closed then ({ m with activeForm := none }, [.removed a.id], .empty)
    else
      match CatForm.next a.cls.toClass t a.form with
      | (f, log, some output) =>
        ({ m with activeForm := some { a with form := f } }, log.map (.form a.id) ++ [.answered a.id a.cls.name output],
          ⟨some output, [⟨a.cls.name, .str [], some output⟩], true⟩)
      | (f, log, none) => ({ m with activeForm := some { a with form := f } }, log.map (.form a.id), .empty)

end

/-! ## `output_parser.py` -/

/-- The action that the LLM chooses, with its input. -/
structure LLMAction (N : Type*) where
  action : Json N
  actionInput : Json N

section

variable [Numeral N] [DecidableEq N] [Zero N]

/-- A reply that is no JSON object counts as an empty one. An input that is neither a text nor falsy is dumped. -/
def chooseProcedureOutputParser (parse : Str → Option (Json N)) (llmOutput : Str) : LLMAction N :=
  match parseJson parse llmOutput with
  | some (.obj es) =>
    let action := (Dict.find "action".toList es).getD .null
    let actionInput := (Dict.find "action_input".toList es).getD .null
    ⟨action, match actionInput with
      | .str s => .str s
      | value => if MemoryPoints.truthy value then .str value.dumps else value⟩
  | _ => ⟨.null, .null⟩

/-! ## `procedures_agent.py` -/

/-- `value in texts`. -/
def isOneOf (texts : List Str) : Json N → Bool
  | .str s => decide (s ∈ texts)
  | .null | .bool _ | .num _ | .arr _ | .obj _ => false

/-- The name of a procedure that a memory is about, if any; `none` where a key is missing, or its source cannot be in a
set. -/
def recalledName (m : Document N) : Option (Option Str) :=
  (Dict.find "type".toList m.metadata).bind fun type =>
    (Dict.find "trigger_type".toList m.metadata).bind fun triggerType =>
      (Dict.find "source".toList m.metadata).bind fun source =>
        if isOneOf ["tool".toList, "form".toList] type &&
            isOneOf ["description".toList, "start_example".toList] triggerType then
          match source with
          | .str name => some (some name)
          | .arr _ | .obj _ => none
          | .null | .bool _ | .num _ => some none
        else some none

/-- The names that are texts, as no others are those of procedures. -/
def getRecalledProceduresNames (proceduralMemories : List (Document N)) : Option (List Str) :=
  (proceduralMemories.mapM recalledName).map fun names => (names.filterMap id).dedup

def prepareAllowedProcedures (procedures : List Procedure) (recalledProceduresNames : List Str) : Dict Str Procedure :=
  (procedures.filter fun p => p.name ∈ recalledProceduresNames).foldl (fun allowed p => allowed.set p.name p) .empty

def exampleJson (name : Str) : Str :=
  "\n\x7b\n    \"action\": \"".toList ++ name ++ "\",\n    \"action_input\": \"...input here...\"\n\x7d".toList

/-- What `generate_examples` adds for a procedure. -/
def exampleOf (choice : List Str → Str) (proc : Procedure) : Str :=
  "\nQuestion: ".toList ++ choice proc.startExamples ++ "\n```json\n".toList ++ exampleJson proc.name ++
    "\n```".toList ++ "\nQuestion: I have no questions\n```json\n\x7b\n    \"action\": \"no_answer\",\n".toList ++
    "    \"action_input\": null\n\x7d\n```".toList

def generateExamples (choice : List Str → Str) (allowedProcedures : Dict Str Procedure) : Str :=
  allowedProcedures.values.foldl (fun listExamples proc =>
    if proc.startExamples = [] then listExamples
    else (if listExamples = [] then "## Here some examples:\n".toList else listExamples) ++ exampleOf choice proc) []

def promptVariables (choice : List Str → Str) (allowedProcedures : Dict Str Procedure) : PromptVariables where
  tools := join "\n".toList (allowedProcedures.values.map fun tool =>
    "- \"".toList ++ tool.name ++ "\": ".toList ++ tool.description)
  toolNames := "\"".toList ++ join "\", \"".toList allowedProcedures.keys ++ "\"".toList
  examples := generateExamples choice allowedProcedures

/-- `AgentOutput(output="")`. -/
def AgentOutput.blank : AgentOutput N := ⟨some [], [], false⟩

/-- `none` where the action cannot be looked up, which raises. -/
def executeSubagents (t : Turn N) (llmAction : LLMAction N) (allowedProcedures : Dict Str Procedure) (m : Memory N) :
    Memory N × List (Act N) × Option (AgentOutput N) :=
  if MemoryPoints.truthy llmAction.action then
    match llmAction.action with
    | .arr _ | .obj _ => (m, [], none)
    | .null | .bool _ | .num _ => (m, [], some .blank)
    | .str action =>
      match allowedProcedures.get? action with
      | none => (m, [], some .blank)
      | some (.tool tool) =>
        match t.runTool tool llmAction.actionInput with
        | none => (m, [.ran tool llmAction.actionInput none], some .blank)
        | some toolOutput => (m, [.ran tool llmAction.actionInput (some toolOutput)],
            some ⟨toolOutput, [⟨action, llmAction.actionInput, toolOutput⟩], tool.returnDirect⟩)
      | some (.form cls) =>
        let (m', acts, out) := formAgent t.chosenForm
          { m with activeForm := some ⟨m.forms, cls, .init⟩, forms := m.forms + 1 }
        (m', .started m.forms cls :: acts, some out)
  else (m, [], some .blank)

/-- `none` where it raises. -/
def executeProcedures (t : Turn N) (procedures : List Procedure) (proceduralMemories : List (Document N)) (m : Memory N) :
    Memory N × List (Act N) × Option (AgentOutput N) :=
  match t.agentPromptInstructions, (getRecalledProceduresNames proceduralMemories).bind t.agentAllowedTools with
  | some template, some names =>
    let allowedProcedures := prepareAllowedProcedures procedures names
    let asked : Act N := .asked allowedProcedures.keys
    match t.toolChain (promptVariables t.choice allowedProcedures) template with
    | none => (m, [asked], none)
    | some reply =>
      let (m, acts, out) := executeSubagents t (chooseProcedureOutputParser t.parse reply) allowedProcedures m
      (m, asked :: acts, out)
  | _, _ => (m, [], none)

/-- A line of `tools_output`. -/
def stepLine (step : Step N) : Str :=
  " - ".toList ++ step.procedure ++ ": ".toList ++ step.output.getD "None".toList ++ "\n".toList

def toolsOutput (intermediateSteps : List (Step N)) : Str :=
  "## Context of executed system tools: \n".toList ++ intermediateSteps.flatMap stepLine

def proceduresAgent (t : Turn N) (procedures : List Procedure) (proceduralMemories : List (Document N)) (m : Memory N) :
    Memory N × List (Act N) × AgentOutput N :=
  let (m, formActs, formOutput) := formAgent t.activeForm m
  if formOutput.returnDirect then (m, formActs, formOutput)
  else if proceduralMemories = [] then (m, formActs, .empty)
  else
    match executeProcedures t procedures proceduralMemories m with
    | (m, acts, none) => (m, formActs ++ acts, .empty)
    | (m, acts, some result) =>
      if result.returnDirect then (m, formActs ++ acts, result)
      else if result.intermediateSteps = [] then (m, formActs ++ acts, result)
      else ({ m with agentInput := { m.agentInput with toolsOutput := toolsOutput result.intermediateSteps } },
        formActs ++ acts, result)

/-! ## `main_agent.py` -/

/-- The agents after the input is formatted. -/
def runAgents (t : Turn N) (procedures : List Procedure) (proceduralMemories : List (Document N)) (m : Memory N) :
    Memory N × List (Act N) × Except Raised (AgentOutput N) :=
  match t.agentFastReply, t.agentPrompt with
  | .error e, _ | .ok none, .error e => (m, [], .error e)
  | .ok (some output), _ => (m, [], .ok output)
  | .ok none, .ok prompt =>
    let (m, acts, proceduresOut) := proceduresAgent t procedures proceduralMemories m
    if proceduresOut.returnDirect then (m, acts, .ok proceduresOut)
    else
      match t.memoryChain prompt m.agentInput with
      | .error e => (m, acts, .error e)
      | .ok output => (m, acts, .ok ⟨some output, proceduresOut.intermediateSteps, false⟩)

/-- `MainAgent.execute`, on what was recalled. -/
def mainAgent [One N] (p : Platform N) (clock : ℕ → p.Time) (t : Turn N) (procedures : List Procedure)
    (proceduralMemories : List (Document N)) (memory : WorkingMemory N) (m : Memory N) :
    Memory N × List (Act N) × Except Raised (AgentOutput N) :=
  match (formatAgentInput p clock memory).elim (.error t.formatError) t.beforeAgentStarts with
  | .error e => (m, [], .error e)
  | .ok agentInput => runAgents t procedures proceduralMemories { m with agentInput := agentInput }

end

end KCore.Agents
