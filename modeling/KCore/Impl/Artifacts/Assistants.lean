import KCore.Impl.Artifacts.ReviseTools
import KCore.Impl.Hara.Artifact

/-!
# The assistants (`management_tools.py`, `concept_tools.py`, `system_tools.py`, `hardware_tools.py`,
`software_tools.py`, `production_operation_tools.py`, `supporting_confirmation_tools.py`)

For each work product an assistant has a generator and four review tools, which differ in
the checklist and the title (`Wp`). All of them write to one store. `World` is that store with the
settings and the working memory of every user; `World.after` is a call of one of the tools, of a
core tool or of a HARA tool.
-/

namespace KCore.Artifacts

open Text

namespace Assistants

open CoreTools (firstOf)

/-- The work products, in the order of the lifecycle. -/
inductive WorkProduct
  | safetyPlan
  | hara
  | fsc
  | tsc
  | hwSrs
  | swSrs
  | safetyManual
  | safetyCase
  deriving DecidableEq, Repr

/-! ## The generators of the other phases -/

theorem swSrs_approved : ∀ req ∈ [(Phase.system, Wp.tsc)].map fun e => approvedWp e.1 e.2,
    req.wanted = Status.approved.text := wanted_of_mem_approvedWp

def swSrs : Generator where
  phase := Phase.software
  wpId := Wp.swSrs
  title := "SW Safety Requirements Specification".toList
  upstream := [(Phase.system, Wp.tsc)].map fun e => approvedWp e.1 e.2
  reviewChecklist := ["Derived from approved Technical Safety Concept".toList,
    "Software safety requirements are complete".toList, "Interfaces and dependencies are identified".toList,
    "Safety mechanisms are described".toList, "Verification strategy is defined".toList]
  template := sections [("1. Software Item Scope".toList, "software_scope".toList),
    ("2. Software Safety Requirements".toList, "sw_safety_requirements".toList),
    ("3. Interfaces and Dependencies".toList, "interfaces".toList),
    ("4. Safety Mechanisms".toList, "safety_mechanisms".toList),
    ("5. Software Architecture Constraints".toList, "architecture_constraints".toList),
    ("6. Verification Strategy".toList, "verification".toList)]
  context := fun data itemName _ => overview data "software_scope".toList itemName ::
    bulletsOf data ["sw_safety_requirements".toList, "interfaces".toList, "safety_mechanisms".toList,
      "architecture_constraints".toList, "verification".toList]
  approved := swSrs_approved

def safetyManual : Generator where
  phase := Phase.productionOperation
  wpId := Wp.safetyManual
  title := "Safety Manual".toList
  upstream := [(Phase.hardware, Wp.hwSrs), (Phase.software, Wp.swSrs)].map fun e => approvedWp e.1 e.2
  reviewChecklist := ["Intended use and limitations are clear".toList,
    "Installation and integration guidance is provided".toList, "Warnings and residual risks are documented".toList,
    "Operation and maintenance instructions are included".toList, "Decommissioning guidance is included".toList]
  template := sections [("1. Intended Use and Scope".toList, "intended_use".toList),
    ("2. System Description".toList, "system_description".toList),
    ("3. Safety-Related Functions and Limitations".toList, "safety_functions".toList),
    ("4. Installation and Integration Requirements".toList, "installation_requirements".toList),
    ("5. Operation and Maintenance".toList, "operation_and_maintenance".toList),
    ("6. Warnings, Residual Risks, and Degraded Modes".toList, "warnings_and_risks".toList),
    ("7. Decommissioning and Disposal".toList, "decommissioning".toList), ("8. References".toList, "references".toList)]
  context := fun data itemName _ => overview data "intended_use".toList itemName ::
    bulletsOf data ["system_description".toList, "safety_functions".toList, "installation_requirements".toList,
      "operation_and_maintenance".toList, "warnings_and_risks".toList, "decommissioning".toList, "references".toList]
  approved := wanted_of_mem_approvedWp

def generateSwSrs : Tool := swSrs.run

def generateSafetyManual : Tool := safetyManual.run

/-! ## The safety plan -/

namespace SafetyPlan

def title : Str := "Safety Plan".toList

def requiredFields : List Str :=
  ["item_name".toList, "organization".toList, "author".toList, "safety_manager".toList]

def reviewChecklist : List Str :=
  ["Scope and objectives are clear".toList, "Roles and responsibilities are defined".toList,
    "Safety activities and schedule are realistic".toList,
    "Configuration and change management approach is stated".toList,
    "Deliverables align with project lifecycle".toList]

/-- `templates/safety_plan.md`. -/
def template : List Piece :=
  sections [("1. Purpose and Scope".toList, "purpose_scope".toList)] ++
    [.lit "\n## 2. Project Context\n- Item: ".toList, .field "item_name".toList,
      .lit "\n- Organization: ".toList, .field "organization".toList,
      .lit "\n- Safety manager: ".toList, .field "safety_manager".toList,
      .lit "\n- Project start: ".toList, .field "project_start".toList,
      .lit "\n- Target SOP: ".toList, .field "target_sop".toList, .lit "\n\n".toList] ++
    sections [("3. Roles and Responsibilities".toList, "roles_and_responsibilities".toList),
      ("4. Safety Activities and Schedule".toList, "activities_and_schedule".toList),
      ("5. Configuration and Change Management".toList, "configuration_management".toList),
      ("6. Tooling and Method Management".toList, "tooling_and_methods".toList),
      ("7. Confirmation Measures".toList, "confirmation_measures".toList), ("8. Deliverables".toList, "deliverables".toList),
      ("9. References".toList, "references".toList)]

def context (data : Values) (fields : List (Str × Value)) : List (Str × Str) :=
  let itemName := fieldText fields "item_name".toList
  let purposeScope := coalesce [data.value "purpose_scope".toList, data.value "scope".toList,
    .text ("Define the safety plan scope for ".toList ++ itemName ++ ".".toList)]
  [("purpose_scope".toList, purposeScope.str), ("item_name".toList, itemName),
    ("organization".toList, fieldText fields "organization".toList),
    ("safety_manager".toList, fieldText fields "safety_manager".toList),
    ("project_start".toList, normalizeText (data.value "project_start".toList).str? "TBD".toList),
    ("target_sop".toList, normalizeText (data.value "target_sop".toList).str? "TBD".toList)] ++
    bulletsOf data ["roles_and_responsibilities".toList, "activities_and_schedule".toList,
      "configuration_management".toList, "tooling_and_methods".toList, "confirmation_measures".toList,
      "deliverables".toList, "references".toList]

def metadata (env : Env) (project author : Str) (data : Values) : Metadata :=
  buildMetadata (env.now 0) project Phase.management Wp.safetyPlan title author
    (normalizeText (data.value "reviewer".toList).str? []) [] (artifactIdOr [] Wp.safetyPlan (env.now 1) env.suffix) 1
    .draft none []

def content (data : Values) (fields : List (Str × Value)) (m : Metadata) : Str :=
  renderDocument m (renderTemplate template (context data fields)) (ensureList (data.value "assumptions".toList).raw)
    (ensureList (data.value "open_questions".toList).raw) (buildTraceabilitySection []) reviewChecklist

end SafetyPlan

def generateSafetyPlan : Tool := fun env cfg s memory data =>
  let (project, memory) := getProjectSlug cfg data memory
  let (fields, missing, memory) := readFields data SafetyPlan.requiredFields memory
  if missing ≠ [] then (memory, s, .missingInputs missing)
  else
    let m := SafetyPlan.metadata env project (fieldText fields "author".toList) data
    let (s, m) := saveArtifact s m (SafetyPlan.content data fields m)
    (memory, s, .created m)

/-! ## The values of the work products -/

namespace WorkProduct

def phase : WorkProduct → Name
  | safetyPlan => Phase.management
  | hara | fsc => Phase.concept
  | tsc => Phase.system
  | hwSrs => Phase.hardware
  | swSrs => Phase.software
  | safetyManual => Phase.productionOperation
  | safetyCase => Phase.supportingConfirmation

def wpId : WorkProduct → Name
  | safetyPlan => Wp.safetyPlan
  | hara => Wp.hara
  | fsc => Wp.fsc
  | tsc => Wp.tsc
  | hwSrs => Wp.hwSrs
  | swSrs => Wp.swSrs
  | safetyManual => Wp.safetyManual
  | safetyCase => Wp.safetyCase

/-- `TITLE`, as the generator and the revision prompt have it. -/
def title : WorkProduct → Str
  | safetyPlan => SafetyPlan.title
  | hara => Hara.titleHara
  | fsc => Artifacts.fsc.title
  | tsc => Artifacts.tsc.title
  | hwSrs => Artifacts.hwSrs.title
  | swSrs => Assistants.swSrs.title
  | safetyManual => Assistants.safetyManual.title
  | safetyCase => Artifacts.safetyCase.title

/-- `REVIEW_CHECKLIST`. -/
def reviewChecklist : WorkProduct → List Str
  | safetyPlan => SafetyPlan.reviewChecklist
  | hara => Hara.reviewChecklistHara
  | fsc => Artifacts.fsc.reviewChecklist
  | tsc => Artifacts.tsc.reviewChecklist
  | hwSrs => Artifacts.hwSrs.reviewChecklist
  | swSrs => Assistants.swSrs.reviewChecklist
  | safetyManual => Assistants.safetyManual.reviewChecklist
  | safetyCase => Artifacts.safetyCase.reviewChecklist

/-- The upstream requirements of the generator. -/
def upstream : WorkProduct → List Requirement
  | safetyPlan | hara => []
  | fsc => Artifacts.fsc.upstream
  | tsc => Artifacts.tsc.upstream
  | hwSrs => Artifacts.hwSrs.upstream
  | swSrs => Assistants.swSrs.upstream
  | safetyManual => Assistants.safetyManual.upstream
  | safetyCase => Artifacts.safetyCase.upstream

end WorkProduct

/-! ## The review tools -/

/-- The four review tools begin with the id of an artifact; `missingFields` are those they ask for without one. -/
def withArtifactId (s : Store) (data : Values) (missingFields : List Str) (tool : Value → Store × Option Str) :
    Store × Option Str :=
  let artifactId := firstOf data ["artifact_id".toList, "text".toList]
  if artifactId.truthy then tool artifactId else (s, some (renderMissingInputs missingFields))

/-- The ids of the store are texts, so that no artifact is found for another value. -/
def onText (s : Store) (artifactId : Value) (call : Str → Store × Option Str) : Store × Option Str :=
  match artifactId with
  | .text id => call id
  | value => (s, some (notFound value.str))

/-- A value that is set if it is truthy; one that is no text stands as its `str()`. -/
def given (value : Value) : Option Str := if value.truthy then some value.str else none

def answered {σ : Type*} (r : σ × Str) : σ × Option Str := (r.1, some r.2)

def requestReviewTool (checklist : List Str) (env : Env) (s : Store) (data : Values) : Store × Option Str :=
  withArtifactId s data ["artifact_id".toList] fun artifactId => onText s artifactId fun id =>
    answered (requestReview env s id (given (data.value "reviewer".toList)) checklist)

def requestChangesTool (env : Env) (s : Store) (data : Values) : Store × Option Str :=
  withArtifactId s data ["artifact_id".toList, "change_requests".toList] fun artifactId => onText s artifactId fun id =>
    answered (requestChanges env s id (data.value "change_requests".toList).raw)

def approveTool (env : Env) (s : Store) (data : Values) : Store × Option Str :=
  withArtifactId s data ["artifact_id".toList, "reviewer".toList] fun artifactId => onText s artifactId fun id =>
    answered (approve env s id (given (data.value "reviewer".toList)) (data.value "notes".toList).str?)

/-- The content for `revise`, `none` for a document that is no text, on which it raises. -/
def revisedContent (title : Str) (p : ReviseTools.Platform) (s : Store) (previous : Metadata)
    (changeRequests : List Str) (revisedDocument : Value) : Option Str :=
  let currentContent := ReviseTools.currentContent p s previous
  if revisedDocument.truthy then
    match revisedDocument with
    | .text document => some document
    | _ => none
  else if changeRequests ≠ [] then
    some (((p.llm (ReviseTools.buildRevisionPrompt changeRequests currentContent title)).map strip).getD currentContent)
  else some currentContent

def reviseTool (title : Str) (p : ReviseTools.Platform) (s : Store) (data : Values) : Store × Option Str :=
  withArtifactId s data ["artifact_id".toList] fun artifactId => onText s artifactId fun id =>
    match getLatestById p.env.listing s id none with
    | none => (s, some (notFound id))
    | some previous =>
      let changeRequests := ensureList (data.value "change_requests".toList).raw
      match revisedContent title p s previous changeRequests (data.value "revised_document".toList) with
      | none => (s, none)
      | some newContent =>
        match revise p.env s id newContent (.list changeRequests) (some previous.author) with
        | (s, none) => (s, some ("Revision failed for ".toList ++ id))
        | (s, some newMeta) => (s, some ("Revision created: ".toList ++ id ++ " v".toList ++ pad 2 newMeta.version ++
            "\nStatus: ".toList ++ newMeta.status.text))

/-! ## The tools together -/

/-- What a call of a tool gets from Python, the operating system and the LLM. -/
structure Platform extends CoreTools.Platform where
  now : Nat → UtcTime
  suffix : Str
  readable : Bool
  llm : Str → Option Str
  load : Hara.ModuleLoad
  unicode : Hara.Unicode

def Platform.env (p : Platform) : Env := ⟨p.listing, p.now, p.suffix⟩

/-- The working memory of a user, with the keys of the HARA tools apart. -/
structure UserMemory where
  values : Values
  hara : Hara.Memory

/-- What the users share, and the working memory of each. -/
structure World where
  users : Str → UserMemory
  settings : Values
  store : Store

/-- The tool that is called, with its input. -/
inductive Use
  | core (tool : CoreTools.Tool) (toolInput : Str)
  | hara (call : Hara.Call)
  | generate (wp : WorkProduct) (toolInput : Str)
  | requestReview (wp : WorkProduct) (toolInput : Str)
  | requestChanges (wp : WorkProduct) (toolInput : Str)
  | revise (wp : WorkProduct) (toolInput : Str)
  | approve (wp : WorkProduct) (toolInput : Str)

structure Event where
  user : Str
  platform : Platform
  use : Use

def World.core (w : World) (user : Str) : CoreTools.World := ⟨(w.users user).values, w.settings, w.store⟩

def World.config (w : World) (e : Event) : Config := e.platform.toPlatform.config (w.core e.user)

def World.setUser (w : World) (user : Str) (memory : UserMemory) : World :=
  { w with users := Function.update w.users user memory }

/-- A generator on the working memory of the user and the store. -/
def World.generateWith (w : World) (e : Event) (tool : Tool) (data : Values) : Option Str × World :=
  let (values, store, answer) := tool e.platform.env (w.config e) w.store (w.users e.user).values data
  (some (answer.text (w.config e)), { w.setUser e.user ⟨values, (w.users e.user).hara⟩ with store := store })

def World.generateHara (w : World) (e : Event) (data : Values) : Option Str × World :=
  let (session, answer) := Hara.generateHaraArtifact e.platform.env (w.config e) e.platform.load
    ⟨(w.users e.user).hara, (w.users e.user).values, w.store⟩ data
  (answer.text (w.config e), { w.setUser e.user ⟨session.values, session.memory⟩ with store := session.store })

def World.generate (w : World) (e : Event) (data : Values) : WorkProduct → Option Str × World
  | .safetyPlan => w.generateWith e generateSafetyPlan data
  | .hara => w.generateHara e data
  | .fsc => w.generateWith e generateFsc data
  | .tsc => w.generateWith e generateTsc data
  | .hwSrs => w.generateWith e generateHwSrs data
  | .swSrs => w.generateWith e generateSwSrs data
  | .safetyManual => w.generateWith e generateSafetyManual data
  | .safetyCase => w.generateWith e generateSafetyCase data

/-- A tool that only writes to the store. -/
def World.review (w : World) (r : Store × Option Str) : Option Str × World := (r.2, { w with store := r.1 })

/-- A tool begins with its input as a dictionary. -/
def World.withData (w : World) (e : Event) (toolInput : Str) (tool : Values → Option Str × World) :
    Option Str × World :=
  match CoreTools.parseToolInput e.platform.toPlatform toolInput with
  | some (.dict data) => tool data
  | some .other | none => (none, w)

def World.callCore (w : World) (e : Event) (tool : CoreTools.Tool) (toolInput : Str) : Option Str × World :=
  let (answer, core) := CoreTools.call e.platform.toPlatform (w.core e.user) toolInput tool
  (answer, { w.setUser e.user ⟨core.memory, (w.users e.user).hara⟩ with settings := core.settings, store := core.store })

/-- What a tool returns: a text, or `none` where it raises. -/
inductive Reply
  | text (answer : Option Str)
  | hara (answer : Hara.Answer)

def World.replied (r : Option Str × World) : Reply × World := (.text r.1, r.2)

/-- The reply of a call, and the world after it. -/
def World.call (w : World) (e : Event) : Reply × World :=
  match e.use with
  | .hara call =>
    let (memory, answer) := Hara.step e.platform.unicode (w.users e.user).hara call
    (.hara answer, w.setUser e.user ⟨(w.users e.user).values, memory⟩)
  | .core tool toolInput => World.replied (w.callCore e tool toolInput)
  | .generate wp toolInput => World.replied (w.withData e toolInput fun data => w.generate e data wp)
  | .requestReview wp toolInput => World.replied (w.withData e toolInput fun data =>
    w.review (requestReviewTool wp.reviewChecklist e.platform.env w.store data))
  | .requestChanges _ toolInput => World.replied (w.withData e toolInput fun data =>
    w.review (requestChangesTool e.platform.env w.store data))
  | .revise wp toolInput => World.replied (w.withData e toolInput fun data =>
    w.review (reviseTool wp.title ⟨e.platform.env, e.platform.readable, e.platform.llm⟩ w.store data))
  | .approve _ toolInput => World.replied (w.withData e toolInput fun data =>
    w.review (approveTool e.platform.env w.store data))

def World.after (w : World) (e : Event) : World := (w.call e).2

end Assistants

end KCore.Artifacts
