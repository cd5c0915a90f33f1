import KCore.Impl.Artifacts.Document
import KCore.Impl.Artifacts.Review

/-!
# The phase generators (`concept_tools.py`, `system_tools.py`, `hardware_tools.py`,
`supporting_confirmation_tools.py`)

A generator asks for its required fields, then for approved upstream work products, and
saves a draft. The four of them differ in the values of a `Generator`; `generate_fsc`
also fills a summary of the HARA in. `Config` is what `config.get_project_slug` reads
besides the input and the working memory.
-/

namespace KCore.Artifacts

open Text

/-- A value of a tool's JSON input or of the working memory. Numbers, lists and objects stand with their `str()`. -/
inductive Value
  | null
  | bool (b : Bool)
  | number (isZero : Bool) (str : Str)
  | text (value : Str)
  | list (items : List Str) (str : Str)
  | object (isEmpty : Bool) (str : Str)
  deriving DecidableEq

namespace Value

/-- `bool(value)`. -/
def truthy : Value → Bool
  | null => false
  | bool b => b
  | number isZero _ => !isZero
  | text value => value ≠ []
  | list items _ => items ≠ []
  | object isEmpty _ => !isEmpty

/-- `str(value)`. -/
def str : Value → Str
  | null => "None".toList
  | bool true => "True".toList
  | bool false => "False".toList
  | number _ str | list _ str | object _ str => str
  | text value => value

/-- The value as `ensure_list` takes it apart. -/
def raw : Value → Raw
  | null => .none
  | list items _ => .list items
  | text value => .text value
  | value => .other value.str

/-- `none` for `None`, else the `str()`. -/
def str? : Value → Option Str
  | null => none
  | value => some value.str

end Value

/-- A tool's JSON input, or the working memory. -/
abbrev Values := Dict Str Value

/-- `values.get(key)`. -/
def Values.value (d : Values) (key : Str) : Value := (d.get? key).getD .null

/-- The first value that is neither `None` nor a blank text. -/
def coalesce : List Value → Value
  | [] => .null
  | .null :: values => coalesce values
  | .text value :: values => if strip value = [] then coalesce values else .text value
  | value :: _ => value

/-- `_get_value` with its default `""`, and the working memory after it. -/
def getValue (data memory : Values) (key : Str) : Value × Values :=
  match coalesce [data.value key, memory.value key] with
  | .null => (.text [], memory)
  | value => (value, if value.truthy then memory.set key value else memory)

/-- The environment variable and the setting for the project. -/
structure Config where
  envSlug : Option Str
  settingsSlug : Value
  workspaceRoot : Str

def projectSlugKey : Str := "iso26262_project_slug".toList

/-- `get_project_slug`, and the working memory after it. -/
def getProjectSlug (cfg : Config) (data memory : Values) : Str × Values :=
  let provided := if (data.value "project_slug".toList).truthy then data.value "project_slug".toList
    else data.value "project".toList
  if provided.truthy then
    let slug := normalizeProjectSlug provided.str
    (slug, memory.set projectSlugKey (.text slug))
  else if (memory.value projectSlugKey).truthy then (normalizeProjectSlug (memory.value projectSlugKey).str, memory)
  else match cfg.envSlug with
    | some (c :: cs) => (normalizeProjectSlug (c :: cs), memory)
    | none | some [] =>
      if cfg.settingsSlug.truthy then (normalizeProjectSlug cfg.settingsSlug.str, memory)
      else (defaultProjectSlug, memory)

/-! ## Texts -/

/-- `format_bullets` of an untyped value. -/
def bullets (value : Value) : Str :=
  match ensureList value.raw with
  | [] => "- TBD".toList
  | items => join "\n".toList (items.map ("- ".toList ++ ·))

/-- A part of a template: a text, or the place of a value. -/
inductive Piece
  | lit (text : Str)
  | field (key : Str)

/-- `template_str.format_map(_SafeDict(context))`. -/
def renderTemplate (template : List Piece) (context : List (Str × Str)) : Str :=
  template.flatMap fun
    | .lit text => text
    | .field key => (Dict.find key context).getD []

/-- A template of headed sections with one value each, as all of the generators' are. -/
def sections (parts : List (Str × Str)) : List Piece :=
  ((parts.map fun e => [.lit ("## ".toList ++ e.1 ++ "\n".toList), .field e.2, .lit "\n".toList]).intersperse
    [.lit "\n".toList]).flatten

/-- The lines of the JSON object that `render_missing_inputs` gives as an example. -/
def jsonFields : List Str → List Str
  | [] => []
  | [field] => ["  \"".toList ++ field ++ "\": \"...\"".toList]
  | field :: fields => ("  \"".toList ++ field ++ "\": \"...\",".toList) :: jsonFields fields

def renderMissingInputs (missingFields : List Str) : Str :=
  join "\n".toList (["## Missing Inputs".toList, "Provide the following fields to continue:".toList] ++
    missingFields.map ("- ".toList ++ ·) ++
    [[], "Reply with JSON, for example:".toList, "```json".toList, "\x7b".toList] ++ jsonFields missingFields ++
    ["\x7d".toList, "```".toList])

/-- `str()` of a key of a requirement, which may be absent. -/
def nameText (name : Option Name) : Str := (name.map Name.val).getD "None".toList

def renderMissingUpstream (missingRequirements : List Requirement) : Str :=
  join "\n".toList (["## Missing Upstream Artifacts".toList, "Generate and approve these artifacts:".toList] ++
    missingRequirements.map (fun req => "- ".toList ++ nameText req.wpId ++ " (phase: ".toList ++ nameText req.phase ++
      ", status: ".toList ++ req.wanted ++ ")".toList) ++
    [[], "Once available, re-run this generator.".toList, [],
      "If you must proceed with placeholders, reply with JSON:".toList, "```json".toList, "\x7b".toList,
      "  \"allow_missing_upstream\": true,".toList,
      "  \"manual_upstream_summary\": \"Summarize missing inputs here\"".toList, "\x7d".toList, "```".toList])

/-! ## Generators -/

def requiredFields : List Str := ["item_name".toList, "author".toList]

/-- The constants of a generator, and how its template is filled from the input, the item's name and the upstream
references. All its upstream requirements ask for approved versions. -/
structure Generator where
  phase : Name
  wpId : Name
  title : Str
  upstream : List Requirement
  reviewChecklist : List Str
  template : List Piece
  context : Values → Str → List UpstreamRef → List (Str × Str)
  approved : ∀ req ∈ upstream, req.wanted = Status.approved.text

/-- What a generator answers: a report of what is missing, or where the draft is. -/
inductive Answer
  | missingInputs (fields : List Str)
  | missingUpstream (requirements : List Requirement)
  | created (m : Metadata)

/-- `str(path)` below the workspace root. -/
def pathText (cfg : Config) (path : Path) : Str :=
  join "/".toList (cfg.workspaceRoot :: path.dir ++ [path.name])

def Answer.text (cfg : Config) : Answer → Str
  | missingInputs fields => renderMissingInputs fields
  | missingUpstream requirements => renderMissingUpstream requirements
  | created m =>
    "DRAFT created: ".toList ++ m.title ++ "\nArtifact ID: ".toList ++ m.artifactId ++ "\nVersion: v".toList ++
      pad 2 m.version ++ "\nStatus: ".toList ++ m.status.text ++ "\nPath: ".toList ++
      (m.artifactPath.map (pathText cfg)).getD []

/-- The required fields with their values, those that are missing, and the working memory after it. -/
def readFields (data : Values) : List Str → Values → List (Str × Value) × List Str × Values
  | [], memory => ([], [], memory)
  | field :: rest, memory =>
    let (value, memory) := getValue data memory field
    let (fields, missing, memory) := readFields data rest memory
    ((field, value) :: fields, if value.truthy then missing else field :: missing, memory)

/-- `str(fields[field])`. -/
def fieldText (fields : List (Str × Value)) (field : Str) : Str := ((Dict.find field fields).getD .null).str

def allowKey : Str := "allow_missing_upstream".toList

def manualKey : Str := "manual_upstream_summary".toList

/-- The assumptions of the input, and those that the generator adds. -/
def assumptionsOf (data : Values) (missingUpstream : List Requirement) : List Str :=
  ensureList (data.value "assumptions".toList).raw ++
    (if missingUpstream = [] then [] else ["Upstream artifacts were missing; placeholders were used.".toList]) ++
    if (data.value manualKey).truthy then
      ["Manual upstream summary provided: ".toList ++ (data.value manualKey).str]
    else []

/-- The text of the draft. -/
def Generator.content (g : Generator) (data : Values) (itemName : Str) (missingUpstream : List Requirement)
    (m : Metadata) : Str :=
  renderDocument m (renderTemplate g.template (g.context data itemName m.upstreamRefs))
    (assumptionsOf data missingUpstream) (ensureList (data.value "open_questions".toList).raw)
    (buildTraceabilitySection m.upstreamRefs) g.reviewChecklist

/-- The metadata of the draft; an author that is no text stands as its `str()`. -/
def Generator.metadata (g : Generator) (env : Env) (project : Str) (author : Str) (data : Values)
    (refs : List UpstreamRef) : Metadata :=
  buildMetadata (env.now 0) project g.phase g.wpId g.title author
    (normalizeText (data.value "reviewer".toList).str? []) refs (artifactIdOr [] g.wpId (env.now 1) env.suffix) 1 .draft
    none []

/-- A tool on the store, the working memory and its input: the memory and the store after it, and its answer. -/
abbrev Tool := Env → Config → Store → Values → Values → Values × Store × Answer

def Generator.run (g : Generator) : Tool := fun env cfg s memory data =>
  let (project, memory) := getProjectSlug cfg data memory
  let (fields, missing, memory) := readFields data requiredFields memory
  if missing ≠ [] then (memory, s, .missingInputs missing)
  else
    let (upstream, missingUpstream) := resolveUpstream env.listing s project g.upstream
    if missingUpstream ≠ [] && !(data.value allowKey).truthy then (memory, s, .missingUpstream missingUpstream)
    else
      let upstream := if missingUpstream = [] then upstream else []
      let m := g.metadata env project (fieldText fields "author".toList) data (makeUpstreamRefs upstream)
      let (s, m) := saveArtifact s m (g.content data (fieldText fields "item_name".toList) missingUpstream m)
      (memory, s, .created m)

/-! ## The four generators -/

/-- A requirement of an approved work product. -/
def approvedWp (phase wpId : Name) : Requirement := ⟨some phase, some wpId, some Status.approved.text⟩

theorem wanted_of_mem_approvedWp {wps : List (Name × Name)} :
    ∀ req ∈ wps.map fun e => approvedWp e.1 e.2, req.wanted = Status.approved.text := by
  simp only [List.mem_map]
  rintro _ ⟨e, -, rfl⟩
  rfl

namespace Phase

def management : Name := ⟨"management".toList, by decide⟩
def concept : Name := ⟨"concept".toList, by decide⟩
def system : Name := ⟨"system".toList, by decide⟩
def hardware : Name := ⟨"hardware".toList, by decide⟩
def software : Name := ⟨"software".toList, by decide⟩
def productionOperation : Name := ⟨"production_operation".toList, by decide⟩
def supportingConfirmation : Name := ⟨"supporting_confirmation".toList, by decide⟩

end Phase

namespace Wp

def safetyPlan : Name := ⟨"WP-SAFETYPLAN".toList, by decide⟩
def hara : Name := ⟨"WP-HARA".toList, by decide⟩
def fsc : Name := ⟨"WP-FSC".toList, by decide⟩
def tsc : Name := ⟨"WP-TSC".toList, by decide⟩
def hwSrs : Name := ⟨"WP-HW-SRS".toList, by decide⟩
def swSrs : Name := ⟨"WP-SW-SRS".toList, by decide⟩
def safetyManual : Name := ⟨"WP-SAFETYMANUAL".toList, by decide⟩
def safetyCase : Name := ⟨"WP-SAFETYCASE".toList, by decide⟩

end Wp

/-- The first section's value: its text of the input, or the item's name. -/
def overview (data : Values) (key itemName : Str) : Str × Str :=
  (key, normalizeText (data.value key).str? ("Item: ".toList ++ itemName))

def bulletsOf (data : Values) (keys : List Str) : List (Str × Str) :=
  keys.map fun key => (key, bullets (data.value key))

/-- `hara_ref` of `generate_fsc`. -/
def haraRef (data : Values) (refs : List UpstreamRef) : Str :=
  if (data.value manualKey).truthy then (data.value manualKey).str
  else match refs.find? (·.wpId = Wp.hara.val) with
    | none => "TBD".toList
    | some ref => "- HARA artifact: ".toList ++ ref.artifactId ++ " (v".toList ++ pad 2 ref.version ++ ", ".toList ++
        ref.status ++ ")".toList

def fsc : Generator where
  phase := Phase.concept
  wpId := Wp.fsc
  title := "Functional Safety Concept".toList
  upstream := [(Phase.management, Wp.safetyPlan), (Phase.concept, Wp.hara)].map fun e => approvedWp e.1 e.2
  reviewChecklist := ["HARA is referenced and approved".toList, "Safety goals are captured".toList,
    "Functional safety requirements are defined".toList, "Interfaces and dependencies are documented".toList,
    "Assumptions and open questions are listed".toList]
  template := sections [("1. Item Overview".toList, "item_overview".toList),
    ("2. HARA Summary".toList, "hara_summary".toList), ("3. Safety Goals".toList, "safety_goals".toList),
    ("4. Functional Safety Concept".toList, "functional_safety_concept".toList),
    ("5. Functional Safety Requirements".toList, "functional_safety_requirements".toList),
    ("6. Interfaces and External Dependencies".toList, "interfaces_and_dependencies".toList),
    ("7. Verification Strategy".toList, "verification_strategy".toList), ("8. References".toList, "references".toList)]
  context := fun data itemName refs => overview data "item_overview".toList itemName ::
    ("hara_summary".toList, haraRef data refs) ::
    bulletsOf data ["safety_goals".toList, "functional_safety_concept".toList,
      "functional_safety_requirements".toList, "interfaces_and_dependencies".toList, "verification_strategy".toList,
      "references".toList]
  approved := wanted_of_mem_approvedWp

def tsc : Generator where
  phase := Phase.system
  wpId := Wp.tsc
  title := "Technical Safety Concept".toList
  upstream := [(Phase.concept, Wp.fsc)].map fun e => approvedWp e.1 e.2
  reviewChecklist := ["Derived from approved Functional Safety Concept".toList,
    "Technical safety requirements are complete".toList, "Allocation to system elements is clear".toList,
    "Diagnostics and monitoring are addressed".toList, "Verification strategy is defined".toList]
  template := sections [("1. System Context".toList, "system_context".toList),
    ("2. Technical Safety Requirements".toList, "technical_safety_requirements".toList),
    ("3. Allocation to System Elements".toList, "allocation".toList),
    ("4. Interfaces and Dependencies".toList, "interfaces".toList),
    ("5. Diagnostics and Monitoring".toList, "diagnostics".toList),
    ("6. Verification Strategy".toList, "verification".toList)]
  context := fun data itemName _ => overview data "system_context".toList itemName ::
    bulletsOf data ["technical_safety_requirements".toList, "allocation".toList, "interfaces".toList,
      "diagnostics".toList, "verification".toList]
  approved := wanted_of_mem_approvedWp

def hwSrs : Generator where
  phase := Phase.hardware
  wpId := Wp.hwSrs
  title := "HW Safety Requirements Specification".toList
  upstream := [(Phase.system, Wp.tsc)].map fun e => approvedWp e.1 e.2
  reviewChecklist := ["Derived from approved Technical Safety Concept".toList,
    "Hardware safety requirements are complete".toList, "Interfaces and dependencies are identified".toList,
    "Safety mechanisms are described".toList, "Verification strategy is defined".toList]
  template := sections [("1. Hardware Item Scope".toList, "hardware_scope".toList),
    ("2. Hardware Safety Requirements".toList, "hw_safety_requirements".toList),
    ("3. Interfaces and Dependencies".toList, "interfaces".toList),
    ("4. Safety Mechanisms".toList, "safety_mechanisms".toList),
    ("5. Hardware Metrics and Targets".toList, "hardware_metrics".toList),
    ("6. Verification Strategy".toList, "verification".toList)]
  context := fun data itemName _ => overview data "hardware_scope".toList itemName ::
    bulletsOf data ["hw_safety_requirements".toList, "interfaces".toList, "safety_mechanisms".toList,
      "hardware_metrics".toList, "verification".toList]
  approved := wanted_of_mem_approvedWp

def safetyCase : Generator where
  phase := Phase.supportingConfirmation
  wpId := Wp.safetyCase
  title := "Safety Case".toList
  upstream := [(Phase.management, Wp.safetyPlan), (Phase.concept, Wp.fsc), (Phase.system, Wp.tsc),
    (Phase.hardware, Wp.hwSrs), (Phase.software, Wp.swSrs),
    (Phase.productionOperation, Wp.safetyManual)].map fun e => approvedWp e.1 e.2
  reviewChecklist := ["Safety claims are stated and traceable".toList, "Argument strategy is coherent".toList,
    "Evidence summary references approved artifacts".toList, "Residual risks and open issues are documented".toList,
    "Compliance summary is included".toList]
  template := sections [("1. Safety Case Scope and Objectives".toList, "scope_objectives".toList),
    ("2. Safety Claims".toList, "safety_claims".toList), ("3. Argument Strategy".toList, "argument_strategy".toList),
    ("4. Evidence Summary".toList, "evidence_summary".toList),
    ("5. Compliance Summary".toList, "compliance_summary".toList),
    ("6. Residual Risks and Open Issues".toList, "residual_risks".toList), ("7. References".toList, "references".toList)]
  context := fun data itemName _ => overview data "scope_objectives".toList itemName ::
    bulletsOf data ["safety_claims".toList, "argument_strategy".toList, "evidence_summary".toList,
      "compliance_summary".toList, "residual_risks".toList, "references".toList]
  approved := wanted_of_mem_approvedWp

def generateFsc : Tool := fsc.run

def generateTsc : Tool := tsc.run

def generateHwSrs : Tool := hwSrs.run

def generateSafetyCase : Tool := safetyCase.run

end KCore.Artifacts
