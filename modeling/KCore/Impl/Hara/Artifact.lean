import KCore.Impl.Artifacts.Generators
import KCore.Impl.Hara.Tools

/-!
# The HARA work product (`concept_tools.py`)

`generate_hara_artifact` saves the table and the safety goals that it finds in the working
memory, for an item that its input names or a key of its own. `Session` is that memory, the
keys of the HARA tools apart from the others, with the store; `Event` is a call of a HARA
tool or of this one.
-/

namespace KCore.Hara

open Text Artifacts

structure Session where
  memory : Memory
  values : Values
  store : Store

/-- What `_load_hara_module` does: it returns the module or `None`, or the module raises while it is loaded. -/
inductive ModuleLoad
  | loaded
  | missing
  | raises
  deriving DecidableEq

inductive ArtifactAnswer
  | answer (a : Artifacts.Answer)
  | pluginNotFound
  | raised

/-- `none` where the tool raises. -/
def ArtifactAnswer.text (cfg : Config) : ArtifactAnswer → Option Str
  | answer a => some (a.text cfg)
  | pluginNotFound => some "HARA plugin not found. Ensure AI_Agent-HARA_Assistant is installed.".toList
  | raised => none

def titleHara : Str := "Hazard Analysis and Risk Assessment".toList

def reviewChecklistHara : List Str :=
  ["Item context is documented".toList, "Hazard list and classifications are present".toList,
    "ASIL determinations are recorded".toList, "Safety goals are derived or referenced".toList]

/-- `templates/hara.md`. -/
def haraTemplate : List Piece :=
  sections [("1. Item and Operational Context".toList, "item_context".toList),
    ("2. HARA Table".toList, "hara_table".toList), ("3. Safety Goals Summary".toList, "safety_goals_summary".toList),
    ("4. References".toList, "references".toList)]

/-- `value or "TBD"`. -/
def orTbd (value : Str) : Str := if value = [] then "TBD".toList else value

def artifactContent (data : Values) (itemName haraTable safetyGoals : Str) (m : Metadata) : Str :=
  renderDocument m
    (renderTemplate haraTemplate
      [overview data "item_context".toList itemName, ("hara_table".toList, orTbd haraTable),
        ("safety_goals_summary".toList, orTbd safetyGoals), ("references".toList, bullets (data.value "references".toList))])
    (ensureList (data.value "assumptions".toList).raw) (ensureList (data.value "open_questions".toList).raw)
    (buildTraceabilitySection []) reviewChecklistHara

def artifactMetadata (env : Env) (project author : Str) (data : Values) : Metadata :=
  buildMetadata (env.now 0) project Phase.concept Wp.hara titleHara author
    (normalizeText (data.value "reviewer".toList).str? []) [] (artifactIdOr [] Wp.hara (env.now 1) env.suffix) 1 .draft
    none []

/-- The tool once it has its inputs. -/
def saveHaraArtifact (env : Env) (load : ModuleLoad) (s : Session) (data : Values) (project : Str)
    (itemName author : Value) : Session × ArtifactAnswer :=
  match load, s.memory.haraTable with
  | .missing, _ => (s, .pluginNotFound)
  | .raises, _ => (s, .raised)
  -- `generate_hara_table` is a `CatTool` here, which has a `run` but no `__call__`
  | .loaded, none => (s, .raised)
  | .loaded, some haraTable =>
    let m := artifactMetadata env project author.str data
    let (store, m) := saveArtifact s.store m
      (artifactContent data itemName.str haraTable (text s.memory.safetyGoals) m)
    ({ s with store := store }, .answer (.created m))

def generateHaraArtifact (env : Env) (cfg : Config) (load : ModuleLoad) (s : Session) (data : Values) :
    Session × ArtifactAnswer :=
  let (project, values) := getProjectSlug cfg data s.values
  let (itemName, values) := getValue data values "item_name".toList
  let (author, values) := getValue data values "author".toList
  let s := { s with values := values }
  if !itemName.truthy || !author.truthy then (s, .answer (.missingInputs ["item_name".toList, "author".toList]))
  else saveHaraArtifact env load s data project itemName author

inductive Event
  | tool (c : Call)
  | generateHaraArtifact (env : Env) (cfg : Config) (load : ModuleLoad) (data : Values)

/-- The session after a call. -/
def Session.after (u : Unicode) (s : Session) : Event → Session
  | .tool c => { s with memory := (step u s.memory c).1 }
  | .generateHaraArtifact env cfg load data => (Hara.generateHaraArtifact env cfg load s data).1

end KCore.Hara
