import KCore.Lib.StableSort
import Mathlib.Data.List.Lex
import Mathlib.Data.Char
import KCore.Impl.Artifacts.Generators

/-!
# The tools of the core assistant (`core_tools.py`, `utils.parse_tool_input`)

The four tools that set the project, list artifacts and show one. Their input is a
text that a language model wrote. `Platform` is what they get from Python and the
operating system, `World` what they share. The answer is `none` where a tool
raises.
-/

namespace KCore.Artifacts.CoreTools

open Text

/-- What `json.loads` makes of a text: an object, another value, a `JSONDecodeError`, or another exception. -/
inductive Loaded
  | object (data : Values)
  | other
  | notJson
  | raises

/-- A path as `pathlib` joins it: below the workspace root, or absolute. -/
structure Base where
  absolute : Bool
  parts : List Str
  deriving DecidableEq

/-- `base / p`. -/
def Base.join (b : Base) (p : Str) : Base :=
  let parts := (split '/' p).filter fun part => part ≠ [] ∧ part ≠ ".".toList
  if p.head? = some '/' then ⟨true, parts⟩ else ⟨b.absolute, b.parts ++ parts⟩

/-- The path does not lead out of the workspace. -/
def Base.inside (b : Base) : Bool := !b.absolute && !b.parts.contains "..".toList

/-- `raises`: looking the path up raises, as it does for a name that is too long; `outside`: what `list_metadata` loads
below a path outside of the workspace, `none` for a value that is no object. -/
structure Platform where
  loads : Str → Loaded
  envSlug : Option Str
  workspaceRoot : Str
  savable : Bool
  listing : Listing
  raises : Base → Bool
  outside : Base → List (Option Metadata)

structure World where
  memory : Values
  settings : Values
  store : Store

def Platform.config (p : Platform) (w : World) : Config :=
  ⟨p.envSlug, w.settings.value "default_project_slug".toList, p.workspaceRoot⟩

/-- What `parse_tool_input` gives for a text: a dictionary, or a value without `get`. -/
inductive Data
  | dict (data : Values)
  | other

def parseToolInput (p : Platform) (toolInput : Str) : Option Data :=
  let stripped := strip toolInput
  if stripped = [] then some (.dict .empty)
  else
    match p.loads stripped with
    | .object data => some (.dict data)
    | .other => some .other
    | .notJson => some (.dict (Dict.empty.set "text".toList (.text stripped)))
    | .raises => none

/-- `data.get(key) or …`, for the keys in order. -/
def firstOf (data : Values) : List Str → Value
  | [] => .null
  | [key] => data.value key
  | key :: keys => if (data.value key).truthy then data.value key else firstOf data keys

/-- The tools begin with the input as a dictionary. -/
def withData (p : Platform) (w : World) (toolInput : Str) (tool : Values → Option Str × World) : Option Str × World :=
  match parseToolInput p toolInput with
  | some (.dict data) => tool data
  | some .other | none => (none, w)

/-! ## Setting the project -/

def setProjectSlug (p : Platform) (w : World) (projectSlug : Value) (persist : Bool) : Str × World :=
  let slug := normalizeProjectSlug projectSlug.str
  let settings := if persist && p.savable then w.settings.set "default_project_slug".toList (.text slug) else w.settings
  (slug, { w with memory := w.memory.set projectSlugKey (.text slug), settings := settings })

def setProject (p : Platform) (w : World) (toolInput : Str) : Option Str × World :=
  withData p w toolInput fun data =>
    let projectSlug := firstOf data ["project_slug".toList, "project".toList, "text".toList]
    if projectSlug.truthy then
      let (slug, w) := setProjectSlug p w projectSlug (data.value "persist".toList).truthy
      (some ("Active project set to: ".toList ++ slug), w)
    else (some "Missing project_slug. Provide \x7b\"project_slug\": \"...\"\x7d.".toList, w)

/-! ## Listing artifacts -/

/-- A filter is skipped where it is falsy; another value than a text cannot be joined to a path. -/
def pathArg (value : Value) : Option (Option Str) :=
  if value.truthy then
    match value with
    | .text t => some (some t)
    | _ => none
  else some none

/-- The directory that `list_metadata` searches; an empty filter is skipped. -/
def baseOf (projectSlug phase wpId : Option Str) : Base :=
  let base : Base := ⟨false, ((projectSlug.filter (· ≠ [])).map projectRoot).getD []⟩
  let base := ((phase.filter (· ≠ [])).map base.join).getD base
  ((wpId.filter (· ≠ [])).map base.join).getD base

/-- The sidecars of the store below a directory. -/
def below (g : Listing) (s : Store) (dir : List Str) : List Metadata :=
  (g.order (s.entries.filter fun e => dir <+: e.1.dir && isSidecarName e.1.name)).filterMap fun e => loadMetadata e.2

/-- `list_metadata` below a directory. -/
def findMetadata (p : Platform) (s : Store) (base : Base) : Option (List (Option Metadata)) :=
  if p.raises base then none
  else some (if base.inside then (below p.listing s base.parts).map some else p.outside base)

/-- `[m for m in metas if m.get("status") == status]`, where there is a status. -/
def withStatus (status : Value) (metas : List Metadata) : List Metadata :=
  if status.truthy then metas.filter fun m => status = .text m.status.text else metas

/-- The loop that keeps the latest version of each artifact. -/
def latestStep (latest : Dict Str Metadata) (m : Metadata) : Dict Str Metadata :=
  if m.artifactId = [] then latest
  else
    match latest.get? m.artifactId with
    | none => latest.set m.artifactId m
    | some old => if m.version > old.version then latest.set m.artifactId m else latest

def latestVersions (metas : List Metadata) : List Metadata :=
  (stableSort Prod.fst (metas.foldl latestStep .empty).entries).map Prod.snd

def artifactLine (m : Metadata) : Str :=
  "- ".toList ++ upstreamItem (makeUpstreamRef m) ++ " - ".toList ++ m.title

def listingText (projectSlug : Str) (artifacts : List Metadata) : Str :=
  join "\n".toList (("Artifacts for project '".toList ++ projectSlug ++ "':".toList) :: artifacts.map artifactLine)

def nothingFound (projectSlug : Str) : Str := "No artifacts found for project '".toList ++ projectSlug ++ "'.".toList

/-- What follows `list_metadata`; a value that is no object has no `get`. -/
def listing (p : Platform) (s : Store) (projectSlug : Str) (base : Base) (status : Value) : Option Str :=
  ((findMetadata p s base).bind (·.mapM id)).map fun metas =>
    let metas := withStatus status metas
    if metas = [] then nothingFound projectSlug else listingText projectSlug (latestVersions metas)

def listArtifacts (p : Platform) (w : World) (toolInput : Str) : Option Str × World :=
  -- without a dictionary, the project is the one of the working memory, and `data.get` raises
  withData p w toolInput fun data =>
    let (projectSlug, memory) := getProjectSlug (p.config w) data w.memory
    let answer := (pathArg (data.value "phase".toList)).bind fun phase =>
      (pathArg (data.value "wp_id".toList)).bind fun wpId =>
        listing p w.store projectSlug (baseOf (some projectSlug) phase wpId) (data.value "status".toList)
    (answer, { w with memory := memory })

/-! ## Showing an artifact -/

/-- `get_latest_by_id` for a value of the input; the ids of the store are texts. -/
def findArtifact (p : Platform) (s : Store) : Value → Option Metadata
  | .text artifactId => getLatestById p.listing s artifactId none
  | _ => none

def artifactText (p : Platform) (w : World) (m : Metadata) (includeContent : Bool) : Str :=
  join "\n".toList
    (["Artifact ID: ".toList ++ m.artifactId, "Title: ".toList ++ m.title, "WP ID: ".toList ++ m.wpId.val,
      "Phase: ".toList ++ m.phase.val, "Project: ".toList ++ m.projectSlug,
      "Version: v".toList ++ formatVersion m.version, "Status: ".toList ++ m.status.text,
      "Author: ".toList ++ m.author, "Reviewer: ".toList ++ m.reviewer,
      "Artifact Path: ".toList ++ (m.artifactPath.map (pathText (p.config w))).getD "None".toList] ++
    if includeContent then ["\n---\n".toList, readArtifactContent w.store m] else [])

/-- The two tools look an artifact up in the same way. -/
def withArtifact (p : Platform) (w : World) (data : Values) (answer : Metadata → Str) : Str :=
  let artifactId := firstOf data ["artifact_id".toList, "text".toList]
  if artifactId.truthy then
    match findArtifact p w.store artifactId with
    | none => "Artifact not found: ".toList ++ artifactId.str
    | some m => answer m
  else "Missing artifact_id. Provide \x7b\"artifact_id\": \"...\"\x7d.".toList

def showArtifact (p : Platform) (w : World) (toolInput : Str) : Option Str × World :=
  withData p w toolInput fun data =>
    (some (withArtifact p w data fun m => artifactText p w m (data.value "include_content".toList).truthy), w)

def showTraceability (p : Platform) (w : World) (toolInput : Str) : Option Str × World :=
  withData p w toolInput fun data =>
    (some (withArtifact p w data fun m => buildTraceabilitySection m.upstreamRefs), w)

/-! ## Calls -/

inductive Tool
  | setIso26262Project
  | listIso26262Artifacts
  | showIso26262Artifact
  | showIso26262Traceability
  deriving DecidableEq

def call (p : Platform) (w : World) (toolInput : Str) : Tool → Option Str × World
  | .setIso26262Project => setProject p w toolInput
  | .listIso26262Artifacts => listArtifacts p w toolInput
  | .showIso26262Artifact => showArtifact p w toolInput
  | .showIso26262Traceability => showTraceability p w toolInput

end KCore.Artifacts.CoreTools
