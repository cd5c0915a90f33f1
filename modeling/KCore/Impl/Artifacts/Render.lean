import KCore.Impl.Artifacts.Store

/-!
# Rendered text (`template_renderer.py`, `traceability.py`, `utils.py`)

The Document Control header, the review checklist, and the readings of a tool's
untyped input. A number or a boolean of the input stands as its `str()`.
-/

namespace KCore.Artifacts

open Text

/-- An untyped value, as a tool's JSON input holds it. -/
inductive Raw
  | none
  | list (items : List Str)
  | text (value : Str)
  | other (value : Str)
  deriving DecidableEq

def ensureList : Raw → List Str
  | .none => []
  | .list items => (items.map strip).filter (· ≠ [])
  | .text value =>
    let raw := strip (value.filter (· ≠ '\r'))
    if raw = [] then []
    else if '\n' ∈ raw then ((split '\n' raw).map strip).filter (· ≠ [])
    else if ';' ∈ raw then ((split ';' raw).map strip).filter (· ≠ [])
    else [raw]
  | .other value => [strip value]

def normalizeText (value : Option Str) (dflt : Str) : Str :=
  match value with
  | none => dflt
  | some v => if strip v = [] then dflt else strip v

def formatBullets (items : List Str) : Str :=
  match ensureList (.list items) with
  | [] => "- TBD".toList
  | items => join "\n".toList (items.map ("- ".toList ++ ·))

def renderReviewChecklist (checklist : List Str) : Str :=
  join "\n".toList ["## Review Checklist".toList, formatBullets checklist]

/-- `id (wp, vNN, status)`, in a list of upstream references. -/
def upstreamItem (ref : UpstreamRef) : Str :=
  ref.artifactId ++ " (".toList ++ ref.wpId ++ ", v".toList ++ formatVersion ref.version ++ ", ".toList ++
    ref.status ++ ")".toList

def summarizeUpstream (refs : List UpstreamRef) : Str :=
  if refs = [] then "None".toList else join "; ".toList (refs.map upstreamItem)

/-- A row of the Document Control table. -/
def controlRow (field value : Str) : Str :=
  "| ".toList ++ field ++ " | ".toList ++ value ++ " |\n".toList

/-- `templates/document_control.md`, filled in. -/
def renderDocumentControl (m : Metadata) (upstreamRefs : List UpstreamRef) : Str :=
  "## Document Control\n".toList ++
  controlRow "Field".toList "Value".toList ++
  "| --- | --- |\n".toList ++
  controlRow "Title".toList m.title ++
  controlRow "Work Product ID".toList m.wpId.val ++
  controlRow "Artifact ID".toList m.artifactId ++
  controlRow "Version".toList (dec m.version) ++
  controlRow "Status".toList m.status.text ++
  controlRow "Project".toList m.projectSlug ++
  controlRow "Phase".toList m.phase.val ++
  controlRow "Author".toList m.author ++
  controlRow "Reviewer".toList m.reviewer ++
  controlRow "Created".toList m.createdAt ++
  controlRow "Updated".toList m.updatedAt ++
  controlRow "Supersedes".toList ((m.supersedes.map VersionRef.artifactId).getD []) ++
  controlRow "Upstream References".toList (summarizeUpstream upstreamRefs)

def controlMarker : Str := "## Document Control".toList

def replaceDocumentControl (content newDocControl : Str) : Str :=
  match find controlMarker content with
  | none => newDocControl ++ "\n\n".toList ++ content
  | some start =>
    match find "\n## ".toList (content.drop (start + controlMarker.length)) with
    | none => content.take start ++ newDocControl
    | some next => content.take start ++ newDocControl ++ content.drop (start + controlMarker.length + next)

end KCore.Artifacts
