import Mathlib.Data.List.MinMax
import KCore.Lib.Dict
import KCore.Lib.Newlines
import KCore.Lib.Shuffle
import KCore.Impl.Artifacts.IdGeneration

/-!
# The artifact store (`artifact_store.py`)

Work products are kept as pairs of files below the workspace root: a markdown
text and a JSON sidecar with its metadata. `Store` is the tree of those files;
a sidecar is the metadata that `json.dump` wrote and `json.load` gives back. A
query lists the whole tree below a directory, in an order of the platform's
(`Shuffle`), and picks a latest version.
-/

namespace KCore.Artifacts

open Text

/-- The `STATUS_` constants. -/
inductive Status
  | draft
  | inReview
  | approved
  | superseded
  deriving DecidableEq, Repr

def Status.text : Status → Str
  | draft => "DRAFT".toList
  | inReview => "IN_REVIEW".toList
  | approved => "APPROVED".toList
  | superseded => "SUPERSEDED".toList

/-- A single path component, as the phases and work product ids of the plugins are. -/
structure Name where
  val : Str
  ok : val ≠ [] ∧ '/' ∉ val ∧ val ≠ ".".toList ∧ val ≠ "..".toList
  deriving DecidableEq

theorem concept_ok : "concept".toList ≠ [] ∧ '/' ∉ "concept".toList ∧ "concept".toList ≠ ".".toList ∧
    "concept".toList ≠ "..".toList := by decide

/-- `{"artifact_id": …, "version": …}`. -/
structure VersionRef where
  artifactId : Str
  version : Nat
  deriving DecidableEq

/-- An entry of `upstream_refs`, as `make_upstream_refs` builds it. -/
structure UpstreamRef where
  artifactId : Str
  wpId : Str
  title : Str
  version : Nat
  status : Str
  deriving DecidableEq

/-- An entry of `status_history`. -/
structure StatusEntry where
  status : Status
  date : Str
  note : Str
  deriving DecidableEq

/-- A file's place: its directories below the workspace root, and its name. -/
structure Path where
  dir : List Str
  name : Str
  deriving DecidableEq

/-- The contents of a sidecar. `supersedes` is `none` for `{}`; `superseded_by`
and the two paths are `none` while their key is absent. -/
structure Metadata where
  artifactId : Str
  wpId : Name
  title : Str
  phase : Name
  projectSlug : Str
  version : Nat
  status : Status
  createdAt : Str
  updatedAt : Str
  author : Str
  reviewer : Str
  reviewNotes : Str
  approvedAt : Str
  locked : Bool
  supersedes : Option VersionRef
  changeRequests : List Str
  upstreamRefs : List UpstreamRef
  statusHistory : List StatusEntry
  supersededBy : Option VersionRef
  artifactPath : Option Path
  metadataPath : Option Path
  deriving DecidableEq

inductive File
  | markdown (text : Str)
  | sidecar (m : Metadata)
  deriving DecidableEq

/-- The files below the workspace root. -/
abbrev Store := Dict Path File

/-- The order in which `glob` lists files. -/
abbrev Listing := Shuffle (Path × File)

/-- `strftime("%Y-%m-%dT%H:%M:%SZ")`. -/
def utcNow (t : UtcTime) : Str :=
  pad 4 t.year ++ "-".toList ++ pad 2 t.month ++ "-".toList ++ pad 2 t.day ++ "T".toList ++
    pad 2 t.hour ++ ":".toList ++ pad 2 t.minute ++ ":".toList ++ pad 2 t.second ++ "Z".toList

def projectRoot (projectSlug : Str) : List Str := [normalizeProjectSlug projectSlug]

def artifactDir (projectSlug : Str) (phase wpId : Name) : List Str :=
  projectRoot projectSlug ++ [phase.val, wpId.val]

/-- The paths of the markdown and of the sidecar. -/
def buildPaths (projectSlug : Str) (phase wpId : Name) (artifactId : Str) (version : Nat) : Path × Path :=
  let filename := artifactId ++ "_v".toList ++ formatVersion version
  (⟨artifactDir projectSlug phase wpId, filename ++ ".md".toList⟩,
    ⟨artifactDir projectSlug phase wpId, filename ++ ".json".toList⟩)

/-- The new store, and the metadata with its two paths filled in. -/
def saveArtifact (s : Store) (m : Metadata) (content : Str) : Store × Metadata :=
  let (mdPath, jsonPath) := buildPaths m.projectSlug m.phase m.wpId m.artifactId m.version
  let m := { m with artifactPath := some mdPath, metadataPath := some jsonPath }
  ((s.set mdPath (.markdown content)).set jsonPath (.sidecar m), m)

/-- `none` where the file is no JSON object, which `list_metadata` leaves out. -/
def loadMetadata : File → Option Metadata
  | .markdown _ => none
  | .sidecar m => some m

/-- The file name pattern `*_v*.json`. -/
def isSidecarName (name : Str) : Bool :=
  decide (".json".toList <:+ name) && decide ("_v".toList <:+: name.take (name.length - 5))

/-- The directory that `list_metadata` searches. -/
def listBase (projectSlug : Option Str) (phase wpId : Option Name) : List Str :=
  (match projectSlug with
    | none | some [] => []
    | some slug => projectRoot slug) ++ (phase.map Name.val).toList ++ (wpId.map Name.val).toList

def listMetadata (g : Listing) (s : Store) (projectSlug : Option Str) (phase wpId : Option Name) :
    List Metadata :=
  let base := listBase projectSlug phase wpId
  -- a directory that does not exist holds no file either
  (g.order (s.entries.filter fun e => base <+: e.1.dir && isSidecarName e.1.name)).filterMap
    fun e => loadMetadata e.2

def getLatestById (g : Listing) (s : Store) (artifactId : Str) (projectSlug : Option Str) : Option Metadata :=
  ((listMetadata g s projectSlug none none).filter (·.artifactId = artifactId)).argmax (·.version)

/-- `status` filters unless it is `None` or empty. -/
def getLatestByWp (g : Listing) (s : Store) (projectSlug : Str) (phase wpId : Option Name)
    (status : Option Str) : Option Metadata :=
  let metas := listMetadata g s (some projectSlug) phase wpId
  (match status with
    | none | some [] => metas
    | some st => metas.filter (·.status.text = st)).argmax (·.version)

/-- An upstream requirement; `none` for an absent key. -/
structure Requirement where
  phase : Option Name
  wpId : Option Name
  status : Option Str
  deriving DecidableEq

/-- The status a requirement asks for: `req.get("status", STATUS_APPROVED)`. -/
def Requirement.wanted (req : Requirement) : Str := req.status.getD Status.approved.text

/-- The metadata found, and the requirements with none. -/
def resolveUpstream (g : Listing) (s : Store) (projectSlug : Str) :
    List Requirement → List Metadata × List Requirement
  | [] => ([], [])
  | req :: reqs =>
    let (upstream, missing) := resolveUpstream g s projectSlug reqs
    match getLatestByWp g s projectSlug req.phase req.wpId (some req.wanted) with
    | some m => (m :: upstream, missing)
    | none => (upstream, req :: missing)

def updateMetadata (s : Store) (m : Metadata) : Store :=
  match m.metadataPath with
  | some path => s.set path (.sidecar m)
  | none =>
    let (mdPath, jsonPath) := buildPaths m.projectSlug m.phase m.wpId m.artifactId m.version
    s.set jsonPath (.sidecar { m with metadataPath := some jsonPath, artifactPath := some mdPath })

/-- The file is read in text mode. -/
def readArtifactContent (s : Store) (m : Metadata) : Str :=
  let path := m.artifactPath.getD (buildPaths m.projectSlug m.phase m.wpId m.artifactId m.version).1
  match s.get? path with
  | some (.markdown text) => universalNewlines text
  | _ => []

/-- `artifactId or new_artifact_id(wp_id)`, the new id from the reading `stamp` and `suffix`. -/
def artifactIdOr (artifactId : Str) (wpId : Name) (stamp : UtcTime) (suffix : Str) : Str :=
  if artifactId = [] then newArtifactId wpId.val stamp suffix else artifactId

/-- `build_metadata` at the time `now`, with `artifactId` from `artifactIdOr`. -/
def buildMetadata (now : UtcTime) (projectSlug : Str) (phase wpId : Name) (title author reviewer : Str)
    (upstreamRefs : List UpstreamRef) (artifactId : Str) (version : Nat) (status : Status)
    (supersedes : Option VersionRef) (changeRequests : List Str) : Metadata where
  artifactId := artifactId
  wpId := wpId
  title := title
  phase := phase
  projectSlug := normalizeProjectSlug projectSlug
  version := version
  status := status
  createdAt := utcNow now
  updatedAt := utcNow now
  author := author
  reviewer := reviewer
  reviewNotes := []
  approvedAt := []
  locked := false
  supersedes := supersedes
  changeRequests := changeRequests
  upstreamRefs := upstreamRefs
  statusHistory := [⟨status, utcNow now, "created".toList⟩]
  supersededBy := none
  artifactPath := none
  metadataPath := none

def recordStatusChange (m : Metadata) (now : UtcTime) (status : Status) (note : Str) : Metadata :=
  { m with
    status := status
    updatedAt := utcNow now
    statusHistory := m.statusHistory ++ [⟨status, utcNow now, note⟩] }

end KCore.Artifacts
