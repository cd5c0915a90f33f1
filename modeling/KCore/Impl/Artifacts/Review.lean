import KCore.Impl.Artifacts.Render

/-!
# The review workflow (`review_workflow.py`)

Each operation looks up the latest version of an artifact, changes its metadata
and writes the sidecar back; `revise` saves a new version first. `Env` is what a
call reads besides its arguments: the listing order, the clock and the random
digits. `Call` is a call of one of the operations, or the generation of a new
artifact as the phase plugins do it, and `step` is the store after it.
-/

namespace KCore.Artifacts

open Text

/-- What one call reads from the platform: the order of a directory listing,
the successive readings of the clock, and the digits of a `uuid4`. -/
structure Env where
  listing : Listing
  now : Nat → UtcTime
  suffix : Str

def reviewForm (m : Metadata) (checklist : List Str) : Str :=
  join "\n".toList
    ["## Review Request: ".toList ++ m.title,
      [],
      "Artifact ID: ".toList ++ m.artifactId,
      "Version: v".toList ++ pad 2 m.version,
      "Status: ".toList ++ m.status.text,
      "Reviewer: ".toList ++ m.reviewer,
      [],
      "Provide review results and any change requests.".toList,
      [],
      renderReviewChecklist checklist]

def notFound (artifactId : Str) : Str := "Artifact not found: ".toList ++ artifactId

/-- `reviewer` where one is given and not empty. -/
def withReviewer (m : Metadata) (reviewer : Option Str) : Metadata :=
  match reviewer with
  | none | some [] => m
  | some r => { m with reviewer := r }

/-- The metadata that `request_review` writes. -/
def reviewRequested (env : Env) (reviewer : Option Str) (m : Metadata) : Metadata :=
  recordStatusChange (withReviewer m reviewer) (env.now 0) .inReview "review requested".toList

def requestReview (env : Env) (s : Store) (artifactId : Str) (reviewer : Option Str) (checklist : List Str) :
    Store × Str :=
  match getLatestById env.listing s artifactId none with
  | none => (s, notFound artifactId)
  | some m =>
    let m := reviewRequested env reviewer m
    (updateMetadata s m, reviewForm m checklist)

/-- The metadata that `request_changes` writes. -/
def changesRequested (env : Env) (changes : List Str) (m : Metadata) : Metadata :=
  recordStatusChange { m with changeRequests := changes } (env.now 0) .draft "changes requested".toList

def requestChanges (env : Env) (s : Store) (artifactId : Str) (changeRequests : Raw) : Store × Str :=
  match getLatestById env.listing s artifactId none with
  | none => (s, notFound artifactId)
  | some m =>
    let changes := ensureList changeRequests
    let m := changesRequested env changes m
    (updateMetadata s m, join "\n".toList
      (["Changes recorded for ".toList ++ artifactId ++ " (v".toList ++ pad 2 m.version ++ ").".toList, [],
        "Change requests:".toList] ++
        if changes = [] then ["- None provided".toList] else changes.map ("- ".toList ++ ·)))

/-- The metadata that `approve` writes. -/
def approved (env : Env) (reviewer notes : Option Str) (m : Metadata) : Metadata :=
  let m := withReviewer m reviewer
  let m := { m with reviewNotes := normalizeText notes [], approvedAt := utcNow (env.now 0), locked := true }
  recordStatusChange m (env.now 1) .approved "approved".toList

def approve (env : Env) (s : Store) (artifactId : Str) (reviewer notes : Option Str) : Store × Str :=
  match getLatestById env.listing s artifactId none with
  | none => (s, notFound artifactId)
  | some m =>
    let m := approved env reviewer notes m
    (updateMetadata s m, "Approved ".toList ++ artifactId ++ " v".toList ++ pad 2 m.version ++ " by ".toList ++
      if m.reviewer = [] then "reviewer".toList else m.reviewer)

/-- The metadata of the version that `revise` adds after `previous`. -/
def revisedFrom (env : Env) (author : Option Str) (changeRequests : Raw) (previous : Metadata) : Metadata :=
  buildMetadata (env.now 0) previous.projectSlug previous.phase previous.wpId previous.title
    (match author with | none | some [] => previous.author | some a => a)
    previous.reviewer previous.upstreamRefs
    (artifactIdOr previous.artifactId previous.wpId (env.now 0) env.suffix) (previous.version + 1) .draft
    (some ⟨previous.artifactId, previous.version⟩) (ensureList changeRequests)

/-- The metadata that `revise` writes back for the version it replaces by `new`. -/
def supersededBy (env : Env) (new previous : Metadata) : Metadata :=
  { recordStatusChange previous (env.now 1) .superseded ("superseded by v".toList ++ pad 2 new.version) with
    supersededBy := some ⟨new.artifactId, new.version⟩ }

def revise (env : Env) (s : Store) (artifactId newContent : Str) (changeRequests : Raw) (author : Option Str) :
    Store × Option Metadata :=
  match getLatestById env.listing s artifactId none with
  | none => (s, none)
  | some previous =>
    let newMeta := revisedFrom env author changeRequests previous
    let docControl := renderDocumentControl newMeta newMeta.upstreamRefs
    let (s, newMeta) := saveArtifact s newMeta (replaceDocumentControl newContent docControl)
    (updateMetadata s (supersededBy env newMeta previous), some newMeta)

/-- A generator's last two calls: `build_metadata` with no artifact id, and
`save_artifact`. Every generator of the phase plugins ends so. -/
def generate (env : Env) (s : Store) (projectSlug : Str) (phase wpId : Name) (title author reviewer : Str)
    (upstreamRefs : List UpstreamRef) (content : Str) : Store × Metadata :=
  saveArtifact s (buildMetadata (env.now 0) projectSlug phase wpId title author reviewer upstreamRefs
    (artifactIdOr [] wpId (env.now 1) env.suffix) 1 .draft none []) content

/-- The calls that write to the store. -/
inductive Op
  | generate (projectSlug : Str) (phase wpId : Name) (title author reviewer : Str)
      (upstreamRefs : List UpstreamRef) (content : Str)
  | requestReview (artifactId : Str) (reviewer : Option Str) (checklist : List Str)
  | requestChanges (artifactId : Str) (changeRequests : Raw)
  | approve (artifactId : Str) (reviewer notes : Option Str)
  | revise (artifactId newContent : Str) (changeRequests : Raw) (author : Option Str)

/-- A call, with what it reads from the platform. -/
structure Call where
  env : Env
  op : Op

/-- The artifact that a call is about. -/
def Call.artifactId (c : Call) : Str :=
  match c.op with
  | .generate _ _ wpId _ _ _ _ _ => artifactIdOr [] wpId (c.env.now 1) c.env.suffix
  | .requestReview id _ _ | .requestChanges id _ | .approve id _ _ | .revise id _ _ _ => id

/-- The store after a call. -/
def step (s : Store) (c : Call) : Store :=
  match c.op with
  | .generate project phase wpId title author reviewer refs content =>
    (generate c.env s project phase wpId title author reviewer refs content).1
  | .requestReview id reviewer checklist => (requestReview c.env s id reviewer checklist).1
  | .requestChanges id changes => (requestChanges c.env s id changes).1
  | .approve id reviewer notes => (approve c.env s id reviewer notes).1
  | .revise id content changes author => (revise c.env s id content changes author).1

end KCore.Artifacts
