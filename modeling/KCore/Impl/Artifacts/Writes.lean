import KCore.Impl.Artifacts.Review
import KCore.Lib.Interleave

/-!
# The file writes of a call

A call reads the latest version of its artifact and then writes its files one by one
(`Call.serve`). Sessions run side by side, with no lock on the files, so the
writes of one come between those of another (`Call.plan`); and a call may stop
at any of them (`Stop`), which leaves a file that was opened for writing cut off.
-/

namespace KCore.Artifacts

open Text

/-- `open(path, "w")` and all that is written. -/
structure Write where
  path : Path
  file : File

def Write.apply (w : Write) (s : Store) : Store := s.set w.path w.file

def applyWrites (ws : List Write) (s : Store) : Store := ws.foldl (fun s w => w.apply s) s

/-- The metadata with the two paths that `save_artifact` adds. -/
def placed (m : Metadata) : Metadata :=
  let (mdPath, jsonPath) := buildPaths m.projectSlug m.phase m.wpId m.artifactId m.version
  { m with artifactPath := some mdPath, metadataPath := some jsonPath }

/-- `save_artifact`. -/
def saveWrites (m : Metadata) (content : Str) : List Write :=
  let (mdPath, jsonPath) := buildPaths m.projectSlug m.phase m.wpId m.artifactId m.version
  [⟨mdPath, .markdown content⟩, ⟨jsonPath, .sidecar (placed m)⟩]

/-- `update_metadata`. -/
def updateWrite (m : Metadata) : Write :=
  match m.metadataPath with
  | some path => ⟨path, .sidecar m⟩
  | none => ⟨(buildPaths m.projectSlug m.phase m.wpId m.artifactId m.version).2, .sidecar (placed m)⟩

/-- What a call returns. -/
inductive Returned
  | text (t : Str)
  | saved (m : Option Metadata)

/-- The call on the latest version of its artifact. -/
def Call.serve (c : Call) (latest : Option Metadata) : List Write × Returned :=
  match c.op, latest with
  | .generate project phase wpId title author reviewer refs content, _ =>
    let m := buildMetadata (c.env.now 0) project phase wpId title author reviewer refs
      (artifactIdOr [] wpId (c.env.now 1) c.env.suffix) 1 .draft none []
    (saveWrites m content, .saved (some (placed m)))
  | .requestReview id _ _, none | .requestChanges id _, none | .approve id _ _, none => ([], .text (notFound id))
  | .revise .., none => ([], .saved none)
  | .requestReview _ reviewer checklist, some m =>
    let m := reviewRequested c.env reviewer m
    ([updateWrite m], .text (reviewForm m checklist))
  | .requestChanges id changeRequests, some m =>
    let changes := ensureList changeRequests
    let m := changesRequested c.env changes m
    ([updateWrite m], .text (join "\n".toList
      (["Changes recorded for ".toList ++ id ++ " (v".toList ++ pad 2 m.version ++ ").".toList, [],
        "Change requests:".toList] ++
        if changes = [] then ["- None provided".toList] else changes.map ("- ".toList ++ ·))))
  | .approve id reviewer notes, some m =>
    let m := approved c.env reviewer notes m
    ([updateWrite m], .text ("Approved ".toList ++ id ++ " v".toList ++ pad 2 m.version ++ " by ".toList ++
      if m.reviewer = [] then "reviewer".toList else m.reviewer))
  | .revise _ newContent changeRequests author, some previous =>
    let newMeta := revisedFrom c.env author changeRequests previous
    let docControl := renderDocumentControl newMeta newMeta.upstreamRefs
    (saveWrites newMeta (replaceDocumentControl newContent docControl) ++
      [updateWrite (supersededBy c.env (placed newMeta) previous)], .saved (some (placed newMeta)))

/-- What `get_latest_by_id` finds. -/
def Call.latest (c : Call) (s : Store) : Option Metadata := getLatestById c.env.listing s c.artifactId none

/-- The writes of the call after it has read the store. -/
def Call.writes (c : Call) (s : Store) : List Write := (c.serve (c.latest s)).1

def Call.answer (c : Call) (s : Store) : Returned := (c.serve (c.latest s)).2

def Call.plan (c : Call) (s : Store) : Interleave.Plan Store Returned := ⟨(c.writes s).map Write.apply, c.answer s⟩

/-- A call ends after `done` writes. Where it has opened the next file, `torn` is what that file holds by then, which is
no JSON object. -/
structure Stop where
  done : Nat
  torn : Option Str

/-- The store that a stopped call leaves. -/
def stopped (s : Store) (c : Call) (stop : Stop) : Store :=
  let s' := applyWrites ((c.writes s).take stop.done) s
  match stop.torn, (c.writes s)[stop.done]? with
  | some t, some w => s'.set w.path (.markdown t)
  | _, _ => s'

/-- The store after a call that ends, or that stops. -/
def stepOrStop (s : Store) : Call × Option Stop → Store
  | (c, none) => step s c
  | (c, some stop) => stopped s c stop

end KCore.Artifacts
