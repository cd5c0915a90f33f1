import KCore.Lib.Text

/-!
# Identifiers of work products (`id_generation.py`, `config.normalize_project_slug`)

Slugs, artifact ids and version tags. `slugify` reads its text through `lower`
and cares for `[a-z0-9]` only: `subRuns` makes no difference between the other
characters.
-/

namespace KCore.Artifacts

open Text

/-- A UTC time, in the fields that `strftime` prints. -/
structure UtcTime where
  year : Nat
  month : Nat
  day : Nat
  hour : Nat
  minute : Nat
  second : Nat
  deriving DecidableEq, Repr

/-- `[a-z0-9]`. -/
def isSlugChar (c : Char) : Bool := ('a' ≤ c && c ≤ 'z') || ('0' ≤ c && c ≤ '9')

/-- `re.sub(r"[^a-z0-9]+", "_", s)`; `inRun`: the last character was replaced. -/
def subRuns (inRun : Bool) : Str → Str
  | [] => []
  | c :: s =>
    if isSlugChar c then c :: subRuns false s
    else if inRun then subRuns true s
    else '_' :: subRuns true s

def slugify (value : Str) : Str :=
  let cleaned := stripChar '_' (subRuns false (lower (strip value)))
  if cleaned = [] then "unnamed".toList else cleaned

def defaultProjectSlug : Str := "default_project".toList

def normalizeProjectSlug (value : Str) : Str :=
  if value = [] then defaultProjectSlug else slugify value

/-- `strftime("%Y%m%d%H%M%S")`. -/
def utcTimestamp (t : UtcTime) : Str :=
  pad 4 t.year ++ pad 2 t.month ++ pad 2 t.day ++ pad 2 t.hour ++ pad 2 t.minute ++ pad 2 t.second

/-- `new_artifact_id`, with the clock's reading and the six digits of the `uuid4`. -/
def newArtifactId (wpId : Str) (stamp : UtcTime) (suffix : Str) : Str :=
  slugify wpId ++ "-".toList ++ utcTimestamp stamp ++ "-".toList ++ suffix

def formatVersion (version : Nat) : Str := pad 2 version

end KCore.Artifacts
