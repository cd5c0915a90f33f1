import KCore.Impl.Artifacts.CoreTools

/-!
# The revision tools of the concept assistant (`concept_tools.py`)

`revise_hara` and `revise_fsc` pass on to `revise` the document that they are given, or the
LLM's answer to a prompt with the current document, or the current document itself.
-/

namespace KCore.Artifacts.ReviseTools

open Text
open CoreTools (firstOf)

/-- What a call reads besides its input: whether the markdown file can be read, and the LLM, `none` where it raises. -/
structure Platform where
  env : Env
  readable : Bool
  llm : Str → Option Str

inductive Concept
  | hara
  | fsc
  deriving DecidableEq

def Concept.title : Concept → Str
  | hara => "Hazard Analysis and Risk Assessment".toList
  | fsc => "Functional Safety Concept".toList

def buildRevisionPrompt (changeRequests : List Str) (content title : Str) : Str :=
  let requests := if changeRequests ≠ [] then join "\n".toList (changeRequests.map ("- ".toList ++ ·))
    else "- No change requests".toList
  "You are a functional safety engineer. Update the ".toList ++ title ++
    " markdown to apply the change requests. Preserve structure and headings. Do not quote ISO text.\n\n".toList ++
    "Change requests:\n".toList ++ requests ++ "\n\nCurrent document:\n".toList ++ content ++ "\n".toList

/-- `read_artifact_content`: a file that cannot be read counts as an empty one. -/
def currentContent (p : Platform) (s : Store) (m : Metadata) : Str :=
  if p.readable then readArtifactContent s m else []

/-- The LLM's answer, `none` where it is not asked or raises. -/
def answer (c : Concept) (p : Platform) (changeRequests : List Str) (content : Str) : Option Str :=
  if changeRequests ≠ [] then (p.llm (buildRevisionPrompt changeRequests content c.title)).map strip else none

/-- The content for `revise`, which raises for a document that is no text. -/
def newContent (c : Concept) (p : Platform) (s : Store) (previous : Metadata) (changeRequests : List Str)
    (revisedDocument : Value) : Option Str :=
  if revisedDocument.truthy then
    match revisedDocument with
    | .text document => some document
    | _ => none
  else some ((answer c p changeRequests (currentContent p s previous)).getD (currentContent p s previous))

/-- The tool of a concept. -/
def reviseTool (c : Concept) (p : Platform) (s : Store) (data : Values) : Store × Option Str :=
  let artifactId := firstOf data ["artifact_id".toList, "text".toList]
  if artifactId.truthy then
    match artifactId with
    | .text id =>
      match getLatestById p.env.listing s id none with
      | none => (s, some (notFound id))
      | some previous =>
        let changeRequests := ensureList (data.value "change_requests".toList).raw
        match newContent c p s previous changeRequests (data.value "revised_document".toList) with
        | none => (s, none)
        | some content =>
          match revise p.env s id content (.list changeRequests) (some previous.author) with
          | (s, none) => (s, some ("Revision failed for ".toList ++ id))
          | (s, some newMeta) => (s, some ("Revision created: ".toList ++ id ++ " v".toList ++ pad 2 newMeta.version ++
              "\nStatus: ".toList ++ newMeta.status.text))
    | value => (s, some (notFound value.str))
  else (s, some (renderMissingInputs ["artifact_id".toList]))

def reviseHara : Platform → Store → Values → Store × Option Str := reviseTool .hara

def reviseFsc : Platform → Store → Values → Store × Option Str := reviseTool .fsc

end KCore.Artifacts.ReviseTools
