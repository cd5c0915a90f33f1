import KCore.Impl.Artifacts.Render

/-!
# Generated documents (`template_renderer.render_document`, `traceability.py`)

A document is its title, the Document Control header, the body of the work product and
four closing sections.
-/

namespace KCore.Artifacts

open Text

def renderAssumptions (assumptions : List Str) : Str :=
  join "\n".toList ["## Assumptions".toList, formatBullets assumptions]

def renderOpenQuestions (openQuestions : List Str) : Str :=
  join "\n".toList ["## Open Questions".toList, formatBullets openQuestions]

/-- An entry of `upstream_refs` for a version found. -/
def makeUpstreamRef (m : Metadata) : UpstreamRef where
  artifactId := m.artifactId
  wpId := m.wpId.val
  title := m.title
  version := m.version
  status := m.status.text

def makeUpstreamRefs (upstream : List Metadata) : List UpstreamRef := upstream.map makeUpstreamRef

def buildTraceabilitySection (refs : List UpstreamRef) : Str :=
  if refs = [] then join "\n".toList ["## Traceability".toList, "- No upstream artifacts linked.".toList]
  else join "\n".toList
    ("## Traceability".toList :: refs.map fun ref => "- ".toList ++ upstreamItem ref ++ " - ".toList ++ ref.title)

def renderDocument (m : Metadata) (body : Str) (assumptions openQuestions : List Str) (traceabilitySection : Str)
    (reviewChecklist : List Str) : Str :=
  join "\n\n".toList (["# ".toList ++ m.title, renderDocumentControl m m.upstreamRefs, body,
    renderAssumptions assumptions, renderOpenQuestions openQuestions, traceabilitySection,
    renderReviewChecklist reviewChecklist].filter (· ≠ []))

end KCore.Artifacts
