import KCore.Lib.Dict
import KCore.Lib.Shuffle
import KCore.Lib.Text

/-!
# The embedding of procedures (`cheshire_cat.py`)

`embed_procedures` brings the procedural collection in line with the triggers of the
active tools and forms. A point's vector and the time it was made at, which nothing
reads here, are left out.
-/

namespace KCore.CheshireCat

open Text

/-- A tool or a form. -/
structure Procedure where
  name : Str
  procedureType : Str
  triggersMap : Dict Str (List Str)

/-- An entry of the hashes of the active procedures. -/
structure Trigger where
  source : Str
  type : Str
  triggerType : Str
  content : Str
  deriving DecidableEq

structure Metadata where
  source : Str
  type : Str
  /-- `none` in a legacy point -/
  triggerType : Option Str
  deriving DecidableEq

structure Point where
  id : Str
  pageContent : Str
  metadata : Metadata
  deriving DecidableEq

def pHash (source triggerType content : Str) : Str := source ++ '.' :: (triggerType ++ '.' :: content)

def Point.hash (ep : Point) : Str :=
  pHash ep.metadata.source (ep.metadata.triggerType.getD "unsupported".toList) ep.pageContent

def Trigger.hash (t : Trigger) : Str := pHash t.source t.triggerType t.content

def buildEmbeddedProceduresHashes (embedded : List Point) : Dict Str Str := .collect Point.hash Point.id embedded

/-- The triggers in the order of the loops over them. -/
def triggers (active : List Procedure) : List Trigger :=
  active.flatMap fun ap => ap.triggersMap.entries.flatMap fun e => e.2.map fun content =>
    ⟨ap.name, ap.procedureType, e.1, content⟩

def buildActiveProceduresHashes (active : List Procedure) : Dict Str Trigger :=
  .collect Trigger.hash id (triggers active)

/-- `get_all_points`, with its default limit. -/
def getAllPoints (points : List Point) : List Point := points.take 10000

def deletePoints (points : List Point) (ids : List Str) : List Point := points.filter (·.id ∉ ids)

/-- The upsert of a point with a new id. -/
def addPoint (newId : List Str → Str) (points : List Point) (t : Trigger) : List Point :=
  points ++ [⟨newId (points.map Point.id), t.content, ⟨t.source, t.type, some t.triggerType⟩⟩]

/-- A call: the active procedures, and what the platform brings, the order of sets and the ids of new points. -/
structure Call where
  procedures : List Procedure
  order : Shuffle Str
  newId : List Str → Str
  newId_fresh : ∀ ids, newId ids ∉ ids

def embedProcedures (points : List Point) (c : Call) : List Point :=
  let embeddedHashes := buildEmbeddedProceduresHashes (getAllPoints points)
  let activeHashes := buildActiveProceduresHashes c.procedures
  let toBeDeleted := c.order.order (embeddedHashes.keys.filter (· ∉ activeHashes))
  let toBeEmbedded := c.order.order (activeHashes.keys.filter (· ∉ embeddedHashes))
  let points := deletePoints points (toBeDeleted.filterMap embeddedHashes.get?)
  (toBeEmbedded.filterMap activeHashes.get?).foldl (addPoint c.newId) points

end KCore.CheshireCat
