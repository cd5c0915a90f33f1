import KCore.Impl.VectorMemory
import KCore.Impl.VectorMemory.Collections

/-!
# Recalling memories (`points.py`, `stray_cat.py`)

The two recall endpoints and the recall of a conversation turn, with the hooks of the core
plugin. The query text is taken as it is embedded.
-/

namespace KCore.VectorMemory

open Text

structure PointStruct (N V : Type*) extends Point N where
  vector : V

/-- `query_points` of the points that its filter leaves, `none` where it raises. -/
structure Search (N V S : Type*) where
  query : V → Int → Option S → List (PointStruct N V) → Option (List (PointStruct N V × S))
  found : ∀ {embedding limit threshold points results}, query embedding limit threshold points = some results →
    ∀ r ∈ results, r.1 ∈ points

/-- A recalled point: a `Document` with its score, vector and id. -/
structure Memory (N V S : Type*) where
  pageContent : Str
  metadata : List (Str × Json N)
  score : S
  vector : V
  id : Str

section

variable {N V S : Type*} [DecidableEq N] [Zero N]

/-- `payload.get("metadata") or {}`, `none` where it is no metadata of a `Document`. -/
def documentMetadata : Json N → Option (List (Str × Json N))
  | .obj es => some es
  | .null | .bool false | .str [] | .arr [] => some []
  | .num n => if n = 0 then some [] else none
  | .bool true | .str (_ :: _) | .arr (_ :: _) => none

def toMemory (m : PointStruct N V × S) : Option (Memory N V S) :=
  (documentMetadata m.1.metadata).map fun metadata => ⟨m.1.pageContent, metadata, m.2, m.1.vector, m.1.id⟩

variable (q : Qdrant N) (search : Search N V S)

/-- `query_points` with its filter. -/
def queryPoints (points : List (PointStruct N V)) (embedding : V) (filter : Option (List (FieldCondition N)))
    (limit : Int) (threshold : Option S) : Option (List (PointStruct N V × S)) :=
  match filter with
  | none => search.query embedding limit threshold points
  | some must =>
    if must.all q.takes then
      search.query embedding limit threshold (points.filter fun p => must.all (q.met p.toPoint))
    else none

/-- The memories, `none` where the call raises; no metadata is the empty dictionary. -/
def recallMemoriesFromEmbedding (points : List (PointStruct N V)) (embedding : V) (metadata : Dict Str (Json N))
    (k : Int) (threshold : Option S) : Option (List (Memory N V S)) :=
  (queryPoints q search points embedding (qdrantFilterFromDict metadata.entries) k threshold).bind (List.mapM toMemory)

/-! ## The collections -/

def source : Str := "source".toList

/-- The points of each collection. -/
abbrev Vectors (N V : Type*) := Str → List (PointStruct N V)

/-- What was recalled of each collection. -/
abbrev Recalled (N V S : Type*) := List (Str × List (Memory N V S))

variable (vectors : Vectors N V) (userId : Str)

/-! ## Endpoints -/

def recallMemoryPointsFromText (embedding : V) (k : Int) : Option (Recalled N V S) :=
  collectionNames.mapM fun c =>
    let userFilter := if c = episodic then Dict.empty.set source (.str userId) else .empty
    (recallMemoriesFromEmbedding q search (vectors c) embedding userFilter k none).map fun memories => (c, memories)

/-- The loop of the endpoint, which changes the metadata of the request. -/
def recallLoop (embedding : V) (k : Int) : List Str → Dict Str (Json N) → Option (Recalled N V S)
  | [], _ => some []
  | c :: cs, metadata =>
    let metadata := if c = episodic then metadata.set source (.str userId) else metadata.erase source
    match recallMemoriesFromEmbedding q search (vectors c) embedding metadata k none with
    | none => none
    | some memories => (recallLoop embedding k cs metadata).map fun recalled => (c, memories) :: recalled

def recallMemoryPoints (embedding : V) (k : Int) (metadata : Dict Str (Json N)) : Option (Recalled N V S) :=
  recallLoop q search vectors userId embedding k collectionNames metadata

/-! ## A conversation turn -/

structure RecallConfig (N V S : Type*) where
  embedding : V
  k : Int
  threshold : Option S
  metadata : Dict Str (Json N)

def beforeCatRecallsEpisodicMemories (config : RecallConfig N V S) : RecallConfig N V S := config

def beforeCatRecallsDeclarativeMemories (config : RecallConfig N V S) : RecallConfig N V S := config

def beforeCatRecallsProceduralMemories (config : RecallConfig N V S) : RecallConfig N V S := config

/-- The episodic, declarative and procedural memories that it sets. -/
def recallRelevantMemoriesToWorkingMemory [OfScientific S] (embedding : V) : Option (Recalled N V S) :=
  let recallConfigs : List (RecallConfig N V S) := [
    beforeCatRecallsEpisodicMemories ⟨embedding, 3, some 0.7, Dict.empty.set source (.str userId)⟩,
    beforeCatRecallsDeclarativeMemories ⟨embedding, 3, some 0.7, .empty⟩,
    beforeCatRecallsProceduralMemories ⟨embedding, 3, some 0.7, .empty⟩]
  (recallConfigs.zip collectionNames).mapM fun (config, c) =>
    (recallMemoriesFromEmbedding q search (vectors c) config.embedding config.metadata config.k config.threshold).map
      fun memories => (c, memories)

/-- The ways to recall, with the embedded query. -/
inductive Recall (N V : Type*)
  | get (embedding : V) (k : Int)
  | post (embedding : V) (k : Int) (metadata : Dict Str (Json N))
  | turn (embedding : V)

def recallMemories [OfScientific S] : Recall N V → Option (Recalled N V S)
  | .get embedding k => recallMemoryPointsFromText q search vectors userId embedding k
  | .post embedding k metadata => recallMemoryPoints q search vectors userId embedding k metadata
  | .turn embedding => recallRelevantMemoriesToWorkingMemory q search vectors userId embedding

end

end KCore.VectorMemory
