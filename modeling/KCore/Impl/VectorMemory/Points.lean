import KCore.Impl.VectorMemory.Recall
import Mathlib.Logic.Function.Basic

/-!
# The memory points API (`routes/memory/points.py`)

The four endpoints that write. `Client` is what they use besides the collections: the
database, the ids that it reads, and the embedder.
-/

namespace KCore.MemoryPoints

open Text VectorMemory

structure MemoryPointBase (N : Type*) where
  content : Str
  metadata : Dict Str (Json N)

structure MemoryPoint (N V : Type*) extends MemoryPointBase N where
  id : Str
  vector : V

/-- `readId` is the id that a path names, `none` where Qdrant refuses it. -/
structure Client (N V : Type*) where
  qdrant : Qdrant N
  readId : Str → Option Str
  embedQuery : Str → V

/-- `raised` is an error that no endpoint makes itself. -/
inductive Answer (N V : Type*)
  | point (p : MemoryPoint N V)
  | deletedPoint (pointId : Str)
  | deletedPoints
  | httpException (status : ℕ) (error : Str)
  | raised

def Answer.rejects {N V : Type*} : Answer N V → Bool
  | .httpException .. | .raised => true
  | .point _ | .deletedPoint _ | .deletedPoints => false

def procedural : Str := "procedural".toList
def when : Str := "when".toList

def readOnly {N V : Type*} : Answer N V := .httpException 400 "Procedural memory is read-only.".toList
def noCollection {N V : Type*} : Answer N V := .httpException 400 "Collection does not exist.".toList
def noPoint {N V : Type*} : Answer N V := .httpException 400 "Point does not exist.".toList

variable {N V : Type*} [DecidableEq N] [Zero N]

/-- Python's truth of a value. -/
def truthy : Json N → Bool
  | .null => false
  | .bool b => b
  | .num n => n ≠ 0
  | .str s => !s.isEmpty
  | .arr vs => !vs.isEmpty
  | .obj es => !es.isEmpty

/-- `if not metadata.get(key): metadata[key] = value`. -/
def ensure (metadata : Dict Str (Json N)) (key : Str) (value : Json N) : Dict Str (Json N) :=
  if (metadata.get? key).any truthy then metadata else metadata.set key value

/-- The metadata of a point that is created or edited. -/
def ensureMetadata (metadata : Dict Str (Json N)) (userId : Str) (now : N) : Dict Str (Json N) :=
  ensure (ensure metadata source (.str userId)) when (.num now)

/-! ## `VectorMemoryCollection` -/

/-- A point with the id is replaced. -/
def upsert (points : List (PointStruct N V)) (point : PointStruct N V) : List (PointStruct N V) :=
  if points.any (·.id = point.id) then points.map fun p => if p.id = point.id then point else p else points ++ [point]

def addPoint (vectors : Vectors N V) (collectionId content : Str) (vector : V) (metadata : Dict Str (Json N)) (id : Str) :
    Vectors N V :=
  Function.update vectors collectionId (upsert (vectors collectionId) ⟨⟨id, content, .obj metadata.entries⟩, vector⟩)

def getPoints (points : List (PointStruct N V)) (id : Str) : List (PointStruct N V) := points.filter (·.id = id)

def deletePoints (points : List (PointStruct N V)) (id : Str) : List (PointStruct N V) := points.filter (·.id ≠ id)

/-- The points that are left, `none` where the call raises. -/
def deletePointsByMetadataFilter (q : Qdrant N) (points : List (PointStruct N V)) (metadata : Dict Str (Json N)) :
    Option (List (PointStruct N V)) :=
  match qdrantFilterFromDict metadata.entries with
  | none => none
  | some must => if must.all q.takes then some (points.filter fun p => !must.all (q.met p.toPoint)) else none

/-! ## Endpoints -/

variable (client : Client N V) (vectors : Vectors N V)

def createMemoryPoint (collectionId : Str) (point : MemoryPointBase N) (userId : Str) (now : N) (newId : Str) :
    Vectors N V × Answer N V :=
  if collectionId = procedural then (vectors, readOnly)
  else if collectionId ∉ collectionNames then (vectors, noCollection)
  else
    let embedding := client.embedQuery point.content
    let metadata := ensureMetadata point.metadata userId now
    (addPoint vectors collectionId point.content embedding metadata newId,
      .point ⟨⟨point.content, metadata⟩, newId, embedding⟩)

def deleteMemoryPoint (collectionId pointId : Str) : Vectors N V × Answer N V :=
  if collectionId ∉ collectionNames then (vectors, noCollection)
  else
    match client.readId pointId with
    | none => (vectors, .raised)
    | some id =>
      if (getPoints (vectors collectionId) id).isEmpty then (vectors, noPoint)
      else (Function.update vectors collectionId (deletePoints (vectors collectionId) id), .deletedPoint pointId)

/-- A collection that is not there is a `KeyError`. -/
def deleteMemoryPointsByMetadata (collectionId : Str) (metadata : Dict Str (Json N)) : Vectors N V × Answer N V :=
  if collectionId ∉ collectionNames then (vectors, .raised)
  else
    match deletePointsByMetadataFilter client.qdrant (vectors collectionId) metadata with
    | none => (vectors, .raised)
    | some points => (Function.update vectors collectionId points, .deletedPoints)

def editMemoryPoint (collectionId pointId : Str) (point : MemoryPointBase N) (userId : Str) (now : N) :
    Vectors N V × Answer N V :=
  if collectionId = procedural then (vectors, readOnly)
  else if collectionId ∉ collectionNames then (vectors, noCollection)
  else
    match client.readId pointId with
    | none => (vectors, .raised)
    | some id =>
      if (getPoints (vectors collectionId) id).isEmpty then (vectors, noPoint)
      else
        let embedding := client.embedQuery point.content
        let metadata := ensureMetadata point.metadata userId now
        (addPoint vectors collectionId point.content embedding metadata id,
          .point ⟨⟨point.content, metadata⟩, pointId, embedding⟩)

/-- A call with the caller's id, the time and the `uuid4` that it needs. -/
inductive Call (N : Type*)
  | create (collectionId : Str) (point : MemoryPointBase N) (userId : Str) (now : N) (newId : Str)
  | edit (collectionId pointId : Str) (point : MemoryPointBase N) (userId : Str) (now : N)
  | delete (collectionId pointId : Str)
  | deleteByMetadata (collectionId : Str) (metadata : Dict Str (Json N))

def Call.collectionId {N : Type*} : Call N → Str
  | .create collectionId .. | .edit collectionId .. | .delete collectionId _ | .deleteByMetadata collectionId _ =>
    collectionId

def respond : Call N → Vectors N V × Answer N V
  | .create collectionId point userId now newId => createMemoryPoint client vectors collectionId point userId now newId
  | .edit collectionId pointId point userId now => editMemoryPoint client vectors collectionId pointId point userId now
  | .delete collectionId pointId => deleteMemoryPoint client vectors collectionId pointId
  | .deleteByMetadata collectionId metadata => deleteMemoryPointsByMetadata client vectors collectionId metadata

def step (call : Call N) : Vectors N V := (respond client vectors call).1

end KCore.MemoryPoints
