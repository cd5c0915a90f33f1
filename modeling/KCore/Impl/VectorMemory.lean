import KCore.Lib.JsonPath

/-!
# Vector memory (`vector_memory_collection.py`)

The filter that is built from a metadata dictionary, and the deletion of the points it
selects. `Qdrant` is the vector database: which conditions it takes, and which values
of a payload it finds at the key of a condition.
-/

namespace KCore.VectorMemory

open Text

variable {N : Type*} [DecidableEq N]

structure FieldCondition (N : Type*) where
  key : Str
  value : Json N

mutual

def buildCondition (key : Str) : Json N → List (FieldCondition N)
  | .obj es => buildEntries key es
  | .arr vs => buildItems key vs
  | .null => [⟨"metadata.".toList ++ key, .null⟩]
  | .bool b => [⟨"metadata.".toList ++ key, .bool b⟩]
  | .num n => [⟨"metadata.".toList ++ key, .num n⟩]
  | .str s => [⟨"metadata.".toList ++ key, .str s⟩]

def buildEntries (key : Str) : List (Str × Json N) → List (FieldCondition N)
  | [] => []
  | (k, v) :: es => buildCondition (key ++ '.' :: k) v ++ buildEntries key es

def buildItems (key : Str) : List (Json N) → List (FieldCondition N)
  | [] => []
  | v :: vs => buildCondition (if v.isObj then key ++ "[]".toList else key) v ++ buildItems key vs

end

/-- The `must` of the filter; `none` for an empty dictionary. -/
def qdrantFilterFromDict (filter : List (Str × Json N)) : Option (List (FieldCondition N)) :=
  if filter.isEmpty then none else some (filter.flatMap fun e => buildCondition e.1 e.2)

/-- A key without the characters that separate the parts of a path. -/
def noSyntax (k : Str) : Bool := k.all (· ∉ ".[]\"".toList)

/-- What the memory relies on. A key of a condition is a path: names after dots, and `[]` for all elements. -/
structure Qdrant (N : Type*) where
  /-- the numbers that `MatchValue` takes: integers -/
  accepts : N → Bool
  /-- the names that stand in a path as they are -/
  isName : Str → Bool
  readable : Str → Bool
  valuesAt : Str → Json N → List (Json N)
  readable_metadata : readable "metadata".toList = true
  readable_key (path k : Str) : noSyntax k → readable (path ++ '.' :: k) = (readable path && isName k)
  readable_items (path : Str) : readable (path ++ "[]".toList) = readable path
  valuesAt_metadata (v : Json N) : valuesAt "metadata".toList v = (Json.Step.key "metadata".toList).reach v
  valuesAt_key (path k : Str) (v : Json N) :
    noSyntax k → valuesAt (path ++ '.' :: k) v = (valuesAt path v).flatMap (Json.Step.key k).reach
  valuesAt_items (path : Str) (v : Json N) :
    valuesAt (path ++ "[]".toList) v = (valuesAt path v).flatMap Json.Step.items.reach

structure Point (N : Type*) where
  id : Str
  pageContent : Str
  metadata : Json N

def Point.payload (p : Point N) : Json N :=
  .obj [("page_content".toList, .str p.pageContent), ("metadata".toList, p.metadata)]

namespace Qdrant

variable (q : Qdrant N)

def acceptsValue : Json N → Bool
  | .bool _ | .str _ => true
  | .num n => q.accepts n
  | _ => false

/-- `MatchValue` takes the value, and the database the key. -/
def takes (c : FieldCondition N) : Bool := q.acceptsValue c.value && q.readable c.key

def met (p : Point N) (c : FieldCondition N) : Bool := (q.valuesAt c.key p.payload).any (·.holds c.value)

end Qdrant

/-- The points that are left; `none` where the call raises and nothing is deleted. -/
def deletePointsByMetadataFilter (q : Qdrant N) (points : List (Point N)) (metadata : List (Str × Json N)) :
    Option (List (Point N)) := do
  let must ← qdrantFilterFromDict metadata
  if must.all q.takes then some (points.filter fun p => !must.all (q.met p)) else none

end KCore.VectorMemory
