import KCore.Impl.CheshireCat
import KCore.Impl.VectorMemory.Collections

/-!
# The long term memory (`routes/memory`, `cheshire_cat.py`, `mad_hatter.py`)

The requests that change the collections, as programs over Qdrant: the points API, the wipes, what loads the memory
again, and the syncs of plugins, which embed the procedures. Each call may raise before or after its effect, calls of
the embedder among them (`Client.other`).
-/

namespace KCore.LongTermMemory

open Text Faulty VectorMemory

/-- A point of a collection. Those of procedures are made by `embed_procedures` only. -/
inductive MemoryPoint (M : Type)
  | memory (id : Str) (payload : M)
  | procedure (p : CheshireCat.Point)
  deriving DecidableEq

variable {M : Type}

def MemoryPoint.id : MemoryPoint M → Str
  | memory id _ => id
  | procedure p => p.id

def MemoryPoint.procedure? : MemoryPoint M → Option CheshireCat.Point
  | memory _ _ => none
  | procedure p => some p

abbrev Db (M : Type) := VectorDb (MemoryPoint M)

def procedural : Str := "procedural".toList

/-! ## `VectorMemoryCollection` -/

/-- A call that changes the points of a collection; `none` where it is refused. -/
def modify (name : Str) (f : Collection (MemoryPoint M) → Option (List (MemoryPoint M))) : Prog (Db M) Unit :=
  call fun db => (db.get? name).bind fun c => (f c).map fun points => (db.set name { c with points := points }, ())

/-- An upsert of a point whose vector has a size. -/
def addPoint (name : Str) (size : ℕ) (point : MemoryPoint M) : Prog (Db M) Unit :=
  modify name fun c => if c.size = size then some (c.points.filter (·.id ≠ point.id) ++ [point]) else none

def deletePoints (name : Str) (selected : MemoryPoint M → Bool) : Prog (Db M) Unit :=
  modify name fun c => some (c.points.filter fun p => !selected p)

def getPoints (name id : Str) : Prog (Db M) (List (MemoryPoint M)) :=
  read fun db => (db.get? name).map fun c => c.points.filter (·.id = id)

/-- `get_all_points`, with its default limit. -/
def getAllPoints (name : Str) : Prog (Db M) (List (MemoryPoint M)) :=
  read fun db => (db.get? name).map fun c => c.points.take 10000

/-! ## The points API -/

/-- `get_points`, and a refusal where there is none. -/
def ensurePoint (name id : Str) : Prog (Db M) Unit := do
  let points ← getPoints name id
  if points.isEmpty then raise else pure ()

/-- `create_memory_point`; a message and a document are stored with the same calls. -/
def createMemoryPoint (name : Str) (size : ℕ) (id : Str) (payload : M) : Prog (Db M) Unit :=
  if name = procedural then raise
  else if name ∉ collectionNames then raise
  else do
    Client.other
    addPoint name size (.memory id payload)

def editMemoryPoint (name : Str) (size : ℕ) (id : Str) (payload : M) : Prog (Db M) Unit :=
  if name = procedural then raise
  else if name ∉ collectionNames then raise
  else do
    ensurePoint name id
    Client.other
    addPoint name size (.memory id payload)

def deleteMemoryPoint (name id : Str) : Prog (Db M) Unit :=
  if name ∉ collectionNames then raise
  else do
    ensurePoint name id
    deletePoints name fun p => p.id = id

/-- `selected` is what the metadata select. -/
def deleteMemoryPointsByMetadata (name : Str) (selected : MemoryPoint M → Bool) : Prog (Db M) Unit :=
  if name ∉ collectionNames then raise else deletePoints name selected

/-! ## Procedures -/

/-- The point of a trigger, with an id that no other has. -/
def triggerPoint (newId : List Str → Str) (points : List (MemoryPoint M)) (t : CheshireCat.Trigger) : MemoryPoint M :=
  .procedure ⟨newId (points.map MemoryPoint.id), t.content, ⟨t.source, t.type, some t.triggerType⟩⟩

def embedTriggers (size : ℕ) (newId : List Str → Str) : List CheshireCat.Trigger → Prog (Db M) Unit
  | [] => pure ()
  | t :: ts => do
    Client.other
    modify procedural fun c =>
      if c.size = size then some (c.points ++ [triggerPoint newId c.points t]) else none
    embedTriggers size newId ts

/-- `embed_procedures`; `size` is that of the embedder's vectors. -/
def embedProcedures (size : ℕ) (c : CheshireCat.Call) : Prog (Db M) Unit := do
  let embedded ← getAllPoints procedural
  match embedded.mapM MemoryPoint.procedure? with
  | none => raise
  | some embedded =>
    let embeddedHashes := CheshireCat.buildEmbeddedProceduresHashes embedded
    let activeHashes := CheshireCat.buildActiveProceduresHashes c.procedures
    let toBeDeleted := c.order.order (embeddedHashes.keys.filter (· ∉ activeHashes))
    let toBeEmbedded := c.order.order (activeHashes.keys.filter (· ∉ embeddedHashes))
    let ids := toBeDeleted.filterMap embeddedHashes.get?
    if ids = [] then pure () else deletePoints procedural fun p => p.id ∈ ids
    embedTriggers size c.newId (toBeEmbedded.filterMap activeHashes.get?)

/-- What a sync of plugins does: the call of `embed_procedures`, if it comes to it, for at most as many triggers as a
scroll returns, and whether it returns where that does. A plugin that cannot be activated is toggled, which is a sync,
before `find_plugins` raises. -/
structure Sync where
  call : Option CheshireCat.Call
  small : ∀ c ∈ call, (CheshireCat.triggers c.procedures).length ≤ 10000
  returns : Bool

def syncPlugins (size : ℕ) (plugins : Sync) : Prog (Db M) Unit :=
  match plugins.call with
  | none => raise
  | some c => do
    embedProcedures size c
    if plugins.returns then pure () else raise

/-! ## Wipes -/

/-- `load_memory`, with the name and the size of the embedder. -/
def loadMemory (env : Env) (pair : Pair) : Prog (Db M) Unit := do
  Client.other
  newVectorMemory env pair.name pair.size

def deleteCollections : List Str → Prog (Db M) Unit
  | [] => pure ()
  | name :: names => do
    Client.deleteCollection name
    deleteCollections names

/-- The collections are deleted, the memory is loaded again, and the plugins are found again. -/
def reload (env : Env) (pair : Pair) (plugins : Sync) (deleted : List Str) : Prog (Db M) Unit := do
  deleteCollections deleted
  loadMemory env pair
  syncPlugins pair.size plugins

/-- `wipe_collections`. -/
def wipeCollections (env : Env) (pair : Pair) (plugins : Sync) : Prog (Db M) Unit :=
  reload env pair plugins collectionNames

/-- `wipe_single_collection`. -/
def wipeSingleCollection (env : Env) (pair : Pair) (plugins : Sync) (name : Str) : Prog (Db M) Unit :=
  if name ∉ collectionNames then raise else reload env pair plugins [name]

/-- The bootstrap, and a change of the language model or of the embedder. At the bootstrap the plugins are found before the
memory is loaded, with a callback that does nothing; the sync that follows is the cat's own call. -/
def bootstrap (env : Env) (pair : Pair) (plugins : Sync) : Prog (Db M) Unit := reload env pair plugins []

/-! ## Requests -/

inductive PointRequest (M : Type)
  | create (name : Str) (size : ℕ) (id : Str) (payload : M)
  | edit (name : Str) (size : ℕ) (id : Str) (payload : M)
  | delete (name id : Str)
  | deleteByMetadata (name : Str) (selected : MemoryPoint M → Bool)

def PointRequest.serve : PointRequest M → Prog (Db M) Unit
  | create name size id payload => createMemoryPoint name size id payload
  | edit name size id payload => editMemoryPoint name size id payload
  | delete name id => deleteMemoryPoint name id
  | deleteByMetadata name selected => deleteMemoryPointsByMetadata name selected

/-- What loads the memory. -/
inductive Load
  | wipeCollections
  | wipeSingleCollection (name : Str)
  | bootstrap

/-- The collections that are deleted. -/
def Load.deleted : Load → List Str
  | wipeCollections => collectionNames
  | wipeSingleCollection name => [name]
  | bootstrap => []

def Load.serve (env : Env) (pair : Pair) (plugins : Sync) : Load → Prog (Db M) Unit
  | wipeCollections => LongTermMemory.wipeCollections env pair plugins
  | wipeSingleCollection name => LongTermMemory.wipeSingleCollection env pair plugins name
  | bootstrap => LongTermMemory.bootstrap env pair plugins

inductive Request (M : Type)
  | points (r : PointRequest M)
  | sync (size : ℕ) (plugins : Sync)
  | load (l : Load) (env : Env) (pair : Pair) (plugins : Sync)

def Request.serve : Request M → Prog (Db M) Unit
  | points r => r.serve
  | sync size plugins => syncPlugins size plugins
  | load l env pair plugins => l.serve env pair plugins

/-- The database after a request, some of whose calls may raise. -/
def step (db : Db M) (e : Request M × List Fault) : Db M := (e.1.serve db e.2).2.1

/-- The request returns. -/
def returns (db : Db M) (e : Request M × List Fault) : Bool := (e.1.serve db e.2).1.isSome

end KCore.LongTermMemory
