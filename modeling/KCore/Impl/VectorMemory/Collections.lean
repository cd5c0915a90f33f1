import KCore.Lib.Dict
import KCore.Lib.Faulty
import KCore.Lib.Text

/-!
# The construction of the vector memory (`vector_memory.py`, `vector_memory_collection.py`)

A construction goes through calls of Qdrant, each of which may raise before or after its
effect. `P` is what is known of a point. The attributes of a `VectorMemoryCollection` are
the arguments of its methods.
-/

namespace KCore.VectorMemory

open Text Faulty

variable {P : Type}

/-! ## Qdrant -/

structure Collection (P : Type) where
  size : Nat
  aliases : List Str
  points : List P

/-- The collections by name. Their aliases are with them. -/
abbrev VectorDb (P : Type) := Dict Str (Collection P)

namespace Client

def getCollections : Prog (VectorDb P) (List Str) := read fun db => some db.keys

def getCollection (name : Str) : Prog (VectorDb P) (Collection P) := read fun db => db.get? name

def getCollectionAliases (name : Str) : Prog (VectorDb P) (List Str) :=
  read fun db => (db.get? name).map Collection.aliases

def createCollection (name : Str) (size : Nat) : Prog (VectorDb P) Unit :=
  call fun db => if name ∈ db then none else some (db.set name ⟨size, [], []⟩, ())

def deleteCollection (name : Str) : Prog (VectorDb P) Unit := call fun db => some (db.erase name, ())

/-- An alias belongs to one collection at a time. -/
def withoutAlias (aliasName : Str) (db : VectorDb P) : VectorDb P :=
  db.mapValues fun c => { c with aliases := c.aliases.erase aliasName }

def createAlias (name aliasName : Str) : Prog (VectorDb P) Unit :=
  call fun db =>
    match (withoutAlias aliasName db).get? name with
    | none => none
    | some c => some ((withoutAlias aliasName db).set name { c with aliases := c.aliases ++ [aliasName] }, ())

/-- A call that changes no collection: of snapshots, and of the files they are copied to. -/
def other : Prog (VectorDb P) Unit := read fun _ => some ()

end Client

/-! ## `VectorMemoryCollection` -/

/-- `CCAT_SAVE_MEMORY_SNAPSHOTS`, and whether the database is remote. -/
structure Env where
  saveMemorySnapshots : Bool
  remote : Bool

def aliasName (embedderName collectionName : Str) : Str := embedderName ++ '_' :: collectionName

section

variable (env : Env) (collectionName embedderName : Str) (embedderSize : Nat)

def createCollection : Prog (VectorDb P) Unit := do
  onRaise (Client.createCollection collectionName embedderSize) (Client.deleteCollection collectionName)
  onRaise (Client.createAlias collectionName (aliasName embedderName collectionName))
    (Client.deleteCollection collectionName)

def createDbCollectionIfNotExists : Prog (VectorDb P) Unit := do
  let collections ← Client.getCollections
  if collectionName ∈ collections then pure () else createCollection collectionName embedderName embedderSize

/-- Its file is named by the first alias. -/
def saveDump : Prog (VectorDb P) Unit := do
  if env.remote then
    Client.other
    let aliases ← Client.getCollectionAliases collectionName
    (if aliases = [] then raise else Client.other : Prog (VectorDb P) Unit)
    Client.other
  else pure ()

def checkEmbeddingSize : Prog (VectorDb P) Unit := do
  let collection ← Client.getCollection collectionName
  let existingAliases ← Client.getCollectionAliases collectionName
  if existingAliases.head? = some (aliasName embedderName collectionName) ∧ collection.size = embedderSize then
    pure ()
  else do
    (if env.saveMemorySnapshots then saveDump env collectionName else pure () : Prog (VectorDb P) Unit)
    Client.deleteCollection collectionName
    createCollection collectionName embedderName embedderSize

/-- `VectorMemoryCollection(…)`. -/
def newCollection : Prog (VectorDb P) Unit := do
  createDbCollectionIfNotExists collectionName embedderName embedderSize
  checkEmbeddingSize env collectionName embedderName embedderSize
  let _ ← Client.getCollection collectionName
  pure ()

end

/-! ## `VectorMemory` -/

def episodic : Str := "episodic".toList

/-- `self.collections.keys()`. -/
def collectionNames : List Str := [episodic, "declarative".toList, "procedural".toList]

def newCollections (env : Env) (embedderName : Str) (embedderSize : Nat) : List Str → Prog (VectorDb P) Unit
  | [] => pure ()
  | name :: names => do
    newCollection env name embedderName embedderSize
    newCollections env embedderName embedderSize names

/-- `VectorMemory(…)`. -/
def newVectorMemory (env : Env) (embedderName : Str) (embedderSize : Nat) : Prog (VectorDb P) Unit :=
  newCollections env embedderName embedderSize collectionNames

/-- `add_point`, where the upsert goes through: the collection is there and has the vector's size. -/
def addPoint (db : VectorDb P) (collectionName : Str) (size : Nat) (point : P) : VectorDb P :=
  match db.get? collectionName with
  | none => db
  | some c => if c.size = size then db.set collectionName { c with points := c.points ++ [point] } else db

/-! ## The memory over time -/

/-- The name and the size of an embedder. -/
structure Pair where
  name : Str
  size : Nat
  deriving DecidableEq

/-- A point, with the pair that was current when it was inserted. -/
structure Stamped where
  id : Str
  pair : Pair
  deriving DecidableEq

/-- The database, and the pair of the last construction that was completed. -/
structure VectorState where
  db : VectorDb Stamped
  current : Option Pair

def VectorState.start : VectorState := ⟨.empty, none⟩

inductive VectorEvent
  | construct (env : Env) (pair : Pair) (faults : List Fault)
  | insert (collectionName id : Str) (size : Nat)

/-- The construction completes. -/
def VectorState.completes (s : VectorState) (env : Env) (pair : Pair) (faults : List Fault) : Bool :=
  (newVectorMemory env pair.name pair.size s.db faults).1.isSome

def VectorState.step (s : VectorState) : VectorEvent → VectorState
  | .construct env pair faults =>
    ⟨(newVectorMemory env pair.name pair.size s.db faults).2.1,
      if s.completes env pair faults then some pair else s.current⟩
  | .insert collectionName id size =>
    match s.current with
    | none => s
    | some pair => { s with db := addPoint s.db collectionName size ⟨id, pair⟩ }

end KCore.VectorMemory
