import KCore.Impl.MainAgent

/-!
# What writes memories (`rabbit_hole.py`, `stray_cat.py`, `points.py`)

The points that the ingestion of documents, a memory upload, a conversation turn and the points
API write to the episodic and the declarative collection, with the hooks of the core plugin.
-/

namespace KCore.RabbitHole

open Text VectorMemory MemoryPoints MainAgent

def declarative : Str := "declarative".toList

/-- A point that is written. -/
structure Written (N : Type*) where
  collection : Str
  payload : Payload N

/-- A point of an uploaded memory. -/
structure Record (N V : Type*) where
  id : Json N
  pageContent : Json N
  metadata : Json N
  vector : V

/-- What is read of an uploaded file. -/
structure MemoriesFile (N V : Type*) where
  embedder : Str
  declarative : List (Record N V)

/-- The cat's embedder and its vector database, which takes a batch or refuses it. -/
structure Cat (N V : Type*) where
  client : Client N V
  embedder : Str
  embedderSize : ℕ
  dimension : V → ℕ
  upserts : List (Record N V) → Bool

variable {N V : Type*} [Zero N] [One N] [DecidableEq N]

/-- `none` where it raises and nothing is stored. -/
def ingestMemory (cat : Cat N V) (memories : MemoriesFile N V) : Option (List (Written N)) :=
  if memories.embedder ≠ cat.embedder then none
  else
    let lenMismatch := memories.declarative.map fun v => decide (cat.dimension v.vector = cat.embedderSize)
    if !lenMismatch.any id then none
    else if cat.upserts memories.declarative then
      some (memories.declarative.map fun p => ⟨declarative, p.pageContent, p.metadata⟩)
    else none

/-- `models.Batch`. -/
structure Batch (N V : Type*) where
  ids : List (Json N)
  payloads : List (Payload N)
  vectors : List V

/-- The points that a batch lists. -/
def Batch.records {N V : Type*} (b : Batch N V) : List (Record N V) :=
  (b.ids.zip (b.payloads.zip b.vectors)).map fun (id, payload, vector) =>
    ⟨id, payload.pageContent, payload.metadata, vector⟩

/-- What `ingest_memory` hands to `upsert`; `none` where it raises before. -/
def uploadBatch (cat : Cat N V) (memories : MemoriesFile N V) : Option (Batch N V) :=
  if memories.embedder ≠ cat.embedder then none
  else
    let ids := memories.declarative.map Record.id
    let payloads := memories.declarative.map fun p => (⟨p.pageContent, p.metadata⟩ : Payload N)
    let vectors := memories.declarative.map Record.vector
    let lenMismatch := vectors.map fun v => decide (cat.dimension v = cat.embedderSize)
    if !lenMismatch.any id then none else some ⟨ids, payloads, vectors⟩

/-- The collection after `ingest_memory`, and whether it returned; `upsert` is the vector store's, `none` where it
raises. -/
def upload {C : Type*} (cat : Cat N V) (upsert : C → Batch N V → Option C) (collection : C)
    (memories : MemoriesFile N V) : C × Bool :=
  match (uploadBatch cat memories).bind (upsert collection) with
  | none => (collection, false)
  | some collection => (collection, true)

/-- The metadata of a chunk: the default one, then the custom one. -/
def chunkMetadata (docMetadata : Dict Str (Json N)) (source : Str) (now : N) (metadata : Dict Str (Json N)) :
    Dict Str (Json N) :=
  ((docMetadata.set VectorMemory.source (.str source)).set when (.num now)).merge metadata

variable (p : Platform N)

/-- The chunks with their own metadata; an empty one is skipped. -/
def storeDocuments (docs : List (Str × Dict Str (Json N))) (source : Str) (clock : ℕ → p.Time)
    (metadata : Dict Str (Json N)) : List (Written N) :=
  docs.zipIdx.filterMap fun ((pageContent, docMetadata), d) =>
    if pageContent ≠ [] then
      some ⟨declarative, .str pageContent, .obj (chunkMetadata docMetadata source (clock d).val metadata).entries⟩
    else none

/-- A message without a text makes no `Document`. -/
def storeUserMessageInEpisodicMemory (userId : Str) (now : p.Time) (userMessageText : Option Str) : List (Written N) :=
  userMessageText.toList.map fun text =>
    ⟨episodic, .str text, .obj ((Dict.empty.set VectorMemory.source (.str userId)).set when (.num now.val)).entries⟩

/-- The point of an answer of the points API. -/
def answered (collectionId : Str) : Answer N V → List (Written N)
  | .point point => [⟨collectionId, .str point.content, .obj point.metadata.entries⟩]
  | _ => []

/-- The writes. -/
inductive Write (p : Platform N) (V : Type*)
  | turn (userId : Str) (now : p.Time) (userMessageText : Option Str)
  | create (vectors : Vectors N V) (collectionId : Str) (point : MemoryPointBase N) (userId : Str) (now : p.Time)
      (newId : Str)
  | edit (vectors : Vectors N V) (collectionId pointId : Str) (point : MemoryPointBase N) (userId : Str) (now : p.Time)
  | documents (docs : List (Str × Dict Str (Json N))) (source : Str) (clock : ℕ → p.Time) (metadata : Dict Str (Json N))
  | upload (memories : MemoriesFile N V)

def Write.points (cat : Cat N V) {p : Platform N} : Write p V → List (Written N)
  | .turn userId now userMessageText => storeUserMessageInEpisodicMemory p userId now userMessageText
  | .create vectors collectionId point userId now newId =>
    answered collectionId (createMemoryPoint cat.client vectors collectionId point userId now.val newId).2
  | .edit vectors collectionId pointId point userId now =>
    answered collectionId (editMemoryPoint cat.client vectors collectionId pointId point userId now.val).2
  | .documents docs source clock metadata => storeDocuments p docs source clock metadata
  | .upload memories => (ingestMemory cat memories).getD []

end KCore.RabbitHole
