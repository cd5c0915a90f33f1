import KCore.Impl.RabbitHole

/-!
# The ingestion of documents (`rabbit_hole.py`, `upload.py`)

An upload is admitted as a whole, and each of its files is then ingested in a background task of its own.
`Ingestion` is what one task gets from outside: the file, the plugins' hooks, the splitter, the embedder, the
database and the websocket. Starlette runs the tasks in order, and none after one that raised.
-/

namespace KCore.RabbitHole

open Text VectorMemory

variable {N : Type*}

/-! ## The rabbit hole -/

structure Doc (N : Type*) where
  pageContent : Str
  metadata : Dict Str (Json N)

/-- How an upsert ends; one that raises may have had its effect. -/
inductive Upsert
  | completed
  | acknowledged
  | raises (stored : Bool)

/-- A file to ingest, or a url. -/
structure Task (N : Type*) where
  filename : Str
  chunkSize : Option Int
  chunkOverlap : Option Int
  metadata : Json N

/-- What a task gets from outside; `none` and `false` stand for a call that raises. -/
structure Ingestion (N : Type*) where
  /-- the file, or the url, is read, and there are file handlers -/
  reads : Bool
  /-- what the parser makes of it -/
  parse : Option (List (Doc N))
  beforeSplitsText : List (Doc N) → Option (List (Doc N))
  /-- the chunk size and the overlap of the splitter that the hook instantiates -/
  splitter : Option (Int × Int)
  splitDocuments : Int × Int → List (Doc N) → Option (List (Doc N))
  afterSplittedText : List (Doc N) → Option (List (Doc N))
  beforeStoresDocuments : List (Doc N) → Option (List (Doc N))
  beforeInsertMemory : Doc N → Option (Doc N)
  embeds : Str → Bool
  /-- of the document of this number, as for `late` and `clock` -/
  upsert : ℕ → Upsert
  afterStoredDocuments : Str → List (Option (Written N)) → Bool
  sendWsMessage : Str → Bool
  /-- more than ten seconds have passed since the last notification -/
  late : ℕ → Bool
  clock : ℕ → N
  /-- `int(d / len(docs) * 100)` -/
  percent : ℕ → ℕ → ℕ

/-- What a task has done: the points in the declarative collection, those that `add_point` returned, the notifications,
and the points that the hook after it was given. -/
structure Progress (N : Type*) where
  written : List (Written N)
  storedPoints : List (Option (Written N))
  notifications : List Str
  hooked : Option (List (Option (Written N)))

def Progress.start : Progress N := ⟨[], [], [], none⟩

def Progress.notify (t : Ingestion N) (content : Str) (s : Progress N) : Progress N × Bool :=
  if t.sendWsMessage content then ({ s with notifications := s.notifications ++ [content] }, true) else (s, false)

/-- A size that is given, and not zero, is used. -/
def overridden (given : Option Int) (default : Int) : Int :=
  match given with
  | none => default
  | some n => if n = 0 then default else n

/-- `__split_text`. -/
def splitText (t : Ingestion N) (chunkSize chunkOverlap : Option Int) (text : List (Doc N)) : Option (List (Doc N)) :=
  (t.beforeSplitsText text).bind fun text =>
    t.splitter.bind fun (size, overlap) =>
      (t.splitDocuments (overridden chunkSize size, overridden chunkOverlap overlap) text).bind fun docs =>
        t.afterSplittedText (docs.filter fun d => 10 < d.pageContent.length)

/-- `file_to_docs`; the documents are `none` where it raises. -/
def fileToDocs (t : Ingestion N) (task : Task N) : Progress N × Option (List (Doc N)) :=
  if t.reads then
    match Progress.start.notify t "I'm parsing the content. Big content could require some minutes...".toList with
    | (s, false) => (s, none)
    | (s, true) =>
      match t.parse with
      | none => (s, none)
      | some superDocs =>
        match s.notify t "Parsing completed. Now let's go with reading process...".toList with
        | (s, false) => (s, none)
        | (s, true) => (s, splitText t task.chunkSize task.chunkOverlap superDocs)
  else (.start, none)

/-- The point of a document. -/
def Doc.written (doc : Doc N) : Written N := ⟨declarative, .str doc.pageContent, .obj doc.metadata.entries⟩

/-- `d`-th document, with its default metadata and what the request gave; `none` where a hook raises, or the request's
metadata is no dictionary. -/
def prepared (t : Ingestion N) (source : Str) (metadata : Json N) (doc : Doc N) (d : ℕ) : Option (Doc N) :=
  match metadata with
  | .obj es => t.beforeInsertMemory
    ⟨doc.pageContent, chunkMetadata doc.metadata source (t.clock d) (.collect Prod.fst Prod.snd es)⟩
  | .null | .bool _ | .num _ | .str _ | .arr _ => none

/-- The embedding of a document and its point. -/
def storeDocument (t : Ingestion N) (doc : Doc N) (d : ℕ) (s : Progress N) : Progress N × Bool :=
  if doc.pageContent = [] then (s, true)
  else if t.embeds doc.pageContent then
    match t.upsert d with
    | .completed =>
      ({ s with written := s.written ++ [doc.written], storedPoints := s.storedPoints ++ [some doc.written] }, true)
    | .acknowledged =>
      ({ s with written := s.written ++ [doc.written], storedPoints := s.storedPoints ++ [none] }, true)
    | .raises stored => ({ s with written := s.written ++ if stored then [doc.written] else [] }, false)
  else (s, false)

/-- The loop of `store_documents` from the `d`-th document on, of `n`. -/
def storeLoop (t : Ingestion N) (source : Str) (metadata : Json N) (n : ℕ) :
    List (Doc N) → ℕ → Progress N → Progress N × Bool
  | [], _, s => (s, true)
  | doc :: docs, d, s =>
    let readMessage := "Read ".toList ++ dec (t.percent d n) ++ "% of ".toList ++ source
    match if t.late d then s.notify t readMessage else (s, true) with
    | (s, false) => (s, false)
    | (s, true) =>
      match prepared t source metadata doc d with
      | none => (s, false)
      | some doc =>
        match storeDocument t doc d s with
        | (s, false) => (s, false)
        | (s, true) => storeLoop t source metadata n docs (d + 1) s

/-- `store_documents` after the loop. -/
def finish (t : Ingestion N) (source : Str) (n : ℕ) (s : Progress N) : Progress N × Bool :=
  let s := { s with hooked := some s.storedPoints }
  if t.afterStoredDocuments source s.storedPoints then
    s.notify t ("Finished reading ".toList ++ source ++ ", I made ".toList ++ dec n ++ " thoughts on it.".toList)
  else (s, false)

/-- `store_documents`. -/
def ingestDocuments (t : Ingestion N) (docs : List (Doc N)) (source : Str) (metadata : Json N) (s : Progress N) :
    Progress N × Bool :=
  match t.beforeStoresDocuments docs with
  | none => (s, false)
  | some docs =>
    match storeLoop t source metadata docs.length docs 0 s with
    | (s, false) => (s, false)
    | (s, true) => finish t source docs.length s

def ingestFile (t : Ingestion N) (task : Task N) : Progress N × Bool :=
  match fileToDocs t task with
  | (s, none) => (s, false)
  | (s, some docs) => ingestDocuments t docs task.filename task.metadata s

/-! ## The routes -/

structure File where
  filename : Str
  contentType : Option Str
  deriving DecidableEq

/-- The form of an upload; `metadata` is what it is in JSON, if anything. -/
structure Form (N : Type*) where
  chunkSize : Option Int
  chunkOverlap : Option Int
  metadata : Option (Json N)

inductive Response
  | file (f : File)
  | files (fs : Dict Str File)
  | url (url : Str)
  | badRequest (error : Str)
  | internalServerError

/-- The plugins' file handlers by their types, and `mimetypes.guess_type`. -/
structure Types where
  admittedTypes : List Str
  guessType : Str → Option Str

/-- What is said of a file whose type is not supported. -/
def Types.refusal (types : Types) (file : File) : Option Str :=
  let contentType := types.guessType file.filename
  if contentType.any (· ∈ types.admittedTypes) then none
  else some ("MIME type ".toList ++ contentType.getD "None".toList ++ " not supported. Admitted types: ".toList ++
    join " - ".toList types.admittedTypes)

/-- `upload_file`. -/
def uploadFile (types : Types) (form : Form N) (file : File) : Response × List (Task N) :=
  match types.refusal file, form.metadata with
  | some error, _ => (.badRequest error, [])
  | none, none => (.internalServerError, [])
  | none, some metadata => (.file file, [⟨file.filename, form.chunkSize, form.chunkOverlap, metadata⟩])

def isStr (text : Str) : Json N → Bool
  | .str s => decide (s = text)
  | .null | .bool _ | .num _ | .arr _ | .obj _ => false

/-- `metadata_dict[filename] if filename in metadata_dict else {}`. -/
def fileMetadata (metadataDict : Json N) (filename : Str) : Option (Json N) :=
  match metadataDict with
  | .obj es => some ((Dict.find filename es).getD (.obj []))
  | .arr vs => if vs.any (isStr filename) then none else some (.obj [])
  | .str s => if filename <:+: s then none else some (.obj [])
  | .null | .bool _ | .num _ => none

/-- The loop of `upload_files`. What was queued is dropped where the request fails. -/
def uploadLoop (types : Types) (form : Form N) (metadataDict : Json N) :
    List File → Dict Str File → List (Task N) → Response × List (Task N)
  | [], response, tasks => (.files response, tasks)
  | file :: files, response, tasks =>
    match types.refusal file, fileMetadata metadataDict file.filename with
    | some error, _ => (.badRequest error, [])
    | none, none => (.internalServerError, [])
    | none, some metadata => uploadLoop types form metadataDict files (response.set file.filename file)
        (tasks ++ [⟨file.filename, form.chunkSize, form.chunkOverlap, metadata⟩])

def uploadFiles (types : Types) (form : Form N) (files : List File) : Response × List (Task N) :=
  match form.metadata with
  | none => (.internalServerError, [])
  | some metadataDict => uploadLoop types form metadataDict files .empty []

/-- `upload_url`; `head` is the status of a HEAD request, `none` where the url is not reached. -/
def uploadUrl (head : Option ℕ) (uploadConfig : Task N) : Response × List (Task N) :=
  match head with
  | none => (.badRequest "Unable to reach the URL".toList, [])
  | some status =>
    if status = 200 then (.url uploadConfig.filename, [uploadConfig]) else (.badRequest "Invalid URL".toList, [])

/-- A request to one of the routes. -/
inductive Upload (N : Type*)
  | file (form : Form N) (file : File)
  | files (form : Form N) (files : List File)
  | url (head : Option ℕ) (uploadConfig : Task N)

/-- The response, and the tasks that are queued with it. -/
def Upload.request (types : Types) : Upload N → Response × List (Task N)
  | file form f => uploadFile types form f
  | files form fs => uploadFiles types form fs
  | url head uploadConfig => uploadUrl head uploadConfig

/-- The background tasks, each with what it gets from outside: what those that were begun have done, and whether all
completed. -/
def runTasks : List (Task N × Ingestion N) → List (Progress N) × Bool
  | [] => ([], true)
  | (task, t) :: tasks =>
    match ingestFile t task with
    | (s, false) => ([s], false)
    | (s, true) =>
      let (ss, completed) := runTasks tasks
      (s :: ss, completed)

end KCore.RabbitHole
