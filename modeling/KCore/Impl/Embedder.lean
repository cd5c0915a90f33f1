import KCore.Impl.Settings
import KCore.Impl.VectorMemory.Collections

/-!
# Loading an embedder and its memory (`factory/embedder.py`, `custom_embedder.py`, `cheshire_cat.py`)

What the classes of langchain and of plugins give for their arguments is the parameter
`outside`. Of an embedder object there are the attributes that `load_memory` reads and those
that its model depends on. The texts of the schemas are left out.
-/

namespace KCore.LookingGlass

open Text KCore.Settings KCore.VectorMemory

variable {N : Type}

/-! ## The classes -/

inductive PyClass
  | dumbEmbedder
  | customOpenAIEmbeddings
  | customOllamaEmbeddings
  | outside (name : Str)
  deriving DecidableEq

/-- The value of an attribute: one that JSON has, or some other object. -/
inductive Attribute (N : Type)
  | json (v : Json N)
  | object (id : Nat)

/-- An embedder object. -/
structure Embedder (N : Type) where
  pyclass : PyClass
  attributes : Dict Str (Attribute N)

/-- Keyword arguments. -/
abbrev Config (N : Type) := List (Str × Json N)

/-- The attributes of `pyclass(**config)`, by the name of the class; `none` where it raises. -/
abbrev Outside (N : Type) := Str → Config N → Option (Dict Str (Attribute N))

/-- `os.path.join` of a text and a relative path. -/
def pathJoin (base path : Str) : Str :=
  if base = [] ∨ base.getLast? = some '/' then base ++ path else base ++ '/' :: path

def newDumbEmbedder : Config N → Option (Embedder N)
  | [] => some ⟨.dumbEmbedder, .empty⟩
  | _ :: _ => none

def newCustomOpenAIEmbeddings (config : Config N) : Option (Embedder N) :=
  match config.length, Dict.find "url".toList config with
  | 1, some (.str url) =>
    some ⟨.customOpenAIEmbeddings, Dict.empty.set "url".toList (.json (.str (pathJoin url "v1/embeddings".toList)))⟩
  | _, _ => none

def newCustomOllamaEmbeddings (config : Config N) : Option (Embedder N) :=
  match config.length, Dict.find "base_url".toList config, Dict.find "model".toList config with
  | 2, some (.str baseUrl), some model =>
    some ⟨.customOllamaEmbeddings, (Dict.empty.set "url".toList (.json (.str (pathJoin baseUrl "api/embed".toList)))).set
      "model".toList (.json model)⟩
  | _, _, _ => none

def PyClass.new (outside : Outside N) : PyClass → Config N → Option (Embedder N)
  | .dumbEmbedder, config => newDumbEmbedder config
  | .customOpenAIEmbeddings, config => newCustomOpenAIEmbeddings config
  | .customOllamaEmbeddings, config => newCustomOllamaEmbeddings config
  | .outside name, config => (outside name config).map fun attributes => ⟨.outside name, attributes⟩

/-! ## `factory/embedder.py` -/

/-- The names of the settings classes, with what they have in `_pyclass`. -/
abbrev Factory := List (Str × PyClass)

def listEmbedderDefault : Factory :=
  [("EmbedderQdrantFastEmbedConfig".toList, .outside "FastEmbedEmbeddings".toList),
   ("EmbedderOpenAIConfig".toList, .outside "OpenAIEmbeddings".toList),
   ("EmbedderAzureOpenAIConfig".toList, .outside "AzureOpenAIEmbeddings".toList),
   ("EmbedderGeminiChatConfig".toList, .outside "GoogleGenerativeAIEmbeddings".toList),
   ("EmbedderOpenAICompatibleConfig".toList, .customOpenAIEmbeddings),
   ("EmbedderCohereConfig".toList, .outside "CohereEmbeddings".toList),
   ("EmbedderDumbConfig".toList, .dumbEmbedder),
   ("EmbedderFakeConfig".toList, .outside "FakeEmbeddings".toList),
   ("EmbedderOllamaConfig".toList, .customOllamaEmbeddings)]

/-- `cls._pyclass.default(**config)`; the schema's own defaults do not come in. -/
def getEmbedderFromConfig (outside : Outside N) (pyclass : PyClass) : Json N → Option (Embedder N)
  | .obj config => pyclass.new outside config
  | _ => none

/-- `allowed` is what the hook `factory_allowed_embedders` made of the default list. -/
def getEmbedderFromName (allowed : Factory) : Json N → Option PyClass
  | .str name => Dict.find name allowed
  | _ => none

/-! ## `cheshire_cat.py` -/

/-- The class of `self._llm`, with its key. -/
inductive Llm
  | openAI (openaiApiKey : Str)
  | cohere (cohereApiKey : Str)
  | gemini (googleApiKey : Str)
  | other

/-- `EmbedderDumbConfig.get_embedder_from_config({})`. -/
def defaultEmbedder : Embedder N := ⟨.dumbEmbedder, .empty⟩

/-- Where no embedder is selected. -/
def automaticEmbedder (outside : Outside N) : Llm → Option (Embedder N)
  | .openAI key => PyClass.new outside (.outside "OpenAIEmbeddings".toList) [("openai_api_key".toList, .str key)]
  | .cohere key => PyClass.new outside (.outside "CohereEmbeddings".toList)
      [("cohere_api_key".toList, .str key), ("model".toList, .str "embed-multilingual-v2.0".toList)]
  | .gemini key => PyClass.new outside (.outside "GoogleGenerativeAIEmbeddings".toList)
      [("model".toList, .str "models/embedding-001".toList), ("google_api_key".toList, .str key)]
  | .other => some defaultEmbedder

def loadLanguageEmbedder (outside : Outside N) (allowed : Factory) (llm : Llm) (db : Store N) : Option (Embedder N) :=
  match getSelected db with
  | none => none
  | some none => automaticEmbedder outside llm
  | some (some (name, config)) =>
    match getEmbedderFromName allowed name, config with
    | some pyclass, some setting => some ((getEmbedderFromConfig outside pyclass setting.value).getD defaultEmbedder)
    | _, _ => some defaultEmbedder

/-- The name and the size that `load_memory` gives to the vector memory, `none` where the name is no text. -/
def vectorMemoryConfig (embedder : Embedder N) (embedderSize : Nat) : Option Pair :=
  match (embedder.attributes.get? "model".toList).or (embedder.attributes.get? "repo_id".toList) with
  | none => some ⟨"default_embedder".toList, embedderSize⟩
  | some (.json (.str name)) => some ⟨name, embedderSize⟩
  | some _ => none

/-! ## The cat over time -/

/-- A point, with the embedder that made its vector and the pair of the memory it went into. -/
structure Embedded (N : Type) where
  id : Str
  embedder : Embedder N
  pair : Pair

/-- The settings, the embedder with the name and the size of its memory, and the vectors. -/
structure Cat (N : Type) where
  settings : Store N
  loaded : Option (Embedder N × Pair)
  db : VectorDb (Embedded N)

def Cat.start : Cat N := ⟨[], none, .empty⟩

/-- What a loading depends on besides the settings; `embedderSize` is the length of `embed_query("hello world")`. -/
structure Conditions where
  allowed : Factory
  llm : Llm
  env : Env
  embedderSize : Nat

inductive CatEvent (N : Type)
  | select (c : Conditions) (name : Str) (payload : Json N)
  | restart (c : Conditions)
  | store (collectionName id : Str) (size : Nat)

/-- What is loaded: the embedder, with the name and the size of the memory. -/
abbrev Loaded (N : Type) := Store N × Embedder N × Pair

/-- `load_natural_language` and `load_memory`, up to the vector memory. -/
def load (outside : Outside N) (c : Conditions) (settings : Store N) : Option (Loaded N) :=
  match loadLanguageEmbedder outside c.allowed c.llm settings with
  | none => none
  | some embedder => (vectorMemoryConfig embedder c.embedderSize).map fun pair => (settings, embedder, pair)

/-- What an event loads. -/
def Cat.loads (outside : Outside N) (s : Cat N) : CatEvent N → Option (Env × Loaded N)
  | .select c name payload =>
    match upsertEmbedderSetting (c.allowed.map Prod.fst) s.settings name payload ⟨true, true, true, true⟩ with
    | (settings, .loaded) => (load outside c settings).map fun l => (c.env, l)
    | _ => none
  | .restart c => (load outside c s.settings).map fun l => (c.env, l)
  | .store .. => none

/-- The memory is made for the embedder; a loading that raises is left out. -/
def Cat.reload (s : Cat N) : Option (Env × Loaded N) → Cat N
  | none => s
  | some (env, settings, embedder, pair) =>
    ⟨settings, some (embedder, pair), (newVectorMemory env pair.name pair.size s.db []).2.1⟩

/-- A vector is stored that the current embedder made. -/
def Cat.step (outside : Outside N) (s : Cat N) : CatEvent N → Cat N
  | .store collectionName id size =>
    match s.loaded with
    | none => s
    | some (embedder, pair) => { s with db := addPoint s.db collectionName size ⟨id, embedder, pair⟩ }
  | e => s.reload (s.loads outside e)

end KCore.LookingGlass
