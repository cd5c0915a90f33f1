import KCore.Lib.JsonPath

/-!
# Choosing a model (`crud.py`, `embedder.py`, `llm.py`)

The settings store, and the two routes that save the configuration of a model, select
it and load it. The id and the time of a record, which nothing here reads, are left out.
-/

namespace KCore.Settings

open Text

/-- A record. -/
structure Setting (N : Type*) where
  name : Str
  value : Json N
  category : Option Str

/-- The records, in the order in which they came. -/
abbrev Store (N : Type*) := List (Setting N)

variable {N : Type*}

/-! ## `crud.py` -/

def getSettingByName (db : Store N) (name : Str) : Option (Setting N) := db.find? fun s => s.name = name

/-- All records of the name are replaced, or the new one is added. -/
def upsertSettingByName (db : Store N) (payload : Setting N) : Store N :=
  match getSettingByName db payload.name with
  | none => db ++ [payload]
  | some _ => db.map fun s => if s.name = payload.name then payload else s

def deleteSettingsByCategory (db : Store N) (category : Str) : Store N :=
  db.filter fun s => s.category ≠ some category

/-! ## The routes -/

/-- Whether the calls return: `load_natural_language`, `load_memory`, `load_natural_language` after a rollback, and
`find_plugins`. -/
structure Outside where
  naturalLanguage : Bool
  memory : Bool
  restored : Bool
  plugins : Bool

/-- The model is loaded; there is no such model (400); `load_memory` raised (400); something else raised (500). -/
inductive Answer
  | loaded
  | unsupported
  | memoryFailed
  | raised
  deriving DecidableEq

def embedderSelectedCategory : Str := "embedder".toList
def embedderCategory : Str := "embedder_factory".toList
def embedderSelectedName : Str := "embedder_selected".toList

/-- The selected configuration, and the one that is saved under its name. -/
abbrev Selected (N : Type*) := Json N × Option (Setting N)

/-- `selected["value"]["name"]` and the setting of that name, if one is selected; `none` where the reading raises. -/
def getSelected (db : Store N) : Option (Option (Selected N)) :=
  match getSettingByName db embedderSelectedName with
  | none => some none
  | some selected =>
    match selected.value.field "name".toList with
    | none => none
    | some (.str name) => some (some (.str name, getSettingByName db name))
    | some v => some (some (v, none))

/-- The selected configuration as it was, `none` where that raises: the name is no string or has no setting. -/
def restore (db : Store N) : Selected N → Option (Store N)
  | (.str name, some current) =>
    let db := upsertSettingByName db ⟨name, current.value, some embedderCategory⟩
    some (upsertSettingByName db
      ⟨embedderSelectedName, .obj [("name".toList, .str name)], some embedderSelectedCategory⟩)
  | _ => none

/-- The store and the answer; `allowed` are the names of the schemas. -/
def upsertEmbedderSetting (allowed : List Str) (db : Store N) (name : Str) (payload : Json N) (o : Outside) :
    Store N × Answer :=
  if name ∉ allowed then (db, .unsupported)
  else
    match getSelected db with
    | none => (db, .raised)
    | some selected =>
      let db := upsertSettingByName db ⟨name, payload, some embedderCategory⟩
      let db := upsertSettingByName db
        ⟨embedderSelectedName, .obj [("name".toList, .str name)], some embedderSelectedCategory⟩
      if o.naturalLanguage = false then (db, .raised)
      else if o.memory then (db, if o.plugins then .loaded else .raised)
      else
        let db := deleteSettingsByCategory db embedderSelectedCategory
        let db := deleteSettingsByCategory db embedderCategory
        match selected with
        | none => (db, .memoryFailed)
        | some selected =>
          match restore db selected with
          | none => (db, .raised)
          | some db => (db, if o.restored then .memoryFailed else .raised)

def llmSelectedCategory : Str := "llm".toList
def llmCategory : Str := "llm_factory".toList
def llmSelectedName : Str := "llm_selected".toList

def upsertLlmSetting (allowed : List Str) (db : Store N) (name : Str) (payload : Json N) (o : Outside) :
    Store N × Answer :=
  if name ∉ allowed then (db, .unsupported)
  else
    let db := upsertSettingByName db ⟨name, payload, some llmCategory⟩
    let db := upsertSettingByName db ⟨llmSelectedName, .obj [("name".toList, .str name)], some llmSelectedCategory⟩
    if o.naturalLanguage = false then (db, .raised)
    else if o.memory then (db, if o.plugins then .loaded else .raised)
    else
      let db := deleteSettingsByCategory db llmSelectedCategory
      let db := deleteSettingsByCategory db llmCategory
      (db, .memoryFailed)

end KCore.Settings
