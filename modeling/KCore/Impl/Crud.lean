import KCore.Lib.Text

/-!
# The settings table (`crud.py`, `models.py`, `routes/settings.py`)

The table as TinyDB keeps it, a list of records with search, insert, update and remove by
predicate, and the calls that change it. `uuid4` is a sequence of draws, of which the
state counts those that are used up.
-/

namespace KCore.Crud

open Text

structure SettingBody (V : Type*) where
  name : Str
  value : V
  category : Option Str

structure Setting (V : Type*) extends SettingBody V where
  settingId : Str
  updatedAt : ℕ

/-- The records, in the order in which they came. -/
abbrev Table (V : Type*) := List (Setting V)

variable {V : Type*}

/-! ## `crud.py` -/

def getSettingByName (db : Table V) (name : Str) : Option (Setting V) := (db.filter fun s => s.name = name).head?

def getSettingById (db : Table V) (settingId : Str) : Option (Setting V) :=
  (db.filter fun s => s.settingId = settingId).head?

def createSetting (db : Table V) (payload : Setting V) : Table V := db ++ [payload]

def deleteSettingById (db : Table V) (settingId : Str) : Table V := db.filter fun s => s.settingId ≠ settingId

def deleteSettingsByCategory (db : Table V) (category : Str) : Table V := db.filter fun s => s.category ≠ some category

/-- Every field of a record that matches is updated. -/
def updateSettingById (db : Table V) (payload : Setting V) : Table V :=
  db.map fun s => if s.settingId = payload.settingId then payload else s

def upsertSettingByName (db : Table V) (payload : Setting V) : Table V :=
  match getSettingByName db payload.name with
  | none => createSetting db payload
  | some _ => db.map fun s => if s.name = payload.name then payload else s

def usersName : Str := "users".toList

/-! ## The calls -/

/-- The table, and the number of ids that have been drawn. -/
structure Store (V : Type*) where
  db : Table V
  drawn : ℕ

def Store.empty : Store V := ⟨[], 0⟩

/-- A call and the time at which it builds a record. -/
inductive Call (V : Type*)
  | create (payload : SettingBody V) (now : ℕ)
  | update (settingId : Str) (payload : SettingBody V) (now : ℕ)
  | delete (settingId : Str)
  | upsertByName (payload : SettingBody V) (now : ℕ)
  | updateUsers (users : V) (now : ℕ)
  | deleteByCategory (category : Str)

/-- What a call returns; `httpException` has the status and the error. -/
inductive Answer (V : Type*)
  | setting (s : Option (Setting V))
  | deleted (settingId : Str)
  | done
  | httpException (status : ℕ) (error : Str)

def notFound (settingId : Str) : Answer V :=
  .httpException 404 ("No setting with this id: ".toList ++ settingId)

/-- The answer, and the table and the draws after it. -/
def respond (uuid : ℕ → Str) (s : Store V) : Call V → Store V × Answer V
  | .create payload now =>
    let payload : Setting V := ⟨payload, uuid s.drawn, now⟩
    let db := createSetting s.db payload
    (⟨db, s.drawn + 1⟩, .setting (getSettingById db payload.settingId))
  | .update settingId payload now =>
    match getSettingById s.db settingId with
    | none => (s, notFound settingId)
    | some _ =>
      -- the id that is drawn for the record is overwritten
      let payload : Setting V := ⟨payload, settingId, now⟩
      let db := updateSettingById s.db payload
      (⟨db, s.drawn + 1⟩, .setting (getSettingById db payload.settingId))
  | .delete settingId =>
    match getSettingById s.db settingId with
    | none => (s, notFound settingId)
    | some _ => (⟨deleteSettingById s.db settingId, s.drawn⟩, .deleted settingId)
  | .upsertByName payload now =>
    let payload : Setting V := ⟨payload, uuid s.drawn, now⟩
    let db := upsertSettingByName s.db payload
    (⟨db, s.drawn + 1⟩, .setting (getSettingByName db payload.name))
  | .updateUsers users now =>
    let payload : Setting V := ⟨⟨usersName, users, none⟩, uuid s.drawn, now⟩
    let db := upsertSettingByName s.db payload
    (⟨db, s.drawn + 1⟩, .setting (getSettingByName db payload.name))
  | .deleteByCategory category => (⟨deleteSettingsByCategory s.db category, s.drawn⟩, .done)

def step (uuid : ℕ → Str) (s : Store V) (c : Call V) : Store V := (respond uuid s c).1

end KCore.Crud
