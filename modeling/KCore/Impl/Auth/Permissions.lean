import KCore.Lib.Dict
import KCore.Lib.Text

/-!
# Resources and permissions (`permissions.py`)

Permissions are stored as texts; those of an authenticated user are validated
against the two enumerations.
-/

namespace KCore.Auth

open Text

inductive AuthResource
  | status
  | memory
  | conversation
  | settings
  | llm
  | embedder
  | authHandler
  | users
  | upload
  | plugins
  | static
  deriving DecidableEq

inductive AuthPermission
  | write
  | edit
  | list
  | read
  | delete
  deriving DecidableEq

/-- The enumeration, in its order. -/
def AuthResource.all : List AuthResource :=
  [.status, .memory, .conversation, .settings, .llm, .embedder, .authHandler, .users, .upload, .plugins, .static]

def AuthResource.name : AuthResource → Str
  | status => "STATUS".toList
  | memory => "MEMORY".toList
  | conversation => "CONVERSATION".toList
  | settings => "SETTINGS".toList
  | llm => "LLM".toList
  | embedder => "EMBEDDER".toList
  | authHandler => "AUTH_HANDLER".toList
  | users => "USERS".toList
  | upload => "UPLOAD".toList
  | plugins => "PLUGINS".toList
  | static => "STATIC".toList

def AuthPermission.all : List AuthPermission := [.write, .edit, .list, .read, .delete]

def AuthPermission.name : AuthPermission → Str
  | write => "WRITE".toList
  | edit => "EDIT".toList
  | list => "LIST".toList
  | read => "READ".toList
  | delete => "DELETE".toList

/-- Permissions by resource, as the users setting holds them. -/
abbrev Permissions := Dict Str (List Str)

def getFullPermissions : Permissions :=
  AuthResource.all.foldl (fun perms res => perms.set res.name (AuthPermission.all.map AuthPermission.name)) .empty

def getBasePermissions : Permissions :=
  [("STATUS", ["READ"]), ("MEMORY", ["READ", "LIST"]), ("CONVERSATION", ["WRITE", "EDIT", "LIST", "READ", "DELETE"]),
    ("STATIC", ["READ"])].foldl (fun perms e => perms.set e.1.toList (e.2.map String.toList)) .empty

/-! ## Validated permissions -/

def AuthResource.ofName (name : Str) : Option AuthResource := all.find? (·.name = name)

def AuthPermission.ofName (name : Str) : Option AuthPermission := all.find? (·.name = name)

/-- `Dict[AuthResource, List[AuthPermission]]`. -/
abbrev Granted := Dict AuthResource (List AuthPermission)

/-- The loop of pydantic over the entries; `none` where a text is in neither enumeration. -/
def validateEntries (granted : Granted) : List (Str × List Str) → Option Granted
  | [] => some granted
  | (name, perms) :: entries =>
    match AuthResource.ofName name, perms.mapM AuthPermission.ofName with
    | some res, some perms => validateEntries (granted.set res perms) entries
    | _, _ => none

def validate (perms : Permissions) : Option Granted := validateEntries .empty perms.entries

/-- `model_dump`, and the JSON of the settings DB. -/
def Granted.dump (granted : Granted) : Permissions :=
  granted.entries.foldl (fun perms e => perms.set e.1.name (e.2.map AuthPermission.name)) .empty

end KCore.Auth
