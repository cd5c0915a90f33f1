import KCore.Impl.Auth.Permissions
import KCore.Lib.SharedCopy

/-!
# The users (`routes/users.py`, `crud.py`)

The users setting and the requests that change it. A request brings what the
platform makes for it: the `uuid4` of a new user and the hash of its password,
which bcrypt salts. Requests are served in parallel threads: each reads the whole
setting when its dependencies are resolved, checks it, and changes it and writes it back at its
end (`Request.plan`). TinyDB gives all who read between two writes the same dict, out of its
query cache, and an endpoint changes that dict in place.
-/

namespace KCore.Auth

open Text

structure User where
  id : Str
  username : Str
  password : Str
  permissions : Permissions

/-- The value of the setting `users`. -/
abbrev Users := Dict Str User

/-- What `get_users` stores where there is no setting yet. -/
def defaultUsers (adminId userId adminPassword userPassword : Str) : Users :=
  (Dict.empty.set adminId ⟨adminId, "admin".toList, adminPassword, getFullPermissions⟩).set userId
    ⟨userId, "user".toList, userPassword, getBasePermissions⟩

structure UserCreate where
  username : Str
  permissions : Granted
  password : Str
  username_min : 2 ≤ username.length
  password_min : 5 ≤ password.length

/-- `none` for a field that is not set. -/
structure UserUpdate where
  username : Option Str
  permissions : Option Granted
  password : Option Str
  username_min : ∀ u ∈ username, 2 ≤ u.length
  password_min : ∀ p ∈ password, 4 ≤ p.length

inductive Response
  | user (u : User)
  | cannotDuplicate
  | notFound

def createUser (users : Users) (newUser : UserCreate) (newId : Str) (hashPassword : Str → Str) : Users × Response :=
  if users.values.any (·.username = newUser.username) then (users, .cannotDuplicate)
  else
    let user := ⟨newId, newUser.username, hashPassword newUser.password, newUser.permissions.dump⟩
    (users.set newId user, .user user)

/-- `stored_user | user.model_dump(exclude_unset=True)`. -/
def User.update (stored : User) (user : UserUpdate) (hashPassword : Str → Str) : User where
  id := stored.id
  username := user.username.getD stored.username
  password := (user.password.map hashPassword).getD stored.password
  permissions := (user.permissions.map Granted.dump).getD stored.permissions

def updateUser (users : Users) (userId : Str) (user : UserUpdate) (hashPassword : Str → Str) : Users × Response :=
  match users.get? userId with
  | none => (users, .notFound)
  | some stored =>
    let updated := stored.update user hashPassword
    (users.set userId updated, .user updated)

def deleteUser (users : Users) (userId : Str) : Users × Response :=
  match users.get? userId with
  | none => (users, .notFound)
  | some user => (users.erase userId, .user user)

inductive Request
  | create (newUser : UserCreate) (newId : Str) (hashPassword : Str → Str)
  | update (userId : Str) (user : UserUpdate) (hashPassword : Str → Str)
  | delete (userId : Str)

def respond (users : Users) : Request → Users × Response
  | .create newUser newId hashPassword => createUser users newUser newId hashPassword
  | .update userId user hashPassword => updateUser users userId user hashPassword
  | .delete userId => deleteUser users userId

def step (users : Users) (r : Request) : Users := (respond users r).1

/-- The endpoint after the read of `users`. An `HTTPException` is raised before the dict is changed; what the change
needs of the check (`stored_user`) is kept. `none` answers for the `KeyError` of `users_db.pop`, for a user that is gone
by then. -/
def Request.plan (r : Request) (users : Users) : SharedCopy.Decision Users (Option Response) :=
  match r with
  | .create newUser newId hashPassword =>
    if users.values.any (·.username = newUser.username) then .reject (some .cannotDuplicate)
    else
      let user := ⟨newId, newUser.username, hashPassword newUser.password, newUser.permissions.dump⟩
      .change fun users => (some (users.set newId user), some (.user user))
  | .update userId user hashPassword =>
    match users.get? userId with
    | none => .reject (some .notFound)
    | some stored =>
      let updated := stored.update user hashPassword
      .change fun users => (some (users.set userId updated), some (.user updated))
  | .delete userId =>
    match users.get? userId with
    | none => .reject (some .notFound)
    | some _ => .change fun users =>
      match users.get? userId with
      | none => (none, none)
      | some user => (some (users.erase userId), some (.user user))

end KCore.Auth
