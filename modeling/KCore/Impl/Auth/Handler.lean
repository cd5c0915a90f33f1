import KCore.Impl.Auth.Users

/-!
# The core's auth handler (`custom_auth_handler.py`)

Who a credential stands for, and with which permissions. `Jwt` is the JWT
library, with the secret and the algorithm of the environment.
-/

namespace KCore.Auth

open Text

/-- The claims of a token; `none` where one is absent or no text. -/
structure Payload where
  sub : Option Str
  username : Option Str
  permissions : Permissions
  exp : Nat

structure Jwt where
  /-- `is_jwt`: the text has the form of a token -/
  isJwt : Str → Bool
  /-- `jwt.decode`, `none` where it raises: a wrong signature, or expired -/
  decode : Str → Option Payload
  encode : Payload → Str

/-- `CCAT_API_KEY` and `CCAT_API_KEY_WS`. -/
structure Env where
  httpKey : Option Str
  wsKey : Option Str

inductive Protocol
  | http
  | websocket
  deriving DecidableEq

/-- `extra` is the stored user of a token. -/
structure AuthUserInfo where
  id : Str
  name : Str
  permissions : Granted
  extra : Option User

/-- `AuthUserInfo(…)`, `none` where pydantic refuses the permissions. -/
def authUserInfo (id name : Str) (permissions : Permissions) (extra : Option User) : Option AuthUserInfo :=
  (validate permissions).map fun granted => ⟨id, name, granted, extra⟩

/-- `auth_permission in user["permissions"][auth_resource]`, for a resource among the keys. -/
def User.allows (user : User) (res : AuthResource) (perm : AuthPermission) : Bool :=
  match user.permissions.get? res.name with
  | none => false
  | some perms => perm.name ∈ perms

/-- An exception on the way stands for `None`, as the handler catches it. -/
def authorizeUserFromJwt (jwt : Jwt) (users : Users) (token : Str) (res : AuthResource) (perm : AuthPermission) :
    Option AuthUserInfo := do
  let payload ← jwt.decode token
  let sub ← payload.sub
  let user ← users.get? sub
  if user.allows res perm then
    let username ← payload.username
    authUserInfo sub username user.permissions (some user)
  else none

def authorizeHttpKey (userId : Str) (apiKey httpKey : Option Str) : Option AuthUserInfo :=
  if apiKey = httpKey then authUserInfo userId userId getFullPermissions none else none

def authorizeWebsocketKey (userId : Str) (apiKey wsKey : Option Str) : Option AuthUserInfo :=
  if apiKey = wsKey then authUserInfo userId userId getBasePermissions none else none

/-- `not key`. -/
def unset (key : Option Str) : Bool := key.all (· = [])

def authorizeUserFromKey (env : Env) (protocol : Protocol) (userId : Str) (apiKey : Option Str)
    (_res : AuthResource) (_perm : AuthPermission) : Option AuthUserInfo :=
  if unset env.httpKey && unset env.wsKey then authUserInfo userId userId getFullPermissions none
  else
    match protocol with
    | .websocket => authorizeWebsocketKey userId apiKey env.wsKey
    | .http => authorizeHttpKey userId apiKey env.httpKey

/-- `is_jwt(credential)`; an absent credential is no token. -/
def Jwt.isToken (jwt : Jwt) (credential : Option Str) : Bool := credential.any jwt.isJwt

def authorizeUserFromCredential (jwt : Jwt) (env : Env) (users : Users) (protocol : Protocol)
    (credential : Option Str) (res : AuthResource) (perm : AuthPermission) (userId : Str) : Option AuthUserInfo :=
  if jwt.isToken credential then authorizeUserFromJwt jwt users (credential.getD []) res perm
  else authorizeUserFromKey env protocol userId credential res perm

/-- What `issue_jwt` encodes: the first user with this name and password. -/
def jwtContent (checkPassword : Str → Str → Bool) (users : Users) (username password : Str) (expires : Nat) :
    Option Payload :=
  (users.entries.find? fun e => e.2.username = username && checkPassword password e.2.password).map fun e =>
    ⟨some e.1, some username, e.2.permissions, expires⟩

def issueJwt (jwt : Jwt) (checkPassword : Str → Str → Bool) (users : Users) (username password : Str)
    (expires : Nat) : Option Str :=
  (jwtContent checkPassword users username password expires).map jwt.encode

end KCore.Auth
