import KCore.Impl.Auth.Handler

/-!
# Tokens and sessions (`custom_auth_handler.py`, `stray_cat.py`)

The users setting and the tokens that were issued, over requests and logins. A session is
opened for the user that a token stands for, under the id of the `StrayCat`.
-/

namespace KCore.Auth

open Text

/-- `StrayCat(user).user_id`, under which the working memory and the episodic memories are kept. -/
def strayCatUserId (user : AuthUserInfo) : Str := user.name

structure Tokens where
  users : Users
  issued : List Str

inductive Event
  | request (r : Request)
  | issueJwt (username password : Str) (expires : Nat)

def Tokens.step (jwt : Jwt) (checkPassword : Str → Str → Bool) (s : Tokens) : Event → Tokens
  | .request r => { s with users := Auth.step s.users r }
  | .issueJwt username password expires =>
    match Auth.issueJwt jwt checkPassword s.users username password expires with
    | none => s
    | some token => { s with issued := s.issued ++ [token] }

end KCore.Auth
