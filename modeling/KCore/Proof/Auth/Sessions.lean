import KCore.Impl.Auth.Sessions
import KCore.Lib.Json
import KCore.Lib.Run
import KCore.Proof.Auth.Handler
import KCore.Proof.Auth.Users

/-!
# Sessions of different users

A token is checked by the id of its user and opens a session under the name that the user
had at login. So two users share a session where one was renamed and a token was then issued to
another under the old name (`renamed_user_shares_session`); otherwise sessions are apart
(`sessions_isolated`).
-/

namespace KCore.Auth

open Text Machine

variable {jwt : Jwt} {checkPassword : Str → Str → Bool} {s : Tokens}

/-- Accepted tokens of different users open sessions under different ids. -/
def Isolated (jwt : Jwt) (s : Tokens) : Prop :=
  ∀ t ∈ s.issued, ∀ t' ∈ s.issued, ∀ res res' perm perm' u u',
    authorizeUserFromJwt jwt s.users t res perm = some u → authorizeUserFromJwt jwt s.users t' res' perm' = some u' →
      u.id ≠ u'.id → strayCatUserId u ≠ strayCatUserId u'

/-- A token is issued under a name only if no earlier token of that name belongs to another user, who still exists. -/
def NameKept (jwt : Jwt) (checkPassword : Str → Str → Bool) (s : Tokens) : Event → Prop
  | .issueJwt username password expires =>
    ∀ p ∈ jwtContent checkPassword s.users username password expires, ∀ t ∈ s.issued, ∀ q ∈ jwt.decode t,
      q.username = p.username → ∀ id ∈ q.sub, id ∈ s.users → q.sub = p.sub
  | .request _ => True

/-- The `uuid4` of a new user is the subject of no token. -/
def FreshId (jwt : Jwt) (s : Tokens) : Event → Prop
  | .request (.create _ newId _) => ∀ t ∈ s.issued, ∀ q ∈ jwt.decode t, q.sub ≠ some newId
  | _ => True

/-- Tokens under one name are those of one of the users. -/
def OneUserPerName (jwt : Jwt) (s : Tokens) : Prop :=
  ∀ t ∈ s.issued, ∀ t' ∈ s.issued, ∀ q ∈ jwt.decode t, ∀ q' ∈ jwt.decode t', q.username = q'.username →
    ∀ id ∈ q.sub, ∀ id' ∈ q'.sub, id ∈ s.users → id' ∈ s.users → id = id'

/-! ## Accepted tokens -/

theorem authorizeUserFromJwt_payload {users : Users} {token : Str} {res : AuthResource} {perm : AuthPermission}
    {u : AuthUserInfo} (h : authorizeUserFromJwt jwt users token res perm = some u) :
    ∃ q, jwt.decode token = some q ∧ q.sub = some u.id ∧ q.username = some (strayCatUserId u) ∧ u.id ∈ users := by
  obtain ⟨q, hq, h⟩ := Option.bind_eq_some_iff.mp h
  obtain ⟨sub, hsub, h⟩ := Option.bind_eq_some_iff.mp h
  obtain ⟨user, huser, h⟩ := Option.bind_eq_some_iff.mp h
  split at h
  · obtain ⟨username, hname, h⟩ := Option.bind_eq_some_iff.mp h
    obtain ⟨granted, -, rfl⟩ := Option.map_eq_some_iff.mp h
    exact ⟨q, hq, hsub, hname, Dict.mem_iff_get?.mpr ⟨user, huser⟩⟩
  · cases h

theorem OneUserPerName.isolated (h : OneUserPerName jwt s) : Isolated jwt s := by
  intro t ht t' ht' res res' perm perm' u u' hu hu' hne hname
  obtain ⟨q, hq, hsub, hq_name, hmem⟩ := authorizeUserFromJwt_payload hu
  obtain ⟨q', hq', hsub', hq_name', hmem'⟩ := authorizeUserFromJwt_payload hu'
  have hnames : q.username = q'.username := by rw [hq_name, hq_name', hname]
  exact hne (h t ht t' ht' q hq q' hq' hnames u.id hsub u'.id hsub' hmem hmem')

/-! ## One step -/

/-- A user who is there after a request was there before, or is new. -/
theorem mem_step {users : Users} {r : Request} {id : Str} (h : id ∈ step users r) :
    id ∈ users ∨ ∃ newUser hashPassword, r = .create newUser id hashPassword := by
  cases r with
  | create newUser newId hashPassword =>
    simp only [step, respond, createUser] at h
    split at h
    · exact .inl h
    · rcases Dict.mem_set.mp h with rfl | h
      · exact .inr ⟨newUser, hashPassword, rfl⟩
      · exact .inl h
  | update userId user hashPassword =>
    simp only [step, respond, updateUser] at h
    cases hstored : users.get? userId with
    | none =>
      rw [hstored] at h
      exact .inl h
    | some stored =>
      rw [hstored] at h
      rcases Dict.mem_set.mp h with rfl | h
      · exact .inl (Dict.mem_iff_get?.mpr ⟨stored, hstored⟩)
      · exact .inl h
  | delete userId =>
    simp only [step, respond, deleteUser] at h
    cases hstored : users.get? userId with
    | none =>
      rw [hstored] at h
      exact .inl h
    | some user =>
      rw [hstored] at h
      obtain ⟨u, hu⟩ := Dict.mem_iff_get?.mp h
      rw [Dict.get?_erase] at hu
      split at hu
      · cases hu
      · exact .inl (Dict.mem_iff_get?.mpr ⟨u, hu⟩)

theorem oneUserPerName_request (h : OneUserPerName jwt s) (r : Request) (hid : FreshId jwt s (.request r)) :
    OneUserPerName jwt (s.step jwt checkPassword (.request r)) := by
  have hold {t : Str} {q : Payload} {id : Str} (ht : t ∈ s.issued) (hq : jwt.decode t = some q) (hsub : q.sub = some id)
      (hmem : id ∈ step s.users r) : id ∈ s.users := by
    rcases mem_step hmem with hmem | ⟨newUser, hashPassword, rfl⟩
    · exact hmem
    · exact absurd hsub (hid t ht q hq)
  intro t ht t' ht' q hq q' hq' hname id hsub id' hsub' hmem hmem'
  exact h t ht t' ht' q hq q' hq' hname id hsub id' hsub' (hold ht hq hsub hmem) (hold ht' hq' hsub' hmem')

theorem oneUserPerName_issueJwt (hjwt : ∀ p, jwt.decode (jwt.encode p) = some p) (h : OneUserPerName jwt s)
    {username password : Str} {expires : Nat}
    (hname : NameKept jwt checkPassword s (.issueJwt username password expires)) :
    OneUserPerName jwt (s.step jwt checkPassword (.issueJwt username password expires)) := by
  simp only [Tokens.step, issueJwt]
  cases hp : jwtContent checkPassword s.users username password expires with
  | none => exact h
  | some p =>
    have hkept := hname p hp
    intro t ht t' ht' q hq q' hq' hnames id hsub id' hsub' hmem hmem'
    have hlast {t : Str} (ht : t ∈ s.issued ++ [jwt.encode p]) : t ∈ s.issued ∨ t = jwt.encode p := by
      rwa [List.mem_append, List.mem_singleton] at ht
    rcases hlast ht with ht | rfl <;> rcases hlast ht' with ht' | rfl
    · exact h t ht t' ht' q hq q' hq' hnames id hsub id' hsub' hmem hmem'
    · obtain rfl : p = q' := Option.some.inj ((hjwt p).symm.trans hq')
      have hsame : q.sub = p.sub := hkept t ht q hq hnames id hsub hmem
      exact Option.some.inj (hsub.symm.trans (hsame.trans hsub'))
    · obtain rfl : p = q := Option.some.inj ((hjwt p).symm.trans hq)
      have hsame : q'.sub = p.sub := hkept t' ht' q' hq' hnames.symm id' hsub' hmem'
      exact Option.some.inj (hsub.symm.trans (hsame.symm.trans hsub'))
    · obtain rfl : q = q' := Option.some.inj (hq.symm.trans hq')
      exact Option.some.inj (hsub.symm.trans hsub')

/-! ## Runs -/

/-- In a run in which no token is issued under the old name of another user who has a token of that name, accepted
tokens of different users never open sessions under one id. -/
theorem sessions_isolated (jwt : Jwt) (hjwt : ∀ p, jwt.decode (jwt.encode p) = some p)
    (checkPassword : Str → Str → Bool) (users : Users) (es : List Event)
    (hids : Along (Tokens.step jwt checkPassword) (FreshId jwt) ⟨users, []⟩ es)
    (hnames : Along (Tokens.step jwt checkPassword) (NameKept jwt checkPassword) ⟨users, []⟩ es) :
    Throughout (Tokens.step jwt checkPassword) (Isolated jwt) ⟨users, []⟩ es := by
  refine throughout_of_along (I := OneUserPerName jwt) (fun _ h => h.isolated) (fun s e h he => ?_) (fun _ => nofun)
    (hids.and hnames)
  cases e with
  | request r => exact oneUserPerName_request h r he.1
  | issueJwt username password expires => exact oneUserPerName_issueJwt hjwt h he.2

/-! ## A renamed user -/

/-- The claims as a JSON value. -/
def Payload.toJson (p : Payload) : Json ℕ :=
  let text : Option Str → Json ℕ := fun s => s.elim .null .str
  .arr [text p.sub, text p.username, .arr (p.permissions.entries.map fun e => .arr (.str e.1 :: e.2.map .str)), .num p.exp]

theorem Payload.toJson_inj : Function.Injective Payload.toJson := by
  have htext : Function.Injective fun s : Option Str => (s.elim .null .str : Json ℕ) := by
    rintro (_ | s) (_ | s') h
    · rfl
    · cases h
    · cases h
    · exact congrArg some (Json.str.inj h)
  have hentry : Function.Injective fun e : Str × List Str => (.arr (.str e.1 :: e.2.map .str) : Json ℕ) := by
    rintro ⟨k, vs⟩ ⟨k', vs'⟩ h
    obtain ⟨hk, hvs⟩ := List.cons.inj (Json.arr.inj h)
    exact Prod.ext (Json.str.inj hk) (List.map_injective_iff.mpr (fun _ _ => Json.str.inj) hvs)
  rintro ⟨sub, username, permissions, exp⟩ ⟨sub', username', permissions', exp'⟩ h
  simp only [Payload.toJson, Json.arr.injEq, List.cons.injEq, Json.num.injEq, and_true] at h
  obtain ⟨hsub, hname, hpermissions, rfl⟩ := h
  rw [htext hsub, htext hname, Dict.ext (List.map_injective_iff.mpr hentry hpermissions)]

/-- Tokens that are their claims. -/
noncomputable def plainJwt : Jwt where
  isJwt _ := true
  decode := Function.partialInv fun p => Json.dumps p.toJson
  encode p := Json.dumps p.toJson

theorem plainJwt_decode (p : Payload) : plainJwt.decode (plainJwt.encode p) = some p := by
  have hdelim : Json.Delim [] := nofun
  refine Function.partialInv_left (fun a b h => Payload.toJson_inj ?_) p
  exact (Json.dumps_append_inj a.toJson b.toJson hdelim hdelim (congrArg (· ++ []) h)).1

def statusReader : Permissions := Dict.empty.set "STATUS".toList ["READ".toList]

/-- One user, who may read the status. -/
def adaUsers : Users := Dict.empty.set "1".toList ⟨"1".toList, "ada".toList, "secret".toList, statusReader⟩

def samePassword (password stored : Str) : Bool := password = stored

def login (username : String) : Event := .issueJwt username.toList "secret".toList 0

/-- The user gets another name. -/
def renameAda : Event := .request (.update "1".toList ⟨some "eve".toList, none, none, by decide, by decide⟩ id)

theorem secret_min : 5 ≤ "secret".toList.length := by decide

/-- Another user gets the old name. -/
def createAda : Event :=
  .request (.create ⟨"ada".toList, Dict.empty.set .status [.read], "secret".toList, by decide, secret_min⟩ "2".toList id)

/-- The claims of a user's token. -/
def claims (sub username : String) : Payload := ⟨some sub.toList, some username.toList, statusReader, 0⟩

theorem bob_min : 2 ≤ "bob".toList.length := by decide

def createBob : Event :=
  .request (.create ⟨"bob".toList, Dict.empty.set .status [.read], "secret".toList, bob_min, secret_min⟩ "2".toList id)

/-- Tokens for two users, one of whom gets another name and a token of it. -/
theorem sessions_isolated_bob : Throughout (Tokens.step plainJwt samePassword) (Isolated plainJwt) ⟨adaUsers, []⟩
    [login "ada", createBob, login "bob", renameAda, login "eve"] := by
  have hada : FreshId plainJwt ⟨adaUsers, [plainJwt.encode (claims "1" "ada")]⟩ createBob := by
    intro t ht q hq
    rw [List.mem_singleton.mp ht, plainJwt_decode] at hq
    rw [← Option.some.inj hq]
    decide
  refine sessions_isolated plainJwt plainJwt_decode samePassword adaUsers _
    ⟨trivial, hada, trivial, trivial, trivial, trivial⟩
    ⟨fun _ _ _ => nofun, trivial, fun p hp t ht q hq hname => ?_, trivial, fun p hp t ht q hq hname => ?_, trivial⟩
  · have ht : t = plainJwt.encode (claims "1" "ada") := List.mem_singleton.mp ht
    rw [ht, plainJwt_decode] at hq
    have hp : some (claims "2" "bob") = some p := hp
    rw [← Option.some.inj hp, ← Option.some.inj hq] at hname
    exact absurd hname (by decide)
  · have ht : t ∈ [plainJwt.encode (claims "1" "ada"), plainJwt.encode (claims "2" "bob")] := ht
    have hp : some (claims "1" "eve") = some p := hp
    rcases List.mem_pair.mp ht with rfl | rfl
    all_goals
      rw [plainJwt_decode] at hq
      rw [← Option.some.inj hp, ← Option.some.inj hq] at hname
      exact absurd hname (by decide)

theorem claims_accepted (name : String) {users : Users} {sub : String} {user : User} (huser : users.get? sub.toList = some user)
    (hperm : user.permissions = statusReader) : ∃ u, u.id = sub.toList ∧ strayCatUserId u = name.toList ∧
      authorizeUserFromJwt plainJwt users (plainJwt.encode (claims sub name)) .status .read = some u := by
  have hallows : user.allows .status .read = true := by
    rw [User.allows, hperm]
    decide
  obtain ⟨granted, hgranted⟩ : ∃ granted, validate statusReader = some granted := Option.isSome_iff_exists.mp (by decide)
  refine ⟨⟨sub.toList, name.toList, granted, some user⟩, rfl, rfl, ?_⟩
  simp only [authorizeUserFromJwt, plainJwt_decode, claims, Option.bind_eq_bind, Option.bind_some, huser, hallows, if_true,
    authUserInfo, hperm, hgranted, Option.map_some]

/-- The user is renamed, another one gets the name, and both have a token of that name: they share a session, though no
two users have one name at any moment. -/
theorem renamed_user_shares_session :
    Throughout (Tokens.step plainJwt samePassword) (fun s => Distinct s.users) ⟨adaUsers, []⟩
      [login "ada", renameAda, createAda, login "ada"] ∧
    ¬Isolated plainJwt (run (Tokens.step plainJwt samePassword) ⟨adaUsers, []⟩
      [login "ada", renameAda, createAda, login "ada"]) := by
  refine ⟨?_, fun h => ?_⟩
  · simp only [throughout_cons, throughout_nil, Distinct]
    decide
  let users : Users := (Dict.empty.set "1".toList ⟨"1".toList, "eve".toList, "secret".toList, statusReader⟩).set
    "2".toList ⟨"2".toList, "ada".toList, "secret".toList, statusReader⟩
  have hrun : run (Tokens.step plainJwt samePassword) ⟨adaUsers, []⟩ [login "ada", renameAda, createAda, login "ada"] =
      ⟨users, [plainJwt.encode (claims "1" "ada"), plainJwt.encode (claims "2" "ada")]⟩ := rfl
  rw [hrun] at h
  have hfirst : users.get? "1".toList = some ⟨"1".toList, "eve".toList, "secret".toList, statusReader⟩ := rfl
  have hsecond : users.get? "2".toList = some ⟨"2".toList, "ada".toList, "secret".toList, statusReader⟩ := rfl
  obtain ⟨u, hid, hname, hu⟩ := claims_accepted "ada" hfirst rfl
  obtain ⟨u', hid', hname', hu'⟩ := claims_accepted "ada" hsecond rfl
  refine h _ (.head _) _ (.tail _ (.head _)) .status .status .read .read u u' hu hu' ?_ (hname.trans hname'.symm)
  rw [hid, hid']
  decide

end KCore.Auth
