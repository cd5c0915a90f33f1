import KCore.Lib.MapM
import KCore.Impl.Auth.Handler

/-!
# What an authenticated user is granted

The permissions of the user that the core handler returns hold the required one, but for
the websocket key, whose users have the base permissions whatever is required
(`authorize_grants_iff`). A token counts only through its `sub` and `username`.
-/

namespace KCore.Auth

open Text

def Granted.grants (granted : Granted) (res : AuthResource) (perm : AuthPermission) : Bool :=
  match granted.get? res with
  | none => false
  | some perms => perm ∈ perms

/-- The base permissions hold this one. -/
def isBase (res : AuthResource) (perm : AuthPermission) : Bool :=
  (getBasePermissions.get? res.name).any (perm.name ∈ ·)

/-- The websocket key decides: some key is set, and the credential is no token but the key. -/
def ByWebsocketKey (jwt : Jwt) (env : Env) (protocol : Protocol) (credential : Option Str) : Prop :=
  jwt.isToken credential = false ∧ protocol = .websocket ∧ ¬(unset env.httpKey = true ∧ unset env.wsKey = true) ∧
    credential = env.wsKey

/-! ## Validated permissions -/

theorem AuthResource.mem_all (res : AuthResource) : res ∈ all := by cases res <;> decide

theorem AuthPermission.mem_all (perm : AuthPermission) : perm ∈ all := by cases perm <;> decide

theorem AuthResource.ofName_name (res : AuthResource) : ofName res.name = some res := by
  have h : ∀ r ∈ all, ofName r.name = some r := by decide
  exact h res res.mem_all

theorem AuthPermission.ofName_name (perm : AuthPermission) : ofName perm.name = some perm := by
  have h : ∀ p ∈ all, ofName p.name = some p := by decide
  exact h perm perm.mem_all

theorem AuthResource.name_of_ofName {res : AuthResource} {name : Str} (h : ofName name = some res) : res.name = name :=
  of_decide_eq_true (List.find?_some (p := fun r : AuthResource => r.name = name) h)

theorem mem_of_mapM {perm : AuthPermission} {names : List Str} {perms : List AuthPermission}
    (h : names.mapM AuthPermission.ofName = some perms) (hn : perm.name ∈ names) : perm ∈ perms := by
  obtain ⟨perm', hmem, hperm⟩ := MapM.exists_mem h perm.name hn
  obtain rfl := Option.some.inj (perm.ofName_name.symm.trans hperm)
  exact hmem

/-- Validated entries leave the other resources as they were, and give a resource what its entry has. -/
theorem get?_validateEntries (res : AuthResource) : ∀ {entries : List (Str × List Str)} {granted granted' : Granted},
    validateEntries granted entries = some granted' → (entries.map Prod.fst).Nodup →
    (res.name ∉ entries.map Prod.fst → granted'.get? res = granted.get? res) ∧
      ∀ names, (res.name, names) ∈ entries →
        ∃ perms, names.mapM AuthPermission.ofName = some perms ∧ granted'.get? res = some perms
  | [], _, _, h, _ => ⟨fun _ => by rw [Option.some.inj h], nofun⟩
  | (name, names) :: entries, granted, granted', h, hn => by
    rw [validateEntries] at h
    rw [List.map_cons, List.nodup_cons] at hn
    cases hr : AuthResource.ofName name with
    | none => simp [hr] at h
    | some r =>
      cases hp : names.mapM AuthPermission.ofName with
      | none => simp [hr, hp] at h
      | some perms =>
        simp only [hr, hp] at h
        obtain ⟨hother, hown⟩ := get?_validateEntries res h hn.2
        have hname := AuthResource.name_of_ofName hr
        refine ⟨fun hmem => ?_, fun names' hmem => ?_⟩
        · rw [List.map_cons, List.mem_cons, not_or] at hmem
          rw [hother hmem.2, Dict.get?_set_of_ne]
          rintro rfl
          exact hmem.1 hname
        · rcases List.mem_cons.mp hmem with he | hmem
          · obtain ⟨rfl, rfl⟩ := Prod.mk.inj he
            rw [res.ofName_name] at hr
            obtain rfl := Option.some.inj hr
            exact ⟨perms, hp, by rw [hother hn.1, Dict.get?_set_self]⟩
          · exact hown names' hmem

theorem validate_grants {perms : Permissions} {granted : Granted} {res : AuthResource} {perm : AuthPermission}
    (h : validate perms = some granted) {names : List Str} (hr : perms.get? res.name = some names)
    (hp : perm.name ∈ names) : granted.grants res perm = true := by
  obtain ⟨ps, hps, hget⟩ := (get?_validateEntries res h perms.nodup).2 names (Dict.get?_eq_some.mp hr)
  rw [Granted.grants, hget]
  exact decide_eq_true (mem_of_mapM hps hp)

theorem validate_full (res : AuthResource) (perm : AuthPermission) :
    ∀ granted, validate getFullPermissions = some granted → granted.grants res perm = true := by
  have hfull : ∀ r ∈ AuthResource.all, ∀ p ∈ AuthPermission.all,
      (getFullPermissions.get? r.name).any (p.name ∈ ·) = true := by decide
  intro granted h
  obtain ⟨names, hn, hp⟩ := (Option.any_eq_true _ _).mp (hfull res res.mem_all perm perm.mem_all)
  exact validate_grants h hn (of_decide_eq_true hp)

theorem validate_base (res : AuthResource) (perm : AuthPermission) :
    ∃ granted, validate getBasePermissions = some granted ∧ granted.grants res perm = isBase res perm := by
  have hbase : ∀ r ∈ AuthResource.all, ∀ p ∈ AuthPermission.all,
      (validate getBasePermissions).any (fun granted => granted.grants r p = isBase r p) = true := by decide
  obtain ⟨granted, hg, h⟩ := (Option.any_eq_true _ _).mp (hbase res res.mem_all perm perm.mem_all)
  exact ⟨granted, hg, of_decide_eq_true h⟩

/-! ## Tokens -/

theorem authUserInfo_some {id name : Str} {perms : Permissions} {extra : Option User} {u : AuthUserInfo}
    (h : authUserInfo id name perms extra = some u) : validate perms = some u.permissions ∧ u.id = id := by
  obtain ⟨granted, hg, rfl⟩ := Option.map_eq_some_iff.mp h
  exact ⟨hg, rfl⟩

/-- A token's user is the stored one, whose permissions hold the required one now. -/
theorem authorizeUserFromJwt_some {jwt : Jwt} {users : Users} {token : Str} {res : AuthResource}
    {perm : AuthPermission} {u : AuthUserInfo} (h : authorizeUserFromJwt jwt users token res perm = some u) :
    ∃ payload user, jwt.decode token = some payload ∧ payload.sub = some u.id ∧ users.get? u.id = some user ∧
      user.allows res perm = true ∧ validate user.permissions = some u.permissions := by
  obtain ⟨payload, hpayload, h⟩ := Option.bind_eq_some_iff.mp h
  obtain ⟨sub, hsub, h⟩ := Option.bind_eq_some_iff.mp h
  obtain ⟨user, huser, h⟩ := Option.bind_eq_some_iff.mp h
  split at h
  · rename_i hallows
    obtain ⟨username, -, h⟩ := Option.bind_eq_some_iff.mp h
    obtain ⟨hperms, hid⟩ := authUserInfo_some h
    subst hid
    exact ⟨payload, user, hpayload, hsub, huser, hallows, hperms⟩
  · cases h

theorem User.grants_of_allows {user : User} {res : AuthResource} {perm : AuthPermission} {granted : Granted}
    (h : user.allows res perm = true) (hg : validate user.permissions = some granted) :
    granted.grants res perm = true := by
  rw [User.allows] at h
  split at h
  · cases h
  · rename_i names hn
    exact validate_grants hg hn (of_decide_eq_true h)

/-- Two verified tokens with one `sub` and `username` are as good as each other. -/
theorem authorizeUserFromJwt_congr {jwt : Jwt} {users : Users} {t t' : Str} {p p' : Payload}
    (hp : jwt.decode t = some p) (hp' : jwt.decode t' = some p') (hsub : p.sub = p'.sub)
    (hname : p.username = p'.username) (res : AuthResource) (perm : AuthPermission) :
    authorizeUserFromJwt jwt users t res perm = authorizeUserFromJwt jwt users t' res perm := by
  simp only [authorizeUserFromJwt, hp, hp', Option.bind_eq_bind, Option.bind_some, hsub, hname]

/-! ## Keys -/

/-- What the keys give: everything, or the base permissions for the websocket key. -/
theorem authorizeUserFromKey_grants {env : Env} {protocol : Protocol} {userId : Str} {apiKey : Option Str}
    {res : AuthResource} {perm : AuthPermission} {u : AuthUserInfo}
    (h : authorizeUserFromKey env protocol userId apiKey res perm = some u) :
    u.permissions.grants res perm = true ∨ validate getBasePermissions = some u.permissions ∧
      protocol = .websocket ∧ ¬(unset env.httpKey = true ∧ unset env.wsKey = true) ∧ apiKey = env.wsKey := by
  rw [authorizeUserFromKey.eq_def] at h
  split at h
  · exact .inl (validate_full res perm _ (authUserInfo_some h).1)
  · rename_i hset
    rw [Bool.and_eq_true] at hset
    cases protocol with
    | http =>
      simp only [authorizeHttpKey] at h
      split at h
      · exact .inl (validate_full res perm _ (authUserInfo_some h).1)
      · cases h
    | websocket =>
      simp only [authorizeWebsocketKey] at h
      split at h
      · rename_i hkey
        exact .inr ⟨(authUserInfo_some h).1, rfl, hset, hkey⟩
      · cases h

theorem authorize_websocketKey {jwt : Jwt} {env : Env} {protocol : Protocol} {credential : Option Str}
    (h : ByWebsocketKey jwt env protocol credential) (users : Users) (res : AuthResource) (perm : AuthPermission)
    (userId : Str) : ∃ u, authorizeUserFromCredential jwt env users protocol credential res perm userId = some u ∧
      u.permissions.grants res perm = isBase res perm := by
  obtain ⟨htoken, rfl, hset, hkey⟩ := h
  obtain ⟨granted, hg, hbase⟩ := validate_base res perm
  have hkeys : ¬(unset env.httpKey && unset env.wsKey) = true := by rwa [Bool.and_eq_true]
  refine ⟨⟨userId, userId, granted, none⟩, ?_, hbase⟩
  rw [authorizeUserFromCredential, if_neg (Bool.not_eq_true _ ▸ htoken), authorizeUserFromKey.eq_def, if_neg hkeys]
  simp only [authorizeWebsocketKey, if_pos hkey, authUserInfo, hg, Option.map_some]

theorem authorize_grants {jwt : Jwt} {env : Env} {users : Users} {protocol : Protocol} {credential : Option Str}
    {res : AuthResource} {perm : AuthPermission} {userId : Str} :
    (∀ u, authorizeUserFromCredential jwt env users protocol credential res perm userId = some u →
      u.permissions.grants res perm = true) ↔
    (ByWebsocketKey jwt env protocol credential → isBase res perm = true) := by
  constructor
  · intro h hkey
    obtain ⟨u, hu, hbase⟩ := authorize_websocketKey hkey users res perm userId
    rw [← hbase]
    exact h u hu
  · intro h u hu
    rw [authorizeUserFromCredential] at hu
    split at hu
    · obtain ⟨-, user, -, -, -, hallows, hperms⟩ := authorizeUserFromJwt_some hu
      exact User.grants_of_allows hallows hperms
    · rename_i hjwt
      rcases authorizeUserFromKey_grants hu with hg | ⟨hg, hkey⟩
      · exact hg
      · obtain ⟨granted, hg', hbase⟩ := validate_base res perm
        rw [hg] at hg'
        rw [Option.some.inj hg', hbase]
        exact h ⟨Bool.not_eq_true _ ▸ hjwt, hkey⟩

/-- A user that is returned has the required permission, unless it comes by the websocket key and the
permission is not a base one; and a verified token counts only through its `sub` and `username`: the
permissions are those that the users setting has now, or there is no user. -/
theorem authorize_grants_iff (jwt : Jwt) (users : Users) (res : AuthResource) (perm : AuthPermission) :
    (∀ env protocol credential userId,
      (∀ u, authorizeUserFromCredential jwt env users protocol credential res perm userId = some u →
        u.permissions.grants res perm = true) ↔
      (ByWebsocketKey jwt env protocol credential → isBase res perm = true)) ∧
    (∀ t t' p p', jwt.isJwt t = true → jwt.isJwt t' = true → jwt.decode t = some p → jwt.decode t' = some p' →
      p.sub = p'.sub → p.username = p'.username → ∀ env env' protocol protocol' userId userId',
        authorizeUserFromCredential jwt env users protocol (some t) res perm userId =
          authorizeUserFromCredential jwt env' users protocol' (some t') res perm userId') ∧
    ∀ t, jwt.isJwt t = true → ∀ env protocol userId u,
      authorizeUserFromCredential jwt env users protocol (some t) res perm userId = some u →
        ∃ p user, jwt.decode t = some p ∧ p.sub = some u.id ∧ users.get? u.id = some user ∧
          user.allows res perm = true ∧ validate user.permissions = some u.permissions := by
  have htoken {t : Str} (ht : jwt.isJwt t = true) (env : Env) (protocol : Protocol) (userId : Str) :
      authorizeUserFromCredential jwt env users protocol (some t) res perm userId =
        authorizeUserFromJwt jwt users t res perm := if_pos ht
  refine ⟨fun _ _ _ _ => authorize_grants,
    fun t t' p p' ht ht' hp hp' hsub hname env env' protocol protocol' userId userId' => ?_,
    fun t ht env protocol userId u hu => ?_⟩
  · rw [htoken ht, htoken ht']
    exact authorizeUserFromJwt_congr hp hp' hsub hname res perm
  · rw [htoken ht] at hu
    exact authorizeUserFromJwt_some hu

/-- With both keys set and no users, the websocket key alone stands for a user where `SETTINGS` and `WRITE` are
required, which that user has not. -/
theorem authorize_websocketKey_settings : ∃ u,
    authorizeUserFromCredential ⟨fun _ => false, fun _ => none, fun _ => []⟩
      ⟨some "http-key".toList, some "ws-key".toList⟩ .empty .websocket (some "ws-key".toList) .settings .write
      "user".toList = some u ∧ u.permissions.grants .settings .write = false :=
  authorize_websocketKey ⟨rfl, rfl, by decide, rfl⟩ .empty .settings .write "user".toList

end KCore.Auth
