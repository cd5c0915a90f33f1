import KCore.Impl.Auth.Handler
import KCore.Lib.Run

/-!
# Names of users over runs of requests

A request keeps the usernames of the users setting distinct just where it renames no
user to the name of another (`distinct_step`). Over runs from the default users this
is `users_run_distinct_iff`; while names are distinct, a name and a password yield a
token for one user only (`jwtContent_unique`).
-/

namespace KCore.Auth

open Text

/-- The usernames of the stored users are pairwise distinct. -/
def Distinct (users : Users) : Prop := (users.values.map User.username).Nodup

/-- The request gives no user the name of another one; only an update can. -/
def FreshName (users : Users) : Request → Prop
  | .update userId user _ => userId ∈ users →
      ∀ name ∈ user.username, ∀ id other, users.get? id = some other → other.username = name → id = userId
  | _ => True

def Response.rejects : Response → Bool
  | .user _ => false
  | .cannotDuplicate => true
  | .notFound => true

theorem distinct_iff {users : Users} : Distinct users ↔
    ∀ id id' u u', users.get? id = some u → users.get? id' = some u' → u.username = u'.username → id = id' :=
  Dict.nodup_values_map

theorem distinct_set {users : Users} (h : Distinct users) {id : Str} {u : User} : Distinct (users.set id u) ↔
    ∀ id' u', users.get? id' = some u' → u'.username = u.username → id' = id := by
  rw [distinct_iff] at h ⊢
  constructor
  · intro hset id' u' hu' hname
    by_contra hne
    exact hne (hset id' id u' u ((Dict.get?_set_of_ne _ _ hne).trans hu') (Dict.get?_set_self ..) hname)
  · intro hfresh id₁ id₂ u₁ u₂ h₁ h₂ hname
    rw [Dict.get?_set] at h₁ h₂
    split at h₁ <;> split at h₂
    · rename_i e₁ e₂
      exact e₁.trans e₂.symm
    · rename_i e₁ _
      obtain rfl := Option.some.inj h₁
      exact e₁.trans (hfresh id₂ u₂ h₂ hname.symm).symm
    · rename_i _ e₂
      obtain rfl := Option.some.inj h₂
      exact (hfresh id₁ u₁ h₁ hname).trans e₂.symm
    · exact h id₁ id₂ u₁ u₂ h₁ h₂ hname

theorem distinct_erase {users : Users} (h : Distinct users) (id : Str) : Distinct (users.erase id) := by
  rw [distinct_iff] at h ⊢
  intro id₁ id₂ u₁ u₂ h₁ h₂
  rw [Dict.get?_erase] at h₁ h₂
  split at h₁
  · cases h₁
  split at h₂
  · cases h₂
  exact h id₁ id₂ u₁ u₂ h₁ h₂

theorem distinct_defaultUsers (adminId userId adminPassword userPassword : Str) :
    Distinct (defaultUsers adminId userId adminPassword userPassword) := by
  have hempty : Distinct .empty := List.nodup_nil
  have hadmin : Distinct (Dict.empty.set adminId ⟨adminId, "admin".toList, adminPassword, getFullPermissions⟩) :=
    (distinct_set hempty).mpr nofun
  rw [defaultUsers, distinct_set hadmin]
  intro id u hu hname
  rw [Dict.get?_set] at hu
  split at hu
  · obtain rfl := Option.some.inj hu
    have hne : "admin".toList ≠ "user".toList := by decide
    exact absurd hname hne
  · cases hu

/-! ## One request -/

theorem distinct_createUser {users : Users} (h : Distinct users) (newUser : UserCreate) (newId : Str)
    (hashPassword : Str → Str) : Distinct (createUser users newUser newId hashPassword).1 := by
  rw [createUser]
  split
  · exact h
  · rename_i hany
    refine (distinct_set h).mpr fun id u hu hname => absurd ?_ hany
    exact List.any_eq_true.mpr ⟨u, Dict.mem_values.mpr ⟨id, hu⟩, decide_eq_true hname⟩

theorem distinct_updateUser {users : Users} (h : Distinct users) (userId : Str) (user : UserUpdate)
    (hashPassword : Str → Str) : Distinct (updateUser users userId user hashPassword).1 ↔
      FreshName users (.update userId user hashPassword) := by
  rw [updateUser, FreshName]
  cases hstored : users.get? userId with
  | none => exact ⟨fun _ hmem => absurd hmem (Dict.get?_eq_none.mp hstored), fun _ => h⟩
  | some stored =>
    have hmem : userId ∈ users := Dict.mem_iff_get?.mpr ⟨stored, hstored⟩
    refine (distinct_set h).trans ?_
    cases hname : user.username with
    | none =>
      simp only [User.update, hname, Option.getD_none]
      exact ⟨fun _ _ => nofun, fun _ id u hu he => distinct_iff.mp h id userId u stored hu hstored he⟩
    | some name =>
      simp only [User.update, hname, Option.getD_some]
      exact ⟨fun hfresh _ n hn => Option.some.inj hn ▸ hfresh, fun hfresh => hfresh hmem name rfl⟩

theorem distinct_deleteUser {users : Users} (h : Distinct users) (userId : Str) :
    Distinct (deleteUser users userId).1 := by
  rw [deleteUser]
  split
  · exact h
  · exact distinct_erase h userId

theorem distinct_step {users : Users} (h : Distinct users) (r : Request) :
    Distinct (step users r) ↔ FreshName users r := by
  cases r with
  | create newUser newId hashPassword => exact iff_of_true (distinct_createUser h newUser newId hashPassword) trivial
  | update userId user hashPassword => exact distinct_updateUser h userId user hashPassword
  | delete userId => exact iff_of_true (distinct_deleteUser h userId) trivial

/-- A rejected request writes nothing. -/
theorem step_of_rejects {users : Users} {r : Request} (h : (respond users r).2.rejects = true) :
    step users r = users := by
  cases r with
  | create newUser newId hashPassword =>
    simp only [step, respond, createUser] at h ⊢
    split at h
    · rw [if_pos ‹_›]
    · cases h
  | update userId user hashPassword =>
    simp only [step, respond, updateUser] at h ⊢
    cases hstored : users.get? userId with
    | none => rfl
    | some stored => rw [hstored] at h; cases h
  | delete userId =>
    simp only [step, respond, deleteUser] at h ⊢
    cases hstored : users.get? userId with
    | none => rfl
    | some stored => rw [hstored] at h; cases h

/-- The subject of a token is the one user with the name that was given. -/
theorem jwtContent_unique {users : Users} (h : Distinct users) {checkPassword : Str → Str → Bool}
    {username password : Str} {expires : Nat} {p : Payload}
    (hp : jwtContent checkPassword users username password expires = some p) :
    ∃ id u, p.sub = some id ∧ users.get? id = some u ∧ u.username = username ∧
      ∀ id' u', users.get? id' = some u' → u'.username = username → id' = id := by
  obtain ⟨⟨id, u⟩, hfind, rfl⟩ := Option.map_eq_some_iff.mp hp
  have hu : users.get? id = some u := Dict.get?_eq_some.mpr (List.mem_of_find?_eq_some hfind)
  have hname := List.find?_some hfind
  rw [Bool.and_eq_true, decide_eq_true_eq] at hname
  exact ⟨id, u, rfl, hu, hname.1, fun id' u' hu' he => distinct_iff.mp h id' id u' u hu' hu (he.trans hname.1.symm)⟩

/-! ## Runs -/

theorem along_distinct_iff : ∀ {users : Users} (rs : List Request), Distinct users →
    (Machine.Along step (fun users r => Distinct (step users r)) users rs ↔ Machine.Along step FreshName users rs)
  | _, [], _ => Iff.rfl
  | users, r :: rs, h => by
    rw [Machine.along_cons, Machine.along_cons, distinct_step h]
    refine and_congr_right fun hr => ?_
    exact along_distinct_iff rs ((distinct_step h r).mpr hr)

/-- From the default users, every request leaves the names distinct just where no request renames a user to the
name of another; then a token that is issued is for the one user with the name. A rejected request changes
nothing in any run. -/
theorem users_run_distinct_iff (adminId userId adminPassword userPassword : Str) (rs : List Request) :
    let start := defaultUsers adminId userId adminPassword userPassword
    let users := Machine.run step start rs
    (Machine.Along step (fun users r => Distinct (step users r)) start rs ↔
      Machine.Along step FreshName start rs) ∧
    (∀ r, (respond users r).2.rejects = true → step users r = users) ∧
    (Machine.Along step FreshName start rs → Distinct users ∧
      ∀ checkPassword username password expires p,
        jwtContent checkPassword users username password expires = some p →
          ∃ id u, p.sub = some id ∧ users.get? id = some u ∧ u.username = username ∧
            ∀ id' u', users.get? id' = some u' → u'.username = username → id' = id) := by
  intro start users
  have hstart : Distinct start := distinct_defaultUsers adminId userId adminPassword userPassword
  refine ⟨along_distinct_iff rs hstart, fun r hr => step_of_rejects hr, fun hfresh => ?_⟩
  have husers : Distinct users :=
    Machine.run_invariant (I := Distinct) (fun _ r h hr => (distinct_step h r).mpr hr) hstart hfresh
  exact ⟨husers, fun _ _ _ _ _ hp => jwtContent_unique husers hp⟩

/-- The ordinary default user renamed to `admin`: two users bear the name. -/
theorem users_rename_to_admin : ¬Distinct (step (defaultUsers "1".toList "2".toList "a".toList "u".toList)
    (.update "2".toList ⟨some "admin".toList, none, none, by decide, by decide⟩ id)) := by
  rw [Distinct]
  decide

end KCore.Auth
