import KCore.Proof.Auth.Users

/-!
# Requests in parallel

Every request reads the whole users setting and writes it back whole, and no lock is
held in between; the dict that it changes is shared with those that read it before the last write. Where every request
changes the users as they are stored, and would still pass its check there, the setting and
the answers are those of the requests one after another (`users_serial`). Otherwise
a deleted user can come back (`deleted_user_returns`).
-/

namespace KCore.Auth

open Machine Serial SharedCopy

variable {ι : Type*} (req : ι → Request)

/-- A request with no other one beside it. -/
theorem act_plan (users : Users) (i : ι) :
    act (fun i => (req i).plan) i users = ((respond users (req i)).1, some (respond users (req i)).2) := by
  cases hreq : req i with
  | create newUser newId hashPassword =>
    by_cases hname : users.values.any (·.username = newUser.username)
    · simp only [act, hreq, Request.plan, respond, createUser, if_pos hname]
    · simp only [act, hreq, Request.plan, respond, createUser, if_neg hname, Option.getD_some]
  | update userId user hashPassword =>
    cases hstored : users.get? userId with
    | none => simp only [act, hreq, Request.plan, respond, updateUser, hstored]
    | some stored => simp only [act, hreq, Request.plan, respond, updateUser, hstored, Option.getD_some]
  | delete userId =>
    cases hstored : users.get? userId with
    | none => simp only [act, hreq, Request.plan, respond, deleteUser, hstored]
    | some stored => simp only [act, hreq, Request.plan, respond, deleteUser, hstored, Option.getD_some]

theorem serve_plan : ∀ (users : Users) (order : List ι),
    serve (act fun i => (req i).plan) users order = run step users (order.map req)
  | _, [] => rfl
  | users, i :: order => by
    rw [serve_cons, act_plan]
    exact serve_plan (step users (req i)) order

/-- In every interleaving in which each request changes the users as they are stored, where it still passes its check,
the users setting and the answers are those of some order of the requests. -/
theorem users_serial [DecidableEq ι] (start : Users) (es : List (SharedCopy.Event ι)) :
    let plan i := (req i).plan
    let w := run (SharedCopy.step plan) (World.start start) es
    Along (SharedCopy.step plan) (Current plan) (World.start start) es → Finished w →
    ∃ order : List ι, order.Nodup ∧ (∀ i, i ∈ order ↔ w.phase i ≠ .idle) ∧
      run step start (order.map req) = w.stored ∧
      ∀ i a, w.phase i = .done a → ∃ before after, order = before ++ i :: after ∧
        a = some (respond (run step start (before.map req)) (req i)).2 := by
  intro plan w hcurrent hdone
  obtain ⟨order, hexplains⟩ := explained_of_current hcurrent
  obtain ⟨hmem, hplaces⟩ := hexplains.places
  refine ⟨order, hexplains.nodup, fun i => (hmem i).trans ⟨fun ⟨a, ha⟩ => ?_, fun hi => ?_⟩, ?_, fun i a ha => ?_⟩
  · rw [ha]
    exact nofun
  · exact (hdone i).resolve_left hi
  · rw [← serve_plan]
    exact hexplains.state
  · obtain ⟨before, after, horder, ha⟩ := hplaces i a ha
    rw [serve_plan, act_plan] at ha
    exact ⟨before, after, horder, ha⟩

def newUser (username : String) (h : 2 ≤ username.toList.length) (newId : String) : Request :=
  .create ⟨username.toList, Dict.empty, "secret".toList, h, by decide⟩ newId.toList id

def startUsers : Users := defaultUsers "1".toList "2".toList "admin".toList "user".toList

inductive Client
  | first
  | second
  | third
  deriving DecidableEq

/-- Of three users that are created at once, one has a name that is taken. -/
def threeUsers : Client → Request
  | .first => newUser "bob" (by decide) "3"
  | .second => newUser "ann" (by decide) "4"
  | .third => newUser "admin" (by decide) "5"

/-- All three have one dict. -/
def oneDict : List (SharedCopy.Event Client) :=
  [.read .first, .read .second, .check .second, .check .first, .read .third, .write .second, .check .third, .write .first]

theorem users_serial_three :
    let w := run (SharedCopy.step fun i => (threeUsers i).plan) (World.start startUsers) oneDict
    ∃ order : List Client, order.Nodup ∧ (∀ i, i ∈ order ↔ w.phase i ≠ .idle) ∧
      run step startUsers (order.map threeUsers) = w.stored ∧
      ∀ i a, w.phase i = .done a → ∃ before after, order = before ++ i :: after ∧
        a = some (respond (run step startUsers (before.map threeUsers)) (threeUsers i)).2 := by
  refine users_serial threeUsers startUsers oneDict ⟨trivial, trivial, trivial, trivial, trivial, fun c f h => ?_, trivial,
    fun c f h => ?_, trivial⟩ fun i => .inr ?_
  · cases h
    exact ⟨rfl, rfl⟩
  · cases h
    exact ⟨rfl, rfl⟩
  · cases i <;> exact ⟨_, rfl⟩

/-! ## A lost update -/

/-- No request creates a user with the id. -/
def CreatesNo (id : Text.Str) : Request → Prop
  | .create _ newId _ => newId ≠ id
  | _ => True

theorem notMem_step {id : Text.Str} {users : Users} {r : Request} (hid : id ∉ users) (hr : CreatesNo id r) :
    id ∉ step users r := by
  cases r with
  | create newUser newId hashPassword =>
    simp only [step, respond, createUser]
    split
    · exact hid
    · rw [Dict.mem_set, not_or]
      exact ⟨Ne.symm hr, hid⟩
  | update userId user hashPassword =>
    simp only [step, respond, updateUser]
    cases hstored : users.get? userId with
    | none => exact hid
    | some stored =>
      rw [Dict.mem_set, not_or]
      refine ⟨fun he => hid ?_, hid⟩
      exact he ▸ Dict.mem_iff_get?.mpr ⟨stored, hstored⟩
  | delete userId =>
    simp only [step, respond, deleteUser]
    split
    · exact hid
    · rw [← Dict.get?_eq_none, Dict.get?_erase, Dict.get?_eq_none.mpr hid, ite_self]

theorem notMem_delete (id : Text.Str) (users : Users) : id ∉ step users (.delete id) := by
  simp only [step, respond, deleteUser]
  split
  · exact Dict.get?_eq_none.mp ‹_›
  · rw [← Dict.get?_eq_none, Dict.get?_erase, if_pos rfl]

/-- One after another, a deletion holds. -/
theorem notMem_of_delete_mem {id : Text.Str} {rs : List Request} (hdelete : .delete id ∈ rs)
    (hcreate : ∀ r ∈ rs, CreatesNo id r) (users : Users) : id ∉ run step users rs := by
  obtain ⟨before, after, rfl⟩ := List.append_of_mem hdelete
  rw [run_append, run_cons]
  refine run_invariant (I := (id ∉ ·)) (fun _ _ => notMem_step) (notMem_delete id _) ?_
  exact along_of_forall _ fun r hr => hcreate r (List.mem_append_right _ (.tail _ hr))

/-- A user is created while another one is, and while one is deleted. -/
def threeRequests : Client → Request
  | .first => newUser "bob" (by decide) "3"
  | .second => newUser "ann" (by decide) "4"
  | .third => .delete "2".toList

/-- The first request has the dict of the second, which is stored before the third one reads, and writes it last. -/
def lateWrite : List (SharedCopy.Event Client) :=
  [.read .first, .check .first, .read .second, .check .second, .write .second, .read .third, .check .third, .write .third,
    .write .first]

/-- One name twice. -/
def twoBobs : Bool → Request
  | true => newUser "bob" (by decide) "3"
  | false => newUser "bob" (by decide) "4"

/-- Both check the name before either takes it. -/
def bothCheck : List (SharedCopy.Event Bool) :=
  [.read true, .read false, .check true, .check false, .write true, .write false]

/-- The requests are all accepted, and no order of them ends with the users that are stored. -/
def Unserialized {ι : Type*} [DecidableEq ι] (req : ι → Request) (es : List (SharedCopy.Event ι)) : Prop :=
  let w := run (SharedCopy.step fun i => (req i).plan) (World.start startUsers) es
  (∀ i, ∃ u, w.phase i = .done (some (.user u))) ∧
    ¬∃ order : List ι, (∀ i, i ∈ order) ∧ run step startUsers (order.map req) = w.stored

/-- A dict that is out of date brings a deleted user back; and two requests that have checked one dict take one name. -/
theorem deleted_user_returns : Unserialized threeRequests lateWrite ∧ Unserialized twoBobs bothCheck := by
  refine ⟨⟨fun i => ?_, fun ⟨order, hall, hrun⟩ => ?_⟩, fun i => ?_, fun ⟨order, hall, hrun⟩ => ?_⟩
  · cases i <;> exact ⟨_, rfl⟩
  · have hgone : "2".toList ∉ run step startUsers (order.map threeRequests) := by
      refine notMem_of_delete_mem (List.mem_map.mpr ⟨_, hall .third, rfl⟩) (fun r hr => ?_) startUsers
      obtain ⟨i, -, rfl⟩ := List.mem_map.mp hr
      cases i with
      | first | second => exact fun h => absurd h (by decide)
      | third => trivial
    rw [hrun] at hgone
    exact hgone (by decide)
  · cases i <;> exact ⟨_, rfl⟩
  · have hfresh : Along step FreshName startUsers (order.map twoBobs) := by
      refine (along_of_forall (R := fun r => ∀ users, FreshName users r) startUsers fun r hr users => ?_).mono
        fun users _ h => h users
      obtain ⟨i, -, rfl⟩ := List.mem_map.mp hr
      cases i <;> trivial
    have hdistinct : Distinct (run step startUsers (order.map twoBobs)) :=
      run_invariant (I := Distinct) (fun _ r h hr => (distinct_step h r).mpr hr) (distinct_defaultUsers _ _ _ _) hfresh
    rw [hrun, Distinct] at hdistinct
    exact absurd hdistinct (by decide)

end KCore.Auth
