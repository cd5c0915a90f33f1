import KCore.Lib.Run
import KCore.Impl.MadHatter

/-!
# Where the plugin manager records which plugins are active

Plugin objects, the active list, the settings DB and the merged lists. A call keeps
them in agreement (`step_good`) where it does not end in the midst of an
activation (`Clean`), so every run of such calls does (`mad_hatter_run_ok`); the core
plugin alone may be active without being in the DB.
-/

namespace KCore.MadHatter

open Text

/-- The merged lists hold the objects of the active plugins, the hooks by name and priority. -/
structure Merged (s : State) : Prop where
  tools : s.tools = s.activeOnes.flatMap Plugin.tools
  forms : s.forms = s.activeOnes.flatMap Plugin.forms
  endpoints : s.endpoints = s.activeOnes.flatMap Plugin.endpoints
  hooks : ∀ name, (s.hooks.get? name).getD [] =
    sortHooks ((s.activeOnes.flatMap Plugin.hooks).filter fun h => h.name = name)

/-- A plugin object is active exactly if its id is in the active list. -/
def FlagsAgree (s : State) : Prop := ∀ id p, s.plugins.get? id = some p → (p.active = true ↔ id ∈ s.activePlugins)

/-- The active list and the persisted one have the same ids. -/
def Persisted (s : State) : Prop := ∀ id, id ∈ s.activePlugins ↔ id ∈ s.db.getD []

/-- The same but for the core plugin, which may be in the active list alone. -/
def PersistedButCore (s : State) : Prop :=
  (∀ id, id ≠ corePlugin → (id ∈ s.activePlugins ↔ id ∈ s.db.getD [])) ∧
  (corePlugin ∈ s.db.getD [] → corePlugin ∈ s.activePlugins)

/-- The call of `activate` returns. -/
def Attempt.returns (a : Attempt) : Bool :=
  a.requirements && a.settings && (!a.loaded.overrides.activated || a.activated)

/-- The call of `activate` raises in the `activated` override. -/
def Attempt.raisesActivated (a : Attempt) : Bool :=
  a.requirements && a.settings && a.loaded.overrides.activated && !a.activated

/-- Deactivating the plugin does not end in the midst of its endpoints: its override raises, or none of them does. -/
def Plugin.Leaves (p : Plugin) (deactivation : Bool) (app : App) : Prop :=
  p.refuses deactivation = true ∨ (p.deactivateEndpoints app).2 = true

instance (p : Plugin) (d : Bool) (app : App) : Decidable (p.Leaves d app) := inferInstanceAs (Decidable (_ ∨ _))

/-- Where the call deactivates the plugin, this does not end in the midst of its endpoints. -/
def Releases (s : State) (id : Str) (deactivation : Bool) : Prop :=
  id ∈ s.activePlugins → ∀ p ∈ s.plugins.get? id, p.Leaves deactivation s.app

instance (s : State) (id : Str) (d : Bool) : Decidable (Releases s id d) :=
  inferInstanceAs (Decidable (_ → ∀ p ∈ s.plugins.get? id, p.Leaves d s.app))

/-- The deactivation after an activation that raised returns. -/
def Folder.Recovers (f : Folder) (app : App) : Prop :=
  (((Plugin.new f.id).activate f.activation).1.deactivate f.deactivation app).2.2 = true

instance (f : Folder) (app : App) : Decidable (f.Recovers app) := inferInstanceAs (Decidable (_ = true))

section

variable [FastApi]

/-- No `activated` override raises in an activation, and no deactivation ends in the midst of the plugin's endpoints;
`find_plugins` meets no folder of an active id that is not a plugin's, and no deactivation that raises after an
activation that did. -/
def Clean (s : State) : Call → Prop
  | .install id extracted isPlugin a d => (id ∉ s.activePlugins → a.raisesActivated = false) ∧
    (extracted = true → isPlugin = false → Releases s id d)
  | .toggle id a d => (id ∉ s.activePlugins → a.raisesActivated = false) ∧ Releases s id d
  | .uninstall id d _ => id ≠ corePlugin → Releases s id d
  | .find folders => ∀ f ∈ folders, f.id ∈ loadActivePluginsFromDb s.db →
    f.isPlugin = true ∧ (f.activation.returns = true ∨ f.Recovers s.app)
  | .attach => True

instance : ∀ (s : State) (c : Call), Decidable (Clean s c)
  | s, .install id extracted isPlugin a d => inferInstanceAs (Decidable ((id ∉ s.activePlugins → a.raisesActivated = false) ∧
      (extracted = true → isPlugin = false → Releases s id d)))
  | s, .toggle id a d =>
    inferInstanceAs (Decidable ((id ∉ s.activePlugins → a.raisesActivated = false) ∧ Releases s id d))
  | s, .uninstall id d _ => inferInstanceAs (Decidable (id ≠ corePlugin → Releases s id d))
  | s, .find folders => inferInstanceAs (Decidable (∀ f ∈ folders, f.id ∈ loadActivePluginsFromDb s.db →
      f.isPlugin = true ∧ (f.activation.returns = true ∨ f.Recovers s.app)))
  | _, .attach => .isTrue trivial

end

/-! ## Plugins -/

theorem activate_id (p : Plugin) (a : Attempt) : (p.activate a).1.id = p.id := by
  rw [Plugin.activate]
  split
  · rfl
  · split <;> rfl

theorem activate_returns (p : Plugin) (a : Attempt) : (p.activate a).2 = a.returns := by
  rw [Plugin.activate, Attempt.returns]
  cases a.requirements <;> cases a.settings <;> rfl

theorem activate_active {p : Plugin} {a : Attempt} (h : a.returns = true) : (p.activate a).1.active = true := by
  rw [Attempt.returns, Bool.and_eq_true, Bool.and_eq_true] at h
  rw [Plugin.activate, if_neg (by simp [h]), if_neg (by simp [h])]

theorem activate_inactive {p : Plugin} {a : Attempt} (h : a.returns = false) (hr : a.raisesActivated = false)
    (hp : p.active = false) : (p.activate a).1.active = false := by
  rw [Attempt.returns] at h
  rw [Attempt.raisesActivated] at hr
  rw [Plugin.activate]
  split
  · exact hp
  · split
    · exact hp
    · rename_i hreq hset
      rw [Bool.not_eq_false] at hreq hset
      rw [hreq, hset] at h hr
      cases ho : a.loaded.overrides.activated <;> cases ha : a.activated <;> simp [ho, ha] at h hr

/-- The plugin where its endpoints raise. -/
def Plugin.emptied (p : Plugin) : Plugin := { p with hooks := [], tools := [], forms := [] }

/-- The plugin after its deactivation. -/
def Plugin.off (p : Plugin) : Plugin :=
  { p.emptied with endpoints := [], overrides := ⟨false, false⟩, active := false }

theorem deactivate_refused {p : Plugin} {d : Bool} (h : p.refuses d = true) (app : App) :
    p.deactivate d app = (p, app, false) := by rw [Plugin.deactivate, if_pos h]

theorem deactivate_broken {p : Plugin} {d : Bool} (h : p.refuses d = false) {app app' : App}
    (he : p.deactivateEndpoints app = (app', false)) : p.deactivate d app = (p.emptied, app', false) := by
  have he' : Plugin.deactivateEndpoints { p with hooks := [], tools := [], forms := [] } app = (app', false) := he
  rw [Plugin.deactivate, if_neg (by rw [h]; exact Bool.false_ne_true)]
  simp only [he']
  rfl

theorem deactivate_off {p : Plugin} {d : Bool} (h : p.refuses d = false) {app app' : App}
    (he : p.deactivateEndpoints app = (app', true)) : p.deactivate d app = (p.off, app', true) := by
  have he' : Plugin.deactivateEndpoints { p with hooks := [], tools := [], forms := [] } app = (app', true) := he
  rw [Plugin.deactivate, if_neg (by rw [h]; exact Bool.false_ne_true)]
  simp only [he']
  rfl

/-- An activation that returns. -/
theorem updated_activated {s : State} {id : Str} {p : Plugin} (hp : s.plugins.get? id = some p)
    (hact : id ∉ s.activePlugins) {a : Attempt} (ha : a.returns = true) (d : Bool) :
    updateActivePlugins s id a d = ({ s with
      plugins := s.plugins.set id (p.activate a).1, activePlugins := s.activePlugins ++ [id] }, true) := by
  simp only [updateActivePlugins, hp, if_neg hact, activate_returns, ha]
  rfl

/-- An activation that raises. -/
theorem updated_raised {s : State} {id : Str} {p : Plugin} (hp : s.plugins.get? id = some p)
    (hact : id ∉ s.activePlugins) {a : Attempt} (ha : a.returns = false) (d : Bool) :
    updateActivePlugins s id a d = ({ s with plugins := s.plugins.set id (p.activate a).1 }, false) := by
  simp only [updateActivePlugins, hp, if_neg hact, activate_returns, ha]
  rfl

/-- What `toggle_plugin` does up to the new list of active plugins. -/
inductive Update (s : State) (id : Str) (a : Attempt) (d : Bool) : State × Bool → Prop
  | absent (hp : s.plugins.get? id = none) : Update s id a d (s, false)
  | refused {p : Plugin} (hp : s.plugins.get? id = some p) (hact : id ∈ s.activePlugins) (h : p.refuses d = true) :
    Update s id a d (s, false)
  | broken {p : Plugin} {app : App} (hp : s.plugins.get? id = some p) (hact : id ∈ s.activePlugins)
    (h : p.refuses d = false) (he : p.deactivateEndpoints s.app = (app, false)) :
    Update s id a d ({ s with plugins := s.plugins.set id p.emptied, app := app }, false)
  | deactivated {p : Plugin} {app : App} (hp : s.plugins.get? id = some p) (hact : id ∈ s.activePlugins)
    (h : p.refuses d = false) (he : p.deactivateEndpoints s.app = (app, true)) :
    Update s id a d
      ({ s with plugins := s.plugins.set id p.off, app := app, activePlugins := s.activePlugins.erase id }, true)
  | raised {p : Plugin} (hp : s.plugins.get? id = some p) (hact : id ∉ s.activePlugins) (h : a.returns = false) :
    Update s id a d ({ s with plugins := s.plugins.set id (p.activate a).1 }, false)
  | activated {p : Plugin} (hp : s.plugins.get? id = some p) (hact : id ∉ s.activePlugins) (h : a.returns = true) :
    Update s id a d
      ({ s with plugins := s.plugins.set id (p.activate a).1, activePlugins := s.activePlugins ++ [id] }, true)

theorem updateActivePlugins_spec (s : State) (id : Str) (a : Attempt) (d : Bool) :
    Update s id a d (updateActivePlugins s id a d) := by
  cases hp : s.plugins.get? id with
  | none =>
    rw [updateActivePlugins, hp]
    exact .absent hp
  | some p =>
    by_cases hact : id ∈ s.activePlugins
    · cases h : p.refuses d with
      | true =>
        simp only [updateActivePlugins, hp, if_pos hact, deactivate_refused h, Dict.set_eq_self hp]
        exact .refused hp hact h
      | false =>
        rcases he : p.deactivateEndpoints s.app with ⟨app, _ | _⟩
        · simp only [updateActivePlugins, hp, if_pos hact, deactivate_broken h he]
          exact .broken hp hact h he
        · simp only [updateActivePlugins, hp, if_pos hact, deactivate_off h he]
          exact .deactivated hp hact h he
    · cases h : a.returns with
      | false => exact updated_raised hp hact h d ▸ .raised hp hact h
      | true => exact updated_activated hp hact h d ▸ .activated hp hact h

/-! ## States -/

/-- What holds of the plugins besides one: it is about to be activated or deactivated. -/
structure Settled (s : State) (but : Str) : Prop where
  ids : ∀ id p, s.plugins.get? id = some p → p.id = id
  flags : ∀ id p, id ≠ but → s.plugins.get? id = some p → (p.active = true ↔ id ∈ s.activePlugins)
  nodup : s.activePlugins.Nodup

/-- All records of what is active agree. -/
structure Good (s : State) : Prop where
  ids : ∀ id p, s.plugins.get? id = some p → p.id = id
  flags : FlagsAgree s
  nodup : s.activePlugins.Nodup
  stored : (s.db.getD []).Nodup
  persisted : PersistedButCore s
  merged : Merged s

theorem Good.settled {s : State} (h : Good s) (but : Str) : Settled s but :=
  ⟨h.ids, fun id p _ => h.flags id p, h.nodup⟩

theorem ids_set {s : State} (h : ∀ id p, s.plugins.get? id = some p → p.id = id) {id : Str} {q : Plugin} (hq : q.id = id) :
    ∀ id' p, (s.plugins.set id q).get? id' = some p → p.id = id' := by
  intro id' p hp
  rw [Dict.get?_set] at hp
  split at hp
  · rename_i he
    rw [he, ← Option.some.inj hp, hq]
  · exact h id' p hp

/-- The flags agree with a list that has the plugin as its flag says, and the others as before. -/
theorem Settled.flags_set {s : State} {id : Str} (h : Settled s id) {q : Plugin} {l : List Str}
    (hq : q.active = true ↔ id ∈ l) (hl : ∀ id', id' ≠ id → (id' ∈ l ↔ id' ∈ s.activePlugins)) :
    ∀ id' p, (s.plugins.set id q).get? id' = some p → (p.active = true ↔ id' ∈ l) := by
  intro id' p hp
  rw [Dict.get?_set] at hp
  split at hp
  · rename_i he
    rw [he, ← Option.some.inj hp, hq]
  · rename_i hne
    rw [h.flags id' p hne hp, hl id' hne]

/-- Replacing an inactive plugin by an inactive one keeps a good state. -/
theorem Good.set_inactive {s : State} (h : Good s) {p : Plugin} (hid : p.id ∉ s.activePlugins)
    (hp : p.active = false) : Good { s with plugins := s.plugins.set p.id p } := by
  have hones : State.activeOnes { s with plugins := s.plugins.set p.id p } = s.activeOnes := by
    refine Dict.filter_values_set (decide_eq_false hid) fun w hw => decide_eq_false ?_
    rwa [h.ids _ w hw]
  refine ⟨fun id q hq => ?_, fun id q hq => ?_, h.nodup, h.stored, h.persisted, ?_⟩
  · rw [Dict.get?_set] at hq
    split at hq
    · rename_i he
      rw [he, ← Option.some.inj hq]
    · exact h.ids id q hq
  · rw [Dict.get?_set] at hq
    split at hq
    · rename_i he
      obtain rfl := Option.some.inj hq
      rw [he, hp]
      simp [hid]
    · exact h.flags id q hq
  · obtain ⟨ht, hf, he, hh⟩ := h.merged
    exact ⟨by rw [hones]; exact ht, by rw [hones]; exact hf, by rw [hones]; exact he, by rw [hones]; exact hh⟩

theorem Good.erase {s : State} (h : Good s) {id : Str} (hid : id ∉ s.activePlugins) :
    Good { s with plugins := s.plugins.erase id } := by
  have hones : State.activeOnes { s with plugins := s.plugins.erase id } = s.activeOnes := by
    refine Dict.filter_values_erase fun w hw => decide_eq_false ?_
    rwa [h.ids _ w hw]
  have hget {id' : Str} {p : Plugin} (hp : (s.plugins.erase id).get? id' = some p) : s.plugins.get? id' = some p := by
    rw [Dict.get?_erase] at hp
    split at hp
    · cases hp
    · exact hp
  refine ⟨fun id' p hp => h.ids id' p (hget hp), fun id' p hp => h.flags id' p (hget hp), h.nodup, h.stored,
    h.persisted, ?_⟩
  obtain ⟨ht, hf, he, hh⟩ := h.merged
  exact ⟨by rw [hones]; exact ht, by rw [hones]; exact hf, by rw [hones]; exact he, by rw [hones]; exact hh⟩

/-! ## The merged lists -/

theorem get?_addHook (hooks : List Hook) (d : Dict Str (List Hook)) (name : Str) :
    ((hooks.foldl addHook d).get? name).getD [] = (d.get? name).getD [] ++ hooks.filter fun h => h.name = name := by
  induction hooks generalizing d with
  | nil => simp
  | cons h hooks ih =>
    rw [List.foldl_cons, ih, addHook, Dict.get?_set]
    by_cases hn : name = h.name
    · simp [hn]
    · simp [hn, Ne.symm hn]

section

variable [FastApi]

theorem sync_plugins (s : State) : (syncHooksToolsAndForms s).1.plugins = s.plugins := by
  simp only [syncHooksToolsAndForms]
  split <;> rfl

theorem sync_activePlugins (s : State) : (syncHooksToolsAndForms s).1.activePlugins = s.activePlugins := by
  simp only [syncHooksToolsAndForms]
  split <;> rfl

theorem sync_db (s : State) : (syncHooksToolsAndForms s).1.db = s.db := by
  simp only [syncHooksToolsAndForms]
  split <;> rfl

/-- Merged before the callback, the lists are so whether it returns or raises. -/
theorem sync_merged (s : State) : Merged (syncHooksToolsAndForms s).1 := by
  have hones : (syncHooksToolsAndForms s).1.activeOnes = s.activeOnes := by
    rw [State.activeOnes, sync_plugins, sync_activePlugins, State.activeOnes]
  have hhooks (name : Str) : (((s.activeOnes.flatMap Plugin.hooks).foldl addHook .empty).mapValues
      sortHooks |>.get? name).getD [] = sortHooks ((s.activeOnes.flatMap Plugin.hooks).filter fun h => h.name = name) := by
    have h := get?_addHook (s.activeOnes.flatMap Plugin.hooks) .empty name
    rw [Dict.get?_empty, Option.getD_none, List.nil_append] at h
    rw [Dict.get?_mapValues, ← h]
    cases ((s.activeOnes.flatMap Plugin.hooks).foldl addHook .empty).get? name with
    | none => exact List.mergeSort_nil.symm
    | some hooks => rfl
  constructor
  all_goals rw [hones]; simp only [syncHooksToolsAndForms]
  · split <;> rfl
  · split <;> rfl
  · split <;> rfl
  · intro name
    rw [← hhooks name]
    split <;> rfl

/-! ## Calls -/

/-- Saved and synced, a state whose plugins have the flags of the active list is good. -/
theorem save_good {s : State} (hids : ∀ id p, s.plugins.get? id = some p → p.id = id) (hflags : FlagsAgree s)
    (hnodup : s.activePlugins.Nodup) : Good (syncHooksToolsAndForms (saveActivePluginsToDb s)).1 := by
  have hdb (id : Str) : id ∈ s.activePlugins.dedup ↔ id ∈ s.activePlugins := List.mem_dedup
  refine ⟨?_, ?_, ?_, ?_, ⟨?_, ?_⟩, sync_merged _⟩
  · rw [sync_plugins]
    exact hids
  · intro id p hp
    rw [sync_plugins] at hp
    rw [sync_activePlugins]
    exact hflags id p hp
  · rw [sync_activePlugins]
    exact hnodup
  · rw [sync_db]
    exact List.nodup_dedup _
  · intro id _
    rw [sync_activePlugins, sync_db]
    exact (hdb id).symm
  · rw [sync_activePlugins, sync_db]
    exact (hdb corePlugin).mp

theorem toggle_of_updated {s s' : State} {id : Str} {a : Attempt} {d : Bool}
    (h : updateActivePlugins s id a d = (s', true)) :
    togglePlugin s id a d = syncHooksToolsAndForms (saveActivePluginsToDb s') := by
  rw [togglePlugin, h]

theorem toggle_of_not_updated {s s' : State} {id : Str} {a : Attempt} {d : Bool}
    (h : updateActivePlugins s id a d = (s', false)) : togglePlugin s id a d = (s', false) := by
  rw [togglePlugin, h]

/-- A toggle that comes to a new list leaves a good state, whatever the plugin was before. -/
theorem toggle_updated {s : State} {id : Str} {a : Attempt} {d : Bool} (h : Settled s id)
    (hr : (updateActivePlugins s id a d).2 = true) : Good (togglePlugin s id a d).1 := by
  have hu := updateActivePlugins_spec s id a d
  generalize hres : updateActivePlugins s id a d = r at hu hr
  cases hu with
  | absent | refused | broken | raised => cases hr
  | @deactivated p _ hp hact _ _ =>
    rw [toggle_of_updated hres]
    have hq : p.off.id = id := h.ids id p hp
    refine save_good (ids_set h.ids hq) (h.flags_set ?_ fun id' hne => ?_) (h.nodup.erase id)
    · exact iff_of_false Bool.false_ne_true h.nodup.not_mem_erase
    · exact List.mem_erase_of_ne hne
  | activated hp hact ha =>
    rw [toggle_of_updated hres]
    refine save_good (ids_set h.ids ((activate_id _ a).trans (h.ids id _ hp))) (h.flags_set ?_ fun id' hne => ?_) ?_
    · exact iff_of_true (activate_active ha) (List.mem_append_right _ (List.mem_singleton_self id))
    · simp [hne]
    · rw [List.nodup_append]
      refine ⟨h.nodup, List.nodup_singleton id, ?_⟩
      rintro x hx y hy rfl
      rw [List.mem_singleton] at hy
      exact hact (hy ▸ hx)

/-- A toggle keeps a good state, unless it raises in the `activated` override or in the midst of the endpoints. -/
theorem toggle_good {s : State} {id : Str} {a : Attempt} {d : Bool} (h : Good s)
    (ha : id ∉ s.activePlugins → a.raisesActivated = false) (hd : Releases s id d) :
    Good (togglePlugin s id a d).1 := by
  have hu := updateActivePlugins_spec s id a d
  generalize hres : updateActivePlugins s id a d = r at hu
  cases hu with
  | deactivated | activated => exact toggle_updated (h.settled id) (by rw [hres])
  | absent | refused =>
    rw [toggle_of_not_updated hres]
    exact h
  | broken hp hact hno he =>
    rcases hd hact _ hp with hyes | hreturns
    · exact absurd hyes (by rw [hno]; exact Bool.false_ne_true)
    · exact absurd hreturns (by rw [he]; exact Bool.false_ne_true)
  | @raised p hp hact hraised =>
    rw [toggle_of_not_updated hres]
    have hp' : p.active = false := by
      rw [← Bool.not_eq_true, h.flags id p hp]
      exact hact
    have hq : (p.activate a).1.id = id := (activate_id p a).trans (h.ids id p hp)
    have := h.set_inactive (hq ▸ hact) (activate_inactive hraised (ha hact) hp')
    rwa [hq] at this

omit [FastApi] in
theorem get?_loadPlugin (s : State) (id : Str) : (loadPlugin s id true).plugins.get? id = some (.new id) :=
  Dict.get?_set_self ..

omit [FastApi] in
/-- A new plugin whose id is active is deactivated, for it has no override and no endpoint. -/
theorem updated_loaded_active {s : State} {id : Str} {a : Attempt} {d : Bool} (h : id ∈ s.activePlugins) :
    updateActivePlugins (loadPlugin s id true) id a d =
      ({ s with
        plugins := (s.plugins.set id (.new id)).set id (.new id)
        activePlugins := s.activePlugins.erase id }, true) := by
  have hact : id ∈ (loadPlugin s id true).activePlugins := h
  simp only [updateActivePlugins, get?_loadPlugin, if_pos hact]
  rfl

theorem install_good {s : State} {id : Str} {extracted isPlugin : Bool} {a : Attempt} {d : Bool} (h : Good s)
    (ha : id ∉ s.activePlugins → a.raisesActivated = false)
    (hd : extracted = true → isPlugin = false → Releases s id d) :
    Good (installPlugin s id extracted isPlugin a d).1 := by
  rw [installPlugin]
  cases extracted with
  | false => exact h
  | true =>
    cases isPlugin with
    | false => exact toggle_good h ha (hd rfl rfl)
    | true =>
      by_cases hact : id ∈ s.activePlugins
      · refine toggle_updated ?_ (congrArg Prod.snd (updated_loaded_active hact))
        refine ⟨ids_set h.ids rfl, fun id' p hne hp => ?_, h.nodup⟩
        rw [loadPlugin, if_pos rfl, Dict.get?_set_of_ne _ _ hne] at hp
        exact h.flags id' p hp
      · exact toggle_good (h.set_inactive (p := .new id) hact rfl) ha fun hin => absurd hin hact

theorem toggle_deactivated {s : State} {id : Str} {a : Attempt} {d : Bool} (hact : id ∈ s.activePlugins)
    (hnodup : s.activePlugins.Nodup) (hr : (togglePlugin s id a d).2 = true) :
    id ∉ (togglePlugin s id a d).1.activePlugins := by
  have hu := updateActivePlugins_spec s id a d
  generalize hres : updateActivePlugins s id a d = r at hu
  cases hu with
  | absent | refused | broken => rw [toggle_of_not_updated hres] at hr; cases hr
  | raised _ hn | activated _ hn => exact absurd hact hn
  | deactivated =>
    rw [toggle_of_updated hres, sync_activePlugins]
    exact hnodup.not_mem_erase

theorem uninstall_good {s : State} {id : Str} {a : Attempt} {d : Bool} (h : Good s)
    (hd : id ≠ corePlugin → Releases s id d) : Good (uninstallPlugin s id d a).1 := by
  rw [uninstallPlugin]
  split
  · rename_i hc
    by_cases hact : id ∈ s.activePlugins
    · have hgood : Good (togglePlugin s id a d).1 := toggle_good h (fun hn => absurd hact hn) (hd hc.2)
      simp only [if_pos hact]
      cases hr : (togglePlugin s id a d).2 with
      | true => exact hgood.erase (toggle_deactivated hact h.nodup hr)
      | false => exact hgood
    · simp only [if_neg hact]
      exact h.erase hact
  · exact h

end

/-! ## Discovery -/

theorem mem_loadActivePluginsFromDb {db : Option (List Str)} {id : Str} :
    id ∈ loadActivePluginsFromDb db ↔ id = corePlugin ∨ id ∈ db.getD [] := by
  rw [loadActivePluginsFromDb]
  split
  · rename_i h
    exact ⟨.inr, fun h' => h'.elim (fun he => he ▸ h) fun h' => h'⟩
  · rw [List.mem_append, List.mem_singleton, or_comm]

/-- What holds between two folders: all flags agree. -/
structure Sane (s : State) : Prop where
  ids : ∀ id p, s.plugins.get? id = some p → p.id = id
  flags : FlagsAgree s
  nodup : s.activePlugins.Nodup

theorem Sane.settled {s : State} (h : Sane s) (but : Str) : Settled s but :=
  ⟨h.ids, fun id p _ => h.flags id p, h.nodup⟩

/-- Deactivated, the plugin of a folder is taken off the list. -/
theorem Folder.Recovers.updated {f : Folder} {s : State} (h : f.Recovers s.app) (hact : f.id ∈ s.activePlugins)
    (hp : s.plugins.get? f.id = some ((Plugin.new f.id).activate f.activation).1) :
    (updateActivePlugins s f.id f.activation f.deactivation).2 = true := by
  rw [Folder.Recovers] at h
  simp only [updateActivePlugins, hp, if_pos hact, h, if_true]

section

variable [FastApi]

/-- Found again, the plugins have the flags of the list, or an activation raised and was undone. -/
theorem discover_good : ∀ {folders : List Folder} {s : State}, Sane s →
    (∀ f ∈ folders, f.id ∈ s.activePlugins → f.isPlugin = true ∧ (f.activation.returns = true ∨ f.Recovers s.app)) →
    if (discover s folders).2 then
      Sane (discover s folders).1 ∧ (discover s folders).1.activePlugins = s.activePlugins ∧
        (discover s folders).1.db = s.db
    else Good (discover s folders).1
  | [], s, h, _ => ⟨h, rfl, rfl⟩
  | f :: folders, s, h, hc => by
    have hrest := fun g hg => hc g (List.mem_cons_of_mem f hg)
    -- after the folder, the plugin's flag has to be that of the list
    have hset {q : Plugin} (hq : q.id = f.id) (hflag : q.active = true ↔ f.id ∈ s.activePlugins) :
        Sane { s with plugins := s.plugins.set f.id q } :=
      ⟨ids_set h.ids hq, (h.settled f.id).flags_set hflag fun _ _ => Iff.rfl, h.nodup⟩
    rw [discover]
    by_cases hact : f.id ∈ s.activePlugins
    · obtain ⟨hplugin, hreturns⟩ := hc f (.head _) hact
      simp only [loadPlugin, hplugin, if_true, if_pos hact, Dict.get?_set_self, activate_returns, Dict.set_set]
      have hid : ((Plugin.new f.id).activate f.activation).1.id = f.id := activate_id _ _
      cases hr : f.activation.returns with
      | true =>
        simp only [if_true]
        exact discover_good (hset hid (iff_of_true (activate_active hr) hact)) hrest
      | false =>
        have hd : f.Recovers s.app := hreturns.resolve_left (by rw [hr]; exact Bool.false_ne_true)
        simp only [Bool.false_eq_true, if_false]
        refine toggle_updated ⟨ids_set h.ids hid, fun id p hne hp => ?_, h.nodup⟩ ?_
        · rw [Dict.get?_set_of_ne _ _ hne] at hp
          exact h.flags id p hp
        · exact Folder.Recovers.updated (s := { s with plugins := _ }) hd hact (Dict.get?_set_self ..)
    · cases hplugin : f.isPlugin with
      | true =>
        simp only [loadPlugin, if_true, if_neg hact]
        exact discover_good (hset (q := .new f.id) rfl (iff_of_false Bool.false_ne_true hact)) hrest
      | false =>
        simp only [loadPlugin, Bool.false_eq_true, if_false, if_neg hact]
        exact discover_good h hrest

theorem find_good {s : State} {folders : List Folder} (hdb : (s.db.getD []).Nodup)
    (hc : Clean s (.find folders)) : Good (findPlugins s folders).1 := by
  have hnodup : (loadActivePluginsFromDb s.db).Nodup := by
    rw [loadActivePluginsFromDb]
    split
    · exact hdb
    · rename_i hn
      rw [List.nodup_append]
      refine ⟨hdb, List.nodup_singleton _, ?_⟩
      rintro x hx y hy rfl
      rw [List.mem_singleton] at hy
      exact hn (hy ▸ hx)
  have hfresh : Sane { s with plugins := .empty, activePlugins := loadActivePluginsFromDb s.db } :=
    ⟨nofun, nofun, hnodup⟩
  have hdisc := discover_good hfresh hc
  rw [findPlugins]
  cases hr : (discover { s with plugins := .empty, activePlugins := loadActivePluginsFromDb s.db } folders).2 with
  | false =>
    simp only [hr, Bool.false_eq_true, if_false] at hdisc ⊢
    exact hdisc
  | true =>
    simp only [hr, if_true] at hdisc ⊢
    obtain ⟨hsane, hactive, hsdb⟩ := hdisc
    refine ⟨?_, ?_, ?_, ?_, ⟨?_, ?_⟩, sync_merged _⟩
    · rw [sync_plugins]
      exact hsane.ids
    · intro id p hp
      rw [sync_plugins] at hp
      rw [sync_activePlugins]
      exact hsane.flags id p hp
    · rw [sync_activePlugins]
      exact hsane.nodup
    · rw [sync_db, hsdb]
      exact hdb
    · intro id hne
      rw [sync_activePlugins, sync_db, hactive, hsdb, mem_loadActivePluginsFromDb, or_iff_right hne]
    · intro h
      rw [sync_activePlugins, hactive]
      exact mem_loadActivePluginsFromDb.mpr (.inl rfl)

/-! ## Runs -/

theorem attach_good {s : State} (h : Good s) : Good (attachCallback s).1 :=
  ⟨h.ids, h.flags, h.nodup, h.stored, h.persisted, ⟨h.merged.tools, h.merged.forms, h.merged.endpoints, h.merged.hooks⟩⟩

theorem step_good (s : State) (c : Call) (h : Good s) (hc : Clean s c) : Good (step s c) := by
  cases c with
  | install => exact install_good h hc.1 hc.2
  | toggle => exact toggle_good h hc.1 hc.2
  | uninstall => exact uninstall_good h hc
  | find => exact find_good h.stored hc
  | attach => exact attach_good h

/-- After every call of a run of clean calls, which begins with a search for plugins and may attach the
cat's callback anywhere: the flags, the active list and the merged lists agree, the list has no duplicate, and
the persisted one has the same ids, but for the core plugin. -/
theorem mad_hatter_run_ok (routes : List Route) {db : Option (List Str)} (hdb : (db.getD []).Nodup)
    (folders : List Folder) (cs : List Call)
    (h : Machine.Along step Clean (.blank routes db) (.find folders :: cs)) :
    let s := Machine.run step (.blank routes db) (.find folders :: cs)
    FlagsAgree s ∧ s.activePlugins.Nodup ∧ PersistedButCore s ∧ Merged s := by
  have hgood := Machine.run_invariant step_good (find_good hdb h.1) h.2
  exact ⟨hgood.flags, hgood.nodup, hgood.persisted, hgood.merged⟩

end

/-- `method.upper()`; a method is ASCII. -/
def upper (method : Str) : Str := method.map Char.toUpper

instance : FastApi := ⟨fun methods => methods.image upper⟩

/-- The activation of a plugin that has these endpoints and nothing else. -/
def serving (endpoints : List CustomEndpoint) : Attempt :=
  ⟨true, ⟨[], [], [], endpoints, ⟨false, false⟩⟩, true, true⟩

def coreFolder : Folder := ⟨corePlugin, true, serving [], true⟩

def status : CustomEndpoint := ⟨[], "/custom/status".toList, {"GET".toList}, 1⟩

/-- The running cat installs a plugin, switches it off and on again, and uninstalls it. -/
theorem mad_hatter_run_scooby :
    let s := Machine.run step (.blank [⟨"/ws".toList, none, none⟩] none) [.find [coreFolder], .attach,
      .install "scooby".toList true true (serving [status]) true, .toggle "scooby".toList (serving []) true,
      .toggle "scooby".toList (serving [status]) true, .uninstall "scooby".toList true (serving [])]
    FlagsAgree s ∧ s.activePlugins.Nodup ∧ PersistedButCore s ∧ Merged s :=
  mad_hatter_run_ok _ (by decide) [coreFolder] _
    ⟨by decide +kernel, by decide +kernel, by decide +kernel, by decide +kernel, by decide +kernel, by decide +kernel,
      trivial⟩

/-- After the first search the core plugin is active and not in the settings DB. -/
theorem find_does_not_save :
    let s := Machine.run step (.blank [] none) [.find [coreFolder]]
    ¬(FlagsAgree s ∧ s.activePlugins.Nodup ∧ Persisted s ∧ Merged s) := by
  intro s h
  have hactive : corePlugin ∈ s.activePlugins := by decide +kernel
  have hdb : corePlugin ∉ s.db.getD [] := by decide +kernel
  exact hdb ((h.2.2.1 corePlugin).mp hactive)

end KCore.MadHatter
