import KCore.Impl.MadHatter.Hooks
import KCore.Impl.MadHatter.Routes
import KCore.Proof.MadHatter.Endpoints

/-!
# The core plugin

It is active from the start-up on, and `core_plugin_stays_up_iff` says for which
requests it stays so: those that do not toggle it off, which a toggle of its id does and
the upload of a package of its id.
-/

namespace KCore.MadHatter

open Text Machine

/-- The core plugin is active, with these hooks, and they are among the merged ones. -/
structure CoreUp (hooks : List Hook) (s : State) : Prop where
  listed : corePlugin ∈ s.activePlugins
  active : ∃ p, s.plugins.get? corePlugin = some p ∧ p.id = corePlugin ∧ p.active = true ∧ p.hooks = hooks
  merged : ∀ h ∈ hooks, h ∈ (s.hooks.get? h.name).getD []

/-- No call for one of the hooks raises that it is not present. -/
def Executes (hooks : List Hook) (s : State) : Prop :=
  ∀ h ∈ hooks, ∀ (V : Type) [Deepcopy V] (pluginId : Hook → Str) (code : Code V) (args : List Ref) (heap : Heap V),
    (executeHook s pluginId code h.name args heap).2 ≠ .error .notPresent

/-- The core plugin's `deactivated` override raises, or one of its endpoints does, where it has no hook to lose. -/
def CoreRefuses (s : State) (deactivation : Bool) : Prop :=
  ∃ p ∈ s.plugins.get? corePlugin,
    p.refuses deactivation = true ∨ (p.hooks = [] ∧ (p.deactivateEndpoints s.app).2 = false)

/-- The request does not toggle the core plugin, or fails at it: the package is not extracted, or the plugin's
deactivation raises, which that of a new object does not. -/
def SparesCore (s : State) : Request → Prop
  | .upload id extracted isPlugin _ d => extracted = true → id = corePlugin → isPlugin = false ∧ CoreRefuses s d
  | .toggle id _ d => id = corePlugin → CoreRefuses s d
  | .delete .. => True
  | .settings _ => True

instance (s : State) (d : Bool) : Decidable (CoreRefuses s d) :=
  decidable_of_iff (∃ p ∈ (s.plugins.get? corePlugin).toList,
    p.refuses d = true ∨ (p.hooks = [] ∧ (p.deactivateEndpoints s.app).2 = false)) <| by simp [CoreRefuses]

instance : ∀ (s : State) (r : Request), Decidable (SparesCore s r)
  | s, .upload id extracted isPlugin _ d =>
    inferInstanceAs (Decidable (extracted = true → id = corePlugin → isPlugin = false ∧ CoreRefuses s d))
  | s, .toggle id _ d => inferInstanceAs (Decidable (id = corePlugin → CoreRefuses s d))
  | _, .delete .. => .isTrue trivial
  | _, .settings _ => .isTrue trivial

section

variable [FastApi] {hooks : List Hook} {s : State}

omit [FastApi] in
theorem activate_hooks {p : Plugin} {a : Attempt} (h : a.returns = true) : (p.activate a).1.hooks = a.loaded.hooks := by
  rw [Attempt.returns, Bool.and_eq_true, Bool.and_eq_true] at h
  rw [Plugin.activate, if_neg (by simp [h]), if_neg (by simp [h])]
  rfl

/-! ## Hooks -/

omit [FastApi] in
theorem pipe_present {V : Type} [Deepcopy V] {pluginId : Hook → Str} {code : Code V} {others : List Ref} :
    ∀ {hooks : List Hook} {heap : Heap V} {teaCup : Ref},
      (pipe s pluginId code others hooks heap teaCup).2 ≠ .error .notPresent
  | [], _, _ => nofun
  | hook :: hooks, heap, teaCup => by
    rw [pipe]
    cases serve heap teaCup others with
    | none =>
      by_cases hp : pluginId hook ∈ s.plugins
      · simp only [if_pos hp]
        exact pipe_present
      · simp [if_neg hp]
    | some served =>
      obtain ⟨heap', given⟩ := served
      simp only
      generalize code hook.function heap' given = result
      match result with
      | (_, .returned (some _)) => exact pipe_present
      | (_, .returned none) => exact pipe_present
      | (_, .exits) => nofun
      | (_, .raised) =>
        by_cases hp : pluginId hook ∈ s.plugins
        · simp only [if_pos hp]
          exact pipe_present
        · simp [if_neg hp]

omit [FastApi] in
theorem executeWithoutArguments_present {V : Type} {pluginId : Hook → Str} {code : Code V} :
    ∀ {hooks : List Hook} {heap : Heap V},
      (executeWithoutArguments s pluginId code hooks heap).2 ≠ .error .notPresent
  | [], _ => nofun
  | hook :: hooks, heap => by
    rw [executeWithoutArguments]
    generalize code hook.function heap [] = result
    match result with
    | (_, .returned _) => exact executeWithoutArguments_present
    | (_, .exits) => nofun
    | (_, .raised) =>
      by_cases hp : pluginId hook ∈ s.plugins
      · simp only [if_pos hp]
        exact executeWithoutArguments_present
      · simp [if_neg hp]

omit [FastApi] in
theorem CoreUp.executes (h : CoreUp hooks s) : Executes hooks s := by
  intro hook hmem V _ pluginId code args heap
  have hmerged := h.merged hook hmem
  rw [executeHook]
  cases hg : s.hooks.get? hook.name with
  | none => simp [hg] at hmerged
  | some merged =>
    match args with
    | [] =>
      have hp : (executeWithoutArguments s pluginId code merged heap).2 ≠ .error .notPresent :=
        executeWithoutArguments_present
      simp only
      generalize executeWithoutArguments s pluginId code merged heap = result at hp ⊢
      match result with
      | (_, .ok _) => nofun
      | (_, .error e) => exact fun he => hp (congrArg Except.error (Except.error.inj he))
    | arg :: others =>
      simp only
      cases deepcopy heap arg with
      | none => nofun
      | some copied =>
        obtain ⟨heap', teaCup⟩ := copied
        have hp : (pipe s pluginId code others merged heap' teaCup).2 ≠ .error .notPresent := pipe_present
        simp only
        generalize pipe s pluginId code others merged heap' teaCup = result at hp ⊢
        match result with
        | (_, .ok _) => nofun
        | (_, .error e) => exact fun he => hp (congrArg Except.error (Except.error.inj he))

/-! ## Requests -/

theorem sync_coreUp (hlisted : corePlugin ∈ s.activePlugins)
    (hactive : ∃ p, s.plugins.get? corePlugin = some p ∧ p.id = corePlugin ∧ p.active = true ∧ p.hooks = hooks) :
    CoreUp hooks (syncHooksToolsAndForms s).1 := by
  refine ⟨by rwa [sync_activePlugins], by rwa [sync_plugins], fun h hh => ?_⟩
  obtain ⟨p, hp, hid, -, rfl⟩ := hactive
  have hone : p ∈ (syncHooksToolsAndForms s).1.activeOnes := by
    rw [State.activeOnes, sync_plugins, sync_activePlugins, List.mem_filter, Dict.mem_values, hid]
    exact ⟨⟨corePlugin, hp⟩, decide_eq_true hlisted⟩
  rw [(sync_merged s).hooks, sortHooks, List.mem_mergeSort, List.mem_filter, List.mem_flatMap]
  exact ⟨⟨p, hone, hh⟩, decide_eq_true rfl⟩

omit [FastApi] in
/-- Another plugin may be replaced, and the core plugin keeps its place in the list. -/
theorem CoreUp.set_other (h : CoreUp hooks s) {id : Str} (hne : id ≠ corePlugin) (q : Plugin) (app : App) :
    CoreUp hooks { s with plugins := s.plugins.set id q, app := app } := by
  refine ⟨h.listed, ?_, h.merged⟩
  simp only [Dict.get?_set_of_ne _ _ (Ne.symm hne)]
  exact h.active

/-- A toggle of another plugin, whatever comes of it. -/
theorem CoreUp.toggle_other (h : CoreUp hooks s) {id : Str} (hne : id ≠ corePlugin) (a : Attempt) (d : Bool) :
    CoreUp hooks (togglePlugin s id a d).1 := by
  have hu := updateActivePlugins_spec s id a d
  generalize hres : updateActivePlugins s id a d = r at hu
  cases hu with
  | absent | refused =>
    rw [toggle_of_not_updated hres]
    exact h
  | broken | raised =>
    rw [toggle_of_not_updated hres]
    exact h.set_other hne _ _
  | @deactivated p app =>
    rw [toggle_of_updated hres]
    exact sync_coreUp ((List.mem_erase_of_ne (Ne.symm hne)).mpr h.listed) (h.set_other hne p.off app).active
  | @activated p =>
    rw [toggle_of_updated hres]
    exact sync_coreUp (List.mem_append_left _ h.listed) (h.set_other hne (p.activate a).1 s.app).active

/-- A toggle of the core plugin deactivates it, or raises. -/
theorem CoreUp.toggle_core (h : CoreUp hooks s) (a : Attempt) (d : Bool) :
    CoreUp hooks (togglePlugin s corePlugin a d).1 ↔ CoreRefuses s d := by
  obtain ⟨p, hp, hid, hactive, hhooks⟩ := h.active
  have hrefuses : CoreRefuses s d ↔ p.refuses d = true ∨ (p.hooks = [] ∧ (p.deactivateEndpoints s.app).2 = false) := by
    simp [CoreRefuses, hp]
  rw [hrefuses]
  have hu := updateActivePlugins_spec s corePlugin a d
  generalize hres : updateActivePlugins s corePlugin a d = r at hu
  cases hu with
  | absent hnone => cases hnone.symm.trans hp
  | raised _ hn | activated _ hn => exact absurd h.listed hn
  | refused hp' _ hyes =>
    obtain rfl := Option.some.inj (hp'.symm.trans hp)
    rw [toggle_of_not_updated hres]
    exact iff_of_true h (.inl hyes)
  | @broken q app hp' _ hno he =>
    obtain rfl := Option.some.inj (hp'.symm.trans hp)
    rw [toggle_of_not_updated hres, hno, he, or_iff_right Bool.false_ne_true, and_iff_left rfl, hhooks]
    constructor
    · -- its hooks are lost
      intro hup
      obtain ⟨q', hq', -, -, hnone⟩ := hup.active
      simp only [Dict.get?_set_self] at hq'
      rw [← hnone, ← Option.some.inj hq']
      rfl
    · rintro rfl
      exact ⟨h.listed, ⟨q.emptied, Dict.get?_set_self .., hid, hactive, rfl⟩, h.merged⟩
  | deactivated hp' _ hno he =>
    obtain rfl := Option.some.inj (hp'.symm.trans hp)
    rw [toggle_of_updated hres, hno, he]
    refine iff_of_false (fun hup => ?_) (by simp)
    obtain ⟨q', hq', -, hactive', -⟩ := hup.active
    simp only [sync_plugins, saveActivePluginsToDb, Dict.get?_set_self] at hq'
    rw [← Option.some.inj hq'] at hactive'
    cases hactive'

omit [FastApi] in
theorem CoreUp.load_other (h : CoreUp hooks s) {id : Str} (hne : id ≠ corePlugin) (isPlugin : Bool) :
    CoreUp hooks (loadPlugin s id isPlugin) := by
  rw [loadPlugin]
  split
  · exact h.set_other hne (.new id) s.app
  · exact h

/-- A new object of the core plugin is toggled off at once. -/
theorem CoreUp.not_loaded (h : CoreUp hooks s) (a : Attempt) (d : Bool) :
    ¬CoreUp hooks (togglePlugin (loadPlugin s corePlugin true) corePlugin a d).1 := by
  rw [toggle_of_updated (updated_loaded_active h.listed)]
  intro hup
  obtain ⟨q, hq, -, hactive, -⟩ := hup.active
  simp only [sync_plugins, saveActivePluginsToDb, Dict.get?_set_self] at hq
  rw [← Option.some.inj hq] at hactive
  cases hactive

theorem CoreUp.upload (h : CoreUp hooks s) (id : Str) (extracted isPlugin : Bool) (a : Attempt) (d : Bool) :
    CoreUp hooks (installPlugin s id extracted isPlugin a d).1 ↔ SparesCore s (.upload id extracted isPlugin a d) := by
  rw [installPlugin, SparesCore]
  cases extracted with
  | false => simpa using h
  | true =>
    simp only [if_true, forall_const]
    by_cases hid : id = corePlugin
    · subst hid
      cases isPlugin with
      | false => simpa [loadPlugin] using h.toggle_core a d
      | true => simpa using h.not_loaded a d
    · simpa [hid] using (h.load_other hid isPlugin).toggle_other hid a d

theorem CoreUp.delete (h : CoreUp hooks s) (id : Str) (d : Bool) (a : Attempt) :
    CoreUp hooks (uninstallPlugin s id d a).1 := by
  have herase {s : State} (h : CoreUp hooks s) (hne : id ≠ corePlugin) :
      CoreUp hooks { s with plugins := s.plugins.erase id } := by
    refine ⟨h.listed, ?_, h.merged⟩
    simp only [Dict.get?_erase, if_neg (Ne.symm hne)]
    exact h.active
  rw [uninstallPlugin]
  split
  · rename_i hid
    have htoggle := h.toggle_other hid.2 a d
    by_cases hactive : id ∈ s.activePlugins
    · simp only [if_pos hactive]
      cases (togglePlugin s id a d).2 with
      | true => exact herase htoggle hid.2
      | false => exact htoggle
    · simp only [if_neg hactive]
      exact herase h hid.2
  · exact h

theorem handle_coreUp (s : State) (r : Request) (h : CoreUp hooks s) :
    CoreUp hooks (handle s r) ↔ SparesCore s r := by
  cases r with
  | upload id extracted isPlugin a d => exact h.upload id extracted isPlugin a d
  | toggle id a d =>
    rw [handle, SparesCore]
    by_cases hid : id = corePlugin
    · subst hid
      obtain ⟨p, hp, -⟩ := h.active
      rw [if_pos (Dict.mem_iff_get?.mpr ⟨p, hp⟩)]
      simpa using h.toggle_core a d
    · refine iff_of_true ?_ fun he => absurd he hid
      split
      · exact h.toggle_other hid a d
      · exact h
  | delete id d a =>
    rw [handle]
    refine iff_of_true ?_ trivial
    split
    · exact h.delete id d a
    · exact h
  | settings id => exact iff_of_true h trivial

/-! ## The start-up -/

/-- A folder that does not end the search: another plugin stays as it was, and its own is active if it is listed. -/
theorem discover_returned {f : Folder} {folders : List Folder} (hr : (discover s (f :: folders)).2 = true) :
    ∃ s', discover s (f :: folders) = discover s' folders ∧ s'.activePlugins = s.activePlugins ∧
      (∀ id, id ≠ f.id → s'.plugins.get? id = s.plugins.get? id) ∧
      (f.id ∈ s.activePlugins → ∃ p, s'.plugins.get? f.id = some p ∧ p.active = true ∧
        p.hooks = f.activation.loaded.hooks) := by
  have hload : (loadPlugin s f.id f.isPlugin).activePlugins = s.activePlugins := by
    rw [loadPlugin]
    split <;> rfl
  have hother (id : Str) (hne : id ≠ f.id) : (loadPlugin s f.id f.isPlugin).plugins.get? id = s.plugins.get? id := by
    rw [loadPlugin]
    split
    · exact Dict.get?_set_of_ne _ _ hne
    · rfl
  rw [discover] at hr ⊢
  simp only [hload] at hr ⊢
  by_cases hid : f.id ∈ s.activePlugins
  · simp only [if_pos hid] at hr ⊢
    cases hp : (loadPlugin s f.id f.isPlugin).plugins.get? f.id with
    | none => simp [hp] at hr
    | some p =>
      simp only [hp, activate_returns] at hr ⊢
      cases hret : f.activation.returns with
      | false => simp [hret] at hr
      | true =>
        refine ⟨_, if_pos rfl, rfl, fun id hne => ?_, fun _ => ⟨_, Dict.get?_set_self .., ?_, ?_⟩⟩
        · exact (Dict.get?_set_of_ne _ _ hne).trans (hother id hne)
        · exact activate_active hret
        · exact activate_hooks hret
  · exact ⟨_, if_neg hid, hload, hother, fun h => absurd h hid⟩

theorem discover_keeps (id : Str) : ∀ {folders : List Folder} {s : State}, (discover s folders).2 = true →
    (discover s folders).1.activePlugins = s.activePlugins ∧
      ((∀ f ∈ folders, f.id ≠ id) → (discover s folders).1.plugins.get? id = s.plugins.get? id)
  | [], _, _ => ⟨rfl, fun _ => rfl⟩
  | f :: folders, s, hr => by
    obtain ⟨s', hs', hactive, hother, -⟩ := discover_returned hr
    rw [hs'] at hr ⊢
    obtain ⟨hrest, hid⟩ := discover_keeps id hr
    refine ⟨hrest.trans hactive, fun h => ?_⟩
    rw [hid fun g hg => h g (.tail _ hg), hother id (Ne.symm (h f (.head _)))]

theorem discover_last {f : Folder} {after : List Folder} (hafter : ∀ g ∈ after, g.id ≠ f.id) :
    ∀ {before : List Folder} {s : State}, f.id ∈ s.activePlugins → (discover s (before ++ f :: after)).2 = true →
      ∃ p, (discover s (before ++ f :: after)).1.plugins.get? f.id = some p ∧ p.active = true ∧
        p.hooks = f.activation.loaded.hooks
  | [], s, hid, hr => by
    rw [List.nil_append] at hr ⊢
    obtain ⟨s', hs', -, -, hown⟩ := discover_returned hr
    rw [hs'] at hr ⊢
    rw [(discover_keeps _ hr).2 hafter]
    exact hown hid
  | g :: before, s, hid, hr => by
    rw [List.cons_append] at hr ⊢
    obtain ⟨s', hs', hactive, -, -⟩ := discover_returned hr
    rw [hs'] at hr ⊢
    exact discover_last hafter (hactive ▸ hid) hr

theorem find_coreUp {before after : List Folder} {f : Folder} (hf : f.id = corePlugin)
    (hafter : ∀ g ∈ after, g.id ≠ corePlugin) (hcallback : s.callback = false)
    (hr : (findPlugins s (before ++ f :: after)).2 = true) :
    CoreUp f.activation.loaded.hooks (findPlugins s (before ++ f :: after)).1 := by
  have hlabels := (find_app hcallback hr).2.2
  have hlisted : corePlugin ∈ loadActivePluginsFromDb s.db := mem_loadActivePluginsFromDb.mpr (.inl rfl)
  rw [findPlugins] at hr hlabels ⊢
  have hkeeps := @discover_keeps _ corePlugin (before ++ f :: after)
    { s with plugins := .empty, activePlugins := loadActivePluginsFromDb s.db }
  have hlast := @discover_last _ f after (hf ▸ hafter) before
    { s with plugins := .empty, activePlugins := loadActivePluginsFromDb s.db } (hf ▸ hlisted)
  generalize discover { s with plugins := .empty, activePlugins := loadActivePluginsFromDb s.db }
    (before ++ f :: after) = r at hr hlabels hkeeps hlast ⊢
  obtain ⟨s', returned⟩ := r
  cases returned with
  | false => cases hr
  | true =>
    obtain ⟨p, hp, hactive, hhooks⟩ := hlast rfl
    rw [hf] at hp
    have hid : p.id = corePlugin := by
      refine (hlabels corePlugin p ?_).1
      simp only [if_true, sync_plugins]
      exact hp
    exact sync_coreUp ((hkeeps rfl).1 ▸ hlisted) ⟨p, hp, hid, hactive, hhooks⟩

theorem bootstrap_coreUp {routes : List Route} {db : Option (List Str)} {before after : List Folder} {f : Folder}
    (hf : f.id = corePlugin) (hafter : ∀ g ∈ after, g.id ≠ corePlugin)
    (hs : bootstrap routes db (before ++ f :: after) = some s) : CoreUp f.activation.loaded.hooks s := by
  have hfind := @find_coreUp _ (.blank routes db) before after f hf hafter rfl
  rw [bootstrap] at hs
  rcases hfound : findPlugins (.blank routes db) (before ++ f :: after) with ⟨s', _ | _⟩
  · rw [hfound] at hs
    cases hs
  · rw [hfound] at hs hfind
    have hup := hfind rfl
    have hattached : CoreUp f.activation.loaded.hooks (attachCallback s').1 := ⟨hup.listed, hup.active, hup.merged⟩
    dsimp only at hs
    rcases hattach : attachCallback s' with ⟨s'', _ | _⟩
    · rw [hattach] at hs
      cases hs
    · rw [hattach] at hs hattached
      obtain rfl := Option.some.inj hs
      exact hattached

/-- From a start-up on, where `f` is the last folder with the core plugin's id, the core plugin is active with
its hooks, and a call for one of them does not raise that it is not present, after every request of a run
exactly if no request of it toggles the core plugin. -/
theorem core_plugin_stays_up_iff {routes : List Route} {db : Option (List Str)} {before after : List Folder} {f : Folder}
    (hf : f.id = corePlugin) (hafter : ∀ g ∈ after, g.id ≠ corePlugin)
    (hs : bootstrap routes db (before ++ f :: after) = some s) (rs : List Request) :
    Throughout handle (fun s => CoreUp f.activation.loaded.hooks s ∧ Executes f.activation.loaded.hooks s) s rs ↔
      Along handle SparesCore s rs := by
  have hup := bootstrap_coreUp hf hafter hs
  refine throughout_iff_along (I := fun _ => True) (fun _ _ _ => trivial) (fun s r _ hg => ?_) trivial
    ⟨hup, hup.executes⟩
  rw [← handle_coreUp s r hg.1]
  exact ⟨And.left, fun h => ⟨h, h.executes⟩⟩

end

def rabbitHole : Hook := ⟨"before_cat_reads_message".toList, 0, 0⟩

/-- A core plugin with one hook. -/
def hookedFolder : Folder := ⟨corePlugin, true, ⟨true, ⟨[rabbitHole], [], [], [], ⟨false, true⟩⟩, true, true⟩, true⟩

theorem core_plugin_stays_up_scooby : ∃ s, bootstrap [] none [hookedFolder] = some s ∧
    Throughout handle (fun s => CoreUp [rabbitHole] s ∧ Executes [rabbitHole] s) s
      [.upload "scooby".toList true true (serving []) true, .toggle "scooby".toList (serving []) true,
        .delete corePlugin true (serving [])] := by
  obtain ⟨s, hs⟩ : ∃ s, bootstrap [] none [hookedFolder] = some s := ⟨_, rfl⟩
  refine ⟨s, hs, ?_⟩
  refine (@core_plugin_stays_up_iff _ s [] none [] [] hookedFolder rfl (by decide) hs _).mpr ?_
  obtain rfl := Option.some.inj hs
  decide +kernel

/-- A toggle of the core plugin deactivates it, and a call for its hook raises that it is not present. -/
theorem core_plugin_toggled_off : ∃ s, bootstrap [] none [hookedFolder] = some s ∧
    ¬CoreUp [rabbitHole] (run handle s [.toggle corePlugin (serving []) true]) ∧
    ¬Executes [rabbitHole] (run handle s [.toggle corePlugin (serving []) true]) := by
  obtain ⟨s, hs⟩ : ∃ s, bootstrap [] none [hookedFolder] = some s := ⟨_, rfl⟩
  have hlisted : corePlugin ∉ (run handle s [.toggle corePlugin (serving []) true]).activePlugins := by
    obtain rfl := Option.some.inj hs
    decide +kernel
  have hget : (run handle s [.toggle corePlugin (serving []) true]).hooks.get? rabbitHole.name = none := by
    obtain rfl := Option.some.inj hs
    decide +kernel
  refine ⟨s, hs, fun h => hlisted h.listed, fun h => ?_⟩
  have hcall := @h rabbitHole (.head _) Unit ⟨fun _ => true⟩ (fun _ => corePlugin) (fun _ heap _ => (heap, .raised)) [] []
  simp only [executeHook, hget] at hcall
  exact hcall rfl

end KCore.MadHatter
