import KCore.Impl.MadHatter.Install
import KCore.Proof.MadHatter.Active
import KCore.Proof.MadHatter.Extractor

/-!
# What an installation activates

Installing a package makes its plugin the active one with the objects of the new files
(`Installed`) where the plugin was not active and no module of its package was imported
before; one that was stays in `sys.modules`, and then the installation misses it
(`install_spec`). Code that takes submodules as attributes of a package may get modules that
have left `sys.modules`.
-/

namespace KCore.MadHatter

open Text FileTree ImportSystem

/-! ## Modules of the new files -/

/-- The module is one of the plugin's package, or of its files. -/
def OfPackage (dst : List Str) (id : Str) (pyFiles : List (List Str)) (name : Str) : Prop :=
  (dst ++ [id]) <+: pathOf name ∨ name ∈ pyFiles.map moduleName

/-- The code that is found for a name. -/
def codeOf (files : Files) (name : Str) : Option Source := (findSpec files (pathOf name)).bind Spec.source

/-- The module has the code that is found for its name, and executed it since `ms`. -/
structure Current (files : Files) (ms : Modules Loaded) (m : Module Loaded) : Prop where
  source : m.spec.source = codeOf files m.name
  since : m.spec.source ≠ none → ms.made.length ≤ m.index

/-- The module of a folder without code, which has none now either. -/
structure Inert (files : Files) (m : Module Loaded) : Prop where
  source : m.spec.source = none
  code : codeOf files m.name = none

section

variable {py : Python Loaded} {files : Files} {ms ms' : Modules Loaded} {m : Module Loaded} {P : Str → Prop}

theorem current_of_made (h : Made files ms m) : Current files ms m :=
  ⟨by rw [codeOf, h.found]; rfl, fun _ => h.since⟩

theorem Inert.current (h : Inert files m) : Current files ms m :=
  ⟨h.source.trans h.code.symm, fun hne => absurd h.source hne⟩

/-- A module that is there before has no code that is executed since. -/
theorem Current.inert (h : Current files ms m) (hlt : m.index < ms.made.length) : Inert files m := by
  have hsource : m.spec.source = none := by
    by_contra hne
    exact absurd (h.since hne) (Nat.not_le.mpr hlt)
  exact ⟨hsource, h.source.symm.trans hsource⟩

/-- Where the modules of these names that are there have no code, those that are there after imports are current. -/
theorem current_of_imports (h : Imports py files ms ms')
    (htable : ∀ name m, P name → ms.table.get? name = some m → Inert files m) :
    ∀ name m, P name → ms'.table.get? name = some m → Current files ms m := by
  intro name m hname hm
  rcases h.new name m hm with hold | hmade
  · exact (htable name m hname hold).current
  · exact current_of_made hmade

/-- The same of the modules that the imports gave, where code takes no older ones from packages. -/
theorem current_of_given (h : Imports py files ms ms')
    (htable : ∀ name m, P name → ms.table.get? name = some m → Inert files m)
    (hbound : (∀ k m, P m.name → ms.bound.get? k = some m → Inert files m) ∨ py.Avoids P) :
    ∀ m ∈ ms'.given.drop ms.given.length, P m.name → Current files ms m := by
  obtain ⟨extra, he, hextra⟩ := h.given
  rw [he, List.drop_left]
  intro m hm hname
  rcases hextra m hm with hold | hmade | ⟨⟨k, hk⟩, havoids⟩
  · exact (htable m.name m hname hold).current
  · exact current_of_made hmade
  · rcases hbound with hbound | hpy
    · exact (hbound k m hname hk).current
    · exact absurd hname (havoids P hpy)

end

/-! ## Installations -/

/-- The plugin's objects are these. -/
structure Holds (p : Plugin) (l : Loaded) : Prop where
  hooks : p.hooks = l.hooks
  tools : p.tools = l.tools
  forms : p.forms = l.forms
  endpoints : p.endpoints = l.endpoints.map fun e => { e with pluginId := p.id }

/-- What an installation is to do: the plugin is active with the objects of the modules of its files, the merged lists
are those of the active plugins, and the modules of its package, those that are there, those of its files and those that
any code got, have executed the new code in this call. -/
structure Installed (py : Python Loaded) (dst : List Str) (id : Str) (w w' : World) (pyFiles : List (List Str)) : Prop where
  active : id ∈ w'.hat.activePlugins
  plugin : ∃ p ∈ w'.hat.activeOnes, w'.hat.plugins.get? id = some p ∧ p.id = id ∧ p.active = true ∧
    Holds p (gather (importAll py w'.files (pyFiles.map moduleName) w.modules).2)
  merged : Merged w'.hat
  fresh : ∀ name m, OfPackage dst id pyFiles name → w'.modules.table.get? name = some m →
    Current w'.files w.modules m
  loaded : ∀ m ∈ (importAll py w'.files (pyFiles.map moduleName) w.modules).2, Current w'.files w.modules m
  given : ∀ m ∈ w'.modules.given.drop w.modules.given.length, OfPackage dst id pyFiles m.name →
    Current w'.files w.modules m

theorem load_eq {w : World} {dst : List Str} {id : Str} (h : pyFilesIn (dst ++ [id]) w.files ≠ []) :
    w.load (dst ++ [id]) =
      { w with hat := loadPlugin w.hat id true, pyFiles := w.pyFiles.set id (pyFilesIn (dst ++ [id]) w.files) } := by
  obtain ⟨f, fs, hf⟩ := List.exists_cons_of_ne_nil h
  rw [World.load, hf, List.getLast?_concat]

theorem mem_loadPlugin (s : State) (id : Str) : id ∈ (loadPlugin s id true).plugins :=
  Dict.mem_iff_get?.mpr ⟨_, get?_loadPlugin s id⟩

theorem holds_activate (id : Str) {a : Attempt} (ha : a.returns = true) :
    Holds ((Plugin.new id).activate a).1 a.loaded := by
  rw [Attempt.returns, Bool.and_eq_true, Bool.and_eq_true] at ha
  rw [Plugin.activate, if_neg (by simp [ha]), if_neg (by simp [ha])]
  exact ⟨rfl, rfl, rfl, rfl⟩

section

variable [FastApi] {P : Platform} {py : Python Loaded} {dst : List Str} {w : World} {path : Str} {o : Outside}
  {x : PluginExtractor} {files : Files}

/-- The new plugin after its activation, whatever the callback does. -/
theorem toggle_loaded_spec {s : State} {id : Str} {a : Attempt} {d : Bool} (h : id ∉ s.activePlugins)
    (ha : a.returns = true) :
    let s' := (togglePlugin (loadPlugin s id true) id a d).1
    id ∈ s'.activePlugins ∧ Merged s' ∧
      ∃ p ∈ s'.activeOnes, s'.plugins.get? id = some p ∧ p.id = id ∧ p.active = true ∧ Holds p a.loaded := by
  have hact : id ∉ (loadPlugin s id true).activePlugins := h
  dsimp only
  rw [toggle_of_updated (updated_activated (get?_loadPlugin s id) hact ha d)]
  have hmem : id ∈ s.activePlugins ++ [id] := List.mem_append_right _ (.head _)
  have hid := activate_id (.new id) a
  refine ⟨?_, sync_merged _, ((Plugin.new id).activate a).1, ?_, ?_, hid, activate_active ha, holds_activate id ha⟩
  · rw [sync_activePlugins]
    exact hmem
  · rw [State.activeOnes, sync_plugins, sync_activePlugins, List.mem_filter]
    refine ⟨Dict.mem_values.mpr ⟨id, Dict.get?_set_self ..⟩, decide_eq_true ?_⟩
    rw [hid]
    exact hmem
  · rw [sync_plugins]
    exact Dict.get?_set_self ..

/-- The world with the package extracted and its plugin loaded. -/
def World.loaded (w : World) (dst : List Str) (id : Str) (files : Files) : World where
  hat := loadPlugin w.hat id true
  pyFiles := w.pyFiles.set id (pyFilesIn (dst ++ [id]) files)
  files := files
  modules := w.modules

/-- An installation toggles the plugin that it has loaded. -/
theorem install_eq (hx : PluginExtractor.new P path = some x)
    (hext : x.extract P dst w.files = (files, some (dst ++ [x.id])))
    (hpy : pyFilesIn (dst ++ [x.id]) (remove (packagePath path) files) ≠ []) :
    w.install P py dst path o = (w.loaded dst x.id (remove (packagePath path) files)).toggle py x.id o := by
  simp only [World.install, hx, hext]
  rw [load_eq hpy]
  rfl

/-- The toggle of a loaded plugin that was not active, where nothing raises. -/
theorem toggle_activates (py : Python Loaded) (dst : List Str) (files : Files) {id : Str}
    (hact : id ∉ w.hat.activePlugins) (ho : o.requirements = true ∧ o.settings = true ∧ o.activated = true) :
    let w' := ((w.loaded dst id files).toggle py id o).1
    let (ms, modules) := importAll py files ((pyFilesIn (dst ++ [id]) files).map moduleName) w.modules
    w'.files = files ∧ w'.modules = ms ∧ id ∈ w'.hat.activePlugins ∧ Merged w'.hat ∧
      ∃ p ∈ w'.hat.activeOnes, w'.hat.plugins.get? id = some p ∧ p.id = id ∧ p.active = true ∧
        Holds p (gather modules) := by
  have hpyFiles : ((w.loaded dst id files).pyFiles.get? id).getD [] = pyFilesIn (dst ++ [id]) files := by
    rw [World.loaded, Dict.get?_set_self, Option.getD_some]
  have hcond : id ∈ (w.loaded dst id files).hat.plugins ∧ id ∉ (w.loaded dst id files).hat.activePlugins ∧
      o.requirements = true := ⟨mem_loadPlugin w.hat id, hact, ho.1⟩
  have ha (l : Loaded) : (⟨o.requirements, l, o.settings, o.activated⟩ : Attempt).returns = true := by
    simp [Attempt.returns, ho]
  simp only [World.toggle]
  rw [if_pos hcond, hpyFiles]
  exact ⟨rfl, rfl, toggle_loaded_spec hact (ha _)⟩

/-- The toggle of a loaded plugin that was active deactivates it. -/
theorem toggle_deactivates (py : Python Loaded) (dst : List Str) (files : Files) (o : Outside) {id : Str}
    (hact : id ∈ w.hat.activePlugins) :
    ∀ p, ((w.loaded dst id files).toggle py id o).1.hat.plugins.get? id = some p → p.active = false := by
  have hcond : ¬(id ∈ (w.loaded dst id files).hat.plugins ∧ id ∉ (w.loaded dst id files).hat.activePlugins ∧
      o.requirements = true) := fun h => h.2.1 hact
  simp only [World.toggle]
  rw [if_neg hcond]
  simp only [World.loaded, toggle_of_updated (updated_loaded_active hact)]
  intro p hp
  rw [sync_plugins] at hp
  obtain rfl := Option.some.inj ((Dict.get?_set_self ..).symm.trans hp)
  rfl

end

/-! ## A package with a tool -/

def samplePython : Python Loaded where
  exec _ _ text := .bind { Loaded.empty with tools := if text = "@tool".toList then [0] else [] } (.done true)
  blank := .empty
  limit := 9

def goesWell : Outside := ⟨true, true, true, true⟩

/-- The files with an uploaded package, and what else is in the folder for temporary ones. -/
def uploadedFiles (tmp : List (Str × Files)) : Files :=
  .dir [("tmp".toList, .dir (("tool.zip".toList, .file []) :: tmp)),
    ("plugins".toList, .dir [("weather".toList, weatherPlugin)])]

/-- After the bootstrap with the core plugin alone. -/
def sampleWorld : World where
  hat := (bootstrap [] none [⟨corePlugin, true, ⟨true, .empty, true, true⟩, true⟩]).getD (.blank [] none)
  pyFiles := .empty
  files := uploadedFiles []
  modules := .empty

def sampleInstall (w : World) (o : Outside) : World × Bool :=
  w.install samplePlatform samplePython ["plugins".toList] "/tmp/tool.zip".toList o

/-- The package is uploaded again. -/
def World.upload (w : World) : World :=
  { w with files := (write ["tmp".toList, "tool.zip".toList] (.file []) w.files).getD w.files }

/-- The plugin was installed and deactivated, and the package is there again. -/
def deactivatedWorld : World :=
  ((sampleInstall sampleWorld goesWell).1.toggle samplePython "tool".toList goesWell).1.upload

end KCore.MadHatter
