import KCore.Lib.Dict
import KCore.Impl.MadHatter.Plugin
import Mathlib.Data.List.Dedup

/-!
# The plugin manager (`mad_hatter.py`, `cheshire_cat.py`)

The plugins, which of them are active, in memory and in the settings DB, and the
merged lists of their hooks, tools, forms and endpoints. A call takes what it
meets outside (the folders on disk, and how each activation and deactivation
goes) and gives the state after it and whether it returned.
-/

namespace KCore.MadHatter

open Text

variable [FastApi]

structure State where
  plugins : Dict Str Plugin
  hooks : Dict Str (List Hook)
  tools : List Obj
  forms : List Obj
  endpoints : List CustomEndpoint
  activePlugins : List Str
  /-- the setting `active_plugins` -/
  db : Option (List Str)
  app : App
  /-- the cat's callback is attached -/
  callback : Bool

def corePlugin : Str := "core_plugin".toList

/-- Before the plugins are looked for. -/
def State.blank (routes : List Route) (db : Option (List Str)) : State :=
  ⟨.empty, .empty, [], [], [], [], db, ⟨routes, fun _ => false⟩, false⟩

/-! ## The merged lists -/

/-- The active plugins, in the order of the dictionary. -/
def State.activeOnes (s : State) : List Plugin := s.plugins.values.filter fun p => p.id ∈ s.activePlugins

def addHook (hooks : Dict Str (List Hook)) (h : Hook) : Dict Str (List Hook) :=
  hooks.set h.name ((hooks.get? h.name).getD [] ++ [h])

/-- `sort(key=priority, reverse=True)`. -/
def sortHooks (hooks : List Hook) : List Hook := hooks.mergeSort fun h h' => h'.priority ≤ h.priority

/-- `CheshireCat.activate_endpoints`, and whether it returned. -/
def activateEndpoints (s : State) : State × Bool :=
  let (app, returned) := forEachEndpoint (fun e app => if e.pluginId ∈ s.activePlugins then e.activate app else (app, true))
    s.endpoints s.app
  ({ s with app := app }, returned)

/-- The state after the call, and whether the callback returned. -/
def syncHooksToolsAndForms (s : State) : State × Bool :=
  let ps := s.activeOnes
  let s := { s with
    tools := ps.flatMap Plugin.tools
    forms := ps.flatMap Plugin.forms
    endpoints := ps.flatMap Plugin.endpoints
    hooks := ((ps.flatMap Plugin.hooks).foldl addHook .empty).mapValues sortHooks }
  if s.callback then activateEndpoints s else (s, true)

/-! ## The settings DB -/

/-- The persisted list, with the core plugin if it is not in it. -/
def loadActivePluginsFromDb (db : Option (List Str)) : List Str :=
  let activePlugins := db.getD []
  if corePlugin ∈ activePlugins then activePlugins else activePlugins ++ [corePlugin]

/-- The order of `list(set(…))` is that of no list here. -/
def saveActivePluginsToDb (s : State) : State := { s with db := some s.activePlugins.dedup }

/-! ## The calls -/

/-- `toggle_plugin` up to the new list of active plugins, and whether it comes there. -/
def updateActivePlugins (s : State) (pluginId : Str) (activation : Attempt) (deactivation : Bool) : State × Bool :=
  match s.plugins.get? pluginId with
  | none => (s, false)
  | some p =>
    if pluginId ∈ s.activePlugins then
      let (p, app, returned) := p.deactivate deactivation s.app
      let s := { s with plugins := s.plugins.set pluginId p, app := app }
      if returned then ({ s with activePlugins := s.activePlugins.erase pluginId }, true) else (s, false)
    else
      let (p, returned) := p.activate activation
      let s := { s with plugins := s.plugins.set pluginId p }
      if returned then ({ s with activePlugins := s.activePlugins ++ [pluginId] }, true) else (s, false)

def togglePlugin (s : State) (pluginId : Str) (activation : Attempt) (deactivation : Bool) : State × Bool :=
  match updateActivePlugins s pluginId activation deactivation with
  | (s, false) => (s, false)
  | (s, true) => syncHooksToolsAndForms (saveActivePluginsToDb s)

/-- A new plugin object, if the folder is a plugin's. -/
def loadPlugin (s : State) (pluginId : Str) (isPlugin : Bool) : State :=
  if isPlugin then { s with plugins := s.plugins.set pluginId (.new pluginId) } else s

/-- The package is extracted over the plugin's folder, or the extractor raises. -/
def installPlugin (s : State) (pluginId : Str) (extracted isPlugin : Bool) (activation : Attempt)
    (deactivation : Bool) : State × Bool :=
  if extracted then togglePlugin (loadPlugin s pluginId isPlugin) pluginId activation deactivation else (s, false)

def uninstallPlugin (s : State) (pluginId : Str) (deactivation : Bool) (activation : Attempt) : State × Bool :=
  if pluginId ∈ s.plugins ∧ pluginId ≠ corePlugin then
    let (s, returned) :=
      if pluginId ∈ s.activePlugins then togglePlugin s pluginId activation deactivation else (s, true)
    if returned then ({ s with plugins := s.plugins.erase pluginId }, true) else (s, false)
  else (s, true)

/-- A folder that `find_plugins` meets, and how the activation of its plugin goes; a deactivation
follows an activation that raises. -/
structure Folder where
  id : Str
  isPlugin : Bool
  activation : Attempt
  deactivation : Bool

/-- The loop of `find_plugins`, which an activation that raises ends. -/
def discover (s : State) : List Folder → State × Bool
  | [] => (s, true)
  | f :: folders =>
    let s := loadPlugin s f.id f.isPlugin
    if f.id ∈ s.activePlugins then
      match s.plugins.get? f.id with
      | none => ((togglePlugin s f.id f.activation f.deactivation).1, false)
      | some p =>
        let (p, returned) := p.activate f.activation
        let s := { s with plugins := s.plugins.set f.id p }
        if returned then discover s folders
        else ((togglePlugin s f.id f.activation f.deactivation).1, false)
    else discover s folders

def findPlugins (s : State) (folders : List Folder) : State × Bool :=
  let s := { s with plugins := .empty, activePlugins := loadActivePluginsFromDb s.db }
  let (s, returned) := discover s folders
  if returned then syncHooksToolsAndForms s else (s, false)

/-- `CheshireCat.__init__` attaches its callback and calls it. -/
def attachCallback (s : State) : State × Bool := activateEndpoints { s with callback := true }

/-- A call, with what it meets outside. -/
inductive Call
  | install (pluginId : Str) (extracted isPlugin : Bool) (activation : Attempt) (deactivation : Bool)
  | toggle (pluginId : Str) (activation : Attempt) (deactivation : Bool)
  | uninstall (pluginId : Str) (deactivation : Bool) (activation : Attempt)
  | find (folders : List Folder)
  | attach

/-- The state after a call, whether it returned or raised. -/
def step (s : State) : Call → State
  | .install pluginId extracted isPlugin activation deactivation =>
    (installPlugin s pluginId extracted isPlugin activation deactivation).1
  | .toggle pluginId activation deactivation => (togglePlugin s pluginId activation deactivation).1
  | .uninstall pluginId deactivation activation => (uninstallPlugin s pluginId deactivation activation).1
  | .find folders => (findPlugins s folders).1
  | .attach => (attachCallback s).1

/-- `CheshireCat.__init__`: the plugins are found, and the callback is attached; `none` where one of them raises. -/
def bootstrap (routes : List Route) (db : Option (List Str)) (folders : List Folder) : Option State :=
  match findPlugins (.blank routes db) folders with
  | (_, false) => none
  | (s, true) =>
    match attachCallback s with
    | (_, false) => none
    | (s, true) => some s

end KCore.MadHatter
