import KCore.Lib.Text
import Mathlib.Data.Finset.Image
import Mathlib.Logic.Function.Basic

/-!
# Plugins and their endpoints (`plugin.py`, `endpoint.py`)

A plugin in memory, and the routes of the app that its endpoints register. What
importing the plugin's files gives is `Loaded`; an `Attempt` is one call of
`activate`, with the places where it may raise.
-/

namespace KCore.MadHatter

open Text

/-- An object of a plugin's code, by its identity. -/
abbrev Obj := Nat

structure Hook where
  name : Str
  priority : Int
  function : Obj
  deriving DecidableEq

/-- `name` is the prefix followed by the path. -/
structure CustomEndpoint where
  pluginId : Str
  name : Str
  methods : Finset Str
  obj : Obj
  deriving DecidableEq

/-- Whether the plugin overrides its own activation and deactivation. -/
structure Overrides where
  activated : Bool
  deactivated : Bool
  deriving DecidableEq

structure Plugin where
  id : Str
  hooks : List Hook
  tools : List Obj
  forms : List Obj
  endpoints : List CustomEndpoint
  overrides : Overrides
  active : Bool
  deriving DecidableEq

/-- `Plugin.__init__`: the manifest only. -/
def Plugin.new (id : Str) : Plugin := ⟨id, [], [], [], [], ⟨false, false⟩, false⟩

/-! ## Routes -/

/-- A route of the app; `methods` is `none` for websockets and mounts, which have no such attribute, and `pluginId` is the
plugin that registered it, `none` for the core's own. -/
structure Route where
  path : Str
  methods : Option (Finset Str)
  pluginId : Option Str
  deriving DecidableEq

/-- The app's routes, and the endpoints that know the app (`cheshire_cat_api`). -/
structure App where
  routes : List Route
  bound : Obj → Bool

/-- What the routes have of FastAPI: the methods it keeps of those it is given. -/
class FastApi where
  methods : Finset Str → Finset Str

variable [FastApi]

/-- What `include_router` appends. -/
def CustomEndpoint.route (e : CustomEndpoint) : Route := ⟨e.name, some (FastApi.methods e.methods), some e.pluginId⟩

/-- `api_route.path == self.name and api_route.methods == self.methods`, where that does not raise. -/
def CustomEndpoint.matches (e : CustomEndpoint) (r : Route) : Bool := r.path == e.name && r.methods == some e.methods

/-- Whether the loop over the routes finds one that matches, `none` where it raises at one of the path without methods. -/
def CustomEndpoint.search (e : CustomEndpoint) : List Route → Option Bool
  | [] => some false
  | r :: routes =>
    if r.path = e.name then
      match r.methods with
      | none => none
      | some methods => if methods = e.methods then some true else e.search routes
    else e.search routes

/-- The app after the call, and whether it returned. -/
def CustomEndpoint.activate (e : CustomEndpoint) (app : App) : App × Bool :=
  let app := { app with bound := Function.update app.bound e.obj true }
  match e.search app.routes with
  | none => (app, false)
  | some true => (app, true)
  | some false => ({ app with routes := app.routes ++ [e.route] }, true)

def CustomEndpoint.deactivate (e : CustomEndpoint) (app : App) : App × Bool :=
  if app.bound e.obj then
    match e.search app.routes with
    | none => (app, false)
    | some _ => ({ app with routes := app.routes.eraseP e.matches }, true)
  else (app, true)

/-- A loop over endpoints, which a call that raises ends. -/
def forEachEndpoint (f : CustomEndpoint → App → App × Bool) : List CustomEndpoint → App → App × Bool
  | [], app => (app, true)
  | e :: endpoints, app =>
    match f e app with
    | (app, false) => (app, false)
    | (app, true) => forEachEndpoint f endpoints app

/-! ## Activation -/

/-- What importing the plugin's files gives. -/
structure Loaded where
  hooks : List Hook
  tools : List Obj
  forms : List Obj
  endpoints : List CustomEndpoint
  overrides : Overrides

/-- A call of `activate`: the flags say that installing the requirements, creating the settings and the
`activated` override return. -/
structure Attempt where
  requirements : Bool
  loaded : Loaded
  settings : Bool
  activated : Bool

/-- `_load_decorated_functions`. -/
def Plugin.load (p : Plugin) (l : Loaded) : Plugin :=
  { p with
    hooks := l.hooks
    tools := l.tools
    forms := l.forms
    endpoints := l.endpoints.map fun e => { e with pluginId := p.id }
    overrides := l.overrides }

/-- The plugin after the call, and whether it returned. -/
def Plugin.activate (p : Plugin) (a : Attempt) : Plugin × Bool :=
  if a.requirements = false then (p, false)
  else
    let p := p.load a.loaded
    if a.settings = false then (p, false)
    else
      let p := { p with active := true }
      (p, !p.overrides.activated || a.activated)

/-- The `deactivated` override raises. -/
def Plugin.refuses (p : Plugin) (returns : Bool) : Bool := p.overrides.deactivated && !returns

/-- `_deactivate_endpoints`, up to where it empties the list. -/
def Plugin.deactivateEndpoints (p : Plugin) : App → App × Bool := forEachEndpoint CustomEndpoint.deactivate p.endpoints

/-- The plugin and the app after the call, and whether it returned. -/
def Plugin.deactivate (p : Plugin) (returns : Bool) (app : App) : Plugin × App × Bool :=
  if p.refuses returns then (p, app, false)
  else
    let p := { p with hooks := [], tools := [], forms := [] }
    match p.deactivateEndpoints app with
    | (app, false) => (p, app, false)
    | (app, true) => ({ p with endpoints := [], overrides := ⟨false, false⟩, active := false }, app, true)

end KCore.MadHatter
