import KCore.Lib.Dict
import KCore.Lib.Json

/-!
# The list of available plugins (`plugins.get_available_plugins`)

The registry's results, without those that are installed, and the installed plugins that
match the query. A `plugin_url` and a `version` are a text or `None`.
-/

namespace KCore.MadHatter.Registry

open Text

/-- What the registry, or a plugin's `plugin.json`, says of a plugin. -/
abbrev Manifest (N : Type*) := Dict Str (Json N)

/-- What the route reads of an installed plugin. -/
structure Installed (N : Type*) where
  id : Str
  manifest : Manifest N
  hooks : List (Str × N)
  tools : List Str
  endpoints : List (Str × List Str)
  forms : List Str

/-- Python's `str` of a field, and `lower`. -/
structure Texts (N : Type*) where
  str : Json N → Str
  lower : Str → Str

structure Answer (N : Type*) where
  query : Option Str
  installed : List (Manifest N)
  registry : List (Manifest N)

variable {N : Type*}

/-- `m.get(key, None)`. -/
def field (m : Manifest N) (key : Str) : Option Str :=
  match m.get? key with
  | some (.str s) => some s
  | _ => none

def pluginUrl (m : Manifest N) : Option Str := field m "plugin_url".toList

/-- The results by their url; the first of a url is kept. -/
def registryPluginsIndex (registryPlugins : List (Manifest N)) : Dict Str (Manifest N) :=
  registryPlugins.foldl (fun index p =>
    match pluginUrl p with
    | none => index
    | some url => if url ∈ index then index else index.set url p) .empty

def nameObj (name : Str) : Str × Json N := ("name".toList, .str name)

/-- A copy of the manifest, with what the plugin has. -/
def manifestOf (activePlugins : List Str) (p : Installed N) : Manifest N :=
  p.manifest
    |>.set "active".toList (.bool (decide (p.id ∈ activePlugins)))
    |>.set "upgrade".toList .null
    |>.set "hooks".toList (.arr (p.hooks.map fun h => .obj [nameObj h.1, ("priority".toList, .num h.2)]))
    |>.set "tools".toList (.arr (p.tools.map fun name => .obj [nameObj name]))
    |>.set "endpoints".toList
      (.arr (p.endpoints.map fun e => .obj [nameObj e.1, ("tags".toList, .arr (e.2.map .str))]))
    |>.set "forms".toList (.arr (p.forms.map fun name => .obj [nameObj name]))

/-- `query is None or query.lower() in plugin_text`. -/
def matchesQuery (t : Texts N) (query : Option Str) (manifest : Manifest N) : Bool :=
  match query with
  | none => true
  | some query => decide (t.lower query <:+: t.lower (join " ".toList (manifest.values.map t.str)))

/-- `index.pop(url, None)`. -/
def pop (index : Dict Str (Manifest N)) : Option Str → Option (Manifest N) × Dict Str (Manifest N)
  | none => (none, index)
  | some url => (index.get? url, index.erase url)

/-- The manifest with the registry's version, where that is another. -/
def withUpgrade (manifest : Manifest N) (p : Installed N) (r : Option (Manifest N)) : Manifest N :=
  match r.bind fun r => field r "version".toList with
  | none => manifest
  | some version =>
    if some version ≠ field p.manifest "version".toList then manifest.set "upgrade".toList (.str version) else manifest

/-- One turn of the loop over the installed plugins. -/
def listPlugin (t : Texts N) (query : Option Str) (activePlugins : List Str)
    (acc : Dict Str (Manifest N) × List (Manifest N)) (p : Installed N) :
    Dict Str (Manifest N) × List (Manifest N) :=
  let manifest := manifestOf activePlugins p
  let (r, index) := pop acc.1 (pluginUrl manifest)
  if matchesQuery t query manifest then (index, acc.2 ++ [withUpgrade manifest p r]) else (index, acc.2)

def getAvailablePlugins (t : Texts N) (registryPlugins : List (Manifest N)) (activePlugins : List Str)
    (plugins : List (Installed N)) (query : Option Str) : Answer N :=
  let (index, installed) := plugins.foldl (listPlugin t query activePlugins) (registryPluginsIndex registryPlugins, [])
  ⟨query, installed, index.values⟩

end KCore.MadHatter.Registry
