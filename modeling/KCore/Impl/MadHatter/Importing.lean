import Mathlib.Data.List.Lex
import Mathlib.Data.Char
import KCore.Impl.MadHatter.Install

/-!
# The decorated objects of a plugin (`plugin.py`)

Which objects `_load_decorated_functions` finds in the modules that it has imported.
-/

namespace KCore.MadHatter.Importing

open Text

/-! ## Decorated objects -/

/-- What an object is: made by a decorator, or any other. -/
inductive Decorated
  | hook (h : Hook)
  | tool
  | form
  | endpoint (e : CustomEndpoint)
  | override (name : Str)
  | other

/-- The names of a module and the objects they are bound to. -/
abbrev Namespace := Dict Str Obj

variable (objects : Obj → Decorated)

def isCatHook (o : Obj) : Bool := match objects o with | .hook _ => true | _ => false

def isCatTool (o : Obj) : Bool := match objects o with | .tool => true | _ => false

def isCatForm (o : Obj) : Bool := match objects o with | .form => true | _ => false

def isCustomEndpoint (o : Obj) : Bool := match objects o with | .endpoint _ => true | _ => false

def isCatPluginOverride (o : Obj) : Bool := match objects o with | .override _ => true | _ => false

/-- `getmembers`: the names in order, with their objects. -/
def getmembers (pluginModule : Namespace) (p : Obj → Bool) : List (Str × Obj) :=
  (pluginModule.entries.mergeSort fun m m' => m.1 ≤ m'.1).filter fun m => p m.2

/-- The lists of `_load_decorated_functions`. -/
structure Members where
  hooks : List (Str × Obj)
  tools : List (Str × Obj)
  forms : List (Str × Obj)
  endpoints : List (Str × Obj)
  overrides : List (Str × Obj)

/-- The loop of `_load_decorated_functions`; `imported` is the module of a name, `none` where the import raises. -/
def loadDecoratedFunctions (imported : Str → Option Namespace) (pyFiles : List (List Str)) : Members :=
  pyFiles.foldl (fun m pyFile =>
    match imported (moduleName pyFile) with
    | none => m
    | some pluginModule =>
      { hooks := m.hooks ++ getmembers pluginModule (isCatHook objects)
        tools := m.tools ++ getmembers pluginModule (isCatTool objects)
        forms := m.forms ++ getmembers pluginModule (isCatForm objects)
        endpoints := m.endpoints ++ getmembers pluginModule (isCustomEndpoint objects)
        overrides := m.overrides ++ getmembers pluginModule (isCatPluginOverride objects) })
    ⟨[], [], [], [], []⟩

/-- The objects of the lists: `_clean_hook`, `_clean_tool`, `_clean_form`, `_clean_endpoint` and
`_clean_plugin_override`. -/
def Members.loaded (m : Members) : Loaded where
  hooks := m.hooks.filterMap fun h => match objects h.2 with | .hook h => some h | _ => none
  tools := m.tools.map Prod.snd
  forms := m.forms.map Prod.snd
  endpoints := m.endpoints.filterMap fun e => match objects e.2 with | .endpoint f => some { f with obj := e.2 } | _ => none
  overrides :=
    let names := m.overrides.filterMap fun o => match objects o.2 with | .override name => some name | _ => none
    ⟨"activated".toList ∈ names, "deactivated".toList ∈ names⟩

end KCore.MadHatter.Importing
