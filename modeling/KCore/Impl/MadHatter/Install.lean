import KCore.Impl.MadHatter
import KCore.Impl.MadHatter.Extractor
import KCore.Lib.ImportSystem

/-!
# Installing a package (`mad_hatter.install_plugin`, `plugin.py`)

The plugin manager with the files on disk and the modules that Python has imported. An
activation imports the plugin's Python files; the names of a module are bound, for a plugin,
to what it loads from the module. Module names and the paths of files are those below the
working directory. What a `settings.json` holds is left out, and imports from elsewhere are
part of what the code of a module does.
-/

namespace KCore.MadHatter

open Text FileTree ImportSystem

/-- The plugin manager, with `py_files` of its plugin objects, the disk and the imported modules. -/
structure World where
  hat : State
  pyFiles : Dict Str (List (List Str))
  files : Files
  modules : Modules Loaded

/-! ## Python files -/

/-- The name matches `*.py`, which hidden ones do not. -/
def isPyFile (name : Str) : Bool := decide (".py".toList <:+ name) && name.head? != some '.'

/-- The Python files directly in a folder with these entries. -/
def pyFilesOf (folder : List Str) (entries : List (Str × Files)) : List (List Str) :=
  entries.filterMap fun
    | (name, .file _) => if isPyFile name then some (folder ++ [name]) else none
    | (_, .dir _) => none

mutual

/-- The Python files in the folders below, which are entered where they are not hidden. -/
def globBelow (folder : List Str) : List (Str × Files) → List (List Str)
  | [] => []
  | entry :: entries => globEntry folder entry ++ globBelow folder entries

def globEntry (folder : List Str) : Str × Files → List (List Str)
  | (name, entry) => globTree folder name entry

def globTree (folder : List Str) (name : Str) : Files → List (List Str)
  | .file _ => []
  | .dir entries =>
    if name.head? = some '.' then []
    else pyFilesOf (folder ++ [name]) entries ++ globBelow (folder ++ [name]) entries

end

/-- `glob("**/*.py", recursive=True)` in a folder with these entries: a folder's own files come first. -/
def globPy (folder : List Str) (entries : List (Str × Files)) : List (List Str) :=
  pyFilesOf folder entries ++ globBelow folder entries

def pyFilesIn (folder : List Str) (fs : Files) : List (List Str) :=
  match lookup folder fs with
  | some (.dir entries) => globPy folder entries
  | _ => []

/-- `py_file.replace(".py", "").replace("/", ".")`, under which a file is imported. -/
def moduleName (pyFile : List Str) : Str :=
  replace "/".toList ".".toList (replace ".py".toList [] (join "/".toList pyFile))

/-- `py_file.replace("/", ".").replace(".py", "")`, under which `deactivate` looks for it. -/
def poppedName (pyFile : List Str) : Str :=
  replace ".py".toList [] (replace "/".toList ".".toList (join "/".toList pyFile))

def Loaded.empty : Loaded := ⟨[], [], [], [], ⟨false, false⟩⟩

def Loaded.append (l l' : Loaded) : Loaded where
  hooks := l.hooks ++ l'.hooks
  tools := l.tools ++ l'.tools
  forms := l.forms ++ l'.forms
  endpoints := l.endpoints ++ l'.endpoints
  overrides := ⟨l.overrides.activated || l'.overrides.activated, l.overrides.deactivated || l'.overrides.deactivated⟩

/-- What a plugin loads from its modules. -/
def gather (modules : List (Module Loaded)) : Loaded := modules.foldr (fun m l => m.names.append l) .empty

/-- `_load_decorated_functions`, which goes on where an import raises. -/
def loadDecoratedFunctions (py : Python Loaded) (fs : Files) (ms : Modules Loaded) (pyFiles : List (List Str)) :
    Modules Loaded × Loaded :=
  let (ms, modules) := importAll py fs (pyFiles.map moduleName) ms
  (ms, gather modules)

/-- The loop of `deactivate`. -/
def removeModules (pyFiles : List (List Str)) (ms : Modules Loaded) : Modules Loaded :=
  pyFiles.foldl (fun ms pyFile => ms.pop (poppedName pyFile)) ms

/-! ## Calls -/

/-- How what is outside goes: installing the requirements, creating the settings, the plugin's own `activated` and
`deactivated`. -/
structure Outside where
  requirements : Bool
  settings : Bool
  activated : Bool
  deactivated : Bool

variable [FastApi]

def World.toggle (py : Python Loaded) (w : World) (pluginId : Str) (o : Outside) : World × Bool :=
  let pyFiles := (w.pyFiles.get? pluginId).getD []
  if pluginId ∈ w.hat.plugins ∧ pluginId ∉ w.hat.activePlugins ∧ o.requirements = true then
    let (modules, loaded) := loadDecoratedFunctions py w.files w.modules pyFiles
    let (hat, returned) := togglePlugin w.hat pluginId ⟨o.requirements, loaded, o.settings, o.activated⟩ o.deactivated
    ({ w with hat := hat, modules := modules }, returned)
  else
    let (hat, returned) := togglePlugin w.hat pluginId ⟨o.requirements, .empty, o.settings, o.activated⟩ o.deactivated
    -- the modules are removed after the override, whatever becomes of the endpoints
    let deactivates := pluginId ∈ w.hat.activePlugins ∧ ∃ p ∈ w.hat.plugins.get? pluginId, p.refuses o.deactivated = false
    ({ w with hat := hat, modules := if deactivates then removeModules pyFiles w.modules else w.modules }, returned)

/-- `load_plugin`: a new plugin object, if the folder has Python files. -/
def World.load (w : World) (folder : List Str) : World :=
  match pyFilesIn folder w.files, folder.getLast? with
  | pyFile :: pyFiles, some pluginId =>
    { w with hat := loadPlugin w.hat pluginId true, pyFiles := w.pyFiles.set pluginId (pyFile :: pyFiles) }
  | _, _ => w

/-- The path of a package. -/
def packagePath (path : Str) : List Str := (split '/' path).filter (· ≠ [])

/-- The world after the call, and whether it returned. -/
def World.install (P : Platform) (py : Python Loaded) (dst : List Str) (w : World) (path : Str) (o : Outside) :
    World × Bool :=
  match PluginExtractor.new P path with
  | none => (w, false)
  | some x =>
    match x.extract P dst w.files with
    | (files, none) => ({ w with files := files }, false)
    | (files, some folder) =>
      let w := { w with files := remove (packagePath path) files }
      -- `os.path.basename` of the joined path is the id, also where that is empty
      (w.load folder).toggle py x.id o

end KCore.MadHatter
