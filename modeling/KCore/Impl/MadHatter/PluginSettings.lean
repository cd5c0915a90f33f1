import KCore.Lib.Dict
import KCore.Lib.JsonReader

/-!
# Settings of a plugin (`plugin.py`)

A plugin keeps its settings in a file of its folder, `settings.json`, as long as it does not
override how they are loaded and saved. `defaults` is what the settings model writes for
its default values, `none` where some field has none; the model of an inactive plugin is
not known, and an empty one stands for it.
-/

namespace KCore.MadHatter.PluginSettings

open Text

/-- What becomes of a write: `open` raises, or it is cut off by an error after `n` characters. -/
inductive Disk
  | refuses
  | cut (n : ℕ)
  | works
  deriving DecidableEq

/-- Python's dictionaries. -/
abbrev PyDict (N : Type*) [DecidableEq N] := Dict (Py.Key N) (Py.Value N)

/-- `_create_settings_from_model`: the file after the call, and what it returns, `none` where it raises. -/
def createSettingsFromModel (defaults : Option Str) (disk : Disk) (file : Option Str) : Option Str × Option Bool :=
  match defaults with
  | none => (file, some false)
  | some settings =>
    match file, disk with
    | some text, _ => (some text, none)
    | none, .refuses => (none, none)
    | none, .cut n => (some (settings.take n), none)
    | none, .works => (some settings, some true)

variable {N : Type*} [Numeral N] [DecidableEq N] (reader : Json.Reader N)

omit [DecidableEq N] in
/-- `load_settings`: the file after the call, and what it returns, `none` where it raises. -/
def loadSettings (defaults : Option Str) (disk : Disk) (file : Option Str) : Option Str × Option (Json N) :=
  match file with
  | some text => (some text, reader.loads text)
  | none =>
    match createSettingsFromModel defaults disk none with
    | (file, none) => (file, none)
    | (file, some false) => (file, some (.obj []))
    | (file, some true) => (file, file.bind reader.loads)

/-- `{**old_settings}`. -/
def oldSettings (es : List (Str × Json N)) : PyDict N :=
  es.foldl (fun d e => d.set (.str e.1) (Py.ofJson e.2)) .empty

/-- `save_settings`: the file after the call, and what it returns, `none` where it raises. -/
def saveSettings (defaults : Option Str) (creating saving : Disk) (file : Option Str) (settings : PyDict N) :
    Option Str × Option (PyDict N) :=
  match loadSettings reader defaults creating file with
  | (file, some (.obj es)) =>
    let updatedSettings := (oldSettings es).merge settings
    let (text, ok) := Py.dump 0 (.obj updatedSettings.entries)
    match saving with
    | .refuses => (file, some .empty)
    | .cut n => (some (text.take n), some .empty)
    | .works => (some text, some (if ok then updatedSettings else .empty))
  | (file, _) => (file, none)

/-! ## The life of a plugin -/

/-- What a plugin is to its settings: the file, whether its code is loaded, and whether it is active. -/
structure Plugin where
  file : Option Str
  loaded : Bool
  active : Bool
  deriving DecidableEq

/-- Settings that are saved: a dictionary with texts as its keys, and JSON values. -/
structure Settings (N : Type*) where
  dict : Dict Str (Json N)
  wf : ∀ v ∈ dict.values, v.WF

/-- Calls on the plugin; the flags say that installing the requirements and the `deactivated` override return. -/
inductive Call (N : Type*)
  | load
  | save (settings : Settings N)
  | activate (installs : Bool)
  | deactivate (returns : Bool)

omit [Numeral N] in
/-- The settings as they are passed. -/
def Settings.toPy (settings : Settings N) : PyDict N :=
  settings.dict.entries.foldl (fun d e => d.set (.str e.1) (Py.ofJson e.2)) .empty

/-- What `settings_model()` writes for its defaults. -/
def Plugin.defaults (model : Option Str) (p : Plugin) : Option Str :=
  if p.loaded then model else some "\x7b\x7d".toList

def Plugin.activate (model : Option Str) (p : Plugin) (installs : Bool) : Plugin :=
  if installs then
    let file := match p.file with
      | some text => some text
      | none => (createSettingsFromModel model .works none).1
    ⟨file, true, true⟩
  else p

def Plugin.deactivate (p : Plugin) (returns : Bool) : Plugin :=
  if returns then { p with loaded := false, active := false } else p

/-- The plugin after a call, on a disk that works. -/
def step (model : Option Str) (p : Plugin) : Call N → Plugin
  | .load => { p with file := (loadSettings reader (p.defaults model) .works p.file).1 }
  | .save settings =>
    { p with file := (saveSettings reader (p.defaults model) .works .works p.file settings.toPy).1 }
  | .activate installs => p.activate model installs
  | .deactivate returns => p.deactivate returns

end KCore.MadHatter.PluginSettings
