import KCore.Impl.MadHatter

/-!
# The routes of the plugins (`plugins.py`)

What each request makes the plugin manager do. The settings are kept in the plugin's
folder, which is not part of the manager's state.
-/

namespace KCore.MadHatter

open Text

inductive Request
  | upload (pluginId : Str) (extracted isPlugin : Bool) (activation : Attempt) (deactivation : Bool)
  | toggle (pluginId : Str) (activation : Attempt) (deactivation : Bool)
  | delete (pluginId : Str) (deactivation : Bool) (activation : Attempt)
  | settings (pluginId : Str)

variable [FastApi]

/-- The manager after a request, whatever its answer; where the plugin does not exist that is a 404. -/
def handle (s : State) : Request → State
  | .upload pluginId extracted isPlugin activation deactivation =>
    (installPlugin s pluginId extracted isPlugin activation deactivation).1
  | .toggle pluginId activation deactivation =>
    if pluginId ∈ s.plugins then (togglePlugin s pluginId activation deactivation).1 else s
  | .delete pluginId deactivation activation =>
    if pluginId ∈ s.plugins then (uninstallPlugin s pluginId deactivation activation).1 else s
  | .settings _ => s

end KCore.MadHatter
