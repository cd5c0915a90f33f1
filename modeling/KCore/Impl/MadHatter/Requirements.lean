import KCore.Lib.Text

/-!
# A plugin's requirements (`plugin.py`)

`_install_requirements`. The parser of requirement lines (`packaging`) and `pip`
are parameters: the name in a line, `none` where `Requirement` raises, and
whether `pip install` of a file with this text succeeds.
-/

namespace KCore.MadHatter

open Text

/-- The loop over the lines, which the first line that `Requirement` refuses ends. -/
def filteredRequirements (requirementName : Str → Option Str) (installedPackages : List Str) : List Str → List Str
  | [] => []
  | req :: requirements =>
    match requirementName req with
    | none => []
    | some packageName =>
      if packageName ∉ installedPackages then
        req :: filteredRequirements requirementName installedPackages requirements
      else filteredRequirements requirementName installedPackages requirements

/-- The lines of `requirements.txt` that are passed to `pip install`, `none` where the call raises. -/
def installRequirements (requirementName : Str → Option Str) (pip : Str → Bool) (installedPackages : List Str)
    (reqFile : Option (List Str)) : Option (List Str) :=
  match reqFile with
  | none => some []
  | some requirements =>
    let filtered := filteredRequirements requirementName installedPackages requirements
    if filtered.length = 0 then some []
    else if pip filtered.flatten then some filtered else none

end KCore.MadHatter
