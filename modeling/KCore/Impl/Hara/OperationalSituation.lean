import KCore.Lib.Dict
import KCore.Lib.Json

/-!
# Custom operational situations (`operational_situation_tool.py`)

The tool that combines basic scenarios by their ids. What `json.loads` and the
first `.get` make of the input is a parameter: a dictionary, or the text of the
exception. The scenarios of the database are its strings that the tool reads;
`none` is an exception that leaves the tool.
-/

namespace KCore.Hara.OperationalSituation

open Text

structure Scenario where
  id : Str
  name : Str
  exposure : Str
  deriving DecidableEq

/-- `operational_situations.json`: the categories with their scenarios. -/
structure SituationsData where
  basicScenarios : Dict Str (List Scenario)

def exposureMap : List (Str × Nat) :=
  [("E0".toList, 0), ("E1".toList, 1), ("E2".toList, 2), ("E3".toList, 3), ("E4".toList, 4)]

def getExposureValue (exposureLevel : Str) : Nat := (Dict.find exposureLevel exposureMap).getD 0

def levelMap : List (Nat × Str) :=
  [(0, "E0".toList), (1, "E1".toList), (2, "E2".toList), (3, "E3".toList), (4, "E4".toList)]

def getExposureLevel (exposureValue : Nat) : Str := (Dict.find exposureValue levelMap).getD "E0".toList

section

variable {N : Type*}

/-- `v == id`. -/
def equals (id : Str) : Json N → Bool
  | .str s => s == id
  | _ => false

/-- `id in scenario_ids`: an element of a list, a part of a text, a key of an object. -/
def isIn (scenarioIds : Json N) (id : Str) : Option Bool :=
  match scenarioIds with
  | .arr vs => some (vs.any (equals id))
  | .str s => some (decide (id <:+: s))
  | .obj es => some (es.any (·.1 == id))
  | _ => none

/-- `if scenario_ids`; a number is truthy where it is not zero. -/
def truthy (isZero : N → Bool) : Json N → Bool
  | .null => false
  | .bool b => b
  | .num n => !isZero n
  | .str s => s != []
  | .arr vs => !vs.isEmpty
  | .obj es => !es.isEmpty

/-- The loop over the scenarios of the categories. -/
def select (scenarioIds : Json N) : List Scenario → Option (List Scenario)
  | [] => some []
  | scenario :: scenarios => (isIn scenarioIds scenario.id).bind fun found =>
    (select scenarioIds scenarios).map fun selected => if found then scenario :: selected else selected

def selectScenarios (scenarioIds : Json N) (data : SituationsData) : Option (List Scenario) :=
  select scenarioIds data.basicScenarios.values.flatten

def calculateCombinedExposure (scenarioIds : Json N) (data : SituationsData) : Option (Str × Str) :=
  (selectScenarios scenarioIds data).map fun scenarios =>
    let exposures := scenarios.map fun scenario => getExposureValue scenario.exposure
    match exposures.min? with
    | none => ("E0".toList, "No valid scenarios found".toList)
    | some minExposureValue =>
      let combinedExposure := getExposureLevel minExposureValue
      (combinedExposure, "Combined exposure calculated as minimum of constituent scenarios: ".toList ++
        join " + ".toList (exposures.map getExposureLevel) ++ " = ".toList ++ combinedExposure)

structure CustomSituation (N : Type*) where
  name : Json N
  componentScenarios : List Scenario
  combinedExposure : Str
  rationale : Str

inductive Answer (N : Type*)
  | error (message : Str)
  | success (customSituation : CustomSituation N)

/-- `custom_operational_situations` of the working memory, after the call, and its answer. -/
def createCustomOperationalSituation (isZero : N → Bool) (data : Option SituationsData)
    (inputData : Except Str (Dict Str (Json N))) (memory : Option (List (CustomSituation N))) :
    Option (Option (List (CustomSituation N)) × Answer N) :=
  match inputData with
  | .error e => some (memory, .error ("Invalid input format: ".toList ++ e))
  | .ok inputData =>
    let scenarioIds := (inputData.get? "scenario_ids".toList).getD (.arr [])
    let customName := (inputData.get? "name".toList).getD (.str "Custom Combined Situation".toList)
    if truthy isZero scenarioIds = false then some (memory, .error "No scenario IDs provided".toList)
    else
      match data with
      | none => some (memory, .error "Could not load operational situations database".toList)
      | some data =>
        (selectScenarios scenarioIds data).bind fun selectedScenarios =>
          if selectedScenarios = [] then some (memory, .error "No valid scenarios found with provided IDs".toList)
          else
            (calculateCombinedExposure scenarioIds data).map fun (combinedExposure, rationale) =>
              let customSituation := ⟨customName, selectedScenarios, combinedExposure, rationale⟩
              (some (memory.getD [] ++ [customSituation]), .success customSituation)

end

end KCore.Hara.OperationalSituation
