import KCore.Impl.Hara.Tables

/-!
# The tools of the HARA assistant (`Hara_Assistant_tool.py`, `exposure_assessment_tool.py`)

The five steps of the assistant over the working memory that they share. A call of
the language model is what it gives, `none` where it raises; the texts of the
prompts, and of the answers beyond the values in them, are left out. `Call` is one
call of a tool with what it gets from outside, `step` the memory after it and the
answer.
-/

namespace KCore.Hara

open Text

inductive Stage
  | functionsExtracted
  | hazopCompleted
  | exposureAssessed
  | tableGenerated
  | safetyGoalsDerived
  deriving DecidableEq, Repr

/-- The keys of the working memory that the tools read and write. -/
structure Memory where
  haraItemName : Option Str
  itemFunctions : Option Str
  itemDefinitionContent : Option Str
  hazopAnalysis : Option Str
  exposureAssessments : Option Str
  haraTable : Option Str
  safetyGoals : Option Str
  haraStage : Option Stage
  systemName : Option Str
  documentType : Option Str
  deriving DecidableEq

/-- A working memory without HARA data. -/
def Memory.init : Memory := ⟨none, none, none, none, none, none, none, none, none, none⟩

/-- `working_memory.get(key, "")`. -/
def text (value : Option Str) : Str := value.getD []

def unknownItem : Str := "Unknown Item".toList

/-! ## Item definitions -/

/-- A file of a search folder: its text, or that of its pages, `none` where reading it raises. -/
structure File where
  name : Str
  content : Option Str

/-- The search folders in order, `none` for one that does not exist; and whether PDFs can be read. -/
structure Folders where
  searchPaths : List (Option (List File))
  pdfAvailable : Bool

def isText (u : Unicode) (f : File) : Bool :=
  [".txt".toList, ".md".toList].any fun e => decide (e <:+ u.lower f.name)

def isPdf (u : Unicode) (f : File) : Bool := decide (".pdf".toList <:+ u.lower f.name)

/-- `item_name.lower() in content.lower()`. -/
def mentions (u : Unicode) (itemName content : Str) : Bool := decide (u.lower itemName <:+: u.lower content)

/-- What the search returns at a file: a text whatever it says, a PDF if it mentions the item. -/
def checkFile (u : Unicode) (pdfAvailable : Bool) (itemName : Str) (f : File) : Option Str :=
  if isText u f then f.content
  else if pdfAvailable && isPdf u f then f.content.filter (mentions u itemName)
  else none

def Folders.existing (fs : Folders) : List (List File) := fs.searchPaths.filterMap id

/-- For every file of every folder, the source goes through all files of all folders. -/
def Folders.search (u : Unicode) (fs : Folders) (itemName : Str) : Option Str :=
  fs.existing.findSome? fun files => files.findSome? fun _ =>
    fs.existing.findSome? fun files => files.findSome? (checkFile u fs.pdfAvailable itemName)

def findItemDefinition (u : Unicode) (m : Memory) (fs : Folders) (itemName : Str) : Option Str :=
  match m.itemDefinitionContent with
  | some content => some content
  | none => fs.search u itemName

/-! ## The tools -/

inductive ToolInput
  | text (s : Str)
  | dict (itemName focusFunction : Option Str)
  | other

inductive Answer
  | noItemDefinition (itemName : Str)
  | functionsExtracted (itemName functionsList : Str)
  | noFunctions
  | noGuideWords
  | functionsNotParsed
  | noHazopResults
  | hazopCompleted (itemName fullTable : Str) (hazards functions : Nat)
  | noHazop
  | noSituations
  | noHazards
  | exposureAssessed (itemName exposureTable : Str) (hazards assessed : Nat)
  | noExposure
  | tableGenerated (itemName haraTable : Str) (hazards : Nat) (asilCounts : Dict Str Nat)
  | noTable
  | noSafetyGoalsNeeded
  | safetyGoalsDerived (itemName safetyGoals : Str) (asilHazards : Nat)
  /-- the model raised, or the tool itself -/
  | failed
  deriving DecidableEq

def itemNameOf : ToolInput → Str
  | .text s => strip s
  | .dict itemName _ => itemName.getD "Unknown System".toList
  | .other => "Unknown System".toList

/-- Step 1. -/
def extractFunctions (u : Unicode) (m : Memory) (toolInput : ToolInput) (fs : Folders) (llm : Option Str) :
    Memory × Answer :=
  let itemName := itemNameOf toolInput
  let itemDefContent := text (findItemDefinition u m fs itemName)
  if itemDefContent = [] then (m, .noItemDefinition itemName)
  else
    match llm with
    | none => (m, .failed)
    | some reply =>
      let functionsList := strip reply
      ({ m with
          haraItemName := some itemName
          itemFunctions := some functionsList
          itemDefinitionContent := some itemDefContent
          haraStage := some .functionsExtracted },
        .functionsExtracted itemName functionsList)

/-- The function that the input asks for. -/
def focusFunction : ToolInput → Option Str
  | .text s => if strip s = [] then none else some (strip s)
  | .dict _ focus => focus.filter (· != [])
  | .other => none

/-- `functions_to_process`. -/
def functionsToProcess (toolInput : ToolInput) (functions : List Str) : List Str :=
  ((focusFunction toolInput).map ([·])).getD functions

/-- Step 2; `llm i` is the reply for the `i`-th function. -/
def applyHazopAnalysis (u : Unicode) (m : Memory) (toolInput : ToolInput) (guideWords : Bool)
    (llm : Nat → Option Str) : Memory × Answer :=
  let functionsText := text m.itemFunctions
  let itemName := m.haraItemName.getD "the system".toList
  if functionsText = [] then (m, .noFunctions)
  else if guideWords = false then (m, .noGuideWords)
  else
    let functions := parseFunctionsFromText u functionsText
    if functions = [] then (m, .functionsNotParsed)
    else
      let functions := functionsToProcess toolInput functions
      let allHazopRows := functions.zipIdx.flatMap fun (_, i) => ((llm i).map dataRows).getD []
      if allHazopRows = [] then (m, .noHazopResults)
      else
        let rows := finalRows allHazopRows
        let fullTable := hazopTable rows
        ({ m with
            hazopAnalysis := some fullTable
            haraStage := some .hazopCompleted
            systemName := some itemName },
          .hazopCompleted itemName fullTable rows.length functions.length)

/-- The operational situations: the file missing or empty, without `basic_scenarios`, or as expected. -/
inductive Situations
  | unavailable
  | incomplete
  | loaded
  deriving DecidableEq

/-- Step 3. -/
def assessExposureForAllHazards (m : Memory) (situations : Situations) (llm : Option Str) : Memory × Answer :=
  let hazopAnalysis := text m.hazopAnalysis
  let itemName := m.haraItemName.getD "the system".toList
  if hazopAnalysis = [] then (m, .noHazop)
  else if situations = .unavailable then (m, .noSituations)
  else if hazardRows hazopAnalysis = [] then (m, .noHazards)
  else if situations = .incomplete then (m, .failed)
  else
    match llm with
    | none => (m, .failed)
    | some reply =>
      let exposureTable := unfenced (strip reply)
      ({ m with
          exposureAssessments := some exposureTable
          haraStage := some .exposureAssessed },
        .exposureAssessed itemName exposureTable (hazardRows hazopAnalysis).length (hazardRows exposureTable).length)

/-- Step 4. -/
def generateHaraTable (m : Memory) (llm : Option Str) : Memory × Answer :=
  if text m.hazopAnalysis = [] then (m, .noHazop)
  else if text m.exposureAssessments = [] then (m, .noExposure)
  else
    let itemName := m.haraItemName.getD unknownItem
    match llm with
    | none => (m, .failed)
    | some reply =>
      let haraTable := strip reply
      ({ m with
          documentType := some "hara".toList
          haraTable := some haraTable
          haraStage := some .tableGenerated
          systemName := some itemName },
        .tableGenerated itemName haraTable (hazardRows haraTable).length (extractAsilDistribution haraTable))

/-- Step 5. -/
def deriveSafetyGoals (m : Memory) (llm : Option Str) : Memory × Answer :=
  let haraTable := text m.haraTable
  if haraTable = [] then (m, .noTable)
  else
    let itemName := m.haraItemName.getD unknownItem
    let hazards := asilHazards haraTable
    if hazards = [] then (m, .noSafetyGoalsNeeded)
    else
      match llm with
      | none => (m, .failed)
      | some reply =>
        let safetyGoals := strip reply
        ({ m with
            safetyGoals := some safetyGoals
            haraStage := some .safetyGoalsDerived },
          .safetyGoalsDerived itemName safetyGoals hazards.length)

/-! ## Calls -/

/-- A call of a tool, with the files and the replies it meets. -/
inductive Call
  | extractFunctions (toolInput : ToolInput) (fs : Folders) (llm : Option Str)
  | applyHazopAnalysis (toolInput : ToolInput) (guideWords : Bool) (llm : Nat → Option Str)
  | assessExposureForAllHazards (situations : Situations) (llm : Option Str)
  | generateHaraTable (llm : Option Str)
  | deriveSafetyGoals (llm : Option Str)

def step (u : Unicode) (m : Memory) : Call → Memory × Answer
  | .extractFunctions toolInput fs llm => extractFunctions u m toolInput fs llm
  | .applyHazopAnalysis toolInput guideWords llm => applyHazopAnalysis u m toolInput guideWords llm
  | .assessExposureForAllHazards situations llm => assessExposureForAllHazards m situations llm
  | .generateHaraTable llm => generateHaraTable m llm
  | .deriveSafetyGoals llm => deriveSafetyGoals m llm

end KCore.Hara
