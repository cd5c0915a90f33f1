import KCore.Lib.Dict
import KCore.Lib.Markdown

/-!
# The tables of the HARA assistant (`Hara_Assistant_tool.py`, `exposure_assessment_tool.py`)

What the assistant's tools do with the text of a model's reply and of a stored
table: the rows that it takes from a HAZOP reply and numbers (`dataRows`,
`finalRows`), the hazard rows of a table (`hazardRows`), their ASIL classes
(`extractAsilDistribution`, `asilHazards`), the functions of a list
(`parseFunctionsFromText`) and the table in a fenced reply (`unfenced`).
-/

namespace KCore.Hara

open Text Markdown

/-- What the tools take from the Unicode tables: `str.isdigit` and `str.lower`. -/
structure Unicode where
  isDigit : Char → Bool
  lower : Str → Str

/-- The tables, on ASCII texts. -/
def Unicode.ascii : Unicode := ⟨Char.isDigit, List.map Char.toLower⟩

/-! ## Functions -/

/-- The name in a line of the list: what stands before the first colon, after the first dot. -/
def functionName (line : Str) : Str := strip (after '.' (if ':' ∈ line then before ':' line else line))

def parseFunctionsFromText (u : Unicode) (functionsText : Str) : List Str :=
  let lines := split '\n' functionsText
  let functionLines := (lines.filter fun line => strip line != [] && (line.take 3).any u.isDigit).map strip
  let functions := (functionLines.map functionName).filter (· != [])
  if functions = [] then (lines.map strip).filter (· != []) else functions

/-! ## HAZOP replies -/

def headerWords : List Str := ["---".toList, "Function".toList, "Guideword".toList]

/-- `line.startswith('|') and not any(x in line for x in ['---', 'Function', 'Guideword'])`. -/
def isDataRow (line : Str) : Bool :=
  line.head? == some '|' && !headerWords.any fun x => decide (x <:+: line)

/-- The rows that `apply_hazop_analysis` takes from a reply. -/
def dataRows (response : Str) : List Str := (split '\n' (strip response)).filter isDataRow

/-- `| HAZ-{i:03d} | {c₀} | … |`. -/
def hazopLine (i : Nat) (cells : List Str) : Str :=
  "| HAZ-".toList ++ pad 3 i ++ cells.flatMap (" | ".toList ++ ·) ++ " |".toList

/-- The row with its number, `none` for a row of fewer than six cells. -/
def newRow (i : Nat) (row : Str) : Option Str :=
  let content := split '|' (stripChar '|' row)
  if content.length ≥ 6 then some (hazopLine i (content.take 6)) else none

/-- The loop over `enumerate(all_hazop_rows, 1)`. -/
def finalRows (allHazopRows : List Str) : List Str :=
  (allHazopRows.zipIdx 1).filterMap fun (row, i) => newRow i row

def hazopHeader : Str :=
  barred (["ID", "Function", "HAZOP Guideword", "Malfunction", "Hazard", "Severity Class",
    "Rationale for Chosen Severity"].map fun name => ' ' :: (name.toList ++ [' ']))

def hazopSeparator : Str := barred ([4, 10, 18, 13, 8, 16, 31].map (List.replicate · '-'))

/-- The table of the rows as they are stored. -/
def hazopTable (rows : List Str) : Str := join ['\n'] (hazopHeader :: hazopSeparator :: rows)

/-! ## Hazards and their classes -/

/-- `line.strip().startswith('| HAZ-')`. -/
def isHazard (line : Str) : Bool := decide ("| HAZ-".toList <+: strip line)

def hazardRows (table : Str) : List Str := (split '\n' table).filter isHazard

/-- `[A-D]`. -/
def isLevel (c : Char) : Bool := c == 'A' || c == 'B' || c == 'C' || c == 'D'

/-- `ASIL\s*[A-D]` at the beginning of a text: what it matches, and the rest. -/
def matchAsil (s : Str) : Option (Str × Str) :=
  if "ASIL".toList <+: s then
    match (s.drop 4).dropWhile isSpace with
    | c :: t => if isLevel c then some ("ASIL".toList ++ (s.drop 4).takeWhile isSpace ++ [c], t) else none
    | [] => none
  else none

/-- `ASIL\s*[A-D]|QM` at the beginning of a text. -/
def matchClass (s : Str) : Option (Str × Str) :=
  (matchAsil s).or (if "QM".toList <+: s then some ("QM".toList, s.drop 2) else none)

/-- `\|\s*(ASIL\s*[A-D]|QM)\s*\|` at the beginning of a text: its group. -/
def matchCell : Str → Option Str
  | '|' :: t => (matchClass (t.dropWhile isSpace)).bind fun (group, rest) =>
    if (rest.dropWhile isSpace).head? = some '|' then some group else none
  | _ => none

/-- The class under which the loop of `extract_asil_distribution` counts a row. -/
def asilOf (row : Str) : Option Str := (search matchCell row).map strip

/-- One row in the loop of `extract_asil_distribution`. -/
def countRow (asilCounts : Dict Str Nat) (row : Str) : Dict Str Nat :=
  match asilOf row with
  | some asil => asilCounts.set asil ((asilCounts.get? asil).getD 0 + 1)
  | none => asilCounts

/-- Also the loop in `generate_hara_table`. -/
def extractAsilDistribution (haraTable : Str) : Dict Str Nat := (hazardRows haraTable).foldl countRow .empty

/-- The rows that `derive_safety_goals` derives goals for. -/
def asilHazards (haraTable : Str) : List Str :=
  (hazardRows haraTable).filter fun line => (search matchAsil line).isSome

/-! ## Fenced replies -/

/-- The lines from the first to the last that starts with a bar, where a reply begins with a fence. -/
def unfenced (exposureTable : Str) : Str :=
  if "```".toList <+: exposureTable then
    let lines := split '\n' exposureTable
    let isRow := fun line => (strip line).head? == some '|'
    let startIdx := (lines.findIdx? isRow).getD 0
    let endIdx := ((lines.reverse.findIdx? isRow).map (lines.length - 1 - ·)).getD lines.length
    join ['\n'] ((lines.take (endIdx + 1)).drop startIdx)
  else exposureTable

end KCore.Hara
