import KCore.Lib.Dict
import KCore.Lib.Formatter
import KCore.Lib.Json

/-!
# Utilities (`utils.py`)

`parse_json`, called without a pydantic model, and `match_prompt_variables`.
langchain's `JsonOutputParser` and `PromptTemplate` are parameters: what they
make of a text, or `none` where they raise.
-/

namespace KCore

open Text

variable {N : Type*}

/-- The replacements that help small LLMs. -/
def replaces : List (Str × Str) :=
  [("\\_".toList, "_".toList), ("\\-".toList, "-".toList), ("None".toList, "null".toList),
    ("\x7b\x7b".toList, "\x7b".toList), ("\x7d\x7d".toList, "\x7d".toList)]

def cleaned (jsonString : Str) : Str := replaces.foldl (fun s kv => replace kv.1 kv.2 s) jsonString

/-- `none` where the code raises: no brace, or a text that the parser refuses. -/
def parseJson (parse : Str → Option (Json N)) (jsonString : Str) : Option (Json N) :=
  let jsonString := cleaned jsonString
  match find "\x7b".toList jsonString with
  | none => none
  | some startIndex => parse (jsonString.drop startIndex)

/-- `inputVariables` is what `PromptTemplate.from_template` finds in a template, and `order` the order in which
the members of a set come. -/
def matchPromptVariables {V : Type*} (inputVariables : Str → Option (List Str)) (order : List Str → List Str)
    (promptVariables : Dict Str V) (promptTemplate : Str) : Option (Dict Str V × Str) :=
  (inputVariables promptTemplate).map fun vs =>
    -- outer set difference
    let promptMismatches := order
      (promptVariables.keys.filter (· ∉ vs) ++ vs.dedup.filter (· ∉ promptVariables.keys))
    promptMismatches.foldl (fun r m =>
      (if m ∈ r.1.keys then r.1.erase m else r.1,
        if m ∈ vs then replace ("\x7b".toList ++ m ++ "\x7d".toList) [] r.2 else r.2))
      (promptVariables, promptTemplate)

end KCore
