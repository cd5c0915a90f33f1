import KCore.Lib.Dict
import KCore.Impl.Utils

/-!
# Conversational forms (`cat_form.py`, `form_agent.py`)

A form collects its data over several turns. `Turn` is what one call of `next`
gets from outside: the LLM's replies, what pydantic makes of the data, and what
`submit` gives; a call that raises leaves the form as it is at that point. `next`
gives the form after the turn, the events of the turn in order, and its output,
`none` where it raises.
-/

namespace KCore.CatForm

open Text

variable {N : Type*}

inductive State
  | incomplete
  | complete
  | waitConfirm
  | closed
  deriving DecidableEq, Repr

/-- The form's fields that a turn changes. -/
structure Form (N : Type*) where
  state : State
  model : Dict Str (Json N)
  errors : List Str
  missingFields : List Str

/-- `CatForm.__init__`. -/
def Form.init : Form N := ⟨.incomplete, .empty, [], []⟩

/-- An entry of `ValidationError.errors()`. -/
structure FieldError where
  loc : List Str
  missing : Bool
  msg : Str

/-- What `model_getter()(**data).model_dump()` comes to. -/
inductive Validation
  | valid
  | errors (es : List FieldError)
  | raises

/-- What the form does to its data and with it, and the turns it does it in. -/
inductive Event (N : Type*)
  | turn (began : State)
  | changed (model : Dict Str (Json N))
  | validated (model : Dict Str (Json N))
  | confirmed
  | submitted (model : Dict Str (Json N))

/-- The form's class: its name, and whether it asks before it submits. -/
structure Class where
  name : Str
  askConfirm : Bool

/-- What a call of `next` gets from outside; `none` where a call raises. -/
structure Turn (N : Type*) where
  confirm : Option Str
  /-- of `check_exit_intent` after a confirm prompt answered with no -/
  exitConfirm : Option Str
  exit : Option Str
  extraction : Option Str
  /-- langchain's JSON parser -/
  parse : Str → Option (Json N)
  validate : Dict Str (Json N) → Validation
  submit : Option Str

/-- `"true" in response.lower()`, in `confirm` and `check_exit_intent`. -/
def agrees (response : Str) : Bool := decide ("true".toList <:+: lower response)

def nullFields : List Str :=
  [[], "None".toList, "null".toList, "lower-case".toList, "unknown".toList, "missing".toList]

/-- `value in null_fields`. -/
def isNullField : Json N → Bool
  | .null => true
  | .str s => decide (s ∈ nullFields)
  | .bool _ | .num _ | .arr _ | .obj _ => false

/-- `none` where the value has no `items`. -/
def sanitize : Json N → Option (Dict Str (Json N))
  | .obj es => some ((es.filter fun e => !isNullField e.2).foldl (fun d e => d.set e.1 e.2) .empty)
  | _ => none

/-- `extract`: a reply that is no JSON counts as an empty object. -/
def extract (t : Turn N) : Option (Json N) :=
  t.extraction.map fun jsonStr => (parseJson t.parse jsonStr).getD (.obj [])

/-- The loop of `validate` over the errors; the flag says that it did not raise. -/
def collectErrors (f : Form N) : List FieldError → Form N × List (Event N) × Bool
  | [] => (f, [], true)
  | e :: es =>
    match e.loc with
    | [] => (f, [], false)
    | fieldName :: _ =>
      if e.missing then collectErrors { f with missingFields := f.missingFields ++ [fieldName] } es
      else
        let f := { f with errors := f.errors ++ [fieldName ++ ": ".toList ++ e.msg] }
        if fieldName ∈ f.model then
          let f := { f with model := f.model.erase fieldName }
          let (f, log, ok) := collectErrors f es
          (f, .changed f.model :: log, ok)
        else (f, [], false)

def validate (t : Turn N) (f : Form N) : Form N × List (Event N) × Bool :=
  let f := { f with missingFields := [], errors := [] }
  match t.validate f.model with
  | .valid => ({ f with state := .complete }, [.validated f.model], true)
  | .raises => (f, [], false)
  | .errors es =>
    let (f, log, ok) := collectErrors f es
    if ok then ({ f with state := .incomplete }, log, true) else (f, log, false)

def update (t : Turn N) (f : Form N) : Form N × List (Event N) × Bool :=
  match (extract t).bind sanitize with
  | none => (f, [], false)
  | some jsonDetails =>
    let f := { f with model := f.model.merge jsonDetails }
    let (f', log, ok) := validate t f
    (f', .changed f.model :: log, ok)

/-! ## Messages -/

section
variable [Numeral N]

def bulleted (title : Str) (lines : List Str) : Str :=
  if lines = [] then [] else title ++ "\n - ".toList ++ join "\n - ".toList lines

def generateBaseMessage (f : Form N) : Str :=
  "Info until now:\n\n```json\n".toList ++ Json.dumpsIndent 0 (.obj f.model.entries) ++ "\n```\n".toList ++
    bulleted "\nMissing fields:".toList f.missingFields ++ "\n".toList ++
    bulleted "\nInvalid fields:".toList f.errors ++ "\n".toList

def message (cls : Class) (f : Form N) : Str :=
  match f.state with
  | .closed => "Form ".toList ++ cls.name ++ " closed".toList
  | .waitConfirm => generateBaseMessage f ++ "\n --> Confirm? Yes or no?".toList
  | .incomplete => generateBaseMessage f
  | .complete => "Invalid state".toList

/-! ## Turns -/

/-- `next` from its second exit check on. -/
def proceed (cls : Class) (t : Turn N) (f : Form N) : Form N × List (Event N) × Option Str :=
  match t.exit with
  | none => (f, [], none)
  | some response =>
    let f := if agrees response then { f with state := .closed } else f
    let (f, log, ok) := if f.state = .incomplete then update t f else (f, [], true)
    if ok then
      if f.state = .complete then
        if cls.askConfirm then
          let f := { f with state := .waitConfirm }
          (f, log, some (message cls f))
        else ({ f with state := .closed }, log ++ [.submitted f.model], t.submit)
      else (f, log, some (message cls f))
    else (f, log, none)

def next (cls : Class) (t : Turn N) (f : Form N) : Form N × List (Event N) × Option Str :=
  if f.state = .waitConfirm then
    match t.confirm with
    | none => (f, [.turn f.state], none)
    | some response =>
      if agrees response then
        ({ f with state := .closed }, [.turn f.state, .confirmed, .submitted f.model], t.submit)
      else
        match t.exitConfirm with
        | none => (f, [.turn f.state], none)
        | some response =>
          let (f', log, out) := proceed cls t { f with state := if agrees response then .closed else .incomplete }
          (f', .turn f.state :: log, out)
  else
    let (f', log, out) := proceed cls t f
    (f', .turn f.state :: log, out)

/-- A form and the events of its turns so far, after one more turn. -/
def step (cls : Class) (s : Form N × List (Event N)) (t : Turn N) : Form N × List (Event N) :=
  let (f, log, _) := next cls t s.1
  (f, s.2 ++ log)

end

end KCore.CatForm
