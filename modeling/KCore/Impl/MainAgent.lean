import KCore.Impl.VectorMemory.Points
import Mathlib.Data.List.DropRight

/-!
# The input of the agent (`main_agent.py`, `working_memory.py`, `utils.py`)

What a conversation turn makes of the payloads that it has recalled: documents, and
from these the text for the prompt. `none` is an exception.
-/

namespace KCore.MainAgent

open Text VectorMemory MemoryPoints

structure TimeDelta where
  days : Int
  seconds : Nat

/-- What is used of Python and of langchain. -/
structure Platform (N : Type*) where
  /-- the numbers that `time.time()` gives -/
  isTime : N → Prop
  exists_time : ∃ t, isTime t
  /-- `timedelta(seconds=now - timestamp)` -/
  timedelta : N → N → Option TimeDelta
  timedelta_time : ∀ {now t}, isTime now → isTime t → (timedelta now t).isSome
  /-- `str(value)` -/
  str : Json N → Str
  /-- The two fields of a `Document`, none for a value that they do not take. -/
  pageContent : Json N → Option Str
  metadata : Json N → Option (List (Str × Json N))
  pageContent_str : ∀ s, pageContent (.str s) = some s
  metadata_obj : ∀ es, metadata (.obj es) = some es

variable {N : Type*} [Zero N] [One N] [DecidableEq N]

/-- A reading of the clock. -/
def Platform.Time (p : Platform N) : Type _ := {t : N // p.isTime t}

structure Document (N : Type*) where
  pageContent : Str
  metadata : List (Str × Json N)

/-- The payload of a point, as the database keeps it. -/
structure Payload (N : Type*) where
  pageContent : Json N
  metadata : Json N

variable (p : Platform N)

/-- The `Document` of `recall_memories_from_embedding`. -/
def toDocument (payload : Payload N) : Option (Document N) :=
  (p.pageContent payload.pageContent).bind fun pageContent =>
    (p.metadata (if truthy payload.metadata then payload.metadata else .obj [])).map fun metadata =>
      ⟨pageContent, metadata⟩

/-! ## `utils.py` -/

def decInt (n : Int) : Str := if n < 0 then '-' :: dec n.natAbs else dec n.natAbs

def verbalTimedelta (td : TimeDelta) : Str :=
  let absDelta :=
    if td.days ≠ 0 then
      let absDays := td.days.natAbs
      if absDays > 7 then decInt (td.days / 7) ++ " weeks".toList else decInt td.days ++ " days".toList
    else
      let absMinutes := td.seconds / 60
      if absMinutes > 60 then dec (absMinutes / 60) ++ " hours".toList else dec absMinutes ++ " minutes".toList
  absDelta ++ " ago".toList

/-! ## `main_agent.py` -/

/-- The number that a value stands for in a subtraction; for others it is a `TypeError`. -/
def number : Json N → Option N
  | .num n => some n
  | .bool b => some (if b then 1 else 0)
  | .null | .str _ | .arr _ | .obj _ => none

def memoriesSeparator : Str := "\n  - ".toList

/-- `m[0].page_content.replace("\n", ". ")`. -/
def memoryText (m : Document N) : Str := replace "\n".toList ". ".toList m.pageContent

/-- The text of the prompt, empty where nothing was recalled. -/
def memoryContent (heading : Str) (memoryTexts : List Str) : Str :=
  if memoryTexts.length = 0 then [] else heading ++ memoriesSeparator ++ join memoriesSeparator memoryTexts

/-- The time information of one memory. -/
def memoryTimestamp (now : p.Time) (m : Document N) : Option Str :=
  (Dict.find when m.metadata).bind fun timestamp =>
    ((number timestamp).bind fun timestamp => p.timedelta now.val timestamp).map fun delta =>
      " (".toList ++ verbalTimedelta delta ++ ")".toList

/-- `clock` gives the time for each memory. -/
def agentPromptEpisodicMemories (clock : ℕ → p.Time) (memoryDocs : List (Document N)) : Option Str :=
  let memoryTexts := memoryDocs.map memoryText
  (memoryDocs.zipIdx.mapM fun (m, i) => memoryTimestamp p (clock i) m).map fun memoryTimestamps =>
    let memoryTexts := List.zipWith (· ++ ·) memoryTexts memoryTimestamps
    memoryContent "## Context of things the Human said in the past: ".toList memoryTexts

/-- The source information of one memory. -/
def memorySource (m : Document N) : Option Str :=
  (Dict.find source m.metadata).map fun source => " (extracted from ".toList ++ p.str source ++ ")".toList

def agentPromptDeclarativeMemories (memoryDocs : List (Document N)) : Option Str :=
  let memoryTexts := memoryDocs.map memoryText
  (memoryDocs.mapM (memorySource p)).map fun memorySources =>
    let memoryTexts := List.zipWith (· ++ ·) memoryTexts memorySources
    memoryContent "## Context of documents containing relevant information: ".toList memoryTexts

/-- An entry of the history: `who` and `text`. -/
structure ConversationMessage where
  who : Str
  text : Option Str

/-- The working memory, as far as the agent's input goes. -/
structure WorkingMemory (N : Type*) where
  episodicMemories : List (Document N)
  declarativeMemories : List (Document N)
  history : List ConversationMessage
  /-- `user_message_json.text` -/
  userText : Option Str

def maxWorkingHistoryLength : ℕ := 20

def stringifyChatHistory (history : List ConversationMessage) : Str :=
  (history.rtake maxWorkingHistoryLength).flatMap fun turn =>
    "\n - ".toList ++ turn.who ++ ": ".toList ++ turn.text.getD "None".toList

structure AgentInput where
  episodicMemory : Str
  declarativeMemory : Str
  toolsOutput : Str
  input : Option Str
  chatHistory : Str

def formatAgentInput (clock : ℕ → p.Time) (memory : WorkingMemory N) : Option AgentInput :=
  (agentPromptEpisodicMemories p clock memory.episodicMemories).bind fun episodicMemory =>
    (agentPromptDeclarativeMemories p memory.declarativeMemories).map fun declarativeMemory =>
      ⟨episodicMemory, declarativeMemory, [], memory.userText, stringifyChatHistory memory.history⟩

/-- A turn that recalls points with these payloads. -/
def recallAndFormat (clock : ℕ → p.Time) (episodic declarative : List (Payload N)) (history : List ConversationMessage)
    (userText : Option Str) : Option AgentInput :=
  (episodic.mapM (toDocument p)).bind fun episodicMemories =>
    (declarative.mapM (toDocument p)).bind fun declarativeMemories =>
      formatAgentInput p clock ⟨episodicMemories, declarativeMemories, history, userText⟩

end KCore.MainAgent
