import KCore.Impl.Session
import KCore.Lib.Text

/-!
# The history of a working memory (`working_memory.py`, `messages.py`)

The two ways to append to it and the two ways to read its last messages.
`none` is an exception.
-/

namespace KCore.Convo

open Text

/-- `l[i:]`. -/
def sliceFrom {M : Type*} (i : Int) (l : List M) : List M :=
  l.drop (if i < 0 then (l.length + i).toNat else i.toNat)

inductive Role
  | ai
  | human
  deriving DecidableEq, Repr

/-- A `CatMessage` or a `UserMessage`, by its role; the base class has none. -/
structure ConversationMessage where
  role : Option Role
  userId : Str
  who : Str
  text : Option Str
  image : Option Str
  deriving DecidableEq

/-! ## langchain messages -/

/-- An entry of the content of a `HumanMessage`. -/
inductive Part
  | text (text : Str)
  | imageUrl (url : Str)
  deriving DecidableEq

inductive BaseMessage
  | ai (name content : Str)
  | human (name : Str) (content : List Part)
  deriving DecidableEq

section

variable (download : Str → Option (Option Str))

/-- `download` gives the data URI of the image at a URL, nothing for an answer that is not 200, and an exception where
the request or the image library raises. -/
def langchainfyImage (image : Str) : Option (Option Part) :=
  if "http".toList <+: image then (download image).map (·.map .imageUrl) else some (some (.imageUrl image))

/-- `UserMessage.langchainfy`: an empty text or image is left out. -/
def userLangchainfy (m : ConversationMessage) : Option BaseMessage :=
  let content := (m.text.filter (· ≠ [])).toList.map Part.text
  match m.image.filter (· ≠ []) with
  | none => some (.human m.who content)
  | some image => (langchainfyImage download image).map fun part => .human m.who (content ++ part.toList)

/-- `CatMessage.langchainfy`: an `AIMessage` must have a content. -/
def catLangchainfy (m : ConversationMessage) : Option BaseMessage := m.text.map (.ai m.who)

def ConversationMessage.langchainfy (m : ConversationMessage) : Option BaseMessage :=
  match m.role with
  | some .ai => catLangchainfy m
  | some .human => userLangchainfy download m
  | none => none

end

/-- `f"\n - {turn.who}: {turn.text}"`. -/
def ConversationMessage.line (turn : ConversationMessage) : Str :=
  "\n - ".toList ++ turn.who ++ ": ".toList ++ turn.text.getD "None".toList

/-! ## The working memory -/

/-- The working memory, as far as its history goes. -/
structure WorkingMemory extends Session.WorkingMemory ConversationMessage where
  userMessageJson : Option ConversationMessage

namespace WorkingMemory

def updateHistory (wm : WorkingMemory) (message : ConversationMessage) : WorkingMemory :=
  { wm with toWorkingMemory := wm.toWorkingMemory.updateHistory message }

/-- The message that `update_conversation_history` makes. `takesWhy` is pydantic's check of `why`, which only a
`CatMessage` has. -/
def conversationMessage {W : Type*} (takesWhy : W → Bool) (wm : WorkingMemory) (message who : Str) (why : W) :
    Option ConversationMessage :=
  let role := if who = "AI".toList then Role.ai else .human
  wm.userMessageJson.bind fun user =>
    if role = .ai ∧ takesWhy why = false then none else some ⟨some role, user.userId, who, some message, none⟩

def updateConversationHistory {W : Type*} (takesWhy : W → Bool) (wm : WorkingMemory) (message who : Str) (why : W) :
    Option WorkingMemory :=
  (wm.conversationMessage takesWhy message who why).map fun content => { wm with history := wm.history ++ [content] }

def stringifyChatHistory (wm : WorkingMemory) (latestN : Int) : Str :=
  (sliceFrom (-latestN) wm.history).flatMap ConversationMessage.line

def langchainfyChatHistory (download : Str → Option (Option Str)) (wm : WorkingMemory) (latestN : Int) :
    Option (List BaseMessage) :=
  (sliceFrom (-latestN) wm.history).mapM (ConversationMessage.langchainfy download)

end WorkingMemory

end KCore.Convo
