import KCore.Impl.Agents
import KCore.Impl.Session

/-!
# A turn of the conversation (`stray_cat.py`)

`call` is `StrayCat.__call__`: the message goes into the history, memories are recalled, the agents answer,
the message is stored in the episodic memory and the answer goes into the history. `run` saves the working
memory and returns the answer or sends it over the websocket. The plugins' hooks, the recall and the
database are in `Turn`. The messages of one user come one after the other, over HTTP or over a websocket
that stays open; the cache is as in `Session`.
-/

namespace KCore.StrayCat

open Text MainAgent Agents

variable {N : Type*}

structure UserMessage where
  text : Option Str

/-- `intermediate_steps` is that of its `why`. -/
structure CatMessage (N : Type*) where
  text : Str
  intermediateSteps : List (Step N)

/-- A message of the history. -/
inductive Message (N : Type*)
  | human (m : UserMessage)
  | cat (m : CatMessage N)

def Message.toConversation : Message N → ConversationMessage
  | human m => ⟨"Human".toList, m.text⟩
  | cat m => ⟨"AI".toList, some m.text⟩

/-- The working memory, as far as a turn goes. -/
structure Cat (N : Type*) where
  history : Session.WorkingMemory (Message N)
  memory : Agents.Memory N

/-- The working memory with its history, and the episodic memories. -/
structure World (N : Type*) where
  cat : Cat N
  episodic : List (Document N)

structure Recalled (N : Type*) where
  episodic : List (Document N)
  declarative : List (Document N)
  procedural : List (Document N)

/-- What a turn gets from outside, besides what the agents get. -/
structure Turn {N : Type*} [Zero N] [One N] [DecidableEq N] (p : Platform N) extends Agents.Turn N where
  userMessage : Except Raised UserMessage
  fastReply : Except Raised (Option (CatMessage N))
  beforeCatReadsMessage : UserMessage → Except Raised UserMessage
  /-- `recall_relevant_memories_to_working_memory` -/
  recallRelevantMemories : Option Str → Option (Recalled N)
  clock : ℕ → p.Time
  /-- `mad_hatter.procedures` -/
  procedures : List Procedure
  userId : Str
  /-- `time.time()` as the message is stored -/
  now : N
  beforeCatStoresEpisodicMemory : Document N → Except Raised (Document N)
  /-- what `Document` raises for a message without a text -/
  documentError : Raised
  /-- what the embedder or the database raises -/
  storeError : Option Raised
  /-- with the making of the message's `why` -/
  beforeCatSendsMessage : CatMessage N → Except Raised (CatMessage N)

/-- How a call ends: with a message, before or after the agents; with the error of the recall; or raising. `user` is the
message that went into the history. -/
inductive Outcome (N : Type*)
  | fast (m : CatMessage N)
  | answered (user : UserMessage) (m : CatMessage N)
  | recallError (user : UserMessage)
  | raised (user : Option UserMessage) (e : Raised)

def World.remember (w : World N) (m : Message N) : World N :=
  { w with cat := { w.cat with history := w.cat.history.updateHistory m } }

section

variable [Zero N] [One N] [DecidableEq N] {p : Platform N}

/-- The agent's output, or the LLM's text from an exception that says it could not be parsed. -/
def recovered : Except Raised (AgentOutput N) → Except Raised (AgentOutput N)
  | .ok output => .ok output
  | .error e =>
    if "Could not parse LLM output: `".toList <:+: e.text then
      .ok ⟨some (replace "`".toList [] (replace "Could not parse LLM output: `".toList [] e.text)), [], false⟩
    else .error e

/-- `_store_user_message_in_episodic_memory`. -/
def storeUserMessage (t : Turn p) (text : Option Str) (w : World N) : Except Raised (World N) :=
  match text with
  | none => .error t.documentError
  | some text =>
    match t.beforeCatStoresEpisodicMemory ⟨text, [("source".toList, .str t.userId), ("when".toList, .num t.now)]⟩,
      t.storeError with
    | .error e, _ | .ok _, some e => .error e
    | .ok doc, none => .ok { w with episodic := w.episodic ++ [doc] }

/-- `str(agent_output.output)`. -/
def outputText (output : AgentOutput N) : Str := output.output.getD "None".toList

/-- The turn from the agent's output on. -/
def answer (t : Turn p) (user : UserMessage) (output : AgentOutput N) (w : World N) : World N × Outcome N :=
  match storeUserMessage t user.text w with
  | .error e => (w, .raised (some user) e)
  | .ok w =>
    match t.beforeCatSendsMessage ⟨outputText output, output.intermediateSteps⟩ with
    | .error e => (w, .raised (some user) e)
    | .ok m => (w.remember (.cat m), .answered user m)

variable [Numeral N]

/-- The turn from the recall on. -/
def converse (t : Turn p) (user : UserMessage) (w : World N) : World N × List (Act N) × Outcome N :=
  match t.recallRelevantMemories user.text with
  | none => (w, [], .recallError user)
  | some recalled =>
    let (memory, acts, output) := mainAgent p t.clock t.toTurn t.procedures recalled.procedural
      ⟨recalled.episodic, recalled.declarative, w.cat.history.history.map Message.toConversation, user.text⟩ w.cat.memory
    let w := { w with cat := { w.cat with memory := memory } }
    match recovered output with
    | .error e => (w, acts, .raised (some user) e)
    | .ok output =>
      let (w, outcome) := answer t user output w
      (w, acts, outcome)

/-- `StrayCat.__call__`. -/
def call (t : Turn p) (w : World N) : World N × List (Act N) × Outcome N :=
  match t.userMessage, t.fastReply with
  | .error e, _ | .ok _, .error e => (w, [], .raised none e)
  | .ok _, .ok (some m) => (w, [], .fast m)
  | .ok user, .ok none =>
    match t.beforeCatReadsMessage user with
    | .error e => (w, [], .raised none e)
    | .ok user => converse t user (w.remember (.human user))

/-! ## `run` -/

/-- What comes of sending over the websocket; without one the data is dropped. -/
inductive Delivery
  | sent
  | dropped
  | connectionClosed
  | raises (e : Raised)

/-- Where the answer goes; `ws` has what comes of sending it, and of sending an error then. -/
inductive Channel
  | http
  | ws (chat error : Delivery)

/-- What reaches the client. -/
inductive Answer (N : Type*)
  | message (m : CatMessage N)
  | error (e : Raised)
  | internalServerError

/-- `send_error`, in `run`: what reaches the client, and what `run` raises. -/
def sendError (error : Delivery) (e : Raised) : List (Answer N) × Option Raised :=
  match error with
  | .sent => ([.error e], none)
  | .dropped | .connectionClosed => ([], none)
  | .raises e' => ([], some e')

/-- `send_chat_message` of what a call returned: a dictionary has no `model_dump`. A closed connection raises a
`ConnectionClosedOK`, which is an exception, too. -/
def sendChatMessage (chat : Delivery) : Outcome N → List (Answer N) × Option Raised
  | .fast m | .answered _ m =>
    match chat with
    | .sent => ([.message m], none)
    | .dropped => ([], none)
    | .connectionClosed => ([], some ⟨"ConnectionClosedOK".toList, []⟩)
    | .raises e => ([], some e)
  | .recallError _ => ([], some ⟨"AttributeError".toList, "'dict' object has no attribute 'model_dump'".toList⟩)
  | .raised _ e => ([], some e)

/-- What reaches the client, and what `run` raises. The endpoint `message_with_cat` has a `CatMessage` as its response, and
raises where `run` returns another dictionary. -/
def respond (outcome : Outcome N) : Channel → List (Answer N) × Option Raised
  | .http =>
    match outcome with
    | .fast m | .answered _ m => ([.message m], none)
    | .recallError _ | .raised .. => ([.internalServerError], none)
  | .ws chat error =>
    match sendChatMessage chat outcome with
    | (sent, none) => (sent, none)
    | (sent, some e) =>
      let (sent', raised) := sendError error e
      (sent ++ sent', raised)

def Outcome.returns : Outcome N → Bool
  | fast _ | answered .. | recallError _ => true
  | raised .. => false

/-- What was done: a message, with what the agents did, how the call ended and what reached the client; or a wipe. -/
inductive Entry (N : Type*)
  | message (c : Channel) (acts : List (Act N)) (outcome : Outcome N) (answers : List (Answer N))
  | wiped

/-- The cached working memory, with the in-memory cache the object itself; the episodic memories; the number of form
instances so far; and what was done. -/
structure State (N : Type*) where
  cache : Option (Cat N)
  episodic : List (Document N)
  forms : Nat
  log : List (Entry N)

def State.init : State N := ⟨none, [], 0, []⟩

/-- `WorkingMemory()`; the agents' input is set before it is read. -/
def Cat.new : Cat N := ⟨.new, ⟨none, 0, ⟨[], [], [], none, []⟩⟩⟩

/-- What a message finds. -/
def State.load (s : State N) : World N :=
  let cat := s.cache.getD .new
  ⟨{ cat with memory := { cat.memory with forms := s.forms } }, s.episodic⟩

/-- `StrayCat.run`. The working memory of a call that raises is not saved; the cached object has changed all the same. -/
def run (b : Session.Backend) (s : State N) (t : Turn p) (c : Channel) : State N :=
  let (w, acts, outcome) := call t s.load
  { cache := if outcome.returns then some w.cat else
      match b with
      | .inMemory => s.cache.map fun _ => w.cat
      | .fileSystem => s.cache
    episodic := w.episodic
    forms := w.cat.memory.forms
    log := s.log ++ [.message c acts outcome (respond outcome c).1] }

/-- `wipe_conversation_history`. -/
def wipe (s : State N) : State N :=
  { s with cache := some { s.cache.getD .new with history := ⟨[]⟩ }, log := s.log ++ [.wiped] }

inductive Event {N : Type*} [Zero N] [One N] [DecidableEq N] (p : Platform N)
  | message (t : Turn p) (c : Channel)
  | wipe

def step (b : Session.Backend) (s : State N) : Event p → State N
  | .message t c => run b s t c
  | .wipe => wipe s

end

end KCore.StrayCat
