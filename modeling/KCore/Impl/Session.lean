import Mathlib.Data.List.DropRight
import Mathlib.Logic.Function.Basic

/-!
# Sessions of one user (`stray_cat.py`, `connection.py`, `websocket.py`, `convo_history.py`, the caches)

Every request and every websocket has a cat of its own, whose working memory is an
object in the `heap`: the cached one, a copy of it or a new one. The in-memory
cache holds the object itself, the file-system cache a pickled copy. The cache is
the entry of the one user, which neither expires nor is evicted. `step` is an
event of the session, run to its end; an event on a websocket that is not open
(or that is, for `openWs`) does not happen.
-/

namespace KCore.Session

variable {M : Type*}

def maxWorkingHistoryLength : Nat := 20

/-- The working memory, as far as the conversation goes. -/
structure WorkingMemory (M : Type*) where
  history : List M

/-- `WorkingMemory()`. -/
def WorkingMemory.new : WorkingMemory M := ⟨[]⟩

/-- `update_history`. -/
def WorkingMemory.updateHistory (wm : WorkingMemory M) (message : M) : WorkingMemory M :=
  ⟨(wm.history ++ [message]).rtake maxWorkingHistoryLength⟩

inductive Backend
  | inMemory
  | fileSystem
  deriving DecidableEq, Repr

/-- What a cache holds under the user's key. -/
inductive Entry (M : Type*)
  | object (ref : Nat)
  | pickled (wm : WorkingMemory M)

/-- The objects, of which those from `next` on are not yet made; the cache; and the working memory of
the cat of each open websocket. -/
structure State (M : Type*) where
  heap : Nat → WorkingMemory M
  next : Nat
  cache : Option (Entry M)
  connections : Nat → Option Nat

/-- No websocket is open, and nothing is cached. -/
def State.init : State M := ⟨fun _ => .new, 0, none, fun _ => none⟩

/-- A new object. -/
def State.alloc (s : State M) (wm : WorkingMemory M) : State M × Nat :=
  ({ s with heap := Function.update s.heap s.next wm, next := s.next + 1 }, s.next)

def State.modify (s : State M) (ref : Nat) (f : WorkingMemory M → WorkingMemory M) : State M :=
  { s with heap := Function.update s.heap ref (f (s.heap ref)) }

/-- `load_working_memory_from_cache`: the cached object, a copy of the cached one, or a new one. -/
def loadWorkingMemoryFromCache (s : State M) : State M × Nat :=
  match s.cache with
  | none => s.alloc .new
  | some (.object ref) => (s, ref)
  | some (.pickled wm) => s.alloc wm

/-- `update_working_memory_cache`. -/
def updateWorkingMemoryCache (b : Backend) (s : State M) (ref : Nat) : State M :=
  match b with
  | .inMemory => { s with cache := some (.object ref) }
  | .fileSystem => { s with cache := some (.pickled (s.heap ref)) }

/-- How a turn goes: with a reply, with a `fast_reply`, with an error in the recall, or raising, before
or after the user's message is put in the history. -/
inductive Turn (M : Type*)
  | reply (human ai : M)
  | fastReply
  | recallError (human : M)
  | raises (human : Option M)

/-- `run`: the working memory is saved where the turn does not raise. -/
def run (b : Backend) (s : State M) (ref : Nat) : Turn M → State M
  | .reply human ai => updateWorkingMemoryCache b (s.modify ref fun wm => (wm.updateHistory human).updateHistory ai) ref
  | .fastReply => updateWorkingMemoryCache b s ref
  | .recallError human => updateWorkingMemoryCache b (s.modify ref (·.updateHistory human)) ref
  | .raises (some human) => s.modify ref (·.updateHistory human)
  | .raises none => s

/-- An event of the session; `c` names a websocket. -/
inductive Event (M : Type*)
  | openWs (c : Nat)
  | wsMessage (c : Nat) (t : Turn M)
  | httpMessage (t : Turn M)
  | wipe
  | closeWs (c : Nat)

def State.connect (s : State M) (c : Nat) (ref : Option Nat) : State M :=
  { s with connections := Function.update s.connections c ref }

/-- The cat of a request is saved after its endpoint (`ConnectionAuth.__call__`); where the answer is an
error and no `CatMessage`, FastAPI raises and the saving is not reached. -/
def httpMessage (b : Backend) (s : State M) (t : Turn M) : State M :=
  let (s, ref) := loadWorkingMemoryFromCache s
  let s := run b s ref t
  match t with
  | .reply .. | .fastReply => updateWorkingMemoryCache b s ref
  | .recallError _ | .raises _ => s

def wipeConversationHistory (b : Backend) (s : State M) : State M :=
  let (s, ref) := loadWorkingMemoryFromCache s
  updateWorkingMemoryCache b (s.modify ref fun _ => ⟨[]⟩) ref

def step (b : Backend) (s : State M) : Event M → State M
  | .openWs c =>
    match s.connections c with
    | some _ => s
    | none =>
      let (s, ref) := loadWorkingMemoryFromCache s
      s.connect c (some ref)
  | .wsMessage c t =>
    match s.connections c with
    | none => s
    | some _ =>
      let (s, ref) := loadWorkingMemoryFromCache s
      run b (s.connect c (some ref)) ref t
  | .httpMessage t => httpMessage b s t
  | .wipe => wipeConversationHistory b s
  | .closeWs c =>
    match s.connections c with
    | none => s
    | some ref => (updateWorkingMemoryCache b s ref).connect c none

/-- The history in the cached working memory. -/
def State.cachedHistory (s : State M) : List M :=
  match s.cache with
  | none => []
  | some (.object ref) => (s.heap ref).history
  | some (.pickled wm) => wm.history

end KCore.Session
