import KCore.Lib.Dict
import KCore.Lib.Text

/-!
# Websockets (`websocket_manager.py`, `websocket.py`, `stray_cat.py`)

The manager keeps one websocket per user id. An endpoint runs from the moment its
websocket is accepted until it is closed; it adds the websocket to the manager
first, and last removes the websocket of its user. A websocket is a number, the
next one that is accepted.
-/

namespace KCore.Websocket

open Text

/-- `WebsocketManager.connections`. -/
structure WebsocketManager where
  connections : Dict Str Nat

namespace WebsocketManager

def addConnection (m : WebsocketManager) (id : Str) (websocket : Nat) : WebsocketManager :=
  ⟨m.connections.set id websocket⟩

def getConnection (m : WebsocketManager) (id : Str) : Option Nat := m.connections.get? id

def removeConnection (m : WebsocketManager) (id : Str) : WebsocketManager :=
  if id ∈ m.connections then ⟨m.connections.erase id⟩ else m

end WebsocketManager

/-- The manager, and the running endpoints: the open websockets, each with the user of its cat. -/
structure Server where
  manager : WebsocketManager
  running : Dict Nat Str
  /-- the next websocket -/
  next : Nat

def Server.init : Server := ⟨⟨.empty⟩, .empty, 0⟩

inductive Event
  | accept (userId : Str)
  | close (websocket : Nat)

/-- `websocket_endpoint`, up to its loop, and from the end of its loop; a websocket that is not open is
not closed. -/
def step (s : Server) : Event → Server
  | .accept userId =>
    ⟨s.manager.addConnection userId s.next, s.running.set s.next userId, s.next + 1⟩
  | .close websocket =>
    match s.running.get? websocket with
    | none => s
    | some userId =>
      { s with manager := s.manager.removeConnection userId, running := s.running.erase websocket }

/-- `__send_ws_json`: the websocket the data goes to; without one it is dropped. -/
def sendWsJson {α : Type*} (s : Server) (userId : Str) (data : α) : Option (Nat × α) :=
  match s.manager.getConnection userId with
  | none => none
  | some wsConnection => some (wsConnection, data)

end KCore.Websocket
