import KCore.Impl.LongTermMemory
import KCore.Impl.MadHatter

/-!
# Plugins and their procedures (`mad_hatter.py`, `cheshire_cat.py`)

The plugin manager and the vector database together, with the cat's callback attached. A sync of the plugins calls
`embed_procedures`, which may raise: then the call that made the sync raises as well, with the plugins already changed.
-/

namespace KCore.PluginSync

open Text Faulty MadHatter LongTermMemory

variable [FastApi] {M : Type}

structure World (M : Type) where
  hat : State
  db : Db M

/-- What the objects of the plugins' code are as procedures. -/
abbrev Code := Obj → CheshireCat.Procedure

/-- `MadHatter.procedures`. -/
def procedures (code : Code) (s : State) : List CheshireCat.Procedure := (s.tools ++ s.forms).map code

/-- What a call meets in the database: the size of the embedder's vectors, the order of sets, the ids of new points, and
which calls raise. -/
structure Outside where
  size : ℕ
  order : Shuffle Str
  newId : List Str → Str
  newId_fresh : ∀ ids, newId ids ∉ ids
  faults : List Fault

/-! ## The plugin manager -/

/-- The plugins after a call, whether it merges their lists, whether the callback then activates their endpoints, and
whether it returns where `embed_procedures` does. -/
structure Result where
  hat : State
  merges : Bool
  activates : Bool
  returns : Bool

/-- The call comes to `embed_procedures`. -/
def Result.embeds (r : Result) : Bool := r.merges && r.activates

/-- A sync of the plugins. -/
def merge (s : State) : Result :=
  let (s, returned) := syncHooksToolsAndForms s
  ⟨s, true, returned, returned⟩

def toggle (s : State) (pluginId : Str) (activation : Attempt) (deactivation : Bool) : Result :=
  match updateActivePlugins s pluginId activation deactivation with
  | (s, false) => ⟨s, false, false, false⟩
  | (s, true) => merge (saveActivePluginsToDb s)

def install (s : State) (pluginId : Str) (extracted isPlugin : Bool) (activation : Attempt) (deactivation : Bool) :
    Result :=
  if extracted then toggle (loadPlugin s pluginId isPlugin) pluginId activation deactivation else ⟨s, false, false, false⟩

/-- The loop of `find_plugins`; a plugin that cannot be activated is toggled, and the loop raises. -/
def discover (s : State) : List Folder → Result
  | [] => ⟨s, false, false, true⟩
  | f :: folders =>
    let s := loadPlugin s f.id f.isPlugin
    if f.id ∈ s.activePlugins then
      match s.plugins.get? f.id with
      | none => { toggle s f.id f.activation f.deactivation with returns := false }
      | some p =>
        let (p, returned) := p.activate f.activation
        let s := { s with plugins := s.plugins.set f.id p }
        if returned then discover s folders else { toggle s f.id f.activation f.deactivation with returns := false }
    else discover s folders

def find (s : State) (folders : List Folder) : Result :=
  let r := discover { s with plugins := .empty, activePlugins := loadActivePluginsFromDb s.db } folders
  if r.returns then merge r.hat else r

/-! ## Calls -/

def embedCall (code : Code) (o : Outside) (s : State) : CheshireCat.Call :=
  ⟨procedures code s, o.order, o.newId, o.newId_fresh⟩

/-- What a call of the plugin manager does to the database. -/
def embed (code : Code) (o : Outside) (size : ℕ) (r : Result) : Prog (Db M) Unit :=
  if r.embeds then do
    embedProcedures size (embedCall code o r.hat)
    if r.returns then pure () else raise
  else raise

/-- The plugins and the database after a call, and whether it returned. -/
def World.sync (code : Code) (o : Outside) (size : ℕ) (faults : List Fault) (db : Db M) (r : Result) : World M × Bool :=
  let (returned, db, _) := embed code o size r db faults
  (⟨r.hat, db⟩, returned.isSome)

def uninstall (code : Code) (w : World M) (pluginId : Str) (activation : Attempt) (deactivation : Bool) (o : Outside) :
    World M × Bool :=
  if pluginId ∈ w.hat.plugins ∧ pluginId ≠ corePlugin then
    let (w, returned) :=
      if pluginId ∈ w.hat.activePlugins then
        World.sync code o o.size o.faults w.db (toggle w.hat pluginId activation deactivation)
      else (w, true)
    if returned then (⟨{ w.hat with plugins := w.hat.plugins.erase pluginId }, w.db⟩, true) else (w, false)
  else (w, true)

/-- A wipe, or another load of the memory; `find_plugins` is called where the load returns. At the bootstrap it is called
before, with a callback that does nothing, and the cat calls its own where the load returns. -/
def load (code : Code) (w : World M) (l : Load) (env : VectorMemory.Env) (pair : VectorMemory.Pair)
    (folders : List Folder) (o : Outside) : World M × Bool :=
  if ∀ name ∈ l.deleted, name ∈ VectorMemory.collectionNames then
    match (deleteCollections l.deleted >>= fun _ => loadMemory env pair : Prog (Db M) Unit) w.db o.faults with
    | (none, db, _) => (⟨w.hat, db⟩, false)
    | (some _, db, faults) => World.sync code o pair.size faults db (find w.hat folders)
  else (w, false)

inductive Event (M : Type)
  | install (pluginId : Str) (extracted isPlugin : Bool) (activation : Attempt) (deactivation : Bool)
  | toggle (pluginId : Str) (activation : Attempt) (deactivation : Bool)
  | uninstall (pluginId : Str) (activation : Attempt) (deactivation : Bool)
  | load (l : Load) (env : VectorMemory.Env) (pair : VectorMemory.Pair) (folders : List Folder)
  | points (r : PointRequest M)

/-- The world after a call, and whether it returned. -/
def serve (code : Code) (w : World M) : Event M × Outside → World M × Bool
  | (.install pluginId extracted isPlugin activation deactivation, o) =>
    World.sync code o o.size o.faults w.db (install w.hat pluginId extracted isPlugin activation deactivation)
  | (.toggle pluginId activation deactivation, o) =>
    World.sync code o o.size o.faults w.db (toggle w.hat pluginId activation deactivation)
  | (.uninstall pluginId activation deactivation, o) => uninstall code w pluginId activation deactivation o
  | (.load l env pair folders, o) => load code w l env pair folders o
  | (.points r, o) =>
    let (returned, db, _) := r.serve w.db o.faults
    (⟨w.hat, db⟩, returned.isSome)

def step (code : Code) (w : World M) (e : Event M × Outside) : World M := (serve code w e).1

end KCore.PluginSync
