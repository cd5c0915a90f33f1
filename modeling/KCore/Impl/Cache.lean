import Mathlib.Order.Defs.LinearOrder
import KCore.Lib.FileTree
import KCore.Lib.StableSort
import KCore.Lib.Text

/-!
# The caches (`cache_item.py`, `in_memory_cache.py`, `file_system_cache.py`)

`InMemoryCache` is a dictionary that drops its oldest items when it is full.
`FileSystemCache` keeps every item in a file of its own below a directory; a file
holds the item that `pickle.load` gives back. The readings of the clock and the
times to live are in an ordered type `T`.
-/

namespace KCore.Cache

open Text

/-- An item; a `ttl` of `None` or `-1` is none. -/
structure CacheItem (T V : Type*) where
  key : Str
  value : V
  ttl : Option T
  createdAt : T
  deriving DecidableEq

variable {T V : Type*} [LinearOrder T] [Add T] [Neg T] [One T]

/-- `is_expired` at the time `now`. -/
def CacheItem.isExpired (item : CacheItem T V) (now : T) : Bool :=
  match item.ttl with
  | none => false
  | some ttl => if ttl = -1 then false else decide (item.createdAt + ttl < now)

/-! ## In memory -/

def maxItems : Nat := 100

structure InMemoryCache (T V : Type*) where
  items : Dict Str (CacheItem T V)

namespace InMemoryCache

def init : InMemoryCache T V := ⟨.empty⟩

/-- `len(self.items)`. -/
def size (c : InMemoryCache T V) : Nat := c.items.entries.length

def delete (c : InMemoryCache T V) (key : Str) : InMemoryCache T V :=
  if key ∈ c.items then ⟨c.items.erase key⟩ else c

def insert (c : InMemoryCache T V) (item : CacheItem T V) : InMemoryCache T V :=
  let c : InMemoryCache T V := ⟨c.items.set item.key item⟩
  if maxItems ≤ c.size then
    let sortedItems := stableSort (fun x => x.2.createdAt) c.items.entries
    (sortedItems.take (maxItems / 10)).foldl (fun c x => c.delete x.1) c
  else c

def getItem (c : InMemoryCache T V) (key : Str) (now : T) : InMemoryCache T V × Option (CacheItem T V) :=
  match c.items.get? key with
  | none => (c, none)
  | some item => if item.isExpired now then (⟨c.items.erase key⟩, none) else (c, some item)

def getValue (c : InMemoryCache T V) (key : Str) (now : T) : InMemoryCache T V × Option V :=
  let (c, item) := c.getItem key now
  (c, item.map CacheItem.value)

end InMemoryCache

/-! ## In files -/

/-- The files; a path is the names below the root. -/
abbrev Disk (T V : Type*) := FileTree Str (CacheItem T V)

/-- The normalised path that the components lead to from `dir`. -/
def resolve (dir : List Str) : List Str → List Str
  | [] => dir
  | c :: cs =>
    if c = [] ∨ c = ".".toList then resolve dir cs
    else if c = "..".toList then resolve dir.dropLast cs
    else resolve (dir ++ [c]) cs

/-- `_get_file_path`; `os.path.join` leaves out the directory before an absolute path. -/
def getFilePath (cacheDir : List Str) (key : Str) : List Str :=
  let name := key ++ ".cache".toList
  if name.head? = some '/' then resolve [] (split '/' name) else resolve cacheDir (split '/' name)

inductive OsError
  | fileNotFound
  | notADirectory
  | isADirectory
  deriving DecidableEq

/-- `open(path, "wb")` and a dump. -/
def Disk.dump (d : Disk T V) (path : List Str) (item : CacheItem T V) : Except OsError (Disk T V) :=
  match d.lookup path.dropLast with
  | none => .error .fileNotFound
  | some (.file _) => .error .notADirectory
  | some (.dir _) =>
    match d.lookup path with
    | some (.dir _) => .error .isADirectory
    | none | some (.file _) =>
      match FileTree.write path (.file item) d with
      | none => .error .notADirectory
      | some d => .ok d

namespace FileSystemCache

variable (cacheDir : List Str) (d : Disk T V)

def insert (item : CacheItem T V) : Except OsError (Disk T V) := d.dump (getFilePath cacheDir item.key) item

def getItem (key : Str) (now : T) : Except OsError (Disk T V × Option (CacheItem T V)) :=
  match d.lookup (getFilePath cacheDir key) with
  | none => .ok (d, none)
  | some (.dir _) => .error .isADirectory
  | some (.file item) =>
    if item.isExpired now then .ok (d.remove (getFilePath cacheDir key), none) else .ok (d, some item)

def getValue (key : Str) (now : T) : Except OsError (Disk T V × Option V) :=
  match getItem cacheDir d key now with
  | .error e => .error e
  | .ok (d, item) => .ok (d, item.map CacheItem.value)

def delete (key : Str) : Except OsError (Disk T V) :=
  match d.lookup (getFilePath cacheDir key) with
  | none => .ok d
  | some (.dir _) => .error .isADirectory
  | some (.file _) => .ok (d.remove (getFilePath cacheDir key))

end FileSystemCache

/-! ## Calls -/

inductive Call (T V : Type*)
  | insert (item : CacheItem T V)
  | getItem (key : Str) (now : T)
  | getValue (key : Str) (now : T)
  | delete (key : Str)

def Call.key : Call T V → Str
  | .insert item => item.key
  | .getItem key _ | .getValue key _ | .delete key => key

/-- The reading of the clock in a call: of an insertion, as its item is made. -/
def Call.reading : Call T V → Option T
  | .insert item => some item.createdAt
  | .getItem _ now | .getValue _ now => some now
  | .delete _ => none

/-- What a call returns. -/
inductive Result (T V : Type*)
  | nothing
  | item (i : Option (CacheItem T V))
  | value (v : Option V)
  deriving DecidableEq

def InMemoryCache.step (c : InMemoryCache T V) : Call T V → InMemoryCache T V × Result T V
  | .insert item => (c.insert item, .nothing)
  | .getItem key now => let (c, item) := c.getItem key now; (c, .item item)
  | .getValue key now => let (c, value) := c.getValue key now; (c, .value value)
  | .delete key => (c.delete key, .nothing)

/-- A call that raises leaves the files. -/
def FileSystemCache.step (cacheDir : List Str) (d : Disk T V) (call : Call T V) :
    Disk T V × Except OsError (Result T V) :=
  let done : Except OsError (Disk T V × Result T V) :=
    match call with
    | .insert item => do
      let d ← insert cacheDir d item
      return (d, .nothing)
    | .getItem key now => do
      let (d, item) ← getItem cacheDir d key now
      return (d, .item item)
    | .getValue key now => do
      let (d, value) ← getValue cacheDir d key now
      return (d, .value value)
    | .delete key => do
      let d ← delete cacheDir d key
      return (d, .nothing)
  match done with
  | .error e => (d, .error e)
  | .ok (d, result) => (d, .ok result)

/-- The key of a user's working memory (`stray_cat.py`). -/
def workingMemoryKey (userId : Str) : Str := userId ++ "_working_memory".toList

end KCore.Cache
