import KCore.Lib.FileTree
import KCore.Lib.Text

/-!
# The plugin extractor (`plugin_extractor.py`)

A package is unpacked into a temporary folder and moved from there to the folder of its
plugin. `Platform` is what comes from outside: the MIME types, the slugs, the name of the
temporary folder, and what `shutil.unpack_archive` makes of the files, also outside of
the folder that it is given. Links are left out.
-/

namespace KCore.MadHatter

open Text FileTree

/-- The files of the system, from the root. -/
abbrev Files := FileTree Str Str

/-- The characters that `python-slugify` leaves. -/
def isSlugChar (c : Char) : Bool := c.isLower || c.isDigit || c = '_'

structure Platform where
  guessType : Str → Option Str
  slugify : Str → Str
  slugify_chars : ∀ s, ∀ c ∈ slugify s, isSlugChar c = true
  uuid : Str
  /-- of the package, to the folder, in the format: the files after it, and whether it returned -/
  unpackArchive : Str → List Str → Str → Files → Files × Bool

/-- `os.path.basename`. -/
def basename (path : Str) : Str := ((split '/' path).getLast?).getD []

/-- `os.path.splitext(name)[0]`, of a name without slashes. -/
def splitextRoot (name : Str) : Str :=
  match name.reverse.dropWhile (· ≠ '.') with
  | [] => name
  | _ :: root => if root.all (· = '.') then name else root.reverse

/-- `os.path.join` of a folder and a name: an empty one leads to the folder itself. -/
def pathJoin (dst : List Str) (name : Str) : List Str :=
  match name with
  | '/' :: rest => (split '/' rest).filter (· ≠ [])
  | _ => dst ++ (split '/' name).filter (· ≠ [])

structure PluginExtractor where
  path : Str
  extension : Str
  id : Str

def createPluginId (P : Platform) (path : Str) : Str := P.slugify (splitextRoot (basename path))

/-- `PluginExtractor(path)`, `none` where it raises. -/
def PluginExtractor.new (P : Platform) (path : Str) : Option PluginExtractor :=
  match P.guessType path with
  | none => none
  | some contentType =>
    if contentType = "application/x-tar".toList then some ⟨path, "tar".toList, createPluginId P path⟩
    else if contentType = "application/zip".toList then some ⟨path, "zip".toList, createPluginId P path⟩
    else none

def tmpFolder (P : Platform) : List Str := ["tmp".toList, P.uuid]

/-- `os.mkdir`, `none` where it raises. -/
def mkdir (folder : List Str) (fs : Files) : Option Files :=
  match lookup folder.dropLast fs, lookup folder fs with
  | some (.dir _), none => write folder (.dir []) fs
  | _, _ => none

def settingsJson : Str := "settings.json".toList

/-- The folder of the plugin: the only one in the temporary folder, or that itself. -/
def folderToCopy (tmp : List Str) : List (Str × Files) → List Str
  | [(name, .dir _)] => tmp ++ [name]
  | _ => tmp

/-- The old settings copied to the folder that replaces the plugin's; `none` where `shutil.copy` raises. -/
def copySettings (target folder : List Str) (fs : Files) : Option Files :=
  match lookup (target ++ [settingsJson]) fs with
  | some (.file settings) =>
    match lookup (folder ++ [settingsJson]) fs with
    | some (.dir _) => none
    | _ => write (folder ++ [settingsJson]) (.file settings) fs
  | _ => some fs

/-- `shutil.move`, and the cleanup. -/
def moveFolder (tmp folder target : List Str) (fs : Files) : Files × Option (List Str) :=
  match lookup folder fs with
  | none => (fs, none)
  | some files =>
    match write target files (remove folder fs) with
    | none => (fs, none)
    | some fs => (if (lookup tmp fs).isSome then remove tmp fs else fs, some target)

/-- What follows the unpacking. -/
def replacePlugin (tmp target : List Str) (contents : List (Str × Files)) (fs : Files) : Files × Option (List Str) :=
  let folder := folderToCopy tmp contents
  match lookup target fs with
  | none => moveFolder tmp folder target fs
  | some (.file _) => (fs, none)
  | some (.dir _) =>
    match copySettings target folder fs with
    | none => (fs, none)
    | some fs => moveFolder tmp folder target (remove target fs)

/-- The files after the call, and the path that it returns, `none` where it raises. -/
def PluginExtractor.extract (P : Platform) (x : PluginExtractor) (dst : List Str) (fs : Files) :
    Files × Option (List Str) :=
  let tmp := tmpFolder P
  match mkdir tmp fs with
  | none => (fs, none)
  | some fs =>
    match P.unpackArchive x.path tmp x.extension fs with
    | (fs, false) => (fs, none)
    | (fs, true) =>
      match lookup tmp fs with
      | some (.dir contents) => replacePlugin tmp (pathJoin dst x.id) contents fs
      | _ => (fs, none)

end KCore.MadHatter
