import KCore.Impl.MadHatter.Install
import Mathlib.Data.List.Infix

/-!
# Importing a plugin again

Loading and unloading a file make its module's name by the same two
replacements, in opposite orders; the names are the same unless `/py` is in the
path (`unloadedAs_eq_iff`). The module of a `__init__.py` is there under a second
name as well, that of its package, which unloading does not make. Without both, what
was imported is removed, and the new code is executed the next time (`reloads_iff`).
-/

namespace KCore.MadHatter.Importing

open Text FileTree ImportSystem

/-! ## The two names -/

def pySuffix : Str := ['.', 'p', 'y']

def slashPy : Str := ['/', 'p', 'y']

/-- The name of the module of a path, as it is imported. -/
def loadedAs (path : Str) : Str := replace ['/'] ['.'] (replace pySuffix [] path)

/-- The name of the module of a path, as it is removed. -/
def unloadedAs (path : Str) : Str := replace pySuffix [] (replace ['/'] ['.'] path)

/-- `'/'` becomes `'.'`. -/
def dotted (c : Char) : Char := if c = '/' then '.' else c

theorem replace_slash : ∀ t : Str, replace ['/'] ['.'] t = t.map dotted
  | [] => rfl
  | c :: t => by
    by_cases hc : c = '/'
    · subst hc
      rw [show ('/' :: t : Str) = ['/'] ++ t from rfl, replace_match (List.cons_ne_nil _ _), replace_slash t]
      rfl
    · rw [replace_cons fun h => hc (List.cons_prefix_cons.mp h).1.symm, replace_slash t, List.map_cons, dotted, if_neg hc]

/-- A path from the left: a `.py`, a `/py`, or a character that begins neither. -/
@[elab_as_elim]
theorem py_induction {P : Str → Prop} (nil : P []) (dot : ∀ t, P t → P (pySuffix ++ t)) (slash : ∀ t, P t → P (slashPy ++ t))
    (cons : ∀ c t, ¬pySuffix <+: c :: t → ¬slashPy <+: c :: t → P t → P (c :: t)) : ∀ t, P t
  | [] => nil
  | c :: t => by
    have hlt : ∀ {a b : Str}, a ++ b = c :: t → a ≠ [] → b.length < t.length + 1 := by
      intro a b h ha
      have := congrArg List.length h
      have := List.length_pos_iff.mpr ha
      simp only [List.length_append, List.length_cons] at *
      omega
    by_cases hd : pySuffix <+: c :: t
    · obtain ⟨t', ht⟩ := hd
      have := hlt ht (List.cons_ne_nil _ _)
      exact ht ▸ dot t' (py_induction nil dot slash cons t')
    · by_cases hs : slashPy <+: c :: t
      · obtain ⟨t', ht⟩ := hs
        have := hlt ht (List.cons_ne_nil _ _)
        exact ht ▸ slash t' (py_induction nil dot slash cons t')
      · exact cons c t hd hs (py_induction nil dot slash cons t)
termination_by t => t.length

theorem dotted_eq {c d : Char} (h : dotted c = d) (hd : d ≠ '.') : c = d := by
  unfold dotted at h
  split at h
  · exact absurd h.symm hd
  · exact h

theorem isPrefix_map_dotted {c : Char} {t : Str} (h : pySuffix <+: (c :: t).map dotted) :
    pySuffix <+: c :: t ∨ slashPy <+: c :: t := by
  match t with
  | [] => simp [pySuffix] at h
  | [x] => simp [pySuffix] at h
  | x :: y :: t =>
    simp only [pySuffix, List.map_cons, List.cons_prefix_cons, List.nil_prefix, and_true] at h
    obtain ⟨hc, hx, hy⟩ := h
    rw [dotted_eq hx.symm (by decide), dotted_eq hy.symm (by decide)]
    unfold dotted at hc
    split at hc
    · rename_i hs
      exact .inr ⟨t, by rw [hs]; rfl⟩
    · exact .inl ⟨t, by rw [← hc]; rfl⟩

theorem loadedAs_dot (t : Str) : loadedAs (pySuffix ++ t) = loadedAs t := by
  rw [loadedAs, replace_match (show pySuffix ≠ [] by decide), List.nil_append, ← loadedAs]

theorem loadedAs_cons {c : Char} {t : Str} (h : ¬pySuffix <+: c :: t) : loadedAs (c :: t) = dotted c :: loadedAs t := by
  rw [loadedAs, loadedAs, replace_cons h, replace_slash, List.map_cons, ← replace_slash]

theorem loadedAs_slash (t : Str) : loadedAs (slashPy ++ t) = pySuffix ++ loadedAs t := by
  have h : ∀ {c : Char} {s : Str}, c ≠ '.' → ¬pySuffix <+: c :: s := fun hc h => hc (List.cons_prefix_cons.mp h).1.symm
  rw [show slashPy ++ t = '/' :: 'p' :: 'y' :: t from rfl, loadedAs_cons (h (by decide)), loadedAs_cons (h (by decide)),
    loadedAs_cons (h (by decide))]
  rfl

theorem unloadedAs_dot (t : Str) : unloadedAs (pySuffix ++ t) = unloadedAs t := by
  rw [unloadedAs, unloadedAs, replace_slash, replace_slash, List.map_append]
  exact replace_match (List.cons_ne_nil _ _)

theorem unloadedAs_slash (t : Str) : unloadedAs (slashPy ++ t) = unloadedAs t := by
  rw [unloadedAs, unloadedAs, replace_slash, replace_slash, List.map_append]
  exact replace_match (List.cons_ne_nil _ _)

theorem unloadedAs_cons {c : Char} {t : Str} (hd : ¬pySuffix <+: c :: t) (hs : ¬slashPy <+: c :: t) :
    unloadedAs (c :: t) = dotted c :: unloadedAs t := by
  rw [unloadedAs, unloadedAs, replace_slash, replace_slash]
  exact replace_cons fun h => (isPrefix_map_dotted h).elim hd hs

/-- Unloading never makes the longer name, and the shorter one where `/py` is in the path. -/
theorem length_unloadedAs (t : Str) :
    (unloadedAs t).length ≤ (loadedAs t).length ∧ (slashPy <:+: t → (unloadedAs t).length < (loadedAs t).length) := by
  induction t using py_induction with
  | nil => exact ⟨le_rfl, fun h => absurd (List.infix_nil.mp h) (List.cons_ne_nil _ _)⟩
  | dot t ih =>
    rw [unloadedAs_dot, loadedAs_dot]
    refine ⟨ih.1, fun h => ih.2 ?_⟩
    exact (isInfix_append_of_head (by decide)).mp h
  | slash t ih =>
    rw [unloadedAs_slash, loadedAs_slash, List.length_append]
    have : pySuffix.length = 3 := rfl
    omega
  | cons c t hd hs ih =>
    rw [unloadedAs_cons hd hs, loadedAs_cons hd, List.length_cons, List.length_cons]
    refine ⟨Nat.succ_le_succ ih.1, fun h => Nat.succ_lt_succ (ih.2 ?_)⟩
    exact (List.infix_cons_iff.mp h).resolve_left hs

theorem unloadedAs_of_not {t : Str} : ¬slashPy <:+: t → unloadedAs t = loadedAs t := by
  induction t using py_induction with
  | nil => exact fun _ => rfl
  | dot t ih =>
    intro h
    rw [unloadedAs_dot, loadedAs_dot]
    exact ih fun hs => h (hs.trans (List.suffix_append _ _).isInfix)
  | slash t ih => exact fun h => absurd (List.prefix_append _ _).isInfix h
  | cons c t hd hs ih =>
    intro h
    rw [unloadedAs_cons hd hs, loadedAs_cons hd, ih fun ht => h (List.infix_cons_iff.mpr (.inr ht))]

/-- The path of a file, as it is written. -/
def written (pyFile : List Str) : Str := join "/".toList pyFile

/-- The two names are the same unless `/py` is in the path. -/
theorem unloadedAs_eq_iff (t : Str) : unloadedAs t = loadedAs t ↔ ¬slashPy <:+: t := by
  refine ⟨fun h hs => ?_, unloadedAs_of_not⟩
  have := (length_unloadedAs t).2 hs
  rw [h] at this
  exact absurd this (lt_irrefl _)

theorem poppedName_eq_iff (pyFile : List Str) : poppedName pyFile = moduleName pyFile ↔ ¬slashPy <:+: written pyFile :=
  unloadedAs_eq_iff (written pyFile)

/-! ## Files -/

/-- A folder's name that is not hidden. -/
def Visible (name : Str) : Prop := name ≠ [] ∧ name.head? ≠ some '.'

instance (name : Str) : Decidable (Visible name) := inferInstanceAs (Decidable (_ ∧ _))

/-- What the loader accepts: Python files below the plugin's folder, each of which is found again under the name it is
imported under, and no folder of one has a file of its name beside it. -/
structure Accepted (root : List Str) (pyFiles : List (List Str)) : Prop where
  rooted : root ≠ []
  below : ∀ f ∈ pyFiles, ∃ folders name, f = root ++ folders ++ [name] ∧ (∀ c ∈ folders, Visible c) ∧ isPyFile name = true
  found : ∀ f ∈ pyFiles, pyFile (pathOf (moduleName f)) = f
  apart : ∀ f ∈ pyFiles, ∀ folder, folder <+: f.dropLast → pyFile folder ∉ pyFiles

/-- The disk has these Python files in the plugin's folder and no others, and the folders above are without
`__init__.py`, as `cat` and `cat/plugins` are. -/
structure Stores (root : List Str) (pyFiles : List (List Str)) (fs : Files) : Prop where
  files : ∀ f ∈ pyFiles, ∃ text, lookup f fs = some (.file text)
  only : ∀ folders name text, (∀ c ∈ folders, Visible c) → isPyFile name = true →
    lookup (root ++ folders ++ [name]) fs = some (.file text) → root ++ folders ++ [name] ∈ pyFiles
  above : ∀ folder, folder <+: root → folder ≠ [] → folder ≠ root → findSpec fs folder = some ⟨true, none⟩
  beside : ∀ text, lookup (pyFile root) fs ≠ some (.file text)

/-- Where a folder of the files is in `sys.modules`, it is a package. -/
def Ready (pyFiles : List (List Str)) (ms : Modules Loaded) : Prop :=
  ∀ f ∈ pyFiles, ∀ folder, folder <+: f.dropLast → folder ≠ [] →
    ∀ m, ms.table.get? (nameOf folder) = some m → m.spec.isPackage = true

/-- `sys.modules` after an activation and a deactivation. -/
def unloaded (py : Python Loaded) (fs : Files) (pyFiles : List (List Str)) (ms : Modules Loaded) : Modules Loaded :=
  removeModules pyFiles (importAll py fs (pyFiles.map moduleName) ms).1

/-- What activation, deactivation and activation promise of the plugin's files, whatever their code. -/
structure Reloads (root : List Str) (pyFiles : List (List Str)) : Prop where
  names : ∀ f ∈ pyFiles, poppedName f = moduleName f
  removed (py : Python Loaded) (fs : Files) (ms : Modules Loaded) (hfs : Stores root pyFiles fs) (hms : Ready pyFiles ms) :
    ∀ name m, (unloaded py fs pyFiles ms).table.get? name = some m → ∀ source ∈ m.spec.source, source.1 ∉ pyFiles
  executed (py : Python Loaded) (fs fs' : Files) (ms : Modules Loaded) (hfs : Stores root pyFiles fs)
    (hfs' : Stores root pyFiles fs') (hms : Ready pyFiles ms) : ∀ f ∈ pyFiles, ∀ text, lookup f fs' = some (.file text) →
      MadeBetween (unloaded py fs pyFiles ms) (importAll py fs' (pyFiles.map moduleName) (unloaded py fs pyFiles ms)).1
        (moduleName f) ⟨false, some (f, text)⟩

/-! ## Unloading -/

theorem get?_removeModules {name : Str} : ∀ (pyFiles : List (List Str)) (ms : Modules Loaded),
    (removeModules pyFiles ms).table.get? name =
      if name ∈ pyFiles.map poppedName then none else ms.table.get? name
  | [], _ => (if_neg List.not_mem_nil).symm
  | f :: fs, ms => by
    have hpop : (ms.pop (poppedName f)).table.get? name = if name = poppedName f then none else ms.table.get? name :=
      Dict.get?_erase ..
    rw [removeModules, List.foldl_cons, ← removeModules, get?_removeModules fs, hpop, List.map_cons]
    by_cases hf : name = poppedName f <;> simp [hf]

/-- Unloading leaves modules, and adds none. -/
theorem of_get?_removeModules {pyFiles : List (List Str)} {ms : Modules Loaded} {name : Str} {m : Module Loaded}
    (h : (removeModules pyFiles ms).table.get? name = some m) :
    name ∉ pyFiles.map poppedName ∧ ms.table.get? name = some m := by
  rw [get?_removeModules] at h
  split at h
  · cases h
  · exact ⟨‹_›, h⟩

/-! ## The folders -/

theorem pyFile_append (folder : List Str) (name : Str) : pyFile (folder ++ [name]) = folder ++ [name ++ ".py".toList] := by
  simp [pyFile]

theorem pyFile_injective {path path' : List Str} (hne : path ≠ []) (hne' : path' ≠ []) (h : pyFile path = pyFile path') :
    path = path' := by
  obtain ⟨folder, name, rfl⟩ := List.eq_nil_or_concat path |>.resolve_left hne
  obtain ⟨folder', name', rfl⟩ := List.eq_nil_or_concat path' |>.resolve_left hne'
  rw [List.concat_eq_append, List.concat_eq_append, pyFile_append, pyFile_append] at h
  obtain ⟨hfolder, hname⟩ := List.append_inj' h rfl
  rw [hfolder, List.append_cancel_right (List.cons.inj hname).1]

theorem dir_of_file {fs : Files} {text : Str} (folder : List Str) {rest : List Str} (hne : rest ≠ [])
    (h : lookup (folder ++ rest) fs = some (.file text)) : ∃ cs, lookup folder fs = some (.dir cs) := by
  rw [lookup_append] at h
  obtain ⟨t, ht, hrest⟩ := Option.bind_eq_some_iff.mp h
  obtain ⟨n, rest, rfl⟩ := List.exists_cons_of_ne_nil hne
  cases t with
  | file _ => cases hrest
  | dir cs => exact ⟨cs, ht⟩

section

variable {root : List Str} {pyFiles : List (List Str)} {fs : Files} {ms : Modules Loaded} {f : List Str}

theorem exists_pathOf (name : Str) : ∃ folder last, pathOf name = folder ++ [last] := by
  rcases List.eq_nil_or_concat (pathOf name) with h | ⟨folder, last, h⟩
  · exact absurd h (List.splitOn_ne_nil _ _)
  · exact ⟨folder, last, by rw [h, List.concat_eq_append]⟩

theorem Accepted.pathOf_eq (ha : Accepted root pyFiles) (hf : f ∈ pyFiles) :
    (pathOf (moduleName f)).dropLast = f.dropLast ∧ ∀ c ∈ f.dropLast, '.' ∉ c := by
  have hfound := ha.found f hf
  obtain ⟨folder, name, hpath⟩ := exists_pathOf (moduleName f)
  have hdots := dot_notMem_pathOf (moduleName f)
  rw [hpath] at hdots
  rw [hpath, pyFile_append] at hfound
  rw [hpath, ← hfound, List.dropLast_concat, List.dropLast_concat]
  exact ⟨rfl, fun c hc => hdots c (List.mem_append_left _ hc)⟩

/-- A folder of the plugin has no `__init__.py` where none is among the files. -/
theorem Stores.init_ne (hfs : Stores root pyFiles fs) (hno : ∀ f ∈ pyFiles, f.getLast? ≠ some "__init__.py".toList)
    {inner : List Str} (hinner : ∀ c ∈ inner, Visible c) (text : Str) :
    lookup (initFile (root ++ inner)) fs ≠ some (.file text) := fun h =>
  hno _ (hfs.only inner _ text hinner (by decide) h) (by simp)

/-- A folder of a file has no file of its name beside it. -/
theorem Accepted.beside_ne (ha : Accepted root pyFiles) (hfs : Stores root pyFiles fs) (hf : f ∈ pyFiles)
    {inner : List Str} (hfolder : root ++ inner <+: f.dropLast) (hinner : ∀ c ∈ inner, Visible c) (text : Str) :
    lookup (pyFile (root ++ inner)) fs ≠ some (.file text) := by
  rcases List.eq_nil_or_concat inner with rfl | ⟨outer, d, rfl⟩
  · rw [List.append_nil]
    exact hfs.beside text
  · intro h
    have hd := hinner d (by simp)
    have hisPy : isPyFile (d ++ ".py".toList) = true := by
      obtain ⟨x, d, rfl⟩ := List.exists_cons_of_ne_nil hd.1
      rw [isPyFile, Bool.and_eq_true, decide_eq_true_eq]
      exact ⟨List.suffix_append _ _, by simpa using hd.2⟩
    rw [List.concat_eq_append, ← List.append_assoc] at h hfolder
    have hapart := ha.apart _ hf (root ++ outer ++ [d]) hfolder
    rw [pyFile_append] at h hapart
    exact hapart (hfs.only outer _ text (fun c hc => hinner c (by simp [hc])) hisPy h)

/-- Without `__init__.py`, all folders of a file are imported as packages without code. -/
theorem Accepted.open (ha : Accepted root pyFiles) (hno : ∀ f ∈ pyFiles, f.getLast? ≠ some "__init__.py".toList)
    (hfs : Stores root pyFiles fs) (hms : Ready pyFiles ms) (hf : f ∈ pyFiles) : Open fs ms f.dropLast := by
  intro folder hfolder hne
  refine ⟨pathOf_nameOf hne fun c hc => (ha.pathOf_eq hf).2 c (hfolder.subset hc), ?_, hms f hf folder hfolder hne⟩
  obtain ⟨folders, name, rfl, hvisible, -⟩ := ha.below f hf
  have hfolder' : folder <+: root ++ folders := by rwa [List.dropLast_concat] at hfolder
  by_cases habove : folder <+: root ∧ folder ≠ root
  · exact hfs.above folder habove.1 hne habove.2
  obtain ⟨inner, rfl⟩ : root <+: folder := by
    rcases List.prefix_or_prefix_of_prefix hfolder' (List.prefix_append root folders) with h | h
    · have hroot : folder = root := by
        by_contra hn
        exact habove ⟨h, hn⟩
      rw [hroot]
    · exact h
  have hinner : ∀ c ∈ inner, Visible c := fun c hc =>
    hvisible c (((List.prefix_append_right_inj root).mp hfolder').subset hc)
  obtain ⟨text, htext⟩ := hfs.files _ hf
  obtain ⟨rest, hrest⟩ := hfolder'
  rw [← hrest, List.append_assoc] at htext
  obtain ⟨cs, hcs⟩ := dir_of_file (root ++ inner) (by simp) htext
  unfold findSpec
  split
  · exact absurd ‹_› (hfs.init_ne hno hinner _)
  · split
    · exact absurd ‹_› (ha.beside_ne hfs hf hfolder hinner _)
    · rw [hcs]

/-- Under its module's name, a file is found. -/
theorem Accepted.findSpec_eq (ha : Accepted root pyFiles) (hno : ∀ f ∈ pyFiles, f.getLast? ≠ some "__init__.py".toList)
    (hfs : Stores root pyFiles fs) (hf : f ∈ pyFiles) {text : Str} (htext : lookup f fs = some (.file text)) :
    findSpec fs (pathOf (moduleName f)) = some ⟨false, some (f, text)⟩ := by
  have hfound := ha.found f hf
  obtain ⟨folders, name, hf', hvisible, hname⟩ := ha.below f hf
  obtain ⟨folder, last, hpath⟩ := exists_pathOf (moduleName f)
  rw [hpath, pyFile_append, hf'] at hfound
  obtain ⟨rfl, hlast⟩ := List.append_inj' hfound rfl
  have hlast : last ++ ".py".toList = name := (List.cons.inj hlast).1
  have hvisible' : Visible last := by
    rw [isPyFile, ← hlast, Bool.and_eq_true] at hname
    cases last with
    | nil => exact absurd hname.2 (by decide)
    | cons x last => exact ⟨List.cons_ne_nil _ _, by simpa using hname.2⟩
  have hinner : ∀ c ∈ folders ++ [last], Visible c := fun c hc => by
    rcases List.mem_append.mp hc with hc | hc
    · exact hvisible c hc
    · exact List.mem_singleton.mp hc ▸ hvisible'
  have hinit (text : Str) := hfs.init_ne hno hinner text
  rw [← List.append_assoc, ← hpath] at hinit
  unfold findSpec
  split
  · exact absurd ‹_› (hinit _)
  · rw [ha.found f hf, htext]

theorem Ready.unloaded (ha : Accepted root pyFiles) (hno : ∀ f ∈ pyFiles, f.getLast? ≠ some "__init__.py".toList)
    (hfs : Stores root pyFiles fs) (hms : Ready pyFiles ms) (py : Python Loaded) :
    Ready pyFiles (unloaded py fs pyFiles ms) := by
  intro f hf folder hfolder hne m hm
  have hopen := (ha.open hno hfs hms hf).imports (importAll_imports py fs (pyFiles.map moduleName) ms)
  exact (hopen folder hfolder hne).2.2 m (of_get?_removeModules hm).2

/-! ## Loading again -/

/-- Unloading under the names of loading leaves no module of a file that is not a package's. -/
theorem removed_of_names (ha : Accepted root pyFiles) (hnames : ∀ f ∈ pyFiles, poppedName f = moduleName f)
    (hno : ∀ f ∈ pyFiles, f.getLast? ≠ some "__init__.py".toList) {name : Str} {m : Module Loaded}
    (hm : (removeModules pyFiles ms).table.get? name = some m) {source : Source} (hsource : source ∈ m.spec.source) :
    source.1 ∉ pyFiles := by
  intro hmem
  obtain ⟨hpopped, hm⟩ := of_get?_removeModules hm
  rcases ms.sourced name m hm source hsource with hinit | hpy
  · exact hno _ hmem (by rw [hinit]; simp [initFile])
  · have hpath : pathOf name = pathOf (moduleName source.1) :=
      pyFile_injective (List.splitOn_ne_nil _ _) (List.splitOn_ne_nil _ _) (hpy.symm.trans (ha.found _ hmem).symm)
    have hname : name = poppedName source.1 := by
      rw [hnames _ hmem, ← nameOf_pathOf name, hpath, nameOf_pathOf]
    exact hpopped (hname ▸ List.mem_map_of_mem hmem)

/-- A package that is in `sys.modules` stays there. -/
theorem package_left (ha : Accepted root pyFiles) (hnames : ∀ f ∈ pyFiles, poppedName f = moduleName f) (hf : f ∈ pyFiles)
    (hinit : f.getLast? = some "__init__.py".toList) (hfs : Stores root pyFiles fs) (py : Python Loaded) :
    ∃ ms name m source, Ready pyFiles ms ∧ (unloaded py fs pyFiles ms).table.get? name = some m ∧ source ∈ m.spec.source ∧
      source.1 ∈ pyFiles := by
  obtain ⟨folders, last, rfl, -, -⟩ := ha.below f hf
  obtain rfl : last = "__init__.py".toList := by simpa using hinit
  have hdots := (ha.pathOf_eq hf).2
  rw [List.dropLast_concat] at hdots
  have hne : root ++ folders ≠ [] := by simp [ha.rooted]
  have hpath := pathOf_nameOf hne hdots
  obtain ⟨text, htext⟩ := hfs.files _ hf
  obtain ⟨spec, hspec, hpackage, hsource⟩ : ∃ spec, findSpec fs (pathOf (nameOf (root ++ folders))) = some spec ∧
      spec.isPackage = true ∧ spec.source = some (initFile (root ++ folders), text) :=
    ⟨⟨true, some _⟩, by rw [hpath, findSpec, initFile, htext], rfl, rfl⟩
  -- the package as an earlier import has left it
  obtain ⟨ms, hms⟩ : ∃ ms : Modules Loaded, ms = Modules.empty.begin _ _ (findSpec_at hspec) .empty := ⟨_, rfl⟩
  have hget (name : Str) : ms.table.get? name =
      if name = nameOf (root ++ folders) then some ⟨nameOf (root ++ folders), 0, spec, .empty⟩ else none := by
    rw [hms]
    exact Dict.get?_set ..
  refine ⟨ms, nameOf (root ++ folders), ⟨nameOf (root ++ folders), 0, spec, .empty⟩, (initFile (root ++ folders), text),
    ?_, ?_, hsource, hf⟩
  · intro g _ folder _ _ m hm
    rw [hget] at hm
    split at hm
    · rw [← Option.some.inj hm]
      exact hpackage
    · cases hm
  · have hkept := (importAll_imports py fs (pyFiles.map moduleName) ms).kept (nameOf (root ++ folders)) _
      ((hget _).trans (if_pos rfl))
    rw [unloaded, get?_removeModules, hkept, if_neg]
    rintro hmem
    obtain ⟨g, hg, hpopped⟩ := List.mem_map.mp hmem
    rw [hnames g hg] at hpopped
    have hfound := ha.found g hg
    rw [hpopped, hpath] at hfound
    exact ha.apart _ hf _ (by rw [List.dropLast_concat]) (hfound ▸ hg)

end

/-- The two names of every file are equal, no module of a file is left after an activation and a deactivation, and
activating again executes the new code of every file, exactly when no path has `/py` in it and no file is a
`__init__.py`. -/
theorem reloads_iff {root : List Str} {pyFiles : List (List Str)} (ha : Accepted root pyFiles) {fs : Files}
    (hfs : Stores root pyFiles fs) : Reloads root pyFiles ↔
      ∀ f ∈ pyFiles, ¬slashPy <:+: written f ∧ f.getLast? ≠ some "__init__.py".toList := by
  constructor
  · refine fun h f hf => ⟨(poppedName_eq_iff f).mp (h.names f hf), fun hinit => ?_⟩
    obtain ⟨ms, name, m, source, hms, hm, hsource, hmem⟩ :=
      package_left ha h.names hf hinit hfs ⟨fun _ _ _ => .done true, .empty, 0⟩
    exact h.removed _ fs ms hfs hms name m hm source hsource hmem
  · intro h
    have hnames (f) (hf : f ∈ pyFiles) : poppedName f = moduleName f := (poppedName_eq_iff f).mpr (h f hf).1
    have hno (f) (hf : f ∈ pyFiles) := (h f hf).2
    refine ⟨hnames, fun py fs ms _ _ name m hm source hsource => removed_of_names ha hnames hno hm hsource, ?_⟩
    intro py fs fs' ms hfs hfs' hms f hf text htext
    have hopen := ha.open hno hfs' (hms.unloaded ha hno hfs py) hf
    rw [← (ha.pathOf_eq hf).1] at hopen
    refine importAll_executes (List.mem_map_of_mem hf) hopen (ha.findSpec_eq hno hfs' hf htext) ?_
    rw [unloaded, get?_removeModules, if_pos]
    exact List.mem_map.mpr ⟨f, hf, hnames f hf⟩

/-! ## Two plugins -/

/-- Code that imports the package of its folder's `lib`, and code that imports nothing. -/
def samplePython : Python Loaded where
  exec _ _ text :=
    if text = "from .lib import hello".toList then .imports "p.lib".toList fun m => .done m.isSome else .done true
  blank := .empty
  limit := 9

def helperPath : List Str := ["p".toList, "sub".toList, "a.py".toList]

def helperDisk : Files := .dir [("p".toList, .dir [("sub".toList, .dir [("a.py".toList, .file [])])])]

theorem helper_accepted : Accepted ["p".toList] [helperPath] where
  rooted := by decide
  below f hf := by
    obtain rfl := List.mem_singleton.mp hf
    exact ⟨["sub".toList], "a.py".toList, rfl, by decide, by decide⟩
  found := by decide
  apart f hf folder hfolder := by
    obtain rfl := List.mem_singleton.mp hf
    have hnone : ∀ folder ∈ (List.inits helperPath.dropLast), pyFile folder ∉ [helperPath] := by decide
    exact hnone folder ((List.mem_inits _ _).mpr hfolder)

theorem helper_stores : Stores ["p".toList] [helperPath] helperDisk where
  files f hf := by
    obtain rfl := List.mem_singleton.mp hf
    exact ⟨[], rfl⟩
  only folders name text _ _ h := by
    match folders with
    | [] => simp [helperDisk, lookup, Dict.find] at h
    | [c] =>
      simp [helperDisk, lookup, Dict.find, Option.bind_eq_some_iff] at h
      obtain ⟨rfl, rfl, -⟩ := h
      exact .head _
    | c :: d :: folders =>
      simp [helperDisk, lookup, Dict.find, Option.bind_eq_some_iff] at h
      obtain ⟨-, -, h⟩ := h
      cases folders <;> simp [lookup] at h
  above folder hfolder hne hroot := by
    have habove : ∀ folder ∈ List.inits ["p".toList], folder ≠ [] → folder ≠ ["p".toList] →
        findSpec helperDisk folder = some ⟨true, none⟩ := by decide
    exact habove folder ((List.mem_inits _ _).mpr hfolder) hne hroot
  beside text h := by simp [helperDisk, pyFile, lookup, Dict.find] at h

theorem reloads_helper : Reloads ["p".toList] [helperPath] :=
  (reloads_iff helper_accepted helper_stores).mpr (by decide)

def pythonPath : List Str := ["p".toList, "pya.py".toList]

def pythonDisk (text : String) : Files := .dir [("p".toList, .dir [("pya.py".toList, .file text.toList)])]

def packageFiles : List (List Str) := [["p".toList, "main.py".toList], ["p".toList, "lib".toList, "__init__.py".toList]]

def packageDisk (text : String) : Files :=
  .dir [("p".toList, .dir [("main.py".toList, .file "from .lib import hello".toList),
    ("lib".toList, .dir [("__init__.py".toList, .file text.toList)])])]

/-- `p/pya.py` is imported as `p.pya`, and `deactivate` looks for `pa`: the old code stays, and the new code is not
executed. The package `p.lib` that `p/main.py` imports stays as well, and `p/main.py` gets the old one again. -/
theorem python_module_stale : ¬Reloads ["p".toList] [pythonPath] ∧
    (let ms := unloaded samplePython (pythonDisk "old") [pythonPath] .empty
     ms.table.keys = ["p".toList, "p.pya".toList] ∧
      (importAll samplePython (pythonDisk "new") [moduleName pythonPath] ms).1.made = ms.made) ∧
    let ms := unloaded samplePython (packageDisk "old") packageFiles .empty
    ms.table.keys = ["p".toList, "p.lib".toList] ∧
      (importAll samplePython (packageDisk "new") (packageFiles.map moduleName) ms).1.table.get? "p.lib".toList =
        ms.table.get? "p.lib".toList := by
  refine ⟨fun h => ?_, by decide +kernel, by decide +kernel, ?_⟩
  · exact absurd (h.names pythonPath (.head _)) (by decide)
  · exact (importAll_imports samplePython _ _ _).kept _ _ rfl

end KCore.MadHatter.Importing
