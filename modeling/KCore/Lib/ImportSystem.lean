import KCore.Lib.FileTree
import KCore.Lib.Text

/-!
# Python's import system

`sys.modules`, and what the import of a name does to it: the packages above it are
imported first, and the code that is found for it is executed, unless the name is there.
Code may import other modules, take a submodule as an attribute of its package, and
raise. Whatever the code, imports keep the modules that are there, and make new ones from
the files (`importAt_imports`); below folders that are packages an import executes the
file of its name (`importFrom_executes`).
-/

namespace ImportSystem

open Text FileTree

/-- A file, and its text. -/
abbrev Source := List Str × Str

/-- What is found for a name; a package of a folder without `__init__.py` has no source. -/
structure Spec where
  isPackage : Bool
  source : Option Source
  deriving DecidableEq

/-- A module object: how many were made before it, and what its names are bound to. -/
structure Module (N : Type) where
  name : Str
  index : ℕ
  spec : Spec
  names : N

/-- The path of a name, and the name of a path. -/
def pathOf (name : Str) : List Str := split '.' name

def nameOf (path : List Str) : Str := join ['.'] path

/-- The file of a module that is no package. -/
def pyFile (path : List Str) : List Str := path.dropLast ++ [path.getLast?.getD [] ++ ".py".toList]

/-- The file of a package. -/
def initFile (path : List Str) : List Str := path ++ ["__init__.py".toList]

/-- The source is a file of this path. -/
def Spec.At (spec : Spec) (path : List Str) : Prop :=
  ∀ source ∈ spec.source, source.1 = initFile path ∨ source.1 = pyFile path

/-- `sys.modules`, the submodules that packages bind, and two logs: the modules that were made, and those that imports
and packages gave. -/
structure Modules (N : Type) where
  table : Dict Str (Module N)
  bound : Dict (ℕ × Str) (Module N)
  made : List (Str × Spec)
  given : List (Module N)
  logged : ∀ name m, table.get? name = some m → m.name = name ∧ made[m.index]? = some (name, m.spec)
  sourced : ∀ name m, table.get? name = some m → m.spec.At (pathOf name)
  named : ∀ k m, bound.get? k = some m → m.name = k.2

/-- The code of a module, as far as imports see it: names are bound, modules are imported or taken as attributes, and in
the end it returns or raises. -/
inductive Code (N : Type) where
  | done (returns : Bool)
  | bind (names : N) (next : Code N)
  | imports (name : Str) (next : Option (Module N) → Code N)
  | attribute (name : Str) (next : Option (Module N) → Code N)

/-- The code that the text of a module is, given how many modules were made before; the names of a module before its code
is executed; and how deep imports nest until they raise. -/
structure Python (N : Type) where
  exec : ℕ → Str → Str → Code N
  blank : N
  limit : ℕ

variable {N : Type}

/-! ## Modules -/

theorem Modules.past (ms : Modules N) {name : Str} {m : Module N} (h : ms.table.get? name = some m) :
    m.index < ms.made.length := (List.getElem?_eq_some_iff.mp (ms.logged name m h).2).1

def Modules.empty : Modules N where
  table := .empty
  bound := .empty
  made := []
  given := []
  logged := fun _ _ hm => by cases hm
  sourced := fun _ _ hm => by cases hm
  named := fun _ _ hm => by cases hm

/-- A new module object in `sys.modules`. -/
def Modules.begin (ms : Modules N) (name : Str) (spec : Spec) (h : spec.At (pathOf name)) (names : N) : Modules N where
  table := ms.table.set name ⟨name, ms.made.length, spec, names⟩
  bound := ms.bound
  made := ms.made ++ [(name, spec)]
  given := ms.given
  named := ms.named
  logged := fun name' m hm => by
    rw [Dict.get?_set] at hm
    split at hm
    · rename_i he
      obtain rfl := Option.some.inj hm
      exact ⟨he.symm, by simp [he]⟩
    · obtain ⟨hname, hlog⟩ := ms.logged name' m hm
      exact ⟨hname, by rw [List.getElem?_append_left (ms.past hm), hlog]⟩
  sourced := fun name' m hm => by
    rw [Dict.get?_set] at hm
    split at hm
    · rename_i he
      rw [he, ← Option.some.inj hm]
      exact h
    · exact ms.sourced name' m hm

/-- The module of the name has these names now. -/
def Modules.bind (ms : Modules N) (name : Str) (names : N) : Modules N where
  table := match ms.table.get? name with
    | some m => ms.table.set name { m with names := names }
    | none => ms.table
  bound := ms.bound
  made := ms.made
  given := ms.given
  named := ms.named
  logged := fun name' m hm => by
    split at hm
    · rename_i old hold
      rw [Dict.get?_set] at hm
      split at hm
      · rename_i he
        obtain rfl := Option.some.inj hm
        exact he ▸ ms.logged name old hold
      · exact ms.logged name' m hm
    · exact ms.logged name' m hm
  sourced := fun name' m hm => by
    split at hm
    · rename_i old hold
      rw [Dict.get?_set] at hm
      split at hm
      · rename_i he
        obtain rfl := Option.some.inj hm
        exact he ▸ ms.sourced name old hold
      · exact ms.sourced name' m hm
    · exact ms.sourced name' m hm

/-- `sys.modules.pop(name)`, if it is there. -/
def Modules.pop (ms : Modules N) (name : Str) : Modules N where
  table := ms.table.erase name
  bound := ms.bound
  made := ms.made
  given := ms.given
  named := ms.named
  logged := fun name' m hm => by
    rw [Dict.get?_erase] at hm
    split at hm
    · cases hm
    · exact ms.logged name' m hm
  sourced := fun name' m hm => by
    rw [Dict.get?_erase] at hm
    split at hm
    · cases hm
    · exact ms.sourced name' m hm

/-- The package binds its submodule. -/
def Modules.attach (ms : Modules N) (package : Option (Module N)) (m : Module N) : Modules N where
  table := ms.table
  bound := match package with
    | some p => ms.bound.set (p.index, m.name) m
    | none => ms.bound
  made := ms.made
  given := ms.given
  logged := ms.logged
  sourced := ms.sourced
  named := fun k m' hm => by
    split at hm
    · rw [Dict.get?_set] at hm
      split at hm
      · rename_i he
        rw [he, ← Option.some.inj hm]
      · exact ms.named k m' hm
    · exact ms.named k m' hm

def Modules.give (ms : Modules N) (m : Option (Module N)) : Modules N :=
  { ms with given := ms.given ++ m.toList }

/-- The submodule that the package above the name binds. -/
def Modules.attribute (ms : Modules N) (name : Str) : Option (Module N) :=
  (ms.table.get? (nameOf (pathOf name).dropLast)).bind fun p => ms.bound.get? (p.index, name)

/-! ## Imports -/

/-- A package's folder comes before a file, and a file before a folder without `__init__.py`. -/
def findSpec (fs : FileTree Str Str) (path : List Str) : Option Spec :=
  match lookup (initFile path) fs with
  | some (.file text) => some ⟨true, some (initFile path, text)⟩
  | _ =>
    match lookup (pyFile path) fs with
    | some (.file text) => some ⟨false, some (pyFile path, text)⟩
    | _ =>
      match lookup path fs with
      | some (.dir _) => some ⟨true, none⟩
      | _ => none

theorem findSpec_at {fs : FileTree Str Str} {path : List Str} {spec : Spec} (h : findSpec fs path = some spec) :
    spec.At path := by
  unfold findSpec at h
  split at h
  · obtain rfl := Option.some.inj h
    exact fun source hs => .inl (Option.some.inj hs ▸ rfl)
  · split at h
    · obtain rfl := Option.some.inj h
      exact fun source hs => .inr (Option.some.inj hs ▸ rfl)
    · split at h
      · obtain rfl := Option.some.inj h
        exact nofun
      · cases h

/-- The code of a module is executed; the result says whether it returned. -/
def run (import' : Str → Modules N → Modules N × Option (Module N)) (name : Str) : Code N → Modules N → Modules N × Bool
  | .done returns, ms => (ms, returns)
  | .bind names next, ms => run import' name next (ms.bind name names)
  | .imports other next, ms =>
    let (ms, m) := import' other ms
    run import' name (next m) ms
  | .attribute other next, ms => run import' name (next (ms.attribute other)) (ms.give (ms.attribute other))

def execute (py : Python N) (import' : Str → Modules N → Modules N × Option (Module N)) (name : Str) (spec : Spec)
    (h : spec.At (pathOf name)) (ms : Modules N) : Modules N × Bool :=
  match spec.source with
  | none => (ms.begin name spec h py.blank, true)
  | some (_, text) => run import' name (py.exec ms.made.length name text) (ms.begin name spec h py.blank)

/-- The module is in `sys.modules` while its code is executed, and stays there unless it raises. -/
def load (py : Python N) (fs : FileTree Str Str) (import' : Str → Modules N → Modules N × Option (Module N))
    (name : Str) (package : Option (Module N)) (ms : Modules N) : Modules N × Option (Module N) :=
  match h : findSpec fs (pathOf name) with
  | none => (ms, none)
  | some spec =>
    match execute py import' name spec (findSpec_at h) ms with
    | (ms, false) => (ms.pop name, none)
    | (ms, true) =>
      match ms.table.get? name with
      | none => (ms, none)
      | some m => (ms.attach package m, some m)

/-- The import of a path, given from its end; the packages above may import it themselves. -/
def importFrom (py : Python N) (fs : FileTree Str Str) (import' : Str → Modules N → Modules N × Option (Module N)) :
    List Str → Modules N → Modules N × Option (Module N)
  | [], ms => (ms, none)
  | last :: above, ms =>
    match ms.table.get? (nameOf (last :: above).reverse) with
    | some m => (ms, some m)
    | none =>
      if above = [] then load py fs import' (nameOf (last :: above).reverse) none ms
      else
        match importFrom py fs import' above ms with
        | (ms, none) => (ms, none)
        | (ms, some package) =>
          match ms.table.get? (nameOf (last :: above).reverse) with
          | some m => (ms, some m)
          | none =>
            if package.spec.isPackage then load py fs import' (nameOf (last :: above).reverse) (some package) ms
            else (ms, none)

/-- `importlib.import_module`, where imports may nest so deep; `none` where it raises. -/
def importAt (py : Python N) (fs : FileTree Str Str) : ℕ → Str → Modules N → Modules N × Option (Module N)
  | 0, _, ms => (ms, none)
  | limit + 1, name, ms =>
    let (ms, m) := importFrom py fs (importAt py fs limit) (pathOf name).reverse ms
    (ms.give m, m)

def importModule (py : Python N) (fs : FileTree Str Str) : Str → Modules N → Modules N × Option (Module N) :=
  importAt py fs (py.limit + 1)

/-- The imports of several names, one after the other, each of which may raise. -/
def importAll (py : Python N) (fs : FileTree Str Str) : List Str → Modules N → Modules N × List (Module N)
  | [], ms => (ms, [])
  | name :: names, ms =>
    let (ms, m) := importModule py fs name ms
    let (ms, rest) := importAll py fs names ms
    (ms, m.toList ++ rest)

/-! ## What imports do -/

/-- The code takes no attribute of these names. -/
def Code.Avoids (P : Str → Prop) : Code N → Prop
  | .done _ => True
  | .bind _ next => next.Avoids P
  | .imports _ next => ∀ m, (next m).Avoids P
  | .attribute name next => ¬P name ∧ ∀ m, (next m).Avoids P

def Python.Avoids (py : Python N) (P : Str → Prop) : Prop := ∀ index name text, (py.exec index name text).Avoids P

/-- The module was made since `ms`, of what is found for its name. -/
structure Made (fs : FileTree Str Str) (ms : Modules N) (m : Module N) : Prop where
  since : ms.made.length ≤ m.index
  found : findSpec fs (pathOf m.name) = some m.spec

/-- The modules that are there stay, new ones are made from the files, and packages bind only those. What imports gave is
new as well, or was there, or was bound and taken as an attribute. -/
structure Imports (py : Python N) (fs : FileTree Str Str) (ms ms' : Modules N) : Prop where
  made : ms.made <+: ms'.made
  kept : ∀ name m, ms.table.get? name = some m → ms'.table.get? name = some m
  new : ∀ name m, ms'.table.get? name = some m → ms.table.get? name = some m ∨ Made fs ms m
  bound : ∀ k m, ms'.bound.get? k = some m → ms.bound.get? k = some m ∨ Made fs ms m
  given : ∃ extra, ms'.given = ms.given ++ extra ∧ ∀ m ∈ extra, ms.table.get? m.name = some m ∨ Made fs ms m ∨
    (∃ k, ms.bound.get? k = some m) ∧ ∀ P, py.Avoids P → ¬P m.name

variable {py : Python N} {fs : FileTree Str Str} {ms ms₁ ms₂ ms₃ : Modules N} {name : Str} {m : Module N}

theorem Made.mono (h : Made fs ms₂ m) (hle : ms₁.made <+: ms₂.made) : Made fs ms₁ m :=
  ⟨hle.length_le.trans h.since, h.found⟩

theorem Imports.refl (py : Python N) (fs : FileTree Str Str) (ms : Modules N) : Imports py fs ms ms :=
  ⟨List.prefix_rfl, fun _ _ h => h, fun _ _ h => .inl h, fun _ _ h => .inl h, [], (List.append_nil _).symm, nofun⟩

theorem Imports.trans (h : Imports py fs ms₁ ms₂) (h' : Imports py fs ms₂ ms₃) : Imports py fs ms₁ ms₃ where
  made := h.made.trans h'.made
  kept := fun name m hm => h'.kept name m (h.kept name m hm)
  new := fun name m hm => (h'.new name m hm).elim (h.new name m) fun hmade => .inr (hmade.mono h.made)
  bound := fun k m hm => (h'.bound k m hm).elim (h.bound k m) fun hmade => .inr (hmade.mono h.made)
  given := by
    obtain ⟨extra, he, hextra⟩ := h.given
    obtain ⟨extra', he', hextra'⟩ := h'.given
    refine ⟨extra ++ extra', by rw [he', he, List.append_assoc], fun m hm => ?_⟩
    rcases List.mem_append.mp hm with hm | hm
    · exact hextra m hm
    · rcases hextra' m hm with htable | hmade | ⟨⟨k, hbound⟩, havoids⟩
      · exact (h.new _ m htable).imp_right .inl
      · exact .inr (.inl (hmade.mono h.made))
      · exact .inr ((h.bound k m hbound).elim (fun hb => .inr ⟨⟨k, hb⟩, havoids⟩) .inl)

theorem Imports.since (h : Imports py fs ms₁ ms₂) (hm : ms₂.table.get? name = some m)
    (hnone : ms₁.table.get? name = none) : Made fs ms₁ m := by
  refine (h.new name m hm).resolve_left fun hold => ?_
  rw [hnone] at hold
  cases hold

theorem pathOf_nameOf {path : List Str} (hne : path ≠ []) (hdot : ∀ c ∈ path, '.' ∉ c) : pathOf (nameOf path) = path :=
  split_join hne hdot

theorem dot_notMem_pathOf (name : Str) : ∀ c ∈ pathOf name, '.' ∉ c := fun _ hc => notMem_of_mem_split hc

theorem nameOf_pathOf (name : Str) : nameOf (pathOf name) = name := List.intercalate_splitOn '.'

/-! ## One module -/

section

variable {import' : Str → Modules N → Modules N × Option (Module N)} {spec : Spec}

/-- What happens to the entry of a name that was not there is nothing that imports do not do. -/
theorem Imports.of_table {ms' : Modules N} (h : Imports py fs ms ms₁) (hnone : ms.table.get? name = none)
    (hmade : ms'.made = ms₁.made) (hbound : ms'.bound = ms₁.bound) (hgiven : ms'.given = ms₁.given)
    (hother : ∀ other, other ≠ name → ms'.table.get? other = ms₁.table.get? other)
    (hown : ∀ m, ms'.table.get? name = some m → Made fs ms m) : Imports py fs ms ms' where
  made := hmade ▸ h.made
  kept := fun other m hm => by
    have hne : other ≠ name := fun he => by rw [he, hnone] at hm; cases hm
    rw [hother other hne]
    exact h.kept other m hm
  new := fun other m hm => by
    by_cases he : other = name
    · exact .inr (hown m (he ▸ hm))
    · rw [hother other he] at hm
      exact h.new other m hm
  bound := hbound ▸ h.bound
  given := hgiven ▸ h.given

theorem imports_begin (hfound : findSpec fs (pathOf name) = some spec) (hnone : ms.table.get? name = none) (names : N) :
    Imports py fs ms (ms.begin name spec (findSpec_at hfound) names) where
  made := List.prefix_append _ _
  kept := fun other m hm => by
    have hne : other ≠ name := fun he => by rw [he, hnone] at hm; cases hm
    exact (Dict.get?_set_of_ne _ _ hne).trans hm
  new := fun other m hm => by
    by_cases he : other = name
    · subst he
      obtain rfl := Option.some.inj ((Dict.get?_set_self ms.table other _).symm.trans hm)
      exact .inr ⟨le_refl _, hfound⟩
    · exact .inl ((Dict.get?_set_of_ne _ _ he).symm.trans hm)
  bound := fun _ _ h => .inl h
  given := ⟨[], (List.append_nil _).symm, nofun⟩

theorem Imports.bind (h : Imports py fs ms ms₁) (hnone : ms.table.get? name = none) (names : N) :
    Imports py fs ms (ms₁.bind name names) := by
  refine h.of_table hnone rfl rfl rfl (fun other hne => ?_) fun m hm => ?_
  · simp only [Modules.bind]
    split
    · exact Dict.get?_set_of_ne _ _ hne
    · rfl
  · simp only [Modules.bind] at hm
    split at hm
    · rename_i old hold
      rw [Dict.get?_set_self] at hm
      obtain rfl := Option.some.inj hm
      have hmade := h.since hold hnone
      exact ⟨hmade.since, hmade.found⟩
    · exact h.since hm hnone

theorem Imports.pop (h : Imports py fs ms ms₁) (hnone : ms.table.get? name = none) :
    Imports py fs ms (ms₁.pop name) := by
  refine h.of_table hnone rfl rfl rfl (fun other hne => ?_) fun m hm => ?_
  · exact (Dict.get?_erase ..).trans (if_neg hne)
  · cases hm.symm.trans ((Dict.get?_erase ..).trans (if_pos rfl))

theorem Imports.attach (h : Imports py fs ms ms₁) (hm : Made fs ms m) (package : Option (Module N)) :
    Imports py fs ms (ms₁.attach package m) where
  made := h.made
  kept := h.kept
  new := h.new
  given := h.given
  bound := fun k m' hm' => by
    simp only [Modules.attach] at hm'
    split at hm'
    · rw [Dict.get?_set] at hm'
      split at hm'
      · exact .inr (Option.some.inj hm' ▸ hm)
      · exact h.bound k m' hm'
    · exact h.bound k m' hm'

/-- An import gave the module that is there, or code took a submodule. -/
theorem Imports.give (h : Imports py fs ms ms₁) {r : Option (Module N)}
    (hr : ∀ m ∈ r, ms₁.table.get? m.name = some m ∨ (∃ k, ms₁.bound.get? k = some m) ∧ ∀ P, py.Avoids P → ¬P m.name) :
    Imports py fs ms (ms₁.give r) where
  made := h.made
  kept := h.kept
  new := h.new
  bound := h.bound
  given := by
    obtain ⟨extra, he, hextra⟩ := h.given
    refine ⟨extra ++ r.toList, by rw [Modules.give, he, List.append_assoc], fun m hm => ?_⟩
    rcases List.mem_append.mp hm with hm | hm
    · exact hextra m hm
    · rcases hr m (Option.mem_toList.mp hm) with htable | ⟨⟨k, hbound⟩, havoids⟩
      · exact (h.new _ m htable).imp_right .inl
      · exact .inr ((h.bound k m hbound).elim (fun hb => .inr ⟨⟨k, hb⟩, havoids⟩) .inl)

theorem attribute_bound {m : Module N} (h : ms.attribute name = some m) :
    (∃ k, ms.bound.get? k = some m) ∧ m.name = name := by
  obtain ⟨p, -, hm⟩ := Option.bind_eq_some_iff.mp h
  exact ⟨⟨_, hm⟩, ms.named _ m hm⟩

/-- An import does what imports do, and gives the module that is there after it. -/
def Sound (py : Python N) (fs : FileTree Str Str) (import' : Str → Modules N → Modules N × Option (Module N)) : Prop :=
  ∀ name ms, Imports py fs ms (import' name ms).1 ∧ ∀ m ∈ (import' name ms).2, (import' name ms).1.table.get? name = some m

theorem run_imports (himport : Sound py fs import') (hnone : ms.table.get? name = none) :
    ∀ {code : Code N} {ms₁ : Modules N}, (∀ P, py.Avoids P → code.Avoids P) → Imports py fs ms ms₁ → Imports py fs ms (run import' name code ms₁).1
  | .done _, _, _, h => h
  | .bind names next, _, hcode, h => by
    rw [run]
    exact run_imports himport hnone hcode (h.bind hnone names)
  | .imports other next, ms₁, hcode, h => by
    rw [run]
    exact run_imports himport hnone (fun P hP => hcode P hP _) (h.trans (himport other ms₁).1)
  | .attribute other next, ms₁, hcode, h => by
    rw [run]
    refine run_imports himport hnone (fun P hP => (hcode P hP).2 _) (h.give fun m hm => .inr ?_)
    obtain ⟨hbound, rfl⟩ := attribute_bound hm
    exact ⟨hbound, fun P hP => (hcode P hP).1⟩

theorem load_imports (himport : Sound py fs import') (hnone : ms.table.get? name = none) (package : Option (Module N)) :
    Imports py fs ms (load py fs import' name package ms).1 ∧
      ∀ m ∈ (load py fs import' name package ms).2, (load py fs import' name package ms).1.table.get? name = some m := by
  unfold load
  split
  · exact ⟨.refl py fs ms, nofun⟩
  · rename_i spec hspec
    have hbegin : Imports py fs ms (ms.begin name spec (findSpec_at hspec) py.blank) := imports_begin hspec hnone py.blank
    have hexecute : Imports py fs ms (execute py import' name spec (findSpec_at hspec) ms).1 := by
      unfold execute
      split
      · exact hbegin
      · exact run_imports himport hnone (fun P hP => hP _ _ _) hbegin
    rcases hres : execute py import' name spec (findSpec_at hspec) ms with ⟨ms', _ | _⟩
    · rw [hres] at hexecute
      exact ⟨hexecute.pop hnone, nofun⟩
    · rw [hres] at hexecute
      dsimp only
      cases hm : ms'.table.get? name with
      | none => exact ⟨hexecute, nofun⟩
      | some m =>
        refine ⟨hexecute.attach (hexecute.since hm hnone) package, fun m' hm' => ?_⟩
        obtain rfl := Option.some.inj hm'
        exact hm

/-! ## One import -/

theorem importFrom_imports (himport : Sound py fs import') : ∀ (path : List Str) (ms : Modules N),
    Imports py fs ms (importFrom py fs import' path ms).1 ∧ ∀ m ∈ (importFrom py fs import' path ms).2,
      (importFrom py fs import' path ms).1.table.get? (nameOf path.reverse) = some m
  | [], ms => ⟨.refl py fs ms, nofun⟩
  | last :: above, ms => by
    rw [importFrom]
    cases hm : ms.table.get? (nameOf (last :: above).reverse) with
    | some m => exact ⟨.refl py fs ms, fun m' hm' => Option.some.inj hm' ▸ hm⟩
    | none =>
      dsimp only
      split
      · exact load_imports himport hm none
      · have himports := (importFrom_imports himport above ms).1
        rcases hres : importFrom py fs import' above ms with ⟨ms', _ | package⟩
        · rw [hres] at himports
          exact ⟨himports, nofun⟩
        · rw [hres] at himports
          dsimp only
          cases hm' : ms'.table.get? (nameOf (last :: above).reverse) with
          | some m => exact ⟨himports, fun m' hm'' => Option.some.inj hm'' ▸ hm'⟩
          | none =>
            dsimp only
            split
            · obtain ⟨hload, hloaded⟩ := load_imports himport hm' (some package)
              exact ⟨himports.trans hload, hloaded⟩
            · exact ⟨himports, nofun⟩

theorem importAt_imports (py : Python N) (fs : FileTree Str Str) : ∀ limit, Sound py fs (importAt py fs limit)
  | 0 => fun _ ms => ⟨.refl py fs ms, nofun⟩
  | limit + 1 => fun name ms => by
    obtain ⟨himports, hgives⟩ := importFrom_imports (importAt_imports py fs limit) (pathOf name).reverse ms
    rw [List.reverse_reverse, nameOf_pathOf] at hgives
    refine ⟨himports.give fun m hm => .inl ?_, hgives⟩
    have htable := hgives m hm
    rwa [(Modules.logged _ _ _ htable).1]

theorem importAll_imports (py : Python N) (fs : FileTree Str Str) : ∀ (names : List Str) (ms : Modules N),
    Imports py fs ms (importAll py fs names ms).1
  | [], ms => .refl py fs ms
  | name :: _, ms => by
    rw [importAll]
    exact (importAt_imports py fs _ name ms).1.trans (importAll_imports py fs _ _)

/-- The imports of several names give modules of these names that are there after all of them. -/
theorem importAll_gives (py : Python N) (fs : FileTree Str Str) : ∀ (names : List Str) (ms : Modules N),
    ∀ m ∈ (importAll py fs names ms).2, m.name ∈ names ∧ (importAll py fs names ms).1.table.get? m.name = some m
  | name :: names, ms, m, hm => by
    rw [importAll] at hm ⊢
    rcases List.mem_append.mp hm with hm | hm
    · have htable := (importAt_imports py fs _ name ms).2 m (Option.mem_toList.mp hm)
      have hname := (Modules.logged _ _ _ htable).1
      exact ⟨hname ▸ .head _, (importAll_imports py fs names _).kept _ m (hname ▸ htable)⟩
    · exact (importAll_gives py fs names _ m hm).imp_left (.tail _)

/-! ## What is executed -/

/-- A module of this name and spec was made between the two. -/
def MadeBetween (ms ms' : Modules N) (name : Str) (spec : Spec) : Prop := (name, spec) ∈ ms'.made.drop ms.made.length

theorem MadeBetween.mono (h : MadeBetween ms ms₁ name spec) (hle : ms₁.made <+: ms₂.made) :
    MadeBetween ms ms₂ name spec := by
  obtain ⟨later, hlater⟩ := hle
  rw [MadeBetween, ← hlater, List.drop_append]
  exact List.mem_append_left _ h

theorem MadeBetween.earlier (h : MadeBetween ms₁ ms₂ name spec) (hle : ms.made <+: ms₁.made) :
    MadeBetween ms ms₂ name spec := by
  have hlength : ms₁.made.length = ms.made.length + (ms₁.made.length - ms.made.length) := by
    have := hle.length_le
    omega
  rw [MadeBetween, hlength, ← List.drop_drop] at h
  exact List.mem_of_mem_drop h

theorem Made.between (h : Made fs ms m) (hm : ms₁.table.get? name = some m)
    (hspec : findSpec fs (pathOf name) = some spec) : MadeBetween ms ms₁ name spec := by
  obtain ⟨hname, hlog⟩ := ms₁.logged name m hm
  have hfound := h.found
  rw [hname, hspec] at hfound
  rw [MadeBetween, Option.some.inj hfound, List.mem_iff_getElem?]
  refine ⟨m.index - ms.made.length, ?_⟩
  rw [List.getElem?_drop, Nat.add_sub_cancel' h.since, hlog]

theorem run_made (himport : Sound py fs import') : ∀ (code : Code N) (ms : Modules N),
    ms.made <+: (run import' name code ms).1.made
  | .done _, _ => List.prefix_rfl
  | .bind names next, ms => by
    rw [run]
    exact run_made himport next (ms.bind name names)
  | .imports other _, ms => by
    rw [run]
    exact (himport other ms).1.made.trans (run_made himport _ _)
  | .attribute other _, ms => by
    rw [run]
    exact run_made himport _ (ms.give (ms.attribute other))

/-- A module that is loaded is made, whether its code raises or not; without code it stays. -/
theorem load_made (himport : Sound py fs import') (hspec : findSpec fs (pathOf name) = some spec)
    (package : Option (Module N)) (ms : Modules N) :
    MadeBetween ms (load py fs import' name package ms).1 name spec ∧
      (spec.source = none → ∃ m, (load py fs import' name package ms).2 = some m ∧ m.spec = spec) := by
  unfold load
  split
  · rename_i hnone
    cases hnone.symm.trans hspec
  · rename_i spec' hspec'
    obtain rfl := Option.some.inj (hspec.symm.trans hspec')
    have hbegin : MadeBetween ms (ms.begin name spec (findSpec_at hspec) py.blank) name spec := by
      rw [MadeBetween, Modules.begin, List.drop_left]
      exact .head _
    have hmade : MadeBetween ms (execute py import' name spec (findSpec_at hspec) ms).1 name spec := by
      unfold execute
      split
      · exact hbegin
      · exact hbegin.mono (run_made himport _ _)
    constructor
    · rcases hres : execute py import' name spec (findSpec_at hspec) ms with ⟨ms', _ | _⟩
      · rw [hres] at hmade
        exact hmade
      · rw [hres] at hmade
        dsimp only
        cases ms'.table.get? name with
        | none => exact hmade
        | some m => exact hmade
    · intro hsource
      have hexecute : execute py import' name spec (findSpec_at hspec) ms =
          (ms.begin name spec (findSpec_at hspec) py.blank, true) := by
        unfold execute
        rw [hsource]
      rw [hexecute]
      dsimp only [Modules.begin]
      rw [Dict.get?_set_self]
      exact ⟨_, rfl, rfl⟩

/-- All folders of the path are packages without code, as they are on the disk and in `sys.modules`. -/
def Open (fs : FileTree Str Str) (ms : Modules N) (path : List Str) : Prop :=
  ∀ folder, folder <+: path → folder ≠ [] → pathOf (nameOf folder) = folder ∧ findSpec fs folder = some ⟨true, none⟩ ∧
    ∀ m, ms.table.get? (nameOf folder) = some m → m.spec.isPackage = true

theorem Open.prefix {path path' : List Str} (h : Open fs ms path) (hp : path' <+: path) : Open fs ms path' :=
  fun folder hfolder => h folder (hfolder.trans hp)

theorem Open.imports {path : List Str} (h : Open fs ms path) (hi : Imports py fs ms ms₁) : Open fs ms₁ path := by
  intro folder hfolder hne
  obtain ⟨hpath, hspec, hpackage⟩ := h folder hfolder hne
  refine ⟨hpath, hspec, fun m hm => ?_⟩
  rcases hi.new _ m hm with hold | hmade
  · exact hpackage m hold
  · have hfound := hmade.found
    rw [(ms₁.logged _ m hm).1, hpath, hspec] at hfound
    rw [← Option.some.inj hfound]

theorem importFrom_opens (himport : Sound py fs import') : ∀ {path : List Str} {ms : Modules N}, path ≠ [] →
    Open fs ms path.reverse → ∃ m, (importFrom py fs import' path ms).2 = some m ∧ m.spec.isPackage = true
  | [], _, hne, _ => absurd rfl hne
  | last :: above, ms, _, h => by
    obtain ⟨hpath, hspec, hpackage⟩ := h _ List.prefix_rfl (mt List.reverse_eq_nil_iff.mp (List.cons_ne_nil _ _))
    have hloads (package : Option (Module N)) (ms : Modules N) :
        ∃ m, (load py fs import' (nameOf (last :: above).reverse) package ms).2 = some m ∧ m.spec.isPackage = true := by
      obtain ⟨m, hm, hms⟩ := (load_made himport (hpath.symm ▸ hspec) package ms).2 rfl
      exact ⟨m, hm, by rw [hms]⟩
    rw [importFrom]
    cases hm : ms.table.get? (nameOf (last :: above).reverse) with
    | some m => exact ⟨m, rfl, hpackage m hm⟩
    | none =>
      dsimp only
      split
      · exact hloads none ms
      · rename_i hne
        have habove : Open fs ms above.reverse := h.prefix (by rw [List.reverse_cons]; exact List.prefix_append _ _)
        have himports := (importFrom_imports himport above ms).1
        obtain ⟨package, hgives, hopen⟩ := importFrom_opens himport hne habove
        rcases hres : importFrom py fs import' above ms with ⟨ms', r⟩
        rw [hres] at himports hgives
        subst hgives
        dsimp only
        cases hm' : ms'.table.get? (nameOf (last :: above).reverse) with
        | some m => exact ⟨m, rfl, (h.imports himports _ List.prefix_rfl (by simp)).2.2 m hm'⟩
        | none =>
          rw [if_pos hopen]
          exact hloads (some package) ms'

/-- Below open folders, the import of a name that is not there makes its module. -/
theorem importFrom_executes (himport : Sound py fs import') (last : Str) (above : List Str) {ms : Modules N}
    (habove : Open fs ms above.reverse) (hspec : findSpec fs (pathOf (nameOf (last :: above).reverse)) = some spec)
    (hnone : ms.table.get? (nameOf (last :: above).reverse) = none) :
    MadeBetween ms (importFrom py fs import' (last :: above) ms).1 (nameOf (last :: above).reverse) spec := by
  rw [importFrom, hnone]
  dsimp only
  split
  · exact (load_made himport hspec none ms).1
  · rename_i hne
    have himports := (importFrom_imports himport above ms).1
    obtain ⟨package, hgives, hopen⟩ := importFrom_opens himport hne habove
    rcases hres : importFrom py fs import' above ms with ⟨ms', r⟩
    rw [hres] at himports hgives
    subst hgives
    dsimp only
    cases hm : ms'.table.get? (nameOf (last :: above).reverse) with
    | some m => exact (himports.since hm hnone).between hm hspec
    | none =>
      rw [if_pos hopen]
      exact (load_made himport hspec (some package) ms').1.earlier himports.made

theorem importModule_executes {ms : Modules N} (habove : Open fs ms (pathOf name).dropLast)
    (hspec : findSpec fs (pathOf name) = some spec) (hnone : ms.table.get? name = none) :
    MadeBetween ms (importModule py fs name ms).1 name spec := by
  obtain ⟨above, last, hpath⟩ : ∃ above last, (pathOf name).reverse = last :: above := by
    cases hr : (pathOf name).reverse with
    | nil => exact absurd (List.reverse_eq_nil_iff.mp hr) (List.splitOn_ne_nil _ _)
    | cons last above => exact ⟨above, last, rfl⟩
  have hname : nameOf (last :: above).reverse = name := by rw [← hpath, List.reverse_reverse, nameOf_pathOf]
  have hdrop : (pathOf name).dropLast = above.reverse := by
    rw [← List.reverse_reverse (pathOf name), hpath, List.reverse_cons, List.dropLast_concat]
  have hmade := importFrom_executes (importAt_imports py fs py.limit) last above (hdrop ▸ habove) (hname.symm ▸ hspec)
    (hname.symm ▸ hnone)
  rw [← hpath, List.reverse_reverse, nameOf_pathOf] at hmade
  exact hmade

/-- Of several names, each that is not there is executed, in its turn or by the code of another. -/
theorem importAll_executes : ∀ {names : List Str} {ms : Modules N}, name ∈ names → Open fs ms (pathOf name).dropLast →
    findSpec fs (pathOf name) = some spec → ms.table.get? name = none →
      MadeBetween ms (importAll py fs names ms).1 name spec
  | other :: names, ms, hmem, habove, hspec, hnone => by
    rw [importAll]
    have hfirst := (importAt_imports py fs (py.limit + 1) other ms).1
    have hrest : Imports py fs (importModule py fs other ms).1 (importAll py fs names (importModule py fs other ms).1).1 :=
      importAll_imports py fs names _
    rcases List.mem_cons.mp hmem with rfl | hmem
    · exact (importModule_executes habove hspec hnone).mono hrest.made
    · cases hm : (importModule py fs other ms).1.table.get? name with
      | some m => exact ((hfirst.since hm hnone).between hm hspec).mono hrest.made
      | none => exact (importAll_executes hmem (habove.imports hfirst) hspec hm).earlier hfirst.made

end

end ImportSystem
