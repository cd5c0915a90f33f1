import KCore.Lib.Run
import KCore.Impl.Hara.Tools

/-!
# Where the data of the HARA tables comes from

`Prov` records, beside the memory, from which successful `extract_functions` call
each value was derived, and for which item the definition that the call read was
found. In a run that stays with one item and finds a definition that mentions it
(`OneItem`), every stored table and all safety goals come from that item
(`hara_run_ok`).
-/

namespace KCore.Hara

open Text

/-- A successful call of `extract_functions`: its item, and the item that the text it read was found for. -/
structure Source where
  item : Str
  definitionOf : Option Str
  deriving DecidableEq

/-- The name that a table is stored under, and what it was built from. -/
structure Built where
  itemName : Option Str
  functions : Option Source
  hazop : Option Source
  exposure : Option Source
  deriving DecidableEq

/-- Where the values of a memory come from. -/
structure Prov where
  definitionOf : Option Str
  functions : Option Source
  hazop : Option Source
  exposure : Option Source
  hara : Option Built
  goals : Option Built
  deriving DecidableEq

def Prov.init : Prov := ⟨none, none, none, none, none, none⟩

/-- The item that the text read by a call is a definition of: a text just found, if it mentions the
item of the call; the cached text, if it is one. -/
def foundFor (u : Unicode) (m : Memory) (p : Prov) (fs : Folders) (item : Str) : Option Str :=
  match m.itemDefinitionContent with
  | some _ => p.definitionOf
  | none => if mentions u item (text (fs.search u item)) then some item else none

/-- The origins after a call with this answer. -/
def Prov.after (u : Unicode) (m : Memory) (p : Prov) : Call → Answer → Prov
  | .extractFunctions _ fs _, .functionsExtracted item _ =>
    { p with definitionOf := foundFor u m p fs item, functions := some ⟨item, foundFor u m p fs item⟩ }
  | _, .hazopCompleted .. => { p with hazop := p.functions }
  | _, .exposureAssessed .. => { p with exposure := p.hazop }
  | _, .tableGenerated .. => { p with hara := some ⟨m.haraItemName, p.functions, p.hazop, p.exposure⟩ }
  | _, .safetyGoalsDerived .. => { p with goals := p.hara.map fun b => { b with itemName := m.haraItemName } }
  | _, _ => p

/-- A call, with the origins recorded. -/
def tracked (u : Unicode) (s : Memory × Prov) (c : Call) : Memory × Prov :=
  ((step u s.1 c).1, s.2.after u s.1 c (step u s.1 c).2)

/-- From a call for `x` that read a definition found for `x`. -/
def Source.of (x : Str) : Source := ⟨x, some x⟩

/-- Stored under the name `x`, and built from data of `x`. -/
def Built.of (x : Str) : Built := ⟨some x, some (.of x), some (.of x), some (.of x)⟩

/-- A stored table and stored safety goals are those of the item whose name they have. -/
def Sound (s : Memory × Prov) : Prop :=
  (s.1.haraTable ≠ none → ∃ x, s.2.hara = some (.of x)) ∧
  (s.1.safetyGoals ≠ none → ∃ x, s.2.goals = some (.of x))

/-- The first file that the search takes mentions the item. -/
def FoundMentions (u : Unicode) (fs : Folders) (item : Str) : Prop :=
  ∀ f ∈ fs.existing.flatten.find? (fun f => (checkFile u fs.pdfAvailable item f).isSome),
    ∀ content ∈ f.content, mentions u item content = true

/-- A call of `extract_functions` whose model answers names the item that the memory has a definition
of; without one, the file it finds mentions the item. -/
def OneItem (u : Unicode) (s : Memory × Prov) : Call → Prop
  | .extractFunctions toolInput fs (some _) =>
    if s.1.itemDefinitionContent = none then FoundMentions u fs (itemNameOf toolInput)
    else s.1.haraItemName = some (itemNameOf toolInput)
  | _ => True

/-! ## What a call stores -/

/-- The memory and the origins after a call: as before, or with what the tool stores. -/
inductive Effect (u : Unicode) (m : Memory) (p : Prov) : Call → Memory × Prov → Prop
  | quiet (c : Call) : Effect u m p c (m, p)
  | extracted {toolInput : ToolInput} {fs : Folders} {reply content : Str} {functions : Option Str} {stage : Option Stage}
      (found : findItemDefinition u m fs (itemNameOf toolInput) = some content) :
      Effect u m p (.extractFunctions toolInput fs (some reply))
        ({ m with
            haraItemName := some (itemNameOf toolInput)
            itemFunctions := functions
            itemDefinitionContent := some content
            haraStage := stage },
          { p with
            definitionOf := foundFor u m p fs (itemNameOf toolInput)
            functions := some ⟨itemNameOf toolInput, foundFor u m p fs (itemNameOf toolInput)⟩ })
  | hazop {c : Call} {table name : Option Str} {stage : Option Stage} (hf : m.itemFunctions ≠ none) :
      Effect u m p c ({ m with hazopAnalysis := table, haraStage := stage, systemName := name },
        { p with hazop := p.functions })
  | exposure {c : Call} {table : Option Str} {stage : Option Stage} (hh : m.hazopAnalysis ≠ none) :
      Effect u m p c ({ m with exposureAssessments := table, haraStage := stage }, { p with exposure := p.hazop })
  | hara {c : Call} {document table name : Option Str} {stage : Option Stage} (hh : m.hazopAnalysis ≠ none)
      (he : m.exposureAssessments ≠ none) :
      Effect u m p c
        ({ m with documentType := document, haraTable := table, haraStage := stage, systemName := name },
          { p with hara := some ⟨m.haraItemName, p.functions, p.hazop, p.exposure⟩ })
  | goals {c : Call} {goals : Option Str} {stage : Option Stage} (ht : m.haraTable ≠ none) :
      Effect u m p c ({ m with safetyGoals := goals, haraStage := stage },
        { p with goals := p.hara.map fun b => { b with itemName := m.haraItemName } })

theorem ne_none_of_text {value : Option Str} (h : text value ≠ []) : value ≠ none := by
  rintro rfl
  exact h rfl

theorem tracked_effect (u : Unicode) (m : Memory) (p : Prov) (c : Call) :
    Effect u m p c (tracked u (m, p) c) := by
  cases c with
  | extractFunctions toolInput fs llm =>
    simp only [tracked, step, extractFunctions]
    by_cases hc : text (findItemDefinition u m fs (itemNameOf toolInput)) = []
    · simp only [if_pos hc]
      exact .quiet _
    simp only [if_neg hc]
    cases llm with
    | none => exact .quiet _
    | some reply =>
      obtain ⟨content, hcontent⟩ := Option.ne_none_iff_exists'.mp (ne_none_of_text hc)
      rw [hcontent]
      exact .extracted hcontent
  | applyHazopAnalysis toolInput guideWords llm =>
    simp only [tracked, step, applyHazopAnalysis]
    by_cases hf : text m.itemFunctions = []
    · simp only [if_pos hf]
      exact .quiet _
    simp only [if_neg hf]
    split
    · exact .quiet _
    split
    · exact .quiet _
    split
    · exact .quiet _
    · exact .hazop (ne_none_of_text hf)
  | assessExposureForAllHazards situations llm =>
    simp only [tracked, step, assessExposureForAllHazards]
    by_cases hh : text m.hazopAnalysis = []
    · simp only [if_pos hh]
      exact .quiet _
    simp only [if_neg hh]
    split
    · exact .quiet _
    split
    · exact .quiet _
    split
    · exact .quiet _
    cases llm with
    | none => exact .quiet _
    | some reply => exact .exposure (ne_none_of_text hh)
  | generateHaraTable llm =>
    simp only [tracked, step, generateHaraTable]
    by_cases hh : text m.hazopAnalysis = []
    · simp only [if_pos hh]
      exact .quiet _
    by_cases he : text m.exposureAssessments = []
    · simp only [if_neg hh, if_pos he]
      exact .quiet _
    simp only [if_neg hh, if_neg he]
    cases llm with
    | none => exact .quiet _
    | some reply => exact .hara (ne_none_of_text hh) (ne_none_of_text he)
  | deriveSafetyGoals llm =>
    simp only [tracked, step, deriveSafetyGoals]
    by_cases ht : text m.haraTable = []
    · simp only [if_pos ht]
      exact .quiet _
    simp only [if_neg ht]
    split
    · exact .quiet _
    cases llm with
    | none => exact .quiet _
    | some reply => exact .goals (ne_none_of_text ht)

/-! ## Runs -/

/-- All data in the memory are those of `x`. -/
structure About (x : Str) (m : Memory) (p : Prov) : Prop where
  item : m.haraItemName = some x
  definition : m.itemDefinitionContent ≠ none
  found : p.definitionOf = some x
  functions : p.functions = some (.of x)
  hazop : m.hazopAnalysis ≠ none → p.hazop = some (.of x)
  exposure : m.exposureAssessments ≠ none → p.exposure = some (.of x)
  hara : m.haraTable ≠ none → p.hara = some (.of x)
  goals : m.safetyGoals ≠ none → p.goals = some (.of x)

/-- A memory in which no item was started. -/
structure Fresh (m : Memory) : Prop where
  definition : m.itemDefinitionContent = none
  functions : m.itemFunctions = none
  hazop : m.hazopAnalysis = none
  exposure : m.exposureAssessments = none
  hara : m.haraTable = none
  goals : m.safetyGoals = none

def Inv (s : Memory × Prov) : Prop := Fresh s.1 ∨ ∃ x, About x s.1 s.2

/-- A file that is taken gives its content. -/
theorem content_of_checkFile {u : Unicode} {pdf : Bool} {item content : Str} {f : File}
    (h : checkFile u pdf item f = some content) : f.content = some content := by
  rw [checkFile] at h
  split at h
  · exact h
  split at h
  · exact (Option.filter_eq_some_iff.mp h).1
  · cases h

/-- A search finds the content of the first file that it takes. -/
theorem search_eq_some {u : Unicode} {fs : Folders} {item content : Str} (h : fs.search u item = some content) :
    ∃ f, fs.existing.flatten.find? (fun f => (checkFile u fs.pdfAvailable item f).isSome) = some f ∧
      f.content = some content := by
  have key : ∀ files : List File, files.findSome? (checkFile u fs.pdfAvailable item) = some content →
      ∃ f, files.find? (fun f => (checkFile u fs.pdfAvailable item f).isSome) = some f ∧ f.content = some content := by
    intro files hfiles
    induction files with
    | nil => cases hfiles
    | cons f files ih =>
      rw [List.findSome?_cons] at hfiles
      rw [List.find?_cons]
      cases hf : checkFile u fs.pdfAvailable item f with
      | none =>
        rw [hf] at hfiles
        exact ih hfiles
      | some c =>
        rw [hf] at hfiles
        exact ⟨f, rfl, (content_of_checkFile hf).trans hfiles⟩
  obtain ⟨files, -, h⟩ := List.exists_of_findSome?_eq_some h
  obtain ⟨_, -, h⟩ := List.exists_of_findSome?_eq_some h
  refine key _ (Eq.trans ?_ h)
  generalize fs.existing = folders
  induction folders with
  | nil => rfl
  | cons files folders ih =>
    rw [List.flatten_cons, List.findSome?_append, List.findSome?_cons, ih]
    cases files.findSome? (checkFile u fs.pdfAvailable item) <;> rfl

/-- What is extracted in a run with one item is a definition found for the item. -/
theorem extracted_inv {u : Unicode} {m : Memory} {p : Prov} {toolInput : ToolInput} {fs : Folders} {reply content : Str}
    (hi : Inv (m, p)) (hc : OneItem u (m, p) (.extractFunctions toolInput fs (some reply)))
    (hfound : findItemDefinition u m fs (itemNameOf toolInput) = some content) :
    foundFor u m p fs (itemNameOf toolInput) = some (itemNameOf toolInput) ∧
      (Fresh m ∨ About (itemNameOf toolInput) m p) := by
  rw [OneItem] at hc
  rw [foundFor]
  rcases hi with hfresh | ⟨x, habout⟩
  · have hdef : m.itemDefinitionContent = none := hfresh.definition
    rw [if_pos hdef] at hc
    rw [findItemDefinition] at hfound
    simp only [hdef] at hfound ⊢
    obtain ⟨f, hf, hcontent⟩ := search_eq_some hfound
    have hmentions := hc f hf content hcontent
    rw [hfound, text, Option.getD_some, if_pos hmentions]
    exact ⟨rfl, .inl hfresh⟩
  · rw [if_neg habout.definition, habout.item] at hc
    obtain rfl := Option.some.inj hc
    obtain ⟨c, hdef⟩ : ∃ c, m.itemDefinitionContent = some c := Option.ne_none_iff_exists'.mp habout.definition
    simp only [hdef]
    exact ⟨habout.found, .inr habout⟩

theorem step_inv {u : Unicode} (s : Memory × Prov) (c : Call) (hi : Inv s) (hc : OneItem u s c) :
    Inv (tracked u s c) := by
  obtain ⟨m, p⟩ := s
  have he := tracked_effect u m p c
  generalize tracked u (m, p) c = s' at he ⊢
  cases he with
  | quiet => exact hi
  | @extracted toolInput _ _ _ _ _ hfound =>
    obtain ⟨hfor, hm⟩ := extracted_inv hi hc hfound
    rw [hfor]
    refine .inr ⟨itemNameOf toolInput, ?_⟩
    rcases hm with h | h
    · exact ⟨rfl, nofun, rfl, rfl, fun hn => absurd h.hazop hn, fun hn => absurd h.exposure hn,
        fun hn => absurd h.hara hn, fun hn => absurd h.goals hn⟩
    · exact ⟨rfl, nofun, rfl, rfl, h.hazop, h.exposure, h.hara, h.goals⟩
  | hazop hf =>
    rcases hi with h | ⟨x, h⟩
    · exact absurd h.functions hf
    · exact .inr ⟨x, h.item, h.definition, h.found, h.functions, fun _ => h.functions, h.exposure, h.hara, h.goals⟩
  | exposure hh =>
    rcases hi with h | ⟨x, h⟩
    · exact absurd h.hazop hh
    · exact .inr ⟨x, h.item, h.definition, h.found, h.functions, h.hazop, fun _ => h.hazop hh, h.hara, h.goals⟩
  | hara hh he =>
    rcases hi with h | ⟨x, h⟩
    · exact absurd h.hazop hh
    · refine .inr ⟨x, h.item, h.definition, h.found, h.functions, h.hazop, h.exposure, fun _ => ?_, h.goals⟩
      rw [h.item, h.functions, h.hazop hh, h.exposure he, Built.of]
  | goals ht =>
    rcases hi with h | ⟨x, h⟩
    · exact absurd h.hara ht
    · refine .inr ⟨x, h.item, h.definition, h.found, h.functions, h.hazop, h.exposure, h.hara, fun _ => ?_⟩
      rw [h.hara ht, h.item]
      rfl

/-- In every run that stays with one item, a stored table and stored safety goals come from the item
they are stored under. -/
theorem hara_run_ok (u : Unicode) {m : Memory} (hm : Fresh m) (cs : List Call)
    (h : Machine.Along (tracked u) (OneItem u) (m, Prov.init) cs) :
    Sound (Machine.run (tracked u) (m, Prov.init) cs) := by
  have hinit : Inv (m, Prov.init) := .inl hm
  rcases Machine.run_invariant step_inv hinit h with hi | ⟨x, hi⟩
  · exact ⟨fun hn => absurd hi.hara hn, fun hn => absurd hi.goals hn⟩
  · exact ⟨fun hn => ⟨x, hi.hara hn⟩, fun hn => ⟨x, hi.goals hn⟩⟩

/-! ## Two items -/

instance (u : Unicode) (fs : Folders) (item : Str) : Decidable (FoundMentions u fs item) :=
  inferInstanceAs (Decidable (∀ f ∈ fs.existing.flatten.find? (fun f => (checkFile u fs.pdfAvailable item f).isSome),
    ∀ content ∈ f.content, mentions u item content = true))

/-- A folder with a definition of the brake. -/
def brakeFolders : Folders := ⟨[some [⟨"brake.txt".toList, some "The brake stops the car.".toList⟩], none], true⟩

/-- A table for the brake, from its functions on. -/
def brakeCalls : List Call :=
  [.extractFunctions (.text "Brake".toList) brakeFolders (some "1. Stop: stops the car".toList),
    .applyHazopAnalysis .other true fun _ => some "| Stop | NO | No force | Crash | S3 | High speed |".toList,
    .assessExposureForAllHazards .loaded (some "| HAZ-001 | No force | Crash | URB-001 (E4) | City | E4 | MIN |".toList)]

def generateCall : Call := .generateHaraTable (some "| HAZ-001 | Stop |".toList)

theorem hara_run_brake :
    Sound (Machine.run (tracked .ascii) (Memory.init, Prov.init) (brakeCalls ++ [generateCall])) :=
  hara_run_ok .ascii ⟨rfl, rfl, rfl, rfl, rfl, rfl⟩ _ ⟨show FoundMentions _ _ _ by decide, trivial, trivial, trivial, trivial⟩

/-- The calls for the brake, then functions of the wiper: its table is built from the brake's data. -/
def wiperCalls : List Call :=
  brakeCalls ++
    [.extractFunctions (.text "Wiper".toList) brakeFolders (some "1. Wipe: clears the view".toList), generateCall]

theorem wiper_table_of_brake : ¬Sound (Machine.run (tracked .ascii) (Memory.init, Prov.init) wiperCalls) := by
  intro h
  have hstored : (Machine.run (tracked .ascii) (Memory.init, Prov.init) wiperCalls).2.hara =
      some ⟨some "Wiper".toList, some ⟨"Wiper".toList, some "Brake".toList⟩, some (.of "Brake".toList),
        some (.of "Brake".toList)⟩ := by
    decide +kernel
  obtain ⟨x, hx⟩ := h.1 (by decide +kernel)
  rw [hstored, Built.of, Option.some.injEq, Built.mk.injEq] at hx
  have hw : "Wiper".toList = x := Option.some.inj hx.1
  have hb : Source.of "Brake".toList = Source.of x := Option.some.inj hx.2.2.1
  rw [← hw] at hb
  exact absurd hb (by decide)

end KCore.Hara
