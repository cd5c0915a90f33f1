import KCore.Impl.Hara.Artifact
import KCore.Proof.Artifacts.Gate
import KCore.Proof.Hara.Provenance

/-!
# Whose table a HARA work product holds

`Log` records the tables that were produced, with the item of that moment, and what the
safety goals were derived from. A work product holds a table of its own item and goals
of that table (`Matched`) in every run that derives goals from a table just made and
saves for the item in progress (`work_products_matched`). The tool looks at neither, so
other runs save the table of one item under the name of another (`brake_saved_as_steering`).
-/

namespace KCore.Hara

open Text Artifacts Machine

/-! ## The log -/

/-- Each table with `hara_item_name` when it was produced, each text of goals with the table it was derived from. -/
structure Log where
  tables : List (Option Str × Str)
  goals : List (Str × Str)

def Log.init : Log := ⟨[], []⟩

/-- The log after an answer of a HARA tool that ran on the memory `m`. -/
def Log.record (l : Log) (m : Memory) : Answer → Log
  | .tableGenerated _ haraTable _ _ => { l with tables := (m.haraItemName, haraTable) :: l.tables }
  | .safetyGoalsDerived _ safetyGoals _ => { l with goals := (text m.haraTable, safetyGoals) :: l.goals }
  | _ => l

def Log.after (u : Unicode) (l : Log) (m : Memory) : Event → Log
  | .tool c => l.record m (step u m c).2
  | .generateHaraArtifact .. => l

/-- A call, with the log kept. -/
def logged (u : Unicode) (s : Session × Log) (e : Event) : Session × Log :=
  (s.1.after u e, s.2.after u s.1.memory e)

/-- The name that `generate_hara_artifact` takes for the item. -/
def artifactItem (data values : Values) : Value :=
  coalesce [data.value "item_name".toList, values.value "item_name".toList]

/-- What the call saves for an item is the table in the memory with the goals there; the table was produced
while `hara_item_name` was that item, and the goals, if any, were derived from it. -/
def Matched (s : Session × Log) : Event → Prop
  | .tool _ => True
  | .generateHaraArtifact env cfg load data =>
    ∀ m, (generateHaraArtifact env cfg load s.1 data).2 = .answer (.created m) →
      ∃ x, artifactItem data s.1.values = .text x ∧
        (generateHaraArtifact env cfg load s.1 data).1.store.get? m.mdPath =
          some (.markdown (artifactContent data x (text s.1.memory.haraTable) (text s.1.memory.safetyGoals) m)) ∧
        (some x, text s.1.memory.haraTable) ∈ s.2.tables ∧
        (text s.1.memory.safetyGoals ≠ [] →
          (text s.1.memory.haraTable, text s.1.memory.safetyGoals) ∈ s.2.goals)

/-- No step before the table was taken again since the table was produced. -/
def TableIsLast (m : Memory) : Prop := m.haraStage = some .tableGenerated ∨ m.haraStage = some .safetyGoalsDerived

/-- Goals are derived from a table that is the last result. A work product is saved for the item in progress,
with its table the last result and no goals from before it. -/
def InOrder (s : Session) : Event → Prop
  | .tool (.deriveSafetyGoals (some _)) => asilHazards (text s.memory.haraTable) ≠ [] → TableIsLast s.memory
  | .tool _ => True
  | .generateHaraArtifact _ _ load data =>
    Complete data s.values → load = .loaded → s.memory.haraTable ≠ none →
      s.memory.haraItemName.map Value.text = some (artifactItem data s.values) ∧ TableIsLast s.memory ∧
        (s.memory.haraStage = some .tableGenerated → text s.memory.safetyGoals = [])

/-! ## One call -/

/-- What a call of a HARA tool does to the table, the goals and the stage. -/
inductive Change (m : Memory) (l : Log) : Call → Memory × Log → Prop
  | quiet (c : Call) : Change m l c (m, l)
  | earlier {c : Call} {m' : Memory} (h : ¬TableIsLast m') : Change m l c (m', l)
  | table {c : Call} {document name : Option Str} (haraTable : Str) :
      Change m l c
        ({ m with
            documentType := document
            haraTable := some haraTable
            haraStage := some .tableGenerated
            systemName := name },
          { l with tables := (m.haraItemName, haraTable) :: l.tables })
  | goals {reply : Str} (safetyGoals : Str) (h : asilHazards (text m.haraTable) ≠ []) :
      Change m l (.deriveSafetyGoals (some reply))
        ({ m with safetyGoals := some safetyGoals, haraStage := some .safetyGoalsDerived },
          { l with goals := (text m.haraTable, safetyGoals) :: l.goals })

theorem extractFunctions_change (u : Unicode) (m : Memory) (l : Log) (toolInput : ToolInput) (fs : Folders)
    (llm : Option Str) : Change m l (.extractFunctions toolInput fs llm)
      ((extractFunctions u m toolInput fs llm).1, l.record m (extractFunctions u m toolInput fs llm).2) := by
  unfold extractFunctions
  extract_lets itemName itemDefContent
  split
  · exact .quiet _
  · cases llm with
    | none => exact .quiet _
    | some reply => exact .earlier (by rintro (h | h) <;> cases h)

theorem applyHazopAnalysis_change (u : Unicode) (m : Memory) (l : Log) (toolInput : ToolInput) (guideWords : Bool)
    (llm : Nat → Option Str) : Change m l (.applyHazopAnalysis toolInput guideWords llm)
      ((applyHazopAnalysis u m toolInput guideWords llm).1,
        l.record m (applyHazopAnalysis u m toolInput guideWords llm).2) := by
  unfold applyHazopAnalysis
  extract_lets functionsText itemName functions functions' rows finals fullTable
  split
  · exact .quiet _
  split
  · exact .quiet _
  split
  · exact .quiet _
  split
  · exact .quiet _
  · exact .earlier (by rintro (h | h) <;> cases h)

theorem assessExposureForAllHazards_change (m : Memory) (l : Log) (situations : Situations) (llm : Option Str) :
    Change m l (.assessExposureForAllHazards situations llm)
      ((assessExposureForAllHazards m situations llm).1,
        l.record m (assessExposureForAllHazards m situations llm).2) := by
  unfold assessExposureForAllHazards
  extract_lets hazopAnalysis itemName
  split
  · exact .quiet _
  split
  · exact .quiet _
  split
  · exact .quiet _
  split
  · exact .quiet _
  · cases llm with
    | none => exact .quiet _
    | some reply => exact .earlier (by rintro (h | h) <;> cases h)

theorem generateHaraTable_change (m : Memory) (l : Log) (llm : Option Str) :
    Change m l (.generateHaraTable llm)
      ((generateHaraTable m llm).1, l.record m (generateHaraTable m llm).2) := by
  unfold generateHaraTable
  extract_lets itemName
  split
  · exact .quiet _
  split
  · exact .quiet _
  · cases llm with
    | none => exact .quiet _
    | some reply => exact .table (strip reply)

theorem deriveSafetyGoals_change (m : Memory) (l : Log) (llm : Option Str) :
    Change m l (.deriveSafetyGoals llm)
      ((deriveSafetyGoals m llm).1, l.record m (deriveSafetyGoals m llm).2) := by
  unfold deriveSafetyGoals
  extract_lets haraTable itemName hazards
  split
  · exact .quiet _
  split
  · exact .quiet _
  · rename_i hhazards
    cases llm with
    | none => exact .quiet _
    | some reply => exact .goals (strip reply) hhazards

theorem step_change (u : Unicode) (m : Memory) (l : Log) (c : Call) :
    Change m l c ((step u m c).1, l.record m (step u m c).2) := by
  cases c with
  | extractFunctions toolInput fs llm => exact extractFunctions_change u m l toolInput fs llm
  | applyHazopAnalysis toolInput guideWords llm => exact applyHazopAnalysis_change u m l toolInput guideWords llm
  | assessExposureForAllHazards situations llm => exact assessExposureForAllHazards_change m l situations llm
  | generateHaraTable llm => exact generateHaraTable_change m l llm
  | deriveSafetyGoals llm => exact deriveSafetyGoals_change m l llm

theorem getValue_eq {data memory : Values} {key : Str} (h : HasValue data memory key) :
    (getValue data memory key).1 = coalesce [data.value key, memory.value key] := by
  unfold getValue
  unfold HasValue at h
  generalize coalesce [data.value key, memory.value key] = v at h ⊢
  cases v with
  | null => cases h
  | bool | number | text | list | object => rfl

section

variable (env : Env) (cfg : Config) (s : Session) (data : Values)

/-- The working memory once the project, or also the item's name, was read from it. -/
def afterProject (values : Values) : Values := (getProjectSlug cfg data values).2

def afterItem (values : Values) : Values := (getValue data (afterProject cfg data values) "item_name".toList).2

theorem complete_iff (values : Values) : Complete data values ↔
    (getValue data (afterProject cfg data values) "item_name".toList).1.truthy = true ∧
      (getValue data (afterItem cfg data values) "author".toList).1.truthy = true := by
  have hmissing : (readFields data requiredFields (afterProject cfg data values)).2.1 =
      if (getValue data (afterProject cfg data values) "item_name".toList).1.truthy then
        if (getValue data (afterItem cfg data values) "author".toList).1.truthy then [] else ["author".toList]
      else "item_name".toList :: if (getValue data (afterItem cfg data values) "author".toList).1.truthy then []
        else ["author".toList] := rfl
  rw [← missing_eq_nil cfg data values, ← afterProject, hmissing]
  generalize (getValue data (afterProject cfg data values) "item_name".toList).1.truthy = hasItem
  generalize (getValue data (afterItem cfg data values) "author".toList).1.truthy = hasAuthor
  cases hasItem <;> cases hasAuthor <;> simp only [Bool.false_eq_true, if_false, if_true, reduceCtorEq, and_false,
    false_and, and_self]

/-- The name is the one that the input or the memory gives. -/
theorem getValue_item {values : Values} (h : Complete data values) :
    (getValue data (afterProject cfg data values) "item_name".toList).1 = artifactItem data values := by
  have hkey : "item_name".toList ≠ projectSlugKey := by decide
  have hvalue : (afterProject cfg data values).value "item_name".toList = values.value "item_name".toList :=
    value_getProjectSlug cfg data values hkey
  have hhas : HasValue data values "item_name".toList := h _ (.head _)
  rw [artifactItem, ← hvalue]
  refine getValue_eq ?_
  rw [HasValue, hvalue]
  exact hhas

theorem generateHaraArtifact_of_incomplete (load : ModuleLoad) (h : ¬Complete data s.values) :
    ∃ values, generateHaraArtifact env cfg load s data =
      ({ s with values := values }, .answer (.missingInputs ["item_name".toList, "author".toList])) := by
  rw [complete_iff cfg, not_and_or, Bool.not_eq_true, Bool.not_eq_true] at h
  refine ⟨_, if_pos ?_⟩
  rw [Bool.or_eq_true, Bool.not_eq_true', Bool.not_eq_true']
  exact h

theorem generateHaraArtifact_of_complete (load : ModuleLoad) (h : Complete data s.values) :
    ∃ values project author, generateHaraArtifact env cfg load s data =
      saveHaraArtifact env load { s with values := values } data project (artifactItem data s.values) author := by
  rw [← getValue_item cfg data h]
  rw [complete_iff cfg] at h
  refine ⟨_, _, _, if_neg ?_⟩
  rw [Bool.or_eq_true, Bool.not_eq_true', Bool.not_eq_true', ← Bool.not_eq_true, ← Bool.not_eq_true, ← not_and_or,
    not_not]
  exact h

end

/-- What is saved, and when. -/
theorem saveHaraArtifact_created {env : Env} {load : ModuleLoad} {s : Session} {data : Values} {project : Str}
    {itemName author : Value} {m : Metadata}
    (h : (saveHaraArtifact env load s data project itemName author).2 = .answer (.created m)) :
    load = .loaded ∧ s.memory.haraTable ≠ none ∧
      (saveHaraArtifact env load s data project itemName author).1.store.get? m.mdPath =
        some (.markdown (artifactContent data itemName.str (text s.memory.haraTable) (text s.memory.safetyGoals) m)) := by
  cases load with
  | missing => cases h
  | raises => cases h
  | loaded =>
    cases htable : s.memory.haraTable with
    | none =>
      simp only [saveHaraArtifact, htable] at h
      cases h
    | some haraTable =>
      simp only [saveHaraArtifact, htable] at h ⊢
      obtain rfl := Answer.created.inj (ArtifactAnswer.answer.inj h)
      refine ⟨trivial, nofun, ?_⟩
      rw [markdown_saveArtifact]
      rfl

theorem saveHaraArtifact_memory (env : Env) (load : ModuleLoad) (s : Session) (data : Values) (project : Str)
    (itemName author : Value) : (saveHaraArtifact env load s data project itemName author).1.memory = s.memory := by
  unfold saveHaraArtifact
  split <;> rfl

theorem generateHaraArtifact_memory (env : Env) (cfg : Config) (load : ModuleLoad) (s : Session) (data : Values) :
    (generateHaraArtifact env cfg load s data).1.memory = s.memory := by
  by_cases hc : Complete data s.values
  · obtain ⟨values, project, author, heq⟩ := generateHaraArtifact_of_complete env cfg s data load hc
    rw [heq, saveHaraArtifact_memory]
  · obtain ⟨values, heq⟩ := generateHaraArtifact_of_incomplete env cfg s data load hc
    rw [heq]

/-- A saved work product: its inputs are there, and its text holds the table and the goals of the memory. -/
theorem generateHaraArtifact_created {env : Env} {cfg : Config} {load : ModuleLoad} {s : Session} {data : Values}
    {m : Metadata} (h : (generateHaraArtifact env cfg load s data).2 = .answer (.created m)) :
    Complete data s.values ∧ load = .loaded ∧ s.memory.haraTable ≠ none ∧
      (generateHaraArtifact env cfg load s data).1.store.get? m.mdPath = some (.markdown
        (artifactContent data (artifactItem data s.values).str (text s.memory.haraTable) (text s.memory.safetyGoals) m)) := by
  by_cases hc : Complete data s.values
  · obtain ⟨values, project, author, heq⟩ := generateHaraArtifact_of_complete env cfg s data load hc
    rw [heq] at h ⊢
    exact ⟨hc, saveHaraArtifact_created h⟩
  · obtain ⟨values, heq⟩ := generateHaraArtifact_of_incomplete env cfg s data load hc
    rw [heq] at h
    cases h

/-- With its inputs and a table, the tool saves. -/
theorem generateHaraArtifact_saves (env : Env) (cfg : Config) {s : Session} {data : Values}
    (hc : Complete data s.values) (ht : s.memory.haraTable ≠ none) :
    ∃ m, (generateHaraArtifact env cfg .loaded s data).2 = .answer (.created m) := by
  obtain ⟨values, project, author, heq⟩ := generateHaraArtifact_of_complete env cfg s data .loaded hc
  obtain ⟨haraTable, htable⟩ := Option.ne_none_iff_exists'.mp ht
  rw [heq]
  simp only [saveHaraArtifact, htable]
  exact ⟨_, rfl⟩

/-! ## Runs -/

/-- While the table is the last result it was produced for the item in progress; and the goals are derived from it,
once there are any. -/
structure Settled (m : Memory) (l : Log) : Prop where
  table : TableIsLast m → (m.haraItemName, text m.haraTable) ∈ l.tables
  goals : m.haraStage = some .safetyGoalsDerived → (text m.haraTable, text m.safetyGoals) ∈ l.goals

theorem Settled.init : Settled Memory.init Log.init := by
  refine ⟨?_, nofun⟩
  rintro (h | h) <;> cases h

theorem Settled.change {m m' : Memory} {l l' : Log} (h : Settled m l) {c : Call} (hc : Change m l c (m', l'))
    (ho : ∀ reply, c = .deriveSafetyGoals (some reply) → asilHazards (text m.haraTable) ≠ [] → TableIsLast m) :
    Settled m' l' := by
  cases hc with
  | quiet => exact h
  | earlier hm => exact ⟨fun hlast => absurd hlast hm, fun hstage => absurd (.inr hstage) hm⟩
  | table haraTable => exact ⟨fun _ => .head _, nofun⟩
  | @goals reply safetyGoals hhazards => exact ⟨fun _ => h.table (ho reply rfl hhazards), fun _ => .head _⟩

theorem logged_settled {u : Unicode} (s : Session × Log) (e : Event) (h : Settled s.1.memory s.2)
    (ho : InOrder s.1 e) : Settled (logged u s e).1.memory (logged u s e).2 := by
  cases e with
  | tool c =>
    refine h.change (step_change u s.1.memory s.2 c) ?_
    rintro reply rfl
    exact ho
  | generateHaraArtifact env cfg load data =>
    show Settled (generateHaraArtifact env cfg load s.1 data).1.memory s.2
    rw [generateHaraArtifact_memory]
    exact h

theorem settled_matched {s : Session × Log} (e : Event) (h : Settled s.1.memory s.2) (ho : InOrder s.1 e) :
    Matched s e := by
  cases e with
  | tool c => trivial
  | generateHaraArtifact env cfg load data =>
    intro m hm
    obtain ⟨hcomplete, hload, htable, hcontent⟩ := generateHaraArtifact_created hm
    obtain ⟨hitem, hlast, hgoals⟩ := ho hcomplete hload htable
    obtain ⟨x, hx, hname⟩ := Option.map_eq_some_iff.mp hitem
    have hproduced := h.table hlast
    rw [hx] at hproduced
    rw [← hname] at hcontent
    refine ⟨x, hname.symm, hcontent, hproduced, fun hne => ?_⟩
    rcases hlast with hstage | hstage
    · exact absurd (hgoals hstage) hne
    · exact h.goals hstage

/-- In every run that derives goals from a table just made and saves for the item in progress, each work product
holds a table of its item and the goals of that table. -/
theorem work_products_matched (u : Unicode) (values : Values) (store : Store) {es : List Event}
    (h : Along (logged u) (fun s => InOrder s.1) (⟨Memory.init, values, store⟩, Log.init) es) :
    Along (logged u) Matched (⟨Memory.init, values, store⟩, Log.init) es :=
  Along.of_invariant (I := fun s => Settled s.1.memory s.2) logged_settled (fun _ e hs ho => settled_matched e hs ho)
    Settled.init h

/-! ## Two items -/

instance (m : Memory) : Decidable (TableIsLast m) := inferInstanceAs (Decidable (_ ∨ _))

instance (s : Session) : ∀ e : Event, Decidable (InOrder s e)
  | .tool (.deriveSafetyGoals (some _)) => inferInstanceAs (Decidable (_ → TableIsLast s.memory))
  | .tool (.deriveSafetyGoals none) | .tool (.extractFunctions ..) | .tool (.applyHazopAnalysis ..)
  | .tool (.assessExposureForAllHazards ..) | .tool (.generateHaraTable _) => .isTrue trivial
  | .generateHaraArtifact .. => inferInstanceAs (Decidable ((∀ _ ∈ _, HasValue ..) → _ → _ → _ ∧ TableIsLast s.memory ∧ _))

def emptySession : Session × Log := (⟨Memory.init, Dict.empty, Dict.empty⟩, Log.init)

def sampleConfig : Config := ⟨none, .null, "/workspace".toList⟩

def artifactInput (itemName : Str) : Values :=
  Dict.empty.set "item_name".toList (.text itemName) |>.set "author".toList (.text "Ada".toList)

def artifactCall (itemName : Str) : Event :=
  .generateHaraArtifact sampleEnv sampleConfig .loaded (artifactInput itemName)

/-- The five steps for the brake, and its work product. -/
def brakeEvents : List Event :=
  brakeCalls.map .tool ++
    [.tool (.generateHaraTable (some "| HAZ-001 | Stop | ASIL D |".toList)),
      .tool (.deriveSafetyGoals (some "Avoid loss of braking. (ASIL D)".toList)), artifactCall "Brake".toList]

theorem work_products_matched_brake : Along (logged .ascii) Matched emptySession brakeEvents :=
  work_products_matched .ascii Dict.empty Dict.empty
    ⟨trivial, trivial, trivial, trivial, show _ → TableIsLast _ by decide +kernel, by decide +kernel, trivial⟩

/-- The table of the brake is there when the functions of the steering are extracted. -/
def steeringCalls : List Call :=
  brakeCalls ++
    [generateCall, .extractFunctions (.text "Steering".toList) brakeFolders (some "1. Steer: turns the car".toList)]

theorem brake_saved_as_steering :
    ¬Along (logged .ascii) Matched emptySession (steeringCalls.map .tool ++ [artifactCall "Steering".toList]) := by
  intro h
  have hlast := (along_append.mp h).2.1
  generalize hs : run (logged .ascii) emptySession (steeringCalls.map .tool) = s at hlast
  have hvalues : s.1.values = Dict.empty := by
    rw [← hs]
    rfl
  have htables : s.2.tables = [(some "Brake".toList, "| HAZ-001 | Stop |".toList)] := by
    rw [← hs]
    decide +kernel
  have htable : s.1.memory.haraTable ≠ none := by
    rw [← hs]
    decide +kernel
  have hcomplete : Complete (artifactInput "Steering".toList) s.1.values := by
    rw [hvalues]
    unfold Complete
    decide
  obtain ⟨m, hm⟩ := generateHaraArtifact_saves sampleEnv sampleConfig hcomplete htable
  obtain ⟨x, hx, -, hproduced, -⟩ := hlast m hm
  have hitem : artifactItem (artifactInput "Steering".toList) s.1.values = .text "Steering".toList := by
    rw [hvalues]
    decide
  obtain rfl := Value.text.inj (hitem.symm.trans hx)
  rw [htables, List.mem_singleton] at hproduced
  exact absurd (Prod.mk.inj hproduced).1 (by decide)

end KCore.Hara
