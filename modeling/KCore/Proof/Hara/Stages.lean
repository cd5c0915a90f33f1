import KCore.Lib.Lines
import KCore.Lib.Run
import KCore.Proof.Hara.Hazop
import KCore.Proof.Hara.Provenance

/-!
# Stages and what they stand for

The stage names the last step that was completed. Only one of the tools looks at what it
stores, so a stage has its results just where every reply that is stored has content
(`stages_iff`).
-/

namespace KCore.Hara

open Text Machine

variable {u : Unicode} {m : Memory}

def Stage.number : Stage → Nat
  | .functionsExtracted => 1
  | .hazopCompleted => 2
  | .exposureAssessed => 3
  | .tableGenerated => 4
  | .safetyGoalsDerived => 5

/-- The result of the step is there, with content. -/
def HasContent (m : Memory) : Stage → Prop
  | .functionsExtracted => text m.itemFunctions ≠ []
  | .hazopCompleted => hazardRows (text m.hazopAnalysis) ≠ []
  | .exposureAssessed => hazardRows (text m.exposureAssessments) ≠ []
  | .tableGenerated => hazardRows (text m.haraTable) ≠ []
  | .safetyGoalsDerived => text m.safetyGoals ≠ []

/-- The steps up to the one that the stage names have their results. -/
def Reported (m : Memory) : Prop := ∀ s ∈ m.haraStage, ∀ t : Stage, t.number ≤ s.number → HasContent m t

/-- The rows of all replies. -/
def repliedRows (u : Unicode) (m : Memory) (toolInput : ToolInput) (llm : Nat → Option Str) : List Str :=
  (functionsToProcess toolInput (parseFunctionsFromText u (text m.itemFunctions))).zipIdx.flatMap fun (_, i) =>
    ((llm i).map dataRows).getD []

/-- A reply that is stored has content: a text, a row of six cells, or a hazard row. -/
def RepliesWithContent (u : Unicode) (m : Memory) : Call → Prop
  | .extractFunctions toolInput fs llm =>
    text (findItemDefinition u m fs (itemNameOf toolInput)) ≠ [] → ∀ reply ∈ llm, strip reply ≠ []
  | .applyHazopAnalysis toolInput guideWords llm =>
    text m.itemFunctions ≠ [] → guideWords = true → parseFunctionsFromText u (text m.itemFunctions) ≠ [] →
      repliedRows u m toolInput llm ≠ [] →
        ∃ row ∈ repliedRows u m toolInput llm, 6 ≤ (split '|' (stripChar '|' row)).length
  | .assessExposureForAllHazards situations llm =>
    hazardRows (text m.hazopAnalysis) ≠ [] → situations = .loaded →
      ∀ reply ∈ llm, hazardRows (unfenced (strip reply)) ≠ []
  | .generateHaraTable llm =>
    text m.hazopAnalysis ≠ [] → text m.exposureAssessments ≠ [] → ∀ reply ∈ llm, hazardRows (strip reply) ≠ []
  | .deriveSafetyGoals llm => asilHazards (text m.haraTable) ≠ [] → ∀ reply ∈ llm, strip reply ≠ []

instance : ∀ c : Call, Decidable (RepliesWithContent u m c)
  | .extractFunctions toolInput fs llm => inferInstanceAs (Decidable
    (text (findItemDefinition u m fs (itemNameOf toolInput)) ≠ [] → ∀ reply ∈ llm, strip reply ≠ []))
  | .applyHazopAnalysis toolInput guideWords llm => inferInstanceAs (Decidable
    (text m.itemFunctions ≠ [] → guideWords = true → parseFunctionsFromText u (text m.itemFunctions) ≠ [] →
      repliedRows u m toolInput llm ≠ [] →
        ∃ row ∈ repliedRows u m toolInput llm, 6 ≤ (split '|' (stripChar '|' row)).length))
  | .assessExposureForAllHazards situations llm => inferInstanceAs (Decidable
    (hazardRows (text m.hazopAnalysis) ≠ [] → situations = .loaded →
      ∀ reply ∈ llm, hazardRows (unfenced (strip reply)) ≠ []))
  | .generateHaraTable llm => inferInstanceAs (Decidable
    (text m.hazopAnalysis ≠ [] → text m.exposureAssessments ≠ [] → ∀ reply ∈ llm, hazardRows (strip reply) ≠ []))
  | .deriveSafetyGoals llm => inferInstanceAs (Decidable
    (asilHazards (text m.haraTable) ≠ [] → ∀ reply ∈ llm, strip reply ≠ []))

/-- The memory after a call. -/
def after (u : Unicode) (m : Memory) (c : Call) : Memory := (step u m c).1

/-- Every result that is stored has content, and so have those that it was made from. -/
structure Filled (m : Memory) : Prop where
  functions : ∀ f ∈ m.itemFunctions, f ≠ []
  hazop : ∀ t ∈ m.hazopAnalysis, hazardRows t ≠ [] ∧ HasContent m .functionsExtracted
  exposure : ∀ t ∈ m.exposureAssessments, hazardRows t ≠ [] ∧ HasContent m .hazopCompleted
  hara : ∀ t ∈ m.haraTable, hazardRows t ≠ [] ∧ HasContent m .exposureAssessed
  goals : ∀ g ∈ m.safetyGoals, g ≠ [] ∧ HasContent m .tableGenerated
  stage : ∀ s ∈ m.haraStage, HasContent m s

/-! ## The rows of a HAZOP table -/

theorem six_cells {i : Nat} {row line : Str} (h : newRow i row = some line) :
    line = hazopLine i ((split '|' (stripChar '|' row)).take 6) := by
  rw [newRow] at h
  split at h
  · exact (Option.some.inj h).symm
  · cases h

theorem newline_notMem_newRow {i : Nat} {row line : Str} (hr : '\n' ∉ row) (h : newRow i row = some line) :
    '\n' ∉ line := by
  rw [six_cells h]
  refine newline_notMem_hazopLine i fun c hc hn => hr ?_
  have hstrip : stripChar '|' row <:+: row := stripBy_isInfix _ _
  exact hstrip.subset ((isInfix_of_mem_split (List.mem_of_mem_take hc)).subset hn)

theorem append_ends {a b a' b' : Str} (c d : Str) (ha : a = '|' :: a') (hb : b = b' ++ ['|']) :
    a ++ c ++ d ++ b = '|' :: (a' ++ c ++ d ++ b' ++ ['|']) := by
  simp only [ha, hb, List.cons_append, List.append_assoc]

theorem hazopLine_ends (i : Nat) (cells : List Str) : ∃ s, hazopLine i cells = '|' :: (s ++ ['|']) := by
  have hfirst : "| HAZ-".toList = '|' :: " HAZ-".toList := by decide
  have hlast : " |".toList = [' '] ++ ['|'] := by decide
  exact ⟨_, append_ends _ _ hfirst hlast⟩

theorem isHazard_hazopLine (i : Nat) (cells : List Str) : isHazard (hazopLine i cells) = true := by
  have hbar : isSpace '|' = false := by decide
  have hstrip : strip (hazopLine i cells) = hazopLine i cells := by
    obtain ⟨s, hs⟩ := hazopLine_ends i cells
    rw [hs]
    refine stripBy_eq_self (fun c hc => ?_) (fun c hc => ?_)
    · exact Option.some.inj hc ▸ hbar
    · rw [← List.cons_append, List.getLast?_concat] at hc
      exact Option.some.inj hc ▸ hbar
  rw [isHazard, hstrip]
  refine decide_eq_true ?_
  exact ((List.prefix_append _ _).trans (List.prefix_append _ _)).trans (List.prefix_append _ _)

/-- The hazard rows of the stored table are the numbered rows. -/
theorem hazardRows_hazopTable {rows : List Str} (hr : ∀ row ∈ rows, '\n' ∉ row) :
    hazardRows (hazopTable (finalRows rows)) = finalRows rows := by
  have hline : ∀ line ∈ finalRows rows, '\n' ∉ line ∧ isHazard line = true := by
    intro line hl
    obtain ⟨⟨row, i⟩, hmem, hnew⟩ := List.mem_filterMap.mp hl
    have hrow : row ∈ rows := (List.mem_zipIdx hmem).2.2 ▸ List.getElem_mem _
    refine ⟨newline_notMem_newRow (hr row hrow) hnew, ?_⟩
    rw [six_cells hnew]
    exact isHazard_hazopLine _ _
  have hends : isHazard hazopHeader = false ∧ isHazard hazopSeparator = false := by decide +kernel
  rw [hazardRows, split_hazopTable fun l hl => (hline l hl).1, List.filter_cons_of_neg (by simp [hends.1]),
    List.filter_cons_of_neg (by simp [hends.2])]
  exact List.filter_eq_self.mpr fun l hl => (hline l hl).2

theorem newRow_isSome (i : Nat) (row : Str) :
    (newRow i row).isSome = true ↔ 6 ≤ (split '|' (stripChar '|' row)).length := by
  rw [newRow]
  split
  · exact iff_of_true rfl ‹_›
  · exact iff_of_false Bool.false_ne_true ‹_›

theorem finalRows_ne_nil {rows : List Str} :
    finalRows rows ≠ [] ↔ ∃ row ∈ rows, 6 ≤ (split '|' (stripChar '|' row)).length := by
  rw [← List.isEmpty_eq_false_iff, finalRows, List.isEmpty_eq_false_iff_exists_mem]
  constructor
  · rintro ⟨line, hl⟩
    obtain ⟨⟨row, i⟩, hmem, hnew⟩ := List.mem_filterMap.mp hl
    have hrow : row ∈ rows := (List.mem_zipIdx hmem).2.2 ▸ List.getElem_mem _
    exact ⟨row, hrow, (newRow_isSome i row).mp (Option.isSome_of_eq_some hnew)⟩
  · rintro ⟨row, hrow, hlen⟩
    obtain ⟨i, hi, rfl⟩ := List.mem_iff_getElem.mp hrow
    obtain ⟨line, hline⟩ := Option.isSome_iff_exists.mp ((newRow_isSome (1 + i) rows[i]).mpr hlen)
    exact ⟨line, List.mem_filterMap.mpr ⟨(rows[i], 1 + i), List.mk_mem_zipIdx_iff_le_and_getElem?_sub.mpr (by simp [hi]),
      hline⟩⟩

theorem newline_notMem_repliedRows (u : Unicode) (m : Memory) (toolInput : ToolInput) (llm : Nat → Option Str) :
    ∀ row ∈ repliedRows u m toolInput llm, '\n' ∉ row := by
  intro row hrow
  obtain ⟨⟨f, i⟩, -, hrow⟩ := List.mem_flatMap.mp hrow
  have hrow : row ∈ ((llm i).map dataRows).getD [] := hrow
  cases hllm : llm i with
  | none => simp [hllm] at hrow
  | some reply =>
    rw [hllm] at hrow
    exact newline_notMem_lines row (List.mem_of_mem_filter hrow)

/-! ## One call -/

theorem some_of_hazardRows {value : Option Str} (h : hazardRows (text value) ≠ []) : ∃ t, value = some t := by
  cases value with
  | none => exact absurd (by decide) h
  | some t => exact ⟨t, rfl⟩

/-- A step has its result only where the steps before it have theirs. -/
theorem Filled.below (h : Filled m) {s t : Stage} (hs : HasContent m s) (hle : t.number ≤ s.number) : HasContent m t := by
  have hhazop : HasContent m .hazopCompleted → HasContent m .functionsExtracted := fun hc => by
    obtain ⟨t, ht⟩ := some_of_hazardRows hc
    exact (h.hazop t ht).2
  have hexposure : HasContent m .exposureAssessed → HasContent m .hazopCompleted := fun hc => by
    obtain ⟨t, ht⟩ := some_of_hazardRows hc
    exact (h.exposure t ht).2
  have hhara : HasContent m .tableGenerated → HasContent m .exposureAssessed := fun hc => by
    obtain ⟨t, ht⟩ := some_of_hazardRows hc
    exact (h.hara t ht).2
  have hgoals : HasContent m .safetyGoalsDerived → HasContent m .tableGenerated := fun hc => by
    cases hg : m.safetyGoals with
    | none => exact absurd (congrArg text hg) hc
    | some g => exact (h.goals g hg).2
  cases s <;> cases t <;> simp only [Stage.number] at hle <;> first | omega | tauto

theorem Filled.reported (h : Filled m) : Reported m := fun s hs _ hle => h.below (h.stage s hs) hle

/-- A call keeps the invariant if its reply has content, and is reported only if it has. -/
def Keeps (u : Unicode) (m : Memory) (c : Call) : Prop :=
  (RepliesWithContent u m c → Filled (after u m c)) ∧ (Reported (after u m c) → RepliesWithContent u m c)

theorem extractFunctions_keeps (h : Filled m) (toolInput : ToolInput) (fs : Folders) (llm : Option Str) :
    Keeps u m (.extractFunctions toolInput fs llm) := by
  simp only [Keeps, after, step, extractFunctions]
  by_cases hc : text (findItemDefinition u m fs (itemNameOf toolInput)) = []
  · simp only [if_pos hc]
    exact ⟨fun _ => h, fun _ hne => absurd hc hne⟩
  simp only [if_neg hc]
  cases llm with
  | none => exact ⟨fun _ => h, fun _ _ _ hr => by cases hr⟩
  | some reply =>
    refine ⟨fun hr => ?_, fun hrep _ r hr => ?_⟩
    · have hne : strip reply ≠ [] := hr hc reply rfl
      exact ⟨fun f hf => Option.some.inj hf ▸ hne, fun t ht => ⟨(h.hazop t ht).1, hne⟩, h.exposure, h.hara, h.goals,
        fun s hs => Option.some.inj hs ▸ hne⟩
    · obtain rfl := Option.some.inj hr
      exact hrep _ rfl .functionsExtracted le_rfl

theorem applyHazopAnalysis_keeps (h : Filled m) (toolInput : ToolInput) (guideWords : Bool) (llm : Nat → Option Str) :
    Keeps u m (.applyHazopAnalysis toolInput guideWords llm) := by
  simp only [Keeps, after, step, applyHazopAnalysis, RepliesWithContent]
  by_cases hf : text m.itemFunctions = []
  · simp only [if_pos hf]
    exact ⟨fun _ => h, fun _ hne => absurd hf hne⟩
  simp only [if_neg hf]
  by_cases hg : guideWords = false
  · simp only [if_pos hg]
    exact ⟨fun _ => h, fun _ _ he => absurd (hg.symm.trans he) Bool.false_ne_true⟩
  simp only [if_neg hg]
  by_cases hp : parseFunctionsFromText u (text m.itemFunctions) = []
  · simp only [if_pos hp]
    exact ⟨fun _ => h, fun _ _ _ hne => absurd hp hne⟩
  simp only [if_neg hp]
  rw [show (functionsToProcess toolInput (parseFunctionsFromText u (text m.itemFunctions))).zipIdx.flatMap
    (fun x => ((llm x.2).map dataRows).getD []) = repliedRows u m toolInput llm from rfl]
  by_cases hr : repliedRows u m toolInput llm = []
  · simp only [if_pos hr]
    exact ⟨fun _ => h, fun _ _ _ _ hne => absurd hr hne⟩
  simp only [if_neg hr]
  have htable := hazardRows_hazopTable (newline_notMem_repliedRows u m toolInput llm)
  rw [← finalRows_ne_nil]
  refine ⟨fun hrows => ?_, fun hrep _ _ _ _ => ?_⟩
  · have hne : hazardRows (hazopTable (finalRows (repliedRows u m toolInput llm))) ≠ [] := by
      rw [htable]
      exact hrows hf (by simpa using hg) hp hr
    exact ⟨h.functions, fun t ht => Option.some.inj ht ▸ ⟨hne, hf⟩, fun t ht => ⟨(h.exposure t ht).1, hne⟩, h.hara,
      h.goals, fun s hs => Option.some.inj hs ▸ hne⟩
  · have hne : hazardRows (hazopTable (finalRows (repliedRows u m toolInput llm))) ≠ [] :=
      hrep _ rfl .hazopCompleted le_rfl
    rwa [htable] at hne

theorem assessExposureForAllHazards_keeps (h : Filled m) (situations : Situations) (llm : Option Str) :
    Keeps u m (.assessExposureForAllHazards situations llm) := by
  simp only [Keeps, after, step, assessExposureForAllHazards, RepliesWithContent]
  by_cases hh : hazardRows (text m.hazopAnalysis) = []
  · have hquiet : (if text m.hazopAnalysis = [] then (m, Answer.noHazop) else
        if situations = .unavailable then (m, .noSituations) else (m, .noHazards)).1 = m := by
      split
      · rfl
      split <;> rfl
    simp only [if_pos hh, hquiet]
    exact ⟨fun _ => h, fun _ hne => absurd hh hne⟩
  have htext : text m.hazopAnalysis ≠ [] := fun he => hh (he ▸ by decide)
  simp only [if_neg hh, if_neg htext]
  cases situations with
  | unavailable => exact ⟨fun _ => h, fun _ _ hs => by cases hs⟩
  | incomplete => exact ⟨fun _ => h, fun _ _ hs => by cases hs⟩
  | loaded =>
    cases llm with
    | none => exact ⟨fun _ => h, fun _ _ _ _ hr => by cases hr⟩
    | some reply =>
      refine ⟨fun hr => ?_, fun hrep _ _ r hr => ?_⟩
      · have hne : hazardRows (unfenced (strip reply)) ≠ [] := hr hh rfl reply rfl
        exact ⟨h.functions, h.hazop, fun t ht => Option.some.inj ht ▸ ⟨hne, hh⟩, fun t ht => ⟨(h.hara t ht).1, hne⟩,
          h.goals, fun s hs => Option.some.inj hs ▸ hne⟩
      · obtain rfl := Option.some.inj hr
        exact hrep _ rfl .exposureAssessed le_rfl

theorem generateHaraTable_keeps (h : Filled m) (llm : Option Str) : Keeps u m (.generateHaraTable llm) := by
  simp only [Keeps, after, step, generateHaraTable, RepliesWithContent]
  by_cases hh : text m.hazopAnalysis = []
  · simp only [if_pos hh]
    exact ⟨fun _ => h, fun _ hne => absurd hh hne⟩
  by_cases he : text m.exposureAssessments = []
  · simp only [if_neg hh, if_pos he]
    exact ⟨fun _ => h, fun _ _ hne => absurd he hne⟩
  simp only [if_neg hh, if_neg he]
  cases llm with
  | none => exact ⟨fun _ => h, fun _ _ _ _ hr => by cases hr⟩
  | some reply =>
    refine ⟨fun hr => ?_, fun hrep _ _ r hr => ?_⟩
    · have hne : hazardRows (strip reply) ≠ [] := hr hh he reply rfl
      have hexposure : HasContent m .exposureAssessed := by
        obtain ⟨t, ht⟩ := Option.ne_none_iff_exists'.mp fun hn => he (congrArg text hn)
        show hazardRows (text m.exposureAssessments) ≠ []
        rw [ht]
        exact (h.exposure t ht).1
      exact ⟨h.functions, h.hazop, h.exposure, fun t ht => Option.some.inj ht ▸ ⟨hne, hexposure⟩,
        fun g hg => ⟨(h.goals g hg).1, hne⟩, fun s hs => Option.some.inj hs ▸ hne⟩
    · obtain rfl := Option.some.inj hr
      exact hrep _ rfl .tableGenerated le_rfl

theorem deriveSafetyGoals_keeps (h : Filled m) (llm : Option Str) : Keeps u m (.deriveSafetyGoals llm) := by
  simp only [Keeps, after, step, deriveSafetyGoals, RepliesWithContent]
  by_cases ha : asilHazards (text m.haraTable) = []
  · have hquiet : (if text m.haraTable = [] then (m, Answer.noTable) else (m, .noSafetyGoalsNeeded)).1 = m := by
      split <;> rfl
    simp only [if_pos ha, hquiet]
    exact ⟨fun _ => h, fun _ hne => absurd ha hne⟩
  have htext : text m.haraTable ≠ [] := fun he => ha (he ▸ by decide)
  simp only [if_neg ha, if_neg htext]
  cases llm with
  | none => exact ⟨fun _ => h, fun _ _ _ hr => by cases hr⟩
  | some reply =>
    refine ⟨fun hr => ?_, fun hrep _ r hr => ?_⟩
    · have hne : strip reply ≠ [] := hr ha reply rfl
      have htable : hazardRows (text m.haraTable) ≠ [] := fun hn => ha (by rw [asilHazards, hn, List.filter_nil])
      exact ⟨h.functions, h.hazop, h.exposure, h.hara, fun g hg => Option.some.inj hg ▸ ⟨hne, htable⟩,
        fun s hs => Option.some.inj hs ▸ hne⟩
    · obtain rfl := Option.some.inj hr
      exact hrep _ rfl .safetyGoalsDerived le_rfl

theorem filled_keeps (h : Filled m) (c : Call) : Keeps u m c := by
  cases c with
  | extractFunctions toolInput fs llm => exact extractFunctions_keeps h toolInput fs llm
  | applyHazopAnalysis toolInput guideWords llm => exact applyHazopAnalysis_keeps h toolInput guideWords llm
  | assessExposureForAllHazards situations llm => exact assessExposureForAllHazards_keeps h situations llm
  | generateHaraTable llm => exact generateHaraTable_keeps h llm
  | deriveSafetyGoals llm => exact deriveSafetyGoals_keeps h llm

/-! ## Runs -/

/-- A working memory without HARA data. -/
structure NoData (m : Memory) : Prop where
  functions : m.itemFunctions = none
  hazop : m.hazopAnalysis = none
  exposure : m.exposureAssessments = none
  hara : m.haraTable = none
  goals : m.safetyGoals = none
  stage : m.haraStage = none

theorem NoData.filled (h : NoData m) : Filled m := by
  refine ⟨?_, ?_, ?_, ?_, ?_, ?_⟩
  · rw [h.functions]
    nofun
  · rw [h.hazop]
    nofun
  · rw [h.exposure]
    nofun
  · rw [h.hara]
    nofun
  · rw [h.goals]
    nofun
  · rw [h.stage]
    nofun

/-- At every moment the stage stands for results with content, just where every reply that is stored has content. -/
theorem stages_iff (u : Unicode) {m : Memory} (hm : NoData m) (cs : List Call) :
    Throughout (after u) Reported m cs ↔ Along (after u) (RepliesWithContent u) m cs :=
  throughout_iff_of_invariant (I := Filled) (fun _ h => h.reported) (fun _ c h => (filled_keeps h c).1)
    (fun _ c h => (filled_keeps h c).2) hm.filled

/-- The four steps for the brake. -/
theorem stages_brake : Throughout (after .ascii) Reported Memory.init (brakeCalls ++ [generateCall]) := by
  have hm : NoData Memory.init := ⟨rfl, rfl, rfl, rfl, rfl, rfl⟩
  have hreplies : Along (after .ascii) (RepliesWithContent .ascii) Memory.init (brakeCalls ++ [generateCall]) := by
    decide +kernel
  exact (stages_iff .ascii hm _).mpr hreplies

/-- No functions in the first reply; and no row of six cells in the second. -/
theorem stage_without_result :
    ¬Reported (run (after .ascii) Memory.init [.extractFunctions (.text "Brake".toList) brakeFolders (some " ".toList)]) ∧
    ¬Reported (run (after .ascii) Memory.init
      [.extractFunctions (.text "Brake".toList) brakeFolders (some "1. Stop: stops the car".toList),
        .applyHazopAnalysis .other true fun _ => some "| Stop | NO | No force |".toList]) := by
  constructor
  · intro h
    have hfunctions : HasContent _ .functionsExtracted := h .functionsExtracted (by decide +kernel) _ le_rfl
    exact hfunctions (by decide +kernel)
  · intro h
    have hrows : HasContent _ .hazopCompleted := h .hazopCompleted (by decide +kernel) _ le_rfl
    exact hrows (by decide +kernel)

end KCore.Hara
