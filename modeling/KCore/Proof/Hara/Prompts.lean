import KCore.Impl.Hara.Prompts
import KCore.Lib.Lines

/-!
# What the prompts pass on

A table or a database that is cut at a length reaches the model in full where its rows or
scenarios end before that (`shown_take_iff`). The step that derives safety goals says when it
cuts; for the other two `prompts_iff` gives the tables and databases that nothing is missing of.
-/

namespace KCore.Hara

open Text

/-- The parts of a text, each after what stands before it. -/
abbrev Parts := Str → Str → Prop

/-- Every part is in the text that is sent, in full and at its place. -/
def Shown (P : Parts) (sent : Str) : Prop := ∀ a x, P a x → a ++ x <+: sent

/-- Every part ends in the first `n` characters. -/
def Within (P : Parts) (n : Nat) : Prop := ∀ a x, P a x → (a ++ x).length ≤ n

/-- `[... table truncated ...]` or `[... database truncated ...]`. -/
def SaysCut (sent : Str) : Prop := "truncated ...]".toList <:+ sent

/-- A piece of the prompt has all parts, or says that it was cut. -/
def Sends (prompt sent : Str) (P : Parts) : Prop := sent <:+: prompt ∧ (Shown P sent ∨ SaysCut sent)

/-- All parts end in the first `n` characters of the text, unless these happen to end with such a notice. -/
def FitsIn (n : Nat) (t : Str) (P : Parts) : Prop := Within P n ∨ SaysCut (t.take n)

/-- A line of the table that meets `p`. -/
def RowAt (p : Str → Bool) (table : Str) : Parts := fun before row =>
  ∃ ls' ls, lines table = ls' ++ row :: ls ∧ before = above ls' ∧ p row = true

/-- A row that `derive_safety_goals` counts. -/
def needsGoal (row : Str) : Bool := isHazard row && (search matchAsil row).isSome

/-- The text of the database up to a scenario of the category `name`. -/
def textBefore {N : Type*} [Numeral N] (categories : List (Str × List (Json N))) (name : Str)
    (scenarios : List (Json N)) : Str :=
  Json.opened 2 0 '\x7b' (categories.map fun e => Json.entry 2 1 (e.1, .arr e.2)) ++
    (Json.quote name ++ (": ".toList ++ Json.opened 2 1 '[' (scenarios.map (Json.dumpsIndentBy 2 2))))

/-- A basic scenario, as the text of the database has it. -/
def ScenarioAt {N : Type*} [Numeral N] (data : SituationsData N) : Parts := fun before text =>
  ∃ cs name ss v ss' cs', data.basicScenarios.entries = cs ++ (name, ss ++ v :: ss') :: cs' ∧
    before = textBefore cs name ss ∧ text = Json.dumpsIndentBy 2 2 v

/-! ## Parts of a text that is cut -/

theorem RowAt.isPrefix {p : Str → Bool} {table before row : Str} (h : RowAt p table before row) :
    before ++ row <+: table := by
  obtain ⟨ls', ls, hlines, rfl, -⟩ := h
  rw [eq_above_below hlines, ← List.append_assoc]
  exact List.prefix_append _ _

theorem ScenarioAt.isPrefix {N : Type*} [Numeral N] {data : SituationsData N} {before text : Str}
    (h : ScenarioAt data before text) : before ++ text <+: data.dumps := by
  obtain ⟨cs, name, ss, v, ss', cs', hentries, rfl, rfl⟩ := h
  have hscenario : Json.opened 2 1 '[' (ss.map (Json.dumpsIndentBy 2 2)) ++ Json.dumpsIndentBy 2 2 v <+:
      Json.dumpsIndentBy 2 1 (.arr (ss ++ v :: ss')) := by
    rw [Json.dumpsIndentBy_arr, Json.indentItemsBy_eq_map, List.map_append, List.map_cons]
    exact Json.indentedBy_eq ..
  have hcategory : Json.opened 2 0 '\x7b' (cs.map fun e => Json.entry 2 1 (e.1, .arr e.2)) ++
      Json.entry 2 1 (name, .arr (ss ++ v :: ss')) <+: data.dumps := by
    rw [SituationsData.dumps, hentries, Json.dumpsIndentBy_obj, Json.indentEntriesBy_eq_map, List.map_map, List.map_append,
      List.map_cons]
    exact Json.indentedBy_eq ..
  refine List.IsPrefix.trans ?_ hcategory
  rw [textBefore, Json.entry, List.append_assoc, List.append_assoc, List.append_assoc]
  simpa only [List.prefix_append_right_inj] using hscenario

/-- Of a text that is cut, all parts are shown that end before the cut. -/
theorem shown_take_iff {P : Parts} {t : Str} {n : Nat} (h : ∀ a x, P a x → a ++ x <+: t) :
    Shown P (t.take n) ↔ Within P n :=
  forall₂_congr fun a x => forall_congr' fun hp => List.prefix_take_iff.trans (and_iff_right (h a x hp))

theorem sends_take_iff {P : Parts} {prompt t : Str} {n : Nat} (hin : t.take n <:+: prompt)
    (h : ∀ a x, P a x → a ++ x <+: t) : Sends prompt (t.take n) P ↔ FitsIn n t P := by
  rw [Sends, and_iff_right hin, shown_take_iff h, FitsIn]

/-- What `derive_safety_goals` sends is complete, or says that it is not. -/
theorem sends_haraTruncated {p : Str → Bool} {prompt table : Str} (hin : haraTruncated table <:+: prompt) :
    Sends prompt (haraTruncated table) (RowAt p table) := by
  refine ⟨hin, ?_⟩
  rw [haraTruncated]
  split
  · have hnotice : "\n\n[... table truncated ...]".toList = "\n\n[... table ".toList ++ "truncated ...]".toList := by
      decide +kernel
    rw [hnotice, ← List.append_assoc]
    exact .inr (List.suffix_append _ _)
  · rename_i hlen
    rw [List.append_nil, List.take_of_length_le (by omega)]
    exact .inl fun _ _ h => h.isPrefix

/-! ## The prompts -/

theorem infix_append₃ (a s b c d : Str) : s <:+: a ++ s ++ b ++ c ++ d := ⟨a, b ++ c ++ d, by simp⟩

theorem infix_append₁ (a s b : Str) : s <:+: a ++ s ++ b := ⟨a, b, rfl⟩

theorem TablePrompt.hazopAnalysis_infix (p : TablePrompt) : p.hazopAnalysis <:+: p.render := infix_append₃ ..

theorem TablePrompt.exposureAssessments_infix (p : TablePrompt) : p.exposureAssessments <:+: p.render := infix_append₁ ..

theorem ExposurePrompt.hazopAnalysis_infix (p : ExposurePrompt) : p.hazopAnalysis <:+: p.render := infix_append₃ ..

theorem ExposurePrompt.basicScenarios_infix (p : ExposurePrompt) : p.basicScenarios <:+: p.render := infix_append₁ ..

theorem GoalsPrompt.haraTable_infix (p : GoalsPrompt) : p.haraTable <:+: p.render := infix_append₁ ..

/-- The three prompts have every row and every scenario, or say that data was cut, just where the hazard rows of both
tables end in their first 5000 characters, and the scenarios in the first 8000 of the database. -/
theorem prompts_iff {N : Type*} [Numeral N] (m : Memory) (data : SituationsData N) :
    let table := generateHaraTablePrompt m
    let exposure := assessExposurePrompt m data
    let goals := deriveSafetyGoalsPrompt m
    let hazopRows := RowAt isHazard (text m.hazopAnalysis)
    let exposureRows := RowAt isHazard (text m.exposureAssessments)
    (Sends table.render table.hazopAnalysis hazopRows ∧ Sends table.render table.exposureAssessments exposureRows ∧
      Sends exposure.render exposure.hazopAnalysis hazopRows ∧
      Sends exposure.render exposure.basicScenarios (ScenarioAt data) ∧
      Sends goals.render goals.haraTable (RowAt needsGoal (text m.haraTable))) ↔
    FitsIn 5000 (text m.hazopAnalysis) hazopRows ∧ FitsIn 5000 (text m.exposureAssessments) exposureRows ∧
      FitsIn 8000 data.dumps (ScenarioAt data) := by
  intro table exposure goals hazopRows exposureRows
  have hhazop : Sends table.render table.hazopAnalysis hazopRows ↔ FitsIn 5000 (text m.hazopAnalysis) hazopRows :=
    sends_take_iff table.hazopAnalysis_infix fun _ _ h => h.isPrefix
  have hexposure : Sends table.render table.exposureAssessments exposureRows ↔
      FitsIn 5000 (text m.exposureAssessments) exposureRows :=
    sends_take_iff table.exposureAssessments_infix fun _ _ h => h.isPrefix
  have hscenarios : Sends exposure.render exposure.basicScenarios (ScenarioAt data) ↔
      FitsIn 8000 data.dumps (ScenarioAt data) :=
    sends_take_iff exposure.basicScenarios_infix fun _ _ h => h.isPrefix
  have hwhole : Sends exposure.render exposure.hazopAnalysis hazopRows :=
    ⟨exposure.hazopAnalysis_infix, .inl fun _ _ h => h.isPrefix⟩
  have hgoals : Sends goals.render goals.haraTable (RowAt needsGoal (text m.haraTable)) :=
    sends_haraTruncated goals.haraTable_infix
  rw [hhazop, hexposure, hscenarios]
  exact ⟨fun h => ⟨h.1, h.2.1, h.2.2.2.1⟩, fun h => ⟨h.1, h.2.1, hwhole, h.2.2, hgoals⟩⟩

/-- A row with a cell of `n` characters. -/
def longRow (n : Nat) : Str := "| HAZ-001 |".toList ++ List.replicate n 'x'

theorem notMem_longRow {c : Char} (n : Nat) (hc : c ∉ 'x' :: "| HAZ-001 |".toList) : c ∉ longRow n := by
  rw [List.mem_cons, not_or] at hc
  unfold longRow
  rw [List.mem_append, List.mem_replicate, not_or]
  exact ⟨hc.2, fun h => hc.1 h.2⟩

theorem longRow_hazard {n : Nat} (hn : n ≠ 0) : longRow n ∈ hazardRows (longRow n) := by
  have hline : lines (longRow n ++ below []) = [longRow n] := by
    refine lines_below fun l hl => ?_
    rw [List.mem_singleton.mp hl]
    exact notMem_longRow n (by decide)
  rw [below_nil, List.append_nil] at hline
  have hstrip : strip (longRow n) = longRow n := by
    refine stripBy_eq_self (fun c hc => ?_) (fun c hc => ?_)
    · have hbar : '|' = c := Option.some.inj hc
      exact hbar ▸ by decide
    · unfold longRow at hc
      rw [List.getLast?_append_of_ne_nil _ (by simpa using hn), List.getLast?_replicate, if_neg hn] at hc
      exact Option.some.inj hc ▸ by decide
  have hhazard : isHazard (longRow n) = true := by
    have hfirst : "| HAZ-001 |".toList = "| HAZ-".toList ++ "001 |".toList := by decide
    rw [isHazard, hstrip]
    unfold longRow
    rw [hfirst, List.append_assoc]
    exact decide_eq_true (List.prefix_append _ _)
  have hmem : longRow n ∈ lines (longRow n) := by
    rw [hline]
    exact .head _
  exact List.mem_filter.mpr ⟨hmem, hhazard⟩

theorem length_append₃ (a i b h c e t : Str) : (a ++ i ++ b ++ h ++ c ++ e ++ t).length =
    (a ++ i ++ b ++ [] ++ c ++ [] ++ t).length + h.length + e.length := by
  simp only [List.length_append, List.length_nil]
  omega

theorem TablePrompt.length_render (p : TablePrompt) : p.render.length =
    (TablePrompt.render ⟨p.itemName, [], []⟩).length + p.hazopAnalysis.length + p.exposureAssessments.length :=
  length_append₃ ..

theorem not_saysCut {s : Str} (h : ']' ∉ s) : ¬SaysCut s := fun hs => h (hs.subset (by decide))

/-- Without tables. -/
def emptyPrompt : TablePrompt := ⟨unknownItem, [], []⟩

/-- A hazard row that is longer than the prompt. -/
def longMemory : Memory :=
  { Memory.init with hazopAnalysis := some (longRow (emptyPrompt.render.length + 5000)), exposureAssessments := some [] }

/-- The prompt of the table has not the hazard row, and nothing in it says that it was cut. -/
theorem longRow_withheld : ∃ row ∈ hazardRows (text longMemory.hazopAnalysis),
    ¬row <:+: (generateHaraTablePrompt longMemory).render ∧
      ¬SaysCut (generateHaraTablePrompt longMemory).hazopAnalysis ∧
      ¬SaysCut (generateHaraTablePrompt longMemory).exposureAssessments := by
  have hne : emptyPrompt.render.length + 5000 ≠ 0 := by omega
  refine ⟨_, longRow_hazard hne, fun h => ?_, not_saysCut fun h => ?_, not_saysCut List.not_mem_nil⟩
  · have hle := h.length_le
    have hsize := (generateHaraTablePrompt longMemory).length_render
    have htake : (generateHaraTablePrompt longMemory).hazopAnalysis.length ≤ 5000 := List.length_take_le _ _
    have hrow : emptyPrompt.render.length + 5000 < (longRow (emptyPrompt.render.length + 5000)).length := by
      unfold longRow
      rw [List.length_append, List.length_replicate]
      exact Nat.lt_add_of_pos_left (by decide)
    have hempty : (generateHaraTablePrompt longMemory).exposureAssessments.length = 0 := rfl
    have hitem : TablePrompt.mk (generateHaraTablePrompt longMemory).itemName [] [] = emptyPrompt := rfl
    rw [hitem, hempty] at hsize
    omega
  · exact notMem_longRow _ (by decide) (List.mem_of_mem_take h)

end KCore.Hara
