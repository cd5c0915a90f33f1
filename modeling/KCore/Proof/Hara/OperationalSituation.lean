import KCore.Impl.Hara.OperationalSituation

/-!
# The combined exposure is the least

A list of scenario ids selects the scenarios of the database with these ids, in
the order of the database (`selectScenarios_arr`). The situation that is stored
has them as its components and the least of their exposures as its own, whatever
the order and the repetitions of the ids, and more ids give no higher exposure
(`create_custom_operational_situation_minimum`).
-/

namespace KCore.Hara.OperationalSituation

open Text

/-- The exposures of ISO 26262, from the least on. -/
def levels : List Str := ["E0".toList, "E1".toList, "E2".toList, "E3".toList, "E4".toList]

/-- The place of an exposure among them. -/
def rank (exposure : Str) : Nat := levels.idxOf exposure

/-- Every scenario has one of the exposures. -/
def SituationsData.Classified (data : SituationsData) : Prop :=
  ∀ s ∈ data.basicScenarios.values.flatten, s.exposure ∈ levels

/-- The least of some exposures. -/
structure Minimum (exposure : Str) (exposures : List Str) : Prop where
  mem : exposure ∈ exposures
  le : ∀ e ∈ exposures, rank exposure ≤ rank e

variable {N : Type*}

/-- The scenarios with an id of the list. -/
def matching (data : SituationsData) (ids : List (Json N)) : List Scenario :=
  data.basicScenarios.values.flatten.filter fun s => ids.any (equals s.id)

/-- What a call with a list of ids does: one situation is stored, and is the answer. -/
structure Combines (data : SituationsData) (ids : List (Json N)) (memory : Option (List (CustomSituation N)))
    (out : Option (Option (List (CustomSituation N)) × Answer N)) (situation : CustomSituation N) : Prop where
  stored : out = some (some (memory.getD [] ++ [situation]), .success situation)
  components : situation.componentScenarios = matching data ids
  minimum : Minimum situation.combinedExposure (situation.componentScenarios.map Scenario.exposure)

/-! ## Selection -/

theorem equals_iff {id : Str} {v : Json N} : equals id v = true ↔ v = .str id := by
  cases v <;> simp [equals]

theorem any_equals_iff {id : Str} {ids : List (Json N)} : ids.any (equals id) = true ↔ .str id ∈ ids := by
  simp only [List.any_eq_true, equals_iff, exists_eq_right]

theorem mem_matching {data : SituationsData} {ids : List (Json N)} {s : Scenario} :
    s ∈ matching data ids ↔ s ∈ data.basicScenarios.values.flatten ∧ .str s.id ∈ ids := by
  rw [matching, List.mem_filter, any_equals_iff]

theorem select_arr (ids : List (Json N)) : ∀ scenarios : List Scenario,
    select (.arr ids) scenarios = some (scenarios.filter fun s => ids.any (equals s.id))
  | [] => rfl
  | s :: scenarios => by
    rw [select, isIn, Option.bind_some, select_arr ids scenarios, Option.map_some, List.filter_cons]

theorem selectScenarios_arr (data : SituationsData) (ids : List (Json N)) :
    selectScenarios (.arr ids) data = some (matching data ids) := select_arr _ _

theorem matching_congr {data : SituationsData} {ids ids' : List (Json N)} (h : ∀ v, v ∈ ids ↔ v ∈ ids') :
    matching data ids = matching data ids' := by
  refine List.filter_congr fun s _ => ?_
  rw [Bool.eq_iff_iff, any_equals_iff, any_equals_iff]
  exact h _

/-! ## Exposures -/

theorem getExposureValue_eq : ∀ e ∈ levels, getExposureValue e = rank e := by decide

theorem getExposureLevel_rank : ∀ e ∈ levels, getExposureLevel (rank e) = e := by decide

/-- The level of the least value is the least level. -/
theorem minimum_of_min? {es : List Str} (he : ∀ e ∈ es, e ∈ levels) {n : Nat} (h : (es.map getExposureValue).min? = some n) :
    Minimum (getExposureLevel n) es := by
  obtain ⟨hm, hle⟩ := List.min?_eq_some_iff.mp h
  obtain ⟨e, hes, rfl⟩ := List.mem_map.mp hm
  rw [getExposureValue_eq e (he e hes), getExposureLevel_rank e (he e hes)]
  refine ⟨hes, fun f hf => ?_⟩
  have hef := hle _ (List.mem_map_of_mem hf)
  rwa [getExposureValue_eq e (he e hes), getExposureValue_eq f (he f hf)] at hef

theorem calculateCombinedExposure_arr {data : SituationsData} (hdata : data.Classified) {ids : List (Json N)}
    (hne : matching data ids ≠ []) : ∃ exposure rationale,
      calculateCombinedExposure (.arr ids) data = some (exposure, rationale) ∧
      Minimum exposure ((matching data ids).map Scenario.exposure) := by
  have hcls : ∀ e ∈ (matching data ids).map Scenario.exposure, e ∈ levels := by
    intro e he
    obtain ⟨s, hs, rfl⟩ := List.mem_map.mp he
    exact hdata s (mem_matching.mp hs).1
  rw [calculateCombinedExposure, selectScenarios_arr, Option.map_some]
  cases hmin : ((matching data ids).map fun s => getExposureValue s.exposure).min? with
  | none =>
    rw [List.min?_eq_none_iff, List.map_eq_nil_iff] at hmin
    exact absurd hmin hne
  | some n =>
    simp only [hmin]
    refine ⟨_, _, rfl, minimum_of_min? hcls ?_⟩
    rw [List.map_map]
    exact hmin

/-! ## The tool -/

/-- The call with these ids, whatever else the input says. -/
def call (isZero : N → Bool) (data : SituationsData) (input : Dict Str (Json N)) (ids : List (Json N))
    (memory : Option (List (CustomSituation N))) : Option (Option (List (CustomSituation N)) × Answer N) :=
  createCustomOperationalSituation isZero (some data) (.ok (input.set "scenario_ids".toList (.arr ids))) memory

theorem call_eq (isZero : N → Bool) (data : SituationsData) (input : Dict Str (Json N)) {ids : List (Json N)}
    (hids : ids ≠ []) (memory : Option (List (CustomSituation N))) (hne : matching data ids ≠ []) :
    call isZero data input ids memory =
      (calculateCombinedExposure (.arr ids) data).map fun (combinedExposure, rationale) =>
        let situation := ⟨(input.get? "name".toList).getD (.str "Custom Combined Situation".toList), matching data ids,
          combinedExposure, rationale⟩
        (some (memory.getD [] ++ [situation]), .success situation) := by
  have hn : (input.set "scenario_ids".toList (.arr ids)).get? "name".toList = input.get? "name".toList :=
    Dict.get?_set_of_ne _ _ (by decide)
  simp only [call, createCustomOperationalSituation, Dict.get?_set_self, Option.getD_some, hn, selectScenarios_arr,
    Option.bind_some, if_neg hne]
  rw [if_neg (by simpa [truthy] using hids)]

theorem call_combines (isZero : N → Bool) {data : SituationsData} (hdata : data.Classified)
    (input : Dict Str (Json N)) {ids : List (Json N)} (hne : matching data ids ≠ [])
    (memory : Option (List (CustomSituation N))) :
    ∃ situation, Combines data ids memory (call isZero data input ids memory) situation := by
  obtain ⟨s, hs⟩ := List.exists_mem_of_ne_nil _ hne
  have hids : ids ≠ [] := List.ne_nil_of_mem (mem_matching.mp hs).2
  obtain ⟨exposure, rationale, hc, hmin⟩ := calculateCombinedExposure_arr hdata hne
  rw [call_eq isZero data input hids memory hne, hc]
  exact ⟨_, rfl, rfl, hmin⟩

/-- One situation is stored, the least exposure of the scenarios with these ids is its own, only which ids there are
matters, and more ids do not raise it. -/
theorem create_custom_operational_situation_minimum (isZero : N → Bool) {data : SituationsData}
    (hdata : data.Classified) (input : Dict Str (Json N)) {ids : List (Json N)}
    (hid : ∃ s ∈ data.basicScenarios.values.flatten, .str s.id ∈ ids) (memory : Option (List (CustomSituation N))) :
    ∃ situation, Combines data ids memory (call isZero data input ids memory) situation ∧
      (∀ ids', (∀ v, v ∈ ids ↔ v ∈ ids') → call isZero data input ids' memory = call isZero data input ids memory) ∧
      ∀ ids', ids ⊆ ids' → ∀ memory', ∃ situation',
        Combines data ids' memory' (call isZero data input ids' memory') situation' ∧
        rank situation'.combinedExposure ≤ rank situation.combinedExposure := by
  obtain ⟨s, hs, hsid⟩ := hid
  have hmem : s ∈ matching data ids := mem_matching.mpr ⟨hs, hsid⟩
  obtain ⟨situation, hc⟩ := call_combines isZero hdata input (List.ne_nil_of_mem hmem) memory
  refine ⟨situation, hc, fun ids' h => ?_, fun ids' h memory' => ?_⟩
  · have hm := @matching_congr _ data _ _ h
    have hcalc : calculateCombinedExposure (.arr ids') data = calculateCombinedExposure (.arr ids) data := by
      rw [calculateCombinedExposure, calculateCombinedExposure, selectScenarios_arr, selectScenarios_arr, hm]
    rw [call_eq isZero data input (List.ne_nil_of_mem hsid) memory (List.ne_nil_of_mem hmem),
      call_eq isZero data input (List.ne_nil_of_mem ((h _).mp hsid)) memory (hm ▸ List.ne_nil_of_mem hmem), hcalc, hm]
  · have hmem' : s ∈ matching data ids' := mem_matching.mpr ⟨hs, h hsid⟩
    obtain ⟨situation', hc'⟩ := call_combines isZero hdata input (List.ne_nil_of_mem hmem') memory'
    refine ⟨situation', hc', hc'.minimum.le _ ?_⟩
    obtain ⟨t, ht, hte⟩ := List.mem_map.mp hc.minimum.mem
    rw [hc.components, mem_matching] at ht
    rw [← hte, hc'.components]
    exact List.mem_map_of_mem (mem_matching.mpr ⟨ht.1, h ht.2⟩)

/-- Rain on the highway. -/
def rainData : SituationsData :=
  ⟨(Dict.empty.set "highway".toList [⟨['H'], "Cruising".toList, "E4".toList⟩]).set "weather".toList
    [⟨['R'], "Rain".toList, "E2".toList⟩]⟩

theorem create_custom_operational_situation_rain :
    ∃ situation, Combines rainData [.str ['R'], .str ['H'], .str ['R']] none
        (call (· == 0) rainData (.empty : Dict Str (Json Nat)) [.str ['R'], .str ['H'], .str ['R']] none) situation ∧
      (∀ ids', (∀ v, v ∈ [.str ['R'], .str ['H'], .str ['R']] ↔ v ∈ ids') → call (· == 0) rainData .empty ids' none =
        call (· == 0) rainData .empty [.str ['R'], .str ['H'], .str ['R']] none) ∧
      ∀ ids', [.str ['R'], .str ['H'], .str ['R']] ⊆ ids' → ∀ memory', ∃ situation',
        Combines rainData ids' memory' (call (· == 0) rainData .empty ids' memory') situation' ∧
        rank situation'.combinedExposure ≤ rank situation.combinedExposure :=
  create_custom_operational_situation_minimum (· == 0) (show ∀ s ∈ _, _ by decide) .empty
    ⟨⟨['R'], "Rain".toList, "E2".toList⟩, by decide, .head _⟩ none

end KCore.Hara.OperationalSituation
