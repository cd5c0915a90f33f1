import KCore.Impl.Settings
import Mathlib.Data.List.Perm.Basic

/-!
# What a rollback leaves

A model that cannot be loaded is rolled back by the deletion of two categories, from
which the embedder's route rebuilds the selected configuration. `rollback_ok_iff` says when
that restores the store: nothing else may be in them.
-/

namespace KCore.Settings

open Text

variable {N : Type*} {db : Store N}

/-- A record of one of the two categories, or with one of the names. -/
def Touched (selectedCategory category : Str) (names : List Str) (s : Setting N) : Prop :=
  s.category = some selectedCategory ∨ s.category = some category ∨ s.name ∈ names

instance (selectedCategory category : Str) (names : List Str) (s : Setting N) :
    Decidable (Touched selectedCategory category names s) :=
  inferInstanceAs (Decidable (_ ∨ _ ∨ _))

/-- The records of the embedders are these: a selected one, with a saved configuration, and its selection. -/
def selection (name : Str) (value : Json N) : List (Setting N) :=
  let selected := ⟨embedderSelectedName, .obj [("name".toList, .str name)], some embedderSelectedCategory⟩
  if name = embedderSelectedName then [selected] else [⟨name, value, some embedderCategory⟩, selected]

/-- The store has no record of the embedders, of the model that is asked for or of a selection; or it has the selected
embedder's configuration and its selection, and no other. -/
def EmbedderRestorable (db : Store N) (name : Str) : Prop :=
  match getSelected db with
  | some (some (.str selected, some current)) =>
    (db.filter fun s => Touched embedderSelectedCategory embedderCategory [name, selected, embedderSelectedName] s).Perm
      (selection selected current.value)
  | _ => ∀ s ∈ db, ¬Touched embedderSelectedCategory embedderCategory [name, embedderSelectedName] s

/-- The store has no record of the language models, of the one that is asked for or of a selection. -/
def LlmRestorable (db : Store N) (name : Str) : Prop :=
  ∀ s ∈ db, ¬Touched llmSelectedCategory llmCategory [name, llmSelectedName] s

/-! ## Upserts -/

theorem getSettingByName_eq_none {name : Str} : getSettingByName db name = none ↔ ∀ s ∈ db, s.name ≠ name := by
  simp [getSettingByName]

theorem upsert_new {payload : Setting N} (h : ∀ s ∈ db, s.name ≠ payload.name) :
    upsertSettingByName db payload = db ++ [payload] := by
  rw [upsertSettingByName, getSettingByName_eq_none.mpr h]

theorem upsert_present {payload s : Setting N} (hs : s ∈ db) (hn : s.name = payload.name) :
    upsertSettingByName db payload = db.map fun s => if s.name = payload.name then payload else s := by
  rw [upsertSettingByName]
  cases hg : getSettingByName db payload.name with
  | none => exact absurd hn (getSettingByName_eq_none.mp hg s hs)
  | some _ => rfl

theorem mem_upsert {payload s : Setting N} (h : s ∈ upsertSettingByName db payload) :
    s = payload ∨ s ∈ db ∧ s.name ≠ payload.name := by
  by_cases hex : ∃ s ∈ db, s.name = payload.name
  · obtain ⟨t, ht, hn⟩ := hex
    rw [upsert_present ht hn] at h
    obtain ⟨u, hu, rfl⟩ := List.mem_map.mp h
    split
    · exact .inl rfl
    · rename_i hne
      exact .inr ⟨hu, hne⟩
  · have hnew : ∀ s ∈ db, s.name ≠ payload.name := fun s hs hn => hex ⟨s, hs, hn⟩
    rw [upsert_new hnew, List.mem_append, List.mem_singleton] at h
    exact h.symm.imp_right fun hs => ⟨hs, hnew s hs⟩

/-- What a filter that leaves out the new record keeps. -/
theorem filter_upsert {p : Setting N → Bool} {payload : Setting N} (hp : p payload = false) :
    (upsertSettingByName db payload).filter p = db.filter fun s => p s && s.name ≠ payload.name := by
  by_cases hex : ∃ s ∈ db, s.name = payload.name
  · obtain ⟨t, ht, hn⟩ := hex
    rw [upsert_present ht hn]
    clear ht
    induction db with
    | nil => rfl
    | cons s db ih =>
      rw [List.map_cons, List.filter_cons, List.filter_cons, ih]
      by_cases hs : s.name = payload.name
      · simp [hs, hp]
      · simp [hs]
  · have hnew : ∀ s ∈ db, s.name ≠ payload.name := fun s hs hn => hex ⟨s, hs, hn⟩
    rw [upsert_new hnew, List.filter_append, List.filter_singleton, hp]
    simp only [cond_false, List.append_nil]
    exact List.filter_congr fun s hs => by simp [hnew s hs]

/-- The two records that a route saves, and what its rollback leaves of the store. -/
theorem rolled_back (selectedCategory category name selectedName : Str) (v w : Json N) :
    deleteSettingsByCategory (deleteSettingsByCategory (upsertSettingByName
        (upsertSettingByName db ⟨name, v, some category⟩) ⟨selectedName, w, some selectedCategory⟩) selectedCategory)
      category = db.filter fun s => ¬Touched selectedCategory category [name, selectedName] s := by
  rw [deleteSettingsByCategory, deleteSettingsByCategory, List.filter_filter, filter_upsert (by simp),
    filter_upsert (by simp)]
  refine List.filter_congr fun s _ => ?_
  simp only [Touched, List.mem_cons, List.not_mem_nil, or_false, ← Bool.decide_and]
  refine decide_eq_decide.mpr ?_
  tauto

theorem filter_perm_iff {p : Setting N → Prop} [DecidablePred p] : (db.filter fun s => ¬p s).Perm db ↔ ∀ s ∈ db, ¬p s := by
  refine ⟨fun h s hs => ?_, fun h => ?_⟩
  · exact of_decide_eq_true (List.mem_filter.mp (h.symm.subset hs)).2
  · rw [List.filter_eq_self.mpr fun s hs => decide_eq_true (h s hs)]

/-! ## The restored selection -/

theorem mem_selection {name : Str} {value : Json N} {s : Setting N} (h : s ∈ selection name value) :
    s.category = some embedderSelectedCategory ∨ s.category = some embedderCategory := by
  rw [selection] at h
  split at h
  · rw [List.mem_singleton.mp h]
    exact .inl rfl
  · rcases List.mem_pair.mp h with rfl | rfl
    · exact .inr rfl
    · exact .inl rfl

/-- Where no record has the names, the two upserts append the selection. -/
theorem upsert_selection {selected : Str} {value : Json N} (hname : ∀ s ∈ db, s.name ≠ selected)
    (hselected : ∀ s ∈ db, s.name ≠ embedderSelectedName) :
    upsertSettingByName (upsertSettingByName db ⟨selected, value, some embedderCategory⟩)
      ⟨embedderSelectedName, .obj [("name".toList, .str selected)], some embedderSelectedCategory⟩ =
    db ++ selection selected value := by
  rw [@upsert_new _ db ⟨selected, value, some embedderCategory⟩ hname, selection]
  by_cases he : selected = embedderSelectedName
  · rw [if_pos he, upsert_present (List.mem_append_right _ (.head _)) he, List.map_append, List.map_singleton,
      if_pos he]
    refine congrArg (· ++ _) ((List.map_congr_left fun s hs => ?_).trans (List.map_id db))
    exact if_neg (hselected s hs)
  · rw [if_neg he, upsert_new, List.append_assoc]
    · rfl
    · intro s hs
      rcases List.mem_append.mp hs with hs | hs
      · exact hselected s hs
      · rw [List.mem_singleton.mp hs]
        exact he

/-- Parts that are left and parts that are put back. -/
theorem append_perm_iff {p : Setting N → Prop} [DecidablePred p] {l : List (Setting N)} :
    ((db.filter fun s => ¬p s) ++ l).Perm db ↔ (db.filter fun s => p s).Perm l := by
  have hsplit : ((db.filter fun s => ¬p s) ++ db.filter fun s => p s).Perm db := by
    have hparts := List.filter_append_perm (fun s => decide (p s)) db
    simp only [← decide_not] at hparts
    exact List.perm_append_comm.trans hparts
  constructor
  · intro h
    exact ((List.perm_append_left_iff _).mp (h.trans hsplit.symm)).symm
  · intro h
    exact (((List.perm_append_left_iff _).mpr h.symm)).trans hsplit

/-- Restored, the store holds what was left and the selection; that is the store before exactly if it held no other
record of the embedders. -/
theorem restored_perm_iff (name selected : Str) (value : Json N) :
    let left := db.filter fun s => ¬Touched embedderSelectedCategory embedderCategory [name, embedderSelectedName] s
    (upsertSettingByName (upsertSettingByName left ⟨selected, value, some embedderCategory⟩)
        ⟨embedderSelectedName, .obj [("name".toList, .str selected)], some embedderSelectedCategory⟩).Perm db ↔
      (db.filter fun s => Touched embedderSelectedCategory embedderCategory [name, selected, embedderSelectedName] s).Perm
        (selection selected value) := by
  intro left
  have hleft {s : Setting N} : s ∈ left ↔
      s ∈ db ∧ ¬Touched embedderSelectedCategory embedderCategory [name, embedderSelectedName] s := by
    rw [List.mem_filter, decide_eq_true_eq]
  by_cases hex : ∃ s ∈ left, s.name = selected
  · -- a record of the selected name, in another category, is replaced
    obtain ⟨s, hs, hn⟩ := hex
    obtain ⟨hdb, huntouched⟩ := hleft.mp hs
    have hselected : s.category ≠ some embedderSelectedCategory := fun h => huntouched (.inl h)
    have hcategory : s.category ≠ some embedderCategory := fun h => huntouched (.inr (.inl h))
    refine iff_of_false (fun hperm => ?_) fun hperm => ?_
    · rcases mem_upsert (hperm.symm.subset hdb) with rfl | ⟨hs', -⟩
      · exact hselected rfl
      · rcases mem_upsert hs' with rfl | ⟨-, hne⟩
        · exact hcategory rfl
        · exact hne hn
    · have hmem : s ∈ selection selected value := by
        refine hperm.subset (List.mem_filter.mpr ⟨hdb, decide_eq_true (.inr (.inr ?_))⟩)
        rw [hn]
        exact .tail _ (.head _)
      exact (mem_selection hmem).elim hselected hcategory
  · have hnone : ∀ s ∈ left, s.name ≠ selected := fun s hs hn => hex ⟨s, hs, hn⟩
    have hselected : ∀ s ∈ left, s.name ≠ embedderSelectedName := fun s hs hn =>
      (hleft.mp hs).2 (.inr (.inr (hn ▸ .tail _ (.head _))))
    have hsame : left = db.filter fun s =>
        ¬Touched embedderSelectedCategory embedderCategory [name, selected, embedderSelectedName] s := by
      refine List.filter_congr fun s hs => decide_eq_decide.mpr (not_congr ?_)
      by_cases hn : s.name = selected
      · have htouched : Touched embedderSelectedCategory embedderCategory [name, embedderSelectedName] s := by
          by_contra hnot
          exact hnone s (hleft.mpr ⟨hs, hnot⟩) hn
        exact iff_of_true htouched (.inr (.inr (hn ▸ .tail _ (.head _))))
      · simp [Touched, hn]
    rw [upsert_selection hnone hselected, hsame, append_perm_iff]

/-! ## The rollbacks -/

theorem llm_rollback {allowed : List Str} {name : Str} {payload : Json N} {o : Outside}
    (h : (upsertLlmSetting allowed db name payload o).2 = .memoryFailed) :
    (upsertLlmSetting allowed db name payload o).1 =
      db.filter fun s => ¬Touched llmSelectedCategory llmCategory [name, llmSelectedName] s := by
  rw [upsertLlmSetting] at h ⊢
  by_cases hallowed : name ∉ allowed
  · rw [if_pos hallowed] at h
    cases h
  rw [if_neg hallowed] at h ⊢
  by_cases hn : o.naturalLanguage = false
  · simp only [if_pos hn] at h
    cases h
  by_cases hm : o.memory = true
  · simp only [if_neg hn, if_pos hm] at h
    split at h <;> cases h
  simp only [if_neg hn, if_neg hm]
  exact rolled_back ..

/-- After the answer, the store is what the deletion left, with the selection put back if there was one. -/
theorem embedder_rollback {allowed : List Str} {name : Str} {payload : Json N} {o : Outside}
    (h : (upsertEmbedderSetting allowed db name payload o).2 = .memoryFailed) :
    let left := db.filter fun s => ¬Touched embedderSelectedCategory embedderCategory [name, embedderSelectedName] s
    getSelected db = some none ∧ (upsertEmbedderSetting allowed db name payload o).1 = left ∨
      ∃ selected current, getSelected db = some (some (.str selected, some current)) ∧
        restore left (.str selected, some current) = some (upsertEmbedderSetting allowed db name payload o).1 := by
  intro left
  rw [upsertEmbedderSetting] at h ⊢
  by_cases hallowed : name ∉ allowed
  · rw [if_pos hallowed] at h
    cases h
  rw [if_neg hallowed] at h ⊢
  cases hs : getSelected db with
  | none =>
    rw [hs] at h
    cases h
  | some selected =>
    simp only [hs] at h ⊢
    by_cases hn : o.naturalLanguage = false
    · rw [if_pos hn] at h
      cases h
    by_cases hm : o.memory = true
    · rw [if_neg hn, if_pos hm] at h
      split at h <;> cases h
    simp only [if_neg hn, if_neg hm, rolled_back] at h ⊢
    match selected with
    | none => exact .inl ⟨rfl, rfl⟩
    | some (.str name, some current) => exact .inr ⟨name, current, rfl, rfl⟩
    | some (.str _, none) => cases h
    | some (.null, _) => cases h
    | some (.bool _, _) => cases h
    | some (.num _, _) => cases h
    | some (.arr _, _) => cases h
    | some (.obj _, _) => cases h

/-- Where a route answers that the memory could not be loaded, the records are those before the request exactly if
the store had nothing that the rollback deletes and does not put back. -/
theorem rollback_ok_iff (allowed : List Str) (db : Store N) (name : Str) (payload : Json N) (o : Outside) :
    ((upsertEmbedderSetting allowed db name payload o).2 = .memoryFailed →
      ((upsertEmbedderSetting allowed db name payload o).1.Perm db ↔ EmbedderRestorable db name)) ∧
    ((upsertLlmSetting allowed db name payload o).2 = .memoryFailed →
      ((upsertLlmSetting allowed db name payload o).1.Perm db ↔ LlmRestorable db name)) := by
  refine ⟨fun h => ?_, fun h => ?_⟩
  · rw [EmbedderRestorable]
    rcases embedder_rollback h with ⟨hs, hstore⟩ | ⟨selected, current, hs, hstore⟩
    · rw [hs, hstore]
      exact filter_perm_iff
    · rw [hs, ← Option.some.inj hstore]
      exact restored_perm_iff name selected current.value
  · rw [llm_rollback h]
    exact filter_perm_iff

/-- `load_memory` raises, and nothing else does. -/
def memoryRaises : Outside := ⟨true, false, true, true⟩

def saved (name category : Str) : Setting Int := ⟨name, .obj [], some category⟩

def dumb : Str := "EmbedderDumbConfig".toList

def ollama : Str := "EmbedderOllamaConfig".toList

/-- The dumb embedder is saved and selected. -/
def dumbSelected : Store Int :=
  [saved dumb embedderCategory,
    ⟨embedderSelectedName, .obj [("name".toList, .str dumb)], some embedderSelectedCategory⟩]

def gpt : Str := "LLMOpenAIConfig".toList

theorem rollback_of_dumb :
    ((upsertEmbedderSetting [dumb, ollama] dumbSelected ollama (.obj []) memoryRaises).1.Perm dumbSelected ↔
      EmbedderRestorable dumbSelected ollama) ∧
    ((upsertLlmSetting [gpt] dumbSelected gpt (.obj []) memoryRaises).1.Perm dumbSelected ↔
      LlmRestorable dumbSelected gpt) :=
  have hok := rollback_ok_iff (N := Int)
  ⟨(hok [dumb, ollama] dumbSelected ollama (.obj []) memoryRaises).1 (by decide +kernel),
    (hok [gpt] dumbSelected gpt (.obj []) memoryRaises).2 (by decide +kernel)⟩

/-- The rollback of an embedder loses the configuration of one that is not selected, and the rollback of a language
model every configuration. -/
theorem rollback_loses_configurations :
    (upsertEmbedderSetting [dumb, ollama] (saved "EmbedderFakeConfig".toList embedderCategory :: dumbSelected) ollama
      (.obj []) memoryRaises).2 = .memoryFailed ∧
    ¬(upsertEmbedderSetting [dumb, ollama] (saved "EmbedderFakeConfig".toList embedderCategory :: dumbSelected) ollama
      (.obj []) memoryRaises).1.Perm (saved "EmbedderFakeConfig".toList embedderCategory :: dumbSelected) ∧
    (upsertLlmSetting [gpt] [saved gpt llmCategory] gpt (.obj []) memoryRaises).2 = .memoryFailed ∧
    ¬(upsertLlmSetting [gpt] [saved gpt llmCategory] gpt (.obj []) memoryRaises).1.Perm [saved gpt llmCategory] := by
  refine ⟨by decide +kernel, fun h => ?_, by decide +kernel, fun h => ?_⟩
  · exact absurd h.length_eq (by decide +kernel)
  · exact absurd h.length_eq (by decide +kernel)

end KCore.Settings
