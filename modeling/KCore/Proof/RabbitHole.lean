import KCore.Impl.RabbitHole
import KCore.Proof.VectorMemory.Points

/-!
# The vectors of an uploaded memory

`ingest_memory` looks for one vector of the collection's size, and then hands the whole
batch over (`uploadBatch_eq_some`). `ingest_memory_iff` is when that does what a check of
every vector would do.
-/

namespace KCore.RabbitHole

variable {N V : Type*}

/-- Every vector of the file has the size of the collection. -/
def RightSize (cat : Cat N V) (memories : MemoriesFile N V) : Prop :=
  ∀ r ∈ memories.declarative, cat.dimension r.vector = cat.embedderSize

instance (cat : Cat N V) (memories : MemoriesFile N V) : Decidable (RightSize cat memories) :=
  inferInstanceAs (Decidable (∀ r ∈ memories.declarative, _))

/-- The batch of a list of records. -/
def Batch.of (rs : List (Record N V)) : Batch N V where
  ids := rs.map Record.id
  payloads := rs.map fun p => ⟨p.pageContent, p.metadata⟩
  vectors := rs.map Record.vector

/-- A batch lists the records that it was made of. -/
theorem Batch.records_of (rs : List (Record N V)) : (Batch.of rs).records = rs := by
  induction rs with
  | nil => rfl
  | cons r rs ih =>
    simp only [Batch.records, Batch.of, List.map_cons, List.zip_cons_cons] at ih ⊢
    rw [ih]

/-- The batch is the whole file, if one of its vectors has the right size. -/
theorem uploadBatch_eq (cat : Cat N V) (memories : MemoriesFile N V) :
    uploadBatch cat memories =
      if memories.embedder = cat.embedder ∧ ∃ r ∈ memories.declarative, cat.dimension r.vector = cat.embedderSize then
        some (Batch.of memories.declarative)
      else none := by
  have hany : ((memories.declarative.map Record.vector).map fun v => decide (cat.dimension v = cat.embedderSize)).any id =
      true ↔ ∃ r ∈ memories.declarative, cat.dimension r.vector = cat.embedderSize := by
    simp
  unfold uploadBatch
  by_cases he : memories.embedder = cat.embedder
  · rw [if_neg (not_not.mpr he)]
    dsimp only
    split
    · rename_i h
      rw [if_neg fun hc => ?_]
      rw [hany.mpr hc.2] at h
      cases h
    · rename_i h
      rw [if_pos ⟨he, hany.mp (by simpa using h)⟩]
      rfl
  · rw [if_pos he, if_neg fun hc => he hc.1]

/-- What is stored in the declarative collection is the batch, where the vector store takes it. -/
theorem ingestMemory_eq (cat : Cat N V) (memories : MemoriesFile N V) :
    ingestMemory cat memories = (uploadBatch cat memories).bind fun b =>
      if cat.upserts b.records then some (b.payloads.map fun payload => ⟨declarative, payload⟩) else none := by
  have hvectors : ((memories.declarative.map Record.vector).map fun v => decide (cat.dimension v = cat.embedderSize)) =
      memories.declarative.map fun r => decide (cat.dimension r.vector = cat.embedderSize) := by
    rw [List.map_map]
    rfl
  unfold ingestMemory uploadBatch
  dsimp only
  rw [hvectors]
  by_cases he : memories.embedder = cat.embedder
  · rw [if_neg (not_not.mpr he), if_neg (not_not.mpr he)]
    split
    · rfl
    · have hrecords := Batch.records_of memories.declarative
      unfold Batch.of at hrecords
      rw [Option.bind_some, hrecords, List.map_map]
      rfl
  · rw [if_pos he, if_pos he]
    rfl

/-! ## What the check is for -/

/-- The whole file reaches the vector store where its embedder and every vector are right, and nothing else does. -/
def Checked {C : Type*} (cat : Cat N V) (store : C → List (Record N V) → C) (collection : C)
    (memories : MemoriesFile N V) : Prop :=
  if memories.embedder = cat.embedder ∧ RightSize cat memories then
    (∃ b ∈ uploadBatch cat memories, b.records = memories.declarative) ∧
      upload cat (fun c b => some (store c b.records)) collection memories =
        (store collection memories.declarative, true)
  else uploadBatch cat memories = none ∧
    upload cat (fun c b => some (store c b.records)) collection memories = (collection, false)

/-- The check is one of every vector just for another embedder, or when all vectors are right, or all are wrong. -/
theorem ingest_memory_iff {C : Type*} (cat : Cat N V) (store : C → List (Record N V) → C) (collection : C)
    (memories : MemoriesFile N V) (hne : memories.declarative ≠ []) :
    Checked cat store collection memories ↔
      memories.embedder ≠ cat.embedder ∨ RightSize cat memories ∨
        ∀ r ∈ memories.declarative, cat.dimension r.vector ≠ cat.embedderSize := by
  have hbatch := uploadBatch_eq cat memories
  unfold Checked upload
  by_cases he : memories.embedder = cat.embedder
  · by_cases hall : RightSize cat memories
    · obtain ⟨r, hr⟩ := List.exists_mem_of_ne_nil _ hne
      rw [if_pos ⟨he, ⟨r, hr, hall r hr⟩⟩] at hbatch
      rw [if_pos ⟨he, hall⟩, hbatch, Option.bind_some]
      dsimp only
      rw [Batch.records_of]
      exact iff_of_true ⟨⟨_, rfl, Batch.records_of _⟩, rfl⟩ (.inr (.inl hall))
    · rw [if_neg fun h => hall h.2]
      by_cases hany : ∃ r ∈ memories.declarative, cat.dimension r.vector = cat.embedderSize
      · -- one right vector lets the wrong ones through
        rw [if_pos ⟨he, hany⟩] at hbatch
        refine iff_of_false (fun h => ?_) fun h => ?_
        · rw [hbatch] at h
          cases h.1
        · obtain ⟨r, hr, hd⟩ := hany
          rcases h with h | h | h
          · exact h he
          · exact hall h
          · exact h r hr hd
      · rw [if_neg fun h => hany h.2] at hbatch
        rw [hbatch]
        refine iff_of_true ⟨rfl, rfl⟩ (.inr (.inr fun r hr hd => hany ⟨r, hr, hd⟩))
  · rw [if_neg fun h => he h.1] at hbatch
    rw [if_neg fun h => he h.1, hbatch]
    exact iff_of_true ⟨rfl, rfl⟩ (.inl he)

/-- A cat with an embedder of two dimensions. -/
def flatCat : Cat Int (List Int) where
  client := ⟨VectorMemory.pathQdrant, some, fun _ => []⟩
  embedder := "DumbEmbedder".toList
  embedderSize := 2
  dimension := List.length
  upserts := fun _ => true

def fileOf (vectors : List (List Int)) : MemoriesFile Int (List Int) :=
  ⟨"DumbEmbedder".toList, vectors.map fun v => ⟨.null, .str "test_memory".toList, .obj [], v⟩⟩

/-- A file like that of the test of the dimensionality, with right vectors. -/
theorem ingest_memory_iff_three : Checked flatCat List.append [] (fileOf [[1, 2], [3, 4], [5, 6]]) := by
  have hsize : RightSize flatCat (fileOf [[1, 2], [3, 4], [5, 6]]) := by decide
  exact (ingest_memory_iff flatCat List.append [] (fileOf [[1, 2], [3, 4], [5, 6]]) (List.cons_ne_nil _ _)).mpr
    (.inr (.inl hsize))

/-- A wrong vector behind a right one is handed over. -/
theorem mixed_vectors_stored : ¬Checked flatCat List.append [] (fileOf [[1, 2], [3]]) := by
  have hwrong : ¬RightSize flatCat (fileOf [[1, 2], [3]]) := by decide
  unfold Checked
  rw [if_neg fun h => hwrong h.2]
  intro h
  have hbatch : (uploadBatch flatCat (fileOf [[1, 2], [3]])).isSome = true := by decide
  rw [h.1] at hbatch
  cases hbatch

end KCore.RabbitHole
