import Mathlib.Algebra.Ring.Int.Defs
import KCore.Impl.VectorMemory.Points
import KCore.Lib.Run
import KCore.Proof.VectorMemory.Filter

/-!
# Procedural memory is read-only

The endpoints that create and edit a point refuse the procedural collection; the two that
delete do not look at its name. `procedural_read_only_iff` says which calls keep it as it is.
-/

namespace KCore.MemoryPoints

open Text VectorMemory Machine

variable {N V : Type*} {client : Client N V} {vectors : Vectors N V}

theorem procedural_mem : procedural ∈ collectionNames := by decide

theorem getPoints_isEmpty {points : List (PointStruct N V)} {id : Str} :
    (getPoints points id).isEmpty = true ↔ ∀ p ∈ points, p.id ≠ id := by
  simp [getPoints, List.filter_eq_nil_iff]

theorem deleteMemoryPoint_rejects {pointId : Str} :
    (deleteMemoryPoint client vectors procedural pointId).2.rejects = true ↔
      ∀ id ∈ client.readId pointId, ∀ p ∈ vectors procedural, p.id ≠ id := by
  rw [deleteMemoryPoint, if_neg (not_not.mpr procedural_mem)]
  cases client.readId pointId with
  | none => exact iff_of_true rfl nofun
  | some id =>
    simp only [Option.mem_def, Option.some.injEq, forall_eq']
    rw [← getPoints_isEmpty]
    split
    · exact iff_of_true rfl ‹_›
    · exact iff_of_false nofun ‹_›

variable [DecidableEq N] {call : Call N}

/-- A deletion from the procedural collection names no point that is there, and its filter is empty or has a condition
that the database refuses. -/
def ReadOnly (client : Client N V) (vectors : Vectors N V) : Call N → Prop
  | .delete collectionId pointId =>
    collectionId = procedural → ∀ id ∈ client.readId pointId, ∀ p ∈ vectors procedural, p.id ≠ id
  | .deleteByMetadata collectionId metadata =>
    collectionId = procedural →
      ∀ must ∈ qdrantFilterFromDict metadata.entries, ∃ c ∈ must, client.qdrant.takes c = false
  | _ => True

theorem deletePointsByMetadataFilter_eq_none {q : Qdrant N} (points : List (PointStruct N V))
    {metadata : Dict Str (Json N)} : deletePointsByMetadataFilter q points metadata = none ↔
      ∀ must ∈ qdrantFilterFromDict metadata.entries, ∃ c ∈ must, q.takes c = false := by
  rw [deletePointsByMetadataFilter]
  cases qdrantFilterFromDict metadata.entries with
  | none => exact iff_of_true rfl nofun
  | some must => simp

/-- Apart from their vectors, the points are those that the deletion of `KCore.VectorMemory` leaves. -/
theorem deletePointsByMetadataFilter_toPoint (q : Qdrant N) (points : List (PointStruct N V))
    (metadata : Dict Str (Json N)) :
    (deletePointsByMetadataFilter q points metadata).map (List.map PointStruct.toPoint) =
      VectorMemory.deletePointsByMetadataFilter q (points.map PointStruct.toPoint) metadata.entries := by
  rw [deletePointsByMetadataFilter, VectorMemory.deletePointsByMetadataFilter]
  cases qdrantFilterFromDict metadata.entries with
  | none => rfl
  | some must =>
    simp only [Option.bind_eq_bind, Option.bind_some]
    split
    · rw [List.filter_map]
      rfl
    · rfl

/-! ## One call -/

theorem deleteMemoryPointsByMetadata_rejects {metadata : Dict Str (Json N)} :
    (deleteMemoryPointsByMetadata client vectors procedural metadata).2.rejects = true ↔
      ∀ must ∈ qdrantFilterFromDict metadata.entries, ∃ c ∈ must, client.qdrant.takes c = false := by
  rw [deleteMemoryPointsByMetadata, if_neg (not_not.mpr procedural_mem),
    ← deletePointsByMetadataFilter_eq_none (vectors procedural)]
  cases deletePointsByMetadataFilter client.qdrant (vectors procedural) metadata with
  | none => exact iff_of_true rfl rfl
  | some points => exact iff_of_false nofun nofun

variable [Zero N]

/-- A call that names the procedural collection is rejected. -/
def Rejected (client : Client N V) (vectors : Vectors N V) (call : Call N) : Prop :=
  call.collectionId = procedural → (respond client vectors call).2.rejects = true

theorem rejected_iff : Rejected client vectors call ↔ ReadOnly client vectors call := by
  cases call with
  | create collectionId point userId now newId =>
    refine iff_of_true (fun h => ?_) trivial
    show (createMemoryPoint client vectors collectionId point userId now newId).2.rejects = true
    rw [createMemoryPoint, if_pos (show collectionId = procedural from h)]
    rfl
  | edit collectionId pointId point userId now =>
    refine iff_of_true (fun h => ?_) trivial
    show (editMemoryPoint client vectors collectionId pointId point userId now).2.rejects = true
    rw [editMemoryPoint, if_pos (show collectionId = procedural from h)]
    rfl
  | delete collectionId pointId =>
    refine forall_congr' fun h => ?_
    obtain rfl : collectionId = procedural := h
    exact deleteMemoryPoint_rejects
  | deleteByMetadata collectionId metadata =>
    refine forall_congr' fun h => ?_
    obtain rfl : collectionId = procedural := h
    exact deleteMemoryPointsByMetadata_rejects

/-- What a call changes is in the collection that it names, and a call that is rejected changes nothing. -/
theorem step_eq (call : Call N) : step client vectors call = vectors ∨
    (respond client vectors call).2.rejects = false ∧
      ∃ points, step client vectors call = Function.update vectors call.collectionId points := by
  cases call with
  | create collectionId point userId now newId =>
    simp only [step, respond, createMemoryPoint]
    split
    · exact .inl rfl
    split
    · exact .inl rfl
    · exact .inr ⟨rfl, _, rfl⟩
  | edit collectionId pointId point userId now =>
    simp only [step, respond, editMemoryPoint]
    split
    · exact .inl rfl
    split
    · exact .inl rfl
    split
    · exact .inl rfl
    split
    · exact .inl rfl
    · exact .inr ⟨rfl, _, rfl⟩
  | delete collectionId pointId =>
    simp only [step, respond, deleteMemoryPoint]
    split
    · exact .inl rfl
    split
    · exact .inl rfl
    split
    · exact .inl rfl
    · exact .inr ⟨rfl, _, rfl⟩
  | deleteByMetadata collectionId metadata =>
    simp only [step, respond, deleteMemoryPointsByMetadata]
    split
    · exact .inl rfl
    split
    · exact .inl rfl
    · exact .inr ⟨rfl, _, rfl⟩

theorem step_procedural (h : Rejected client vectors call) : step client vectors call procedural = vectors procedural := by
  have hcases : step client vectors call = vectors ∨ (respond client vectors call).2.rejects = false ∧
      ∃ points, step client vectors call = Function.update vectors call.collectionId points := step_eq call
  rcases hcases with he | ⟨hr, points, he⟩
  · rw [he]
  · have hne : call.collectionId ≠ procedural := fun hc => by simp [h hc] at hr
    rw [he, Function.update_of_ne hne.symm]

/-! ## Runs -/

/-- Every call that names the procedural collection is rejected, and its points stay as they are, just where no
deletion from it finds a point by its id or has a filter that the database takes. -/
theorem procedural_read_only_iff (client : Client N V) (vectors : Vectors N V) (calls : List (Call N)) :
    Along (step client) (Rejected client) vectors calls ∧
        run (step client) vectors calls procedural = vectors procedural ↔
      Along (step client) (ReadOnly client) vectors calls := by
  have hread : Along (step client) (Rejected client) vectors calls ↔ Along (step client) (ReadOnly client) vectors calls :=
    ⟨Along.mono fun _ _ h => rejected_iff.mp h, Along.mono fun _ _ h => rejected_iff.mpr h⟩
  rw [← hread]
  refine and_iff_left_of_imp fun h => ?_
  exact run_invariant (I := fun v => v procedural = vectors procedural)
    (fun _ _ hi hr => (step_procedural hr).trans hi) rfl h

/-- A client whose ids are read as they are. -/
def anyClient : Client Int Unit := ⟨pathQdrant, some, fun _ => ()⟩

/-- A tool in the procedural collection. -/
def toolVectors : Vectors Int Unit := fun c =>
  if c = procedural then [⟨⟨"1".toList, "get_the_time".toList, .obj [(source, .str "get_the_time".toList)]⟩, ()⟩] else []

/-- The tool is deleted by its id, and by a filter. -/
theorem procedural_point_deleted :
    let byId := respond anyClient toolVectors (.delete procedural "1".toList)
    let byFilter := respond anyClient toolVectors
      (.deleteByMetadata procedural (Dict.empty.set source (.str "get_the_time".toList)))
    (byId.2.rejects, (byId.1 procedural).length) = (false, 0) ∧
      (byFilter.2.rejects, (byFilter.1 procedural).length) = (false, 0) ∧
      (toolVectors procedural).length = 1 := by
  decide +kernel

end KCore.MemoryPoints
