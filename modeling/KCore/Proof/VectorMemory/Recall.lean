import Mathlib.Algebra.Ring.Int.Defs
import KCore.Lib.MapM
import KCore.Impl.VectorMemory.Recall
import KCore.Proof.VectorMemory.Filter

/-!
# Whose memories are recalled

Of the episodic memories, those of the caller: that is what the condition on `source`
leaves (`recall_ok`). The database finds a value in an array too, so these are the
points whose source is the caller's id or an array that has it.
-/

namespace KCore.VectorMemory

open Text Json

variable {N V S : Type*}

/-! ## What is asked -/

def Recall.query : Recall N V → V
  | .get embedding _ | .post embedding _ _ | .turn embedding => embedding

def Recall.k : Recall N V → Int
  | .get _ k | .post _ k _ => k
  | .turn _ => 3

def Recall.threshold [OfScientific S] : Recall N V → Option S
  | .get .. | .post .. => none
  | .turn _ => some 0.7

/-- The metadata that the caller asks for. -/
def Recall.asked : Recall N V → Dict Str (Json N)
  | .get .. | .turn _ => .empty
  | .post _ _ metadata => metadata

/-- The metadata for each collection: the caller as the source of the episodic one, no source for the others. -/
def metadataFor (userId : Str) (asked : Dict Str (Json N)) (c : Str) : Dict Str (Json N) :=
  if c = episodic then asked.set source (.str userId) else asked.erase source

variable [DecidableEq N]

/-- What is recalled of one collection. -/
def recallOf [Zero N] [OfScientific S] (q : Qdrant N) (search : Search N V S) (vectors : Vectors N V) (userId : Str)
    (r : Recall N V) (c : Str) : Option (List (Memory N V S)) :=
  recallMemoriesFromEmbedding q search (vectors c) r.query (metadataFor userId r.asked c) r.k r.threshold

/-- The source in the metadata is the user's id, or an array that has it. -/
def visible (userId : Str) (p : Point N) : Bool :=
  ((p.metadata.field source).map fun v => v.holds (.str userId)).getD false

/-! ## The filter -/

def sourceCondition (userId : Str) : FieldCondition N := ⟨"metadata.".toList ++ source, .str userId⟩

omit [DecidableEq N] in
theorem valuesAt_source (q : Qdrant N) (p : Point N) :
    q.valuesAt ("metadata.".toList ++ source) p.payload = (Step.key source).reach p.metadata := by
  have hkey : "metadata.".toList ++ source = "metadata".toList ++ '.' :: source := by decide +kernel
  have hsource : noSyntax source = true := by decide +kernel
  rw [hkey, q.valuesAt_key _ _ _ hsource, valuesAt_payload, List.flatMap_singleton]

theorem met_source (q : Qdrant N) (userId : Str) (p : Point N) :
    q.met p (sourceCondition userId) = visible userId p := by
  have hmet : q.met p (sourceCondition userId) =
      (q.valuesAt ("metadata.".toList ++ source) p.payload).any (·.holds (.str userId)) := rfl
  rw [hmet, valuesAt_source, visible, Step.reach]
  cases p.metadata.field source with
  | none => rfl
  | some v => simp

theorem holds_str {v : Json N} {s : Str} : v.holds (.str s) = true ↔ v = .str s ∨ ∃ vs, v = .arr vs ∧ .str s ∈ vs := by
  have hsame (w : Json N) : w.same (.str s) = true ↔ w = .str s := by
    cases w <;> simp [same]
  cases v with
  | arr vs =>
    simp only [holds, Bool.or_eq_true, List.any_eq_true, hsame, reduceCtorEq, false_or, arr.injEq, exists_eq_left']
    simp
  | _ => simp [holds, hsame]

omit [DecidableEq N] in
theorem mem_filterFromDict {metadata : Dict Str (Json N)} {k s : Str} (h : metadata.get? k = some (.str s)) :
    ∃ must, qdrantFilterFromDict metadata.entries = some must ∧ ⟨"metadata.".toList ++ k, .str s⟩ ∈ must := by
  have hmem := Dict.get?_eq_some.mp h
  have hne : metadata.entries ≠ [] := List.ne_nil_of_mem hmem
  refine ⟨_, if_neg (by simpa using hne), List.mem_flatMap.mpr ⟨_, hmem, ?_⟩⟩
  rw [buildCondition]
  exact .head _

variable [Zero N] {q : Qdrant N} {search : Search N V S} {embedding : V} {k : Int} {threshold : Option S} {userId : Str}

omit [Zero N] in
/-- Where the metadata has a user as its source, only what that user may see is looked at. -/
theorem queryPoints_visible {metadata : Dict Str (Json N)} (h : metadata.get? source = some (.str userId))
    (points : List (PointStruct N V)) :
    queryPoints q search points embedding (qdrantFilterFromDict metadata.entries) k threshold =
      queryPoints q search (points.filter fun p => visible userId p.toPoint) embedding
        (qdrantFilterFromDict metadata.entries) k threshold := by
  obtain ⟨must, hmust, hsource⟩ := mem_filterFromDict h
  have hfilter : (points.filter fun p => visible userId p.toPoint).filter (fun p => must.all (q.met p.toPoint)) =
      points.filter fun p => must.all (q.met p.toPoint) := by
    rw [List.filter_filter]
    refine List.filter_congr fun p _ => ?_
    cases hall : must.all (q.met p.toPoint) with
    | false => rfl
    | true =>
      have hmet : q.met p.toPoint (sourceCondition userId) = true := List.all_eq_true.mp hall _ hsource
      rw [← met_source q, hmet]
      rfl
  simp only [hmust, queryPoints, hfilter]

theorem recall_visible {metadata : Dict Str (Json N)} (h : metadata.get? source = some (.str userId))
    (points : List (PointStruct N V)) :
    recallMemoriesFromEmbedding q search points embedding metadata k threshold =
      recallMemoriesFromEmbedding q search (points.filter fun p => visible userId p.toPoint) embedding metadata k
        threshold := by
  rw [recallMemoriesFromEmbedding, queryPoints_visible h, recallMemoriesFromEmbedding]

omit [Zero N] in
/-- A memory is made of a point that was looked at. -/
theorem mem_queryPoints {points : List (PointStruct N V)} {filter : Option (List (FieldCondition N))}
    {results : List (PointStruct N V × S)} (h : queryPoints q search points embedding filter k threshold = some results) :
    ∀ r ∈ results, r.1 ∈ points := by
  cases filter with
  | none => exact search.found h
  | some must =>
    rw [queryPoints] at h
    split at h
    · exact fun r hr => List.mem_of_mem_filter (search.found h r hr)
    · cases h

/-- A memory has the source that its point has. -/
theorem toMemory_source {p : PointStruct N V} {score : S} {m : Memory N V S} (h : toMemory (p, score) = some m)
    (hp : visible userId p.toPoint = true) :
    ∃ v, Dict.find source m.metadata = some v ∧ (v = .str userId ∨ ∃ vs, v = .arr vs ∧ .str userId ∈ vs) := by
  obtain ⟨es, hes, rfl⟩ := Option.map_eq_some_iff.mp h
  rw [visible] at hp
  cases hm : p.metadata with
  | obj es' =>
    simp only [hm, documentMetadata, Option.some.injEq] at hes
    subst hes
    rw [hm, field] at hp
    cases hf : Dict.find source es' with
    | none => simp [hf] at hp
    | some v =>
      refine ⟨v, rfl, holds_str.mp ?_⟩
      simpa [hf] using hp
  | _ => simp [hm, field] at hp

theorem mem_recalled {metadata : Dict Str (Json N)} (hsource : metadata.get? source = some (.str userId))
    {points : List (PointStruct N V)} {memories : List (Memory N V S)}
    (h : recallMemoriesFromEmbedding q search points embedding metadata k threshold = some memories) :
    ∀ m ∈ memories,
      ∃ v, Dict.find source m.metadata = some v ∧ (v = .str userId ∨ ∃ vs, v = .arr vs ∧ .str userId ∈ vs) := by
  rw [recall_visible hsource] at h
  obtain ⟨results, hresults, hmap⟩ := Option.bind_eq_some_iff.mp h
  intro m hm
  obtain ⟨r, hr, hrm⟩ := MapM.exists_of_mem hmap m hm
  have hmem := mem_queryPoints hresults r hr
  exact toMemory_source hrm (List.mem_filter.mp hmem).2

/-! ## The ways to recall -/

variable [OfScientific S] {vectors : Vectors N V}

omit [DecidableEq N] [Zero N] [OfScientific S] in
/-- What the loop or the comprehension makes of the first collection and of the others. -/
theorem mapM_recalled {f : Str → Option (List (Memory N V S))} (c : Str) (cs : List Str) :
    ((c :: cs).mapM fun c => (f c).map fun memories => (c, memories)) =
      match f c with
      | none => none
      | some memories => (cs.mapM fun c => (f c).map fun memories => (c, memories)).map fun recalled =>
          (c, memories) :: recalled := by
  rw [List.mapM_cons]
  cases f c with
  | none => rfl
  | some memories => exact (Option.map_eq_bind ..).symm

omit [OfScientific S] in
/-- The loop has dropped the source when it is through with the episodic collection. -/
theorem recallLoop_eq {embedding : V} {k : Int} {metadata : Dict Str (Json N)} : ∀ {cs : List Str}, episodic ∉ cs →
    ∀ {metadata' : Dict Str (Json N)}, metadata'.erase source = metadata.erase source →
      recallLoop q search vectors userId embedding k cs metadata' = cs.mapM fun c =>
        (recallMemoriesFromEmbedding q search (vectors c) embedding (metadataFor userId metadata c) k none).map
          fun memories => (c, memories)
  | [], _, _, _ => rfl
  | c :: cs, hc, metadata', hsame => by
    rw [List.mem_cons, not_or] at hc
    have hne : ¬c = episodic := Ne.symm hc.1
    rw [mapM_recalled, metadataFor, if_neg hne, ← hsame, recallLoop, if_neg hne]
    cases recallMemoriesFromEmbedding q search (vectors c) embedding (metadata'.erase source) k none with
    | none => rfl
    | some memories => exact congrArg (Option.map _) (recallLoop_eq hc.2 ((Dict.erase_erase ..).trans hsame))

/-- The configurations go to the collections by their places. -/
theorem zip_collectionNames {α : Type*} (f : Str → α) : [f episodic, f "declarative".toList, f "procedural".toList].zip
    collectionNames = collectionNames.map fun c => (f c, c) := rfl

/-- Each way recalls the collections one by one. -/
theorem recall_eq : ∀ r : Recall N V, recallMemories q search vectors userId r =
    collectionNames.mapM fun c => (recallOf q search vectors userId r c).map fun memories => (c, memories)
  | .get embedding k => by
    have hempty : (Dict.empty : Dict Str (Json N)).erase source = .empty := rfl
    rw [recallMemories, recallMemoryPointsFromText]
    refine congrArg (List.mapM · collectionNames) (funext fun c => ?_)
    simp only [recallOf, metadataFor, Recall.asked, hempty]
    rfl
  | .post embedding k metadata => by
    have hothers : episodic ∉ ["declarative".toList, "procedural".toList] := by decide +kernel
    have hepisodic : metadata.set source (.str userId) = metadataFor userId metadata episodic := (if_pos rfl).symm
    rw [recallMemories, recallMemoryPoints, collectionNames, mapM_recalled, recallLoop, if_pos rfl,
      recallLoop_eq hothers (Dict.erase_set ..), hepisodic]
    rfl
  | .turn embedding => by
    have hdeclarative : "declarative".toList ≠ episodic := by decide +kernel
    have hprocedural : "procedural".toList ≠ episodic := by decide +kernel
    have hempty : (Dict.empty : Dict Str (Json N)).erase source = .empty := rfl
    have hconfigs := zip_collectionNames fun c => (⟨embedding, 3, some 0.7, metadataFor userId .empty c⟩ : RecallConfig N V S)
    simp only [metadataFor, if_pos, if_neg hdeclarative, if_neg hprocedural, hempty] at hconfigs
    rw [recallMemories, recallRelevantMemoriesToWorkingMemory]
    simp only [beforeCatRecallsEpisodicMemories, beforeCatRecallsDeclarativeMemories, beforeCatRecallsProceduralMemories,
      hconfigs, List.mapM_map]
    rfl

omit [DecidableEq N] [Zero N] in
theorem get?_metadataFor (userId : Str) (asked : Dict Str (Json N)) :
    (metadataFor userId asked episodic).get? source = some (.str userId) := by
  rw [metadataFor, if_pos rfl, Dict.get?_set_self]

/-- What a user cannot see does not count. -/
theorem recall_congr {vectors' : Vectors N V} (hothers : ∀ c, c ≠ episodic → vectors' c = vectors c)
    (hvisible : ((vectors' episodic).filter fun p => visible userId p.toPoint) =
      (vectors episodic).filter fun p => visible userId p.toPoint) (r : Recall N V) :
    recallMemories q search vectors' userId r = recallMemories q search vectors userId r := by
  have hof (c : Str) : recallOf q search vectors' userId r c = recallOf q search vectors userId r c := by
    by_cases hc : c = episodic
    · subst hc
      rw [recallOf, recall_visible (get?_metadataFor userId r.asked), hvisible,
        ← recall_visible (get?_metadataFor userId r.asked), recallOf]
    · rw [recallOf, hothers c hc, recallOf]
  rw [recall_eq, recall_eq]
  simp only [hof]

/-- In each way to recall, the episodic memories have as their source the caller or an array that has it, and the
others are those of the metadata that the caller asks for without a source. Episodic points that have no such source
do not change the result. -/
theorem recall_ok (q : Qdrant N) (search : Search N V S) (vectors : Vectors N V) (userId : Str) (r : Recall N V) :
    (∀ recalled, recallMemories q search vectors userId r = some recalled → ∀ c ∈ recalled,
      if c.1 = episodic then
        ∀ m ∈ c.2, ∃ v, Dict.find source m.metadata = some v ∧ (v = .str userId ∨ ∃ vs, v = .arr vs ∧ .str userId ∈ vs)
      else
        recallMemoriesFromEmbedding q search (vectors c.1) r.query (r.asked.erase source) r.k r.threshold = some c.2) ∧
    ∀ vectors' : Vectors N V, (∀ c, c ≠ episodic → vectors' c = vectors c) →
      ((vectors' episodic).filter fun p => visible userId p.toPoint) =
        ((vectors episodic).filter fun p => visible userId p.toPoint) →
      recallMemories q search vectors' userId r = recallMemories q search vectors userId r := by
  refine ⟨fun recalled hr c hc => ?_, fun vectors' hothers hvisible => recall_congr hothers hvisible r⟩
  rw [recall_eq] at hr
  obtain ⟨name, -, hname⟩ := MapM.exists_of_mem hr c hc
  obtain ⟨memories, hmemories, rfl⟩ := Option.map_eq_some_iff.mp hname
  split
  · rename_i he
    obtain rfl : name = episodic := he
    exact mem_recalled (get?_metadataFor userId r.asked) hmemories
  · rename_i hne
    rw [recallOf, metadataFor, if_neg hne] at hmemories
    exact hmemories

/-- A search that returns the first points. -/
def firstPoints : Search Int Unit Rat where
  query _ limit _ points := some ((points.take limit.toNat).map fun p => (p, 1))
  found h r hr := by
    obtain rfl := Option.some.inj h
    obtain ⟨p, hp, rfl⟩ := List.mem_map.mp hr
    exact List.mem_of_mem_take hp

def pointOf (id : Str) (owner : Json Int) : PointStruct Int Unit := ⟨⟨id, "a note".toList, .obj [(source, owner)]⟩, ()⟩

def alice : Str := "alice".toList

def bob : Str := "bob".toList

/-- A point of each user, and one of both. -/
def sharedVectors : Vectors Int Unit := fun c =>
  if c = episodic then
    [pointOf "1".toList (.str alice), pointOf "2".toList (.str bob), pointOf "3".toList (.arr [.str alice, .str bob])]
  else []

theorem recall_for_alice :
    (∃ recalled, recallMemories pathQdrant firstPoints sharedVectors alice (.post () 10 (Dict.empty.set source (.str bob))) =
        some recalled ∧ ∀ c ∈ recalled,
      if c.1 = episodic then
        ∀ m ∈ c.2, ∃ v, Dict.find source m.metadata = some v ∧ (v = .str alice ∨ ∃ vs, v = .arr vs ∧ .str alice ∈ vs)
      else recallMemoriesFromEmbedding pathQdrant firstPoints (sharedVectors c.1) ()
        ((Dict.empty.set source (.str bob)).erase source) 10 none = some c.2) ∧
    recallMemories pathQdrant firstPoints
        (fun c => if c = episodic then (sharedVectors c).filter fun p => visible alice p.toPoint else sharedVectors c) alice
        (.post () 10 (Dict.empty.set source (.str bob))) =
      recallMemories pathQdrant firstPoints sharedVectors alice (.post () 10 (Dict.empty.set source (.str bob))) := by
  have hsome : (recallMemories pathQdrant firstPoints sharedVectors alice
      (.post () 10 (Dict.empty.set source (.str bob)))).isSome = true := by decide +kernel
  obtain ⟨recalled, hr⟩ := Option.isSome_iff_exists.mp hsome
  obtain ⟨hrecalled, hsame⟩ := recall_ok pathQdrant firstPoints sharedVectors alice
    (.post () 10 (Dict.empty.set source (.str bob)))
  refine ⟨⟨recalled, hr, hrecalled recalled hr⟩, hsame _ (fun c hc => if_neg hc) ?_⟩
  rw [if_pos rfl, List.filter_filter]
  simp only [Bool.and_self]

def isList : Option (Json ℤ) → Bool
  | some (.arr _) => true
  | _ => false

/-- A point of two users is recalled for one of them. -/
theorem shared_source_is_recalled :
    ∃ recalled, recallMemories pathQdrant firstPoints sharedVectors alice (.get () 10) = some recalled ∧
      ∃ c ∈ recalled, c.1 = episodic ∧ ∃ m ∈ c.2, Dict.find source m.metadata ≠ some (.str alice) := by
  have hsome : (recallMemories pathQdrant firstPoints sharedVectors alice (.get () 10)).any (fun recalled =>
      recalled.any fun c => c.1 == episodic && c.2.any fun m => isList (Dict.find source m.metadata)) = true := by
    decide +kernel
  obtain ⟨recalled, hr, hany⟩ := (Option.any_eq_true _ _).mp hsome
  obtain ⟨c, hc, hboth⟩ := List.any_eq_true.mp hany
  obtain ⟨hname, hany⟩ := Bool.and_eq_true_iff.mp hboth
  obtain ⟨m, hm, harr⟩ := List.any_eq_true.mp hany
  refine ⟨recalled, hr, c, hc, beq_iff_eq.mp hname, m, hm, fun hf => ?_⟩
  rw [hf] at harr
  cases harr

end KCore.VectorMemory
