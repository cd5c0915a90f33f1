import KCore.Lib.MapM
import KCore.Impl.RabbitHole
import KCore.Proof.VectorMemory.Points

/-!
# Memories that the agent can format

A turn fails where an episodic point that it recalls has no time that an age can be computed from, or a
declarative one no source (`recallAndFormat_isSome`). The writers do not all see to
that: `turns_ok_iff` says of each write when no later turn fails over its points.
-/

namespace KCore.RabbitHole

open Text VectorMemory MemoryPoints MainAgent

variable {N V : Type*} [Zero N] [One N] [DecidableEq N] {p : Platform N}

/-! ## The reader -/

/-- An age can be computed from the value at any time. -/
def Dated (p : Platform N) (when : Json N) : Prop := ∃ n, number when = some n ∧ ∀ now : p.Time, (p.timedelta now.val n).isSome

/-- What the reader needs of the payload of an episodic point. -/
def EpisodicOk (p : Platform N) (payload : Payload N) : Prop :=
  ∃ m, toDocument p payload = some m ∧ ∃ v, Dict.find when m.metadata = some v ∧ Dated p v

/-- What the reader needs of the payload of a declarative point. -/
def DeclarativeOk (p : Platform N) (payload : Payload N) : Prop :=
  ∃ m, toDocument p payload = some m ∧ ∃ v, Dict.find source m.metadata = some v

omit [DecidableEq N] in
theorem memoryTimestamp_isSome {m : Document N} : (∀ now : p.Time, (memoryTimestamp p now m).isSome) ↔
    ∃ v, Dict.find when m.metadata = some v ∧ Dated p v := by
  obtain ⟨t, ht⟩ := p.exists_time
  unfold memoryTimestamp Dated
  cases Dict.find when m.metadata with
  | none => simpa using ⟨⟨t, ht⟩⟩
  | some v =>
    simp only [Option.bind_some, Option.isSome_map, Option.some.injEq, exists_eq_left']
    cases number v with
    | none => simpa using ⟨⟨t, ht⟩⟩
    | some n => simp

omit [DecidableEq N] in
theorem agentPromptEpisodicMemories_isSome {memoryDocs : List (Document N)} :
    (∀ clock : ℕ → p.Time, (agentPromptEpisodicMemories p clock memoryDocs).isSome) ↔
      ∀ m ∈ memoryDocs, ∃ v, Dict.find when m.metadata = some v ∧ Dated p v := by
  simp only [agentPromptEpisodicMemories, Option.isSome_map, MapM.isSome_iff]
  constructor
  · intro h m hm
    refine memoryTimestamp_isSome.mp fun now => ?_
    obtain ⟨i, hi, rfl⟩ := List.mem_iff_getElem.mp hm
    exact h (fun _ => now) (_, i) (List.mk_mem_zipIdx_iff_getElem?.mpr (List.getElem?_eq_getElem hi))
  · intro h clock e he
    exact memoryTimestamp_isSome.mpr (h e.1 (List.fst_mem_of_mem_zipIdx he)) (clock e.2)

omit [Zero N] [One N] [DecidableEq N] in
theorem agentPromptDeclarativeMemories_isSome {memoryDocs : List (Document N)} :
    (agentPromptDeclarativeMemories p memoryDocs).isSome ↔ ∀ m ∈ memoryDocs, ∃ v, Dict.find source m.metadata = some v := by
  rw [agentPromptDeclarativeMemories, Option.isSome_map, MapM.isSome_iff]
  simp only [memorySource, Option.isSome_map, Option.isSome_iff_exists]

omit [DecidableEq N] in
theorem formatAgentInput_isSome (memory : WorkingMemory N) :
    (∀ clock : ℕ → p.Time, (formatAgentInput p clock memory).isSome) ↔
      (∀ m ∈ memory.episodicMemories, ∃ v, Dict.find when m.metadata = some v ∧ Dated p v) ∧
        ∀ m ∈ memory.declarativeMemories, ∃ v, Dict.find source m.metadata = some v := by
  obtain ⟨t, ht⟩ := p.exists_time
  rw [← agentPromptEpisodicMemories_isSome, ← agentPromptDeclarativeMemories_isSome (p := p)]
  have hboth (clock : ℕ → p.Time) : (formatAgentInput p clock memory).isSome ↔
      (agentPromptEpisodicMemories p clock memory.episodicMemories).isSome ∧
        (agentPromptDeclarativeMemories p memory.declarativeMemories).isSome := by
    unfold formatAgentInput
    cases agentPromptEpisodicMemories p clock memory.episodicMemories <;> simp
  simp only [hboth]
  exact ⟨fun h => ⟨fun clock => (h clock).1, (h fun _ => ⟨t, ht⟩).2⟩, fun h clock => ⟨h.1 clock, h.2⟩⟩

/-- A turn succeeds at any time just when each point that it recalls is one that the reader can use. -/
theorem recallAndFormat_isSome {episodic declarative : List (Payload N)} :
    (∀ (clock : ℕ → p.Time) (history : List ConversationMessage) (userText : Option Str),
      (recallAndFormat p clock episodic declarative history userText).isSome) ↔
      (∀ x ∈ episodic, EpisodicOk p x) ∧ ∀ x ∈ declarative, DeclarativeOk p x := by
  obtain ⟨t, ht⟩ := p.exists_time
  unfold EpisodicOk DeclarativeOk
  rw [← MapM.forall_iff, ← MapM.forall_iff]
  have hclock : Nonempty (ℕ → p.Time) := ⟨fun _ => ⟨t, ht⟩⟩
  unfold recallAndFormat
  cases episodic.mapM (toDocument p) with
  | none => simp
  | some ms =>
    cases declarative.mapM (toDocument p) with
    | none => simp
    | some ns =>
      simp only [Option.bind_some, Option.some.injEq, exists_eq_left']
      constructor
      · exact fun h => (formatAgentInput_isSome _).mp fun clock => h clock [] none
      · exact fun h clock history userText =>
          (formatAgentInput_isSome ⟨ms, ns, history, userText⟩).mpr h clock

/-! ## The writers -/

omit [One N] in
/-- A payload of an object. -/
theorem toDocument_obj (text : Str) {es : List (Str × Json N)} (hes : es ≠ []) :
    toDocument p ⟨.str text, .obj es⟩ = some ⟨text, es⟩ := by
  have htruthy : truthy (.obj es : Json N) = true := by
    cases es with
    | nil => exact absurd rfl hes
    | cons e es => rfl
  rw [toDocument, p.pageContent_str, htruthy, if_pos rfl, p.metadata_obj]
  rfl

omit [One N] in
theorem toDocument_dict (text : Str) {d : Dict Str (Json N)} {k : Str} {v : Json N} (hd : d.get? k = some v) :
    toDocument p ⟨.str text, .obj d.entries⟩ = some ⟨text, d.entries⟩ := by
  refine toDocument_obj text fun h => ?_
  rw [Dict.get?, h] at hd
  cases hd

omit [DecidableEq N] in
theorem dated_time (t : p.Time) : Dated p (.num t.val) :=
  ⟨t.val, rfl, fun now => p.timedelta_time now.property t.property⟩

theorem episodicOk_dict (text : Str) {d : Dict Str (Json N)} {v : Json N} (hd : d.get? when = some v) :
    EpisodicOk p ⟨.str text, .obj d.entries⟩ ↔ Dated p v := by
  unfold EpisodicOk
  rw [toDocument_dict text hd]
  simp only [Option.some.injEq, exists_eq_left']
  rw [show Dict.find when d.entries = some v from hd]
  simp

omit [One N] in
theorem declarativeOk_dict (text : Str) {d : Dict Str (Json N)} {v : Json N} (hd : d.get? source = some v) :
    DeclarativeOk p ⟨.str text, .obj d.entries⟩ :=
  ⟨_, toDocument_dict text hd, v, hd⟩

omit [One N] in
theorem get?_ensure_self (d : Dict Str (Json N)) (k : Str) (v : Json N) :
    (ensure d k v).get? k = some (if (d.get? k).any truthy then (d.get? k).getD v else v) := by
  unfold ensure
  split
  · rename_i h
    cases hk : d.get? k with
    | none => simp [hk] at h
    | some w => rfl
  · exact Dict.get?_set_self ..

omit [One N] in
theorem get?_ensure_of_ne (d : Dict Str (Json N)) {k k' : Str} (v : Json N) (h : k' ≠ k) :
    (ensure d k v).get? k' = d.get? k' := by
  unfold ensure
  split
  · rfl
  · exact Dict.get?_set_of_ne _ _ h

omit [One N] in
theorem get?_ensureMetadata_source (d : Dict Str (Json N)) (userId : Str) (now : N) :
    ∃ v, (ensureMetadata d userId now).get? source = some v := by
  have hne : source ≠ when := by decide
  exact ⟨_, (get?_ensure_of_ne _ _ hne).trans (get?_ensure_self ..)⟩

omit [One N] in
theorem get?_ensureMetadata_when (d : Dict Str (Json N)) (userId : Str) (now : N) :
    (ensureMetadata d userId now).get? when =
      some (if (d.get? when).any truthy then (d.get? when).getD (.num now) else .num now) := by
  have hne : when ≠ source := by decide
  rw [ensureMetadata, get?_ensure_self, get?_ensure_of_ne _ _ hne]

/-- The points of a write are ones that the reader can use. -/
def PointsOk (p : Platform N) (points : List (Written N)) : Prop :=
  (∀ x, ⟨episodic, x⟩ ∈ points → EpisodicOk p x) ∧ ∀ x, ⟨declarative, x⟩ ∈ points → DeclarativeOk p x

theorem pointsOk_nil : PointsOk p ([] : List (Written N)) := ⟨nofun, nofun⟩

/-- The time that the metadata brings, where there is one, is a time. -/
def BringsTime (p : Platform N) (metadata : Dict Str (Json N)) : Prop :=
  ∀ v ∈ metadata.get? when, truthy v = true → Dated p v

theorem pointsOk_ensureMetadata {collectionId : Str} (text : Str) (metadata : Dict Str (Json N)) (userId : Str)
    (now : p.Time) :
    PointsOk p [⟨collectionId, .str text, .obj (ensureMetadata metadata userId now.val).entries⟩] ↔
      (collectionId = episodic → BringsTime p metadata) := by
  obtain ⟨v, hsource⟩ := get?_ensureMetadata_source metadata userId now.val
  have hok : EpisodicOk p ⟨.str text, .obj (ensureMetadata metadata userId now.val).entries⟩ ↔ BringsTime p metadata := by
    rw [episodicOk_dict text (get?_ensureMetadata_when metadata userId now.val), BringsTime]
    cases metadata.get? when with
    | none => simpa using dated_time now
    | some w =>
      cases hw : truthy w with
      | false => simpa [hw] using dated_time now
      | true => simp [hw]
  rw [← hok]
  constructor
  · intro h hc
    exact h.1 _ (by rw [hc]; exact .head _)
  · intro h
    refine ⟨fun x hx => ?_, fun x hx => ?_⟩
    · obtain ⟨hc, rfl⟩ := Written.mk.inj (List.mem_singleton.mp hx)
      exact h hc.symm
    · obtain ⟨hc, rfl⟩ := Written.mk.inj (List.mem_singleton.mp hx)
      exact declarativeOk_dict text hsource

/-- What a `Document` takes, with a source. -/
def Sourced (p : Platform N) (r : Record N V) : Prop :=
  (∃ text, p.pageContent r.pageContent = some text) ∧ truthy r.metadata = true ∧
    ∃ es v, p.metadata r.metadata = some es ∧ Dict.find source es = some v

omit [One N] in
theorem declarativeOk_record {r : Record N V} : DeclarativeOk p ⟨r.pageContent, r.metadata⟩ ↔ Sourced p r := by
  unfold DeclarativeOk Sourced toDocument
  cases p.pageContent r.pageContent with
  | none => simp
  | some text =>
    cases htruthy : truthy r.metadata with
    | false => simp [p.metadata_obj, Dict.find]
    | true => cases hmetadata : p.metadata r.metadata <;> simp [hmetadata]

/-- The upload is not refused. -/
def Accepted (cat : Cat N V) (memories : MemoriesFile N V) : Prop :=
  memories.embedder = cat.embedder ∧ (∃ r ∈ memories.declarative, cat.dimension r.vector = cat.embedderSize) ∧
    cat.upserts memories.declarative = true

/-- The point is there. -/
def Exists (cat : Cat N V) (vectors : Vectors N V) (collectionId pointId : Str) : Prop :=
  ∃ id ∈ cat.client.readId pointId, getPoints (vectors collectionId) id ≠ []

/-- What a write must bring. -/
def Write.Sound (cat : Cat N V) : Write p V → Prop
  | .turn .. | .documents .. => True
  | .create _ collectionId point .. => collectionId = episodic → BringsTime p point.metadata
  | .edit vectors collectionId pointId point .. =>
    collectionId = episodic → Exists cat vectors collectionId pointId → BringsTime p point.metadata
  | .upload memories => Accepted cat memories → ∀ r ∈ memories.declarative, Sourced p r

theorem create_points {cat : Cat N V} {vectors : Vectors N V} {collectionId : Str} {point : MemoryPointBase N}
    {userId : Str} {now : p.Time} {newId : Str} :
    PointsOk p (Write.points cat (.create vectors collectionId point userId now newId)) ↔
      (collectionId = episodic → BringsTime p point.metadata) := by
  have hepisodic : episodic ≠ procedural ∧ episodic ∈ collectionNames := by decide
  simp only [Write.points, createMemoryPoint]
  split
  · rename_i h
    exact iff_of_true pointsOk_nil fun he => absurd (he.symm.trans h) hepisodic.1
  · split
    · rename_i h
      exact iff_of_true pointsOk_nil fun he => absurd (he ▸ hepisodic.2) h
    · exact pointsOk_ensureMetadata point.content point.metadata userId now

theorem edit_points {cat : Cat N V} {vectors : Vectors N V} {collectionId pointId : Str} {point : MemoryPointBase N}
    {userId : Str} {now : p.Time} :
    PointsOk p (Write.points cat (.edit vectors collectionId pointId point userId now)) ↔
      (collectionId = episodic → Exists cat vectors collectionId pointId → BringsTime p point.metadata) := by
  have hepisodic : episodic ≠ procedural ∧ episodic ∈ collectionNames := by decide
  simp only [Write.points, editMemoryPoint, Exists]
  split
  · rename_i h
    exact iff_of_true pointsOk_nil fun he => absurd (he.symm.trans h) hepisodic.1
  · split
    · rename_i h
      exact iff_of_true pointsOk_nil fun he => absurd (he ▸ hepisodic.2) h
    · cases cat.client.readId pointId with
      | none => exact iff_of_true pointsOk_nil fun _ ⟨_, hid, _⟩ => absurd hid nofun
      | some id =>
        simp only [Option.mem_def, Option.some.injEq, exists_eq_left', ← List.isEmpty_eq_false_iff]
        split
        · rename_i h
          exact iff_of_true pointsOk_nil fun _ hex => absurd h (by simp [hex])
        · rename_i h
          rw [Bool.not_eq_true] at h
          simp only [h, true_imp_iff]
          exact pointsOk_ensureMetadata point.content point.metadata userId now

theorem documents_points {cat : Cat N V} {docs : List (Str × Dict Str (Json N))} {name : Str} {clock : ℕ → p.Time}
    {metadata : Dict Str (Json N)} : PointsOk p (Write.points (V := V) cat (.documents docs name clock metadata)) := by
  have hok : ∀ x ∈ Write.points (V := V) cat (.documents docs name clock metadata),
      x.collection = declarative ∧ DeclarativeOk p x.payload := by
    intro x hx
    obtain ⟨⟨⟨text, d⟩, i⟩, -, hx⟩ := List.mem_filterMap.mp hx
    have hsource : source ∈ chunkMetadata d name (clock i).val metadata :=
      Dict.mem_merge_left (Dict.mem_set.mpr (.inr (Dict.mem_set.mpr (.inl rfl))))
    obtain ⟨v, hv⟩ := Dict.mem_iff_get?.mp hsource
    simp only at hx
    split at hx
    · obtain rfl := Option.some.inj hx
      exact ⟨rfl, declarativeOk_dict text hv⟩
    · cases hx
  have hne : episodic ≠ declarative := by decide
  exact ⟨fun x hx => absurd (hok _ hx).1 hne, fun x hx => (hok _ hx).2⟩

theorem upload_points {cat : Cat N V} {memories : MemoriesFile N V} :
    PointsOk p (Write.points cat (.upload memories : Write p V)) ↔
      (Accepted cat memories → ∀ r ∈ memories.declarative, Sourced p r) := by
  have hany : (memories.declarative.map fun v => decide (cat.dimension v.vector = cat.embedderSize)).any id = true ↔
      ∃ r ∈ memories.declarative, cat.dimension r.vector = cat.embedderSize := by
    simp
  unfold Accepted
  rw [← hany]
  simp only [Write.points, ingestMemory]
  split
  · rename_i h
    exact iff_of_true pointsOk_nil fun hacc => absurd hacc.1 h
  · split
    · rename_i h
      exact iff_of_true pointsOk_nil fun hacc => absurd hacc.2.1 (by simpa using h)
    · split
      · rename_i hname hsize hupserts
        have hacc : memories.embedder = cat.embedder ∧
            (memories.declarative.map fun v => decide (cat.dimension v.vector = cat.embedderSize)).any id = true ∧
              cat.upserts memories.declarative = true := ⟨not_not.mp hname, by simpa using hsize, hupserts⟩
        have hne : episodic ≠ declarative := by decide
        simp only [hacc, true_and, true_imp_iff, Option.getD_some]
        constructor
        · intro h r hr
          exact declarativeOk_record.mp (h.2 _ (List.mem_map.mpr ⟨r, hr, rfl⟩))
        · intro h
          refine ⟨fun x hx => ?_, fun x hx => ?_⟩
          · obtain ⟨r, -, he⟩ := List.mem_map.mp hx
            exact absurd (congrArg Written.collection he).symm hne
          · obtain ⟨r, hr, he⟩ := List.mem_map.mp hx
            obtain rfl := congrArg Written.payload he
            exact declarativeOk_record.mpr (h r hr)
      · rename_i h
        exact iff_of_true pointsOk_nil fun hacc => absurd hacc.2.2 h

theorem turn_points {cat : Cat N V} {userId : Str} {now : p.Time} {text : Option Str} :
    PointsOk p (Write.points (V := V) cat (.turn userId now text)) := by
  have hne : declarative ≠ episodic := by decide
  refine ⟨fun x hx => ?_, fun x hx => ?_⟩
  · obtain ⟨t, -, he⟩ := List.mem_map.mp hx
    obtain rfl := congrArg Written.payload he
    exact (episodicOk_dict t (Dict.get?_set_self ..)).mpr (dated_time now)
  · obtain ⟨t, -, he⟩ := List.mem_map.mp hx
    exact absurd (congrArg Written.collection he).symm hne

/-- The points of a write are fine just when the write brings what it must. -/
theorem pointsOk_iff {cat : Cat N V} (w : Write p V) : PointsOk p (w.points cat) ↔ w.Sound cat := by
  cases w with
  | turn userId now text => exact iff_of_true turn_points trivial
  | create vectors collectionId point userId now newId => exact create_points
  | edit vectors collectionId pointId point userId now => exact edit_points
  | documents docs name clock metadata => exact iff_of_true documents_points trivial
  | upload memories => exact upload_points

/-- After any writes, no turn that recalls any of their points fails, just when each write to the episodic collection
through the points API brings no time or one that an age can be computed from, and each accepted upload has a text,
an object and in it a source for every point. -/
theorem turns_ok_iff (p : Platform N) (cat : Cat N V) (writes : List (Write p V)) :
    (∀ episodicPoints declarativePoints : List (Payload N),
      (∀ x ∈ episodicPoints, ∃ w ∈ writes, ⟨episodic, x⟩ ∈ w.points cat) →
      (∀ x ∈ declarativePoints, ∃ w ∈ writes, ⟨declarative, x⟩ ∈ w.points cat) →
      ∀ (clock : ℕ → p.Time) (history : List ConversationMessage) (userText : Option Str),
        (recallAndFormat p clock episodicPoints declarativePoints history userText).isSome) ↔
    ∀ w ∈ writes, w.Sound cat := by
  constructor
  · intro h w hw
    refine (pointsOk_iff w).mp ⟨fun x hx => ?_, fun x hx => ?_⟩
    · have hx' : ∀ y ∈ [x], ∃ w ∈ writes, ⟨episodic, y⟩ ∈ w.points cat := fun y hy => ⟨w, hw, List.mem_singleton.mp hy ▸ hx⟩
      exact (recallAndFormat_isSome.mp (h [x] [] hx' nofun)).1 x (.head _)
    · have hx' : ∀ y ∈ [x], ∃ w ∈ writes, ⟨declarative, y⟩ ∈ w.points cat :=
        fun y hy => ⟨w, hw, List.mem_singleton.mp hy ▸ hx⟩
      exact (recallAndFormat_isSome.mp (h [] [x] nofun hx')).2 x (.head _)
  · intro h es ds hes hds
    refine recallAndFormat_isSome.mpr ⟨fun x hx => ?_, fun x hx => ?_⟩
    · obtain ⟨w, hw, hxw⟩ := hes x hx
      exact ((pointsOk_iff w).mpr (h w hw)).1 x hxw
    · obtain ⟨w, hw, hxw⟩ := hds x hx
      exact ((pointsOk_iff w).mpr (h w hw)).2 x hxw

/-! ## Points that fail every turn -/

/-- Ages in whole seconds; a `Document` of a text and an object. -/
def plainPlatform : Platform Int where
  isTime _ := True
  exists_time := ⟨0, trivial⟩
  timedelta now t := some ⟨(now - t) / 86400, ((now - t) % 86400).toNat⟩
  timedelta_time _ _ := rfl
  str _ := []
  pageContent
    | .str s => some s
    | _ => none
  metadata
    | .obj es => some es
    | _ => none
  pageContent_str _ := rfl
  metadata_obj _ := rfl

def plainCat : Cat Int Unit := ⟨anyClient, "FakeEmbedder".toList, 1, fun _ => 1, fun _ => true⟩

/-- A request for a point that says when in words. -/
def postYesterday : Write plainPlatform Unit :=
  .create (fun _ => []) episodic ⟨"I moved".toList, Dict.empty.set when (.str "yesterday".toList)⟩ "ada".toList
    ⟨0, trivial⟩ "1".toList

/-- An upload of a point without metadata. -/
def uploadBare : Write plainPlatform Unit :=
  .upload ⟨"FakeEmbedder".toList, [⟨.str "2".toList, .str "A note".toList, .obj [], ()⟩]⟩

/-- Both points are stored, and every turn that recalls one of them fails. -/
theorem points_fail_every_turn :
    (∃ x, ⟨episodic, x⟩ ∈ postYesterday.points plainCat ∧
      ∀ clock history userText, recallAndFormat plainPlatform clock [x] [] history userText = none) ∧
    ∃ x, ⟨declarative, x⟩ ∈ uploadBare.points plainCat ∧
      ∀ clock history userText, recallAndFormat plainPlatform clock [] [x] history userText = none :=
  ⟨⟨_, .head _, fun _ _ _ => rfl⟩, ⟨_, .head _, fun _ _ _ => rfl⟩⟩

end KCore.RabbitHole
