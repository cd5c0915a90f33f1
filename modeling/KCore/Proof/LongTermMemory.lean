import KCore.Impl.LongTermMemory
import KCore.Proof.CheshireCat
import KCore.Proof.VectorMemory.Collections

/-!
# What a reload of the memory keeps

A load makes anew the collections that are not there for its embedder, and leaves the others as they are, wherever it
raises. `Held` compares the database with the one before a reload: a collection that was there for the embedder, and
that the reload does not delete, is the same (`reload_spec`). The procedural collection is apart: `embed_procedures`
brings it in line with the active triggers where it returns (`embedProcedures_spec`).
-/

namespace KCore.LongTermMemory

open Text Faulty VectorMemory

variable {M : Type} {base : Db M} {pair : Pair} {may : Str → Prop} {gone done : List Str} {name : Str}

/-! ## The database -/

/-- The collection is there for the embedder. -/
def Labelled (pair : Pair) (name : Str) (db : Db M) : Prop :=
  ∃ c, db.get? name = some c ∧ c.size = pair.size ∧ c.aliases.head? = some (aliasName pair.name name)

/-- The points of a collection, if it is there. -/
def memories (db : Db M) (name : Str) : List (MemoryPoint M) := (db.get? name).elim [] Collection.points

/-- The points of procedures, of which one scroll returns all. -/
def Procedures (points : List (MemoryPoint M)) : Prop :=
  ∃ ps, points = ps.map .procedure ∧ CheshireCat.Synced ps

/-- A collection of the memory, with at most the alias of one embedder. -/
def Aliased (name : Str) (c : Collection (MemoryPoint M)) : Prop :=
  name ∈ collectionNames ∧ (c.aliases = [] ∨ ∃ n, c.aliases = [aliasName n name])

/-- What each step keeps of the aliases, and of the procedural collection. -/
structure Tidy (db : Db M) : Prop where
  aliases : ∀ name c, db.get? name = some c → Aliased name c
  procedures : Procedures (memories db procedural)

/-- The collection is as it was before, or may be made anew, and has no points. -/
def Remains (base : Db M) (may : Str → Prop) (name : Str) (db : Db M) : Prop :=
  db.get? name = base.get? name ∨ may name ∧ memories db name = []

/-- What is known in a reload, apart from the procedural collection: what remains, those that are gone since, and those
that a load is through with. -/
structure Held (base : Db M) (pair : Pair) (may : Str → Prop) (gone done : List Str) (db : Db M) : Prop
    extends Tidy db where
  remains : ∀ name, name ≠ procedural → Remains base may name db
  emptied : ∀ name ∈ gone, name ≠ procedural → memories db name = []
  ready : ∀ name ∈ done, Labelled pair name db

/-- A reload raised. -/
abbrev Failed (base : Db M) (pair : Pair) (may : Str → Prop) : Db M → Prop := Held base pair may [] []

theorem Held.failed {db : Db M} (h : Held base pair may gone done db) : Failed base pair may db :=
  ⟨h.toTidy, h.remains, by simp, by simp⟩

theorem memories_of_get? {db db' : Db M} (h : db'.get? name = db.get? name) : memories db' name = memories db name := by
  rw [memories, memories, h]

theorem Remains.congr {db db' : Db M} (h : Remains base may name db) (hget : db'.get? name = db.get? name) :
    Remains base may name db' :=
  h.imp hget.trans fun ⟨hmay, hempty⟩ => ⟨hmay, (memories_of_get? hget).trans hempty⟩

theorem Labelled.congr {db db' : Db M} (h : Labelled pair name db) (hget : db'.get? name = db.get? name) :
    Labelled pair name db' := h.imp fun _ hc => ⟨hget.trans hc.1, hc.2⟩

theorem procedures_nil : Procedures ([] : List (MemoryPoint M)) := ⟨[], rfl, CheshireCat.synced_nil⟩

/-- One collection is changed: what is to be shown of it. -/
theorem Held.update {done' gone' : List Str} {db db' : Db M} (h : Held base pair may gone done db)
    (hothers : ∀ other, other ≠ name → db'.get? other = db.get? other)
    (haliases : ∀ c, db'.get? name = some c → Aliased name c)
    (hprocedures : name = procedural → Procedures (memories db' name))
    (hremains : name ≠ procedural → Remains base may name db')
    (hgone : ∀ other ∈ gone', other ≠ name → other ∈ gone)
    (hemptied : name ∈ gone' → name ≠ procedural → memories db' name = [])
    (hdone : ∀ other ∈ done', other ≠ name → other ∈ done) (hready : name ∈ done' → Labelled pair name db') :
    Held base pair may gone' done' db' := by
  refine ⟨⟨fun other c hc => ?_, ?_⟩, fun other ho => ?_, fun other ho hne => ?_, fun other ho => ?_⟩
  · by_cases hname : other = name
    · subst hname
      exact haliases c hc
    · exact h.aliases other c (hothers other hname ▸ hc)
  · by_cases hname : procedural = name
    · subst hname
      exact hprocedures rfl
    · rw [memories_of_get? (hothers _ hname)]
      exact h.procedures
  · by_cases hname : other = name
    · subst hname
      exact hremains ho
    · exact (h.remains other ho).congr (hothers other hname)
  · by_cases hname : other = name
    · subst hname
      exact hemptied ho hne
    · rw [memories_of_get? (hothers other hname)]
      exact h.emptied other (hgone other ho hname) hne
  · by_cases hname : other = name
    · subst hname
      exact hready ho
    · exact (h.ready other (hdone other ho hname)).congr (hothers other hname)

/-! ## A load -/

/-- What is not there for the embedder may be made anew. -/
def Relabels (base : Db M) (pair : Pair) (may : Str → Prop) : Prop := ∀ name, ¬Labelled pair name base → may name

/-- The procedural collection, or one that may be made anew. -/
def MayWipe (may : Str → Prop) (name : Str) : Prop := name = procedural ∨ may name

theorem MayWipe.remains {db : Db M} (h : MayWipe may name) (hempty : memories db name = []) (hne : name ≠ procedural) :
    Remains base may name db := .inr ⟨h.resolve_left hne, hempty⟩

theorem Held.mayWipe {db : Db M} (hmay : Relabels base pair may) (h : Held base pair may gone done db)
    (hnot : ¬Labelled pair name db) : MayWipe may name := by
  by_cases hname : name = procedural
  · exact .inl hname
  · rcases h.remains name hname with hsame | ⟨hnew, -⟩
    · exact .inr (hmay name fun hbase => hnot (hbase.congr hsame))
    · exact .inr hnew

/-- A collection without points takes the place of one that may be made anew. -/
theorem Held.emptyUpdate {done' gone' : List Str} {db db' : Db M} (h : Held base pair may gone done db)
    (hmay : MayWipe may name) (hothers : ∀ other, other ≠ name → db'.get? other = db.get? other)
    (haliases : ∀ c, db'.get? name = some c → Aliased name c)
    (hempty : memories db' name = []) (hgone : ∀ other ∈ gone', other ≠ name → other ∈ gone)
    (hdone : ∀ other ∈ done', other ≠ name → other ∈ done) (hready : name ∈ done' → Labelled pair name db') :
    Held base pair may gone' done' db' :=
  h.update hothers haliases (fun _ => hempty ▸ procedures_nil) (hmay.remains hempty) hgone (fun _ _ => hempty) hdone
    hready

theorem Held.erase {db : Db M} (h : Held base pair may gone done db) (hmay : MayWipe may name) (hdone : name ∉ done) :
    Held base pair may (name :: gone) done (db.erase name) ∧ (db.erase name).get? name = none := by
  have hnone : (db.erase name).get? name = none := by rw [Dict.get?_erase, if_pos rfl]
  refine ⟨h.emptyUpdate hmay (fun other ho => ?_) (fun c hc => ?_) ?_ (fun other ho hne => ?_) (fun other ho _ => ho)
    (fun ho => absurd ho hdone), hnone⟩
  · rw [Dict.get?_erase, if_neg ho]
  · rw [hnone] at hc
    cases hc
  · rw [memories, hnone]
    rfl
  · exact (List.mem_cons.mp ho).resolve_left hne

theorem deleteCollection_spec (hdone : name ∉ done) : Triple true
    (fun db => Held base pair may gone done db ∧ MayWipe may name) (Client.deleteCollection name)
    (fun _ db => Held base pair may (name :: gone) done db ∧ db.get? name = none) (Failed base pair may) :=
  Triple.call fun _ ⟨h, hmay⟩ => ⟨h.erase hmay hdone, fun _ => ⟨h.failed, (h.erase hmay hdone).1.failed⟩⟩

theorem Held.less {db : Db M} (h : Held base pair may (name :: gone) done db) : Held base pair may gone done db :=
  ⟨h.toTidy, h.remains, fun other ho => h.emptied other (.tail _ ho), h.ready⟩

/-- The collection was just made. -/
abbrev New (base : Db M) (pair : Pair) (may : Str → Prop) (gone done : List Str) (name : Str) (db : Db M) : Prop :=
  Held base pair may gone done db ∧ MayWipe may name ∧ db.get? name = some ⟨pair.size, [], []⟩

theorem clientCreateCollection_spec (hmay : Relabels base pair may) (hname : name ∈ collectionNames)
    (hdone : name ∉ done) : Triple true
    (fun db => Held base pair may gone done db ∧ db.get? name = none) (Client.createCollection name pair.size)
    (fun _ => New base pair may gone done name)
    (fun db => Failed base pair may db ∧ MayWipe may name) := by
  refine Triple.call fun db ⟨h, hnone⟩ => ?_
  have hmay : MayWipe may name := h.mayWipe hmay fun ⟨c, hc, _⟩ => by
    rw [hnone] at hc
    cases hc
  have hget : (db.set name ⟨pair.size, [], []⟩).get? name = some ⟨pair.size, [], []⟩ := Dict.get?_set_self ..
  have hnew : Held base pair may gone done (db.set name ⟨pair.size, [], []⟩) := by
    refine h.emptyUpdate hmay (fun other ho => Dict.get?_set_of_ne _ _ ho) (fun c hc => ?_) ?_ (fun other ho _ => ho)
      (fun other ho _ => ho) (fun ho => absurd ho hdone)
    · obtain rfl := Option.some.inj (hget.symm.trans hc)
      exact ⟨hname, .inl rfl⟩
    · rw [memories, hget]
      rfl
  rw [if_neg (Dict.get?_eq_none.mp hnone)]
  exact ⟨⟨hnew, hmay, hget⟩, fun _ => ⟨⟨h.failed, hmay⟩, hnew.failed, hmay⟩⟩

/-- No other collection has the new alias. -/
theorem Tidy.get?_withoutAlias {db : Db M} {n other : Str} (h : Tidy db) (hname : name ∈ collectionNames)
    (hne : other ≠ name) : (Client.withoutAlias (aliasName n name) db).get? other = db.get? other := by
  rw [Client.withoutAlias, Dict.get?_mapValues]
  cases hc : db.get? other with
  | none => rfl
  | some c =>
    obtain ⟨ho, haliases⟩ := h.aliases other c hc
    have hnotin : aliasName n name ∉ c.aliases := by
      rcases haliases with hnil | ⟨m, halias⟩
      · rw [hnil]
        exact List.not_mem_nil
      · rw [halias, List.mem_singleton]
        exact fun he => hne (aliasName_inj hname ho he).2.symm
    rw [Option.map_some, List.erase_of_not_mem hnotin]

theorem createAlias_spec (hname : name ∈ collectionNames) : Triple true
    (New base pair may gone done name) (Client.createAlias name (aliasName pair.name name))
    (fun _ => Held base pair may gone (name :: done))
    (fun db => Failed base pair may db ∧ MayWipe may name) := by
  refine Triple.call fun db ⟨h, hmay, hnew⟩ => ?_
  have hget : (Client.withoutAlias (aliasName pair.name name) db).get? name = some ⟨pair.size, [], []⟩ := by
    rw [Client.withoutAlias, Dict.get?_mapValues, hnew]
    rfl
  rw [hget]
  have hset : ((Client.withoutAlias (aliasName pair.name name) db).set name
      ⟨pair.size, [] ++ [aliasName pair.name name], []⟩).get? name = some ⟨pair.size, [aliasName pair.name name], []⟩ :=
    Dict.get?_set_self ..
  have hheld : Held base pair may gone (name :: done) ((Client.withoutAlias (aliasName pair.name name) db).set name
      ⟨pair.size, [] ++ [aliasName pair.name name], []⟩) := by
    refine h.emptyUpdate hmay (fun other ho => ?_) (fun c hc => ?_) ?_ (fun other ho _ => ho)
      (fun other ho hne => (List.mem_cons.mp ho).resolve_left hne) (fun _ => ⟨_, hset, rfl, rfl⟩)
    · rw [Dict.get?_set_of_ne _ _ ho, h.get?_withoutAlias hname ho]
    · obtain rfl := Option.some.inj (hset.symm.trans hc)
      exact ⟨hname, .inr ⟨pair.name, rfl⟩⟩
    · rw [memories, hset]
      rfl
  exact ⟨hheld, fun _ => ⟨⟨h.failed, hmay⟩, hheld.failed, hmay⟩⟩

theorem cleanup_spec : Triple true (fun db : Db M => Failed base pair may db ∧ MayWipe may name)
    (Client.deleteCollection name) (fun _ => Failed base pair may) (Failed base pair may) :=
  Triple.call fun _ ⟨h, hmay⟩ =>
    ⟨(h.erase hmay List.not_mem_nil).1.failed, fun _ => ⟨h, (h.erase hmay List.not_mem_nil).1.failed⟩⟩

/-- The collection is there. -/
abbrev Present (base : Db M) (pair : Pair) (may : Str → Prop) (gone done : List Str) (name : Str)
    (c : Collection (MemoryPoint M)) (db : Db M) : Prop := Held base pair may gone done db ∧ db.get? name = some c

theorem saveDump_spec {env : Env} {c : Collection (MemoryPoint M)} : Triple true
    (Present base pair may gone done name c) (saveDump env name)
    (fun _ => Present base pair may gone done name c) (Failed base pair may) := by
  have hother : Triple true (Present base pair may gone done name c) Client.other
      (fun _ => Present base pair may gone done name c) (Failed base pair may) :=
    Triple.read fun db h => ⟨h, fun _ => h.1.failed⟩
  refine Triple.ite (fun _ => ?_) fun _ => Triple.skip
  refine hother.bind fun _ => ?_
  refine Triple.bind (Q := fun _ => Present base pair may gone done name c) ?_ fun aliases => ?_
  · refine Triple.read fun db h => ?_
    rw [h.2]
    exact ⟨h, fun _ => h.1.failed⟩
  refine Triple.bind (Q := fun _ => Present base pair may gone done name c) ?_ fun _ => hother
  refine Triple.ite (fun _ => ?_) fun _ => hother
  exact Triple.raise.mono (fun _ h => h.1.failed) (fun _ _ h => h) fun _ h => h

section

variable (hmay : Relabels base pair may) (hname : name ∈ collectionNames) (hdone : name ∉ done)

include hmay hname hdone

theorem createCollection_spec : Triple true
    (fun db => Held base pair may gone done db ∧ db.get? name = none) (createCollection name pair.name pair.size)
    (fun _ => Held base pair may gone (name :: done)) (Failed base pair may) :=
  ((clientCreateCollection_spec hmay hname hdone).onRaise cleanup_spec).bind fun _ =>
    (createAlias_spec hname).onRaise cleanup_spec

theorem createDbCollectionIfNotExists_spec : Triple true
    (Held base pair may gone done) (createDbCollectionIfNotExists name pair.name pair.size)
    (fun _ db => ∃ c, Present base pair may gone done name c db) (Failed base pair may) := by
  refine Triple.bind (Q := fun names db => Held base pair may gone done db ∧ names = db.keys) ?_ fun names => ?_
  · exact Triple.read fun db h => ⟨⟨h, rfl⟩, fun _ => h.failed⟩
  · refine Triple.ite (fun hin => ?_) fun hin => ?_
    · refine (Triple.pure ()).mono (fun db h => ?_) (fun _ _ h => h) fun _ h => h
      obtain ⟨h, rfl⟩ := h
      exact (Dict.mem_iff_get?.mp hin).imp fun c hc => ⟨h, hc⟩
    · refine (createCollection_spec hmay hname hdone).mono (fun db h => ⟨h.1, ?_⟩) (fun _ db h => ?_) fun _ h => h
      · rw [h.2] at hin
        exact Dict.get?_eq_none.mpr hin
      · obtain ⟨c, hc, -⟩ := h.ready name (.head _)
        exact ⟨c, ⟨h.toTidy, h.remains, h.emptied, fun other ho => h.ready other (.tail _ ho)⟩, hc⟩

theorem checkEmbeddingSize_spec {env : Env} : Triple true
    (fun db => ∃ c, Present base pair may gone done name c db) (checkEmbeddingSize env name pair.name pair.size)
    (fun _ => Held base pair may gone (name :: done)) (Failed base pair may) := by
  refine Triple.bind (Q := fun c => Present base pair may gone done name c) ?_ fun c => ?_
  · refine Triple.read fun db h => ?_
    obtain ⟨c, h⟩ := h
    rw [h.2]
    exact ⟨h, fun _ => h.1.failed⟩
  refine Triple.bind (Q := fun aliases db => Present base pair may gone done name c db ∧ aliases = c.aliases) ?_
    fun aliases => ?_
  · refine Triple.read fun db h => ?_
    rw [h.2]
    exact ⟨⟨h, rfl⟩, fun _ => h.1.failed⟩
  refine Triple.ite (fun hsame => ?_) fun hnot => ?_
  · refine (Triple.pure ()).mono (fun db h => ?_) (fun _ _ h => h) fun _ h => h
    obtain ⟨⟨h, hc⟩, rfl⟩ := h
    exact ⟨h.toTidy, h.remains, h.emptied, List.forall_mem_cons.mpr ⟨⟨c, hc, hsame.2, hsame.1⟩, h.ready⟩⟩
  · have hwipe : ∀ db, Present base pair may gone done name c db ∧ aliases = c.aliases →
        MayWipe may name := by
      rintro db ⟨⟨h, hc⟩, rfl⟩
      refine h.mayWipe hmay fun ⟨c', hc', hsize, halias⟩ => ?_
      obtain rfl := Option.some.inj (hc.symm.trans hc')
      exact hnot ⟨halias, hsize⟩
    refine Triple.bind (Q := fun _ db => Held base pair may gone done db ∧ MayWipe may name) ?_ fun _ => ?_
    · refine Triple.ite (fun _ => ?_) fun _ => ?_
      · refine Triple.keep hwipe fun h => ?_
        exact saveDump_spec.mono (fun _ h => h.1) (fun _ _ h' => ⟨h'.1, h⟩) fun _ h => h
      · exact (Triple.pure ()).mono (fun db h => ⟨h.1.1, hwipe db h⟩) (fun _ _ h => h) fun _ h => h
    · exact (deleteCollection_spec hdone).bind fun _ => (createCollection_spec hmay hname hdone).mono
        (fun _ h => ⟨h.1.less, h.2⟩) (fun _ _ h => h) fun _ h => h

theorem newCollection_spec {env : Env} : Triple true
    (Held base pair may gone done) (newCollection env name pair.name pair.size)
    (fun _ => Held base pair may gone (name :: done)) (Failed base pair may) := by
  refine (createDbCollectionIfNotExists_spec hmay hname hdone).bind fun _ => ?_
  refine (checkEmbeddingSize_spec hmay hname hdone).bind fun _ => ?_
  refine Triple.bind (Q := fun _ => Held base pair may gone (name :: done)) ?_ fun _ => Triple.skip
  refine Triple.read fun db h => ?_
  obtain ⟨c, hc, -⟩ := h.ready name (.head _)
  rw [hc]
  exact ⟨h, fun _ => h.failed⟩

end

theorem newCollections_spec (hmay : Relabels base pair may) (env : Env) {names : List Str}
    (hnames : ∀ name ∈ names, name ∈ collectionNames)
    (hnodup : names.Nodup) (hdone : ∀ name ∈ names, name ∉ done) : Triple true (Held base pair may gone done)
    (newCollections env pair.name pair.size names) (fun _ => Held base pair may gone (names.reverse ++ done))
    (Failed base pair may) := by
  induction names generalizing done with
  | nil => exact Triple.skip
  | cons name names ih =>
    obtain ⟨hfirst, hrest⟩ := List.nodup_cons.mp hnodup
    refine (newCollection_spec hmay (hnames name (.head _)) (hdone name (.head _))).bind fun _ => ?_
    have hlater : ∀ other ∈ names, other ∉ name :: done := fun other ho hin =>
      (List.mem_cons.mp hin).elim (fun he => hfirst (he ▸ ho)) (hdone other (.tail _ ho))
    rw [List.reverse_cons, List.append_assoc, List.singleton_append]
    exact ih (fun other ho => hnames other (.tail _ ho)) hrest hlater

theorem loadMemory_spec (hmay : Relabels base pair may) (env : Env) :
    Triple true (Held base pair may gone []) (loadMemory env pair)
      (fun _ => Held base pair may gone collectionNames) (Failed base pair may) := by
  refine Triple.bind (Q := fun _ => Held base pair may gone []) ?_ fun _ => ?_
  · exact Triple.read fun db h => ⟨h, fun _ => h.failed⟩
  · refine (newCollections_spec hmay env (fun _ h => h) (by decide) fun _ _ => List.not_mem_nil).mono (fun _ h => h)
      (fun _ db h => ?_) fun _ h => h
    exact ⟨h.toTidy, h.remains, h.emptied, fun name hname => h.ready name (by simpa using hname)⟩

theorem deleteCollections_spec {names : List Str} (hnames : ∀ name ∈ names, may name) : Triple true
    (Held base pair may gone []) (deleteCollections names) (fun _ => Held base pair may (names.reverse ++ gone) [])
    (Failed base pair may) := by
  induction names generalizing gone with
  | nil => exact Triple.skip
  | cons name names ih =>
    refine Triple.bind (Q := fun _ => Held base pair may (name :: gone) []) ?_ fun _ => ?_
    · exact (deleteCollection_spec List.not_mem_nil).mono (fun _ h => ⟨h, .inr (hnames name (.head _))⟩)
        (fun _ _ h => h.1) fun _ h => h
    · rw [List.reverse_cons, List.append_assoc, List.singleton_append]
      exact ih fun other ho => hnames other (.tail _ ho)

/-! ## Procedures -/

/-- The procedural collection holds these procedures. -/
abbrev Embedded (base : Db M) (pair : Pair) (may : Str → Prop) (gone done : List Str) (ps : List CheshireCat.Point)
    (db : Db M) : Prop := Held base pair may gone done db ∧ memories db procedural = ps.map .procedure

/-- The procedural collection bears the hashes of the active triggers, each once. -/
def Aligned (procedures : List CheshireCat.Procedure) (db : Db M) : Prop :=
  ∃ ps : List CheshireCat.Point, memories db procedural = ps.map .procedure ∧ (ps.map CheshireCat.Point.hash).Nodup ∧
    ∀ h, h ∈ ps.map CheshireCat.Point.hash ↔ h ∈ CheshireCat.buildActiveProceduresHashes procedures

theorem memories_set (db : Db M) (name : Str) (c : Collection (MemoryPoint M)) :
    memories (db.set name c) name = c.points := by
  rw [memories, Dict.get?_set_self]
  rfl

/-- The points of the procedural collection are changed. -/
theorem Held.setProcedures {db : Db M} {c : Collection (MemoryPoint M)} {points : List (MemoryPoint M)}
    (h : Held base pair may gone done db) (hc : db.get? procedural = some c) (hpoints : Procedures points) :
    Held base pair may gone done (db.set procedural { c with points := points }) := by
  refine h.update (fun other ho => Dict.get?_set_of_ne _ _ ho) (fun c' hc' => ?_) (fun _ => ?_)
    (fun hne => absurd rfl hne) (fun other ho _ => ho) (fun _ hne => absurd rfl hne) (fun other ho _ => ho) fun ho => ?_
  · rw [Dict.get?_set_self] at hc'
    obtain rfl := Option.some.inj hc'
    exact h.aliases procedural c hc
  · rw [memories_set]
    exact hpoints
  · obtain ⟨c', hc', hready⟩ := h.ready procedural ho
    obtain rfl := Option.some.inj (hc.symm.trans hc')
    exact ⟨_, Dict.get?_set_self .., hready⟩

theorem modify_spec {ps ps' : List CheshireCat.Point} {f : Collection (MemoryPoint M) → Option (List (MemoryPoint M))}
    (hf : ∀ c, c.points = ps.map .procedure → ∀ points ∈ f c, points = ps'.map .procedure)
    (hs : CheshireCat.Synced ps') :
    Triple true (Embedded base pair may gone done ps) (modify procedural f)
      (fun _ => Embedded base pair may gone done ps') (Failed base pair may) := by
  refine Triple.call fun db ⟨h, hps⟩ => ?_
  cases hc : db.get? procedural with
  | none => exact h.failed
  | some c =>
    rw [memories, hc] at hps
    rw [Option.bind_some]
    cases hfc : f c with
    | none => exact h.failed
    | some points =>
      obtain rfl := hf c hps points hfc
      have hset := h.setProcedures hc ⟨ps', rfl, hs⟩
      exact ⟨⟨hset, memories_set ..⟩, fun _ => ⟨h.failed, hset.failed⟩⟩

theorem synced_of_sublist {ps ps' : List CheshireCat.Point} (h : CheshireCat.Synced ps) (hsub : ps'.Sublist ps) :
    CheshireCat.Synced ps' :=
  ⟨h.hashes.sublist (hsub.map _), h.ids.sublist (hsub.map _), hsub.length_le.trans h.small⟩

theorem prefix_foldl_addPoint (newId : List Str → Str) (ts : List CheshireCat.Trigger) (ps : List CheshireCat.Point) :
    ps <+: ts.foldl (CheshireCat.addPoint newId) ps := by
  induction ts generalizing ps with
  | nil => exact List.prefix_rfl
  | cons t ts ih => exact (List.prefix_append ..).trans (ih (CheshireCat.addPoint newId ps t))

theorem other_spec {ps : List CheshireCat.Point} : Triple true (Embedded base pair may gone done ps) Client.other
    (fun _ => Embedded base pair may gone done ps) (Failed base pair may) :=
  Triple.read fun _ h => ⟨h, fun _ => h.1.failed⟩

theorem embedTriggers_spec (size : ℕ) (newId : List Str → Str) (ts : List CheshireCat.Trigger)
    {ps : List CheshireCat.Point} (hs : CheshireCat.Synced (ts.foldl (CheshireCat.addPoint newId) ps)) :
    Triple true (Embedded base pair may gone done ps) (embedTriggers size newId ts)
      (fun _ => Embedded base pair may gone done (ts.foldl (CheshireCat.addPoint newId) ps))
      (Failed base pair may) := by
  induction ts generalizing ps with
  | nil => exact Triple.skip
  | cons t ts ih =>
    refine other_spec.bind fun _ => ?_
    refine Triple.bind (Q := fun _ => Embedded base pair may gone done (CheshireCat.addPoint newId ps t)) ?_
      fun _ => ih hs
    refine modify_spec (fun c hc points hpoints => ?_) (synced_of_sublist hs (prefix_foldl_addPoint newId ts _).sublist)
    split at hpoints
    · obtain rfl := Option.some.inj hpoints
      rw [hc, CheshireCat.addPoint, List.map_append, triggerPoint, List.map_map]
      rfl
    · cases hpoints

theorem mapM_procedure (ps : List CheshireCat.Point) :
    (ps.map (@MemoryPoint.procedure M)).mapM MemoryPoint.procedure? = some ps := by
  induction ps with
  | nil => rfl
  | cons p ps ih =>
    rw [List.map_cons, List.mapM_cons, ih]
    rfl

theorem embedProcedures_spec (size : ℕ) (c : CheshireCat.Call)
    (hsmall : (CheshireCat.triggers c.procedures).length ≤ 10000) :
    Triple true (Held base pair may gone done) (embedProcedures size c)
      (fun _ db => Held base pair may gone done db ∧ Aligned c.procedures db) (Failed base pair may) := by
  refine Triple.bind (Q := fun embedded db => ∃ ps, Embedded base pair may gone done ps db ∧
    embedded = ps.map .procedure ∧ CheshireCat.Synced ps) ?_ fun embedded => Triple.exists fun ps => ?_
  · refine Triple.read fun db h => ?_
    obtain ⟨ps, hps, hs⟩ := h.procedures
    cases hc : db.get? procedural with
    | none => exact h.failed
    | some col =>
      have hcol : col.points = ps.map .procedure := by rw [← hps, memories, hc, Option.elim_some]
      have hlength : col.points.length ≤ 10000 := by
        rw [hcol, List.length_map]
        exact hs.small
      exact ⟨⟨ps, ⟨h, hps⟩, (List.take_of_length_le hlength).trans hcol, hs⟩, fun _ => h.failed⟩
  refine Triple.keep (fun _ h => h.2) fun ⟨hembedded, hs⟩ => ?_
  have hall : CheshireCat.getAllPoints ps = ps := List.take_of_length_le hs.small
  have hsynced : CheshireCat.Synced (CheshireCat.embedProcedures ps c) :=
    CheshireCat.synced_embedProcedures hs ⟨c, hsmall⟩
  obtain ⟨hnodup, hmem⟩ := CheshireCat.embedProcedures_hashes hs c
  have heq : CheshireCat.embedProcedures ps c = _ := CheshireCat.embedProcedures.eq_1 ps c
  rw [hall] at heq
  simp only [hembedded, mapM_procedure] at heq ⊢
  -- the ids that are deleted, and the triggers that are embedded, as the call has them too
  generalize List.filterMap (CheshireCat.buildEmbeddedProceduresHashes ps).get? _ = ids at heq ⊢
  generalize List.filterMap (CheshireCat.buildActiveProceduresHashes c.procedures).get? _ = ts at heq ⊢
  rw [heq] at hsynced hnodup hmem
  have hembed : Triple true (Embedded base pair may gone done (CheshireCat.deletePoints ps ids))
      (embedTriggers size c.newId ts) (fun _ db => Held base pair may gone done db ∧ Aligned c.procedures db)
      (Failed base pair may) :=
    (embedTriggers_spec size c.newId ts hsynced).mono (fun _ h => h) (fun _ _ h => ⟨h.1, _, h.2, hnodup, hmem⟩)
      fun _ h => h
  refine Triple.mono (Triple.ite (fun hnil => ?_) fun _ => ?_) (fun _ h => h.1) (fun _ _ h => h) fun _ h => h
  · have hnone : CheshireCat.deletePoints ps ids = ps := List.filter_eq_self.mpr fun p _ => by rw [hnil]; rfl
    rw [hnone] at hembed
    exact hembed
  · refine Triple.bind ?_ fun _ => hembed
    refine modify_spec (fun col hcol points hpoints => ?_) (synced_of_sublist hs List.filter_sublist)
    obtain rfl := Option.some.inj hpoints
    rw [hcol, CheshireCat.deletePoints, List.filter_map]
    refine congrArg _ (List.filter_congr fun p _ => ?_)
    exact (decide_not (p := p.id ∈ ids)).symm

theorem syncPlugins_spec (size : ℕ) (plugins : Sync) : Triple true (Held base pair may gone done)
    (syncPlugins size plugins)
    (fun _ db => Held base pair may gone done db ∧ ∃ c, plugins.call = some c ∧ Aligned c.procedures db)
    (Failed base pair may) := by
  unfold syncPlugins
  cases hcall : plugins.call with
  | none => exact Triple.raise.mono (fun _ h => h.failed) (fun _ _ h => h) fun _ h => h
  | some c =>
    refine (embedProcedures_spec size c (plugins.small c hcall)).bind fun _ => ?_
    refine Triple.ite (fun _ => ?_) fun _ => ?_
    · exact Triple.skip.mono (fun _ h => h) (fun _ _ h => ⟨h.1, c, rfl, h.2⟩) fun _ h => h
    · exact Triple.raise.mono (fun _ h => h.1.failed) (fun _ _ h => h) fun _ h => h

/-- A reload makes anew what it deletes, and what was not there for the embedder. -/
def reloads (base : Db M) (pair : Pair) (deleted : List Str) (name : Str) : Prop :=
  name ∈ deleted ∨ ¬Labelled pair name base

/-- Wherever a reload raises, what was there for the embedder and is not deleted is the same. Where it returns, every
collection is there for the embedder, those that were deleted have no points, and the procedures are aligned. -/
theorem reload_spec (env : Env) (plugins : Sync) (deleted : List Str) :
    Triple true (Held base pair (reloads base pair deleted) [] []) (reload env pair plugins deleted)
      (fun _ db => Held base pair (reloads base pair deleted) deleted collectionNames db ∧
        ∃ c, plugins.call = some c ∧ Aligned c.procedures db) (Failed base pair (reloads base pair deleted)) := by
  refine (deleteCollections_spec fun _ h => .inl h).bind fun _ => ?_
  refine (loadMemory_spec (fun _ h => .inr h) env).bind fun _ => ?_
  refine (syncPlugins_spec pair.size plugins).mono (fun db h => ?_) (fun _ _ h => h) fun _ h => h
  exact ⟨h.toTidy, h.remains, fun name hname => h.emptied name (by simpa using hname), h.ready⟩

end KCore.LongTermMemory
