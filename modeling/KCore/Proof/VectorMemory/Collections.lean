import KCore.Impl.VectorMemory.Collections
import KCore.Lib.Run

/-!
# Which points a construction of the vector memory keeps

A collection is kept just where its first alias and its size are those of the embedder, and
such a collection has the points of no other pair (`Sound`): a construction keeps that,
wherever it raises (`newVectorMemory_spec`). An insertion keeps it where it does not go into a
collection that a failed construction left for another pair (`vector_memory_run_ok`).
-/

namespace KCore.VectorMemory

open Text Faulty Machine

/-! ## Aliases -/

theorem collectionNames_last : ∀ a ∈ collectionNames, ∀ b ∈ collectionNames, a.getLast? = b.getLast? → a = b := by
  decide +kernel

theorem collectionNames_ne : ∀ a ∈ collectionNames, a ≠ [] := by decide +kernel

/-- Aliases of different collections, or of different embedders, are different. -/
theorem aliasName_inj {n m a b : Str} (ha : a ∈ collectionNames) (hb : b ∈ collectionNames)
    (h : aliasName n a = aliasName m b) : n = m ∧ a = b := by
  have hlast {k c : Str} (hc : c ∈ collectionNames) : (aliasName k c).getLast? = c.getLast? := by
    obtain ⟨x, hx⟩ := Option.isSome_iff_exists.mp (List.getLast?_isSome.mpr (collectionNames_ne c hc))
    rw [aliasName, List.getLast?_append, List.getLast?_cons, hx]
    rfl
  have hab : a = b := collectionNames_last a ha b hb (by rw [← hlast (k := n) ha, h, hlast hb])
  subst hab
  exact ⟨List.append_cancel_right h, rfl⟩

/-! ## What is kept -/

section

variable {P : Type} (pair : P → Pair) (A : P → Prop) (faulty : Bool)

/-- The collection has no alias yet, if calls may fail, or that of one embedder, and its points are of that
embedder's pair. -/
def Kept (name : Str) (c : Collection P) : Prop :=
  (faulty = true ∧ c.aliases = []) ∨ ∃ n, c.aliases = [aliasName n name] ∧ ∀ p ∈ c.points, pair p = ⟨n, c.size⟩

/-- What every collection meets, with all points in `A`. -/
def SoundAt (name : Str) (db : VectorDb P) : Prop :=
  ∀ c, db.get? name = some c → name ∈ collectionNames ∧ Kept pair faulty name c ∧ ∀ p ∈ c.points, A p

def Sound (db : VectorDb P) : Prop := ∀ name, SoundAt pair A faulty name db

/-- The collection is there for the embedder, and has points of its pair only. -/
def Ready (e : Pair) (name : Str) (db : VectorDb P) : Prop :=
  ∃ c, db.get? name = some c ∧ c.size = e.size ∧ c.aliases.head? = some (aliasName e.name name) ∧
    ∀ p ∈ c.points, pair p = e

/-- The collections that a construction is through with are ready. -/
def Progress (e : Pair) (done : List Str) (db : VectorDb P) : Prop :=
  Sound pair A faulty db ∧ ∀ name ∈ done, Ready pair e name db

/-- A construction raised. -/
def Failed (db : VectorDb P) : Prop := faulty = true ∧ Sound pair A faulty db

/-- The collection was just made. -/
def Fresh (e : Pair) (done : List Str) (name : Str) (db : VectorDb P) : Prop :=
  (∀ other, other ≠ name → SoundAt pair A faulty other db) ∧ (∀ other ∈ done, Ready pair e other db) ∧
    db.get? name = some ⟨e.size, [], []⟩

variable {pair A faulty} {e : Pair} {done : List Str} {name : Str}

/-! ## One collection -/

theorem Fresh.sound {db : VectorDb P} (h : Fresh pair A faulty e done name db) (hname : name ∈ collectionNames)
    (hfaulty : faulty = true) : Sound pair A faulty db := by
  intro other c hc
  by_cases ho : other = name
  · subst ho
    obtain rfl := Option.some.inj (h.2.2.symm.trans hc)
    exact ⟨hname, .inl ⟨hfaulty, rfl⟩, nofun⟩
  · exact h.1 other ho c hc

theorem Sound.erase {db : VectorDb P} (h : Sound pair A faulty db) (name : Str) : Sound pair A faulty (db.erase name) := by
  intro other c hc
  rw [Dict.get?_erase] at hc
  split at hc
  · cases hc
  · exact h other c hc

theorem Ready.erase {db : VectorDb P} {other : Str} (h : Ready pair e other db) (hne : other ≠ name) :
    Ready pair e other (db.erase name) := by
  obtain ⟨c, hc, hready⟩ := h
  exact ⟨c, by rwa [Dict.get?_erase, if_neg hne], hready⟩

theorem Ready.set {db : VectorDb P} {other : Str} (h : Ready pair e other db) (hne : other ≠ name) (c : Collection P) :
    Ready pair e other (db.set name c) := by
  obtain ⟨c', hc', hready⟩ := h
  exact ⟨c', by rwa [Dict.get?_set_of_ne _ _ hne], hready⟩

theorem deleteCollection_spec (hdone : name ∉ done) : Triple faulty (Progress pair A faulty e done)
    (Client.deleteCollection name) (fun _ db => Progress pair A faulty e done db ∧ db.get? name = none)
    (Failed pair A faulty) := by
  refine Triple.call fun db h => ⟨⟨⟨h.1.erase name, fun other ho => ?_⟩, ?_⟩, fun hf => ⟨⟨hf, h.1⟩, hf, h.1.erase name⟩⟩
  · have hne : other ≠ name := fun he => hdone (he ▸ ho)
    exact (h.2 other ho).erase hne
  · rw [Dict.get?_erase, if_pos rfl]

theorem cleanup_spec : Triple faulty (Failed pair A faulty) (Client.deleteCollection name) (fun _ => Failed pair A faulty)
    (Failed pair A faulty) :=
  Triple.call fun _ h => ⟨⟨h.1, h.2.erase name⟩, fun _ => ⟨h, h.1, h.2.erase name⟩⟩

theorem clientCreateCollection_spec (hname : name ∈ collectionNames) (hdone : name ∉ done) : Triple faulty
    (fun db => Progress pair A faulty e done db ∧ db.get? name = none) (Client.createCollection name e.size)
    (fun _ => Fresh pair A faulty e done name) (Failed pair A faulty) := by
  refine Triple.call fun db ⟨h, hnone⟩ => ?_
  have hfresh : Fresh pair A faulty e done name (db.set name ⟨e.size, [], []⟩) := by
    refine ⟨fun other ho c hc => ?_, fun other ho => ?_, Dict.get?_set_self ..⟩
    · rw [Dict.get?_set_of_ne _ _ ho] at hc
      exact h.1 other c hc
    · have hne : other ≠ name := fun he => hdone (he ▸ ho)
      exact (h.2 other ho).set hne _
  rw [if_neg (Dict.get?_eq_none.mp hnone)]
  exact ⟨hfresh, fun hf => ⟨⟨hf, h.1⟩, hf, hfresh.sound hname hf⟩⟩

/-- No other collection has the new alias. -/
theorem get?_withoutAlias {db : VectorDb P} {n other : Str} (h : SoundAt pair A faulty other db)
    (hname : name ∈ collectionNames) (hne : other ≠ name) :
    (Client.withoutAlias (aliasName n name) db).get? other = db.get? other := by
  rw [Client.withoutAlias, Dict.get?_mapValues]
  cases hc : db.get? other with
  | none => rfl
  | some c =>
    obtain ⟨ho, hkept, -⟩ := h c hc
    have hnotin : aliasName n name ∉ c.aliases := by
      rcases hkept with ⟨-, hnil⟩ | ⟨m, halias, -⟩
      · rw [hnil]
        exact List.not_mem_nil
      · rw [halias, List.mem_singleton]
        exact fun he => hne (aliasName_inj hname ho he).2.symm
    rw [Option.map_some, List.erase_of_not_mem hnotin]

theorem createAlias_spec (hname : name ∈ collectionNames) (hdone : name ∉ done) : Triple faulty
    (Fresh pair A faulty e done name) (Client.createAlias name (aliasName e.name name))
    (fun _ => Progress pair A faulty e (name :: done)) (Failed pair A faulty) := by
  refine Triple.call fun db h => ?_
  obtain ⟨hothers, hready, hnew⟩ := h
  have hget : (Client.withoutAlias (aliasName e.name name) db).get? name = some ⟨e.size, [], []⟩ := by
    rw [Client.withoutAlias, Dict.get?_mapValues, hnew]
    rfl
  have hsame {other : Str} (ho : other ≠ name) := get?_withoutAlias (n := e.name) (hothers other ho) hname ho
  rw [hget]
  have hprogress : Progress pair A faulty e (name :: done) ((Client.withoutAlias (aliasName e.name name) db).set name
      ⟨e.size, [] ++ [aliasName e.name name], []⟩) := by
    refine ⟨fun other c hc => ?_, fun other ho => ?_⟩
    · by_cases hne : other = name
      · subst hne
        rw [Dict.get?_set_self] at hc
        obtain rfl := Option.some.inj hc
        exact ⟨hname, .inr ⟨e.name, rfl, nofun⟩, nofun⟩
      · rw [Dict.get?_set_of_ne _ _ hne, hsame hne] at hc
        exact hothers other hne c hc
    · by_cases hne : other = name
      · subst hne
        exact ⟨_, Dict.get?_set_self .., rfl, rfl, nofun⟩
      · obtain ⟨c, hc, hc'⟩ := hready other ((List.mem_cons.mp ho).resolve_left hne)
        exact ⟨c, by rwa [Dict.get?_set_of_ne _ _ hne, hsame hne], hc'⟩
  have hfresh : Fresh pair A faulty e done name db := ⟨hothers, hready, hnew⟩
  exact ⟨hprogress, fun hf => ⟨⟨hf, hfresh.sound hname hf⟩, hf, hprogress.1⟩⟩

theorem createCollection_spec (hname : name ∈ collectionNames) (hdone : name ∉ done) : Triple faulty
    (fun db => Progress pair A faulty e done db ∧ db.get? name = none) (createCollection name e.name e.size)
    (fun _ => Progress pair A faulty e (name :: done)) (Failed pair A faulty) :=
  ((clientCreateCollection_spec hname hdone).onRaise cleanup_spec).bind fun _ =>
    (createAlias_spec hname hdone).onRaise cleanup_spec

theorem Progress.tail {db : VectorDb P} (h : Progress pair A faulty e (name :: done) db) : Progress pair A faulty e done db :=
  ⟨h.1, fun other ho => h.2 other (.tail _ ho)⟩

theorem Progress.present {db : VectorDb P} (h : Progress pair A faulty e (name :: done) db) : ∃ c, db.get? name = some c :=
  (h.2 name (.head _)).imp fun _ hc => hc.1

theorem createDbCollectionIfNotExists_spec (hname : name ∈ collectionNames) (hdone : name ∉ done) : Triple faulty
    (Progress pair A faulty e done) (createDbCollectionIfNotExists name e.name e.size)
    (fun _ db => Progress pair A faulty e done db ∧ ∃ c, db.get? name = some c) (Failed pair A faulty) := by
  refine Triple.bind (Q := fun names db => Progress pair A faulty e done db ∧ names = db.keys) ?_ fun names => ?_
  · exact Triple.read fun db h => ⟨⟨h, rfl⟩, fun hf => ⟨hf, h.1⟩⟩
  · refine Triple.ite (fun hin => ?_) fun hin => ?_
    · refine (Triple.pure ()).mono (fun db h => ⟨h.1, ?_⟩) (fun _ _ h => h) fun _ h => h
      rw [h.2] at hin
      exact Dict.mem_iff_get?.mp hin
    · refine (createCollection_spec hname hdone).mono (fun db h => ⟨h.1, ?_⟩) (fun _ db h => ⟨h.tail, h.present⟩)
        fun _ h => h
      rw [h.2] at hin
      exact Dict.get?_eq_none.mpr hin

theorem saveDump_spec {env : Env} : Triple faulty
    (fun db => Progress pair A faulty e done db ∧ ∃ c, db.get? name = some c) (saveDump env name)
    (fun _ => Progress pair A faulty e done) (Failed pair A faulty) := by
  have hother {Q : VectorDb P → Prop} (hQ : ∀ db, Q db → Sound pair A faulty db) :
      Triple faulty Q Client.other (fun _ => Q) (Failed pair A faulty) :=
    Triple.read fun db h => ⟨h, fun hf => ⟨hf, hQ db h⟩⟩
  refine Triple.ite (fun _ => ?_) fun _ => ?_
  · refine (hother fun db h => h.1.1).bind fun _ => ?_
    refine Triple.bind (Q := fun aliases db => Progress pair A faulty e done db ∧
      (aliases = [] → faulty = true)) ?_ fun aliases => ?_
    · refine Triple.read fun db h => ?_
      obtain ⟨h, c, hc⟩ := h
      rw [hc]
      refine ⟨⟨h, fun hnil => ?_⟩, fun hf => ⟨hf, h.1⟩⟩
      rcases (h.1 name c hc).2.1 with ⟨hf, -⟩ | ⟨n, halias, -⟩
      · exact hf
      · cases halias.symm.trans hnil
    refine Triple.bind (Q := fun _ => Progress pair A faulty e done) ?_ fun _ => hother fun db h => h.1
    refine Triple.ite (fun hnil => ?_) fun _ => ?_
    · exact Triple.raise.mono (fun db h => ⟨h.2 hnil, h.1.1⟩) (fun _ _ h => h) fun _ h => h
    · exact (hother fun db h => h.1.1).mono (fun _ h => h) (fun _ _ h => h.1) fun _ h => h
  · exact (Triple.pure (Q := fun _ => Progress pair A faulty e done) ()).mono (fun _ h => h.1) (fun _ _ h => h) fun _ h => h

theorem checkEmbeddingSize_spec {env : Env} (hname : name ∈ collectionNames) (hdone : name ∉ done) : Triple faulty
    (fun db => Progress pair A faulty e done db ∧ ∃ c, db.get? name = some c)
    (checkEmbeddingSize env name e.name e.size) (fun _ => Progress pair A faulty e (name :: done))
    (Failed pair A faulty) := by
  refine Triple.bind (Q := fun c db => Progress pair A faulty e done db ∧ db.get? name = some c) ?_ fun c => ?_
  · refine Triple.read fun db h => ?_
    obtain ⟨h, c, hc⟩ := h
    rw [hc]
    exact ⟨⟨h, rfl⟩, fun hf => ⟨hf, h.1⟩⟩
  refine Triple.bind (Q := fun aliases db => (Progress pair A faulty e done db ∧ db.get? name = some c) ∧ aliases = c.aliases)
    ?_ fun aliases => ?_
  · refine Triple.read fun db h => ?_
    rw [h.2]
    exact ⟨⟨⟨h.1, rfl⟩, rfl⟩, fun hf => ⟨hf, h.1.1⟩⟩
  refine Triple.ite (fun hsame => ?_) fun _ => ?_
  · refine (Triple.pure ()).mono (fun db h => ?_) (fun _ _ h => h) fun _ h => h
    obtain ⟨⟨⟨hsound, hready⟩, hc⟩, rfl⟩ := h
    refine ⟨hsound, List.forall_mem_cons.mpr ⟨⟨c, hc, hsame.2, hsame.1, ?_⟩, hready⟩⟩
    rcases (hsound name c hc).2.1 with ⟨-, hnil⟩ | ⟨n, halias, hpoints⟩
    · rw [hnil] at hsame
      cases hsame.1
    · rw [halias, List.head?_cons, Option.some.injEq] at hsame
      obtain ⟨rfl, -⟩ := aliasName_inj hname hname hsame.1
      exact fun p hp => (hpoints p hp).trans (by rw [hsame.2])
  · refine Triple.bind (Q := fun _ => Progress pair A faulty e done) ?_ fun _ => ?_
    · refine Triple.ite (fun _ => ?_) fun _ => ?_
      · exact saveDump_spec.mono (fun db h => ⟨h.1.1, c, h.1.2⟩) (fun _ _ h => h) fun _ h => h
      · exact (Triple.pure ()).mono (fun db h => h.1.1) (fun _ _ h => h) fun _ h => h
    · exact (deleteCollection_spec hdone).bind fun _ => createCollection_spec hname hdone

theorem newCollection_spec {env : Env} (hname : name ∈ collectionNames) (hdone : name ∉ done) : Triple faulty
    (Progress pair A faulty e done) (newCollection env name e.name e.size)
    (fun _ => Progress pair A faulty e (name :: done)) (Failed pair A faulty) := by
  refine (createDbCollectionIfNotExists_spec hname hdone).bind fun _ =>
    (checkEmbeddingSize_spec hname hdone).bind fun _ => ?_
  refine Triple.bind (Q := fun _ => Progress pair A faulty e (name :: done)) ?_ fun _ =>
    Triple.pure (Q := fun _ => Progress pair A faulty e (name :: done)) ()
  refine Triple.read fun db h => ?_
  obtain ⟨c, hc⟩ := h.present
  rw [hc]
  exact ⟨h, fun hf => ⟨hf, h.1⟩⟩

theorem newCollections_spec {env : Env} : ∀ {names done : List Str}, (∀ name ∈ names, name ∈ collectionNames) →
    (names ++ done).Nodup → Triple faulty (Progress pair A faulty e done) (newCollections env e.name e.size names)
      (fun _ => Progress pair A faulty e (names ++ done)) (Failed pair A faulty)
  | [], done, _, _ => Triple.pure (Q := fun _ => Progress pair A faulty e done) ()
  | name :: names, done, hnames, hnodup => by
    rw [List.cons_append, List.nodup_cons, List.mem_append, not_or] at hnodup
    have hnext : (names ++ name :: done).Nodup := by
      rw [List.nodup_middle, List.nodup_cons, List.mem_append, not_or]
      exact hnodup
    refine (newCollection_spec (hnames name (.head _)) hnodup.1.2).bind fun _ => ?_
    refine (newCollections_spec (fun n hn => hnames n (.tail _ hn)) hnext).mono (fun _ h => h) (fun _ db h => ?_) fun _ h => h
    refine ⟨h.1, fun other ho => h.2 other ?_⟩
    simpa [or_left_comm] using ho

/-- A construction keeps sound what was sound, and is ready where it completes. -/
theorem newVectorMemory_spec (env : Env) : Triple faulty (Sound pair A faulty) (newVectorMemory env e.name e.size)
    (fun _ db => Sound pair A faulty db ∧ ∀ name ∈ collectionNames, Ready pair e name db) (Failed pair A faulty) := by
  have hnodup : (collectionNames ++ []).Nodup := by decide +kernel
  refine (newCollections_spec (fun _ h => h) hnodup).mono (fun _ h => ⟨h, fun _ hn => absurd hn List.not_mem_nil⟩) (fun _ db h => ⟨h.1, ?_⟩) fun _ h => h
  rw [List.append_nil] at h
  exact h.2

/-! ## A construction for the same pair -/

variable {db₀ : VectorDb P} {env : Env}

/-- A program that only looks at a database. -/
theorem read_unchanged {α : Type} {f : VectorDb P → Option α} {a : α} (h : f db₀ = some a) :
    Triple faulty (fun db => db = db₀) (read f) (fun b db => db = db₀ ∧ b = a) (fun db => db = db₀) := by
  refine Triple.read fun db hdb => ?_
  subst hdb
  rw [h]
  exact ⟨⟨rfl, rfl⟩, fun _ => rfl⟩

theorem newCollection_unchanged (h : Ready pair e name db₀) : Triple faulty (fun db => db = db₀)
    (newCollection env name e.name e.size) (fun _ db => db = db₀) (fun db => db = db₀) := by
  obtain ⟨c, hc, hsize, halias, -⟩ := h
  have hpure {Q : VectorDb P → Prop} (hQ : ∀ db, Q db → db = db₀) : Triple faulty Q (pure () : Prog (VectorDb P) Unit)
      (fun _ db => db = db₀) (fun db => db = db₀) :=
    (Triple.pure (Q := fun _ => Q) ()).mono (fun _ h => h) (fun _ => hQ) fun _ h => h
  have hin : name ∈ db₀.keys := Dict.mem_def.mp (Dict.mem_iff_get?.mpr ⟨c, hc⟩)
  refine Triple.bind (Q := fun _ db => db = db₀) ?_ fun _ => Triple.bind (Q := fun _ db => db = db₀) ?_ fun _ => ?_
  · refine (read_unchanged (a := db₀.keys) rfl).bind fun _ => Triple.ite (fun _ => ?_) fun hnot => ?_
    · exact hpure fun db h => h.1
    · intro db fs _ ⟨_, hnames⟩
      exact absurd (hnames ▸ hin) hnot
  · refine (read_unchanged hc).bind fun c' => ?_
    refine Triple.bind (Q := fun aliases db => (db = db₀ ∧ c' = c) ∧ aliases = c.aliases) ?_ fun aliases => ?_
    · refine Triple.read fun db hdb => ?_
      obtain ⟨rfl, rfl⟩ := hdb
      rw [hc]
      exact ⟨⟨⟨rfl, rfl⟩, rfl⟩, fun _ => rfl⟩
    · refine Triple.ite (fun _ => hpure fun db h => h.1.1) fun hnot => ?_
      intro db fs _ ⟨⟨_, hc'⟩, haliases⟩
      exact absurd ⟨haliases ▸ halias, hc' ▸ hsize⟩ hnot
  · exact (read_unchanged hc).bind fun _ => hpure fun db h => h.1

theorem newCollections_unchanged : ∀ {names : List Str}, (∀ name ∈ names, Ready pair e name db₀) → Triple faulty
    (fun db => db = db₀) (newCollections env e.name e.size names) (fun _ db => db = db₀) (fun db => db = db₀)
  | [], _ => Triple.pure (Q := fun _ db => db = db₀) ()
  | name :: _, h => (newCollection_unchanged (h name (.head _))).bind fun _ =>
      newCollections_unchanged fun other ho => h other (.tail _ ho)

/-- A construction for the pair that all collections are ready for changes nothing, wherever it raises. -/
theorem newVectorMemory_unchanged (h : ∀ name ∈ collectionNames, Ready pair e name db₀) (fs : List Fault) :
    (newVectorMemory env e.name e.size db₀ fs).2.1 = db₀ := by
  have htriple : Triple true (fun db => db = db₀) (newCollections env e.name e.size collectionNames) (fun _ db => db = db₀)
      (fun db => db = db₀) := newCollections_unchanged h
  rcases htriple.ends fs (.inl rfl) rfl with ⟨_, -, hend⟩ | ⟨-, hend⟩
  · exact hend
  · exact hend

/-! ## Insertions -/

theorem get?_addPoint {db : VectorDb P} {size : Nat} {point : P} {other : Str} {c : Collection P}
    (h : (addPoint db name size point).get? other = some c) :
    db.get? other = some c ∨
      ∃ c₀, other = name ∧ db.get? name = some c₀ ∧ c₀.size = size ∧ c = { c₀ with points := c₀.points ++ [point] } := by
  rw [addPoint] at h
  cases hc : db.get? name with
  | none =>
    rw [hc] at h
    exact .inl h
  | some c₀ =>
    simp only [hc] at h
    split at h
    · rename_i hsize
      rw [Dict.get?_set] at h
      split at h
      · rename_i ho
        exact .inr ⟨c₀, ho, rfl, hsize, (Option.some.inj h).symm⟩
      · exact .inl h
    · exact .inl h

/-- A point of the pair that a collection is ready for. -/
theorem addPoint_ready {db : VectorDb P} {size : Nat} {point : P} {other : Str} (h : Ready pair e other db)
    (hpoint : pair point = e) : Ready pair e other (addPoint db name size point) := by
  obtain ⟨c, hc, hsize, halias, hpoints⟩ := h
  rw [addPoint]
  cases hn : db.get? name with
  | none => exact ⟨c, hc, hsize, halias, hpoints⟩
  | some c₀ =>
    simp only
    split
    · by_cases ho : other = name
      · subst ho
        obtain rfl := Option.some.inj (hn.symm.trans hc)
        refine ⟨_, Dict.get?_set_self .., hsize, halias, fun p hp => ?_⟩
        rcases List.mem_append.mp hp with hp | hp
        · exact hpoints p hp
        · rw [List.mem_singleton.mp hp, hpoint]
      · exact ⟨c, by rwa [Dict.get?_set_of_ne _ _ ho], hsize, halias, hpoints⟩
    · exact ⟨c, hc, hsize, halias, hpoints⟩

/-- A point goes into a collection without an alias, or into one that is its pair's. -/
theorem addPoint_sound {db : VectorDb P} {size : Nat} {point : P} (h : Sound pair A faulty db) (hA : A point)
    (hfits : ∀ c ∈ db.get? name, c.size = size → c.aliases = [] ∨
      c.aliases.head? = some (aliasName (pair point).name name) ∧ c.size = (pair point).size) :
    Sound pair A faulty (addPoint db name size point) := by
  intro other c hc
  rcases get?_addPoint hc with hc | ⟨c₀, rfl, hc₀, hsize, rfl⟩
  · exact h other c hc
  · obtain ⟨hname, hkept, hall⟩ := h other c₀ hc₀
    refine ⟨hname, ?_, fun p hp => ?_⟩
    · rcases hkept with ⟨hf, hnil⟩ | ⟨n, halias, hpoints⟩
      · exact .inl ⟨hf, hnil⟩
      · refine .inr ⟨n, halias, fun p hp => ?_⟩
        rcases List.mem_append.mp hp with hp | hp
        · exact hpoints p hp
        · rcases hfits c₀ hc₀ hsize with hnil | ⟨hhead, hsize'⟩
          · cases halias.symm.trans hnil
          · rw [halias, List.head?_cons, Option.some.injEq] at hhead
            obtain ⟨rfl, -⟩ := aliasName_inj hname hname hhead
            rw [List.mem_singleton.mp hp]
            exact congrArg (Pair.mk _) hsize'.symm
    · rcases List.mem_append.mp hp with hp | hp
      · exact hall p hp
      · exact List.mem_singleton.mp hp ▸ hA

end

/-! ## Runs -/

/-- A point does not go into a collection that was left by a failed construction for another pair: the collection it
goes into has no alias, or the alias and the size of the current pair. -/
def Fitting (s : VectorState) : VectorEvent → Prop
  | .construct .. => True
  | .insert name _ size => ∀ current ∈ s.current, ∀ c ∈ s.db.get? name, c.size = size →
    c.aliases = [] ∨ c.aliases.head? = some (aliasName current.name name) ∧ c.size = current.size

def VectorEvent.isInsert : VectorEvent → Bool
  | .construct .. => false
  | .insert .. => true

/-- Points without a condition. -/
abbrev VectorState.Sound (s : VectorState) : Prop := VectorMemory.Sound Stamped.pair (fun _ => True) true s.db

theorem step_sound (s : VectorState) (e : VectorEvent) (h : s.Sound) (hfits : Fitting s e) : (s.step e).Sound := by
  cases e with
  | construct env pair faults =>
    rcases (newVectorMemory_spec env (e := pair)).ends faults (.inl rfl) h with ⟨_, -, hend⟩ | ⟨-, hend⟩
    · exact hend.1
    · exact hend.2
  | insert name id size =>
    simp only [VectorState.step]
    cases hc : s.current with
    | none => exact h
    | some current => exact addPoint_sound h trivial (hfits current hc)

theorem start_sound : VectorState.start.Sound := by
  intro name c hc
  cases hc

/-- A construction that completes, in a sound state. -/
theorem completes_ready {s : VectorState} (h : s.Sound) {env : Env} {pair : Pair} {faults : List Fault}
    (hc : s.completes env pair faults = true) :
    (s.step (.construct env pair faults)).current = some pair ∧
      ∀ name ∈ collectionNames, Ready Stamped.pair pair name (s.step (.construct env pair faults)).db := by
  refine ⟨by simp only [VectorState.step, if_pos hc], ?_⟩
  rcases (newVectorMemory_spec env (e := pair)).ends faults (.inl rfl) h with ⟨_, -, hend⟩ | ⟨hraised, -⟩
  · exact hend.2
  · rw [VectorState.completes, hraised] at hc
    cases hc

/-- Insertions keep the collections ready for the current pair. -/
theorem inserts_ready {pair : Pair} {s : VectorState} {es : List VectorEvent} (hes : ∀ e ∈ es, e.isInsert = true)
    (hcurrent : s.current = some pair) (hready : ∀ name ∈ collectionNames, Ready Stamped.pair pair name s.db) :
    ∀ name ∈ collectionNames, Ready Stamped.pair pair name (run VectorState.step s es).db := by
  refine (run_invariant (I := fun s : VectorState => s.current = some pair ∧
    ∀ name ∈ collectionNames, Ready Stamped.pair pair name s.db) (P := fun _ e => e.isInsert = true) ?_
    ⟨hcurrent, hready⟩ (along_of_forall s hes)).2
  intro s e ⟨hcurrent, hready⟩ he
  cases e with
  | construct => cases he
  | insert name id size =>
    simp only [VectorState.step, hcurrent]
    exact ⟨trivial, fun other ho => addPoint_ready (hready other ho) rfl⟩

/-- In a run from the empty database whose insertions all fit, with any construction failing anywhere: after each
construction that completes, and insertions from there on, the collections are there for its pair, and every point in
them was inserted under that pair. A next construction for the same pair changes nothing. -/
theorem vector_memory_run_ok {es : List VectorEvent} (h : Along VectorState.step Fitting .start es) (env : Env) (pair : Pair)
    (faults : List Fault) (hc : (run VectorState.step .start es).completes env pair faults = true) :
    let s := (run VectorState.step .start es).step (.construct env pair faults)
    s.current = some pair ∧ (∀ name ∈ collectionNames, Ready Stamped.pair pair name s.db) ∧
      ∀ inserts : List VectorEvent, (∀ e ∈ inserts, e.isInsert = true) →
        (∀ name ∈ collectionNames, Ready Stamped.pair pair name (run VectorState.step s inserts).db) ∧
          ∀ env' faults', ((run VectorState.step s inserts).step (.construct env' pair faults')).db =
            (run VectorState.step s inserts).db := by
  obtain ⟨hcurrent, hready⟩ := completes_ready (run_invariant step_sound start_sound h) hc
  refine ⟨hcurrent, hready, fun inserts hinserts => ?_⟩
  have hlater := inserts_ready hinserts hcurrent hready
  exact ⟨hlater, fun env' faults' => newVectorMemory_unchanged hlater faults'⟩

instance : ∀ (s : VectorState) (e : VectorEvent), Decidable (Fitting s e)
  | _, .construct .. => .isTrue trivial
  | s, .insert name _ size => inferInstanceAs (Decidable (∀ current ∈ s.current, ∀ c ∈ s.db.get? name, c.size = size →
      c.aliases = [] ∨ c.aliases.head? = some (aliasName current.name name) ∧ c.size = current.size))

def ada : Pair := ⟨"text-embedding-ada-002".toList, 1536⟩

def small : Pair := ⟨"text-embedding-3-small".toList, 1536⟩

def noSnapshots : Env := ⟨false, false⟩

theorem vector_memory_run_ada :
    let s := (run VectorState.step .start [.construct noSnapshots ada [], .insert episodic "1".toList 1536]).step
      (.construct noSnapshots small [])
    s.current = some small ∧ ∀ name ∈ collectionNames, Ready Stamped.pair small name s.db := by
  have hrun : Along VectorState.step Fitting .start
      [.construct noSnapshots ada [], .insert episodic "1".toList 1536] := by decide +kernel
  have hok := vector_memory_run_ok hrun noSnapshots small [] (by decide +kernel)
  exact ⟨hok.1, hok.2.1⟩

/-- A construction for another embedder fails at its second collection, a point is inserted, and the construction is
done again: the point of the first embedder is in a collection of the second one. -/
theorem failed_construction_mixes :
    let s := run VectorState.step .start [.construct noSnapshots ada [],
      .construct noSnapshots small [.none, .none, .none, .none, .none, .none, .none, .before],
      .insert episodic "1".toList 1536]
    s.current = some ada ∧ s.completes noSnapshots small [] = true ∧
      ¬∀ name ∈ collectionNames, Ready Stamped.pair small name (s.step (.construct noSnapshots small [])).db := by
  intro s
  have hmixed : ((s.step (.construct noSnapshots small [])).db.get? episodic).any
      (fun c => c.points.any fun p => p.pair ≠ small) = true := by decide +kernel
  refine ⟨by decide +kernel, by decide +kernel, fun h => ?_⟩
  obtain ⟨c, hc, -, -, hpoints⟩ := h episodic (.head _)
  rw [hc, Option.any_some] at hmixed
  obtain ⟨p, hp, hpair⟩ := List.any_eq_true.mp hmixed
  exact of_decide_eq_true hpair (hpoints p hp)

end KCore.VectorMemory
