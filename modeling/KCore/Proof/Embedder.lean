import KCore.Impl.Embedder
import KCore.Proof.VectorMemory.Collections

/-!
# Vectors of one embedder

The vector memory tells embedders apart by a name and a size, so it keeps the vectors of an
embedder that has both in common with the one before. The vectors are those of one embedder
at all times just in the runs where such an embedder comes with the same class and fields, or
finds no vector (`one_embedder_iff`).
-/

namespace KCore.LookingGlass

open Text Machine KCore.VectorMemory

variable {N : Type} {outside : Outside N}

/-! ## Embedders -/

/-- The fields that the model of an embedder depends on. -/
def modelFields : List Str := ["model".toList, "model_name".toList, "url".toList, "size".toList]

/-- Embedders of the same class and with the same fields. -/
def Alike (e e' : Embedder N) : Prop :=
  e.pyclass = e'.pyclass ∧ ∀ field ∈ modelFields, e.attributes.get? field = e'.attributes.get? field

theorem Alike.refl (e : Embedder N) : Alike e e := ⟨rfl, fun _ _ => rfl⟩

theorem Alike.symm {e e' : Embedder N} (h : Alike e e') : Alike e' e := ⟨h.1.symm, fun field hf => (h.2 field hf).symm⟩

theorem Alike.trans {e e' e'' : Embedder N} (h : Alike e e') (h' : Alike e' e'') : Alike e e'' :=
  ⟨h.1.trans h'.1, fun field hf => (h.2 field hf).trans (h'.2 field hf)⟩

/-- `P` holds of every point. -/
def AllPoints (P : Embedded N → Prop) (db : VectorDb (Embedded N)) : Prop :=
  ∀ name c, db.get? name = some c → ∀ p ∈ c.points, P p

theorem AllPoints.mono {P Q : Embedded N → Prop} {db : VectorDb (Embedded N)} (h : AllPoints P db) (hPQ : ∀ p, P p → Q p) :
    AllPoints Q db := fun name c hc p hp => hPQ p (h name c hc p hp)

/-- Every vector is of an embedder like the current one. -/
def OneEmbedder (s : Cat N) : Prop :=
  ∀ embedder pair, s.loaded = some (embedder, pair) → AllPoints (fun p => Alike p.embedder embedder) s.db

/-- An embedder that is loaded with the name and the size of the current one is like it, or there is no vector. -/
def Told (outside : Outside N) (s : Cat N) (e : CatEvent N) : Prop :=
  ∀ env settings new pair, s.loads outside e = some (env, settings, new, pair) →
    ∀ current, s.loaded = some (current, pair) → Alike current new ∨ AllPoints (fun _ => False) s.db

/-! ## The memory of the current embedder -/

/-- The collections are there for the pair of the current embedder, and all points are of that pair. -/
structure InPlace (s : Cat N) : Prop where
  sound : Sound Embedded.pair (fun p => s.loaded.map Prod.snd = some p.pair) false s.db
  ready : ∀ l ∈ s.loaded, ∀ name ∈ collectionNames, Ready Embedded.pair l.2 name s.db

theorem start_inPlace : InPlace (.start : Cat N) := by
  refine ⟨fun name c hc => ?_, fun l hl => ?_⟩
  · cases hc
  · cases hl

/-- A construction in which no call fails. -/
theorem newVectorMemory_ready {A : Embedded N → Prop} {db : VectorDb (Embedded N)} (h : Sound Embedded.pair A false db)
    (env : Env) (pair : Pair) :
    let db' := (newVectorMemory env pair.name pair.size db []).2.1
    Sound Embedded.pair A false db' ∧ ∀ name ∈ collectionNames, Ready Embedded.pair pair name db' := by
  rcases (newVectorMemory_spec env (e := pair)).ends [] (.inr rfl) h with ⟨_, -, hend⟩ | ⟨-, hfaulty, -⟩
  · exact hend
  · cases hfaulty

/-- All points are of the pair that the collections are there for. -/
theorem points_pair {A : Embedded N → Prop} {db : VectorDb (Embedded N)} {pair : Pair} (h : Sound Embedded.pair A false db)
    (hready : ∀ name ∈ collectionNames, Ready Embedded.pair pair name db) :
    AllPoints (fun p => A p ∧ p.pair = pair) db := by
  intro name c hc p hp
  obtain ⟨hname, -, hA⟩ := h name c hc
  obtain ⟨c', hc', -, -, hpair⟩ := hready name hname
  obtain rfl := Option.some.inj (hc.symm.trans hc')
  exact ⟨hA p hp, hpair p hp⟩

theorem reload_inPlace {s : Cat N} (h : InPlace s) (l : Option (Env × Loaded N)) : InPlace (s.reload l) := by
  match l with
  | none => exact h
  | some (env, settings, embedder, pair) =>
    obtain ⟨hsound, hready⟩ := newVectorMemory_ready h.sound env pair
    have hpoints := points_pair hsound hready
    refine ⟨fun name c hc => ?_, fun l hl => ?_⟩
    · obtain ⟨hname, hkept, -⟩ := hsound name c hc
      exact ⟨hname, hkept, fun p hp => congrArg some (hpoints name c hc p hp).2.symm⟩
    · obtain rfl := Option.some.inj hl
      exact hready

theorem step_store {s : Cat N} {embedder : Embedder N} {pair : Pair} (hloaded : s.loaded = some (embedder, pair))
    (name id : Str) (size : Nat) : s.step outside (.store name id size) =
      { s with db := addPoint s.db name size ⟨id, embedder, pair⟩ } := by
  simp only [Cat.step, hloaded]

theorem step_store_none {s : Cat N} (hloaded : s.loaded = none) (name id : Str) (size : Nat) :
    s.step outside (.store name id size) = s := by
  simp only [Cat.step, hloaded]

theorem store_inPlace {s : Cat N} (h : InPlace s) {embedder : Embedder N} {pair : Pair} (hloaded : s.loaded = some (embedder, pair))
    (name id : Str) (size : Nat) : InPlace { s with db := addPoint s.db name size ⟨id, embedder, pair⟩ } := by
  refine ⟨addPoint_sound h.sound (congrArg (Option.map Prod.snd) hloaded) fun c hc _ => .inr ?_, fun l hl => ?_⟩
  · obtain ⟨c', hc', hsize, halias, -⟩ := h.ready _ hloaded name (h.sound name c hc).1
    obtain rfl := Option.some.inj (hc.symm.trans hc')
    exact ⟨halias, hsize⟩
  · obtain rfl := Option.some.inj (hloaded.symm.trans hl)
    exact fun other ho => addPoint_ready (h.ready _ hloaded other ho) rfl

theorem step_inPlace (s : Cat N) (e : CatEvent N) (h : InPlace s) : InPlace (s.step outside e) := by
  cases e with
  | select c name payload => exact reload_inPlace h _
  | restart c => exact reload_inPlace h _
  | store name id size =>
    cases hloaded : s.loaded with
    | none =>
      rw [step_store_none hloaded]
      exact h
    | some l =>
      rw [step_store hloaded]
      exact store_inPlace h hloaded name id size

/-! ## What a loading leaves -/

/-- The points go where the pair is another one. -/
theorem reload_other {s : Cat N} (h : InPlace s) {current new : Embedder N} {pair pair' : Pair} (env : Env)
    (settings : Settings.Store N) (hloaded : s.loaded = some (current, pair)) (hne : pair' ≠ pair) :
    AllPoints (fun _ => False) (s.reload (some (env, settings, new, pair'))).db := by
  obtain ⟨hsound, hready⟩ := newVectorMemory_ready h.sound env pair'
  refine (points_pair hsound hready).mono fun p hp => hne ?_
  rw [hloaded] at hp
  exact hp.2.symm.trans (Option.some.inj hp.1).symm

/-- The points stay where the pair is the same. -/
theorem reload_same {s : Cat N} (h : InPlace s) {current : Embedder N} (new : Embedder N) {pair : Pair} (env : Env)
    (settings : Settings.Store N) (hloaded : s.loaded = some (current, pair)) :
    (s.reload (some (env, settings, new, pair))).db = s.db :=
  newVectorMemory_unchanged (h.ready _ hloaded) []

theorem reload_first {s : Cat N} (h : InPlace s) (hloaded : s.loaded = none) (l : Env × Loaded N) :
    AllPoints (fun _ => False) (s.reload (some l)).db := by
  obtain ⟨env, settings, new, pair⟩ := l
  obtain ⟨hsound, hready⟩ := newVectorMemory_ready h.sound env pair
  refine (points_pair hsound hready).mono fun p hp => ?_
  rw [hloaded] at hp
  cases hp.1

/-- Where the pair is the same, a loading keeps the vectors of one embedder just if it is like the current one. -/
theorem reload_same_iff {s : Cat N} (h : InPlace s) (hone : OneEmbedder s) {current new : Embedder N} {pair : Pair}
    (env : Env) (settings : Settings.Store N) (hloaded : s.loaded = some (current, pair)) :
    OneEmbedder (s.reload (some (env, settings, new, pair))) ↔ Alike current new ∨ AllPoints (fun _ => False) s.db := by
  have hdb := reload_same h new env settings hloaded
  constructor
  · intro hnew
    by_cases hempty : AllPoints (fun _ => False) s.db
    · exact .inr hempty
    · left
      simp only [AllPoints, not_forall] at hempty
      obtain ⟨name, c, hc, p, hp, -⟩ := hempty
      have hold := hone current pair hloaded name c hc p hp
      exact hold.symm.trans (hnew new pair rfl name c (hdb ▸ hc) p hp)
  · intro htold embedder pair' hl
    obtain ⟨rfl, rfl⟩ := Prod.mk.inj (Option.some.inj hl)
    rw [hdb]
    rcases htold with halike | hempty
    · exact (hone current pair hloaded).mono fun _ hp => hp.trans halike
    · exact hempty.mono fun _ hf => hf.elim

/-- A loading keeps the vectors of one embedder just where it is told from the current one. -/
theorem reload_oneEmbedder {s : Cat N} (h : InPlace s) (hone : OneEmbedder s) (l : Option (Env × Loaded N)) :
    OneEmbedder (s.reload l) ↔ ∀ env settings new pair, l = some (env, settings, new, pair) →
      ∀ current, s.loaded = some (current, pair) → Alike current new ∨ AllPoints (fun _ => False) s.db := by
  match l with
  | none => exact ⟨fun _ _ _ _ _ hl => (nomatch hl), fun _ => hone⟩
  | some (env, settings, new, pair) =>
    have hgone (hpoints : AllPoints (fun _ => False) (s.reload (some (env, settings, new, pair))).db) :
        OneEmbedder (s.reload (some (env, settings, new, pair))) := fun _ _ _ => hpoints.mono fun _ hf => hf.elim
    simp only [Option.some.injEq, Prod.mk.injEq, and_imp]
    cases hloaded : s.loaded with
    | none => exact ⟨fun _ _ _ _ _ _ _ _ _ _ hc => (nomatch hc), fun _ => hgone (reload_first h hloaded _)⟩
    | some l =>
      obtain ⟨current, pair'⟩ := l
      by_cases hpair : pair = pair'
      · subst hpair
        rw [reload_same_iff h hone env settings hloaded]
        refine ⟨?_, fun htold => htold env settings new pair rfl rfl rfl rfl current rfl⟩
        rintro hsame _ _ _ _ rfl rfl rfl rfl _ hc
        obtain ⟨rfl, -⟩ := Prod.mk.inj (Option.some.inj hc)
        exact hsame
      · refine ⟨?_, fun _ => hgone (reload_other h env settings hloaded hpair)⟩
        rintro - _ _ _ _ rfl rfl rfl rfl _ hc
        exact absurd (Prod.mk.inj (Option.some.inj hc)).2.symm hpair

theorem store_oneEmbedder {s : Cat N} (hone : OneEmbedder s) {embedder : Embedder N} {pair : Pair}
    (hloaded : s.loaded = some (embedder, pair)) (name id : Str) (size : Nat) :
    OneEmbedder { s with db := addPoint s.db name size ⟨id, embedder, pair⟩ } := by
  intro e q hl other c hc p hp
  obtain ⟨rfl, rfl⟩ := Prod.mk.inj (Option.some.inj (hloaded.symm.trans hl))
  rcases get?_addPoint hc with hc | ⟨c₀, rfl, hc₀, -, rfl⟩
  · exact hone _ _ hloaded other c hc p hp
  · rcases List.mem_append.mp hp with hp | hp
    · exact hone _ _ hloaded other c₀ hc₀ p hp
    · rw [List.mem_singleton.mp hp]
      exact Alike.refl embedder

theorem step_oneEmbedder (s : Cat N) (e : CatEvent N) (h : InPlace s) (hone : OneEmbedder s) :
    OneEmbedder (s.step outside e) ↔ Told outside s e := by
  cases e with
  | select c name payload => exact reload_oneEmbedder h hone _
  | restart c => exact reload_oneEmbedder h hone _
  | store name id size =>
    refine ⟨fun _ _ _ _ _ hl => (nomatch hl), fun _ => ?_⟩
    cases hloaded : s.loaded with
    | none =>
      rw [step_store_none hloaded]
      exact hone
    | some l =>
      rw [step_store hloaded]
      exact store_oneEmbedder hone hloaded name id size

/-- At all times of a run every vector is of an embedder like the current one, just if no embedder of the run comes
with the name and the size of another one before it and finds vectors. -/
theorem one_embedder_iff (outside : Outside N) (es : List (CatEvent N)) :
    Throughout (Cat.step outside) OneEmbedder .start es ↔ Along (Cat.step outside) (Told outside) .start es :=
  throughout_iff_along step_inPlace step_oneEmbedder start_inPlace fun _ _ hl => nomatch hl

/-! ## Two servers -/

/-- The url of an embedder, where it is a text. -/
def urlOf (e : Embedder N) : Option Str :=
  match e.attributes.get? "url".toList with
  | some (.json (.str url)) => some url
  | _ => none

theorem Alike.urlOf {e e' : Embedder N} (h : Alike e e') : urlOf e = urlOf e' := by
  have hurl : "url".toList ∈ modelFields := by decide +kernel
  rw [LookingGlass.urlOf, LookingGlass.urlOf, h.2 _ hurl]

/-- The selection of an OpenAI-compatible server whose vectors have 1024 components. -/
def compatible (url : String) : CatEvent Nat :=
  .select ⟨listEmbedderDefault, .other, noSnapshots, 1024⟩ "EmbedderOpenAICompatibleConfig".toList
    (.obj [("url".toList, .str url.toList)])

def twoServers : List (CatEvent Nat) :=
  [compatible "http://bge:8080", .store episodic "1".toList 1024, compatible "http://e5:8080"]

/-- Both are `default_embedder`: the vectors of the first server stay where those of the second one go. -/
theorem compatible_servers_mix : ¬Throughout (Cat.step fun _ _ => none) OneEmbedder .start twoServers := by
  intro h
  have hone := h twoServers (List.prefix_refl _)
  have hold : ((run (Cat.step fun _ _ => none) .start twoServers).db.get? episodic).any
      (fun c => c.points.any fun p => urlOf p.embedder = some "http://bge:8080/v1/embeddings".toList) = true := by
    decide +kernel
  have hnew : (run (Cat.step fun _ _ => none) .start twoServers).loaded.map (fun l => urlOf l.1) =
      some (some "http://e5:8080/v1/embeddings".toList) := by
    decide +kernel
  obtain ⟨⟨embedder, pair⟩, hloaded, hurl⟩ := Option.map_eq_some_iff.mp hnew
  obtain ⟨c, hc, hpoints⟩ := (Option.any_eq_true ..).mp hold
  obtain ⟨p, hp, hbge⟩ := List.any_eq_true.mp hpoints
  have halike := (hone embedder pair hloaded episodic c hc p hp).urlOf
  rw [of_decide_eq_true hbge, hurl] at halike
  exact absurd halike (by decide +kernel)

end KCore.LookingGlass
