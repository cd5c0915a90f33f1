import KCore.Lib.Ledger
import KCore.Lib.Run
import KCore.Impl.Artifacts.Review
import KCore.Proof.Artifacts.Naming

/-!
# The store as a ledger of versions

The abstract store is a `Ledger`: under every artifact id the metadata of its
versions, oldest first. `ledgerStep` says what each call does to it: a
generation creates a first version, the review operations amend the last one,
and a revision closes the last one and adds the next. `Refines` relates the
files to a ledger, every call keeps it (`step_refines`), and the latest version
that a query finds is the last one in the ledger (`Refines.latest`).
-/

namespace KCore.Artifacts

open Text

/-! ## What is stored -/

/-- The metadata of every sidecar. -/
def metas (s : Store) : List Metadata := s.entries.filterMap fun e => loadMetadata e.2

/-- The stored versions of an artifact. -/
def stored (s : Store) (i : Str) : List Metadata := (metas s).filter (·.artifactId = i)

theorem mem_metas {s : Store} {m : Metadata} : m ∈ metas s ↔ ∃ p, s.get? p = some (.sidecar m) := by
  simp only [metas, List.mem_filterMap, Prod.exists, Dict.get?_eq_some]
  constructor
  · rintro ⟨p, f, hf, hm⟩
    cases f with
    | markdown t => cases hm
    | sidecar m' => cases hm; exact ⟨p, hf⟩
  · rintro ⟨p, hp⟩
    exact ⟨p, _, hp, rfl⟩

theorem mem_stored {s : Store} {i : Str} {m : Metadata} :
    m ∈ stored s i ↔ m.artifactId = i ∧ ∃ p, s.get? p = some (.sidecar m) := by
  simp only [stored, List.mem_filter, mem_metas, decide_eq_true_eq, and_comm]

/-- A query lists the sidecars below its directory. -/
theorem mem_listMetadata {g : Listing} {s : Store} {project : Option Str} {phase wp : Option Name} {m : Metadata} :
    m ∈ listMetadata g s project phase wp ↔
      ∃ p, s.get? p = some (.sidecar m) ∧ listBase project phase wp <+: p.dir ∧ isSidecarName p.name = true := by
  simp only [listMetadata, List.mem_filterMap, Shuffle.mem_order, List.mem_filter, Prod.exists,
    Bool.and_eq_true, decide_eq_true_eq, ← Dict.get?_eq_some]
  constructor
  · rintro ⟨p, f, ⟨hf, hb⟩, hm⟩
    cases f with
    | markdown t => cases hm
    | sidecar m' =>
      cases hm
      exact ⟨p, hf, hb⟩
  · rintro ⟨p, hf, hb⟩
    exact ⟨p, _, ⟨hf, hb⟩, rfl⟩

/-- The sidecars are the `M`, each at its own place. -/
def Holds (s : Store) (M : Metadata → Prop) : Prop :=
  ∀ p m, s.get? p = some (.sidecar m) ↔ M m ∧ p = m.jsonPath

theorem Holds.congr {s : Store} {M M' : Metadata → Prop} (h : Holds s M) (hM : ∀ m, M m ↔ M' m) :
    Holds s M' := fun p m => by rw [h p m, hM]

theorem holds_empty : Holds Dict.empty fun _ => False := fun p m => by simp

/-- A markdown is written beside the sidecars. -/
theorem Holds.set_markdown {s : Store} {M : Metadata → Prop} (h : Holds s M) (m : Metadata) (text : Str) :
    Holds (s.set m.mdPath (.markdown text)) M := fun p m' => by
  rw [Dict.get?_set]
  split
  · rename_i hp
    subst hp
    simp only [Option.some.injEq, reduceCtorEq, false_iff, not_and]
    exact fun _ => buildPaths_md_ne_json
  · exact h p m'

/-- A sidecar is written over the one in its place. -/
theorem Holds.set_sidecar {s : Store} {M : Metadata → Prop} (h : Holds s M) (m : Metadata) :
    Holds (s.set m.jsonPath (.sidecar m)) fun m' => m' = m ∨ M m' ∧ m'.jsonPath ≠ m.jsonPath := fun p m' => by
  rw [Dict.get?_set]
  split
  · rename_i hp
    subst hp
    simp only [Option.some.injEq, File.sidecar.injEq]
    constructor
    · rintro rfl
      exact ⟨.inl rfl, rfl⟩
    · rintro ⟨rfl | ⟨-, hne⟩, he⟩
      · rfl
      · exact absurd he.symm hne
  · rename_i hp
    rw [h p m']
    constructor
    · rintro ⟨hm, rfl⟩
      exact ⟨.inr ⟨hm, hp⟩, rfl⟩
    · rintro ⟨rfl | ⟨hm, -⟩, he⟩
      · exact absurd he hp
      · exact ⟨hm, he⟩

/-! ## Saving -/

/-- The metadata that `save_artifact` stores. -/
def withPaths (m : Metadata) : Metadata :=
  { m with artifactPath := some m.mdPath, metadataPath := some m.jsonPath }

theorem saveArtifact_eq (s : Store) (m : Metadata) (content : Str) :
    saveArtifact s m content =
      ((s.set m.mdPath (.markdown content)).set m.jsonPath (.sidecar (withPaths m)), withPaths m) := rfl

theorem markdown_saveArtifact (s : Store) (m : Metadata) (content : Str) :
    (saveArtifact s m content).1.get? (saveArtifact s m content).2.mdPath = some (.markdown content) :=
  (Dict.get?_set_of_ne _ _ buildPaths_md_ne_json).trans (Dict.get?_set_self ..)

theorem updateMetadata_eq {m : Metadata} {p : Path} (s : Store) (h : m.metadataPath = some p) :
    updateMetadata s m = s.set p (.sidecar m) := by simp only [updateMetadata, h]

/-- What holds of the metadata of every stored version. -/
structure Filed (m : Metadata) : Prop where
  id : m.artifactId ≠ []
  slug : IsSlug m.projectSlug
  md : m.artifactPath = some m.mdPath
  json : m.metadataPath = some m.jsonPath
  history : m.statusHistory.getLast?.map (·.status) = some m.status

/-- `m'` is another state of the version that `m` is of. -/
structure SameVersion (m m' : Metadata) : Prop where
  id : m'.artifactId = m.artifactId
  version : m'.version = m.version
  slug : m'.projectSlug = m.projectSlug
  phase : m'.phase = m.phase
  wp : m'.wpId = m.wpId
  supersedes : m'.supersedes = m.supersedes
  artifactPath : m'.artifactPath = m.artifactPath
  metadataPath : m'.metadataPath = m.metadataPath

namespace SameVersion

variable {m m' : Metadata}

theorem refl (m : Metadata) : SameVersion m m := ⟨rfl, rfl, rfl, rfl, rfl, rfl, rfl, rfl⟩

theorem trans {m'' : Metadata} (h : SameVersion m m') (h' : SameVersion m' m'') : SameVersion m m'' :=
  ⟨h'.id.trans h.id, h'.version.trans h.version, h'.slug.trans h.slug, h'.phase.trans h.phase,
    h'.wp.trans h.wp, h'.supersedes.trans h.supersedes, h'.artifactPath.trans h.artifactPath,
    h'.metadataPath.trans h.metadataPath⟩

theorem jsonPath (h : SameVersion m m') : m'.jsonPath = m.jsonPath := by
  simp only [Metadata.jsonPath, h.id, h.version, h.slug, h.phase, h.wp]

theorem mdPath (h : SameVersion m m') : m'.mdPath = m.mdPath := by
  simp only [Metadata.mdPath, h.id, h.version, h.slug, h.phase, h.wp]

theorem filed (h : SameVersion m m') (hm : Filed m)
    (hh : m'.statusHistory.getLast?.map (·.status) = some m'.status) : Filed m' :=
  ⟨h.id ▸ hm.id, h.slug ▸ hm.slug, by rw [h.artifactPath, hm.md, h.mdPath],
    by rw [h.metadataPath, hm.json, h.jsonPath], hh⟩

end SameVersion

theorem sameVersion_recordStatusChange (m : Metadata) (now : UtcTime) (st : Status) (note : Str) :
    SameVersion m (recordStatusChange m now st note) := ⟨rfl, rfl, rfl, rfl, rfl, rfl, rfl, rfl⟩

theorem sameVersion_withReviewer (m : Metadata) (r : Option Str) : SameVersion m (withReviewer m r) := by
  unfold withReviewer
  split <;> exact ⟨rfl, rfl, rfl, rfl, rfl, rfl, rfl, rfl⟩

theorem history_recordStatusChange (m : Metadata) (now : UtcTime) (st : Status) (note : Str) :
    (recordStatusChange m now st note).statusHistory.getLast?.map (·.status) =
      some (recordStatusChange m now st note).status := by
  simp [recordStatusChange]

/-! ## The ledger -/

/-- Version `b` has replaced version `a`. -/
structure Next (a b : Metadata) : Prop where
  id : b.artifactId = a.artifactId
  status : a.status = .superseded
  by_ : a.supersededBy = some ⟨b.artifactId, b.version⟩
  supersedes : b.supersedes = some ⟨a.artifactId, a.version⟩
  version : b.version = a.version + 1
  slug : b.projectSlug = a.projectSlug
  phase : b.phase = a.phase
  wp : b.wpId = a.wpId

/-- The versions of one artifact: from version 1, all but the last superseded by the next. -/
abbrev Versions (l : List Metadata) : Prop :=
  Linked (fun m => m.version = 1) Next (fun m => m.status ≠ .superseded) l

/-- What a call does to the versions. -/
def ledgerStep (L : Ledger Str Metadata) (c : Call) : Ledger Str Metadata :=
  match c.op with
  | .generate project phase wpId title author reviewer refs _ =>
    L.create c.artifactId (withPaths (buildMetadata (c.env.now 0) project phase wpId title author reviewer refs
      c.artifactId 1 .draft none []))
  | .requestReview id reviewer _ => L.amend id (reviewRequested c.env reviewer)
  | .requestChanges id changes => L.amend id (changesRequested c.env (ensureList changes))
  | .approve id reviewer notes => L.amend id (approved c.env reviewer notes)
  | .revise id _ changes author =>
    L.extend id (fun m => withPaths (revisedFrom c.env author changes m)) (supersededBy c.env)

/-- The files hold the versions of the ledger. -/
structure Refines (s : Store) (L : Ledger Str Metadata) : Prop where
  holds : Holds s fun m => m ∈ L m.artifactId
  filed : ∀ i, ∀ m ∈ L i, m.artifactId = i ∧ Filed m
  versions : ∀ i, L i ≠ [] → Versions (L i)

theorem refines_empty : Refines Dict.empty fun _ => [] :=
  ⟨holds_empty.congr fun _ => by simp, fun _ _ h => absurd h List.not_mem_nil, fun _ h => absurd rfl h⟩

theorem Versions.isChain_version {l : List Metadata} (h : Versions l) :
    l.IsChain fun a b => b.version = a.version + 1 := h.link.imp fun _ _ hab => hab.version

/-- Versions under one id have sidecars of their own. -/
theorem jsonPath_inj {m m' : Metadata} (h : m.jsonPath = m'.jsonPath) :
    m.artifactId = m'.artifactId ∧ m.version = m'.version := buildPaths_json_inj h

/-- A version stays the next one of those it has replaced. -/
theorem SameVersion.next {a b b' : Metadata} (h : SameVersion b b') (hn : Next a b) : Next a b' where
  id := h.id.trans hn.id
  status := hn.status
  by_ := by rw [hn.by_, h.id, h.version]
  supersedes := h.supersedes.trans hn.supersedes
  version := h.version.trans hn.version
  slug := h.slug.trans hn.slug
  phase := h.phase.trans hn.phase
  wp := h.wp.trans hn.wp

namespace Refines

variable {s : Store} {L : Ledger Str Metadata} {i : Str} {l : List Metadata} {a : Metadata}

theorem mem_stored (h : Refines s L) {m : Metadata} : m ∈ stored s i ↔ m ∈ L i := by
  rw [KCore.Artifacts.mem_stored]
  constructor
  · rintro ⟨rfl, p, hp⟩
    exact ((h.holds p m).mp hp).1
  · intro hm
    have hi := (h.filed i m hm).1
    exact ⟨hi, m.jsonPath, (h.holds _ m).mpr ⟨by simpa only [hi] using hm, rfl⟩⟩

/-! ### What the queries find -/

theorem mem_listMetadata (h : Refines s L) {g : Listing} {project : Option Str} {phase wp : Option Name}
    {m : Metadata} : m ∈ listMetadata g s project phase wp ↔
      m ∈ L m.artifactId ∧ listBase project phase wp <+: m.jsonPath.dir := by
  rw [KCore.Artifacts.mem_listMetadata]
  constructor
  · rintro ⟨p, hp, hb, -⟩
    obtain ⟨hL, rfl⟩ := (h.holds p m).mp hp
    exact ⟨hL, hb⟩
  · rintro ⟨hL, hb⟩
    exact ⟨m.jsonPath, (h.holds _ m).mpr ⟨hL, rfl⟩, hb, isSidecarName_json ..⟩

theorem argmax_eq_some {f : Metadata → Nat} (ha : a ∈ l) (hlt : ∀ b ∈ l, b ≠ a → f b < f a) :
    l.argmax f = some a := by
  cases hm : l.argmax f with
  | none => exact absurd (List.argmax_eq_none.mp hm ▸ ha) List.not_mem_nil
  | some b =>
    have hb := List.argmax_mem hm
    have hle := List.le_of_mem_argmax ha hm
    by_contra hne
    exact absurd (hlt b hb fun h => hne (h ▸ rfl)) (Nat.not_lt.mpr hle)

/-- The latest version by id is the last of the ledger. -/
theorem latest (h : Refines s L) (g : Listing) (i : Str) : getLatestById g s i none = (L i).getLast? := by
  have hmem (m : Metadata) : m ∈ (listMetadata g s none none none).filter (·.artifactId = i) ↔ m ∈ L i := by
    simp only [List.mem_filter, h.mem_listMetadata, decide_eq_true_eq]
    constructor
    · rintro ⟨⟨hm, -⟩, rfl⟩
      exact hm
    · intro hm
      have hi := (h.filed i m hm).1
      exact ⟨⟨hi.symm ▸ hm, List.nil_prefix⟩, hi⟩
  rcases (L i).eq_nil_or_concat with hL | ⟨l, a, hL⟩
  · rw [getLatestById, hL, List.getLast?_nil, List.argmax_eq_none, List.eq_nil_iff_forall_not_mem]
    exact fun m hm => by simpa [hL] using (hmem m).mp hm
  · rw [List.concat_eq_append] at hL
    have hv := h.versions i (by simp [hL])
    rw [hL] at hv
    rw [getLatestById, hL, List.getLast?_concat]
    refine argmax_eq_some ((hmem a).mpr (by simp [hL])) fun b hb hne => ?_
    have := (hmem b).mp hb
    rw [hL, List.mem_append, List.mem_singleton] at this
    exact Linked.lt_last hv.isChain_version b (this.resolve_right hne)

/-! ### What the calls do -/

/-- A new artifact is saved. -/
theorem create (h : Refines s L) {m : Metadata} (hL : L m.artifactId = []) (hm : Filed m) (h1 : m.version = 1)
    (ho : m.status ≠ .superseded) (content : Str) :
    Refines ((s.set m.mdPath (.markdown content)).set m.jsonPath (.sidecar m)) (L.create m.artifactId m) := by
  refine ⟨((h.holds.set_markdown m content).set_sidecar m).congr fun m' => ?_, fun j m' hm' => ?_, fun j _ => ?_⟩
  · by_cases hj : m'.artifactId = m.artifactId
    · simp [hj, hL]
    · have hne : m'.jsonPath ≠ m.jsonPath := fun he => hj (jsonPath_inj he).1
      have hne' : m' ≠ m := fun he => hj (he ▸ rfl)
      simp [L.create_of_ne m hj, hne, hne']
  · by_cases hj : j = m.artifactId
    · subst hj
      rw [Ledger.create_self, List.mem_singleton] at hm'
      subst hm'
      exact ⟨rfl, hm⟩
    · exact h.filed j m' (by rwa [L.create_of_ne m hj] at hm')
  · by_cases hj : j = m.artifactId
    · subst hj
      rw [Ledger.create_self]
      exact .single h1 ho
    · rw [L.create_of_ne m hj] at *
      exact h.versions j ‹_›

theorem lt_last (h : Refines s L) (hL : L i = l ++ [a]) : ∀ m ∈ l, m.version < a.version := by
  have hv := h.versions i (by simp [hL])
  rw [hL] at hv
  exact Linked.lt_last hv.isChain_version

theorem le_last (h : Refines s L) (hL : L i = l ++ [a]) (m : Metadata) (hm : m ∈ l ++ [a]) :
    m.version ≤ a.version := by
  rcases List.mem_append.mp hm with hm | hm
  · exact (h.lt_last hL m hm).le
  · rw [List.mem_singleton.mp hm]

/-- The other versions of an artifact have other sidecars than the last. -/
theorem ne_last (h : Refines s L) (hL : L i = l ++ [a]) (m : Metadata) (hm : m ∈ l) : m.jsonPath ≠ a.jsonPath :=
  fun he => absurd (jsonPath_inj he).2 (h.lt_last hL m hm).ne

/-- The latest version's sidecar is rewritten. -/
theorem amend (h : Refines s L) {f : Metadata → Metadata} (hL : L i = l ++ [a]) (hf : SameVersion a (f a))
    (hh : (f a).statusHistory.getLast?.map (·.status) = some (f a).status) (ho : (f a).status ≠ .superseded) :
    Refines (updateMetadata s (f a)) (L.amend i f) := by
  obtain ⟨hi, ha⟩ := h.filed i a (by simp [hL])
  have hfa := hf.filed ha hh
  have hid : (f a).artifactId = i := hf.id.trans hi
  rw [updateMetadata_eq s hfa.json]
  refine ⟨(h.holds.set_sidecar (f a)).congr fun m => ?_, fun j m hm => ?_, fun j hj => ?_⟩
  · by_cases hm : m.artifactId = i
    · rw [hm, L.amend_self hL, hL, hf.jsonPath]
      simp only [List.mem_append, List.mem_singleton]
      constructor
      · rintro (rfl | ⟨hm' | rfl, hne⟩)
        · exact .inr rfl
        · exact .inl hm'
        · exact absurd rfl hne
      · rintro (hm' | rfl)
        · exact .inr ⟨.inl hm', h.ne_last hL m hm'⟩
        · exact .inl rfl
    · have hne : m.jsonPath ≠ (f a).jsonPath := fun he => hm ((jsonPath_inj he).1.trans hid)
      have hne' : m ≠ f a := fun he => hm (he ▸ hid)
      simp [L.amend_of_ne f hm, hne, hne']
  · by_cases hj : j = i
    · subst hj
      rw [L.amend_self hL, List.mem_append, List.mem_singleton] at hm
      rcases hm with hm | rfl
      · exact h.filed j m (by simp [hL, hm])
      · exact ⟨hid, hfa⟩
    · exact h.filed j m (by rwa [L.amend_of_ne f hj] at hm)
  · by_cases hji : j = i
    · subst hji
      rw [L.amend_self hL]
      have hv := h.versions j (by simp [hL])
      rw [hL] at hv
      exact hv.amend (fun h1 => hf.version.trans h1)
        (fun b hb => hf.next hb) ho
    · rw [L.amend_of_ne f hji] at hj ⊢
      exact h.versions j hj

/-- A next version is saved, and then the latest one's sidecar is rewritten. -/
theorem extend (h : Refines s L) {f : Metadata → Metadata} {close : Metadata → Metadata → Metadata}
    (hL : L i = l ++ [a]) (hb : Filed (f a)) (hbo : (f a).status ≠ .superseded)
    (ha : SameVersion a (close (f a) a)) (hah : (close (f a) a).statusHistory.getLast?.map (·.status) =
      some (close (f a) a).status) (hn : Next (close (f a) a) (f a)) (content : Str) :
    Refines (updateMetadata ((s.set (f a).mdPath (.markdown content)).set (f a).jsonPath (.sidecar (f a)))
      (close (f a) a)) (L.extend i f close) := by
  set b := f a with hbdef
  set a' := close b a with hadef
  obtain ⟨hi, hfa⟩ := h.filed i a (by simp [hL])
  have ha' := ha.filed hfa hah
  have hida : a'.artifactId = i := ha.id.trans hi
  have hidb : b.artifactId = i := hn.id.trans hida
  have hself : L.extend i f close i = l ++ [a', b] := L.extend_self hL
  have hv := h.versions i (by simp [hL])
  rw [hL] at hv
  have hba : b.version = a.version + 1 := hn.version.trans (by rw [ha.version])
  have hbne : ∀ m ∈ l ++ [a], m.jsonPath ≠ b.jsonPath := fun m hm he => by
    have := h.le_last hL m hm
    have := (jsonPath_inj he).2
    omega
  have hab : b.jsonPath ≠ a'.jsonPath := fun he => hbne a (by simp) (by rw [he, ha.jsonPath])
  rw [updateMetadata_eq _ ha'.json]
  refine ⟨(((h.holds.set_markdown b content).set_sidecar b).set_sidecar a').congr fun m => ?_,
    fun j m hm => ?_, fun j hj => ?_⟩
  · by_cases hm : m.artifactId = i
    · rw [hm, hself, hL, ha.jsonPath]
      simp only [List.mem_append, List.mem_cons, List.not_mem_nil, or_false]
      constructor
      · rintro (rfl | ⟨rfl | ⟨hm' | rfl, -⟩, hne⟩)
        · exact .inr (.inl rfl)
        · exact .inr (.inr rfl)
        · exact .inl hm'
        · exact absurd rfl hne
      · rintro (hm' | rfl | rfl)
        · exact .inr ⟨.inr ⟨.inl hm', hbne m (by simp [hm'])⟩, h.ne_last hL m hm'⟩
        · exact .inl rfl
        · exact .inr ⟨.inl rfl, fun he => hab (he.trans ha.jsonPath.symm)⟩
    · have hne (m' : Metadata) (h' : m'.artifactId = i) : m ≠ m' ∧ m.jsonPath ≠ m'.jsonPath :=
        ⟨fun he => hm (he ▸ h'), fun he => hm ((jsonPath_inj he).1.trans h')⟩
      simp [L.extend_of_ne f close hm, hne a' hida, hne b hidb]
  · by_cases hj : j = i
    · subst hj
      rw [hself] at hm
      simp only [List.mem_append, List.mem_cons, List.not_mem_nil, or_false] at hm
      rcases hm with hm | rfl | rfl
      · exact h.filed j m (by simp [hL, hm])
      · exact ⟨hida, ha'⟩
      · exact ⟨hidb, hb⟩
    · exact h.filed j m (by rwa [L.extend_of_ne f close hj] at hm)
  · by_cases hji : j = i
    · subst hji
      rw [hself]
      exact hv.extend (fun h1 => ha.version.trans h1) (fun c hc => ha.next hc) hn hbo
    · rw [L.extend_of_ne f close hji] at hj ⊢
      exact h.versions j hj

end Refines

/-! ## The calls -/

/-- A generation's id is not in use yet. -/
def Fresh (s : Store) (c : Call) : Prop :=
  match c.op with
  | .generate .. => c.artifactId ∉ (metas s).map (·.artifactId)
  | _ => True

instance (s : Store) (c : Call) : Decidable (Fresh s c) := by
  unfold Fresh
  cases c.op <;> infer_instance

theorem artifactIdOr_ne_nil (id : Str) (wp : Name) (t : UtcTime) (suffix : Str) :
    artifactIdOr id wp t suffix ≠ [] := by
  unfold artifactIdOr
  split
  · simp [newArtifactId]
  · assumption

/-! ### Review calls -/

/-- What `request_review`, `request_changes` and `approve` make of the metadata. -/
def Call.reviews (c : Call) : Option (Metadata → Metadata) :=
  match c.op with
  | .requestReview _ reviewer _ => some (reviewRequested c.env reviewer)
  | .requestChanges _ changes => some (changesRequested c.env (ensureList changes))
  | .approve _ reviewer notes => some (approved c.env reviewer notes)
  | .generate .. | .revise .. => none

/-- A review call is a change of the latest version's metadata. -/
theorem step_of_reviews {c : Call} {f : Metadata → Metadata} (hf : c.reviews = some f) (s : Store) :
    step s c = match getLatestById c.env.listing s c.artifactId none with
      | none => s
      | some m => updateMetadata s (f m) := by
  obtain ⟨env, op⟩ := c
  cases op with
  | generate | revise => cases hf
  | requestReview id reviewer checklist =>
    cases hf
    simp only [step, requestReview, Call.artifactId]
    cases getLatestById env.listing s id none <;> rfl
  | requestChanges id changes =>
    cases hf
    simp only [step, requestChanges, Call.artifactId]
    cases getLatestById env.listing s id none <;> rfl
  | approve id reviewer notes =>
    cases hf
    simp only [step, approve, Call.artifactId]
    cases getLatestById env.listing s id none <;> rfl

theorem ledgerStep_of_reviews {c : Call} {f : Metadata → Metadata} (hf : c.reviews = some f)
    (L : Ledger Str Metadata) : ledgerStep L c = L.amend c.artifactId f := by
  obtain ⟨env, op⟩ := c
  cases op <;> cases hf <;> rfl

theorem sameVersion_of_reviews {c : Call} {f : Metadata → Metadata} (hf : c.reviews = some f) (m : Metadata) :
    SameVersion m (f m) := by
  obtain ⟨env, op⟩ := c
  cases op with
  | generate | revise => cases hf
  | requestReview id reviewer checklist =>
    cases hf
    exact (sameVersion_withReviewer m reviewer).trans (sameVersion_recordStatusChange ..)
  | requestChanges id changes => cases hf; exact ⟨rfl, rfl, rfl, rfl, rfl, rfl, rfl, rfl⟩
  | approve id reviewer notes =>
    cases hf
    exact (sameVersion_withReviewer m reviewer).trans ⟨rfl, rfl, rfl, rfl, rfl, rfl, rfl, rfl⟩

/-- A review call records a status, and not that of a superseded version. -/
theorem history_of_reviews {c : Call} {f : Metadata → Metadata} (hf : c.reviews = some f) (m : Metadata) :
    (f m).statusHistory.getLast?.map (·.status) = some (f m).status ∧ (f m).status ≠ .superseded := by
  obtain ⟨env, op⟩ := c
  cases op <;> cases hf <;> exact ⟨history_recordStatusChange .., Status.noConfusion⟩

/-! ### What one call does -/

theorem sameVersion_supersededBy (env : Env) (new m : Metadata) : SameVersion m (supersededBy env new m) :=
  ⟨rfl, rfl, rfl, rfl, rfl, rfl, rfl, rfl⟩

theorem next_supersededBy (env : Env) (author : Option Str) (changes : Raw) {m : Metadata} (h : Filed m) :
    Next (supersededBy env (withPaths (revisedFrom env author changes m)) m)
      (withPaths (revisedFrom env author changes m)) where
  id := if_neg h.id
  status := rfl
  by_ := rfl
  supersedes := rfl
  version := rfl
  slug := h.slug.normalizeProjectSlug_eq
  phase := rfl
  wp := rfl

/-- The metadata of a version that nothing has happened to yet. -/
structure New (m : Metadata) : Prop where
  filed : Filed m
  locked : m.locked = false
  history : ∃ date note, m.statusHistory = [⟨.draft, date, note⟩]

theorem New.status {m : Metadata} (h : New m) : m.status = .draft := by
  obtain ⟨date, note, hh⟩ := h.history
  simpa [hh] using h.filed.history.symm

theorem new_withPaths {m : Metadata} (hi : m.artifactId ≠ []) (hs : IsSlug m.projectSlug) (hl : m.locked = false)
    (hm : m.status = .draft) {date note : Str} (hh : m.statusHistory = [⟨.draft, date, note⟩]) : New (withPaths m) :=
  ⟨⟨hi, hs, rfl, rfl, by simp [withPaths, hh, hm]⟩, hl, date, note, hh⟩

/-- The files and the versions after a call. -/
inductive Effect (s : Store) (L : Ledger Str Metadata) (c : Call) : Store → Ledger Str Metadata → Prop
  | missing (h : L c.artifactId = []) : Effect s L c s L
  | created (m : Metadata) (content : Str) (hc : c.reviews = none) (hi : m.artifactId = c.artifactId)
      (h : Fresh s c → L c.artifactId = []) (h1 : m.version = 1) (hm : New m) :
      Effect s L c ((s.set m.mdPath (.markdown content)).set m.jsonPath (.sidecar m)) (L.create m.artifactId m)
  | reviewed (f : Metadata → Metadata) (hf : c.reviews = some f) (l : List Metadata) (a : Metadata)
      (h : L c.artifactId = l ++ [a]) : Effect s L c (updateMetadata s (f a)) (L.amend c.artifactId f)
  | revised (f : Metadata → Metadata) (content : Str) (hc : c.reviews = none) (l : List Metadata) (a : Metadata)
      (h : L c.artifactId = l ++ [a]) (hn : Next (supersededBy c.env (f a) a) (f a)) (hb : New (f a)) :
      Effect s L c
        (updateMetadata ((s.set (f a).mdPath (.markdown content)).set (f a).jsonPath (.sidecar (f a)))
          (supersededBy c.env (f a) a))
        (L.extend c.artifactId f (supersededBy c.env))

theorem Refines.eq_nil_of_fresh {s : Store} {L : Ledger Str Metadata} {i : Str} (h : Refines s L)
    (hi : i ∉ (metas s).map (·.artifactId)) : L i = [] := by
  rw [List.eq_nil_iff_forall_not_mem]
  intro m hm
  obtain ⟨hi', p, hp⟩ := KCore.Artifacts.mem_stored.mp (h.mem_stored.mpr hm)
  exact hi (List.mem_map.mpr ⟨m, mem_metas.mpr ⟨p, hp⟩, hi'⟩)

theorem Refines.effect {s : Store} {L : Ledger Str Metadata} (h : Refines s L) (c : Call) :
    Effect s L c (step s c) (ledgerStep L c) := by
  have hcases := (L c.artifactId).eq_nil_or_concat
  simp only [List.concat_eq_append] at hcases
  cases hf : c.reviews with
  | some f =>
    rw [step_of_reviews hf, ledgerStep_of_reviews hf, h.latest]
    rcases hcases with hL | ⟨l, a, hL⟩
    · simpa [hL, Ledger.amend] using .missing hL
    · simpa only [hL, List.getLast?_concat] using Effect.reviewed f hf l a hL
  | none =>
    obtain ⟨env, op⟩ := c
    cases op with
    | requestReview | requestChanges | approve => cases hf
    | generate project phase wpId title author reviewer refs content =>
      exact .created (withPaths (buildMetadata (env.now 0) project phase wpId title author reviewer refs _ 1 .draft
        none [])) content hf rfl h.eq_nil_of_fresh rfl (new_withPaths (artifactIdOr_ne_nil [] wpId _ _)
        (isSlug_normalizeProjectSlug project) rfl rfl rfl)
    | revise id content changes author =>
      simp only [step, ledgerStep, revise, h.latest]
      rcases hcases with hL | ⟨l, a, hL⟩
      · simp only [Call.artifactId] at hL
        simpa [hL, Ledger.extend] using .missing hL
      · have ha := (h.filed _ a (by rw [hL]; simp)).2
        simp only [Call.artifactId] at hL
        simp only [hL, List.getLast?_concat, saveArtifact_eq]
        exact .revised (fun m => withPaths (revisedFrom env author changes m)) _ hf l a hL
          (next_supersededBy env author changes ha) (new_withPaths (artifactIdOr_ne_nil _ _ _ _)
          (isSlug_normalizeProjectSlug _) rfl rfl rfl)

theorem Effect.refines {s s' : Store} {L L' : Ledger Str Metadata} {c : Call} (e : Effect s L c s' L')
    (h : Refines s L) (hc : Fresh s c) : Refines s' L' := by
  cases e with
  | missing => exact h
  | created m content _ hi hL h1 hm =>
    exact h.create (hi ▸ hL hc) hm.filed h1 (by rw [hm.status]; exact Status.noConfusion) content
  | reviewed f hf l a hL =>
    obtain ⟨hh, ho⟩ := history_of_reviews hf a
    exact h.amend hL (sameVersion_of_reviews hf a) hh ho
  | revised f content _ l a hL hn hb =>
    exact h.extend hL hb.filed (by rw [hb.status]; exact Status.noConfusion) (sameVersion_supersededBy ..)
      (history_recordStatusChange ..) hn content

/-- Every call does to the files what `ledgerStep` does to the versions. -/
theorem step_refines {s : Store} {L : Ledger Str Metadata} {c : Call} (h : Refines s L) (hc : Fresh s c) :
    Refines (step s c) (ledgerStep L c) := (h.effect c).refines h hc

/-- After a run from an empty workspace the files hold the versions of a ledger. -/
theorem run_refines {cs : List Call} (h : Machine.Along step Fresh Dict.empty cs) :
    Refines (Machine.run step Dict.empty cs) (Machine.run ledgerStep (fun _ => []) cs) :=
  Machine.run_simulation (fun _ _ _ => step_refines) refines_empty h

end KCore.Artifacts
