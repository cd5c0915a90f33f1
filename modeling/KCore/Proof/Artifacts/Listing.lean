import KCore.Lib.MapM
import KCore.Impl.Artifacts.CoreTools
import KCore.Proof.Artifacts.Versions

/-!
# Listing by project, phase and work product

`list_metadata` turns its filters into one directory, which is the right one where
each filter comes with the outer ones. Otherwise the names stand one level too far
out, and what is listed is what was asked for only as long as no stored version
tells the levels apart (`list_metadata_iff`). What the listing tool shows are the
latest versions of what it is given (`latestOf_latestVersions`).
-/

namespace KCore.Artifacts.CoreTools

open Text

/-- The filters of a listing. -/
structure Filters where
  projectSlug : Option Str
  phase : Option Name
  wpId : Option Name

/-- The project asked for; an empty slug is none. -/
def Filters.project (f : Filters) : Option Str := (f.projectSlug.filter (· ≠ [])).map normalizeProjectSlug

/-- A version that matches every filter given. -/
def Filters.Matches (f : Filters) (m : Metadata) : Prop :=
  (∀ slug ∈ f.project, normalizeProjectSlug m.projectSlug = slug) ∧ (∀ phase ∈ f.phase, m.phase = phase) ∧
    ∀ wp ∈ f.wpId, m.wpId = wp

instance (f : Filters) : DecidablePred f.Matches := fun _ => inferInstanceAs (Decidable (_ ∧ _ ∧ _))

/-- The directory that is searched. -/
def Filters.base (f : Filters) : Base := baseOf f.projectSlug (f.phase.map Name.val) (f.wpId.map Name.val)

/-- Where a filter comes without the outer ones, its name stands at the outer levels, and the version does not tell
that from what is asked for. -/
def Filters.Same (f : Filters) (m : Metadata) : Prop :=
  match f.project, f.phase, f.wpId with
  | none, some phase, none => normalizeProjectSlug m.projectSlug = phase.val ↔ m.phase = phase
  | none, none, some wp => normalizeProjectSlug m.projectSlug = wp.val ↔ m.wpId = wp
  | none, some phase, some wp =>
    normalizeProjectSlug m.projectSlug = phase.val ∧ m.phase = wp ↔ m.phase = phase ∧ m.wpId = wp
  | some slug, none, some wp => normalizeProjectSlug m.projectSlug = slug → (m.phase = wp ↔ m.wpId = wp)
  | _, _, _ => True

/-- Every artifact of the versions, once and in the order of the ids, with its latest version. -/
structure LatestOf (versions artifacts : List Metadata) : Prop where
  sorted : artifacts.Pairwise (·.artifactId < ·.artifactId)
  latest : ∀ m ∈ artifacts, m ∈ versions ∧ ∀ m' ∈ versions, m'.artifactId = m.artifactId → m'.version ≤ m.version
  all : ∀ m ∈ versions, m.artifactId ≠ [] → ∃ m' ∈ artifacts, m'.artifactId = m.artifactId

/-- What the listing tool shows of the versions that match. -/
def Shows (projectSlug : Str) (versions : List Metadata) (answer : Option Str) : Prop :=
  if versions = [] then answer = some (nothingFound projectSlug)
  else ∃ artifacts, LatestOf versions artifacts ∧ answer = some (listingText projectSlug artifacts)

/-- `list_metadata` gives the matching versions, and the listing tool shows them where its input says these filters. -/
structure Lists (p : Platform) (w : World) (f : Filters) : Prop where
  found : ∃ versions : List Metadata, findMetadata p w.store f.base = some (versions.map some) ∧
    versions.Perm ((metas w.store).filter f.Matches)
  shown : ∀ toolInput data, parseToolInput p toolInput = some (.dict data) →
    f.projectSlug = some (getProjectSlug (p.config w) data w.memory).1 →
    pathArg (data.value "phase".toList) = some (f.phase.map Name.val) →
    pathArg (data.value "wp_id".toList) = some (f.wpId.map Name.val) →
    Shows (getProjectSlug (p.config w) data w.memory).1
      (withStatus (data.value "status".toList) ((metas w.store).filter f.Matches))
      (call p w toolInput .listIso26262Artifacts).1

/-- The store after saving artifacts, each with its content. -/
def saveAll (saves : List (Metadata × Str)) : Store := saves.foldl (fun s e => (saveArtifact s e.1 e.2).1) .empty

/-! ## The store -/

/-- Every sidecar is at its own place. -/
def Placed (s : Store) : Prop := ∃ M, Holds s M

theorem Placed.save {s : Store} (h : Placed s) (m : Metadata) (content : Str) : Placed (saveArtifact s m content).1 := by
  obtain ⟨M, hM⟩ := h
  exact ⟨_, (hM.set_markdown m content).set_sidecar (withPaths m)⟩

theorem placed_saveAll (saves : List (Metadata × Str)) : Placed (saveAll saves) := by
  have h : ∀ (saves : List (Metadata × Str)) (s : Store), Placed s →
      Placed (saves.foldl (fun s e => (saveArtifact s e.1 e.2).1) s) := by
    intro saves
    induction saves with
    | nil => exact fun s hs => hs
    | cons e saves ih => exact fun s hs => ih _ (hs.save e.1 e.2)
  exact h saves _ ⟨_, holds_empty⟩

/-- The directory of a version. -/
def dirOf (m : Metadata) : List Str := [normalizeProjectSlug m.projectSlug, m.phase.val, m.wpId.val]

theorem below_perm {s : Store} (hs : Placed s) (g : Listing) (dir : List Str) :
    (below g s dir).Perm ((metas s).filter fun m => dir <+: dirOf m) := by
  obtain ⟨M, hM⟩ := hs
  refine ((g.perm _).filterMap _).trans ?_
  rw [List.filterMap_filter, metas, List.filter_filterMap]
  refine .of_eq (List.filterMap_congr fun e he => ?_)
  obtain ⟨path, file⟩ := e
  cases file with
  | markdown t => simp [loadMetadata]
  | sidecar m =>
    obtain rfl := ((hM path m).mp (Dict.get?_eq_some.mpr he)).2
    have hn : isSidecarName m.jsonPath.name = true := isSidecarName_json ..
    have hd : m.jsonPath.dir = dirOf m := rfl
    by_cases h : dir <+: dirOf m <;> simp [loadMetadata, hn, hd, h, Option.filter]

theorem mem_filter_iff_of_perm {α : Type*} {P Q : α → Prop} [DecidablePred P] [DecidablePred Q] {l : List α} :
    (l.filter P).Perm (l.filter Q) ↔ ∀ a ∈ l, P a ↔ Q a := by
  constructor
  · intro h a ha
    have hm := h.mem_iff (a := a)
    simpa [List.mem_filter, ha] using hm
  · intro h
    exact .of_eq (List.filter_congr fun a ha => decide_eq_decide.mpr (h a ha))

/-! ## Directories -/

theorem join_name (b : Base) (n : Name) : b.join n.val = ⟨b.absolute, b.parts ++ [n.val]⟩ := by
  obtain ⟨hne, hslash, hdot, _⟩ := n.ok
  have hs : split '/' n.val = [n.val] := by
    have := @split_join '/' [n.val] (by simp) (by simpa using hslash)
    rwa [join_singleton] at this
  have hh : n.val.head? ≠ some '/' := fun h => hslash (List.mem_of_mem_head? h)
  rw [Base.join, if_neg hh, hs]
  have hd : n.val ≠ ['.'] := hdot
  simp [hne, hd]

/-- The names of the filters given, the outer ones first. -/
def Filters.dir (f : Filters) : List Str :=
  f.project.toList ++ (f.phase.map Name.val).toList ++ (f.wpId.map Name.val).toList

theorem base_eq (f : Filters) : f.base = ⟨false, f.dir⟩ := by
  obtain ⟨slug, phase, wp⟩ := f
  have hn : ∀ n : Name, Option.filter (· ≠ []) (some n.val) = some n.val := fun n => by simp [n.ok.1]
  have hp : ((slug.filter (· ≠ [])).map projectRoot).getD [] =
      ((slug.filter (· ≠ [])).map normalizeProjectSlug).toList := by
    cases slug.filter (· ≠ []) <;> rfl
  unfold Filters.base Filters.dir Filters.project baseOf
  rw [hp]
  cases phase <;> cases wp <;>
    simp only [Option.map_none, Option.map_some, Option.filter_none, hn, join_name, Option.getD_none, Option.getD_some,
      Option.toList_none, Option.toList_some, List.append_nil]

theorem inside_base (f : Filters) : f.base.inside = true := by
  have hs : ∀ s : Str, normalizeProjectSlug s ≠ "..".toList := fun s h => by
    have hc := (isSlug_normalizeProjectSlug s).chars '.' (by rw [h]; decide)
    exact absurd hc (by decide)
  have hd : "..".toList ∉ f.dir := by
    simp only [Filters.dir, Filters.project, List.mem_append, Option.mem_toList, Option.map_eq_some_iff, not_or,
      not_exists, not_and]
    exact ⟨⟨fun s _ => hs s, fun n _ => n.ok.2.2.2⟩, fun n _ => n.ok.2.2.2⟩
  rw [base_eq]
  simpa [Base.inside] using hd

/-- The names of the filters begin the directory of a version just where it matches, or does not tell the levels
apart. -/
theorem prefix_iff (f : Filters) (m : Metadata) : (f.dir <+: dirOf m ↔ f.Matches m) ↔ f.Same m := by
  have hv : ∀ a b : Name, a.val = b.val ↔ b = a := fun a b => by
    rw [Name.mk.injEq, eq_comm]
  unfold Filters.dir Filters.Matches Filters.Same dirOf
  cases f.project with
  | none =>
    cases f.phase <;> cases f.wpId <;> simp [List.cons_prefix_cons, hv, eq_comm]
  | some slug =>
    cases f.phase <;> cases f.wpId <;> simp [List.cons_prefix_cons, hv, eq_comm]

/-! ## The latest versions -/

/-- The loop holds the latest of the versions seen. -/
structure Seen (seen : List Metadata) (latest : Dict Str Metadata) : Prop where
  id {i : Str} {m : Metadata} : latest.get? i = some m → i ≠ [] ∧ m.artifactId = i ∧ m ∈ seen
  le {i : Str} {m : Metadata} : latest.get? i = some m → ∀ m' ∈ seen, m'.artifactId = i → m'.version ≤ m.version
  all : ∀ m ∈ seen, m.artifactId ≠ [] → ∃ m', latest.get? m.artifactId = some m'

theorem seen_empty : Seen [] Dict.empty := ⟨by simp, by simp, by simp⟩

/-- A version that does not come in place of another: it has no id, or there is a later one. -/
theorem Seen.skip {seen : List Metadata} {latest : Dict Str Metadata} (h : Seen seen latest) {m : Metadata}
    (hm : m.artifactId ≠ [] → ∃ old, latest.get? m.artifactId = some old ∧ m.version ≤ old.version) :
    Seen (seen ++ [m]) latest := by
  refine ⟨fun hi => ?_, fun {i m₁} hi m' hm' he => ?_, fun m' hm' hne => ?_⟩
  · obtain ⟨hne, hid, hmem⟩ := h.id hi
    exact ⟨hne, hid, List.mem_append_left _ hmem⟩
  · rcases List.mem_append.mp hm' with hm' | hm'
    · exact h.le hi m' hm' he
    · obtain rfl := List.mem_singleton.mp hm'
      obtain ⟨old, ho, hle⟩ := hm (he ▸ (h.id hi).1)
      obtain rfl : old = m₁ := Option.some.inj (ho.symm.trans (he ▸ hi))
      exact hle
  · rcases List.mem_append.mp hm' with hm' | hm'
    · exact h.all m' hm' hne
    · obtain rfl := List.mem_singleton.mp hm'
      obtain ⟨old, ho, _⟩ := hm hne
      exact ⟨old, ho⟩

/-- A version that comes in, with none as late before it. -/
theorem Seen.put {seen : List Metadata} {latest : Dict Str Metadata} (h : Seen seen latest) {m : Metadata}
    (hne : m.artifactId ≠ []) (hm : ∀ old, latest.get? m.artifactId = some old → old.version ≤ m.version) :
    Seen (seen ++ [m]) (latest.set m.artifactId m) := by
  have hle : ∀ m' ∈ seen, m'.artifactId = m.artifactId → m'.version ≤ m.version := by
    intro m' hm' he
    obtain ⟨old, ho⟩ := h.all m' hm' (he ▸ hne)
    exact (h.le ho m' hm' rfl).trans (hm old (he ▸ ho))
  refine ⟨fun {i m₁} hi => ?_, fun {i m₁} hi m' hm' he => ?_, fun m' hm' hne' => ?_⟩
  · rw [Dict.get?_set] at hi
    split at hi
    · rename_i hk
      obtain rfl := Option.some.inj hi
      exact ⟨hk ▸ hne, hk.symm, by simp⟩
    · obtain ⟨hne, hid, hmem⟩ := h.id hi
      exact ⟨hne, hid, List.mem_append_left _ hmem⟩
  · rw [Dict.get?_set] at hi
    split at hi
    · rename_i hk
      obtain rfl := Option.some.inj hi
      rcases List.mem_append.mp hm' with hm' | hm'
      · exact hle m' hm' (he.trans hk)
      · rw [List.mem_singleton.mp hm']
    · rename_i hk
      rcases List.mem_append.mp hm' with hm' | hm'
      · exact h.le hi m' hm' he
      · exact absurd (List.mem_singleton.mp hm' ▸ he.symm) hk
  · by_cases hk : m'.artifactId = m.artifactId
    · exact ⟨m, by rw [hk, Dict.get?_set_self]⟩
    · rcases List.mem_append.mp hm' with hm' | hm'
      · obtain ⟨old, ho⟩ := h.all m' hm' hne'
        exact ⟨old, by rw [Dict.get?_set_of_ne _ _ hk, ho]⟩
      · exact absurd (congrArg Metadata.artifactId (List.mem_singleton.mp hm')) hk

theorem Seen.step {seen : List Metadata} {latest : Dict Str Metadata} (h : Seen seen latest) (m : Metadata) :
    Seen (seen ++ [m]) (latestStep latest m) := by
  unfold latestStep
  split
  · rename_i hi
    exact h.skip fun hne => absurd hi hne
  · rename_i hne
    cases ho : latest.get? m.artifactId with
    | none => exact h.put hne fun old hold => by simp [ho] at hold
    | some old =>
      dsimp only
      split
      · rename_i hlt
        refine h.put hne fun old' hold => ?_
        rw [ho] at hold
        cases hold
        omega
      · exact h.skip fun _ => ⟨old, ho, by omega⟩

theorem seen_foldl : ∀ (versions seen : List Metadata) (latest : Dict Str Metadata), Seen seen latest →
    Seen (seen ++ versions) (versions.foldl latestStep latest)
  | [], seen, latest, h => by rwa [List.append_nil]
  | m :: versions, seen, latest, h => by
    have ih := seen_foldl versions (seen ++ [m]) (latestStep latest m) (h.step m)
    rwa [List.append_assoc] at ih

theorem mem_latestVersions {versions : List Metadata} {m : Metadata} :
    m ∈ latestVersions versions ↔ ∃ i, (versions.foldl latestStep .empty).get? i = some m := by
  simp only [latestVersions, List.mem_map, mem_stableSort, Prod.exists, exists_eq_right, Dict.get?_eq_some]

theorem latestOf_latestVersions (versions : List Metadata) : LatestOf versions (latestVersions versions) := by
  have h : Seen versions (versions.foldl latestStep .empty) := seen_foldl versions [] .empty seen_empty
  refine ⟨?_, fun m hm => ?_, fun m hm hne => ?_⟩
  · set d := versions.foldl latestStep .empty with hd
    have hid : ∀ e ∈ stableSort Prod.fst d.entries, e.2.artifactId = e.1 := fun e he =>
      (h.id (Dict.get?_eq_some.mpr (mem_stableSort.mp he))).2.1
    have hnodup : ((stableSort Prod.fst d.entries).map Prod.fst).Nodup :=
      (stableSort_perm.map Prod.fst).nodup_iff.mpr d.nodup
    have hlt : (stableSort Prod.fst d.entries).Pairwise fun a b => a.1 < b.1 :=
      (pairwise_le_stableSort.and (List.pairwise_map.mp hnodup)).imp fun hab => lt_of_le_of_ne hab.1 hab.2
    rw [latestVersions, List.pairwise_map]
    exact hlt.imp_of_mem fun {a b} ha hb hab => by rwa [hid a ha, hid b hb]
  · obtain ⟨i, hi⟩ := mem_latestVersions.mp hm
    obtain ⟨_, hid, hmem⟩ := h.id hi
    exact ⟨hmem, fun m' hm' he => h.le hi m' hm' (he.trans hid)⟩
  · obtain ⟨m', hm'⟩ := h.all m hm hne
    exact ⟨m', mem_latestVersions.mpr ⟨_, hm'⟩, (h.id hm').2.1⟩

/-! ## The tool -/

theorem LatestOf.congr {versions versions' artifacts : List Metadata} (h : LatestOf versions artifacts)
    (hp : ∀ m, m ∈ versions ↔ m ∈ versions') : LatestOf versions' artifacts :=
  ⟨h.sorted, fun m hm => ⟨(hp m).mp (h.latest m hm).1, fun m' hm' => (h.latest m hm).2 m' ((hp m').mpr hm')⟩,
    fun m hm => h.all m ((hp m).mpr hm)⟩

theorem withStatus_perm {versions versions' : List Metadata} (status : Value) (h : versions.Perm versions') :
    (withStatus status versions).Perm (withStatus status versions') := by
  unfold withStatus
  split
  · exact h.filter _
  · exact h

theorem shows_listing {p : Platform} {s : Store} {base : Base} {found versions : List Metadata} {slug : Str}
    {status : Value} (hf : findMetadata p s base = some (found.map some)) (hp : found.Perm versions) :
    Shows slug (withStatus status versions) (listing p s slug base status) := by
  have hperm := withStatus_perm status hp
  rw [listing, hf, Option.bind_some, MapM.id_map_some, Option.map_some]
  unfold Shows
  have hnil : withStatus status found = [] ↔ withStatus status versions = [] := by
    rw [← List.length_eq_zero_iff, ← List.length_eq_zero_iff, hperm.length_eq]
  by_cases hv : withStatus status versions = []
  · rw [if_pos hv, if_pos (hnil.mpr hv)]
  · rw [if_neg hv, if_neg fun h => hv (hnil.mp h)]
    exact ⟨_, (latestOf_latestVersions _).congr fun m => hperm.mem_iff, rfl⟩

/-- A listing is right just when its directory can be looked up and no stored version tells the levels of the filters
apart. -/
theorem list_metadata_iff (p : Platform) (memory settings : Values) (saves : List (Metadata × Str)) (f : Filters) :
    Lists p ⟨memory, settings, saveAll saves⟩ f ↔
      p.raises f.base = false ∧ ∀ m ∈ metas (saveAll saves), f.Same m := by
  have hperm := below_perm (placed_saveAll saves) p.listing f.dir
  have hfind : findMetadata p (saveAll saves) f.base =
      if p.raises f.base then none else some ((below p.listing (saveAll saves) f.dir).map some) := by
    rw [findMetadata, inside_base, base_eq]
    rfl
  constructor
  · intro h
    obtain ⟨versions, hv, hp⟩ := h.found
    change findMetadata p (saveAll saves) f.base = _ at hv
    rw [hfind] at hv
    split at hv
    · cases hv
    · rename_i hr
      obtain rfl := List.map_injective_iff.mpr (Option.some_injective _) (Option.some.inj hv)
      refine ⟨by simpa using hr, fun m hm => (prefix_iff f m).mp ?_⟩
      exact mem_filter_iff_of_perm.mp (hperm.symm.trans hp) m hm
  · intro ⟨hr, hs⟩
    have hfound : findMetadata p (saveAll saves) f.base = some ((below p.listing (saveAll saves) f.dir).map some) := by
      rw [hfind, hr]
      rfl
    have hmatch := hperm.trans (mem_filter_iff_of_perm.mpr fun m hm => (prefix_iff f m).mpr (hs m hm))
    refine ⟨⟨_, hfound, hmatch⟩, fun toolInput data hd hslug hphase hwp => ?_⟩
    have hcall : (call p ⟨memory, settings, saveAll saves⟩ toolInput .listIso26262Artifacts).1 =
        listing p (saveAll saves) (getProjectSlug (p.config ⟨memory, settings, saveAll saves⟩) data memory).1 f.base
          (data.value "status".toList) := by
      simp only [call, listArtifacts, withData, hd, hphase, hwp, Option.bind_some, Filters.base, hslug]
    rw [hcall]
    exact shows_listing hfound hmatch

/-- A functional safety concept of the project `demo`. -/
def demoConcept : Metadata where
  artifactId := "fsc-1".toList
  wpId := ⟨"fsc".toList, by decide⟩
  title := "FSC".toList
  phase := ⟨"concept".toList, concept_ok⟩
  projectSlug := "demo".toList
  version := 1
  status := .draft
  createdAt := []
  updatedAt := []
  author := []
  reviewer := []
  reviewNotes := []
  approvedAt := []
  locked := false
  supersedes := none
  changeRequests := []
  upstreamRefs := []
  statusHistory := []
  supersededBy := none
  artifactPath := none
  metadataPath := none

/-- A platform on which every input is the JSON object with this project and work product. -/
def wpPlatform : Platform where
  loads := fun _ => .object ((Dict.empty.set "project_slug".toList (.text "demo".toList)).set "wp_id".toList
    (.text "fsc".toList))
  envSlug := none
  workspaceRoot := "/work".toList
  savable := true
  listing := .id
  raises := fun _ => false
  outside := fun _ => []

/-- Without the phase, the work product is looked for among the phases, and without the project, the phase among the
projects: nothing is found. -/
theorem wp_without_phase_lost : let w : World := ⟨.empty, .empty, saveAll [(demoConcept, [])]⟩
    (metas w.store).length = 1 ∧
    (call wpPlatform w ['w'] .listIso26262Artifacts).1 = some (nothingFound "demo".toList) ∧
    ¬Lists wpPlatform w ⟨some "demo".toList, none, some demoConcept.wpId⟩ ∧
    ¬Lists wpPlatform w ⟨none, some demoConcept.phase, none⟩ := by
  intro w
  have hlost : ∀ f : Filters, findMetadata wpPlatform w.store f.base = some [] →
      (metas w.store).filter f.Matches ≠ [] → ¬Lists wpPlatform w f := by
    intro f hf hne h
    obtain ⟨versions, hv, hp⟩ := h.found
    rw [hf] at hv
    obtain rfl : versions = [] := List.map_eq_nil_iff.mp (Option.some.inj hv).symm
    exact hne hp.nil_eq.symm
  exact ⟨by decide, by decide, hlost _ (by decide) (by decide), hlost _ (by decide) (by decide)⟩

end KCore.Artifacts.CoreTools
