import KCore.Proof.Artifacts.Writes

/-!
# Calls that stop

What a call that stops at any point may leave, and what later calls make of it. The stores of such runs
are `Orderly`: the sidecars that parse have numbers of their own, and files of all the numbers
before. `Holding a` says that a version `a` is still what it was and that its number will not be given
again; every later call keeps it (`Holding.step`). A stopped call keeps it but where it cuts off
the sidecar of the latest version, and an earlier one has a sidecar left (`approved_survives_iff`).
-/

namespace KCore.Artifacts

open Text Machine

/-! ## Orderly stores -/

/-- A sidecar file of the version, whatever is in it. -/
def HasSidecar (s : Store) (i : Str) (v : Nat) : Prop := ∃ slug phase wp, (buildPaths slug phase wp i v).2 ∈ s

structure Orderly (s : Store) : Prop where
  placed : Placed s
  unique : ∀ m ∈ metas s, ∀ m' ∈ metas s, m.artifactId = m'.artifactId → m.version = m'.version → m = m'
  numbered : ∀ m ∈ metas s, ∀ v, 1 ≤ v → v ≤ m.version → HasSidecar s m.artifactId v

/-- A generation's id has no file yet. -/
def Unused (s : Store) (c : Call) : Prop := c.Generates → ∀ p ∈ s, ¬Owns c.artifactId p

theorem HasSidecar.set {s : Store} {i : Str} {v : Nat} (h : HasSidecar s i v) (p : Path) (f : File) :
    HasSidecar (s.set p f) i v := by
  obtain ⟨slug, phase, wp, h⟩ := h
  exact ⟨slug, phase, wp, Dict.mem_set.mpr (.inr h)⟩

theorem orderly_empty : Orderly Dict.empty :=
  ⟨⟨holds_metas holds_empty, fun _ hm => absurd hm List.not_mem_nil⟩, fun _ hm => absurd hm List.not_mem_nil,
    fun _ hm => absurd hm List.not_mem_nil⟩

namespace Orderly

variable {s : Store} {a : Metadata}

/-- A text is written, or a file is cut off. -/
theorem set_text (h : Orderly s) (p : Path) (text : Str) : Orderly (s.set p (.markdown text)) := by
  have hmem {m : Metadata} (hm : m ∈ metas (s.set p (.markdown text))) : m ∈ metas s :=
    ((h.placed.mem_set_text p text).mp hm).1
  refine ⟨h.placed.set_text p text, fun m hm m' hm' => h.unique m (hmem hm) m' (hmem hm'), fun m hm v h1 hv => ?_⟩
  exact (h.numbered m (hmem hm) v h1 hv).set p _

theorem set_sidecar (h : Orderly s) (ha : Filed a)
    (hu : ∀ m ∈ metas s, m.artifactId = a.artifactId → m.version = a.version → m.jsonPath = a.jsonPath)
    (hn : ∀ v, 1 ≤ v → v < a.version → HasSidecar s a.artifactId v) : Orderly (s.set a.jsonPath (.sidecar a)) := by
  have hmem {m : Metadata} (hm : m ∈ metas (s.set a.jsonPath (.sidecar a))) := (h.placed.mem_set_sidecar a).mp hm
  refine ⟨h.placed.set_sidecar ha, fun m hm m' hm' hi hv => ?_, fun m hm v h1 hv => ?_⟩
  · rcases hmem hm with he | ⟨hs, hne⟩
    · rcases hmem hm' with he' | ⟨hs', hne'⟩
      · rw [he, he']
      · rw [he] at hi hv
        exact absurd (hu m' hs' hi.symm hv.symm) hne'
    · rcases hmem hm' with he' | ⟨hs', -⟩
      · rw [he'] at hi hv
        exact absurd (hu m hs hi hv) hne
      · exact h.unique m hs m' hs' hi hv
  · rcases hmem hm with he | ⟨hm, -⟩
    · subst he
      rcases Nat.lt_or_eq_of_le hv with hlt | rfl
      · exact (hn v h1 hlt).set _ _
      · exact ⟨_, _, _, Dict.mem_set.mpr (.inl rfl)⟩
    · exact (h.numbered m hm v h1 hv).set _ _

/-- A version with a new number is saved. -/
theorem add {b : Metadata} (h : Orderly s) (hb : Filed b)
    (hnew : ∀ m ∈ metas s, m.artifactId = b.artifactId → m.version ≠ b.version)
    (hn : ∀ v, 1 ≤ v → v < b.version → HasSidecar s b.artifactId v) (t : Str) :
    Orderly ((s.set b.mdPath (.markdown t)).set b.jsonPath (.sidecar b)) := by
  refine (h.set_text b.mdPath t).set_sidecar hb (fun m hm hi hv => absurd hv ?_) fun v h1 hv => (hn v h1 hv).set _ _
  exact hnew m ((h.placed.mem_set_text _ t).mp hm).1 hi

/-- A version's sidecar is rewritten. -/
theorem amend {a' : Metadata} (h : Orderly s) (ha : a ∈ metas s) (hs : SameVersion a a') (ha' : Filed a') :
    Orderly (s.set a.jsonPath (.sidecar a')) := by
  rw [← hs.jsonPath]
  refine h.set_sidecar ha' (fun m hm hi hv => ?_) fun v h1 hv => ?_
  · rw [h.unique m hm a ha (hi.trans hs.id) (hv.trans hs.version), hs.jsonPath]
  · rw [hs.id]
    rw [hs.version] at hv
    exact h.numbered a ha v h1 hv.le

/-- The latest version is the one with the highest number. -/
theorem lt_latest (h : Orderly s) {g : Listing} {i : Str} (ha : getLatestById g s i none = some a) {m : Metadata}
    (hm : m ∈ metas s) (hi : m.artifactId = i) : m = a ∨ m.version < a.version := by
  obtain ⟨hmem, hid, hle⟩ := h.placed.latest_some ha
  rcases Nat.lt_or_eq_of_le (hle m hm hi) with hlt | hv
  · exact .inr hlt
  · exact .inl (h.unique m hm a hmem (hi.trans hid.symm) hv)

end Orderly

/-! ## A version and its number -/

/-- `m` is a later state of the revision `a`: it has its history, and what has come since. -/
structure Continues (a m : Metadata) : Prop where
  same : SameVersion a m
  history : a.statusHistory <+: m.statusHistory

theorem Continues.refl (a : Metadata) : Continues a a := ⟨.refl a, List.prefix_refl _⟩

theorem Continues.trans {a m m' : Metadata} (h : Continues a m) (h' : Continues m m') : Continues a m' :=
  ⟨h.same.trans h'.same, h.history.trans h'.history⟩

theorem statusHistory_withReviewer (m : Metadata) (r : Option Str) : (withReviewer m r).statusHistory = m.statusHistory := by
  unfold withReviewer
  split <;> rfl

theorem continues_of_reviews {c : Call} {f : Metadata → Metadata} (hf : c.reviews = some f) (m : Metadata) :
    Continues m (f m) := by
  refine ⟨sameVersion_of_reviews hf m, ?_⟩
  obtain ⟨env, op⟩ := c
  cases op with
  | generate | revise => cases hf
  | requestReview id reviewer checklist =>
    cases hf
    exact statusHistory_withReviewer m reviewer ▸ List.prefix_append _ _
  | requestChanges id changes =>
    cases hf
    exact List.prefix_append _ _
  | approve id reviewer notes =>
    cases hf
    exact statusHistory_withReviewer m reviewer ▸ List.prefix_append _ _

theorem continues_supersededBy (env : Env) (b a : Metadata) : Continues a (supersededBy env b a) :=
  ⟨sameVersion_supersededBy env b a, List.prefix_append _ _⟩

/-- The files of version `a` are still those of that revision; as long as the artifact is found, with no lower number. -/
structure Holding (a : Metadata) (text : Option File) (s : Store) : Prop where
  orderly : Orderly s
  markdown : s.get? a.mdPath = text
  sidecar : ∀ m, s.get? a.jsonPath = some (.sidecar m) → Continues a m
  present : a.jsonPath ∈ s
  above : (∃ m ∈ metas s, m.artifactId = a.artifactId ∧ a.version ≤ m.version) ∨ ∀ m ∈ metas s, m.artifactId ≠ a.artifactId

theorem mdPath_inj {m m' : Metadata} (h : m.mdPath = m'.mdPath) :
    m.artifactId = m'.artifactId ∧ m.version = m'.version := buildPaths_md_inj h

namespace Holding

variable {a b : Metadata} {text : Option File} {s : Store}

/-- The markdown of another version is written. -/
theorem set_markdown (h : Holding a text s) (hb : b.artifactId = a.artifactId → a.version < b.version) (t : Str) :
    Holding a text (s.set b.mdPath (.markdown t)) := by
  have hmd : a.mdPath ≠ b.mdPath := fun he => by
    obtain ⟨hi, hv⟩ := mdPath_inj he
    exact absurd (hb hi.symm) (by omega)
  have hjson (m : Metadata) : m.jsonPath ≠ b.mdPath := buildPaths_md_ne_json.symm
  have hmem {m : Metadata} : m ∈ metas (s.set b.mdPath (.markdown t)) ↔ m ∈ metas s :=
    (h.orderly.placed.mem_set_text _ t).trans (and_iff_left (hjson m))
  refine ⟨h.orderly.set_text _ t, ?_, fun m hm => ?_, Dict.mem_set.mpr (.inr h.present), ?_⟩
  · rw [Dict.get?_set_of_ne _ _ hmd, h.markdown]
  · rw [Dict.get?_set_of_ne _ _ (hjson a)] at hm
    exact h.sidecar m hm
  · simp only [hmem]
    exact h.above

/-- The sidecar of the version, or of a later one, is written. -/
theorem set_sidecar (h : Holding a text s) (hs : Orderly (s.set b.jsonPath (.sidecar b)))
    (hb : b.artifactId = a.artifactId → a.version ≤ b.version) (hc : b.jsonPath = a.jsonPath → Continues a b) :
    Holding a text (s.set b.jsonPath (.sidecar b)) := by
  refine ⟨hs, ?_, fun m hm => ?_, Dict.mem_set.mpr (.inr h.present), ?_⟩
  · have hne : a.mdPath ≠ b.jsonPath := buildPaths_md_ne_json
    rw [Dict.get?_set_of_ne _ _ hne, h.markdown]
  · rw [Dict.get?_set] at hm
    split at hm
    · rename_i he
      cases hm
      exact hc he.symm
    · exact h.sidecar m hm
  · by_cases hi : b.artifactId = a.artifactId
    · exact .inl ⟨b, (h.orderly.placed.mem_set_sidecar b).mpr (.inl rfl), hi, hb hi⟩
    · rcases h.above with ⟨m, hm, hmi, hv⟩ | hnone
      · refine .inl ⟨m, (h.orderly.placed.mem_set_sidecar b).mpr (.inr ⟨hm, fun he => hi ?_⟩), hmi, hv⟩
        exact (jsonPath_inj he).1.symm.trans hmi
      · refine .inr fun m hm => ?_
        rcases (h.orderly.placed.mem_set_sidecar b).mp hm with rfl | ⟨hm, -⟩
        · exact hi
        · exact hnone m hm

/-- The sidecar of a version with this number or a higher one is rewritten. -/
theorem amend {m m' : Metadata} (h : Holding a text s) (hm : m ∈ metas s)
    (hle : m.artifactId = a.artifactId → a.version ≤ m.version) (hc : Continues m m') (hm' : Filed m') :
    Holding a text (s.set m.jsonPath (.sidecar m')) := by
  have hs := h.orderly.amend hm hc.same hm'
  rw [← hc.same.jsonPath] at hs ⊢
  refine h.set_sidecar hs ?_ fun he => ?_
  · rw [hc.same.id, hc.same.version]
    exact hle
  · obtain ⟨p, hp⟩ := mem_metas.mp hm
    have hpath : p = m.jsonPath := ((h.orderly.placed.holds p m).mp hp).2
    rw [hpath, ← hc.same.jsonPath, he] at hp
    exact (h.sidecar m hp).trans hc

theorem le_latest (h : Holding a text s) {c : Call} {m : Metadata} (hm : c.latest s = some m)
    (hi : m.artifactId = a.artifactId) : a.version ≤ m.version := by
  obtain ⟨hmem, hid, hle⟩ := h.orderly.placed.latest_some hm
  rcases h.above with ⟨m', hm', hi', hv⟩ | hnone
  · exact hv.trans (hle m' hm' ((hi'.trans hi.symm).trans hid))
  · exact absurd hi (hnone m hmem)

/-- Another file is cut off, or this one's sidecar where that leaves a later version or none. -/
theorem tear (h : Holding a text s) {p : Path} (hp : p ≠ a.mdPath)
    (hleft : (∃ m ∈ metas s, m.artifactId = a.artifactId ∧ a.version ≤ m.version ∧ m.jsonPath ≠ p) ∨
      ∀ m ∈ metas s, m.artifactId = a.artifactId → m.jsonPath = p) (t : Str) :
    Holding a text (s.set p (.markdown t)) := by
  refine ⟨h.orderly.set_text p t, ?_, fun m hm => ?_, Dict.mem_set.mpr (.inr h.present), ?_⟩
  · rw [Dict.get?_set_of_ne _ _ hp.symm, h.markdown]
  · rw [Dict.get?_set] at hm
    split at hm
    · cases hm
    · exact h.sidecar m hm
  · rcases hleft with ⟨m, hm, hi, hv, hne⟩ | hgone
    · exact .inl ⟨m, (h.orderly.placed.mem_set_text p t).mpr ⟨hm, hne⟩, hi, hv⟩
    · refine .inr fun m hm hi => ?_
      obtain ⟨hm, hne⟩ := (h.orderly.placed.mem_set_text p t).mp hm
      exact hne (hgone m hm hi)

end Holding

/-! ## Calls -/

theorem Call.Generates.reviews {c : Call} (h : c.Generates) : c.reviews = none := by
  obtain ⟨env, op⟩ := c
  cases op with
  | generate | revise => rfl
  | requestReview | requestChanges | approve => cases h

/-- The sidecars after the three writes of a revision. -/
theorem Placed.mem_revise {s : Store} (h : Placed s) {a b a' x : Metadata} (hb : Filed b) (hs : SameVersion a a') (t : Str) :
    x ∈ metas (((s.set b.mdPath (.markdown t)).set b.jsonPath (.sidecar b)).set a.jsonPath (.sidecar a')) ↔
      x = a' ∨ (x = b ∨ x ∈ metas s ∧ x.jsonPath ≠ b.jsonPath) ∧ x.jsonPath ≠ a.jsonPath := by
  have hmd : x ∈ metas (s.set b.mdPath (.markdown t)) ↔ x ∈ metas s :=
    (h.mem_set_text _ t).trans (and_iff_left buildPaths_md_ne_json.symm)
  rw [← hs.jsonPath, ((h.set_text _ t).set_sidecar hb).mem_set_sidecar a', (h.set_text _ t).mem_set_sidecar b, hmd]

theorem Orderly.ne_of_unused {s : Store} (h : Orderly s) {c : Call} (hu : Unused s c) (hc : c.Generates) {m : Metadata}
    (hm : m ∈ metas s) : m.artifactId ≠ c.artifactId := by
  intro hi
  have hfile : s.get? m.jsonPath = some (.sidecar m) := (h.placed.holds _ m).mpr ⟨hm, rfl⟩
  exact hu hc _ (Dict.mem_iff_get?.mpr ⟨_, hfile⟩) (hi ▸ owns_jsonPath m)

/-- The store after the three writes of a revision, and those on the way. -/
theorem Orderly.revise {s : Store} (h : Orderly s) {a b a' : Metadata} {i : Str} (ha : a ∈ metas s) (hi : a.artifactId = i)
    (hle : ∀ m ∈ metas s, m.artifactId = i → m.version ≤ a.version) (hn : Next a' b) (hs : SameVersion a a')
    (hb : Filed b) (ha' : Filed a') (t : Str) :
    let added := (s.set b.mdPath (.markdown t)).set b.jsonPath (.sidecar b)
    Orderly added ∧ a ∈ metas added ∧ Orderly (added.set a.jsonPath (.sidecar a')) := by
  intro added
  have hid : b.artifactId = i := (hn.id.trans hs.id).trans hi
  have hv : b.version = a.version + 1 := hn.version.trans (congrArg (· + 1) hs.version)
  have hadded : Orderly added := by
    refine h.add hb (fun m hm hmi he => ?_) (fun v h1 hvb => ?_) t
    · have := hle m hm (hmi.trans hid)
      omega
    · rw [hid, ← hi]
      exact h.numbered a ha v h1 (by omega)
  have hmem : a ∈ metas added := by
    refine ((h.placed.set_text _ t).mem_set_sidecar b).mpr (.inr ⟨?_, fun he => ?_⟩)
    · exact (h.placed.mem_set_text _ t).mpr ⟨ha, buildPaths_md_ne_json.symm⟩
    · have := (jsonPath_inj he).2
      omega
  exact ⟨hadded, hmem, hadded.amend hmem hs ha'⟩

/-- Between any two writes of a call the store is orderly. -/
theorem Orderly.writes {s : Store} (h : Orderly s) {c : Call} (hu : Unused s c) :
    Throughout (fun s w => Write.apply w s) Orderly s (c.writes s) := by
  have hb := h.placed.begins c
  generalize c.writes s = ws at hb ⊢
  generalize c.answer s = returned at hb
  cases hb with
  | missing => exact throughout_nil.mpr h
  | created b content hc hi h1 hb =>
    simp only [throughout_cons, throughout_nil]
    refine ⟨h, h.set_text _ _, h.add hb.filed (fun m hm hmi => ?_) (fun v h1' hv => by omega) content⟩
    exact absurd (hmi.trans hi) (h.ne_of_unused hu hc hm)
  | reviewed a hl f hf t =>
    obtain ⟨ha, -, -⟩ := h.placed.latest_some hl
    simp only [throughout_cons, throughout_nil]
    exact ⟨h, h.amend ha (sameVersion_of_reviews hf a) (filed_of_reviews hf (h.placed.filed a ha))⟩
  | revised a hl b hn hb id newContent changes author hc =>
    obtain ⟨ha, hi, hle⟩ := h.placed.latest_some hl
    simp only [throughout_cons, throughout_nil]
    obtain ⟨hadded, -, hend⟩ := h.revise ha hi hle hn (sameVersion_supersededBy c.env b a) hb.filed
      (filed_supersededBy c.env b (h.placed.filed a ha)) _
    exact ⟨h, h.set_text _ _, hadded, hend⟩

theorem orderly_step {s : Store} (h : Orderly s) {c : Call} (hu : Unused s c) : Orderly (step s c) := by
  rw [step_eq_applyWrites]
  exact h.writes hu _ (List.prefix_refl _)

theorem orderly_stopped {s : Store} (h : Orderly s) {c : Call} (hu : Unused s c) (stop : Stop) :
    Orderly (stopped s c stop) := by
  have hdone : Orderly (applyWrites ((c.writes s).take stop.done) s) := h.writes hu _ (List.take_prefix _ _)
  unfold stopped
  split
  · exact hdone.set_text _ _
  · exact hdone

theorem orderly_stepOrStop {s : Store} (h : Orderly s) {e : Call × Option Stop} (hu : Unused s e.1) :
    Orderly (stepOrStop s e) := by
  obtain ⟨c, stop⟩ := e
  cases stop with
  | none => exact orderly_step h hu
  | some stop => exact orderly_stopped h hu stop

/-- The call gives the number of `a` to no new version. -/
def GivesOther (a : Metadata) (s : Store) (c : Call) : Prop :=
  ∀ b, c.answer s = .saved (some b) → b.artifactId = a.artifactId → b.version ≠ a.version

/-- Between any two writes of a call `a` is held, and its number is given to no other version. -/
theorem Holding.writes {a : Metadata} {text : Option File} {s : Store} (h : Holding a text s) {c : Call}
    (hu : Unused s c) : Throughout (fun s w => Write.apply w s) (Holding a text) s (c.writes s) ∧ GivesOther a s c := by
  have horderly := h.orderly.writes hu
  have hb := h.orderly.placed.begins c
  unfold GivesOther
  generalize c.writes s = ws at hb horderly ⊢
  generalize c.answer s = returned at hb ⊢
  cases hb with
  | missing hl hc returned hr => exact ⟨throughout_nil.mpr h, fun b hb => absurd hb (hr b)⟩
  | created b content hc hi h1 hb =>
    have hne : b.artifactId ≠ a.artifactId := fun he => by
      refine hu hc _ h.present ?_
      rw [← hi, he]
      exact owns_jsonPath a
    simp only [throughout_cons, throughout_nil] at horderly ⊢
    have hmd := h.set_markdown (b := b) (fun he => absurd he hne) content
    refine ⟨⟨h, hmd, ?_⟩, fun b' hb' hi' => ?_⟩
    · refine hmd.set_sidecar horderly.2.2 (fun he => absurd he hne) fun he => absurd (jsonPath_inj he).1 hne
    · cases hb'
      exact absurd hi' hne
  | reviewed m hl f hf t =>
    obtain ⟨hm, -, -⟩ := h.orderly.placed.latest_some hl
    simp only [throughout_cons, throughout_nil]
    refine ⟨⟨h, ?_⟩, fun b hb => by cases hb⟩
    exact h.amend hm (h.le_latest hl) (continues_of_reviews hf m) (filed_of_reviews hf (h.orderly.placed.filed m hm))
  | revised m hl b hn hb id newContent changes author hc =>
    obtain ⟨hm, hi, hle⟩ := h.orderly.placed.latest_some hl
    have hsup := continues_supersededBy c.env b m
    have hid : b.artifactId = m.artifactId := hn.id
    have hlt (he : b.artifactId = a.artifactId) : a.version < b.version := by
      have hv : b.version = m.version + 1 := hn.version
      have := h.le_latest hl (hid.symm.trans he)
      omega
    obtain ⟨hadded, hmem, -⟩ := h.orderly.revise hm hi hle hn hsup.same hb.filed
      (filed_supersededBy c.env b (h.orderly.placed.filed m hm)) _
    have hmd := h.set_markdown hlt (replaceDocumentControl newContent (renderDocumentControl b b.upstreamRefs))
    have hjson := hmd.set_sidecar hadded (fun he => (hlt he).le) fun he => by
      obtain ⟨hi', hv'⟩ := jsonPath_inj he
      exact absurd hv' (hlt hi').ne'
    simp only [throughout_cons, throughout_nil]
    refine ⟨⟨h, hmd, hjson, hjson.amend hmem (h.le_latest hl) hsup ?_⟩, fun b' hb' hi' => ?_⟩
    · exact filed_supersededBy c.env b (h.orderly.placed.filed m hm)
    · cases hb'
      exact (hlt hi').ne'

theorem Holding.step {a : Metadata} {text : Option File} {s : Store} (h : Holding a text s) {c : Call}
    (hu : Unused s c) : Holding a text (step s c) := by
  rw [step_eq_applyWrites]
  exact (h.writes hu).1 _ (List.prefix_refl _)

/-! ## A stop -/

/-- The latest version is held. -/
theorem Orderly.holding {s : Store} (h : Orderly s) {g : Listing} {i : Str} {a : Metadata}
    (ha : getLatestById g s i none = some a) : Holding a (s.get? a.mdPath) s := by
  obtain ⟨hmem, -, -⟩ := h.placed.latest_some ha
  have hfile : s.get? a.jsonPath = some (.sidecar a) := (h.placed.holds _ a).mpr ⟨hmem, rfl⟩
  refine ⟨h, rfl, fun m hm => ?_, Dict.mem_iff_get?.mpr ⟨_, hfile⟩, .inl ⟨a, hmem, rfl, le_rfl⟩⟩
  rw [hfile] at hm
  cases hm
  exact .refl a

/-- The stop cuts off the sidecar of the latest version, and an earlier one has a sidecar left. -/
def LosesLatest (s : Store) (c : Call) (stop : Stop) (a : Metadata) : Prop :=
  c.reviews ≠ none ∧ stop.done = 0 ∧ stop.torn ≠ none ∧ ∃ m ∈ metas s, m.artifactId = a.artifactId ∧ m.version < a.version

theorem Orderly.holding_stopped {s : Store} (h : Orderly s) {c : Call} (hc : ¬c.Generates) {a : Metadata}
    (ha : c.latest s = some a) {stop : Stop} (hstop : ¬LosesLatest s c stop a) :
    Holding a (s.get? a.mdPath) (stopped s c stop) := by
  have hhold := h.holding ha
  have hdone := (hhold.writes fun hg => absurd hg hc).1 _ (List.take_prefix stop.done (c.writes s))
  have hb := h.placed.begins c
  unfold stopped
  split
  · rename_i t w ht hw
    have hdone : Holding a (s.get? a.mdPath) (applyWrites ((c.writes s).take stop.done) s) := hdone
    obtain ⟨hmem, hi, hle⟩ := h.placed.latest_some ha
    generalize c.writes s = ws at hb hw hdone ⊢
    generalize c.answer s = returned at hb
    cases hb with
    | missing => simp at hw
    | created _ _ hg => exact absurd hg hc
    | reviewed m hl f hf _ =>
      obtain rfl : m = a := Option.some.inj (hl.symm.trans ha)
      cases hk : stop.done with
      | succ k => simp [hk] at hw
      | zero =>
        simp only [hk, List.getElem?_cons_zero, Option.some.injEq] at hw
        subst hw
        refine hhold.tear buildPaths_md_ne_json.symm (.inr fun m' hm' hi' => ?_) t
        rcases h.lt_latest ha hm' (hi'.trans hi) with rfl | hlt
        · rfl
        · exact absurd ⟨hf ▸ nofun, hk, ht ▸ nofun, m', hm', hi', hlt⟩ hstop
    | revised m hl b hn hb id newContent changes author hop =>
      obtain rfl : m = a := Option.some.inj (hl.symm.trans ha)
      have hid : b.artifactId = m.artifactId := hn.id
      have hv : b.version = m.version + 1 := hn.version
      have hne : m.jsonPath ≠ b.jsonPath := fun he => by
        have := (jsonPath_inj he).2
        omega
      match hk : stop.done with
      | 0 =>
        simp only [hk, List.getElem?_cons_zero, Option.some.injEq] at hw
        subst hw
        exact hhold.set_markdown (fun _ => by omega) t
      | 1 =>
        simp only [hk, List.getElem?_cons_succ, List.getElem?_cons_zero, Option.some.injEq] at hw
        subst hw
        rw [hk] at hdone
        refine hdone.tear buildPaths_md_ne_json.symm (.inl ⟨m, ?_, rfl, le_rfl, hne⟩) t
        exact (h.placed.mem_set_text _ _).mpr ⟨hmem, buildPaths_md_ne_json.symm⟩
      | 2 =>
        simp only [hk, List.getElem?_cons_succ, List.getElem?_cons_zero, Option.some.injEq] at hw
        subst hw
        rw [hk] at hdone
        refine hdone.tear buildPaths_md_ne_json.symm (.inl ⟨b, ?_, hid, by omega, hne.symm⟩) t
        exact ((h.placed.set_text _ _).mem_set_sidecar b).mpr (.inl rfl)
      | k + 3 => simp [hk] at hw
  · exact hdone

theorem stopped_of_losesLatest {s : Store} (h : Orderly s) {c : Call} {a : Metadata} (ha : c.latest s = some a) {stop : Stop}
    (hstop : LosesLatest s c stop a) : ∃ t, stopped s c stop = s.set a.jsonPath (.markdown t) := by
  obtain ⟨hreviews, hk, htorn, -⟩ := hstop
  obtain ⟨t, ht⟩ := Option.ne_none_iff_exists'.mp htorn
  obtain ⟨f, hf⟩ := Option.ne_none_iff_exists'.mp hreviews
  have hwrites : c.writes s = [⟨a.jsonPath, .sidecar (f a)⟩] := by
    have hb := h.placed.begins c
    generalize c.writes s = ws at hb ⊢
    generalize c.answer s = returned at hb
    cases hb with
    | missing hl => cases ha.symm.trans hl
    | created b content hg => cases hg.reviews.symm.trans hf
    | reviewed m hl f' hf' =>
      obtain rfl : m = a := Option.some.inj (hl.symm.trans ha)
      obtain rfl : f' = f := Option.some.inj (hf'.symm.trans hf)
      rfl
    | revised m hl b hn hb id newContent changes author hop =>
      rw [Call.reviews, hop] at hf
      cases hf
  refine ⟨t, ?_⟩
  rw [stopped, hwrites, hk, ht]
  rfl

/-! ## A number given again -/

/-- A revision adds the next number after the latest. -/
theorem Orderly.latest_revise {s : Store} (h : Orderly s) {c : Call} {i newContent : Str} {changes : Raw}
    {author : Option Str} (hop : c.op = .revise i newContent changes author) {a : Metadata} (ha : c.latest s = some a) :
    ∃ b, c.answer s = .saved (some b) ∧ b.artifactId = a.artifactId ∧ b.version = a.version + 1 ∧
      ∀ g, getLatestById g (step s c) c.artifactId none = some b := by
  have hu : Unused s c := fun hg => by
    rw [Call.Generates, hop] at hg
    exact hg.elim
  have hstep := orderly_step h hu
  rw [step_eq_applyWrites] at hstep ⊢
  have hb := h.placed.begins c
  obtain ⟨hmem, hi, hle⟩ := h.placed.latest_some ha
  generalize c.writes s = ws at hb hstep ⊢
  generalize c.answer s = returned at hb ⊢
  cases hb with
  | missing hl => cases ha.symm.trans hl
  | created b content hg =>
    rw [Call.Generates, hop] at hg
    exact hg.elim
  | reviewed m hl f hf =>
    rw [Call.reviews, hop] at hf
    cases hf
  | revised m hl b hn hb _ content =>
    obtain rfl : m = a := Option.some.inj (hl.symm.trans ha)
    have hid : b.artifactId = m.artifactId := hn.id
    have hv : b.version = m.version + 1 := hn.version
    refine ⟨b, rfl, hid, hv, fun g => ?_⟩
    have hmetas (x : Metadata) := h.placed.mem_revise (x := x) hb.filed (sameVersion_supersededBy c.env b m)
      (replaceDocumentControl content (renderDocumentControl b b.upstreamRefs))
    have hbmem := (hmetas b).mpr (.inr ⟨.inl rfl, fun he => by
      have := (jsonPath_inj he).2
      omega⟩)
    have hbound : ∀ x ∈ metas _, x.artifactId = c.artifactId → x.version ≤ b.version := fun x hx hxi => by
      rcases (hmetas x).mp hx with rfl | ⟨rfl | ⟨hx, -⟩, -⟩
      · exact hv ▸ Nat.le_succ _
      · exact le_rfl
      · exact (hle x hx hxi).trans (by omega)
    have hbi : b.artifactId = c.artifactId := hid.trans hi
    cases hx : getLatestById g _ c.artifactId none with
    | none => exact absurd hbi (hstep.placed.latest_none.mp hx b hbmem)
    | some x =>
      obtain ⟨hxmem, hxi, hxle⟩ := hstep.placed.latest_some hx
      have := hxle b hbmem hbi
      have := hbound x hxmem hxi
      exact congrArg some (hstep.unique x hxmem b hbmem (hxi.trans hbi.symm) (by omega))

/-- From a lower number, revisions come to the number again. -/
theorem Orderly.reissues {a : Metadata} : ∀ (k : Nat) {s : Store} {m : Metadata}, Orderly s →
    getLatestById sampleEnv.listing s a.artifactId none = some m → m.version + k + 1 = a.version →
    ∃ later, Along step Unused s later ∧ ¬Along step (GivesOther a) s later
  | k, s, m, h, hm, hk => by
    let c : Call := ⟨sampleEnv, .revise a.artifactId [] .none none⟩
    have hu : Unused s c := fun hg => hg.elim
    obtain ⟨b, hanswer, hid, hv, hlatest⟩ := h.latest_revise (c := c) rfl hm
    obtain ⟨-, hi, -⟩ := h.placed.latest_some hm
    cases k with
    | zero =>
      refine ⟨[c], ⟨hu, trivial⟩, fun hother => ?_⟩
      exact hother.1 b hanswer (hid.trans hi) (by omega)
    | succ k =>
      obtain ⟨later, hlater, hagain⟩ := Orderly.reissues k (orderly_step h hu) (hlatest sampleEnv.listing) (by omega)
      exact ⟨c :: later, ⟨hu, hlater⟩, fun hother => hagain hother.2⟩

/-! ## Runs -/

/-- The files of `a` in a later store: its markdown, a sidecar of the same revision where one parses, and no
number that is left out up to any version of the artifact. -/
structure Survives (a : Metadata) (s t : Store) : Prop where
  markdown : t.get? a.mdPath = s.get? a.mdPath
  sidecar : ∀ m, t.get? a.jsonPath = some (.sidecar m) → Continues a m
  numbered : ∀ m ∈ metas t, m.artifactId = a.artifactId → ∀ v, 1 ≤ v → v ≤ m.version → HasSidecar t a.artifactId v

theorem Holding.survives {a : Metadata} {s t : Store} (h : Holding a (s.get? a.mdPath) t) : Survives a s t :=
  ⟨h.markdown, h.sidecar, fun m hm hi => hi ▸ h.orderly.numbered m hm⟩

/-- After any run of calls, some of which stopped: whatever is called after a further call that stops, the latest
version it found survives and its number is given to no other one, just when the stop does not cut off its
sidecar while an earlier version has one left. -/
theorem approved_survives_iff (history : List (Call × Option Stop)) (c : Call) (a : Metadata) (stop : Stop)
    (hhistory : Along stepOrStop (fun s e => Unused s e.1) Dict.empty history) (hc : ¬c.Generates)
    (ha : c.latest (run stepOrStop Dict.empty history) = some a) :
    let s := run stepOrStop Dict.empty history
    (∀ later, Along step Unused (stopped s c stop) later →
      Throughout step (Survives a s) (stopped s c stop) later ∧ Along step (GivesOther a) (stopped s c stop) later) ↔
    ¬LosesLatest s c stop a := by
  intro s
  have hs : Orderly s := run_invariant (I := Orderly) (fun _ _ h hu => orderly_stepOrStop h hu) orderly_empty hhistory
  constructor
  · intro hall hloses
    obtain ⟨t, ht⟩ := stopped_of_losesLatest hs ha hloses
    obtain ⟨-, -, -, m, hm, hmi, hlt⟩ := hloses
    rw [ht] at hall
    have hmem {x : Metadata} := hs.placed.mem_set_text (m := x) a.jsonPath t
    have hleft : m ∈ metas (s.set a.jsonPath (.markdown t)) :=
      hmem.mpr ⟨hm, fun he => absurd (jsonPath_inj he).2 hlt.ne⟩
    have ht' : Orderly (s.set a.jsonPath (.markdown t)) := hs.set_text _ t
    obtain ⟨-, hi, -⟩ := hs.placed.latest_some ha
    cases hx : getLatestById sampleEnv.listing (s.set a.jsonPath (.markdown t)) a.artifactId none with
    | none => exact absurd hmi (ht'.placed.latest_none.mp hx m hleft)
    | some x =>
      obtain ⟨hxmem, hxi, -⟩ := ht'.placed.latest_some hx
      obtain ⟨hxs, hne⟩ := hmem.mp hxmem
      rcases hs.lt_latest ha hxs (hxi.trans hi) with rfl | hxlt
      · exact absurd rfl hne
      · obtain ⟨later, hlater, hagain⟩ := ht'.reissues (a.version - x.version - 1) hx (by omega)
        exact hagain (hall later hlater).2
  · intro hkeeps later hlater
    have hhold := hs.holding_stopped hc ha hkeeps
    refine ⟨throughout_of_along (fun _ h => h.survives) (fun _ _ h hu => h.step hu) hhold hlater, ?_⟩
    exact Along.of_invariant (fun _ _ h hu => h.step hu) (fun _ _ h hu => (h.writes hu).2) hhold hlater

/-- The second version, approved. -/
def approvedHistory : List (Call × Option Stop) := [(generateItem, none), (reviseItem, none), (approveItem, none)]

def requestItemReview : Call := ⟨sampleEnv, .requestReview generateItem.artifactId none []⟩

theorem unused_approvedHistory : Along stepOrStop (fun s e => Unused s e.1) Dict.empty approvedHistory :=
  ⟨fun _ _ hp => absurd hp List.not_mem_nil, fun hg => hg.elim, fun hg => hg.elim, trivial⟩

/-- A revision that stops inside its second sidecar. -/
theorem approved_survives_revise :
    let s := run stepOrStop Dict.empty approvedHistory
    ∃ a, reviseItem.latest s = some a ∧ a.status = .approved ∧
      ((∀ later, Along step Unused (stopped s reviseItem ⟨1, some []⟩) later →
        Throughout step (Survives a s) (stopped s reviseItem ⟨1, some []⟩) later ∧
          Along step (GivesOther a) (stopped s reviseItem ⟨1, some []⟩) later) ↔
      ¬LosesLatest s reviseItem ⟨1, some []⟩ a) := by
  intro s
  obtain ⟨a, ha, hstatus⟩ : ∃ a ∈ reviseItem.latest s, a.status = .approved := by decide +kernel
  exact ⟨a, ha, hstatus, approved_survives_iff approvedHistory reviseItem a ⟨1, some []⟩ unused_approvedHistory id ha⟩

def reviseAgain : Call :=
  ⟨sampleEnv, .revise generateItem.artifactId "# Item 3".toList .none none⟩

/-- A request for review of the approved version stops inside its write: the next revision gets the number of that
version, and its text. -/
theorem approved_number_given_again :
    let s := run stepOrStop Dict.empty approvedHistory
    let t := stopped s requestItemReview ⟨0, some []⟩
    ∃ a, requestItemReview.latest s = some a ∧ a.status = .approved ∧
      ¬GivesOther a t reviseAgain ∧ (step t reviseAgain).get? a.mdPath ≠ s.get? a.mdPath := by
  intro s t
  obtain ⟨a, ha, hstatus, ⟨b, hb, hid, hv⟩, hmd⟩ : ∃ a ∈ requestItemReview.latest s, a.status = .approved ∧
      (∃ b ∈ (revise sampleEnv t generateItem.artifactId "# Item 3".toList .none none).2,
        b.artifactId = a.artifactId ∧ b.version = a.version) ∧
      (step t reviseAgain).get? a.mdPath ≠ s.get? a.mdPath := by decide +kernel
  refine ⟨a, ha, hstatus, fun hother => hother b ?_ hid hv, hmd⟩
  rw [answer_eq]
  exact congrArg Returned.saved hb

end KCore.Artifacts
