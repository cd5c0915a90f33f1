import KCore.Proof.Artifacts.Approval

/-!
# Status histories

The operations of the review workflow take the latest version whatever its status,
and the latest version is never a superseded one (`Tidy.latest_open`). So every
status history starts as a draft and ends where its version is superseded, and it
is a path of the workflow throughout a run just when no call approves a version
that is not in review (`status_history_ok`). Ids that are generated twice are
allowed here.
-/

namespace KCore.Artifacts

open Text Machine

/-- The statuses a version has had. -/
def Metadata.statuses (m : Metadata) : List Status := m.statusHistory.map (·.status)

/-- A move of the review workflow: from SUPERSEDED there is none, and into APPROVED only the one from
IN_REVIEW; from IN_REVIEW there are moves to every status. -/
def Move (a b : Status) : Prop := a ≠ .superseded ∧ (b = .approved → a = .inReview)

instance : DecidableRel Move := fun _ _ => inferInstanceAs (Decidable (_ ∧ _))

/-- A history that starts as a draft and whose moves are `R`. -/
def Starts (R : Status → Status → Prop) (l : List Status) : Prop := l.head? = some .draft ∧ l.IsChain R

/-- A path of the review workflow. -/
abbrev WorkflowPath (l : List Status) : Prop := Starts Move l

variable {R : Status → Status → Prop}

theorem starts_append {l : List Status} {a b : Status} (hl : l.getLast? = some a) :
    Starts R (l ++ [b]) ↔ Starts R l ∧ R a b := by
  have hne : l ≠ [] := fun h => by simp [h] at hl
  unfold Starts
  rw [List.head?_append_of_ne_nil _ hne, List.isChain_append]
  simp [hl, and_assoc]

/-! ## Sidecars -/

/-- What holds of the sidecars after any calls. -/
structure Tidy (s : Store) : Prop where
  holds : Holds s (· ∈ metas s)
  filed : ∀ m ∈ metas s, Filed m
  /-- a superseded version is not the latest -/
  newer : ∀ m ∈ metas s, m.status = .superseded → ∃ m' ∈ metas s, m'.artifactId = m.artifactId ∧ m.version < m'.version
  starts : ∀ m ∈ metas s, Starts (fun a _ => a ≠ .superseded) m.statuses

theorem holds_metas {s : Store} {M : Metadata → Prop} (h : Holds s M) : Holds s (· ∈ metas s) := by
  refine h.congr fun m => ⟨fun hm => mem_metas.mpr ⟨_, (h _ m).mpr ⟨hm, rfl⟩⟩, fun hm => ?_⟩
  obtain ⟨p, hp⟩ := mem_metas.mp hm
  exact ((h p m).mp hp).1

theorem mem_metas_of_holds {s : Store} {M : Metadata → Prop} (h : Holds s M) {m : Metadata} : m ∈ metas s ↔ M m := by
  rw [mem_metas]
  exact ⟨fun ⟨p, hp⟩ => ((h p m).mp hp).1, fun hm => ⟨_, (h _ m).mpr ⟨hm, rfl⟩⟩⟩

theorem tidy_empty : Tidy Dict.empty := by
  have hno (m : Metadata) : m ∉ metas Dict.empty := List.not_mem_nil
  exact ⟨holds_metas holds_empty, fun m hm => absurd hm (hno m), fun m hm => absurd hm (hno m),
    fun m hm => absurd hm (hno m)⟩

namespace Tidy

variable {s : Store} {m a : Metadata}

theorem mem_set_markdown (h : Tidy s) (a : Metadata) (text : Str) {m : Metadata} :
    m ∈ metas (s.set a.mdPath (.markdown text)) ↔ m ∈ metas s :=
  mem_metas_of_holds (h.holds.set_markdown a text)

/-- A markdown is written. -/
theorem markdown (h : Tidy s) (a : Metadata) (text : Str) : Tidy (s.set a.mdPath (.markdown text)) := by
  have hmem {m : Metadata} := h.mem_set_markdown a text (m := m)
  refine ⟨holds_metas (h.holds.set_markdown a text), fun m hm => h.filed m (hmem.mp hm), fun m hm hs => ?_,
    fun m hm => h.starts m (hmem.mp hm)⟩
  obtain ⟨m', hm', hlt⟩ := h.newer m (hmem.mp hm) hs
  exact ⟨m', hmem.mpr hm', hlt⟩

theorem mem_set_sidecar (h : Tidy s) (a : Metadata) {m : Metadata} :
    m ∈ metas (s.set a.jsonPath (.sidecar a)) ↔ m = a ∨ m ∈ metas s ∧ m.jsonPath ≠ a.jsonPath :=
  mem_metas_of_holds (h.holds.set_sidecar a)

/-- A sidecar is written, over one of the same artifact and version if there is one. -/
theorem sidecar (h : Tidy s) (ha : Filed a)
    (hs : a.status = .superseded → ∃ m' ∈ metas s, m'.artifactId = a.artifactId ∧ a.version < m'.version)
    (hst : Starts (fun a _ => a ≠ .superseded) a.statuses) : Tidy (s.set a.jsonPath (.sidecar a)) := by
  have hmem {m : Metadata} := h.mem_set_sidecar a (m := m)
  -- the newer version is still there, or `a` is written in its place
  have still {m m' : Metadata} (hm' : m' ∈ metas s) (hi : m'.artifactId = m.artifactId) (hlt : m.version < m'.version) :
      ∃ m' ∈ metas (s.set a.jsonPath (.sidecar a)), m'.artifactId = m.artifactId ∧ m.version < m'.version := by
    by_cases hp : m'.jsonPath = a.jsonPath
    · obtain ⟨hia, hva⟩ := jsonPath_inj hp
      exact ⟨a, hmem.mpr (.inl rfl), hia ▸ hi, hva ▸ hlt⟩
    · exact ⟨m', hmem.mpr (.inr ⟨hm', hp⟩), hi, hlt⟩
  refine ⟨holds_metas (h.holds.set_sidecar a), fun m hm => ?_, fun m hm hsup => ?_, fun m hm => ?_⟩
  · rcases hmem.mp hm with rfl | ⟨hm, -⟩
    · exact ha
    · exact h.filed m hm
  · rcases hmem.mp hm with rfl | ⟨hm, -⟩
    · obtain ⟨m', hm', hi, hlt⟩ := hs hsup
      exact still hm' hi hlt
    · obtain ⟨m', hm', hi, hlt⟩ := h.newer m hm hsup
      exact still hm' hi hlt
  · rcases hmem.mp hm with rfl | ⟨hm, -⟩
    · exact hst
    · exact h.starts m hm

/-- The latest version by id is a stored one, and not a superseded one. -/
theorem latest_open (h : Tidy s) {g : Listing} {i : Str} (hm : getLatestById g s i none = some m) :
    m ∈ metas s ∧ m.status ≠ .superseded := by
  have hlist {m : Metadata} : m ∈ listMetadata g s none none none ↔ m ∈ metas s := by
    rw [mem_listMetadata, mem_metas]
    refine ⟨fun ⟨p, hp, _⟩ => ⟨p, hp⟩, fun ⟨p, hp⟩ => ⟨p, hp, List.nil_prefix, ?_⟩⟩
    rw [((h.holds p m).mp hp).2]
    exact isSidecarName_json ..
  unfold getLatestById at hm
  obtain ⟨hl, hi⟩ := List.mem_filter.mp (List.argmax_mem hm)
  have hmem := hlist.mp hl
  refine ⟨hmem, fun hs => ?_⟩
  obtain ⟨m', hm', hi', hlt⟩ := h.newer m hmem hs
  have hle := List.le_of_mem_argmax (List.mem_filter.mpr ⟨hlist.mpr hm', ?_⟩) hm
  · omega
  · rw [hi']
    exact hi

end Tidy

/-! ## Calls -/

theorem getLast?_statuses {m : Metadata} (h : Filed m) : m.statuses.getLast? = some m.status := by
  rw [Metadata.statuses, List.getLast?_map]
  exact h.history

theorem statuses_of_new {m : Metadata} (h : New m) : m.statuses = [.draft] := by
  obtain ⟨date, note, hh⟩ := h.history
  simp [Metadata.statuses, hh]

theorem statuses_withReviewer (m : Metadata) (r : Option Str) : (withReviewer m r).statuses = m.statuses := by
  unfold withReviewer
  split <;> rfl

theorem statuses_recordStatusChange (m : Metadata) (now : UtcTime) (st : Status) (note : Str) :
    (recordStatusChange m now st note).statuses = m.statuses ++ [st] := by
  simp [Metadata.statuses, recordStatusChange]

/-- The status that a review call records. -/
def Call.status (c : Call) : Status :=
  match c.op with
  | .requestReview .. => .inReview
  | .approve .. => .approved
  | _ => .draft

theorem statuses_of_reviews {c : Call} {f : Metadata → Metadata} (hf : c.reviews = some f) (m : Metadata) :
    (f m).statuses = m.statuses ++ [c.status] := by
  obtain ⟨env, op⟩ := c
  cases op with
  | generate | revise => cases hf
  | requestReview id reviewer checklist =>
    cases hf
    rw [reviewRequested, statuses_recordStatusChange, statuses_withReviewer]
    rfl
  | requestChanges id changes =>
    cases hf
    rw [changesRequested, statuses_recordStatusChange]
    rfl
  | approve id reviewer notes =>
    cases hf
    rw [approved, statuses_recordStatusChange]
    exact congrArg (· ++ [_]) (statuses_withReviewer m reviewer)

/-- The sidecars after a call: of the version that a call adds, and of the latest one that it changes. -/
inductive Change (s : Store) (c : Call) : Store → Prop
  | missing (h : getLatestById c.env.listing s c.artifactId none = none) : Change s c s
  | created (m : Metadata) (content : Str) (hc : c.reviews = none) (hm : New m) :
      Change s c ((s.set m.mdPath (.markdown content)).set m.jsonPath (.sidecar m))
  | reviewed (f : Metadata → Metadata) (hf : c.reviews = some f) (a : Metadata)
      (h : getLatestById c.env.listing s c.artifactId none = some a) : Change s c (updateMetadata s (f a))
  | revised (b a : Metadata) (content : Str) (hc : c.reviews = none)
      (h : getLatestById c.env.listing s c.artifactId none = some a) (hb : New b)
      (hi : b.artifactId = a.artifactId) (hlt : a.version < b.version) :
      Change s c (updateMetadata ((s.set b.mdPath (.markdown content)).set b.jsonPath (.sidecar b))
        (supersededBy c.env b a))

theorem Tidy.change {s : Store} (h : Tidy s) (c : Call) : Change s c (step s c) := by
  cases hf : c.reviews with
  | some f =>
    rw [step_of_reviews hf]
    cases hl : getLatestById c.env.listing s c.artifactId none with
    | none => exact .missing hl
    | some a => exact .reviewed f hf a hl
  | none =>
    obtain ⟨env, op⟩ := c
    cases op with
    | requestReview | requestChanges | approve => cases hf
    | generate project phase wpId title author reviewer refs content =>
      exact .created (withPaths (buildMetadata (env.now 0) project phase wpId title author reviewer refs _ 1 .draft
        none [])) content hf (new_withPaths (artifactIdOr_ne_nil [] wpId _ _)
        (isSlug_normalizeProjectSlug project) rfl rfl rfl)
    | revise id content changes author =>
      simp only [step, revise]
      cases hl : getLatestById env.listing s id none with
      | none => exact .missing hl
      | some a =>
        have hid := (h.filed a (h.latest_open hl).1).id
        exact .revised (withPaths (revisedFrom env author changes a)) a _ hf hl
          (new_withPaths (artifactIdOr_ne_nil _ _ _ _) (isSlug_normalizeProjectSlug _) rfl rfl rfl)
          (if_neg hid) (Nat.lt_succ_self _)

theorem updateMetadata_filed (s : Store) {m : Metadata} (h : Filed m) :
    updateMetadata s m = s.set m.jsonPath (.sidecar m) := updateMetadata_eq s h.json

/-- The changed version, after a review call on `a`. -/
theorem filed_of_reviews {c : Call} {f : Metadata → Metadata} (hf : c.reviews = some f) {a : Metadata}
    (ha : Filed a) : Filed (f a) := (sameVersion_of_reviews hf a).filed ha (history_of_reviews hf a).1

theorem filed_supersededBy (env : Env) (b : Metadata) {a : Metadata} (ha : Filed a) : Filed (supersededBy env b a) :=
  (sameVersion_supersededBy env b a).filed ha (history_recordStatusChange ..)

theorem statuses_supersededBy (env : Env) (b a : Metadata) :
    (supersededBy env b a).statuses = a.statuses ++ [.superseded] := statuses_recordStatusChange ..

/-- A new version is saved. -/
theorem Tidy.add {s : Store} (h : Tidy s) {m : Metadata} (hm : New m) (content : Str) :
    Tidy ((s.set m.mdPath (.markdown content)).set m.jsonPath (.sidecar m)) := by
  refine (h.markdown m content).sidecar hm.filed (fun hs => ?_) ?_
  · rw [hm.status] at hs
    cases hs
  · rw [statuses_of_new hm]
    exact ⟨rfl, .singleton _⟩

theorem Tidy.step {s : Store} (h : Tidy s) (c : Call) : Tidy (step s c) := by
  have hc := h.change c
  generalize KCore.Artifacts.step s c = s' at hc ⊢
  cases hc with
  | missing => exact h
  | created m content hc hm => exact h.add hm content
  | reviewed f hf a hl =>
    obtain ⟨ha, hopen⟩ := h.latest_open hl
    have hfa := filed_of_reviews hf (h.filed a ha)
    rw [updateMetadata_filed s hfa]
    refine h.sidecar hfa (fun hs => absurd hs (history_of_reviews hf a).2) ?_
    rw [statuses_of_reviews hf]
    exact (starts_append (getLast?_statuses (h.filed a ha))).mpr ⟨h.starts a ha, hopen⟩
  | revised b a content hc hl hb hi hlt =>
    obtain ⟨ha, hopen⟩ := h.latest_open hl
    have hfa := filed_supersededBy c.env b (h.filed a ha)
    rw [updateMetadata_filed _ hfa]
    refine (h.add hb content).sidecar hfa (fun _ => ⟨b, ?_, hi, hlt⟩) ?_
    · exact ((h.markdown b content).mem_set_sidecar b).mpr (.inl rfl)
    · rw [statuses_supersededBy]
      exact (starts_append (getLast?_statuses (h.filed a ha))).mpr ⟨h.starts a ha, hopen⟩

/-! ## Paths of the workflow -/

/-- A call approves only what is in review. -/
def InReview (s : Store) (c : Call) : Prop :=
  c.status = .approved → ∀ m ∈ getLatestById c.env.listing s c.artifactId none, m.status = .inReview

instance (s : Store) (c : Call) : Decidable (InReview s c) := by
  unfold InReview
  infer_instance

/-- Every stored version's history is a path of the workflow. -/
def Paths (s : Store) : Prop := ∀ m ∈ metas s, WorkflowPath m.statuses

instance (s : Store) : Decidable (Paths s) := by
  unfold Paths WorkflowPath Starts
  infer_instance

theorem paths_add {s : Store} (h : Tidy s) (hp : Paths s) {m : Metadata} (hm : New m) (content : Str) :
    Paths ((s.set m.mdPath (.markdown content)).set m.jsonPath (.sidecar m)) := by
  intro m' hm'
  rcases ((h.markdown m content).mem_set_sidecar m).mp hm' with rfl | ⟨hm', -⟩
  · rw [statuses_of_new hm]
    exact ⟨rfl, .singleton _⟩
  · exact hp m' ((h.mem_set_markdown m content).mp hm')

/-- A version's sidecar is rewritten with one more status. -/
theorem paths_set {s : Store} (h : Tidy s) (hp : Paths s) {a a' : Metadata} {st : Status} (ha : Filed a)
    (hst : a'.statuses = a.statuses ++ [st]) (hpa : WorkflowPath a.statuses) :
    Paths (s.set a'.jsonPath (.sidecar a')) ↔ Move a.status st := by
  have hmove : WorkflowPath a'.statuses ↔ Move a.status st := by
    rw [hst]
    exact (starts_append (getLast?_statuses ha)).trans (and_iff_right hpa)
  constructor
  · exact fun hp' => hmove.mp (hp' a' ((h.mem_set_sidecar a').mpr (.inl rfl)))
  · intro hm m hm'
    rcases (h.mem_set_sidecar a').mp hm' with rfl | ⟨hm', -⟩
    · exact hmove.mpr hm
    · exact hp m hm'

theorem paths_step {s : Store} (h : Tidy s) (hp : Paths s) (c : Call) : Paths (step s c) ↔ InReview s c := by
  have notApproving (hc : c.reviews = none) : InReview s c := by
    obtain ⟨env, op⟩ := c
    cases op <;> cases hc <;> exact Status.noConfusion
  have hch := h.change c
  generalize step s c = s' at hch ⊢
  cases hch with
  | missing hl => exact iff_of_true hp fun _ m hm => by simp [hl] at hm
  | created m content hc hm => exact iff_of_true (paths_add h hp hm content) (notApproving hc)
  | reviewed f hf a hl =>
    obtain ⟨ha, hopen⟩ := h.latest_open hl
    rw [updateMetadata_filed s (filed_of_reviews hf (h.filed a ha)),
      paths_set h hp (h.filed a ha) (statuses_of_reviews hf a) (hp a ha)]
    unfold Move InReview
    simp [hl, hopen]
  | revised b a content hc hl hb hi hlt =>
    obtain ⟨ha, hopen⟩ := h.latest_open hl
    rw [updateMetadata_filed _ (filed_supersededBy c.env b (h.filed a ha)),
      paths_set (h.add hb content) (paths_add h hp hb content) (h.filed a ha) (statuses_supersededBy c.env b a) (hp a ha)]
    exact iff_of_true ⟨hopen, Status.noConfusion⟩ (notApproving hc)

/-- After any run of calls every stored version's history starts with DRAFT, ends with its status and has
SUPERSEDED only at its end. The histories are paths of the workflow throughout the run just when each
call that approves a version finds it in review. -/
theorem status_history_ok (cs : List Call) :
    (∀ m ∈ metas (run step Dict.empty cs), Starts (fun a _ => a ≠ .superseded) m.statuses ∧
      m.statuses.getLast? = some m.status) ∧
    (Throughout step Paths Dict.empty cs ↔ Along step InReview Dict.empty cs) := by
  have hrun : Tidy (run step Dict.empty cs) :=
    run_invariant (I := Tidy) (fun _ c h _ => h.step c) tidy_empty (along_true _ cs)
  refine ⟨fun m hm => ⟨hrun.starts m hm, getLast?_statuses (hrun.filed m hm)⟩, ?_⟩
  exact throughout_iff_along (fun _ c h => h.step c) (fun _ c h hp => paths_step h hp c) tidy_empty
    fun m hm => absurd hm List.not_mem_nil

/-- A version that is approved before it is sent to review. -/
theorem approved_without_review :
    ¬Throughout step Paths Dict.empty [generateItem, approveItem] :=
  fun h => absurd (h _ (List.prefix_refl _)) (by decide +kernel)

end KCore.Artifacts
