import KCore.Proof.Artifacts.Workflow
import KCore.Impl.Artifacts.Writes

/-!
# What single file writes keep

A call is its file writes, one after another (`step_eq_applyWrites`). Between them, and after
calls that stopped, the store need not hold a ledger, but it stays `Tidy`: every sidecar that
parses lies at its own place, with files of all earlier versions beside it. `Fits` is what a sidecar
needs so that writing it keeps the store tidy, and `Begins` says what the writes of each call are.
-/

namespace KCore.Artifacts

open Text

/-! ## A call as its writes -/

@[simp] theorem applyWrites_nil (s : Store) : applyWrites [] s = s := rfl

@[simp] theorem applyWrites_cons (w : Write) (ws : List Write) (s : Store) :
    applyWrites (w :: ws) s = applyWrites ws (w.apply s) := rfl

theorem applyWrites_append (ws vs : List Write) (s : Store) :
    applyWrites (ws ++ vs) s = applyWrites vs (applyWrites ws s) := List.foldl_append ..

theorem applyAll_map_apply : ∀ (ws : List Write) (s : Store), Interleave.applyAll (ws.map Write.apply) s = applyWrites ws s
  | [], _ => rfl
  | w :: ws, s => applyAll_map_apply ws (w.apply s)

theorem updateWrite_apply (m : Metadata) (s : Store) : (updateWrite m).apply s = updateMetadata s m := by
  unfold updateWrite updateMetadata
  cases m.metadataPath <;> rfl

/-- A completed call makes all its writes. -/
theorem step_eq_applyWrites (s : Store) (c : Call) : step s c = applyWrites (c.writes s) s := by
  obtain ⟨env, op⟩ := c
  cases op with
  | generate => rfl
  | requestReview id reviewer checklist =>
    simp only [step, requestReview, Call.writes, Call.latest, Call.artifactId]
    cases getLatestById env.listing s id none with
    | none => rfl
    | some m => exact (updateWrite_apply ..).symm
  | requestChanges id changes =>
    simp only [step, requestChanges, Call.writes, Call.latest, Call.artifactId]
    cases getLatestById env.listing s id none with
    | none => rfl
    | some m => exact (updateWrite_apply ..).symm
  | approve id reviewer notes =>
    simp only [step, approve, Call.writes, Call.latest, Call.artifactId]
    cases getLatestById env.listing s id none with
    | none => rfl
    | some m => exact (updateWrite_apply ..).symm
  | revise id content changes author =>
    simp only [step, revise, Call.writes, Call.latest, Call.artifactId]
    cases getLatestById env.listing s id none with
    | none => rfl
    | some m =>
      simp only [Call.serve, applyWrites_append]
      exact (updateWrite_apply ..).symm

/-- The answer of a call is what its function returns. -/
theorem answer_eq (s : Store) (c : Call) : c.answer s =
    match c.op with
    | .generate project phase wpId title author reviewer refs content =>
      .saved (some (generate c.env s project phase wpId title author reviewer refs content).2)
    | .requestReview id reviewer checklist => .text (requestReview c.env s id reviewer checklist).2
    | .requestChanges id changes => .text (requestChanges c.env s id changes).2
    | .approve id reviewer notes => .text (approve c.env s id reviewer notes).2
    | .revise id content changes author => .saved (revise c.env s id content changes author).2 := by
  obtain ⟨env, op⟩ := c
  cases op with
  | generate => rfl
  | requestReview id reviewer checklist =>
    simp only [requestReview, Call.answer, Call.latest, Call.artifactId]
    cases getLatestById env.listing s id none <;> rfl
  | requestChanges id changes =>
    simp only [requestChanges, Call.answer, Call.latest, Call.artifactId]
    cases getLatestById env.listing s id none <;> rfl
  | approve id reviewer notes =>
    simp only [approve, Call.answer, Call.latest, Call.artifactId]
    cases getLatestById env.listing s id none <;> rfl
  | revise id content changes author =>
    simp only [revise, Call.answer, Call.latest, Call.artifactId]
    cases getLatestById env.listing s id none <;> rfl

/-! ## Sidecars at their places -/

structure Placed (s : Store) : Prop where
  holds : Holds s (· ∈ metas s)
  filed : ∀ m ∈ metas s, Filed m

/-- A text lies where a sidecar may have been. -/
theorem Holds.set_text {s : Store} {M : Metadata → Prop} (h : Holds s M) (p : Path) (text : Str) :
    Holds (s.set p (.markdown text)) fun m => M m ∧ m.jsonPath ≠ p := fun q m => by
  rw [Dict.get?_set]
  split
  · rename_i hq
    simp only [Option.some.injEq, reduceCtorEq, false_iff]
    rintro ⟨⟨-, hne⟩, he⟩
    exact hne (he.symm.trans hq)
  · rename_i hq
    rw [h q m]
    constructor
    · rintro ⟨hm, rfl⟩
      exact ⟨⟨hm, hq⟩, rfl⟩
    · rintro ⟨⟨hm, -⟩, he⟩
      exact ⟨hm, he⟩

namespace Placed

variable {s : Store} {m a : Metadata}

theorem mem_set_text (h : Placed s) (p : Path) (text : Str) :
    m ∈ metas (s.set p (.markdown text)) ↔ m ∈ metas s ∧ m.jsonPath ≠ p :=
  mem_metas_of_holds (h.holds.set_text p text)

theorem mem_set_sidecar (h : Placed s) (a : Metadata) :
    m ∈ metas (s.set a.jsonPath (.sidecar a)) ↔ m = a ∨ m ∈ metas s ∧ m.jsonPath ≠ a.jsonPath :=
  mem_metas_of_holds (h.holds.set_sidecar a)

theorem set_text (h : Placed s) (p : Path) (text : Str) : Placed (s.set p (.markdown text)) :=
  ⟨holds_metas (h.holds.set_text p text), fun m hm => h.filed m ((h.mem_set_text p text).mp hm).1⟩

theorem set_sidecar (h : Placed s) (ha : Filed a) : Placed (s.set a.jsonPath (.sidecar a)) := by
  refine ⟨holds_metas (h.holds.set_sidecar a), fun m hm => ?_⟩
  rcases (h.mem_set_sidecar a).mp hm with rfl | ⟨hm, -⟩
  · exact ha
  · exact h.filed m hm

/-- What the query by id goes through. -/
theorem mem_matches (h : Placed s) {g : Listing} {i : Str} :
    m ∈ (listMetadata g s none none none).filter (·.artifactId = i) ↔ m ∈ metas s ∧ m.artifactId = i := by
  rw [List.mem_filter, decide_eq_true_eq, mem_listMetadata, mem_metas]
  refine and_congr_left fun _ => ⟨fun ⟨p, hp, _⟩ => ⟨p, hp⟩, fun ⟨p, hp⟩ => ⟨p, hp, List.nil_prefix, ?_⟩⟩
  rw [((h.holds p m).mp hp).2]
  exact isSidecarName_json ..

theorem latest_none (h : Placed s) {g : Listing} {i : Str} :
    getLatestById g s i none = none ↔ ∀ m ∈ metas s, m.artifactId ≠ i := by
  rw [getLatestById, List.argmax_eq_none, List.eq_nil_iff_forall_not_mem]
  simp only [h.mem_matches, not_and]

/-- The latest version by id is one with the highest number. -/
theorem latest_some (h : Placed s) {g : Listing} {i : Str} (ha : getLatestById g s i none = some a) :
    a ∈ metas s ∧ a.artifactId = i ∧ ∀ m ∈ metas s, m.artifactId = i → m.version ≤ a.version := by
  have hmem := h.mem_matches.mp (List.argmax_mem ha)
  exact ⟨hmem.1, hmem.2, fun m hm hi => List.le_of_mem_argmax (h.mem_matches.mpr ⟨hm, hi⟩) ha⟩

end Placed

/-! ## What a call begins -/

/-- The call makes a new artifact. -/
def Call.Generates (c : Call) : Prop :=
  match c.op with
  | .generate .. => True
  | _ => False

/-- The writes and the answer of a call. -/
inductive Begins (s : Store) (c : Call) : List Write → Returned → Prop
  | missing (h : c.latest s = none) (hc : ¬c.Generates) (returned : Returned) (hr : ∀ m, returned ≠ .saved (some m)) :
      Begins s c [] returned
  | created (b : Metadata) (content : Str) (hc : c.Generates) (hi : b.artifactId = c.artifactId) (h1 : b.version = 1)
      (hb : New b) : Begins s c [⟨b.mdPath, .markdown content⟩, ⟨b.jsonPath, .sidecar b⟩] (.saved (some b))
  | reviewed (a : Metadata) (h : c.latest s = some a) (f : Metadata → Metadata) (hf : c.reviews = some f) (t : Str) :
      Begins s c [⟨a.jsonPath, .sidecar (f a)⟩] (.text t)
  | revised (a : Metadata) (h : c.latest s = some a) (b : Metadata) (hn : Next (supersededBy c.env b a) b) (hb : New b)
      (id newContent : Str) (changes : Raw) (author : Option Str) (hc : c.op = .revise id newContent changes author) :
      Begins s c
        [⟨b.mdPath, .markdown (replaceDocumentControl newContent (renderDocumentControl b b.upstreamRefs))⟩,
          ⟨b.jsonPath, .sidecar b⟩, ⟨a.jsonPath, .sidecar (supersededBy c.env b a)⟩] (.saved (some b))

theorem placed_eq (m : Metadata) : placed m = withPaths m := rfl

theorem saveWrites_eq (m : Metadata) (content : Str) : saveWrites m content =
    [⟨(withPaths m).mdPath, .markdown content⟩, ⟨(withPaths m).jsonPath, .sidecar (withPaths m)⟩] := rfl

theorem updateWrite_of_filed {m : Metadata} (h : Filed m) : updateWrite m = ⟨m.jsonPath, .sidecar m⟩ := by
  rw [updateWrite, h.json]

theorem Placed.begins {s : Store} (h : Placed s) (c : Call) : Begins s c (c.writes s) (c.answer s) := by
  unfold Call.writes Call.answer
  obtain ⟨env, op⟩ := c
  have review {f : Metadata → Metadata} {a : Metadata} (hl : Call.latest ⟨env, op⟩ s = some a)
      (hf : Call.reviews ⟨env, op⟩ = some f) (t : Str) : Begins s ⟨env, op⟩ [updateWrite (f a)] (.text t) := by
    have ha := h.filed a (h.latest_some hl).1
    rw [updateWrite_of_filed (filed_of_reviews hf ha), (sameVersion_of_reviews hf a).jsonPath]
    exact .reviewed a hl f hf t
  have created {m : Metadata} (hc : Call.Generates ⟨env, op⟩) (hi : m.artifactId = Call.artifactId ⟨env, op⟩)
      (h1 : m.version = 1) (hm : New (withPaths m)) (content : Str) :
      Begins s ⟨env, op⟩ (saveWrites m content) (.saved (some (placed m))) := by
    rw [placed_eq, saveWrites_eq]
    exact .created (withPaths m) content hc hi h1 hm
  cases op with
  | generate project phase wpId title author reviewer refs content =>
    simp only [Call.serve]
    refine created (m := buildMetadata ..) trivial rfl rfl ?_ content
    exact new_withPaths (artifactIdOr_ne_nil [] wpId _ _) (isSlug_normalizeProjectSlug project) rfl rfl rfl
  | requestReview | requestChanges | approve =>
    cases hl : Call.latest ⟨env, _⟩ s with
    | none =>
      simp only [Call.serve]
      exact .missing hl id _ fun m hm => by cases hm
    | some a =>
      simp only [Call.serve]
      exact review hl (show _ = some _ from rfl) _
  | revise i newContent changes author =>
    cases hl : Call.latest ⟨env, _⟩ s with
    | none => exact .missing hl id _ fun m hm => by cases hm
    | some a =>
      have ha := h.filed a (h.latest_some hl).1
      have hnew : New (withPaths (revisedFrom env author changes a)) :=
        new_withPaths (artifactIdOr_ne_nil _ _ _ _) (isSlug_normalizeProjectSlug _) rfl rfl rfl
      simp only [Call.serve, placed_eq, saveWrites_eq]
      rw [updateWrite_of_filed (filed_supersededBy env _ ha), (sameVersion_supersededBy env _ a).jsonPath]
      exact .revised a hl _ (next_supersededBy env author changes ha) hnew i newContent changes author rfl

end KCore.Artifacts
