import KCore.Impl.Artifacts.Assistants
import KCore.Proof.Artifacts.CoreTools
import KCore.Proof.Artifacts.Gate
import KCore.Proof.Artifacts.Slugs

/-!
# The tools on top of the workflow

A call of a tool makes at most one call of the review workflow, and does nothing else to the
store. `Makes` says which one: a generator calls `generate` with references to the upstream that it
has found, or with none where its input allows that; a review tool passes the id of its input on.
A run of tools is so a run of the workflow (`tools_refine_workflow`).
-/

namespace KCore.Artifacts.Assistants

open CoreTools (firstOf)
open Text

/-! ## The call that a tool makes -/

/-- The input of a tool, `none` where it is no dictionary. -/
def Event.input (e : Event) (toolInput : Str) : Option Values :=
  match CoreTools.parseToolInput e.platform.toPlatform toolInput with
  | some (.dict data) => some data
  | some .other | none => none

/-- The artifact that the input of a review tool is about. -/
def Event.names (e : Event) (toolInput : Str) : Option Value :=
  (e.input toolInput).map fun data => firstOf data ["artifact_id".toList, "text".toList]

/-- The project of a generator's call. -/
def World.project (w : World) (e : Event) (data : Values) : Str := projectOf (w.config e) data (w.users e.user).values

/-- The references of a draft: to an approved version for each requirement, or none where the input allows that. -/
def Referred (s : Store) (project : Str) (data : Values) (reqs : List Requirement) (refs : List UpstreamRef) : Prop :=
  (∃ upstream, refs = makeUpstreamRefs upstream ∧ List.Forall₂ (ApprovedVersion s project) reqs upstream) ∨
    refs = [] ∧ (data.value allowKey).truthy = true

/-- The call of the workflow that a call of a tool makes, if any. -/
inductive Makes (w : World) (e : Event) : Option Call → Prop
  | quiet : Makes w e none
  | generate {wp : WorkProduct} {toolInput : Str} {data : Values} (hu : e.use = .generate wp toolInput)
      (hd : e.input toolInput = some data) {author reviewer content : Str} {refs : List UpstreamRef}
      (hr : Referred w.store (w.project e data) data wp.upstream refs) :
      Makes w e (some ⟨e.platform.env,
        .generate (w.project e data) wp.phase wp.wpId wp.title author reviewer refs content⟩)
  | requestReview {wp : WorkProduct} {toolInput id : Str} (hu : e.use = .requestReview wp toolInput)
      (hn : e.names toolInput = some (.text id)) {reviewer : Option Str} :
      Makes w e (some ⟨e.platform.env, .requestReview id reviewer wp.reviewChecklist⟩)
  | requestChanges {wp : WorkProduct} {toolInput id : Str} (hu : e.use = .requestChanges wp toolInput)
      (hn : e.names toolInput = some (.text id)) {changes : Raw} :
      Makes w e (some ⟨e.platform.env, .requestChanges id changes⟩)
  | revise {wp : WorkProduct} {toolInput id : Str} (hu : e.use = .revise wp toolInput)
      (hn : e.names toolInput = some (.text id)) {content : Str} {changes : List Str} {author : Str} :
      Makes w e (some ⟨e.platform.env, .revise id content (.list changes) (some author)⟩)
  | approve {wp : WorkProduct} {toolInput id : Str} (hu : e.use = .approve wp toolInput)
      (hn : e.names toolInput = some (.text id)) {reviewer notes : Option Str} :
      Makes w e (some ⟨e.platform.env, .approve id reviewer notes⟩)

/-- The store after a call, if there is one. -/
def stepIf (s : Store) (c : Option Call) : Store := c.elim s (step s)

/-! ## Generators -/

/-- What a generator does to the store. -/
def Drafts (wp : WorkProduct) (env : Env) (s s' : Store) (project : Str) (data : Values) : Prop :=
  s' = s ∨ ∃ author reviewer refs content,
    s' = step s ⟨env, .generate project wp.phase wp.wpId wp.title author reviewer refs content⟩ ∧
      Referred s project data wp.upstream refs

theorem Generator.run_drafts (g : Generator) (env : Env) (cfg : Config) (s : Store) (memory data : Values) :
    (g.run env cfg s memory data).2.1 = s ∨ ∃ author reviewer refs content,
      (g.run env cfg s memory data).2.1 = step s ⟨env, .generate (projectOf cfg data memory) g.phase g.wpId g.title author
        reviewer refs content⟩ ∧ Referred s (projectOf cfg data memory) data g.upstream refs := by
  unfold Generator.run projectOf
  obtain ⟨project, memory₁⟩ := getProjectSlug cfg data memory
  dsimp only
  obtain ⟨fields, missing, memory₂⟩ := readFields data requiredFields memory₁
  dsimp only
  obtain ⟨upstream, missingUpstream, hup⟩ : ∃ upstream missing,
      resolveUpstream env.listing s project g.upstream = (upstream, missing) := ⟨_, _, rfl⟩
  rw [hup]
  dsimp only
  split
  · exact .inl rfl
  split
  · exact .inl rfl
  rename_i hallow
  refine .inr ⟨_, _, _, _, rfl, ?_⟩
  by_cases hm : missingUpstream = []
  · have happroved := (resolveUpstream_missing (g := env.listing) (s := s) g.approved).mp
      ((congrArg Prod.snd hup).trans hm)
    have hfound := resolveUpstream_found (g := env.listing) g.approved happroved
    rw [hup] at hfound
    exact .inl ⟨upstream, by rw [if_pos hm], hfound⟩
  · exact .inr ⟨by rw [if_neg hm]; rfl, by simpa [hm] using hallow⟩

theorem generateSafetyPlan_drafts (env : Env) (cfg : Config) (s : Store) (memory data : Values) :
    Drafts .safetyPlan env s (generateSafetyPlan env cfg s memory data).2.1 (projectOf cfg data memory) data := by
  unfold Drafts generateSafetyPlan projectOf
  obtain ⟨project, memory₁⟩ := getProjectSlug cfg data memory
  dsimp only
  obtain ⟨fields, missing, memory₂⟩ := readFields data SafetyPlan.requiredFields memory₁
  dsimp only
  split
  · exact .inl rfl
  · exact .inr ⟨_, _, _, _, rfl, .inl ⟨[], rfl, .nil⟩⟩

theorem saveHaraArtifact_drafts (env : Env) (load : Hara.ModuleLoad) (s : Hara.Session) (data : Values) (project : Str)
    (itemName author : Value) :
    Drafts .hara env s.store (Hara.saveHaraArtifact env load s data project itemName author).1.store project data := by
  unfold Drafts Hara.saveHaraArtifact
  split
  · exact .inl rfl
  · exact .inl rfl
  · exact .inl rfl
  · exact .inr ⟨_, _, _, _, rfl, .inl ⟨[], rfl, .nil⟩⟩

theorem generateHara_drafts (env : Env) (cfg : Config) (load : Hara.ModuleLoad) (s : Hara.Session) (data : Values) :
    Drafts .hara env s.store (Hara.generateHaraArtifact env cfg load s data).1.store (projectOf cfg data s.values)
      data := by
  unfold Hara.generateHaraArtifact projectOf
  obtain ⟨project, values₁⟩ := getProjectSlug cfg data s.values
  dsimp only
  obtain ⟨itemName, values₂⟩ := getValue data values₁ "item_name".toList
  dsimp only
  obtain ⟨author, values₃⟩ := getValue data values₂ "author".toList
  dsimp only
  split
  · exact .inl rfl
  · exact saveHaraArtifact_drafts env load { s with values := values₃ } data project itemName author

theorem World.generate_drafts (w : World) (e : Event) (data : Values) (wp : WorkProduct) :
    Drafts wp e.platform.env w.store (w.generate e data wp).2.store (w.project e data) data := by
  cases wp with
  | safetyPlan => exact generateSafetyPlan_drafts ..
  | hara => exact generateHara_drafts ..
  | fsc => exact Generator.run_drafts Artifacts.fsc ..
  | tsc => exact Generator.run_drafts Artifacts.tsc ..
  | hwSrs => exact Generator.run_drafts Artifacts.hwSrs ..
  | swSrs => exact Generator.run_drafts Assistants.swSrs ..
  | safetyManual => exact Generator.run_drafts Assistants.safetyManual ..
  | safetyCase => exact Generator.run_drafts Artifacts.safetyCase ..

/-! ## Review tools -/

/-- A review tool leaves the store, or goes on with the id of its input. -/
theorem withArtifactId_store (s : Store) (data : Values) (missingFields : List Str) (call : Str → Store × Option Str) :
    (withArtifactId s data missingFields fun artifactId => onText s artifactId call).1 = s ∨
      ∃ id, firstOf data ["artifact_id".toList, "text".toList] = .text id ∧
        (withArtifactId s data missingFields fun artifactId => onText s artifactId call).1 = (call id).1 := by
  unfold withArtifactId onText
  cases hv : firstOf data ["artifact_id".toList, "text".toList] with
  | text id =>
    dsimp only
    split
    · exact .inr ⟨id, rfl, rfl⟩
    · exact .inl rfl
  | null | bool | number | list | object =>
    dsimp only
    split <;> exact .inl rfl

theorem reviseTool_store (title : Str) (p : ReviseTools.Platform) (s : Store) (data : Values) :
    (reviseTool title p s data).1 = s ∨
      ∃ id, firstOf data ["artifact_id".toList, "text".toList] = .text id ∧ ∃ content changes author,
        (reviseTool title p s data).1 = step s ⟨p.env, .revise id content (.list changes) (some author)⟩ := by
  unfold reviseTool
  rcases withArtifactId_store s data ["artifact_id".toList] _ with h | ⟨id, hid, h⟩
  · exact .inl h
  · rw [h]
    split
    · exact .inl rfl
    · rename_i previous _
      dsimp only
      split
      · exact .inl rfl
      · rename_i newContent _
        refine .inr ⟨id, hid, newContent, ensureList (data.value "change_requests".toList).raw, previous.author, ?_⟩
        show _ = (revise p.env s id newContent _ _).1
        split <;> rename_i hr <;> rw [hr]

theorem revisedContent_concept (c : ReviseTools.Concept) (p : ReviseTools.Platform) (s : Store) (previous : Metadata)
    (changeRequests : List Str) (revisedDocument : Value) :
    revisedContent c.title p s previous changeRequests revisedDocument =
      ReviseTools.newContent c p s previous changeRequests revisedDocument := by
  unfold revisedContent ReviseTools.newContent ReviseTools.answer
  cases changeRequests with
  | nil => rfl
  | cons request requests => rfl

/-- `revise_hara` and `revise_fsc` are the tools of their titles. -/
theorem reviseTool_concept (c : ReviseTools.Concept) : ReviseTools.reviseTool c = reviseTool c.title := by
  funext p s data
  unfold ReviseTools.reviseTool reviseTool withArtifactId onText
  cases firstOf data ["artifact_id".toList, "text".toList] with
  | text id =>
    have hcontent : revisedContent c.title p s = ReviseTools.newContent c p s := by
      funext previous changeRequests revisedDocument
      exact revisedContent_concept ..
    generalize revisedContent c.title p s = content at hcontent
    subst hcontent
    rfl
  | null | bool | number | list | object => rfl

/-! ## One call -/

/-- A tool that does not read its input leaves the store. -/
theorem World.withData_makes (w : World) (e : Event) (toolInput : Str) (tool : Values → Option Str × World)
    (h : ∀ data, e.input toolInput = some data → ∃ c, Makes w e c ∧ (tool data).2.store = stepIf w.store c) :
    ∃ c, Makes w e c ∧ (w.withData e toolInput tool).2.store = stepIf w.store c := by
  unfold World.withData
  unfold Event.input at h
  split
  · rename_i data hd
    exact h data (by rw [hd])
  · exact ⟨none, .quiet, rfl⟩
  · exact ⟨none, .quiet, rfl⟩

theorem core_store (p : CoreTools.Platform) (w : CoreTools.World) (toolInput : Str) (tool : CoreTools.Tool) :
    (CoreTools.call p w toolInput tool).2.store = w.store := by
  cases tool with
  | setIso26262Project =>
    refine CoreTools.withData_store fun data => ?_
    dsimp only
    split <;> rfl
  | listIso26262Artifacts => exact CoreTools.withData_store fun _ => rfl
  | showIso26262Artifact => exact CoreTools.withData_store fun _ => rfl
  | showIso26262Traceability => exact CoreTools.withData_store fun _ => rfl

theorem World.after_makes (w : World) (e : Event) : ∃ c, Makes w e c ∧ (w.after e).store = stepIf w.store c := by
  have hnames {toolInput : Str} {data : Values} {id : Str} (hd : e.input toolInput = some data)
      (hid : firstOf data ["artifact_id".toList, "text".toList] = .text id) : e.names toolInput = some (.text id) := by
    rw [Event.names, hd, Option.map_some, hid]
  unfold World.after World.call
  cases hu : e.use with
  | core tool toolInput => exact ⟨none, .quiet, core_store ..⟩
  | hara call => exact ⟨none, .quiet, rfl⟩
  | generate wp toolInput =>
    refine w.withData_makes e toolInput _ fun data hd => ?_
    rcases w.generate_drafts e data wp with h | ⟨author, reviewer, refs, content, h, hr⟩
    · exact ⟨none, .quiet, h⟩
    · exact ⟨some _, .generate hu hd hr, h⟩
  | requestReview wp toolInput =>
    refine w.withData_makes e toolInput _ fun data hd => ?_
    rcases withArtifactId_store w.store data ["artifact_id".toList] _ with h | ⟨id, hid, h⟩
    · exact ⟨none, .quiet, h⟩
    · exact ⟨some _, .requestReview hu (hnames hd hid), h⟩
  | requestChanges wp toolInput =>
    refine w.withData_makes e toolInput _ fun data hd => ?_
    rcases withArtifactId_store w.store data ["artifact_id".toList, "change_requests".toList] _ with h | ⟨id, hid, h⟩
    · exact ⟨none, .quiet, h⟩
    · exact ⟨some _, .requestChanges hu (hnames hd hid), h⟩
  | revise wp toolInput =>
    refine w.withData_makes e toolInput _ fun data hd => ?_
    rcases reviseTool_store wp.title ⟨e.platform.env, e.platform.readable, e.platform.llm⟩ w.store data with
      h | ⟨id, hid, content, changes, author, h⟩
    · exact ⟨none, .quiet, h⟩
    · exact ⟨some _, .revise hu (hnames hd hid), h⟩
  | approve wp toolInput =>
    refine w.withData_makes e toolInput _ fun data hd => ?_
    rcases withArtifactId_store w.store data ["artifact_id".toList, "reviewer".toList] _ with h | ⟨id, hid, h⟩
    · exact ⟨none, .quiet, h⟩
    · exact ⟨some _, .approve hu (hnames hd hid), h⟩

/-! ## Runs -/

/-- The calls of the workflow that a run of tools makes, in order. -/
def Calls : World → List Event → List Call → Prop
  | _, [], cs => cs = []
  | w, e :: es, cs => ∃ c cs', Makes w e c ∧ cs = c.toList ++ cs' ∧ Calls (w.after e) es cs'

/-- A generator's id is not in use yet. -/
def FreshId (w : World) (e : Event) : Prop :=
  match e.use with
  | .generate wp _ =>
    artifactIdOr [] wp.wpId (e.platform.now 1) e.platform.suffix ∉ (metas w.store).map (·.artifactId)
  | _ => True

instance (w : World) (e : Event) : Decidable (FreshId w e) := by
  unfold FreshId
  cases e.use <;> infer_instance

theorem Makes.fresh {w : World} {e : Event} {c : Call} (h : Makes w e (some c)) (hf : FreshId w e) : Fresh w.store c := by
  cases h with
  | generate hu =>
    rw [FreshId, hu] at hf
    exact hf
  | requestReview | requestChanges | revise | approve => exact trivial

/-- A run of the tools is a run of the workflow: in the order of the tools, each makes at most one call,
the one that `Makes` says, and together the calls make the store what the tools make it. -/
theorem tools_refine_workflow (w : World) (es : List Event) : ∃ cs, Calls w es cs ∧
    (Machine.run World.after w es).store = Machine.run step w.store cs ∧
    (Machine.Along World.after FreshId w es → Machine.Along step Fresh w.store cs) := by
  induction es generalizing w with
  | nil => exact ⟨[], rfl, rfl, fun _ => trivial⟩
  | cons e es ih =>
    obtain ⟨c, hm, hstore⟩ := w.after_makes e
    obtain ⟨cs, hcs, hrun, hfresh⟩ := ih (w.after e)
    refine ⟨c.toList ++ cs, ⟨c, cs, hm, rfl, hcs⟩, ?_, fun h => ?_⟩
    · rw [Machine.run_cons, hrun, hstore]
      cases c <;> rfl
    · have hf := hfresh h.2
      rw [hstore] at hf
      cases c with
      | none => exact hf
      | some c => exact ⟨hm.fresh h.1, hf⟩

end KCore.Artifacts.Assistants
