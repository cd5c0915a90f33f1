import KCore.Impl.Artifacts.Generators
import KCore.Proof.Artifacts.Review

/-!
# The gate of the generators

A generator saves a draft when its required fields have values and the project holds an
approved version for each of its upstream requirements, and reports what is missing else
(`Gated`). Only an input whose `allow_missing_upstream` is another value than `true` that
`bool()` takes for true gets past it: `generators_gated_iff`.
-/

namespace KCore.Artifacts

open Text

/-! ## The upstream -/

/-- `m` is kept in the project as an approved version of the work product that is required. -/
structure ApprovedVersion (s : Store) (project : Str) (req : Requirement) (m : Metadata) : Prop where
  stored : ∃ p, s.get? p = some (.sidecar m) ∧ listBase (some project) req.phase req.wpId <+: p.dir ∧
    isSidecarName p.name = true
  status : m.status = .approved

theorem Status.text_inj {a b : Status} (h : a.text = b.text) : a = b := by
  revert a b
  have hall : ∀ a ∈ [Status.draft, .inReview, .approved, .superseded], ∀ b ∈ [Status.draft, .inReview, .approved,
      .superseded], a.text = b.text → a = b := by decide
  intro a b
  refine hall a ?_ b ?_
  · cases a <;> decide
  · cases b <;> decide

theorem upstreamQuery_eq {g : Listing} {s : Store} {project : Str} {req : Requirement}
    (hreq : req.wanted = Status.approved.text) : upstreamQuery g s project req =
      ((listMetadata g s (some project) req.phase req.wpId).filter (·.status.text = Status.approved.text)).argmax
        (·.version) := by
  rw [upstreamQuery, hreq]
  rfl

theorem mem_approved {g : Listing} {s : Store} {project : Str} {req : Requirement} {m : Metadata} :
    m ∈ (listMetadata g s (some project) req.phase req.wpId).filter (·.status.text = Status.approved.text) ↔
      ApprovedVersion s project req m := by
  rw [List.mem_filter, mem_listMetadata, decide_eq_true_eq]
  exact ⟨fun h => ⟨h.1, Status.text_inj h.2⟩, fun h => ⟨h.stored, congrArg Status.text h.status⟩⟩

/-- What the query finds is an approved version. -/
theorem upstreamQuery_approved {g : Listing} {s : Store} {project : Str} {req : Requirement} {m : Metadata}
    (hreq : req.wanted = Status.approved.text) (h : upstreamQuery g s project req = some m) :
    ApprovedVersion s project req m := by
  rw [upstreamQuery_eq hreq] at h
  exact mem_approved.mp (List.argmax_mem h)

/-- The query finds a version if there is one. -/
theorem upstreamQuery_isSome {g : Listing} {s : Store} {project : Str} {req : Requirement}
    (hreq : req.wanted = Status.approved.text) :
    (upstreamQuery g s project req).isSome = true ↔ ∃ m, ApprovedVersion s project req m := by
  constructor
  · intro h
    obtain ⟨m, hm⟩ := Option.isSome_iff_exists.mp h
    exact ⟨m, upstreamQuery_approved hreq hm⟩
  · rintro ⟨m, hm⟩
    rw [Option.isSome_iff_ne_none, upstreamQuery_eq hreq, ne_eq, List.argmax_eq_none]
    exact List.ne_nil_of_mem (mem_approved.mpr hm)

theorem forall₂_filterMap {α β : Type*} {f : α → Option β} {R : α → β → Prop} :
    ∀ {l : List α}, (∀ a ∈ l, ∃ b, f a = some b ∧ R a b) → List.Forall₂ R l (l.filterMap f)
  | [], _ => .nil
  | a :: l, h => by
    obtain ⟨b, hb, hR⟩ := h a (.head _)
    rw [List.filterMap_cons_some hb]
    exact .cons hR (forall₂_filterMap fun x hx => h x (.tail _ hx))

/-- Nothing is missing upstream just where every requirement has an approved version. -/
theorem resolveUpstream_missing {g : Listing} {s : Store} {project : Str} {reqs : List Requirement}
    (hreqs : ∀ req ∈ reqs, req.wanted = Status.approved.text) :
    (resolveUpstream g s project reqs).2 = [] ↔ ∀ req ∈ reqs, ∃ m, ApprovedVersion s project req m := by
  rw [resolveUpstream_eq, List.filter_eq_nil_iff]
  refine forall₂_congr fun req hreq => ?_
  rw [← upstreamQuery_isSome (hreqs req hreq), Option.isNone_iff_eq_none, ← ne_eq, Option.isSome_iff_ne_none]

/-- The versions found, one for each requirement. -/
theorem resolveUpstream_found {g : Listing} {s : Store} {project : Str} {reqs : List Requirement}
    (hreqs : ∀ req ∈ reqs, req.wanted = Status.approved.text)
    (h : ∀ req ∈ reqs, ∃ m, ApprovedVersion s project req m) :
    List.Forall₂ (ApprovedVersion s project) reqs (resolveUpstream g s project reqs).1 := by
  rw [resolveUpstream_eq]
  refine forall₂_filterMap fun req hreq => ?_
  obtain ⟨m, hm⟩ := Option.isSome_iff_exists.mp ((upstreamQuery_isSome (g := g) (hreqs req hreq)).mpr (h req hreq))
  exact ⟨m, hm, upstreamQuery_approved (hreqs req hreq) hm⟩

theorem name_eq {a b : Name} (h : a.val = b.val) : a = b := by
  cases a
  cases b
  cases h
  rfl

/-- In a store that calls have written, an approved version that is found is one of the project and the work product. -/
theorem ApprovedVersion.fields {s : Store} {L : Ledger Str Metadata} (h : Refines s L) {project : Str}
    (hp : project ≠ []) {phase wpId : Name} {m : Metadata} (hm : ApprovedVersion s project (approvedWp phase wpId) m) :
    m.projectSlug = normalizeProjectSlug project ∧ m.phase = phase ∧ m.wpId = wpId := by
  obtain ⟨p, hget, hdir, -⟩ := hm.stored
  obtain ⟨hL, rfl⟩ := (h.holds p m).mp hget
  have hslug := (h.filed _ m hL).2.slug.normalizeProjectSlug_eq
  have hbase : listBase (some project) (some phase) (some wpId) =
      [normalizeProjectSlug project, phase.val, wpId.val] := by
    obtain ⟨c, cs, rfl⟩ := List.exists_cons_of_ne_nil hp
    rfl
  have hpath : m.jsonPath.dir = [m.projectSlug, m.phase.val, m.wpId.val] := by
    show [normalizeProjectSlug m.projectSlug] ++ [m.phase.val, m.wpId.val] = _
    rw [hslug]
    rfl
  have heq : [normalizeProjectSlug project, phase.val, wpId.val] = [m.projectSlug, m.phase.val, m.wpId.val] := by
    rw [← hbase, ← hpath]
    refine hdir.eq_of_length ?_
    show (listBase (some project) (some phase) (some wpId)).length = _
    rw [hbase, hpath]
    rfl
  simp only [List.cons.injEq, and_true] at heq
  exact ⟨heq.1.symm, name_eq heq.2.1.symm, name_eq heq.2.2.symm⟩

/-! ## The input -/

/-- The field has a value in the input, or else in the working memory. -/
def HasValue (data memory : Values) (field : Str) : Prop :=
  (coalesce [data.value field, memory.value field]).truthy = true

instance (data memory : Values) (field : Str) : Decidable (HasValue data memory field) :=
  inferInstanceAs (Decidable (_ = true))

theorem Values.value_set_of_ne (d : Values) {k k' : Str} (v : Value) (h : k' ≠ k) :
    Values.value (d.set k v) k' = d.value k' := by
  rw [Values.value, Dict.get?_set_of_ne _ _ h, Values.value]

theorem truthy_getValue (data memory : Values) (field : Str) :
    (getValue data memory field).1.truthy = true ↔ HasValue data memory field := by
  unfold getValue HasValue
  generalize coalesce [data.value field, memory.value field] = v
  cases v <;> rfl

/-- Reading a field leaves the other keys of the working memory. -/
theorem value_getValue (data memory : Values) {field key : Str} (h : key ≠ field) :
    (getValue data memory field).2.value key = memory.value key := by
  unfold getValue
  generalize coalesce [data.value field, memory.value field] = v
  have hset (v : Value) : Values.value (if v.truthy then memory.set field v else memory) key = memory.value key := by
    split
    · exact Values.value_set_of_ne memory v h
    · rfl
  cases v with
  | null => rfl
  | bool | number | text | list | object => exact hset _

theorem value_getProjectSlug (cfg : Config) (data memory : Values) {key : Str} (h : key ≠ projectSlugKey) :
    (getProjectSlug cfg data memory).2.value key = memory.value key := by
  unfold getProjectSlug
  extract_lets provided
  split
  · exact Values.value_set_of_ne memory _ h
  · split
    · rfl
    · repeat' split
      all_goals rfl

/-- The missing fields are those without a value. -/
theorem missing_readFields (data : Values) : ∀ {fields : List Str} {memory : Values}, fields.Nodup →
    (readFields data fields memory).2.1 = fields.filter fun field => ¬HasValue data memory field
  | [], _, _ => rfl
  | field :: fields, memory, h => by
    obtain ⟨hnot, hnodup⟩ := List.nodup_cons.mp h
    have hvalue : ∀ f ∈ fields, HasValue data (getValue data memory field).2 f ↔ HasValue data memory f := by
      intro f hf
      have hne : f ≠ field := fun he => hnot (he ▸ hf)
      rw [HasValue, value_getValue data memory hne, HasValue]
    have hrest : (readFields data fields (getValue data memory field).2).2.1 = _ := missing_readFields data hnodup
    rw [List.filter_congr fun f hf => decide_eq_decide.mpr (not_congr (hvalue f hf))] at hrest
    have hmissing : (readFields data (field :: fields) memory).2.1 =
        if (getValue data memory field).1.truthy then (readFields data fields (getValue data memory field).2).2.1
        else field :: (readFields data fields (getValue data memory field).2).2.1 := rfl
    rw [hmissing, hrest]
    by_cases hf : HasValue data memory field
    · rw [if_pos ((truthy_getValue data memory field).mpr hf), List.filter_cons_of_neg (by simpa using hf)]
    · rw [if_neg (mt (truthy_getValue data memory field).mp hf), List.filter_cons_of_pos (by simpa using hf)]

/-! ## A call -/

/-- The project of a call. -/
def projectOf (cfg : Config) (data memory : Values) : Str := (getProjectSlug cfg data memory).1

/-- The required fields have values. -/
def Complete (data memory : Values) : Prop := ∀ field ∈ requiredFields, HasValue data memory field

/-- The project has an approved version for every upstream requirement. -/
def Generator.UpstreamApproved (g : Generator) (cfg : Config) (s : Store) (memory data : Values) : Prop :=
  ∀ req ∈ g.upstream, ∃ m, ApprovedVersion s (projectOf cfg data memory) req m

def Answer.IsReport : Answer → Prop
  | missingInputs _ | missingUpstream _ => True
  | created _ => False

instance : DecidablePred Answer.IsReport
  | .missingInputs _ | .missingUpstream _ => .isTrue trivial
  | .created _ => .isFalse id

theorem missing_eq_nil (cfg : Config) (data memory : Values) :
    (readFields data requiredFields (getProjectSlug cfg data memory).2).2.1 = [] ↔ Complete data memory := by
  have hnodup : requiredFields.Nodup := by decide
  have hkey : ∀ field ∈ requiredFields, field ≠ projectSlugKey := by decide
  rw [missing_readFields data hnodup, List.filter_eq_nil_iff]
  refine forall₂_congr fun field hfield => ?_
  rw [decide_eq_true_eq, not_not, HasValue, HasValue, value_getProjectSlug cfg data memory (hkey field hfield)]

variable (g : Generator) (env : Env) (cfg : Config) (s : Store) (memory data : Values)

theorem Generator.run_of_incomplete (h : ¬Complete data memory) :
    (g.run env cfg s memory data).2.1 = s ∧ (g.run env cfg s memory data).2.2.IsReport := by
  rw [← missing_eq_nil cfg] at h
  have hrun : g.run env cfg s memory data = (_, s, .missingInputs _) := if_pos h
  rw [hrun]
  exact ⟨rfl, trivial⟩

theorem Generator.run_of_missing (h : Complete data memory) (hu : ¬g.UpstreamApproved cfg s memory data)
    (ha : (data.value allowKey).truthy = false) :
    (g.run env cfg s memory data).2.1 = s ∧ (g.run env cfg s memory data).2.2.IsReport := by
  rw [← missing_eq_nil cfg] at h
  rw [UpstreamApproved, ← resolveUpstream_missing (g := env.listing) g.approved] at hu
  have hcond : (decide ((resolveUpstream env.listing s (projectOf cfg data memory) g.upstream).2 ≠ []) &&
      !(data.value allowKey).truthy) = true := by
    rw [ha, decide_eq_true hu]
    rfl
  have hrun : g.run env cfg s memory data = (_, s, .missingUpstream _) :=
    (if_neg (not_not.mpr h)).trans (if_pos hcond)
  rw [hrun]
  exact ⟨rfl, trivial⟩

/-- What a generator saves when it gets past the gate. -/
theorem Generator.run_of_passed (h : Complete data memory)
    (hp : g.UpstreamApproved cfg s memory data ∨ (data.value allowKey).truthy = true) :
    ∃ m content, (g.run env cfg s memory data).2 =
        ((saveArtifact s m content).1, .created (saveArtifact s m content).2) ∧
      m.wpId = g.wpId ∧ m.phase = g.phase ∧ m.projectSlug = normalizeProjectSlug (projectOf cfg data memory) ∧
      m.version = 1 ∧ m.status = .draft ∧
      (g.UpstreamApproved cfg s memory data → m.upstreamRefs =
        makeUpstreamRefs (resolveUpstream env.listing s (projectOf cfg data memory) g.upstream).1) := by
  rw [← missing_eq_nil cfg] at h
  have hmissing : (resolveUpstream env.listing s (projectOf cfg data memory) g.upstream).2 = [] ↔
      g.UpstreamApproved cfg s memory data := resolveUpstream_missing g.approved
  have hcond : ¬(decide ((resolveUpstream env.listing s (projectOf cfg data memory) g.upstream).2 ≠ []) &&
      !(data.value allowKey).truthy) = true := by
    simp only [Bool.and_eq_true, decide_eq_true_eq, Bool.not_eq_true', not_and, Bool.not_eq_false, ne_eq, hmissing]
    exact fun hu => hp.resolve_left hu
  have hrun : g.run env cfg s memory data = (_, _, .created _) := (if_neg (not_not.mpr h)).trans (if_neg hcond)
  rw [hrun]
  refine ⟨_, _, rfl, rfl, rfl, rfl, rfl, rfl, fun hu => ?_⟩
  exact congrArg makeUpstreamRefs (if_pos (hmissing.mpr hu))

/-- What the gate is for. Unless the input allows it with `true`: a draft is saved when the required fields have values
and every upstream requirement has an approved version, and its references are such versions, one for each; in every
other case the answer is a report, and the store is as it was. -/
def Gated (tool : Tool) : Prop :=
  data.value allowKey ≠ .bool true →
    (Complete data memory ∧ g.UpstreamApproved cfg s memory data →
      ∃ m content upstream,
        (tool env cfg s memory data).2 = ((saveArtifact s m content).1, .created (saveArtifact s m content).2) ∧
        m.wpId = g.wpId ∧ m.phase = g.phase ∧ m.projectSlug = normalizeProjectSlug (projectOf cfg data memory) ∧
        m.version = 1 ∧ m.status = .draft ∧ m.upstreamRefs = makeUpstreamRefs upstream ∧
        List.Forall₂ (ApprovedVersion s (projectOf cfg data memory)) g.upstream upstream) ∧
    (¬(Complete data memory ∧ g.UpstreamApproved cfg s memory data) →
      (tool env cfg s memory data).2.1 = s ∧ (tool env cfg s memory data).2.2.IsReport)

/-- The gate holds unless `allow_missing_upstream` is a value other than `true` that counts as true, and a complete
input meets an upstream requirement without an approved version. -/
theorem generators_gated_iff : Gated g env cfg s memory data g.run ↔
    data.value allowKey = .bool true ∨ (data.value allowKey).truthy = false ∨ ¬Complete data memory ∨
      g.UpstreamApproved cfg s memory data := by
  constructor
  · intro hg
    by_contra hn
    push Not at hn
    obtain ⟨hallow, htruthy, hc, hu⟩ := hn
    obtain ⟨m, content, hrun, -⟩ := g.run_of_passed env cfg s memory data hc (.inr (by simpa using htruthy))
    have hreport := ((hg hallow).2 fun h => hu h.2).2
    rw [hrun] at hreport
    exact hreport
  · intro h hallow
    refine ⟨fun ⟨hc, hu⟩ => ?_, fun hn => ?_⟩
    · obtain ⟨m, content, hrun, hwp, hphase, hproject, hversion, hstatus, hrefs⟩ :=
        g.run_of_passed env cfg s memory data hc (.inl hu)
      exact ⟨m, content, _, hrun, hwp, hphase, hproject, hversion, hstatus, hrefs hu,
        resolveUpstream_found g.approved hu⟩
    · by_cases hc : Complete data memory
      · have hu : ¬g.UpstreamApproved cfg s memory data := fun hu => hn ⟨hc, hu⟩
        have ha := ((h.resolve_left hallow).resolve_right (by simp [hc, hu]))
        exact g.run_of_missing env cfg s memory data hc hu ha
      · exact g.run_of_incomplete env cfg s memory data hc

/-! ## An input that gets past the gate -/

def lenientInput : Values := Dict.empty.set "item_name".toList (.text "Door Lock".toList) |>.set "author".toList
  (.text "A. Smith".toList) |>.set allowKey (.text "false".toList)

/-- The text `"false"` allows missing upstream work products. -/
theorem generateTsc_passes_false :
    ¬Gated tsc sampleEnv ⟨none, .null, "work_products".toList⟩ Dict.empty Dict.empty lenientInput generateTsc := by
  intro hg
  have hallow : lenientInput.value allowKey ≠ .bool true := by decide
  have hreport := ((hg hallow).2 fun h => ?_).2
  · revert hreport
    decide +kernel
  · obtain ⟨m, hm⟩ := h.2 _ (.head _)
    obtain ⟨p, hp, -⟩ := hm.stored
    exact Option.some_ne_none _ hp.symm

end KCore.Artifacts
