import Mathlib.Logic.Relation
import KCore.Proof.Artifacts.Approval
import KCore.Proof.Artifacts.Assistants
import KCore.Proof.Artifacts.Workflow

/-!
# Traceability

What the upstream references of the stored versions say after any run of the tools:

* `references_resolved`: they are none, or one for each requirement of the work product, to
  stored versions of the same project that were approved; and no version leads back to itself;
* `traceability_complete`: where no input asks for placeholders, every version leads to a version of each work
  product that it depends on, and each of these was approved by a tool;
* `lifecycle_order`: a draft is made only after those approvals.
-/

namespace KCore.Artifacts

open Text

/-! ## Versions as they go on -/

theorem Refines.mem_metas {s : Store} {L : Ledger Str Metadata} (h : Refines s L) {m : Metadata} :
    m ∈ metas s ↔ m ∈ L m.artifactId := mem_metas_of_holds h.holds

theorem Refines.eq_of_version {s : Store} {L : Ledger Str Metadata} (h : Refines s L) {i : Str} {m m' : Metadata}
    (hm : m ∈ L i) (hm' : m' ∈ L i) (hv : m.version = m'.version) : m = m' := by
  have hmap := (h.versions i (List.ne_nil_of_mem hm)).map_version
  have hnodup : ((L i).map (·.version)).Nodup := by
    rw [hmap]
    exact List.nodup_range' ..
  exact List.inj_on_of_nodup_map hnodup hm hm' hv

/-- The version was approved at some time. -/
def WasApproved (m : Metadata) : Prop := ∃ e ∈ m.statusHistory, e.status = .approved

/-- `m'` is a later state of the version that `m` is of. -/
structure Evolves (m m' : Metadata) : Prop where
  same : SameVersion m m'
  title : m'.title = m.title
  refs : m'.upstreamRefs = m.upstreamRefs
  history : m.statusHistory <+: m'.statusHistory

theorem Evolves.refl (m : Metadata) : Evolves m m := ⟨.refl m, rfl, rfl, List.prefix_refl _⟩

theorem evolves_withReviewer (m : Metadata) (r : Option Str) : Evolves m (withReviewer m r) := by
  unfold withReviewer
  split
  · exact .refl m
  · exact .refl m
  · exact ⟨⟨rfl, rfl, rfl, rfl, rfl, rfl, rfl, rfl⟩, rfl, rfl, List.prefix_refl _⟩

theorem evolves_of_reviews {c : Call} {f : Metadata → Metadata} (hf : c.reviews = some f) (m : Metadata) :
    Evolves m (f m) := by
  have hs := sameVersion_of_reviews hf m
  obtain ⟨env, op⟩ := c
  cases op with
  | generate | revise => cases hf
  | requestReview id reviewer checklist =>
    cases hf
    have h := evolves_withReviewer m reviewer
    exact ⟨hs, h.title, h.refs, h.history.trans (List.prefix_append _ _)⟩
  | requestChanges id changes => cases hf; exact ⟨hs, rfl, rfl, List.prefix_append _ _⟩
  | approve id reviewer notes =>
    cases hf
    have h := evolves_withReviewer m reviewer
    exact ⟨hs, h.title, h.refs, h.history.trans (List.prefix_append _ _)⟩

theorem evolves_supersededBy (env : Env) (new m : Metadata) : Evolves m (supersededBy env new m) :=
  ⟨sameVersion_supersededBy .., rfl, rfl, List.prefix_append _ _⟩

theorem Evolves.wasApproved {m m' : Metadata} (h : Evolves m m') : WasApproved m → WasApproved m'
  | ⟨e, he, hs⟩ => ⟨e, h.history.subset he, hs⟩

/-- Only an approval makes an approved version. -/
theorem approves_of_wasApproved {c : Call} {f : Metadata → Metadata} (hf : c.reviews = some f) {m : Metadata}
    (h : WasApproved (f m)) : WasApproved m ∨ ∃ reviewer notes, c.op = .approve c.artifactId reviewer notes := by
  have hr (reviewer : Option Str) : (withReviewer m reviewer).statusHistory = m.statusHistory := by
    unfold withReviewer
    split <;> rfl
  obtain ⟨e, he, hs⟩ := h
  obtain ⟨env, op⟩ := c
  cases op with
  | generate | revise => cases hf
  | requestReview id reviewer checklist =>
    cases hf
    simp only [reviewRequested, recordStatusChange, hr, List.mem_append, List.mem_singleton] at he
    rcases he with he | rfl
    · exact .inl ⟨e, he, hs⟩
    · cases hs
  | requestChanges id changes =>
    cases hf
    simp only [changesRequested, recordStatusChange, List.mem_append, List.mem_singleton] at he
    rcases he with he | rfl
    · exact .inl ⟨e, he, hs⟩
    · cases hs
  | approve id reviewer notes => exact .inr ⟨reviewer, notes, rfl⟩

theorem wasApproved_of_supersededBy {env : Env} {new m : Metadata} (h : WasApproved (supersededBy env new m)) :
    WasApproved m := by
  obtain ⟨e, he, hs⟩ := h
  simp only [supersededBy, recordStatusChange, List.mem_append, List.mem_singleton] at he
  rcases he with he | rfl
  · exact ⟨e, he, hs⟩
  · cases hs

theorem not_wasApproved {m : Metadata} {date note : Str} (h : m.statusHistory = [⟨.draft, date, note⟩]) :
    ¬WasApproved m := by
  rintro ⟨e, he, hs⟩
  rw [h, List.mem_singleton] at he
  subst he
  cases hs

/-- What a version was before a call. -/
inductive Comes (L : Ledger Str Metadata) (c : Call) (m : Metadata) : Prop
  | evolved (a : Metadata) (ha : a ∈ L m.artifactId) (h : Evolves a m)
      (happ : WasApproved m → WasApproved a ∨ ∃ reviewer notes, c.op = .approve m.artifactId reviewer notes)
  | drafted {project : Str} {phase wpId : Name} {title author reviewer : Str} {refs : List UpstreamRef} {content : Str}
      (hc : c.op = .generate project phase wpId title author reviewer refs content)
      (hm : m = withPaths (buildMetadata (c.env.now 0) project phase wpId title author reviewer refs c.artifactId 1 .draft
        none []))
  | revised (a : Metadata) (ha : a ∈ L m.artifactId) {author : Option Str} {changes : Raw}
      (hm : m = withPaths (revisedFrom c.env author changes a))

theorem Refines.comes {s : Store} {L : Ledger Str Metadata} (h : Refines s L) (c : Call) {i : Str} {m : Metadata}
    (hm : m ∈ ledgerStep L c i) : Comes L c m := by
  have hid {a : Metadata} (ha : a ∈ L i) : a.artifactId = i := (h.filed i a ha).1
  have hkept (hm : m ∈ L i) : Comes L c m := .evolved m (by rwa [hid hm]) (.refl m) .inl
  cases hf : c.reviews with
  | some f =>
    rw [ledgerStep_of_reviews hf] at hm
    rcases Ledger.mem_amend hm with hm | ⟨rfl, a, ha, rfl⟩
    · exact hkept hm
    · have hl := evolves_of_reviews hf a
      have hi : (f a).artifactId = c.artifactId := hl.same.id.trans (hid ha)
      exact .evolved a (by rwa [hi]) hl (by rw [hi]; exact approves_of_wasApproved hf)
  | none =>
    obtain ⟨env, op⟩ := c
    cases op with
    | requestReview | requestChanges | approve => cases hf
    | generate project phase wpId title author reviewer refs content =>
      rcases Ledger.mem_create hm with hm | ⟨-, hm⟩
      · exact hkept hm
      · exact .drafted rfl hm
    | revise id content changes author =>
      rcases Ledger.mem_extend hm with hm | ⟨rfl, a, ha, rfl | rfl⟩
      · exact hkept hm
      · have hl := evolves_supersededBy env (withPaths (revisedFrom env author changes a)) a
        exact .evolved a (by rwa [hl.same.id, hid ha]) hl fun hw => .inl (wasApproved_of_supersededBy hw)
      · have hi : (withPaths (revisedFrom env author changes a)).artifactId = i :=
          (if_neg (h.filed i a ha).2.id).trans (hid ha)
        exact .revised a (by rwa [hi]) rfl

/-- Every version goes on. -/
theorem Refines.goes_on {s : Store} {L : Ledger Str Metadata} (h : Refines s L) {c : Call} (hc : Fresh s c) {i : Str}
    {m : Metadata} (hm : m ∈ L i) : ∃ m' ∈ ledgerStep L c i, Evolves m m' := by
  rcases (h.effect c).version hc hm with hm' | ⟨-, -, ⟨f, hf, hm'⟩ | ⟨-, new, hm'⟩⟩
  · exact ⟨m, hm', .refl m⟩
  · exact ⟨_, hm', evolves_of_reviews hf m⟩
  · exact ⟨_, hm', evolves_supersededBy ..⟩

namespace Assistants

/-! ## The plan -/

/-- The generator of `wp` asks for an approved `wp'`. -/
def Needs (wp wp' : WorkProduct) : Prop := approvedWp wp'.phase wp'.wpId ∈ wp.upstream

instance : DecidableRel Needs := fun _ _ => inferInstanceAs (Decidable (_ ∈ _))

/-- The place in the lifecycle. -/
def WorkProduct.rank : WorkProduct → Nat
  | safetyPlan => 0
  | hara => 1
  | fsc => 2
  | tsc => 3
  | hwSrs => 4
  | swSrs => 5
  | safetyManual => 6
  | safetyCase => 7

theorem rank_lt_of_needs {wp wp' : WorkProduct} (h : Needs wp wp') : wp'.rank < wp.rank := by
  revert h
  cases wp <;> cases wp' <;> decide

theorem wpId_inj {wp wp' : WorkProduct} (h : wp.wpId = wp'.wpId) : wp = wp' := by
  revert h
  cases wp <;> cases wp' <;> decide

/-- Every requirement of a generator is one of a work product. -/
theorem needs_of_mem {wp : WorkProduct} {req : Requirement} (h : req ∈ wp.upstream) :
    ∃ wp', Needs wp wp' ∧ req = approvedWp wp'.phase wp'.wpId := by
  have hall : ∀ req ∈ wp.upstream, ∃ wp' ∈ [WorkProduct.safetyPlan, .hara, .fsc, .tsc, .hwSrs, .swSrs, .safetyManual],
      req = approvedWp wp'.phase wp'.wpId := by cases wp <;> decide
  obtain ⟨wp', -, rfl⟩ := hall req h
  exact ⟨wp', h, rfl⟩

/-! ## References -/

/-- The reference that a draft holds of a version that was approved by then. -/
def referenceTo (m : Metadata) : UpstreamRef := { makeUpstreamRef m with status := Status.approved.text }

/-- `m` is a version that `req` asks for, and `ref` is to it. -/
structure Meets (project : Str) (req : Requirement) (ref : UpstreamRef) (m : Metadata) : Prop where
  ref : ref = referenceTo m
  project : m.projectSlug = project
  req : req = approvedWp m.phase m.wpId
  approved : WasApproved m

/-- `m` has a reference to `m'`. -/
def Cites (s : Store) (m m' : Metadata) : Prop :=
  m ∈ metas s ∧ m' ∈ metas s ∧ ∃ ref ∈ m.upstreamRefs, ref.artifactId = m'.artifactId ∧ ref.version = m'.version

/-- `m` is a version of `wp`, with a reference to a stored version for each requirement; with `P` also without any. -/
structure Traced (P : Prop) (M : Metadata → Prop) (wp : WorkProduct) (m : Metadata) : Prop where
  wpId : m.wpId = wp.wpId
  phase : m.phase = wp.phase
  title : m.title = wp.title
  refs : P ∧ m.upstreamRefs = [] ∨
    List.Forall₂ (fun req ref => ∃ m', M m' ∧ Meets m.projectSlug req ref m') wp.upstream m.upstreamRefs

theorem Meets.evolves {project : Str} {req : Requirement} {ref : UpstreamRef} {m m' : Metadata}
    (hm : Meets project req ref m) (h : Evolves m m') : Meets project req ref m' where
  ref := by rw [hm.ref, referenceTo, referenceTo, makeUpstreamRef, makeUpstreamRef, h.same.id, h.same.wp, h.title,
    h.same.version]
  project := h.same.slug.trans hm.project
  req := by rw [hm.req, h.same.phase, h.same.wp]
  approved := h.wasApproved hm.approved

/-! ## The invariant -/

/-- The call is a generation whose input allows placeholders. -/
def Event.placeholders (e : Event) : Bool :=
  match e.use with
  | .generate _ toolInput => ((e.input toolInput).map fun data => (data.value allowKey).truthy).getD false
  | _ => false

theorem placeholders_of_input {e : Event} {wp : WorkProduct} {toolInput : Str} {data : Values}
    (hu : e.use = .generate wp toolInput) (hd : e.input toolInput = some data) :
    e.placeholders = (data.value allowKey).truthy := by
  rw [Event.placeholders, hu]
  simp only [hd, Option.map_some, Option.getD_some]

/-- The call is one of a tool that approves, for the artifact. -/
def Event.Approves (e : Event) (id : Str) : Prop :=
  ∃ wp toolInput, e.use = .approve wp toolInput ∧ e.names toolInput = some (.text id)

/-- Every version is traced, and every artifact with an approved version was approved. -/
structure TraceInv (P : Prop) (A : Str → Prop) (L : Ledger Str Metadata) : Prop where
  traced : ∀ i, ∀ m ∈ L i, ∃ wp, Traced P (fun m' => m' ∈ L m'.artifactId) wp m
  approvals : ∀ i, ∀ m ∈ L i, WasApproved m → A m.artifactId

theorem Traced.evolves {P : Prop} {M M' : Metadata → Prop} {wp : WorkProduct} {m a : Metadata} (h : Traced P M wp m)
    (hl : Evolves m a) (hM : ∀ m, M m → ∃ m', M' m' ∧ Evolves m m') : Traced P M' wp a where
  wpId := hl.same.wp.trans h.wpId
  phase := hl.same.phase.trans h.phase
  title := hl.title.trans h.title
  refs := by
    rw [hl.refs, hl.same.slug]
    refine h.refs.imp_right fun h => h.imp fun req ref ⟨m', hm', hmeets⟩ => ?_
    obtain ⟨m'', hm'', hl'⟩ := hM m' hm'
    exact ⟨m'', hm'', hmeets.evolves hl'⟩

/-- What a generator refers to meets its requirements. -/
theorem Referred.traced {s : Store} {L : Ledger Str Metadata} (h : Refines s L) {project : Str} (hs : IsSlug project)
    {data : Values} {wp : WorkProduct} {refs : List UpstreamRef} (hr : Referred s project data wp.upstream refs) :
    refs = [] ∧ (data.value allowKey).truthy = true ∨
      List.Forall₂ (fun req ref => ∃ m', m' ∈ L m'.artifactId ∧ Meets project req ref m') wp.upstream refs := by
  rcases hr with ⟨upstream, rfl, hfound⟩ | hnone
  · right
    refine List.forall₂_map_right_iff.mpr ?_
    refine ((List.forall₂_and_left _ _).mpr ⟨fun req hreq => needs_of_mem hreq, hfound⟩).imp ?_
    rintro req m ⟨⟨wp', -, rfl⟩, hm⟩
    obtain ⟨p, hget, -⟩ := hm.stored
    obtain ⟨hL, rfl⟩ := (h.holds p m).mp hget
    obtain ⟨hproject, hphase, hwp⟩ := hm.fields h hs.ne
    have hhistory := (h.filed _ m hL).2.history
    have happroved : WasApproved m := by
      rw [hm.status, Option.map_eq_some_iff] at hhistory
      obtain ⟨entry, hlast, hstatus⟩ := hhistory
      exact ⟨entry, List.mem_of_getLast? hlast, hstatus⟩
    exact ⟨m, hL, ⟨by rw [referenceTo, makeUpstreamRef, hm.status], hproject.trans hs.normalizeProjectSlug_eq,
      by rw [hphase, hwp], happroved⟩⟩
  · exact .inl hnone

theorem TraceInv.step {w : World} {e : Event} {c : Call} {L : Ledger Str Metadata} {P : Prop} {A A' : Str → Prop}
    (hi : TraceInv P A L) (h : Refines w.store L) (hm : Makes w e (some c)) (hf : FreshId w e)
    (hp : e.placeholders = true → P) (hA : ∀ id, A id → A' id) (ha : ∀ id, e.Approves id → A' id) :
    TraceInv P A' (ledgerStep L c) := by
  have hc : Fresh w.store c := hm.fresh hf
  have hgoes (m : Metadata) (hm : m ∈ L m.artifactId) : ∃ m', m' ∈ ledgerStep L c m'.artifactId ∧ Evolves m m' := by
    obtain ⟨m', hm', hl⟩ := h.goes_on hc hm
    exact ⟨m', by rwa [hl.same.id], hl⟩
  constructor
  · intro i m hmem
    cases h.comes c hmem with
    | evolved a ha hl _ =>
      obtain ⟨wp, ht⟩ := hi.traced _ a ha
      exact ⟨wp, ht.evolves hl hgoes⟩
    | drafted hop heq =>
      subst heq
      cases hm with
      | requestReview | requestChanges | revise | approve => cases hop
      | @generate wp toolInput data hu hd _ _ _ _ hr =>
        cases hop
        have hs : IsSlug (w.project e data) := isSlug_getProjectSlug _ _ _
        refine ⟨wp, rfl, rfl, rfl, ?_⟩
        show P ∧ _ = [] ∨ List.Forall₂ (fun req ref => ∃ m', _ ∧ Meets (normalizeProjectSlug (w.project e data)) req ref m')
          wp.upstream _
        rw [hs.normalizeProjectSlug_eq]
        rcases hr.traced h hs with ⟨hnil, hallow⟩ | hrefs
        · exact .inl ⟨hp (placeholders_of_input hu hd ▸ hallow), hnil⟩
        · refine .inr (hrefs.imp fun req ref ⟨m', hm', hmeets⟩ => ?_)
          obtain ⟨m'', hm'', hl⟩ := hgoes m' hm'
          exact ⟨m'', hm'', hmeets.evolves hl⟩
    | @revised a ha author changes heq =>
      subst heq
      obtain ⟨wp, ht⟩ := hi.traced _ a ha
      have hslug : normalizeProjectSlug a.projectSlug = a.projectSlug :=
        (h.filed _ a ha).2.slug.normalizeProjectSlug_eq
      refine ⟨wp, ht.wpId, ht.phase, ht.title, ?_⟩
      show P ∧ a.upstreamRefs = [] ∨ List.Forall₂ (fun req ref => ∃ m', _ ∧ Meets (normalizeProjectSlug a.projectSlug) req
        ref m') wp.upstream a.upstreamRefs
      rw [hslug]
      exact (ht.evolves (.refl a) hgoes).refs
  · intro i m hmem happ
    cases h.comes c hmem with
    | evolved a ha' hl happ' =>
      rcases happ' happ with h' | ⟨reviewer, notes, hop⟩
      · exact hA _ (hl.same.id ▸ hi.approvals _ a ha' h')
      · cases hm with
        | generate | requestReview | requestChanges | revise => cases hop
        | @approve wp toolInput id hu hn =>
          cases hop
          exact ha _ ⟨wp, toolInput, hu, hn⟩
    | drafted hop heq =>
      subst heq
      exact absurd happ (not_wasApproved rfl)
    | revised a ha heq =>
      subst heq
      exact absurd happ (not_wasApproved rfl)

/-- After a run from an empty store the files hold versions that are traced. -/
theorem run_traced {w : World} (hw : w.store = Dict.empty) {P : Prop} {es : List Event}
    (hf : Machine.Along World.after FreshId w es) (hp : ∀ e ∈ es, e.placeholders = true → P) :
    ∃ L, Refines (Machine.run World.after w es).store L ∧ TraceInv P (fun id => ∃ e ∈ es, e.Approves id) L := by
  induction es using List.reverseRecOn with
  | nil =>
    refine ⟨fun _ => [], by rw [Machine.run_nil, hw]; exact refines_empty, fun i m hm => ?_, fun i m hm => ?_⟩
    · exact absurd hm List.not_mem_nil
    · exact absurd hm List.not_mem_nil
  | append_singleton es e ih =>
    obtain ⟨hf, hfe, -⟩ := Machine.along_append.mp hf
    obtain ⟨L, hR, hi⟩ := ih hf fun e' he => hp e' (List.mem_append_left _ he)
    have hA (id : Str) : (∃ e' ∈ es, e'.Approves id) → ∃ e' ∈ es ++ [e], e'.Approves id := fun ⟨e', he, ha⟩ =>
      ⟨e', List.mem_append_left _ he, ha⟩
    have he : e ∈ es ++ [e] := List.mem_append_right _ (.head _)
    rw [Machine.run_append, Machine.run_cons, Machine.run_nil]
    obtain ⟨c, hm, hstore⟩ := World.after_makes (Machine.run World.after w es) e
    rw [hstore]
    cases c with
    | none => exact ⟨L, hR, hi.traced, fun i m hmem happ => hA _ (hi.approvals i m hmem happ)⟩
    | some c =>
      exact ⟨ledgerStep L c, step_refines hR (hm.fresh hfe), hi.step hR hm hfe (hp e he) hA fun id ha => ⟨e, he, ha⟩⟩

/-! ## A run up to the functional safety concept -/

def sampleWorld : World :=
  ⟨fun _ => ⟨.empty, { Hara.Memory.init with haraTable := some "| HAZ-001 |".toList }⟩, .empty, .empty⟩

/-- A call on an input that is read as `data`, `minute` minutes after twelve. -/
def sampleEvent (minute : Nat) (data : Values) (use : Str → Use) : Event where
  user := "admin".toList
  use := use "input".toList
  platform :=
    { loads := fun _ => .object data, envSlug := none, workspaceRoot := "/work".toList, savable := true, listing := .id,
      raises := fun _ => false, outside := fun _ => [], now := fun n => ⟨2024, 5, 6, 12, minute, n⟩,
      suffix := "0a1b2c".toList, readable := true, llm := fun _ => none, load := .loaded, unicode := .ascii }

def sampleFields (fields : List Str) : Values := fields.foldl (fun data field => data.set field (.text "brake".toList)) .empty

def approvalOf (wp : WorkProduct) (minute : Nat) : Event :=
  sampleEvent (minute + 1) (Dict.empty.set "artifact_id".toList
    (.text (artifactIdOr [] wp.wpId ⟨2024, 5, 6, 12, minute, 1⟩ "0a1b2c".toList))) (.approve wp)

def sampleEvents : List Event :=
  [sampleEvent 0 (sampleFields SafetyPlan.requiredFields) (.generate .safetyPlan), approvalOf .safetyPlan 0,
    sampleEvent 2 (sampleFields requiredFields) (.generate .hara), approvalOf .hara 2]

def fscEvent : Event := sampleEvent 4 (sampleFields requiredFields) (.generate .fsc)

theorem fresh_sampleEvents : Machine.Along World.after FreshId sampleWorld (sampleEvents ++ [fscEvent]) := by
  decide +kernel

/-! ## What the references say -/

/-- A version cites those that meet the requirements of its work product. -/
theorem TraceInv.needs_of_cites {s : Store} {L : Ledger Str Metadata} {P : Prop} {A : Str → Prop} (hi : TraceInv P A L)
    (h : Refines s L) {m m' : Metadata} (hc : Cites s m m') :
    ∃ wp wp', m.wpId = wp.wpId ∧ m'.wpId = wp'.wpId ∧ Needs wp wp' := by
  obtain ⟨hm, hm', ref, href, hid, hversion⟩ := hc
  obtain ⟨wp, ht⟩ := hi.traced _ m (h.mem_metas.mp hm)
  rcases ht.refs with ⟨-, hnil⟩ | hrefs
  · rw [hnil] at href
    exact absurd href List.not_mem_nil
  · obtain ⟨req, hreq, m'', hm'', hmeets⟩ : ∃ req ∈ wp.upstream, ∃ m'', m'' ∈ L m''.artifactId ∧
        Meets m.projectSlug req ref m'' := by
      obtain ⟨k, hk, rfl⟩ := List.mem_iff_getElem.mp href
      have hk' : k < wp.upstream.length := by rwa [hrefs.length_eq]
      exact ⟨wp.upstream[k], List.getElem_mem hk', hrefs.get hk' hk⟩
    obtain ⟨wp', hneeds, hwp'⟩ := needs_of_mem hreq
    have hid' : m''.artifactId = m'.artifactId := by rw [← hid, hmeets.ref]; rfl
    have heq : m'' = m' := h.eq_of_version (i := m'.artifactId) (hid' ▸ hm'') (h.mem_metas.mp hm')
      (by rw [← hversion, hmeets.ref]; rfl)
    subst heq
    have hwp : m''.wpId = wp'.wpId := by
      have := congrArg Requirement.wpId (hmeets.req.symm.trans hwp')
      exact Option.some.inj this
    exact ⟨wp, wp', ht.wpId, hwp, hneeds⟩

/-- Every citation leads back in the lifecycle. -/
theorem TraceInv.rank_lt {s : Store} {L : Ledger Str Metadata} {P : Prop} {A : Str → Prop} (hi : TraceInv P A L)
    (h : Refines s L) {m m' : Metadata} (hc : Relation.TransGen (Cites s) m m') :
    ∃ wp wp' : WorkProduct, m.wpId = wp.wpId ∧ m'.wpId = wp'.wpId ∧ wp'.rank < wp.rank := by
  induction hc with
  | single hc =>
    obtain ⟨wp, wp', hwp, hwp', hneeds⟩ := hi.needs_of_cites h hc
    exact ⟨wp, wp', hwp, hwp', rank_lt_of_needs hneeds⟩
  | tail _ hc ih =>
    obtain ⟨wp, wp₁, hwp, hwp₁, hlt⟩ := ih
    obtain ⟨wp₁', wp', hwp₁', hwp', hneeds⟩ := hi.needs_of_cites h hc
    have heq : wp₁ = wp₁' := wpId_inj (hwp₁.symm.trans hwp₁')
    subst heq
    exact ⟨wp, wp', hwp, hwp', (rank_lt_of_needs hneeds).trans hlt⟩

/-- After every run of the tools from an empty store, with fresh ids for what is generated: the references of a
version are none, or one for each requirement of its work product, in order, to stored versions of the project that
were approved; and no version leads back to itself. -/
theorem references_resolved {w : World} (hw : w.store = Dict.empty) {es : List Event}
    (hf : Machine.Along World.after FreshId w es) :
    let s := (Machine.run World.after w es).store
    (∀ m ∈ metas s, ∃ wp, Traced True (· ∈ metas s) wp m) ∧ ∀ m, ¬Relation.TransGen (Cites s) m m := by
  intro s
  obtain ⟨L, hR, hi⟩ := run_traced hw hf fun _ _ _ => trivial
  refine ⟨fun m hm => ?_, fun m hcycle => ?_⟩
  · obtain ⟨wp, ht⟩ := hi.traced _ m (hR.mem_metas.mp hm)
    exact ⟨wp, ht.evolves (.refl m) fun m' hm' => ⟨m', hR.mem_metas.mpr hm', .refl m'⟩⟩
  · obtain ⟨wp, wp', hwp, hwp', hlt⟩ := hi.rank_lt hR hcycle
    have heq : wp = wp' := wpId_inj (hwp.symm.trans hwp')
    subst heq
    exact absurd hlt (Nat.lt_irrefl _)

theorem references_resolved_sample :
    let s := (Machine.run World.after sampleWorld (sampleEvents ++ [fscEvent])).store
    (∀ m ∈ metas s, ∃ wp, Traced True (· ∈ metas s) wp m) ∧ ∀ m, ¬Relation.TransGen (Cites s) m m :=
  references_resolved rfl fresh_sampleEvents

/-! ## Runs without placeholders -/

/-- A version of `wp` in the project that was approved, by one of the tools. -/
structure ApprovedBy (es : List Event) (s : Store) (project : Str) (wp : WorkProduct) (m : Metadata) : Prop where
  stored : m ∈ metas s
  wpId : m.wpId = wp.wpId
  project : m.projectSlug = project
  approved : WasApproved m
  event : ∃ e ∈ es, e.Approves m.artifactId

/-- What the requirements of a work product lead to. -/
theorem TraceInv.meets {es : List Event} {s : Store} {L : Ledger Str Metadata}
    (hi : TraceInv False (fun id => ∃ e ∈ es, e.Approves id) L) (h : Refines s L) {project : Str} {wp wp' : WorkProduct}
    {refs : List UpstreamRef}
    (hrefs : List.Forall₂ (fun req ref => ∃ m', m' ∈ L m'.artifactId ∧ Meets project req ref m') wp.upstream refs)
    (hn : Needs wp wp') : ∃ ref ∈ refs, ∃ m', ref = referenceTo m' ∧ ApprovedBy es s project wp' m' := by
  obtain ⟨k, hk, hreq⟩ := List.mem_iff_getElem.mp hn
  have hk' : k < refs.length := by rwa [← hrefs.length_eq]
  obtain ⟨m', hm', hmeets⟩ := hrefs.get hk hk'
  simp only [List.get_eq_getElem, hreq] at hmeets
  have hwp : wp'.wpId = m'.wpId := Option.some.inj (congrArg Requirement.wpId hmeets.req)
  exact ⟨_, List.getElem_mem hk', m', hmeets.ref, h.mem_metas.mpr hm', hwp.symm, hmeets.project, hmeets.approved,
    hi.approvals _ m' hm' hmeets.approved⟩

theorem TraceInv.complete {es : List Event} {s : Store} {L : Ledger Str Metadata}
    (hi : TraceInv False (fun id => ∃ e ∈ es, e.Approves id) L) (h : Refines s L) {wp wp' : WorkProduct}
    (hn : Relation.TransGen Needs wp wp') : ∀ m ∈ metas s, m.wpId = wp.wpId →
      ∃ m', Relation.TransGen (Cites s) m m' ∧ ApprovedBy es s m.projectSlug wp' m' := by
  have hone {wp₁ wp₂ : WorkProduct} (hn : Needs wp₁ wp₂) (m : Metadata) (hm : m ∈ metas s) (hwp : m.wpId = wp₁.wpId) :
      ∃ m', Cites s m m' ∧ ApprovedBy es s m.projectSlug wp₂ m' := by
    obtain ⟨wp₁', ht⟩ := hi.traced _ m (h.mem_metas.mp hm)
    have heq : wp₁ = wp₁' := wpId_inj (hwp.symm.trans ht.wpId)
    subst heq
    obtain ⟨ref, href, m', rfl, ha⟩ := hi.meets h (ht.refs.resolve_left fun hno => hno.1) hn
    exact ⟨m', ⟨hm, ha.stored, _, href, rfl, rfl⟩, ha⟩
  induction hn using Relation.TransGen.head_induction_on with
  | single hn =>
    intro m hm hwp
    obtain ⟨m', hc, ha⟩ := hone hn m hm hwp
    exact ⟨m', .single hc, ha⟩
  | head hn _ ih =>
    intro m hm hwp
    obtain ⟨m₁, hc, ha₁⟩ := hone hn m hm hwp
    obtain ⟨m', hc', ha⟩ := ih m₁ ha₁.stored ha₁.wpId
    exact ⟨m', .head hc hc', ha₁.project ▸ ha⟩

/-- The safety case depends on every other work product. -/
theorem safetyCase_needs_all (wp : WorkProduct) (h : wp ≠ .safetyCase) : Relation.TransGen Needs .safetyCase wp := by
  have hplan : Needs .safetyCase .safetyPlan := by decide
  have hfsc : Needs .safetyCase .fsc := by decide
  cases wp with
  | safetyPlan => exact .single hplan
  | hara => exact .tail (.single hfsc) (by decide)
  | fsc => exact .single hfsc
  | tsc | hwSrs | swSrs | safetyManual => exact .single (by decide)
  | safetyCase => exact absurd rfl h

/-- Where no input asks for placeholders, every stored version leads, over the references, to a version of each work
product that its own depends on, in the same project, approved by one of the tools; a safety case so leads to
all of the others. -/
theorem traceability_complete {w : World} (hw : w.store = Dict.empty) {es : List Event}
    (hf : Machine.Along World.after FreshId w es) (hp : ∀ e ∈ es, e.placeholders = false) :
    let s := (Machine.run World.after w es).store
    ∀ m ∈ metas s,
      (∀ wp wp', m.wpId = wp.wpId → Relation.TransGen Needs wp wp' →
        ∃ m', Relation.TransGen (Cites s) m m' ∧ ApprovedBy es s m.projectSlug wp' m') ∧
      (m.wpId = Wp.safetyCase → ∀ wp', wp' ≠ .safetyCase →
        ∃ m', Relation.TransGen (Cites s) m m' ∧ ApprovedBy es s m.projectSlug wp' m') := by
  intro s m hm
  obtain ⟨L, hR, hi⟩ := run_traced hw hf fun e he h => Bool.false_ne_true ((hp e he).symm.trans h)
  exact ⟨fun wp wp' hwp hn => hi.complete hR hn m hm hwp,
    fun hwp wp' hne => hi.complete hR (safetyCase_needs_all wp' hne) m hm hwp⟩

/-- The functional safety concept of the run leads to its HARA. -/
theorem traceability_complete_sample :
    let s := (Machine.run World.after sampleWorld (sampleEvents ++ [fscEvent])).store
    ∃ m ∈ metas s, ∃ m', Relation.TransGen (Cites s) m m' ∧
      ApprovedBy (sampleEvents ++ [fscEvent]) s m.projectSlug .hara m' := by
  intro s
  obtain ⟨m, hm, hwp⟩ : ∃ m ∈ metas s, m.wpId = WorkProduct.fsc.wpId := by decide +kernel
  have h := traceability_complete rfl fresh_sampleEvents (by decide +kernel) m hm
  exact ⟨m, hm, h.1 .fsc .hara hwp (.single (by decide))⟩

/-- Where no input asks for placeholders, a draft of a work product is only made after one of the tools has approved a
version, in the same project, of each work product that it depends on. -/
theorem lifecycle_order {w : World} (hw : w.store = Dict.empty) {es : List Event} {e : Event}
    (hf : Machine.Along World.after FreshId w (es ++ [e])) (hp : ∀ e' ∈ es ++ [e], e'.placeholders = false)
    {wp : WorkProduct} {toolInput : Str} (hu : e.use = .generate wp toolInput)
    (hdraft : ((Machine.run World.after w es).after e).store ≠ (Machine.run World.after w es).store) :
    ∃ data, e.input toolInput = some data ∧ ∀ wp', Relation.TransGen Needs wp wp' →
      ∃ m', ApprovedBy es (Machine.run World.after w es).store ((Machine.run World.after w es).project e data) wp' m' := by
  obtain ⟨hf', -⟩ := Machine.along_append.mp hf
  obtain ⟨L, hR, hi⟩ := run_traced hw hf' fun e' he h =>
    Bool.false_ne_true ((hp e' (List.mem_append_left _ he)).symm.trans h)
  obtain ⟨c, hm, hstore⟩ := World.after_makes (Machine.run World.after w es) e
  generalize Machine.run World.after w es = w' at *
  cases hm with
  | quiet => exact absurd hstore hdraft
  | requestReview hu' | requestChanges hu' | revise hu' | approve hu' => cases hu.symm.trans hu'
  | @generate wp₀ input₀ data hu' hd _ _ _ refs hr =>
    cases hu.symm.trans hu'
    refine ⟨data, hd, fun wp' hn => ?_⟩
    have hallow : (data.value allowKey).truthy = false :=
      placeholders_of_input hu hd ▸ hp e (List.mem_append_right _ (.head _))
    have hrefs := (hr.traced hR (isSlug_getProjectSlug _ _ _)).resolve_left fun hnone =>
      Bool.false_ne_true (hallow.symm.trans hnone.2)
    obtain ⟨wp₁, hn₁, hrest⟩ : ∃ wp₁, Needs wp wp₁ ∧ Relation.ReflTransGen Needs wp₁ wp' :=
      (Relation.TransGen.head'_iff).mp hn
    obtain ⟨-, -, m₁, -, ha₁⟩ := hi.meets hR hrefs hn₁
    rcases Relation.reflTransGen_iff_eq_or_transGen.mp hrest with rfl | hrest
    · exact ⟨m₁, ha₁⟩
    · obtain ⟨m', -, ha⟩ := hi.complete hR hrest m₁ ha₁.stored ha₁.wpId
      rw [ha₁.project] at ha
      exact ⟨m', ha⟩

theorem lifecycle_order_sample : ∃ m', ApprovedBy sampleEvents (Machine.run World.after sampleWorld sampleEvents).store
    defaultProjectSlug .hara m' := by
  have hdraft : ((Machine.run World.after sampleWorld sampleEvents).after fscEvent).store ≠
      (Machine.run World.after sampleWorld sampleEvents).store := fun h =>
    absurd (congrArg (fun s => (metas s).length) h) (by decide +kernel)
  obtain ⟨data, hd, h⟩ := lifecycle_order rfl fresh_sampleEvents (by decide +kernel) rfl hdraft
  cases hd
  have hproject : (Machine.run World.after sampleWorld sampleEvents).project fscEvent (sampleFields requiredFields) =
      defaultProjectSlug := by decide +kernel
  obtain ⟨m', ha⟩ := h .hara (.single (by decide))
  exact ⟨m', hproject ▸ ha⟩

end Assistants

end KCore.Artifacts
