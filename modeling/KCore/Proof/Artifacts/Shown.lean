import KCore.Impl.Artifacts.Document
import KCore.Proof.Artifacts.Approval
import KCore.Proof.Artifacts.Revise

/-!
# What a stored version's text shows of it

The markdown of a version is written once, by the call that creates it, with the header
of the metadata it has then (`Shows`). So its Document Control section shows the version
and the supersession that the sidecar records, the status `DRAFT` and the reviewer at
that time: `stored_versions_shown`.
-/

namespace KCore.Artifacts

open Text

/-- A title without the marker, as the titles of the work products are. -/
def Untitled (title : Str) : Prop := find controlMarker ("# ".toList ++ title) = none

/-- The text holds the header of these metadata, which is its first Document Control section. -/
def Shows (text : Str) (m : Metadata) : Prop :=
  ∃ a b, text = a ++ (header m ++ b) ∧ (Untitled m.title → find controlMarker text = some a.length)

/-! ## Texts -/

theorem header_eq_cons (m : Metadata) (b : Str) : ∃ t, header m ++ b = controlMarker ++ t := by
  rw [header_eq, List.append_assoc]
  exact ⟨_, rfl⟩

theorem find_marker_header (m : Metadata) (b : Str) : find controlMarker (header m ++ b) = some 0 := by
  obtain ⟨t, ht⟩ := header_eq_cons m b
  rw [ht]
  exact if_pos (List.prefix_append _ t)

theorem shows_replaceDocumentControl (c : Str) (m : Metadata) : Shows (replaceDocumentControl c (header m)) m := by
  cases hc : find controlMarker c with
  | none =>
    refine ⟨[], "\n\n".toList ++ c, ?_, ?_⟩
    · rw [replaceDocumentControl, hc, List.nil_append, List.append_assoc]
    · intro _
      rw [replaceDocumentControl, hc, List.append_assoc]
      exact find_marker_header m _
  | some n =>
    obtain ⟨t, ht, hlen⟩ := find_spec hc
    have hfind : find controlMarker (c.take n ++ (controlMarker ++ t)) = some (c.take n).length := by rw [← ht, hlen, hc]
    have htext := replaceDocumentControl_of_find (d := header m) hfind
    rw [← ht] at htext
    rw [htext]
    refine ⟨c.take n, _, rfl, fun _ => ?_⟩
    obtain ⟨t', ht'⟩ := header_eq_cons m ((find "\n## ".toList t).elim [] t.drop)
    rw [ht']
    exact find_change hfind t'

theorem append_blank_line {sep : Str} (h : sep = ['\n', '\n']) (a b : Str) :
    a ++ sep ++ b = a ++ '\n' :: ([] ++ '\n' :: b) := by
  subst h
  rw [List.append_assoc]
  rfl

theorem shows_renderDocument (m : Metadata) (body : Str) (assumptions openQuestions : List Str)
    (traceabilitySection : Str) (checklist : List Str) :
    Shows (renderDocument m body assumptions openQuestions traceabilitySection checklist) m := by
  have hheader : header m ≠ [] := by
    obtain ⟨t, ht⟩ := header_eq_cons m []
    rw [List.append_nil] at ht
    rw [ht]
    exact List.cons_ne_nil _ _
  have htitle : "# ".toList ++ m.title ≠ [] := List.cons_ne_nil _ _
  have hjoin (rest : List Str) : ∃ b, join "\n\n".toList (("# ".toList ++ m.title) :: header m :: rest) =
      "# ".toList ++ m.title ++ "\n\n".toList ++ (header m ++ b) := by
    simp only [join_cons_cons, List.append_assoc]
    cases rest with
    | nil => exact ⟨[], by rw [join_singleton, List.append_nil]⟩
    | cons x rest => exact ⟨_, by rw [join_cons_cons]⟩
  have hfilter (rest : List Str) : (("# ".toList ++ m.title) :: header m :: rest).filter (· ≠ []) =
      ("# ".toList ++ m.title) :: header m :: rest.filter (· ≠ []) := by
    rw [List.filter_cons_of_pos (p := fun x : Str => decide (x ≠ [])) (decide_eq_true htitle),
      List.filter_cons_of_pos (p := fun x : Str => decide (x ≠ [])) (decide_eq_true hheader)]
  obtain ⟨b, hb⟩ := hjoin ([body, renderAssumptions assumptions, renderOpenQuestions openQuestions,
    traceabilitySection, renderReviewChecklist checklist].filter (· ≠ []))
  have htext : renderDocument m body assumptions openQuestions traceabilitySection checklist =
      "# ".toList ++ m.title ++ "\n\n".toList ++ (header m ++ b) := by
    rw [← hb, ← hfilter, renderDocument, header]
  refine ⟨_, b, htext, fun h => ?_⟩
  have hnl : "\n\n".toList = ['\n', '\n'] := by decide
  have hnil : find controlMarker [] = none := by decide
  have hsplit : "# ".toList ++ m.title ++ "\n\n".toList ++ (header m ++ b) =
      ("# ".toList ++ m.title) ++ '\n' :: ([] ++ '\n' :: (header m ++ b)) :=
    append_blank_line hnl _ _
  rw [htext, hsplit, find_append_newline newline_notMem_controlMarker controlMarker_ne_nil, h,
    find_append_newline newline_notMem_controlMarker controlMarker_ne_nil, hnil, find_marker_header, hnl]
  simp
  omega

/-! ## One call -/

/-- A generation saves the document rendered from the metadata that it saves. -/
def Rendered (c : Call) : Prop :=
  match c.op with
  | .generate project phase wpId title author reviewer refs content =>
    ∃ body assumptions openQuestions traceabilitySection checklist, content = renderDocument
      (buildMetadata (c.env.now 0) project phase wpId title author reviewer refs c.artifactId 1 .draft none [])
      body assumptions openQuestions traceabilitySection checklist
  | _ => True

/-- A review call on the artifact with a reviewer. -/
def Call.NamesReviewer (c : Call) (i : Str) : Prop :=
  match c.op with
  | .requestReview id reviewer _ | .approve id reviewer _ => id = i ∧ ∃ r ∈ reviewer, r ≠ []
  | _ => False

theorem withReviewer_eq {r : Option Str} (h : ¬∃ x ∈ r, x ≠ []) (m : Metadata) : withReviewer m r = m := by
  match r, h with
  | none, _ | some [], _ => rfl
  | some (x :: xs), h => exact absurd ⟨_, rfl, List.cons_ne_nil x xs⟩ h

theorem reviewer_of_reviews {c : Call} {f : Metadata → Metadata} (hf : c.reviews = some f)
    (h : ¬c.NamesReviewer c.artifactId) (m : Metadata) : (f m).reviewer = m.reviewer := by
  obtain ⟨env, op⟩ := c
  cases op with
  | generate | revise => cases hf
  | requestChanges id changes => cases hf; rfl
  | requestReview id reviewer checklist | approve id reviewer notes =>
    cases hf
    have hm : (withReviewer m reviewer).reviewer = m.reviewer :=
      congrArg Metadata.reviewer (withReviewer_eq (fun hr => h ⟨rfl, hr⟩) m)
    exact hm

theorem ledgerStep_of_ne (L : Ledger Str Metadata) {c : Call} {j : Str} (h : j ≠ c.artifactId) :
    ledgerStep L c j = L j := by
  obtain ⟨env, op⟩ := c
  cases op with
  | generate => exact L.create_of_ne _ h
  | requestReview | requestChanges | approve => exact L.amend_of_ne _ h
  | revise => exact L.extend_of_ne _ _ h

/-- `m` is the version that `a` is a state of, after the call. -/
structure Later (c : Call) (a m : Metadata) : Prop where
  version : SameVersion a m
  reviewer : ¬c.NamesReviewer m.artifactId → m.reviewer = a.reviewer

theorem Later.refl (c : Call) (m : Metadata) : Later c m m := ⟨.refl m, fun _ => rfl⟩

/-- The call adds `m`, with a text that shows it. -/
structure Adds (s : Store) (L : Ledger Str Metadata) (c : Call) (m : Metadata) : Prop where
  creates : c.reviews = none
  artifactId : c.artifactId = m.artifactId
  absent : ∀ a ∈ L m.artifactId, a.jsonPath ≠ m.jsonPath
  status : m.status = .draft
  shows : ∃ text, (step s c).get? m.mdPath = some (.markdown text) ∧ Shows text m

theorem Refines.adds_generate {s : Store} {L : Ledger Str Metadata} (h : Refines s L) {env : Env}
    {project title author reviewer content : Str} {phase wpId : Name} {refs : List UpstreamRef}
    (hc : Fresh s ⟨env, .generate project phase wpId title author reviewer refs content⟩)
    (hr : Rendered ⟨env, .generate project phase wpId title author reviewer refs content⟩) :
    Adds s L ⟨env, .generate project phase wpId title author reviewer refs content⟩
      (withPaths (buildMetadata (env.now 0) project phase wpId title author reviewer refs
        (artifactIdOr [] wpId (env.now 1) env.suffix) 1 .draft none [])) where
  creates := rfl
  artifactId := rfl
  absent := fun a ha => absurd (h.eq_nil_of_fresh hc ▸ ha) List.not_mem_nil
  status := rfl
  shows := by
    obtain ⟨body, assumptions, openQuestions, trace, checklist, hcontent⟩ := hr
    refine ⟨content, (Dict.get?_set_of_ne _ _ buildPaths_md_ne_json).trans (Dict.get?_set_self ..), ?_⟩
    rw [hcontent]
    exact shows_renderDocument _ body assumptions openQuestions trace checklist

theorem Refines.adds_revise {s : Store} {L : Ledger Str Metadata} (h : Refines s L) {l : List Metadata}
    {a : Metadata} {id : Str} (hL : L id = l ++ [a]) (content : Str) (r : Revision) :
    Adds s L ⟨r.env, .revise id content r.changes r.author⟩ (r.next a) := by
  obtain ⟨hi, ha⟩ := h.filed id a (by rw [hL]; simp)
  have hid : (r.next a).artifactId = id := (if_neg ha.id).trans hi
  refine ⟨rfl, hid.symm, fun b hb he => ?_, rfl, _, h.get?_reviseWith hL content r,
    shows_replaceDocumentControl content (r.next a)⟩
  rw [hid, hL] at hb
  have hle := h.le_last hL b hb
  have hv : b.version = a.version + 1 := (jsonPath_inj he).2
  omega

/-- A version after a call is one before it, or the call has added it. -/
theorem Refines.later_or_adds {s : Store} {L : Ledger Str Metadata} (h : Refines s L) {c : Call} (hc : Fresh s c)
    (hr : Rendered c) {m : Metadata} (hm : m ∈ ledgerStep L c m.artifactId) :
    (∃ a ∈ L m.artifactId, Later c a m) ∨ Adds s L c m := by
  by_cases hi : m.artifactId = c.artifactId
  swap
  · rw [ledgerStep_of_ne L hi] at hm
    exact .inl ⟨m, hm, .refl c m⟩
  have hcases := (L c.artifactId).eq_nil_or_concat
  simp only [List.concat_eq_append] at hcases
  cases hf : c.reviews with
  | some f =>
    rw [ledgerStep_of_reviews hf, hi] at hm
    left
    rcases hcases with hL | ⟨l, a, hL⟩
    · rw [Ledger.amend, hL] at hm
      exact ⟨m, hi ▸ hm, .refl c m⟩
    · rw [L.amend_self hL, List.mem_append, List.mem_singleton] at hm
      rcases hm with hm | rfl
      · exact ⟨m, by simp [hi, hL, hm], .refl c m⟩
      · refine ⟨a, by simp [hi, hL], sameVersion_of_reviews hf a, fun hn => reviewer_of_reviews hf (hi ▸ hn) a⟩
  | none =>
    obtain ⟨env, op⟩ := c
    cases op with
    | requestReview | requestChanges | approve => cases hf
    | generate project phase wpId title author reviewer refs content =>
      simp only [hi, ledgerStep, Ledger.create_self, List.mem_singleton] at hm
      exact .inr (hm ▸ h.adds_generate hc hr)
    | revise id content changes author =>
      rw [hi, ledgerStep] at hm
      simp only [Call.artifactId] at hi hcases hm
      rcases hcases with hL | ⟨l, a, hL⟩
      · rw [Ledger.extend, hL] at hm
        exact .inl ⟨m, hi ▸ hm, .refl _ m⟩
      · rw [L.extend_self hL] at hm
        simp only [List.mem_append, List.mem_cons, List.not_mem_nil, or_false] at hm
        rcases hm with hm | rfl | rfl
        · exact .inl ⟨m, by simp [hi, hL, hm], .refl _ m⟩
        · exact .inl ⟨a, by simp [hi, hL], sameVersion_supersededBy .., fun _ => rfl⟩
        · exact .inr (h.adds_revise hL content ⟨env, changes, author⟩)

/-! ## Runs -/

/-- Version `m` was added by a call of the run, as `m₀`, and its text, which is still that of then, shows that. -/
structure Shown (cs : List Call) (m : Metadata) (pre : List Call) (c : Call) (post : List Call) (m₀ : Metadata) :
    Prop where
  run : cs = pre ++ c :: post
  creates : c.reviews = none
  artifactId : c.artifactId = m.artifactId
  absent : ∀ a, (Machine.run step Dict.empty pre).get? m.jsonPath ≠ some (.sidecar a)
  stored : (Machine.run step Dict.empty (pre ++ [c])).get? m.jsonPath = some (.sidecar m₀)
  written : (Machine.run step Dict.empty cs).get? m.mdPath = (Machine.run step Dict.empty (pre ++ [c])).get? m.mdPath
  shows : ∃ text, (Machine.run step Dict.empty cs).get? m.mdPath = some (.markdown text) ∧ Shows text m₀
  status : m₀.status = .draft
  version : m₀.version = m.version
  supersedes : m₀.supersedes = m.supersedes
  reviewer : (∀ c' ∈ post, ¬c'.NamesReviewer m.artifactId) → m₀.reviewer = m.reviewer

/-- A version is shown after a call as it was before. -/
theorem Shown.later {cs : List Call} {pre : List Call} {c c' : Call} {post : List Call} {a m m₀ : Metadata}
    (h : Shown cs a pre c post m₀) (hl : Later c' a m)
    (hmd : (Machine.run step Dict.empty (cs ++ [c'])).get? a.mdPath = (Machine.run step Dict.empty cs).get? a.mdPath) :
    Shown (cs ++ [c']) m pre c (post ++ [c']) m₀ where
  run := by rw [h.run, List.append_assoc, List.cons_append]
  creates := h.creates
  artifactId := h.artifactId.trans hl.version.id.symm
  absent := by
    rw [hl.version.jsonPath]
    exact h.absent
  stored := by
    rw [hl.version.jsonPath]
    exact h.stored
  written := by
    rw [hl.version.mdPath, hmd]
    exact h.written
  shows := by
    rw [hl.version.mdPath, hmd]
    exact h.shows
  status := h.status
  version := h.version.trans hl.version.version.symm
  supersedes := h.supersedes.trans hl.version.supersedes.symm
  reviewer := fun hp => by
    have hpost := h.reviewer fun x hx => hl.version.id ▸ hp x (List.mem_append_left _ hx)
    exact hpost.trans (hl.reviewer (hp c' (by simp))).symm

theorem Adds.shown {cs : List Call} {L : Ledger Str Metadata} (h : Refines (Machine.run step Dict.empty cs) L)
    {c : Call} (hc : Fresh (Machine.run step Dict.empty cs) c) {m : Metadata}
    (ha : Adds (Machine.run step Dict.empty cs) L c m) (hm : m ∈ ledgerStep L c m.artifactId) :
    Shown (cs ++ [c]) m cs c [] m where
  run := rfl
  creates := ha.creates
  artifactId := ha.artifactId
  absent := fun a hget => by
    obtain ⟨hL, hp⟩ := (h.holds _ a).mp hget
    exact ha.absent a ((jsonPath_inj hp).1 ▸ hL) hp.symm
  stored := by
    rw [Machine.run_append, Machine.run_cons, Machine.run_nil]
    exact ((step_refines h hc).holds _ m).mpr ⟨hm, rfl⟩
  written := rfl
  shows := by
    rw [Machine.run_append, Machine.run_cons, Machine.run_nil]
    exact ha.shows
  status := ha.status
  version := rfl
  supersedes := rfl
  reviewer := fun _ => rfl

/-- After any run of calls from an empty workspace, with fresh ids for what is generated: the text of every stored
version shows the metadata with which a call added it. These have its version and supersession and the status `DRAFT`,
and the reviewer that it has until a review call names one. -/
theorem stored_versions_shown (cs : List Call)
    (h : Machine.Along step (fun s c => Fresh s c ∧ Rendered c) Dict.empty cs) :
    ∀ m ∈ metas (Machine.run step Dict.empty cs), ∃ pre c post m₀, Shown cs m pre c post m₀ := by
  induction cs using List.reverseRecOn with
  | nil => exact fun m hm => absurd hm List.not_mem_nil
  | append_singleton cs c ih =>
    obtain ⟨hcs, ⟨hc, hr⟩, -⟩ := Machine.along_append.mp h
    have hR := run_refines (hcs.mono fun _ _ hp => hp.1)
    have hrun : Machine.run step Dict.empty (cs ++ [c]) = step (Machine.run step Dict.empty cs) c := by
      rw [Machine.run_append, Machine.run_cons, Machine.run_nil]
    intro m hm
    rw [hrun] at hm
    obtain ⟨p, hp⟩ := mem_metas.mp hm
    have hL := ((step_refines hR hc).holds p m).mp hp
    rcases hR.later_or_adds hc hr hL.1 with ⟨a, ha, hl⟩ | ha
    · have hself : a ∈ Machine.run ledgerStep (fun _ => []) cs a.artifactId := by rwa [(hR.filed _ a ha).1]
      have hmem : a ∈ metas (Machine.run step Dict.empty cs) :=
        mem_metas.mpr ⟨a.jsonPath, (hR.holds _ a).mpr ⟨hself, rfl⟩⟩
      obtain ⟨pre, c', post, m₀, hs⟩ := ih hcs a hmem
      exact ⟨pre, c', post ++ [c], m₀, hs.later hl (hrun ▸ (hR.effect c).markdown hR hc ha)⟩
    · exact ⟨cs, c, [], m, ha.shown hR hc hL.1⟩

/-! ## A run with an approval -/

/-- A generation as the phase plugins do it. -/
def renderItem : Call :=
  ⟨sampleEnv, .generate "Door Lock".toList conceptPhase itemDefinitionWp "Item Definition".toList [] [] []
    (renderDocument (buildMetadata (sampleEnv.now 0) "Door Lock".toList conceptPhase itemDefinitionWp
      "Item Definition".toList [] [] [] generateItem.artifactId 1 .draft none [])
      "The item is a door lock.".toList [] [] (buildTraceabilitySection []) [])⟩

theorem renderItem_along : Machine.Along step (fun s c => Fresh s c ∧ Rendered c) Dict.empty [renderItem, approveItem] :=
  ⟨⟨by decide +kernel, _, _, _, _, _, rfl⟩, ⟨trivial, trivial⟩, trivial⟩

theorem renderItem_shown : ∃ m ∈ metas (Machine.run step Dict.empty [renderItem, approveItem]), m.status = .approved ∧
    ∃ pre c post m₀, Shown [renderItem, approveItem] m pre c post m₀ := by
  obtain ⟨m, hm, hs⟩ : ∃ m ∈ metas (Machine.run step Dict.empty [renderItem, approveItem]), m.status = .approved := by
    decide +kernel
  exact ⟨m, hm, hs, stored_versions_shown _ renderItem_along m hm⟩

/-- An approved version's text still says `DRAFT`. -/
theorem approved_shows_draft : ∃ cs, Machine.Along step (fun s c => Fresh s c ∧ Rendered c) Dict.empty cs ∧
    ∃ m ∈ metas (Machine.run step Dict.empty cs), m.status = .approved ∧
      controlRow "Status".toList Status.draft.text <:+: readArtifactContent (Machine.run step Dict.empty cs) m ∧
      ¬controlRow "Status".toList m.status.text <:+: readArtifactContent (Machine.run step Dict.empty cs) m :=
  ⟨[renderItem, approveItem], renderItem_along, by decide +kernel⟩

end KCore.Artifacts
