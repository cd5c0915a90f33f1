import KCore.Proof.Artifacts.Review

/-!
# Approved versions

An approved version is locked and carries the date of its approval, and a
version is locked exactly if its history says that it was approved once
(`Approval`). Its markdown is never written again; its sidecar is left alone
until the version is superseded, by the mark of `revise` and nothing else,
unless a review call reopens it while it is the latest
(`approved_versions_ok`).
-/

namespace KCore.Artifacts

open Text

/-! ## Locks -/

/-- What the lock says of a version's past. -/
structure Approval (m : Metadata) : Prop where
  date : m.status = .approved → m.approvedAt ≠ []
  status : m.status = .approved → ∃ e ∈ m.statusHistory, e.status = .approved
  locked : m.locked = true ↔ ∃ e ∈ m.statusHistory, e.status = .approved

theorem Approval.of_new {m : Metadata} (h : New m) : Approval m := by
  obtain ⟨date, note, hh⟩ := h.history
  exact ⟨fun hs => by simp [h.status] at hs, fun hs => by simp [h.status] at hs, by simp [h.locked, hh]⟩

/-- Recording a status other than APPROVED changes nothing about the lock. -/
theorem Approval.record {m : Metadata} (h : Approval m) {st : Status} (hst : st ≠ .approved) (now : UtcTime)
    (note : Str) : Approval (recordStatusChange m now st note) := by
  refine ⟨fun hs => absurd hs hst, fun hs => absurd hs hst, ?_⟩
  simp [recordStatusChange, h.locked, or_and_right, exists_or, hst]

theorem Approval.withReviewer {m : Metadata} (h : Approval m) (r : Option Str) :
    Approval (withReviewer m r) := by
  unfold KCore.Artifacts.withReviewer
  split
  · exact h
  · exact h
  · exact ⟨h.date, h.status, h.locked⟩

theorem utcNow_ne_nil (t : UtcTime) : utcNow t ≠ [] := by simp [utcNow]

theorem approval_approved (env : Env) (r notes : Option Str) (m : Metadata) : Approval (approved env r notes m) := by
  have hh : ∃ e ∈ (approved env r notes m).statusHistory, e.status = .approved :=
    ⟨_, List.mem_append_right _ (.head _), rfl⟩
  exact ⟨fun _ => utcNow_ne_nil _, fun _ => hh, fun _ => hh, fun _ => rfl⟩

theorem Approval.reviews {c : Call} {f : Metadata → Metadata} (hf : c.reviews = some f) {m : Metadata}
    (h : Approval m) : Approval (f m) := by
  obtain ⟨env, op⟩ := c
  cases op with
  | generate | revise => cases hf
  | requestReview id reviewer checklist =>
    cases hf
    exact (h.withReviewer reviewer).record (show Status.inReview ≠ .approved by decide) _ _
  | requestChanges id changes =>
    cases hf
    have h' : Approval { m with changeRequests := ensureList changes } := ⟨h.date, h.status, h.locked⟩
    exact h'.record (show Status.draft ≠ .approved by decide) _ _
  | approve id reviewer notes =>
    cases hf
    exact approval_approved env reviewer notes m

theorem Approval.supersededBy {m : Metadata} (h : Approval m) (env : Env) (new : Metadata) :
    Approval (supersededBy env new m) := by
  have := h.record (show Status.superseded ≠ .approved by decide) (env.now 1)
    ("superseded by v".toList ++ pad 2 new.version)
  exact ⟨this.date, this.status, this.locked⟩

/-- What holds of new versions and is kept by the calls holds of every version. -/
theorem Effect.forall {s s' : Store} {L L' : Ledger Str Metadata} {c : Call} (e : Effect s L c s' L')
    {I : Metadata → Prop} (hnew : ∀ m, New m → I m) (hrev : ∀ f m, c.reviews = some f → I m → I (f m))
    (hsup : ∀ new m, I m → I (KCore.Artifacts.supersededBy c.env new m)) (h : ∀ i, ∀ m ∈ L i, I m) :
    ∀ i, ∀ m ∈ L' i, I m := by
  intro i m hm
  cases e with
  | missing => exact h i m hm
  | created m' _ _ _ _ _ hnew' =>
    by_cases hi : i = m'.artifactId
    · subst hi
      rw [Ledger.create_self, List.mem_singleton] at hm
      exact hm ▸ hnew m' hnew'
    · exact h i m (by rwa [L.create_of_ne m' hi] at hm)
  | reviewed f hf l a hL =>
    by_cases hi : i = c.artifactId
    · subst hi
      rw [L.amend_self hL, List.mem_append, List.mem_singleton] at hm
      rcases hm with hm | rfl
      · exact h c.artifactId m (by simp [hL, hm])
      · exact hrev f a hf (h c.artifactId a (by simp [hL]))
    · exact h i m (by rwa [L.amend_of_ne f hi] at hm)
  | revised f content _ l a hL hn hb =>
    by_cases hi : i = c.artifactId
    · subst hi
      rw [L.extend_self hL] at hm
      simp only [List.mem_append, List.mem_cons, List.not_mem_nil, or_false] at hm
      rcases hm with hm | rfl | rfl
      · exact h c.artifactId m (by simp [hL, hm])
      · exact hsup _ a (h c.artifactId a (by simp [hL]))
      · exact hnew _ hb
    · exact h i m (by rwa [L.extend_of_ne f _ hi] at hm)

/-! ## Files -/

/-- No call writes the markdown of a stored version again. -/
theorem Effect.markdown {s s' : Store} {L L' : Ledger Str Metadata} {c : Call} (e : Effect s L c s' L')
    (h : Refines s L) (hc : Fresh s c) {i : Str} {m : Metadata} (hm : m ∈ L i) :
    s'.get? m.mdPath = s.get? m.mdPath := by
  obtain ⟨hi, -⟩ := h.filed i m hm
  by_cases hic : i = c.artifactId
  · subst hic
    cases e with
    | missing => rfl
    | created m' _ _ _ hL => simp [hL hc] at hm
    | reviewed f hf l a hL =>
      have ha := (h.filed _ a (by rw [hL]; simp)).2
      rw [updateMetadata_eq s ((sameVersion_of_reviews hf a).filed ha (history_of_reviews hf a).1).json]
      exact Dict.get?_set_of_ne _ _ buildPaths_md_ne_json
    | revised f content _ l a hL hn =>
      have ha := (h.filed _ a (by rw [hL]; simp)).2
      have hs := sameVersion_supersededBy c.env (f a) a
      rw [updateMetadata_eq _ (hs.filed ha (history_recordStatusChange ..)).json]
      refine (Dict.get?_set_of_ne _ _ buildPaths_md_ne_json).trans
        ((Dict.get?_set_of_ne _ _ buildPaths_md_ne_json).trans (Dict.get?_set_of_ne _ _ fun he => ?_))
      have := h.le_last hL m (hL ▸ hm)
      have := (buildPaths_md_inj he).2
      have := hn.version.trans (congrArg (· + 1) hs.version)
      omega
  · refine e.frame h ?_ hic
    exact hi ▸ owns_mdPath m

/-- A call leaves a version, or changes it as the latest one of its artifact. -/
theorem Effect.version {s s' : Store} {L L' : Ledger Str Metadata} {c : Call} (e : Effect s L c s' L')
    (hc : Fresh s c) {i : Str} {m : Metadata} (hm : m ∈ L i) :
    m ∈ L' i ∨ c.artifactId = i ∧ (L i).getLast? = some m ∧
      ((∃ f, c.reviews = some f ∧ f m ∈ L' i) ∨
        c.reviews = none ∧ ∃ new, KCore.Artifacts.supersededBy c.env new m ∈ L' i) := by
  by_cases hi : i = c.artifactId
  · subst hi
    cases e with
    | missing => exact .inl hm
    | created m' _ _ _ hL => simp [hL hc] at hm
    | reviewed f hf l a hL =>
      rw [L.amend_self hL]
      rw [hL] at hm ⊢
      rcases List.mem_append.mp hm with hm | hm
      · exact .inl (by simp [hm])
      · rw [List.mem_singleton.mp hm]
        exact .inr ⟨rfl, by simp, .inl ⟨f, hf, by simp⟩⟩
    | revised f content hf l a hL =>
      rw [L.extend_self hL]
      rw [hL] at hm ⊢
      rcases List.mem_append.mp hm with hm | hm
      · exact .inl (by simp [hm])
      · rw [List.mem_singleton.mp hm]
        exact .inr ⟨rfl, by simp, .inr ⟨hf, f a, by simp⟩⟩
  · left
    cases e with
    | missing => exact hm
    | created m' _ _ hi' => rwa [L.create_of_ne m' (by rwa [hi'])]
    | reviewed f => rwa [L.amend_of_ne f hi]
    | revised f => rwa [L.extend_of_ne f _ hi]

/-! ## Runs -/

/-- `m'` is `m` with the mark that `revise` leaves. -/
def Marked (m m' : Metadata) : Prop :=
  ∃ date note by_, m' = { m with
    status := .superseded
    updatedAt := date
    statusHistory := m.statusHistory ++ [⟨.superseded, date, note⟩]
    supersededBy := some by_ }

/-- A review call on the artifact of `m`, with `m` still in its sidecar. -/
def Reopens (m : Metadata) (s : Store) (c : Call) : Prop :=
  c.reviews.isSome = true ∧ c.artifactId = m.artifactId ∧ s.get? m.jsonPath = some (.sidecar m)

instance (m : Metadata) (s : Store) (c : Call) : Decidable (Reopens m s c) :=
  inferInstanceAs (Decidable (_ ∧ _ ∧ _))

/-- A locked version keeps its lock. -/
theorem locked_of_reviews {c : Call} {f : Metadata → Metadata} (hf : c.reviews = some f) {m : Metadata}
    (h : m.locked = true) : (f m).locked = true := by
  have hr (r : Option Str) : (withReviewer m r).locked = true := by
    unfold withReviewer
    split <;> exact h
  obtain ⟨env, op⟩ := c
  cases op with
  | generate | revise => cases hf
  | requestReview id reviewer checklist => cases hf; exact hr reviewer
  | requestChanges id changes => cases hf; exact h
  | approve id reviewer notes => cases hf; rfl

/-- What a run leaves of a version that was approved in `m`. -/
structure Kept (m : Metadata) (text : Option File) (s : Store) (L : Ledger Str Metadata) : Prop where
  refines : Refines s L
  markdown : s.get? m.mdPath = text
  sidecar : ∃ m' ∈ L m.artifactId, SameVersion m m' ∧ m'.locked = true

theorem Kept.step {m : Metadata} {s : Store} {L : Ledger Str Metadata} {text : Option File} (h : Kept m text s L)
    {c : Call} (hc : Fresh s c) : Kept m text (step s c) (ledgerStep L c) := by
  have e := h.refines.effect c
  obtain ⟨m', hm', hs, hl⟩ := h.sidecar
  refine ⟨step_refines h.refines hc, ?_, ?_⟩
  · rw [← h.markdown, ← hs.mdPath]
    exact e.markdown h.refines hc hm'
  · rcases e.version hc hm' with hm' | ⟨-, -, ⟨f, hf, hm'⟩ | ⟨-, new, hm'⟩⟩
    · exact ⟨m', hm', hs, hl⟩
    · exact ⟨_, hm', hs.trans (sameVersion_of_reviews hf m'), locked_of_reviews hf hl⟩
    · exact ⟨_, hm', hs.trans (sameVersion_supersededBy ..), hl⟩

/-- What a run leaves of an approved version that no review call reopens. -/
structure Closed (m : Metadata) (s : Store) (L : Ledger Str Metadata) : Prop where
  refines : Refines s L
  sidecar : ∃ m' ∈ L m.artifactId, m' = m ∨ Marked m m'

theorem Closed.step {m : Metadata} {s : Store} {L : Ledger Str Metadata} (h : Closed m s L) {c : Call}
    (hc : Fresh s c ∧ ¬Reopens m s c) : Closed m (step s c) (ledgerStep L c) := by
  obtain ⟨m', hm', hmm'⟩ := h.sidecar
  refine ⟨step_refines h.refines hc.1, ?_⟩
  rcases (h.refines.effect c).version hc.1 hm' with hm'' | ⟨hi, hl, hch⟩
  · exact ⟨m', hm'', hmm'⟩
  · rcases hmm' with rfl | ⟨date, note, by_, rfl⟩
    · rcases hch with ⟨f, hf, -⟩ | ⟨-, new, hn⟩
      · exact absurd ⟨by simp [hf], hi, (h.refines.holds _ _).mpr ⟨hm', rfl⟩⟩ hc.2
      · exact ⟨_, hn, .inr ⟨_, _, _, rfl⟩⟩
    · -- the latest version is not a superseded one
      exact absurd rfl ((h.refines.versions _ (List.ne_nil_of_mem hm')).last _ hl)

theorem run_approval {cs : List Call} (h : Machine.Along step Fresh Dict.empty cs) :
    Refines (Machine.run step Dict.empty cs) (Machine.run ledgerStep (fun _ => []) cs) ∧
      ∀ i, ∀ m ∈ Machine.run ledgerStep (fun _ => []) cs i, Approval m := by
  refine Machine.run_simulation (R := fun s L => Refines s L ∧ ∀ i, ∀ m ∈ L i, Approval m)
    (fun s L c hR hc => ?_) ⟨refines_empty, fun _ _ hm => absurd hm List.not_mem_nil⟩ h
  exact ⟨step_refines hR.1 hc, (hR.1.effect c).forall (fun _ => .of_new) (fun _ _ hf hm => hm.reviews hf)
    (fun _ _ hm => hm.supersededBy _ _) hR.2⟩

/-- After any run of calls from an empty workspace, with fresh ids for what is generated: an
approved version is locked and dated, and a version is locked exactly if its history holds an
approval. From then on no call writes an approved version's markdown or takes its lock away,
and as long as no review call reopens it, it is as it was or marked by `revise`. -/
theorem approved_versions_ok (cs : List Call) (h : Machine.Along step Fresh Dict.empty cs) :
    let s := Machine.run step Dict.empty cs
    (∀ m ∈ metas s, (m.status = .approved → m.locked = true ∧ m.approvedAt ≠ []) ∧
      (m.locked = true ↔ ∃ e ∈ m.statusHistory, e.status = .approved)) ∧
    ∀ m ∈ metas s, m.status = .approved → ∀ cs' : List Call, Machine.Along step Fresh s cs' →
      let s' := Machine.run step s cs'
      s'.get? m.mdPath = s.get? m.mdPath ∧
      (∃ m', s'.get? m.jsonPath = some (.sidecar m') ∧ m'.locked = true) ∧
      (Machine.Along step (fun s c => ¬Reopens m s c) s cs' →
        ∃ m', s'.get? m.jsonPath = some (.sidecar m') ∧ (m' = m ∨ Marked m m')) := by
  intro s
  obtain ⟨hR, hA⟩ := run_approval h
  generalize Machine.run ledgerStep (fun _ => []) cs = L at hR hA
  have hmem {m : Metadata} (hm : m ∈ metas s) : m ∈ L m.artifactId := by
    obtain ⟨p, hp⟩ := mem_metas.mp hm
    exact ((hR.holds p m).mp hp).1
  refine ⟨fun m hm => ?_, fun m hm hst cs' h' => ?_⟩
  · have ha := hA _ m (hmem hm)
    exact ⟨fun hst => ⟨ha.locked.mpr (ha.status hst), ha.date hst⟩, ha.locked⟩
  · have ha := hA _ m (hmem hm)
    have hk : Kept m (s.get? m.mdPath) s L :=
      ⟨hR, rfl, m, hmem hm, .refl m, ha.locked.mpr (ha.status hst)⟩
    obtain ⟨hR', hmd, m', hm', hs', hl⟩ := Machine.run_simulation (fun _ _ _ hk hc => hk.step hc) hk h'
    have hL' : m' ∈ Machine.run ledgerStep L cs' m'.artifactId := by rwa [hs'.id]
    refine ⟨hmd, ⟨m', hs'.jsonPath ▸ (hR'.holds _ m').mpr ⟨hL', rfl⟩, hl⟩, fun hr => ?_⟩
    obtain ⟨hR', m', hm', hmm'⟩ :=
      Machine.run_simulation (fun _ _ _ hk hc => hk.step hc) (Closed.mk hR ⟨m, hmem hm, .inl rfl⟩) (h'.and hr)
    refine ⟨m', (hR'.holds _ m').mpr ?_, hmm'⟩
    rcases hmm' with rfl | ⟨date, note, by_, rfl⟩ <;> exact ⟨hm', rfl⟩

/-! ## Runs with an approval -/

def approveItem : Call := ⟨sampleEnv, .approve generateItem.artifactId none none⟩

def changeItem : Call := ⟨sampleEnv, .requestChanges generateItem.artifactId (.text "typo".toList)⟩

theorem approve_revise_ok :
    let s := Machine.run step Dict.empty [generateItem, approveItem]
    ∃ m ∈ metas s, m.status = .approved ∧ ∃ m',
      (Machine.run step s [reviseItem]).get? m.jsonPath = some (.sidecar m') ∧ (m' = m ∨ Marked m m') := by
  intro s
  obtain ⟨m, hm, hst⟩ : ∃ m ∈ metas s, m.status = .approved := by decide +kernel
  have h := (approved_versions_ok [generateItem, approveItem] (by decide +kernel)).2 m hm hst [reviseItem]
    (by decide +kernel)
  exact ⟨m, hm, hst, h.2.2 ⟨fun hr => Bool.noConfusion hr.1, trivial⟩⟩

/-- A review call reopens an approved version, which stays locked; and the mark of `revise`
changes the date of the last update. -/
theorem approved_version_changes :
    (∃ cs, Machine.Along step Fresh Dict.empty cs ∧
      ∃ m ∈ metas (Machine.run step Dict.empty cs), m.status = .draft ∧ m.locked = true) ∧
    ∃ cs c, Machine.Along step Fresh Dict.empty (cs ++ [c]) ∧ c.reviews = none ∧
      ∃ m ∈ metas (Machine.run step Dict.empty cs), m.status = .approved ∧
        ∃ m' ∈ metas (Machine.run step Dict.empty (cs ++ [c])), m'.metadataPath = m.metadataPath ∧
          m'.status = .superseded ∧ m'.updatedAt ≠ m.updatedAt :=
  ⟨⟨[generateItem, approveItem, changeItem], by decide +kernel, by decide +kernel⟩,
    [generateItem, approveItem], { reviseItem with env := { sampleEnv with now := fun n => ⟨2024, 5, 7, 12, 0, n⟩ } },
    by decide +kernel, rfl, by decide +kernel⟩

end KCore.Artifacts
