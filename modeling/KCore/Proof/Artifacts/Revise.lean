import KCore.Proof.Artifacts.Revisions
import KCore.Proof.Artifacts.Versions

/-!
# Revisions in the store

A call of `revise` saves the new content with its header replaced (`Refines.revise`), so
the file of the latest version after a revision, and further ones that pass on what is read
of the current one, has the text after `revisions` (`content_reviseAll`).
-/

namespace KCore.Artifacts

open Text

/-- What a call of `revise` is given besides the artifact and the content. -/
structure Revision where
  env : Env
  changes : Raw
  author : Option Str

def reviseWith (id : Str) (s : Store) (content : Str) (r : Revision) : Store :=
  (revise r.env s id content r.changes r.author).1

/-- A revision that passes on the current content, as `revise_hara` does where none is supplied. -/
def reviseCurrent (id : Str) (s : Store) (r : Revision) : Store :=
  match getLatestById r.env.listing s id none with
  | none => s
  | some previous => reviseWith id s (readArtifactContent s previous) r

/-- A revision with new content, and then others that pass it on. -/
def reviseAll (id : Str) (s : Store) (content : Str) (r : Revision) (rs : List Revision) : Store :=
  rs.foldl (reviseCurrent id) (reviseWith id s content r)

/-- The version that a revision adds after `a`. -/
def Revision.next (r : Revision) (a : Metadata) : Metadata := withPaths (revisedFrom r.env r.author r.changes a)

/-- The versions that revisions add after `a`. -/
def nextVersions : Metadata → List Revision → List Metadata
  | _, [] => []
  | a, r :: rs => r.next a :: nextVersions (r.next a) rs

/-! ## One call -/

/-- The text that a call of `revise` writes. -/
theorem Refines.get?_reviseWith {s : Store} {L : Ledger Str Metadata} {id : Str} {l : List Metadata} {a : Metadata}
    (h : Refines s L) (hL : L id = l ++ [a]) (content : Str) (r : Revision) :
    (reviseWith id s content r).get? (r.next a).mdPath =
      some (.markdown (replaceDocumentControl content (header (r.next a)))) := by
  have ha := (h.filed id a (by rw [hL]; simp)).2
  have hs := sameVersion_supersededBy r.env (r.next a) a
  have hstore : reviseWith id s content r = updateMetadata ((s.set (r.next a).mdPath
      (.markdown (replaceDocumentControl content (header (r.next a))))).set (r.next a).jsonPath (.sidecar (r.next a)))
      (supersededBy r.env (r.next a) a) := by
    rw [reviseWith, KCore.Artifacts.revise, h.latest, hL, List.getLast?_concat]
    rfl
  rw [hstore, updateMetadata_eq _ (hs.filed ha (history_recordStatusChange ..)).json]
  exact (Dict.get?_set_of_ne _ _ buildPaths_md_ne_json).trans
    ((Dict.get?_set_of_ne _ _ buildPaths_md_ne_json).trans (Dict.get?_set_self ..))

theorem Refines.revise {s : Store} {L : Ledger Str Metadata} {id : Str} {l : List Metadata} {a : Metadata}
    (h : Refines s L) (hL : L id = l ++ [a]) (content : Str) (r : Revision) :
    ∃ L' l', Refines (reviseWith id s content r) L' ∧ L' id = l' ++ [r.next a] := by
  let c : Call := ⟨r.env, .revise id content r.changes r.author⟩
  have hstep : step s c = reviseWith id s content r := rfl
  have hledger : ledgerStep L c id = l ++ [supersededBy r.env (r.next a) a, r.next a] := L.extend_self hL
  exact ⟨ledgerStep L c, l ++ [supersededBy r.env (r.next a) a], hstep ▸ step_refines h trivial, hledger.trans (by simp)⟩

theorem unbroken_utcNow (t : UtcTime) : Unbroken (utcNow t) := by
  have hpad := unbroken_pad
  have h₁ : Unbroken "-".toList := by decide
  have h₂ : Unbroken "T".toList := by decide
  have h₃ : Unbroken ":".toList := by decide
  have h₄ : Unbroken "Z".toList := by decide
  exact (((((((((((hpad _ _).append h₁).append (hpad _ _)).append h₁).append (hpad _ _)).append h₂).append
    (hpad _ _)).append h₃).append (hpad _ _)).append h₃).append (hpad _ _)).append h₄

/-- A version has its texts on single lines, as the version before it has. -/
theorem SingleLine.next {a : Metadata} (h : SingleLine a) (ha : Filed a) {r : Revision}
    (hr : ∀ author ∈ r.author, Unbroken author) : SingleLine (r.next a) where
  title := h.title
  wpId := h.wpId
  artifactId := by
    have hid : (r.next a).artifactId = a.artifactId := if_neg ha.id
    exact hid ▸ h.artifactId
  projectSlug := by
    have hslug : (r.next a).projectSlug = a.projectSlug := ha.slug.normalizeProjectSlug_eq
    exact hslug ▸ h.projectSlug
  phase := h.phase
  author := by
    simp only [Revision.next, withPaths, revisedFrom, buildMetadata]
    split
    · exact h.author
    · exact h.author
    · exact hr _ ‹_›
  reviewer := h.reviewer
  createdAt := unbroken_utcNow _
  updatedAt := unbroken_utcNow _
  supersedes := fun v hv => Option.some.inj hv ▸ h.artifactId
  upstreamRefs := h.upstreamRefs

/-! ## Further calls -/

/-- Revisions that pass on the current content of the latest version. -/
theorem Refines.reviseCurrent {id : Str} : ∀ (rs : List Revision) {s : Store} {L : Ledger Str Metadata}
    {l : List Metadata} {a : Metadata} {f : Str}, Refines s L → L id = l ++ [a] → s.get? a.mdPath = some (.markdown f) →
      ∃ b, (∀ g, getLatestById g (rs.foldl (reviseCurrent id) s) id none = some b) ∧
        (rs.foldl (reviseCurrent id) s).get? b.mdPath = some (.markdown (passedOn f (nextVersions a rs)))
  | [], s, L, l, a, f, h, hL, hf => ⟨a, fun g => by rw [List.foldl_nil, h.latest, hL, List.getLast?_concat], hf⟩
  | r :: rs, s, L, l, a, f, h, hL, hf => by
    have hlatest : getLatestById r.env.listing s id none = some a := by rw [h.latest, hL, List.getLast?_concat]
    have hread : readArtifactContent s a = universalNewlines f := by
      simp only [readArtifactContent, (h.filed id a (by rw [hL]; simp)).2.md, Option.getD_some, hf]
    have hcurrent : KCore.Artifacts.reviseCurrent id s r = reviseWith id s (universalNewlines f) r := by
      rw [KCore.Artifacts.reviseCurrent, hlatest, ← hread]
    obtain ⟨L', l', h', hL'⟩ := h.revise hL (universalNewlines f) r
    obtain ⟨b, hb, htext⟩ := Refines.reviseCurrent rs h' hL' (h.get?_reviseWith hL (universalNewlines f) r)
    rw [List.foldl_cons, hcurrent]
    exact ⟨b, hb, htext⟩

theorem filed_next (r : Revision) (a : Metadata) : Filed (r.next a) :=
  (new_withPaths (artifactIdOr_ne_nil _ _ _ _) (isSlug_normalizeProjectSlug _) rfl rfl rfl).filed

theorem singleLine_nextVersions : ∀ {rs : List Revision} {a : Metadata}, Filed a → SingleLine a →
    (∀ r ∈ rs, ∀ author ∈ r.author, Unbroken author) → ∀ m ∈ nextVersions a rs, SingleLine m
  | [], _, _, _, _ => fun _ hm => absurd hm List.not_mem_nil
  | r :: _, a, ha, h, hr => by
    have hnext : SingleLine (r.next a) := h.next ha (hr r (.head _))
    have hfiled : Filed (r.next a) := filed_next r a
    rw [nextVersions, List.forall_mem_cons]
    exact ⟨hnext, singleLine_nextVersions hfiled hnext fun x hx => hr x (.tail _ hx)⟩

/-- What the file of the latest version says after a revision with new content and others that pass it on. -/
theorem content_reviseAll {cs : List Call} (h : Machine.Along step Fresh Dict.empty cs) {id : Str} {g : Listing}
    {a : Metadata} (ha : getLatestById g (Machine.run step Dict.empty cs) id none = some a) (content : Str)
    (r : Revision) (rs : List Revision) :
    ∃ b, (∀ g, getLatestById g (reviseAll id (Machine.run step Dict.empty cs) content r rs) id none = some b) ∧
      (reviseAll id (Machine.run step Dict.empty cs) content r rs).get? b.mdPath =
        some (.markdown (revisions content (nextVersions a (r :: rs)))) ∧
      (SingleLine a → (∀ x ∈ r :: rs, ∀ author ∈ x.author, Unbroken author) →
        ∀ m ∈ nextVersions a (r :: rs), SingleLine m) := by
  have hR := run_refines h
  generalize Machine.run step Dict.empty cs = s at *
  generalize Machine.run ledgerStep (fun _ => []) cs = L at *
  rw [hR.latest] at ha
  obtain ⟨l, hL⟩ := List.getLast?_eq_some_iff.mp ha
  obtain ⟨L', l', hR', hL'⟩ := hR.revise hL content r
  obtain ⟨b, hb, htext⟩ := Refines.reviseCurrent rs hR' hL' (hR.get?_reviseWith hL content r)
  exact ⟨b, hb, htext, singleLine_nextVersions (hR.filed id a (by rw [hL]; simp)).2⟩

/-- For a text that is passed to `revise`, and headers with single-line fields: over any number of revisions what it
says outside of its Document Control section is kept, and there is one such section, and a revision of a revision
differs from a revision in blank lines only, just where it is `Replaceable`. Calls in any store have these headers,
and files with these texts. -/
theorem replaceDocumentControl_keeps_iff (c : Str) :
    ((∀ ms, ms ≠ [] → (∀ m ∈ ms, SingleLine m) → Keeps c (revisions c ms)) ∧
      (∀ m m', SingleLine m → SingleLine m' →
        nonBlankLines (replaceDocumentControl (replaceDocumentControl c (header m)) (header m')) =
          nonBlankLines (replaceDocumentControl c (header m'))) ↔ Replaceable c) ∧
    ∀ cs, Machine.Along step Fresh Dict.empty cs → ∀ id g a,
      getLatestById g (Machine.run step Dict.empty cs) id none = some a → ∀ r rs,
        ∃ b, (∀ g, getLatestById g (reviseAll id (Machine.run step Dict.empty cs) c r rs) id none = some b) ∧
          (reviseAll id (Machine.run step Dict.empty cs) c r rs).get? b.mdPath =
            some (.markdown (revisions c (nextVersions a (r :: rs)))) ∧
          (SingleLine a → (∀ x ∈ r :: rs, ∀ author ∈ x.author, Unbroken author) →
            ∀ m ∈ nextVersions a (r :: rs), SingleLine m) := by
  refine ⟨⟨fun h => replaceable_of_keeps h.1 h.2, fun h => ⟨fun ms hne hms => ?_, fun m m' hm hm' => ?_⟩⟩,
    fun cs hcs id g a ha r rs => content_reviseAll hcs ha c r rs⟩
  · obtain ⟨m, ms, rfl⟩ := List.exists_cons_of_ne_nil hne
    exact h.keeps hms
  · exact h.nonBlankLines_eq hm hm'

/-- A text without headings is lost at its second revision. -/
theorem revise_twice_loses : (∀ m ∈ [draftVersion 2, draftVersion 3], SingleLine m) ∧
    ¬Keeps "The item is a door lock.".toList
      (revisions "The item is a door lock.".toList [draftVersion 2, draftVersion 3]) := by
  refine ⟨fun m hm => ?_, fun hk => ?_⟩
  · simp only [List.mem_cons, List.not_mem_nil, or_false] at hm
    rcases hm with rfl | rfl <;> exact singleLine_draftVersion _
  · have hlost : outsideText (revisions "The item is a door lock.".toList [draftVersion 2, draftVersion 3]) ≠
        outsideText "The item is a door lock.".toList := by decide +kernel
    exact hlost hk.outside

end KCore.Artifacts
