import KCore.Proof.Artifacts.Versions

/-!
# The version chain of an artifact

What the review workflow keeps of the stored versions after any run of calls:
`review_versions_ok` says that they are numbered without gaps, that all but the
last are superseded by the next, that no call touches another artifact's files,
and what the upstream resolution makes of them.
-/

namespace KCore.Artifacts

open Text

/-! ## Frames -/

theorem owns_jsonPath (m : Metadata) : Owns m.artifactId m.jsonPath := ⟨_, _, _, _, .inr rfl⟩

theorem owns_mdPath (m : Metadata) : Owns m.artifactId m.mdPath := ⟨_, _, _, _, .inl rfl⟩

/-- Writing a file of one artifact leaves those of another. -/
theorem get?_set_of_owns {s : Store} {i j : Str} {p q : Path} (hq : Owns i q) (hp : Owns j p) (h : j ≠ i)
    (f : File) : (s.set q f).get? p = s.get? p :=
  Dict.get?_set_of_ne s f fun he => h (hp.unique (he ▸ hq))

theorem get?_updateMetadata_of_owns {s : Store} {i j : Str} {a : Metadata} {p : Path} (ha : Filed a)
    (hi : a.artifactId = i) (hp : Owns j p) (hj : j ≠ i) : (updateMetadata s a).get? p = s.get? p := by
  rw [updateMetadata_eq s ha.json]
  exact get?_set_of_owns (owns_jsonPath a) hp (by rw [hi]; exact hj) _

/-- A call on one artifact leaves the files of the others. -/
theorem Effect.frame {s s' : Store} {L L' : Ledger Str Metadata} {c : Call} (e : Effect s L c s' L')
    (h : Refines s L) {j : Str} {p : Path} (hp : Owns j p) (hj : j ≠ c.artifactId) : s'.get? p = s.get? p := by
  cases e with
  | missing => rfl
  | created m content _ hi =>
    rw [← hi] at hj
    rw [get?_set_of_owns (owns_jsonPath m) hp hj, get?_set_of_owns (owns_mdPath m) hp hj]
  | reviewed f hf l a hL =>
    obtain ⟨hi, ha⟩ := h.filed _ a (by rw [hL]; simp)
    have hs := sameVersion_of_reviews hf a
    exact get?_updateMetadata_of_owns (hs.filed ha (history_of_reviews hf a).1) (hs.id.trans hi) hp hj
  | revised f content _ l a hL hn hb =>
    obtain ⟨hi, ha⟩ := h.filed _ a (by rw [hL]; simp)
    have hs := sameVersion_supersededBy c.env (f a) a
    have hid : j ≠ (f a).artifactId := by rwa [hn.id, hs.id, hi]
    rw [get?_updateMetadata_of_owns (hs.filed ha (history_recordStatusChange ..)) (hs.id.trans hi) hp hj,
      get?_set_of_owns (owns_jsonPath _) hp hid, get?_set_of_owns (owns_mdPath _) hp hid]

/-! ## Version chains -/

/-- The stored versions `ms` of artifact `i` are `1..n`, each superseded by the next. -/
structure VersionChain (ms : List Metadata) (i : Str) (n : Nat) : Prop where
  pos : 1 ≤ n
  versions : (ms.map (·.version)).Perm (List.range' 1 n)
  superseded : ∀ m ∈ ms, m.version < n → m.status = .superseded ∧ m.supersededBy = some ⟨i, m.version + 1⟩
  latest : ∀ m ∈ ms, m.version = n → m.status ≠ .superseded
  supersedes : ∀ m ∈ ms, ∀ k, 1 ≤ k → m.version = k + 1 → m.supersedes = some ⟨i, k⟩
  history : ∀ m ∈ ms, m.statusHistory.getLast?.map (·.status) = some m.status

/-- One sidecar for each version. -/
theorem nodup_stored {s : Store} {M : Metadata → Prop} (h : Holds s M) (i : Str) : (stored s i).Nodup := by
  refine List.Nodup.filter _ (List.pairwise_filterMap.mpr ?_)
  refine (List.pairwise_map.mp s.nodup).imp_of_mem fun {e e'} he he' hne m hm m' hm' hmm => hne ?_
  obtain ⟨p, f⟩ := e
  obtain ⟨p', f'⟩ := e'
  cases f with
  | markdown => cases hm
  | sidecar =>
    cases f' with
    | markdown => cases hm'
    | sidecar =>
      cases hm
      cases hm'
      exact ((h _ _).mp (Dict.get?_eq_some.mpr he)).2.trans (hmm ▸ ((h _ _).mp (Dict.get?_eq_some.mpr he')).2.symm)

theorem Versions.map_version {l : List Metadata} (h : Versions l) :
    l.map (·.version) = List.range' 1 l.length := Linked.map_eq_range' h.head h.isChain_version

namespace Refines

variable {s : Store} {L : Ledger Str Metadata} {i : Str}

theorem perm_stored (h : Refines s L) (hv : Versions (L i)) : (stored s i).Perm (L i) := by
  refine (List.perm_ext_iff_of_nodup (nodup_stored h.holds i) ?_).mpr fun m => h.mem_stored
  refine List.Nodup.of_map (·.version) ?_
  rw [hv.map_version]
  exact List.nodup_range' ..

theorem versionChain (h : Refines s L) (hi : L i ≠ []) : VersionChain (stored s i) i (L i).length := by
  have hv := h.versions i hi
  have hmap := hv.map_version
  have hlast : ∀ m, (L i).getLast? = some m → m.version = (L i).length := fun m hm => by
    have := congrArg List.getLast? hmap
    rw [List.getLast?_map, hm, List.getLast?_range', Option.map_some] at this
    split at this
    · simp at this
    · simp only [Option.some.injEq] at this
      omega
  refine ⟨List.length_pos_iff.mpr hi, hmap ▸ (h.perm_stored hv).map _, fun m hm hlt => ?_, fun m hm hlt => ?_,
    fun m hm k hk hmk => ?_, fun m hm => (h.filed i m (h.mem_stored.mp hm)).2.history⟩
  all_goals rw [h.mem_stored] at hm
  · rcases Linked.eq_last_or_next hv.link hm with hl | ⟨b, hb, hn⟩
    · have := hlast m hl
      omega
    · exact ⟨hn.status, by rw [hn.by_, (h.filed i b hb).1, hn.version]⟩
  · rcases Linked.eq_last_or_next hv.link hm with hl | ⟨b, hb, hn⟩
    · exact hv.last m hl
    · have : b.version ∈ (L i).map (·.version) := List.mem_map_of_mem hb
      rw [hmap, List.mem_range'_1, hn.version] at this
      omega
  · rcases Linked.eq_head_or_prev hv.link hm with hl | ⟨b, hb, hn⟩
    · have := hv.head m hl
      omega
    · rw [hn.supersedes, (h.filed i b hb).1]
      have := hn.version
      rw [show b.version = k by omega]

/-! ## The upstream resolution -/

/-- A query for the latest version of a work product finds a superseded one only when asked to. -/
theorem wanted_superseded (h : Refines s L) {g : Listing} {project : Str} {phase wp : Option Name}
    {status : Option Str} {m : Metadata} (hm : getLatestByWp g s project phase wp status = some m)
    (hs : m.status = .superseded) : status = some Status.superseded.text := by
  have newer (metas : List Metadata) (hl : metas = listMetadata g s (some project) phase wp) :
      metas.argmax (·.version) ≠ some m := by
    intro hmax
    -- the version that replaced `m` is listed too, since it is kept in the same directory
    subst hl
    obtain ⟨hmL, hb⟩ := h.mem_listMetadata.mp (List.argmax_mem hmax)
    have hv := h.versions _ (List.ne_nil_of_mem hmL)
    rcases Linked.eq_last_or_next hv.link hmL with hl | ⟨b, hbL, hn⟩
    · exact hv.last m hl hs
    · have hdir : b.jsonPath.dir = m.jsonPath.dir := by
        simp only [Metadata.jsonPath, buildPaths, hn.slug, hn.phase, hn.wp]
      have hle := List.le_of_mem_argmax (h.mem_listMetadata.mpr ⟨by rwa [hn.id], hdir ▸ hb⟩) hmax
      rw [hn.version] at hle
      omega
  unfold getLatestByWp at hm
  cases status with
  | none => exact absurd hm (newer _ rfl)
  | some st =>
    cases st with
    | nil => exact absurd hm (newer _ rfl)
    | cons c st =>
      have := (List.mem_filter.mp (List.argmax_mem hm)).2
      simp only [decide_eq_true_eq] at this
      rw [← this, hs]

end Refines

/-- The query that `resolve_upstream` makes for a requirement. -/
def upstreamQuery (g : Listing) (s : Store) (project : Str) (req : Requirement) : Option Metadata :=
  getLatestByWp g s project req.phase req.wpId (some req.wanted)

theorem resolveUpstream_eq (g : Listing) (s : Store) (project : Str) : ∀ reqs : List Requirement,
    resolveUpstream g s project reqs =
      (reqs.filterMap (upstreamQuery g s project), reqs.filter fun req => (upstreamQuery g s project req).isNone)
  | [] => rfl
  | req :: reqs => by
    rw [resolveUpstream, resolveUpstream_eq g s project reqs, List.filterMap_cons, List.filter_cons, upstreamQuery]
    cases getLatestByWp g s project req.phase req.wpId (some req.wanted) <;> rfl

theorem mem_resolveUpstream {g : Listing} {s : Store} {project : Str} {m : Metadata} {reqs : List Requirement} :
    m ∈ (resolveUpstream g s project reqs).1 ↔
      ∃ req ∈ reqs, getLatestByWp g s project req.phase req.wpId (some req.wanted) = some m := by
  rw [resolveUpstream_eq]
  exact List.mem_filterMap

theorem length_resolveUpstream (g : Listing) (s : Store) (project : Str) : ∀ reqs : List Requirement,
    (resolveUpstream g s project reqs).1.length + (resolveUpstream g s project reqs).2.length = reqs.length
  | [] => rfl
  | req :: reqs => by
    have := length_resolveUpstream g s project reqs
    simp only [resolveUpstream]
    cases getLatestByWp g s project req.phase req.wpId (some req.wanted) <;>
      simp only [List.length_cons] <;> omega

/-- After any run of calls from an empty workspace, with fresh ids for what is generated: the
versions of every artifact form a chain, a call leaves the other artifacts' files, and the
upstream resolution gives one result for each requirement, a superseded version only where the
requirement asks for that status. -/
theorem review_versions_ok (cs : List Call) (h : Machine.Along step Fresh Dict.empty cs) :
    let s := Machine.run step Dict.empty cs
    (∀ i, stored s i ≠ [] → ∃ n, VersionChain (stored s i) i n) ∧
    (∀ (c : Call) (j : Str) (p : Path), j ≠ c.artifactId → Owns j p → (step s c).get? p = s.get? p) ∧
    ∀ (g : Listing) (project : Str) (reqs : List Requirement),
      (∀ m ∈ (resolveUpstream g s project reqs).1, m.status = .superseded →
        ∃ req ∈ reqs, req.wanted = Status.superseded.text ∧
          getLatestByWp g s project req.phase req.wpId (some req.wanted) = some m) ∧
      (resolveUpstream g s project reqs).1.length + (resolveUpstream g s project reqs).2.length =
        reqs.length := by
  intro s
  have hR := run_refines h
  refine ⟨fun i hi => ⟨_, hR.versionChain fun hL => hi ?_⟩, fun c j p hj hp => (hR.effect c).frame hR hp hj,
    fun g project reqs => ⟨fun m hm hs => ?_, length_resolveUpstream g s project reqs⟩⟩
  · exact List.eq_nil_iff_forall_not_mem.mpr fun m hm => by simpa [hL] using hR.mem_stored.mp hm
  · obtain ⟨req, hreq, hm⟩ := mem_resolveUpstream.mp hm
    exact ⟨req, hreq, Option.some.inj (hR.wanted_superseded hm hs), hm⟩

/-! ## A run -/

def sampleEnv : Env := ⟨.id, fun n => ⟨2024, 5, 6, 12, 0, n⟩, "4f2a91".toList⟩

def conceptPhase : Name := ⟨"concept".toList, concept_ok⟩

def itemDefinitionWp : Name := ⟨"item_definition".toList, by decide⟩

def generateItem : Call :=
  ⟨sampleEnv, .generate "Door Lock".toList conceptPhase itemDefinitionWp "Item Definition".toList [] [] []
    "# Item".toList⟩

def reviseItem : Call :=
  ⟨sampleEnv, .revise generateItem.artifactId "# Item 2".toList (.text "typo".toList) none⟩

theorem generate_revise_versions_ok :
    ∃ n, VersionChain (stored (Machine.run step Dict.empty [generateItem, reviseItem]) generateItem.artifactId)
      generateItem.artifactId n :=
  (review_versions_ok [generateItem, reviseItem] (by decide +kernel)).1 _ (by decide +kernel)

/-- A requirement may ask for a superseded version, and gets one. -/
theorem resolveUpstream_superseded : ∃ cs, Machine.Along step Fresh Dict.empty cs ∧ ∃ g project reqs,
    ∃ m ∈ (resolveUpstream g (Machine.run step Dict.empty cs) project reqs).1, m.status = .superseded :=
  ⟨[generateItem, reviseItem], by decide +kernel, .id, "Door Lock".toList,
    [⟨conceptPhase, itemDefinitionWp, some "SUPERSEDED".toList⟩], by decide +kernel⟩

end KCore.Artifacts
