import KCore.Proof.Artifacts.Stops

/-!
# Sessions side by side

Calls of several sessions whose reads and file writes come in any order. Every write leaves the
sidecars `Tidy`, whatever comes between it and the read of its call (`Fits`), so no version is superseded and
the latest. A call is under way until it has the sidecar of a superseded version left at most (`Underway`). Where
no revision reads while another one of the artifact is under way, each gives a number of its own (`Numbered`).
-/

namespace KCore.Artifacts

open Text Machine Interleave

/-! ## Single writes -/

/-- What a write needs of the store. -/
inductive Fits (s : Store) : Write → Prop
  | markdown (m : Metadata) (text : Str) : Fits s ⟨m.mdPath, .markdown text⟩
  | sidecar (m : Metadata) (filed : Filed m) (starts : Starts (fun a _ => a ≠ .superseded) m.statuses)
      (newer : m.status = .superseded → (∃ a ∈ metas s, a.jsonPath = m.jsonPath) ∧
        ∃ m' ∈ metas s, m'.artifactId = m.artifactId ∧ m.version < m'.version) :
      Fits s ⟨m.jsonPath, .sidecar m⟩

/-- The sidecars of `s` have their places in `s'`. -/
def Grows (s s' : Store) : Prop := ∀ m ∈ metas s, ∃ m' ∈ metas s', m'.jsonPath = m.jsonPath

variable {s s' : Store} {w : Write}

theorem Grows.refl (s : Store) : Grows s s := fun m hm => ⟨m, hm, rfl⟩

theorem Grows.trans {t : Store} (h : Grows s s') (h' : Grows s' t) : Grows s t := fun m hm => by
  obtain ⟨m', hm', he⟩ := h m hm
  obtain ⟨m'', hm'', he'⟩ := h' m' hm'
  exact ⟨m'', hm'', he'.trans he⟩

/-- A later version is still there. -/
theorem Grows.newer (hs : Grows s s') {i : Str} {v : Nat} (h : ∃ m ∈ metas s, m.artifactId = i ∧ v < m.version) :
    ∃ m ∈ metas s', m.artifactId = i ∧ v < m.version := by
  obtain ⟨m, hm, hi, hlt⟩ := h
  obtain ⟨m', hm', he⟩ := hs m hm
  obtain ⟨hi', hv⟩ := jsonPath_inj he
  exact ⟨m', hm', hi'.trans hi, hv ▸ hlt⟩

theorem Tidy.placed (h : Tidy s) : Placed s := ⟨h.holds, h.filed⟩

theorem Tidy.write (h : Tidy s) (hw : Fits s w) : Tidy (w.apply s) := by
  cases hw with
  | markdown m text => exact h.markdown m text
  | sidecar m filed starts newer => exact h.sidecar filed (fun hs => (newer hs).2) starts

theorem Tidy.grows (h : Tidy s) (hw : Fits s w) : Grows s (w.apply s) := by
  intro m hm
  cases hw with
  | markdown b text => exact ⟨m, (h.mem_set_markdown b text).mpr hm, rfl⟩
  | sidecar b filed starts newer =>
    by_cases hp : m.jsonPath = b.jsonPath
    · exact ⟨b, (h.mem_set_sidecar b).mpr (.inl rfl), hp.symm⟩
    · exact ⟨m, (h.mem_set_sidecar b).mpr (.inr ⟨hm, hp⟩), rfl⟩

theorem Fits.mono (hw : Fits s w) (hs : Grows s s') : Fits s' w := by
  cases hw with
  | markdown m text => exact .markdown m text
  | sidecar m filed starts newer =>
    refine .sidecar m filed starts fun hsup => ?_
    obtain ⟨⟨a, ha, he⟩, hnewer⟩ := newer hsup
    obtain ⟨a', ha', he'⟩ := hs a ha
    exact ⟨⟨a', ha', he'.trans he⟩, hs.newer hnewer⟩

theorem Grows.write (hs : Grows s s') (h : Tidy s) (h' : Tidy s') (hw : Fits s w) : Grows (w.apply s) (w.apply s') := by
  intro m hm
  cases hw with
  | markdown b text =>
    obtain ⟨m', hm', he⟩ := hs m ((h.mem_set_markdown b text).mp hm)
    exact ⟨m', (h'.mem_set_markdown b text).mpr hm', he⟩
  | sidecar b filed starts newer =>
    rcases (h.mem_set_sidecar b).mp hm with rfl | ⟨hm, -⟩
    · exact ⟨m, (h'.mem_set_sidecar m).mpr (.inl rfl), rfl⟩
    · obtain ⟨m', hm', he⟩ := hs m hm
      by_cases hp : m'.jsonPath = b.jsonPath
      · exact ⟨b, (h'.mem_set_sidecar b).mpr (.inl rfl), hp.symm.trans he⟩
      · exact ⟨m', (h'.mem_set_sidecar b).mpr (.inr ⟨hm', hp⟩), he⟩

/-- The writes can be made one after another. -/
abbrev AllFit (s : Store) (ws : List Write) : Prop := Along (fun s w => Write.apply w s) Fits s ws

theorem AllFit.mono : ∀ {ws : List Write} {s s' : Store}, AllFit s ws → Tidy s → Tidy s' → Grows s s' → AllFit s' ws
  | [], _, _, _, _, _, _ => trivial
  | _ :: _, _, _, hws, h, h', hs =>
    have hfits := hws.1.mono hs
    ⟨hfits, AllFit.mono hws.2 (h.write hws.1) (h'.write hfits) (hs.write h h' hws.1)⟩

/-- What a call writes after it has read the store. -/
theorem Tidy.allFit (h : Tidy s) (c : Call) : AllFit s (c.writes s) := by
  have hb := h.placed.begins c
  generalize c.writes s = ws at hb ⊢
  generalize c.answer s = returned at hb
  have new {b : Metadata} (hb : New b) (s : Store) : Fits s ⟨b.jsonPath, .sidecar b⟩ := by
    refine .sidecar b hb.filed ?_ fun hsup => ?_
    · rw [statuses_of_new hb]
      exact ⟨rfl, .singleton _⟩
    · rw [hb.status] at hsup
      cases hsup
  cases hb with
  | missing => trivial
  | created b content hc hi h1 hb => exact ⟨.markdown b content, new hb _, trivial⟩
  | reviewed a hl f hf t =>
    obtain ⟨ha, hopen⟩ := h.latest_open hl
    have hfits : Fits s ⟨(f a).jsonPath, .sidecar (f a)⟩ := by
      refine .sidecar (f a) (filed_of_reviews hf (h.filed a ha)) ?_ fun hs => absurd hs (history_of_reviews hf a).2
      rw [statuses_of_reviews hf]
      exact (starts_append (getLast?_statuses (h.filed a ha))).mpr ⟨h.starts a ha, hopen⟩
    rw [(sameVersion_of_reviews hf a).jsonPath] at hfits
    exact ⟨hfits, trivial⟩
  | revised a hl b hn hb i content changes author hop =>
    obtain ⟨ha, hopen⟩ := h.latest_open hl
    have hsame := sameVersion_supersededBy c.env b a
    have hlt : a.version < b.version := by
      have hv : b.version = a.version + 1 := hn.version
      omega
    refine ⟨.markdown b _, new hb _, ?_, trivial⟩
    have hne : a.jsonPath ≠ b.jsonPath := fun he => by
      have := (jsonPath_inj he).2
      omega
    have hfits (s' : Store) (ha' : a ∈ metas s') (hb' : b ∈ metas s') :
        Fits s' ⟨(supersededBy c.env b a).jsonPath, .sidecar (supersededBy c.env b a)⟩ := by
      refine .sidecar _ (filed_supersededBy c.env b (h.filed a ha)) ?_ fun _ =>
        ⟨⟨a, ha', hsame.jsonPath.symm⟩, b, hb', hn.id, hlt⟩
      rw [statuses_supersededBy]
      exact (starts_append (getLast?_statuses (h.filed a ha))).mpr ⟨h.starts a ha, hopen⟩
    rw [hsame.jsonPath] at hfits
    have hmem {x : Metadata} := (h.markdown b (replaceDocumentControl content
      (renderDocumentControl b b.upstreamRefs))).mem_set_sidecar b (m := x)
    exact hfits _ (hmem.mpr (.inr ⟨(h.mem_set_markdown b _).mpr ha, hne⟩)) (hmem.mpr (.inl rfl))

/-! ## Steps in any order -/

/-- The text that a revision saves under the new version `m`. -/
def SavesText (c : Call) (m : Metadata) (text : Str) : Prop :=
  ∃ i newContent changes author, c.op = .revise i newContent changes author ∧
    text = replaceDocumentControl newContent (renderDocumentControl m m.upstreamRefs)

def Call.Revises (c : Call) : Prop :=
  match c.op with
  | .revise .. => True
  | _ => False

/-- The writes of a call that can be left when it is no longer under way. -/
def Call.trailing (c : Call) : Nat :=
  match c.op with
  | .revise .. => 1
  | _ => 0

/-- The call has more left than, for a revision, the sidecar of the version that it supersedes. -/
def Underway (c : Call) (p : Plan Store Returned) : Prop := c.trailing < p.writes.length

/-- What a call has left that has read some store before. -/
def Rest (c : Call) (p : Plan Store Returned) (s : Store) : Prop :=
  ∃ (s₀ : Store) (made ws : List Write), Begins s₀ c (made ++ ws) p.answer ∧ p.writes = ws.map Write.apply ∧ AllFit s ws

theorem latest_id {c : Call} {m : Metadata} (h : c.latest s = some m) : m.artifactId = c.artifactId :=
  of_decide_eq_true (List.mem_filter.mp (List.argmax_mem h)).2

/-- A call writes the text of the version that it reports, or a sidecar. -/
theorem Rest.write {c : Call} (hc : ¬c.Generates) {f : Store → Store} {fs : List (Store → Store)} {a : Returned}
    (h : Rest c ⟨f :: fs, a⟩ s) : ∃ w : Write, f = w.apply ∧ Fits s w ∧ Rest c ⟨fs, a⟩ (f s) ∧
      ((∃ m text, a = .saved (some m) ∧ SavesText c m text ∧ w = ⟨m.mdPath, .markdown text⟩ ∧ fs.length = 2) ∨
      ∃ m', w = ⟨m'.jsonPath, .sidecar m'⟩ ∧ ∀ m, a = .saved (some m) → fs.length = 1 ∧ m' = m ∨ fs.length = 0) := by
  obtain ⟨s₀, made, ws, hbegins, hws, hfit⟩ := h
  cases ws with
  | nil => cases hws
  | cons w ws =>
    obtain ⟨rfl, rfl⟩ := List.cons.inj hws
    refine ⟨w, rfl, hfit.1, ⟨s₀, made ++ [w], ws, by simpa using hbegins, rfl, hfit.2⟩, ?_⟩
    generalize hall : made ++ w :: ws = all at hbegins
    rw [List.length_map]
    cases hbegins with
    | missing => exact absurd hall (by simp)
    | created b content hg => exact absurd hg hc
    | reviewed x hl g hg t =>
      match made, hall with
      | [], hall =>
        obtain ⟨rfl, rfl⟩ := List.cons.inj hall
        refine .inr ⟨g x, ?_, fun m hm => by cases hm⟩
        rw [(sameVersion_of_reviews hg x).jsonPath]
      | _ :: _, hall => exact absurd (congrArg List.length hall) (by simp)
    | revised x hl b hn hb i content changes author hop =>
      match made, hall with
      | [], hall =>
        obtain ⟨rfl, rfl⟩ := List.cons.inj hall
        exact .inl ⟨b, _, rfl, ⟨i, content, changes, author, hop, rfl⟩, rfl, rfl⟩
      | [_], hall =>
        obtain ⟨rfl, rfl⟩ := List.cons.inj (List.cons.inj hall).2
        exact .inr ⟨b, rfl, fun m hm => .inl ⟨rfl, by cases hm; rfl⟩⟩
      | [_, _], hall =>
        obtain ⟨rfl, rfl⟩ := List.cons.inj (List.cons.inj (List.cons.inj hall).2).2
        refine .inr ⟨supersededBy c.env b x, ?_, fun m hm => .inr rfl⟩
        rw [(sameVersion_supersededBy c.env b x).jsonPath]
      | _ :: _ :: _ :: _, hall => exact absurd (congrArg List.length hall) (by simp)

/-- What is saved has the number after the latest. -/
theorem Tidy.saves (h : Tidy s) {c : Call} (hc : ¬c.Generates) {m : Metadata} (hm : c.answer s = .saved (some m)) :
    c.Revises ∧ m.artifactId = c.artifactId ∧ (c.writes s).length = 3 ∧
      ∀ m' ∈ metas s, m'.artifactId = m.artifactId → m'.version < m.version := by
  have hb := h.placed.begins c
  generalize c.writes s = ws at hb ⊢
  rw [hm] at hb
  cases hb with
  | missing hl hc returned hr => exact absurd rfl (hr m)
  | created b content hg => exact absurd hg hc
  | revised a hl b hn hb i content changes author hop =>
    obtain ⟨-, hi, hle⟩ := h.placed.latest_some hl
    have hid : m.artifactId = a.artifactId := hn.id
    have hv : m.version = a.version + 1 := hn.version
    refine ⟨?_, hid.trans hi, rfl, fun m' hm' hi' => ?_⟩
    · rw [Call.Revises, hop]
      trivial
    · have := hle m' hm' ((hi'.trans hid).trans hi)
      omega

theorem Rest.saves {c : Call} (hc : ¬c.Generates) {p : Plan Store Returned} (h : Rest c p s) {m : Metadata}
    (hm : p.answer = .saved (some m)) : c.Revises ∧ m.artifactId = c.artifactId := by
  obtain ⟨s₀, made, ws, hbegins, -⟩ := h
  rw [hm] at hbegins
  generalize made ++ ws = all at hbegins
  cases hbegins with
  | missing hl hc returned hr => exact absurd rfl (hr m)
  | created b content hg => exact absurd hg hc
  | revised a hl b hn hb i content changes author hop =>
    refine ⟨?_, ?_⟩
    · rw [Call.Revises, hop]
      trivial
    · have hid : m.artifactId = a.artifactId := hn.id
      exact hid.trans (latest_id hl)

section

variable {ι : Type*} (req : ι → Call)

/-- The sidecars are tidy, and every call can go on writing. -/
abbrev Going (w : World ι Store Returned) : Prop := Ready Tidy (fun i => Rest (req i)) w

variable {req} {w : World ι Store Returned}

theorem going_step [DecidableEq ι] (hreq : ∀ i, ¬(req i).Generates) (h : Going req w) (e : Event ι) :
    Going req (Interleave.step (fun i => (req i).plan) w e) := by
  refine ready_of_stable (R := Grows) (fun s i hs => ?_) (fun s i f fs a hs hrest => ?_)
    (fun s s' i p hs hs' hR hrest => ?_) h e
  · exact ⟨s, [], (req i).writes s, hs.placed.begins (req i), rfl, hs.allFit (req i)⟩
  · obtain ⟨x, rfl, hfits, hrest, -⟩ := hrest.write (hreq i)
    exact ⟨hs.write hfits, hs.grows hfits, hrest⟩
  · obtain ⟨s₀, made, ws, hbegins, hws, hfit⟩ := hrest
    exact ⟨s₀, made, ws, hbegins, hws, hfit.mono hs hs' hR⟩

/-! ## Numbers -/

variable (req)

/-- Where a call reads, none is under way that `among` relates to it. -/
def Settled (among : ι → ι → Prop) (w : World ι Store Returned) : Event ι → Prop
  | .read j => ∀ i ≠ j, among i j → ∀ p ∈ w.phase i, ¬Underway (req i) p
  | .write _ => True

instance [Fintype ι] [DecidableEq ι] (w : World ι Store Returned) : DecidablePred (Settled req (fun _ _ => True) w)
  | .read j => inferInstanceAs (Decidable (∀ i ≠ j, True → ∀ p ∈ w.phase i, ¬(req i).trailing < p.writes.length))
  | .write _ => inferInstanceAs (Decidable True)

/-- Fewer calls are to be settled. -/
theorem Settled.mono {req : ι → Call} {among : ι → ι → Prop} {w : World ι Store Returned} {e : Event ι}
    (h : Settled req (fun _ _ => True) w e) : Settled req among w e := by
  cases e with
  | read j => exact fun i hi _ => h i hi trivial
  | write j => trivial

/-- Two revisions of one artifact. -/
def ReviseOne (i j : ι) : Prop := (req i).Revises ∧ (req j).Revises ∧ (req i).artifactId = (req j).artifactId

/-- Each revision has a number of its own, and once it has written its text, that is there. -/
structure Numbered (w : World ι Store Returned) : Prop where
  distinct : ∀ i j p q m m', j ≠ i → w.phase i = some p → w.phase j = some q → p.answer = .saved (some m) →
    q.answer = .saved (some m') → m'.artifactId = m.artifactId → m'.version ≠ m.version
  counted : ∀ i p m, w.phase i = some p → p.answer = .saved (some m) → p.writes.length ≤ 1 →
    ∃ m' ∈ metas w.state, m'.artifactId = m.artifactId ∧ m.version ≤ m'.version
  text : ∀ i p m, w.phase i = some p → p.answer = .saved (some m) → p.writes.length ≤ 2 →
    ∃ text, SavesText (req i) m text ∧ w.state.get? m.mdPath = some (.markdown text)

variable {req} [DecidableEq ι]

theorem Numbered.read (hreq : ∀ i, ¬(req i).Generates) (hgoing : Going req w) (h : Numbered req w) (i : ι)
    (hsettled : Settled req (ReviseOne req) w (.read i)) :
    Numbered req (Interleave.step (fun i => (req i).plan) w (.read i)) := by
  rw [Interleave.step]
  cases hi : w.phase i with
  | some p => exact h
  | none =>
    have hsaves {m : Metadata} (hm : (req i).answer w.state = .saved (some m)) := hgoing.state.saves (hreq i) hm
    -- a revision that has read before has a lower number
    have hlower {j : ι} {q : Plan Store Returned} {m m' : Metadata} (hj : j ≠ i) (hq : w.phase j = some q)
        (hm : (req i).answer w.state = .saved (some m)) (hm' : q.answer = .saved (some m'))
        (hid : m'.artifactId = m.artifactId) : m'.version < m.version := by
      obtain ⟨hrevises, hmid, -, hlt⟩ := hsaves hm
      obtain ⟨hrevises', hmid'⟩ := (hgoing.left j q hq).saves (hreq j) hm'
      have hone : ReviseOne req j i := ⟨hrevises', hrevises, (hmid'.symm.trans hid).trans hmid⟩
      have hunder : q.writes.length ≤ 1 := by
        have htrailing : (req j).trailing ≤ 1 := by
          unfold Call.trailing
          split <;> omega
        have := hsettled j hj hone q hq
        rw [Underway] at this
        omega
      obtain ⟨x, hx, hxi, hle⟩ := h.counted j q m' hq hm' hunder
      exact hle.trans_lt (hlt x hx (hxi.trans hid))
    refine ⟨fun j k p q m m' hkj hp hq hm hm' hid => ?_, fun j p m hp hm hlen => ?_, fun j p m hp hm hlen => ?_⟩
    · rcases phase_update hp with ⟨rfl, rfl⟩ | ⟨hj, hpj⟩
      · rcases phase_update hq with ⟨rfl, -⟩ | ⟨hk, hqk⟩
        · exact absurd rfl hkj
        · exact (hlower hk hqk hm hm' hid).ne
      · rcases phase_update hq with ⟨rfl, rfl⟩ | ⟨hk, hqk⟩
        · exact (hlower hj hpj hm' hm hid.symm).ne'
        · exact h.distinct j k p q m m' hkj hpj hqk hm hm' hid
    · rcases phase_update hp with ⟨rfl, rfl⟩ | ⟨hj, hp⟩
      · have hlen' : ((req j).writes w.state).length ≤ 1 := by simpa [Call.plan] using hlen
        have := (hsaves hm).2.2.1
        omega
      · exact h.counted j p m hp hm hlen
    · rcases phase_update hp with ⟨rfl, rfl⟩ | ⟨hj, hp⟩
      · have hlen' : ((req j).writes w.state).length ≤ 2 := by simpa [Call.plan] using hlen
        have := (hsaves hm).2.2.1
        omega
      · exact h.text j p m hp hm hlen

theorem Numbered.write (hreq : ∀ i, ¬(req i).Generates) (hgoing : Going req w) (h : Numbered req w) (i : ι) :
    Numbered req (Interleave.step (fun i => (req i).plan) w (.write i)) := by
  rw [Interleave.step]
  split
  · rename_i f fs a hi
    obtain ⟨x, rfl, hfits, -, hwhat⟩ := (hgoing.left i _ hi).write (hreq i)
    have hgrows : Grows w.state (x.apply w.state) := hgoing.state.grows hfits
    -- whose answer it was before
    have hprev {j : ι} {p : Plan Store Returned} (hp : Function.update w.phase i (some ⟨fs, a⟩) j = some p) :
        ∃ p', w.phase j = some p' ∧ p'.answer = p.answer := by
      rcases phase_update hp with ⟨rfl, rfl⟩ | ⟨-, hp⟩
      · exact ⟨_, hi, rfl⟩
      · exact ⟨p, hp, rfl⟩
    refine ⟨fun j k p q m m' hkj hp hq hm hm' hid => ?_, fun j p m hp hm hlen => ?_, fun j p m hp hm hlen => ?_⟩
    · obtain ⟨p', hp', he⟩ := hprev hp
      obtain ⟨q', hq', he'⟩ := hprev hq
      exact h.distinct j k p' q' m m' hkj hp' hq' (he.trans hm) (he'.trans hm') hid
    · have hold {p' : Plan Store Returned} (hp' : w.phase j = some p') (hm' : p'.answer = .saved (some m))
          (hlen' : p'.writes.length ≤ 1) :
          ∃ m' ∈ metas (x.apply w.state), m'.artifactId = m.artifactId ∧ m.version ≤ m'.version := by
        obtain ⟨y, hy, hyi, hle⟩ := h.counted j p' m hp' hm' hlen'
        obtain ⟨y', hy', he⟩ := hgrows y hy
        obtain ⟨hyi', hv⟩ := jsonPath_inj he
        exact ⟨y', hy', hyi'.trans hyi, hv ▸ hle⟩
      rcases phase_update hp with ⟨rfl, rfl⟩ | ⟨-, hp⟩
      · rcases hwhat with ⟨-, -, -, -, -, hlen'⟩ | ⟨m', rfl, hlast⟩
        · have hlen : fs.length ≤ 1 := hlen
          omega
        · rcases hlast m hm with ⟨-, rfl⟩ | hnil
          · exact ⟨m', (hgoing.state.placed.mem_set_sidecar m').mpr (.inl rfl), rfl, le_rfl⟩
          · exact hold hi hm (by simp [hnil])
      · exact hold hp hm hlen
    · have hold {p' : Plan Store Returned} (hp' : w.phase j = some p') (hm' : p'.answer = .saved (some m))
          (hlen' : p'.writes.length ≤ 2) (hpath : x.path ≠ m.mdPath) :
          ∃ text, SavesText (req j) m text ∧ (x.apply w.state).get? m.mdPath = some (.markdown text) := by
        obtain ⟨text, htext, hget⟩ := h.text j p' m hp' hm' hlen'
        exact ⟨text, htext, (Dict.get?_set_of_ne _ _ hpath.symm).trans hget⟩
      rcases hwhat with ⟨m', text, hm', htext, rfl, hlen'⟩ | ⟨m', rfl, hlast⟩
      · rcases phase_update hp with ⟨rfl, rfl⟩ | ⟨hj, hp⟩
        · cases hm'.symm.trans hm
          exact ⟨text, htext, Dict.get?_set_self ..⟩
        · refine hold hp hm hlen fun he => ?_
          obtain ⟨hid, hv⟩ := mdPath_inj he
          exact h.distinct i j _ p m' m hj hi hp hm' hm hid.symm hv.symm
      · have hpath : m'.jsonPath ≠ m.mdPath := buildPaths_md_ne_json.symm
        rcases phase_update hp with ⟨rfl, rfl⟩ | ⟨-, hp⟩
        · refine hold hi hm ?_ hpath
          rcases hlast m hm with ⟨hone, -⟩ | hnil
          · simp [hone]
          · simp [hnil]
        · exact hold hp hm hlen hpath
  · exact h

theorem Numbered.step (hreq : ∀ i, ¬(req i).Generates) (hgoing : Going req w) (h : Numbered req w) (e : Event ι)
    (hsettled : Settled req (ReviseOne req) w e) : Numbered req (Interleave.step (fun i => (req i).plan) w e) := by
  cases e with
  | read i => exact h.read hreq hgoing i hsettled
  | write i => exact h.write hreq hgoing i

end

end KCore.Artifacts
