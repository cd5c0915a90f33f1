import KCore.Proof.Artifacts.Interleaved

/-!
# Sessions in the order of their reads

Where no call reads while another one is under way, all that is left to write at a read are sidecars of
versions that later ones supersede (`Trails`); the call finds the same latest version without them, and does not
write them. So the files and the answers are those of the calls in the order of their reads (`sessions_serial`).
With any other overlap of two calls on one artifact a status, a number or a text is lost
(`sessions_overlap`).
-/

namespace KCore.Artifacts

open Text Machine Interleave Serial

variable {s s' : Store} {w : Write}

/-! ## Sidecars of superseded versions -/

/-- The write of a sidecar that is superseded. -/
def Supersedes (w : Write) : Prop := ∃ m, w = ⟨m.jsonPath, .sidecar m⟩ ∧ m.status = .superseded

/-- It replaces the sidecar of a version that is not the latest. -/
theorem Fits.trails {m : Metadata} (hw : Fits s ⟨m.jsonPath, .sidecar m⟩) (hs : m.status = .superseded) :
    (∃ a ∈ metas s, a.jsonPath = m.jsonPath) ∧ ∃ b ∈ metas s, b.artifactId = m.artifactId ∧ m.version < b.version := by
  generalize hm : (⟨m.jsonPath, .sidecar m⟩ : Write) = w at hw
  cases hw with
  | markdown b text => exact absurd (congrArg Write.file hm) (by simp)
  | sidecar b filed starts newer =>
    obtain rfl : m = b := by simpa using congrArg Write.file hm
    exact newer hs

/-- Versions of one number are one. -/
def Unique (s : Store) : Prop :=
  ∀ m ∈ metas s, ∀ m' ∈ metas s, m.artifactId = m'.artifactId → m.version = m'.version → m = m'

theorem Unique.of_grows (h : Placed s) (hs : Grows s s') (hu : Unique s') : Unique s := by
  intro m hm m' hm' hi hv
  obtain ⟨x, hx, he⟩ := hs m hm
  obtain ⟨x', hx', he'⟩ := hs m' hm'
  obtain ⟨hxi, hxv⟩ := jsonPath_inj he
  obtain ⟨hxi', hxv'⟩ := jsonPath_inj he'
  have hpath : m.jsonPath = m'.jsonPath := by
    rw [← he, ← he', hu x hx x' hx' ((hxi.trans hi).trans hxi'.symm) ((hxv.trans hv).trans hxv'.symm)]
  have hfile : s.get? m.jsonPath = some (.sidecar m) := (h.holds _ m).mpr ⟨hm, rfl⟩
  have hfile' : s.get? m'.jsonPath = some (.sidecar m') := (h.holds _ m').mpr ⟨hm', rfl⟩
  rw [hpath, hfile'] at hfile
  cases hfile
  rfl

/-- The latest version is found without such a write. -/
theorem Tidy.latest_trail (h : Tidy s) (hu : Unique s) (hw : Fits s w) (hsup : Supersedes w) (g : Listing) (i : Str) :
    getLatestById g (w.apply s) i none = getLatestById g s i none := by
  obtain ⟨m, rfl, hs⟩ := hsup
  obtain ⟨-, b, hb, hbi, hlt⟩ := hw.trails hs
  have hmem {x : Metadata} : x ∈ metas _ ↔ _ := h.placed.mem_set_sidecar m (m := x)
  have htidy := (h.write hw).placed
  have hne {x : Metadata} (hv : m.version < x.version) : x.jsonPath ≠ m.jsonPath := fun he => by
    have := (jsonPath_inj he).2
    omega
  have hb' : b ∈ metas _ := hmem.mpr (.inr ⟨hb, hne hlt⟩)
  cases ha : getLatestById g s i none with
  | none =>
    have hnone := h.placed.latest_none.mp ha
    refine htidy.latest_none.mpr fun x hx hi => ?_
    rcases hmem.mp hx with rfl | ⟨hx, -⟩
    · exact hnone b hb (hbi.trans hi)
    · exact hnone x hx hi
  | some a =>
    obtain ⟨hamem, hai, hale⟩ := h.placed.latest_some ha
    have hane : a.jsonPath ≠ m.jsonPath := fun he => by
      obtain ⟨hi, hv⟩ := jsonPath_inj he
      have := hale b hb ((hbi.trans hi.symm).trans hai)
      omega
    have ha' : a ∈ metas _ := hmem.mpr (.inr ⟨hamem, hane⟩)
    cases hx : getLatestById g (Write.apply ⟨m.jsonPath, .sidecar m⟩ s) i none with
    | none => exact absurd hai (htidy.latest_none.mp hx a ha')
    | some x =>
      obtain ⟨hxmem, hxi, hxle⟩ := htidy.latest_some hx
      rcases hmem.mp hxmem with rfl | ⟨hxs, -⟩
      · have := hxle b hb' (hbi.trans hxi)
        omega
      · exact congrArg some (hu x hxs a hamem (hxi.trans hai.symm) ((hale x hxs hxi).antisymm (hxle a ha' hai)))

theorem Tidy.latest_trails : ∀ {ws : List Write} {s : Store}, Tidy s → (∀ w ∈ ws, Fits s w ∧ Supersedes w) →
    Unique (applyWrites ws s) → Grows s (applyWrites ws s) ∧ ∀ c : Call, c.latest (applyWrites ws s) = c.latest s
  | [], s, _, _, _ => ⟨.refl s, fun _ => rfl⟩
  | w :: ws, s, h, hws, hu => by
    obtain ⟨hfits, hsup⟩ := hws w (.head _)
    have hgrows := h.grows hfits
    obtain ⟨hrest, hlatest⟩ := Tidy.latest_trails (h.write hfits)
      (fun w' hw' => ⟨(hws w' (.tail _ hw')).1.mono hgrows, (hws w' (.tail _ hw')).2⟩) hu
    have hall : Grows s (applyWrites (w :: ws) s) := hgrows.trans hrest
    refine ⟨hall, fun c => ?_⟩
    rw [applyWrites_cons, hlatest c]
    exact h.latest_trail (.of_grows h.placed hall hu) hfits hsup c.env.listing c.artifactId

/-- Such writes may come after one of another file. -/
theorem applyWrites_comm {x : Write} : ∀ {ws : List Write} {s : Store}, (∀ w ∈ ws, w.path ∈ s ∧ w.path ≠ x.path) →
    applyWrites ws (x.apply s) = x.apply (applyWrites ws s)
  | [], _, _ => rfl
  | w :: ws, s, h => by
    obtain ⟨hmem, hne⟩ := h w (.head _)
    have hcomm : w.apply (x.apply s) = x.apply (w.apply s) := (Dict.set_comm_of_mem hne hmem ..).symm
    rw [applyWrites_cons, applyWrites_cons, hcomm]
    exact applyWrites_comm fun w' hw' => ⟨Dict.mem_set.mpr (.inr (h w' (.tail _ hw')).1), (h w' (.tail _ hw')).2⟩

/-- What a call that is no longer under way has left. -/
theorem Rest.trails {c : Call} (hc : ¬c.Generates) {p : Plan Store Returned} (h : Rest c p s) (hp : ¬Underway c p) :
    ∃ ws : List Write, p.writes = ws.map Write.apply ∧ ∀ w ∈ ws, Fits s w ∧ Supersedes w := by
  obtain ⟨s₀, made, ws, hbegins, hws, hfit⟩ := h
  refine ⟨ws, hws, ?_⟩
  rw [Underway, hws, List.length_map, not_lt] at hp
  cases ws with
  | nil => exact fun w hw => absurd hw List.not_mem_nil
  | cons w ws =>
    generalize hall : made ++ w :: ws = all at hbegins
    generalize p.answer = returned at hbegins
    cases hbegins with
    | missing => exact absurd hall (by simp)
    | created b content hg => exact absurd hg hc
    | reviewed a hl f hf t =>
      have hzero : c.trailing = 0 := by
        unfold Call.trailing
        unfold Call.reviews at hf
        split
        · rename_i hop
          rw [hop] at hf
          cases hf
        · rfl
      rw [hzero] at hp
      exact absurd hp (by simp)
    | revised a hl b hn hb i content changes author hop =>
      have hone : c.trailing = 1 := by rw [Call.trailing, hop]
      rw [hone, List.length_cons] at hp
      obtain rfl : ws = [] := List.eq_nil_of_length_eq_zero (by omega)
      have hlast := congrArg List.getLast? hall
      rw [List.getLast?_append] at hlast
      obtain rfl : w = _ := by simpa using hlast
      refine List.forall_mem_singleton.mpr ⟨hfit.1, supersededBy c.env b a, ?_, rfl⟩
      rw [(sameVersion_supersededBy c.env b a).jsonPath]

/-! ## The order of the reads -/

section

variable {ι : Type*} {req : ι → Call} {w : World ι Store Returned}

variable (req) in
/-- No two calls have a file left that both write; and only the last one that has read is under way. -/
structure Turn (w : World ι Store Returned) : Prop where
  apart : ∀ i j, i ≠ j → ∀ x y : Write, x.apply ∈ w.left i → y.apply ∈ w.left j → x.path ≠ y.path
  early : ∀ before i after, w.order = before ++ i :: after → ∀ j ∈ before, ∀ p ∈ w.phase j, ¬Underway (req j) p

theorem apply_injective : Function.Injective Write.apply := by
  intro x y h
  have hentries : (x.apply Dict.empty).entries = (y.apply Dict.empty).entries := by rw [h]
  obtain ⟨p, f⟩ := x
  obtain ⟨q, g⟩ := y
  obtain ⟨rfl, rfl⟩ : p = q ∧ f = g := by simpa [Write.apply, Dict.entries_set, Dict.put, Dict.empty] using hentries
  rfl

/-- All that calls have left that are no longer under way. -/
theorem trails_of_order (hreq : ∀ i, ¬(req i).Generates) (hgoing : Going req w) : ∀ {l : List ι},
    (∀ i ∈ l, ∀ p ∈ w.phase i, ¬Underway (req i) p) →
    ∃ ws : List Write, l.flatMap w.left = ws.map Write.apply ∧
      ∀ x ∈ ws, Fits w.state x ∧ Supersedes x ∧ ∃ i ∈ l, x.apply ∈ w.left i
  | [], _ => ⟨[], rfl, fun _ hx => absurd hx List.not_mem_nil⟩
  | i :: order, h => by
    obtain ⟨ws, hws, hall⟩ := trails_of_order hreq hgoing fun j hj => h j (.tail _ hj)
    obtain ⟨vs, hvs, htrails⟩ : ∃ vs : List Write, w.left i = vs.map Write.apply ∧
        ∀ x ∈ vs, Fits w.state x ∧ Supersedes x := by
      cases hi : w.phase i with
      | none => exact ⟨[], by rw [World.left, hi]; rfl, fun _ hx => absurd hx List.not_mem_nil⟩
      | some p =>
        obtain ⟨vs, hvs, htrails⟩ := (hgoing.left i p hi).trails (hreq i) (h i (.head _) p hi)
        exact ⟨vs, by rw [World.left, hi]; exact hvs, htrails⟩
    refine ⟨vs ++ ws, by rw [List.flatMap_cons, hvs, hws, List.map_append], fun x hx => ?_⟩
    rcases List.mem_append.mp hx with hx | hx
    · exact ⟨(htrails x hx).1, (htrails x hx).2, i, .head _, hvs ▸ List.mem_map_of_mem hx⟩
    · obtain ⟨hfits, hsup, j, hj, hleft⟩ := hall x hx
      exact ⟨hfits, hsup, j, .tail _ hj, hleft⟩

/-- A call writes no sidecar of a version before the latest. -/
theorem Tidy.path_ne (h : Tidy s) {c : Call} (hc : ¬c.Generates) {x y : Write} (hx : x ∈ c.writes s) (hy : Fits s y)
    (hsup : Supersedes y) : y.path ≠ x.path := by
  obtain ⟨m, rfl, hs⟩ := hsup
  obtain ⟨-, b, hb, hbi, hlt⟩ := hy.trails hs
  have hbegins := h.placed.begins c
  generalize c.writes s = ws at hbegins hx
  generalize c.answer s = returned at hbegins
  have hlatest {a : Metadata} (ha : c.latest s = some a) (hi : m.artifactId = a.artifactId) : m.version < a.version := by
    obtain ⟨-, hai, hle⟩ := h.placed.latest_some ha
    have := hle b hb ((hbi.trans hi).trans hai)
    omega
  have hmd {a b : Metadata} : a.jsonPath ≠ b.mdPath := buildPaths_md_ne_json.symm
  intro he
  cases hbegins with
  | missing => exact absurd hx List.not_mem_nil
  | created b content hg => exact absurd hg hc
  | reviewed a hl f hf t =>
    rw [List.mem_singleton.mp hx] at he
    obtain ⟨hi, hv⟩ := jsonPath_inj he
    exact (hlatest hl hi).ne hv
  | revised a hl b' hn hb' i content changes author hop =>
    have hid : b'.artifactId = a.artifactId := hn.id
    have hversion : b'.version = a.version + 1 := hn.version
    simp only [List.mem_cons, List.not_mem_nil, or_false] at hx
    rcases hx with rfl | rfl | rfl
    · exact hmd he
    · obtain ⟨hi, hv⟩ := jsonPath_inj he
      have := hlatest hl (hi.trans hid)
      omega
    · obtain ⟨hi, hv⟩ := jsonPath_inj he
      exact (hlatest hl hi).ne hv

/-- The last call is not among those before another one. -/
theorem notMem_before {order before after : List ι} {i j : ι} (hj : j ∉ order) (h : order ++ [j] = before ++ i :: after) :
    j ∉ before := by
  rcases List.append_eq_append_iff.mp h with ⟨mid, rfl, hmid⟩ | ⟨mid, rfl, hmid⟩
  · obtain rfl : mid = [] := by
      have hlen : 1 = mid.length + (after.length + 1) := by simpa using congrArg List.length hmid
      exact List.eq_nil_of_length_eq_zero (by omega)
    rwa [List.append_nil]
  · exact fun hb => hj (List.mem_append_left _ hb)

variable [DecidableEq ι]

theorem Turn.read (hreq : ∀ i, ¬(req i).Generates) (hgoing : Going req w) (h : Turn req w) (j : ι)
    (hnew : w.phase j = none → j ∉ w.order) (hsettled : Settled req (fun _ _ => True) w (.read j)) :
    Turn req (Interleave.step (fun i => (req i).plan) w (.read j)) := by
  rw [Interleave.step]
  cases hj : w.phase j with
  | some p => exact h
  | none =>
    have hother {i : ι} (hi : i ≠ j) (p : Plan Store Returned) (hp : p ∈ w.phase i) : ¬Underway (req i) p :=
      hsettled i hi trivial p hp
    have hleft {i : ι} (hi : i ≠ j) :
        World.left ⟨w.state, Function.update w.phase j (some ((req j).plan w.state)), w.order ++ [j]⟩ i =
        w.left i := by
      simp only [World.left, Function.update_of_ne hi]
    -- what the others have left is of superseded versions
    have hapart {i : ι} (hi : i ≠ j) {x y : Write} (hx : x.apply ∈ w.left i) (hy : y.apply ∈ ((req j).plan w.state).writes) :
        x.path ≠ y.path := by
      obtain ⟨ws, hws, htrails⟩ := trails_of_order hreq hgoing (l := [i]) fun k hk => by
        rw [List.mem_singleton.mp hk]
        exact hother hi
      rw [List.flatMap_singleton] at hws
      rw [hws] at hx
      obtain ⟨x', hx', hxe⟩ := List.mem_map.mp hx
      obtain ⟨y', hy', hye⟩ := List.mem_map.mp hy
      obtain rfl := apply_injective hxe
      obtain rfl := apply_injective hye
      exact hgoing.state.path_ne (hreq j) hy' (htrails x' hx').1 (htrails x' hx').2.1
    refine ⟨fun i k hik x y hx hy => ?_, fun before i after horder k hk p hp => ?_⟩
    · by_cases hi : i = j
      · subst hi
        rw [left_update] at hx
        rw [hleft hik.symm] at hy
        exact (hapart hik.symm hy hx).symm
      · rw [hleft hi] at hx
        by_cases hk : k = j
        · subst hk
          rw [left_update] at hy
          exact hapart hi hx hy
        · rw [hleft hk] at hy
          exact h.apart i k hik x y hx hy
    · rcases phase_update hp with ⟨rfl, -⟩ | ⟨hkj, hp⟩
      · exact absurd hk (notMem_before (hnew hj) horder)
      · exact hother hkj p hp

theorem Turn.write (h : Turn req w) (j : ι) : Turn req (Interleave.step (fun i => (req i).plan) w (.write j)) := by
  rw [Interleave.step]
  split
  · rename_i f fs a hj
    have hleft (i : ι) :
        ∀ x ∈ World.left ⟨f w.state, Function.update w.phase j (some ⟨fs, a⟩), w.order⟩ i, x ∈ w.left i := by
      by_cases hi : i = j
      · subst hi
        rw [left_update, World.left, hj]
        exact fun x hx => .tail _ hx
      · simp only [World.left, Function.update_of_ne hi]
        exact fun _ => id
    refine ⟨fun i k hik x y hx hy => h.apart i k hik x y (hleft i _ hx) (hleft k _ hy),
      fun before i after horder k hk p hp => ?_⟩
    rcases phase_update hp with ⟨rfl, rfl⟩ | ⟨-, hp⟩
    · have := h.early before i after horder k hk _ hj
      simp only [Underway, List.length_cons] at this ⊢
      omega
    · exact h.early before i after horder k hk p hp
  · exact h

omit [DecidableEq ι] in
/-- Such calls come in turn. -/
theorem inTurn_of_settled (hreq : ∀ i, ¬(req i).Generates) (hgoing : Going req w) (h : Turn req w)
    (hu : Unique (applyAll w.pending w.state)) (e : Event ι) (hsettled : Settled req (fun _ _ => True) w e)
    (hnodup : w.order.Nodup) (hnew : ∀ j, w.phase j = none → j ∉ w.order) : InTurn (fun i => (req i).plan) w e := by
  cases e with
  | read j =>
    intro hj
    obtain ⟨ws, hws, htrails⟩ := trails_of_order hreq hgoing (l := w.order) fun i hi p hp =>
      hsettled i (fun he => hnew j hj (he ▸ hi)) trivial p hp
    rw [World.pending, hws, applyAll_map_apply] at hu ⊢
    have hlatest := (hgoing.state.latest_trails (fun x hx => ⟨(htrails x hx).1, (htrails x hx).2.1⟩) hu).2 (req j)
    show (req j).plan _ = (req j).plan _
    rw [Call.plan, Call.plan, Call.writes, Call.writes, Call.answer, Call.answer, hlatest]
  | write j =>
    intro before after f fs horder hleft
    obtain ⟨ws, hws, htrails⟩ := trails_of_order hreq hgoing (l := before) (h.early before j after horder)
    obtain ⟨a, hj⟩ : ∃ a, w.phase j = some ⟨f :: fs, a⟩ := by
      cases hj : w.phase j with
      | none => simp [World.left, hj] at hleft
      | some p =>
        obtain ⟨writes, a⟩ := p
        obtain rfl : writes = f :: fs := by simpa [World.left, hj] using hleft
        exact ⟨a, rfl⟩
    obtain ⟨x, rfl, -⟩ := (hgoing.left j _ hj).write (hreq j)
    rw [hws, applyAll_map_apply, applyAll_map_apply]
    refine applyWrites_comm fun y hy => ?_
    obtain ⟨hfits, ⟨m, rfl, hs⟩, i, hi, hyleft⟩ := htrails y hy
    obtain ⟨⟨a, ha, he⟩, -⟩ := hfits.trails hs
    refine ⟨?_, h.apart i j ?_ _ x hyleft (hleft ▸ .head _)⟩
    · show m.jsonPath ∈ w.state
      rw [← he]
      exact Dict.mem_iff_get?.mpr ⟨_, (hgoing.state.holds _ a).mpr ⟨ha, rfl⟩⟩
    · rintro rfl
      rw [horder, List.nodup_middle, List.nodup_cons] at hnodup
      exact hnodup.1 (List.mem_append_left _ hi)

/-- The calls have come in the order of their reads, with what is left to write. -/
structure Orders (req : ι → Call) (start : Store) (w : World ι Store Returned) : Prop where
  going : Going req w
  turn : Turn req w
  explained : Explained (fun i => (req i).plan) start w

omit [DecidableEq ι] in
theorem act_call (i : ι) (s : Store) : act (fun i => (req i).plan) i s = (step s (req i), (req i).answer s) := by
  rw [act, step_eq_applyWrites, ← applyAll_map_apply]
  rfl

omit [DecidableEq ι] in
theorem serve_calls : ∀ (s : Store) (order : List ι),
    serve (act fun i => (req i).plan) s order = run step s (order.map req)
  | _, [] => rfl
  | s, i :: order => by
    rw [serve_cons, act_call]
    exact serve_calls (step s (req i)) order

theorem Orders.next (hreq : ∀ i, ¬(req i).Generates) {start : Store} (horderly : Orderly start) (h : Orders req start w)
    (e : Event ι) (hsettled : Settled req (fun _ _ => True) w e) :
    Orders req start (Interleave.step (fun i => (req i).plan) w e) := by
  have hnew (j : ι) (hj : w.phase j = none) : j ∉ w.order := h.explained.phase_none hj
  have hserved : Orderly (run step start (w.order.map req)) := by
    refine run_invariant (I := Orderly) (P := Unused) (fun _ _ h hu => orderly_step h hu) horderly ?_
    refine along_of_forall (R := fun c => ¬c.Generates) start (fun c hc => ?_) |>.mono fun _ _ hc hg => absurd hg hc
    obtain ⟨i, -, rfl⟩ := List.mem_map.mp hc
    exact hreq i
  rw [← serve_calls, h.explained.state] at hserved
  refine ⟨going_step hreq h.going e, ?_, ?_⟩
  · cases e with
    | read j => exact h.turn.read hreq h.going j (hnew j) hsettled
    | write j => exact h.turn.write j
  · exact h.explained.step e (inTurn_of_settled hreq h.going h.turn hserved.unique e hsettled h.explained.nodup hnew)

end

/-! ## Runs -/

/-- Calls of any number of sessions on the versions that are there, after any run of calls, with their steps in any
order: no version is superseded and the latest. Where no revision reads while another one of the artifact is under way,
what a revision reports as saved is there, under a number that no other one gives. Where no call reads
while another one is under way, the files and the answers are those of the calls in some order. -/
theorem sessions_serial {ι : Type*} [DecidableEq ι] (req : ι → Call) (hreq : ∀ i, ¬(req i).Generates) (cs : List Call)
    (hcs : Along step Unused Dict.empty cs) (es : List (Event ι)) :
    let start := run step Dict.empty cs
    let machine := Interleave.step fun i => (req i).plan
    let w := run machine (World.start start) es
    (∀ g id m, getLatestById g w.state id none = some m → m.status ≠ .superseded) ∧
    (Along machine (Settled req (ReviseOne req)) (World.start start) es →
      ∀ i p m, w.phase i = some p → p.writes = [] → p.answer = .saved (some m) →
        (∃ text, SavesText (req i) m text ∧ w.state.get? m.mdPath = some (.markdown text)) ∧
        ∀ j ≠ i, ∀ q m', w.phase j = some q → q.answer = .saved (some m') → m'.artifactId = m.artifactId →
          m'.version ≠ m.version) ∧
    (Along machine (Settled req fun _ _ => True) (World.start start) es → Finished w →
      ∃ order : List ι, order.Nodup ∧ (∀ i, i ∈ order ↔ w.phase i ≠ none) ∧
        run step start (order.map req) = w.state ∧
        ∀ i p, w.phase i = some p → ∃ before after, order = before ++ i :: after ∧
          p.answer = (req i).answer (run step start (before.map req))) := by
  intro start machine w
  have htidy : Tidy start := run_invariant (I := Tidy) (fun _ c h _ => h.step c) tidy_empty hcs
  have horderly : Orderly start := run_invariant (I := Orderly) (fun _ _ h hu => orderly_step h hu) orderly_empty hcs
  have hgoing : Going req w :=
    run_invariant (I := Going req) (fun _ e h _ => going_step hreq h e) (ready_start htidy) (along_true _ es)
  refine ⟨fun g id m hm => (hgoing.state.latest_open hm).2, fun hsettled i p m hp hdone hm => ?_, fun hsettled hdone => ?_⟩
  · have hnumbered : Going req w ∧ Numbered req w := by
      refine run_invariant (I := fun w => Going req w ∧ Numbered req w)
        (fun _ e h he => ⟨going_step hreq h.1 e, h.2.step hreq h.1 e he⟩) ⟨ready_start htidy, ?_⟩ hsettled
      exact ⟨fun _ _ _ _ _ _ _ hp => (nomatch hp), fun _ _ _ hp => (nomatch hp), fun _ _ _ hp => (nomatch hp)⟩
    refine ⟨hnumbered.2.text i p m hp hm (by simp [hdone]), fun j hj q m' hq hm' hid => ?_⟩
    exact hnumbered.2.distinct i j p q m m' hj hp hq hm hm' hid
  · have horders : Orders req start w := by
      refine run_invariant (fun _ e h he => h.next hreq horderly e he) ⟨ready_start htidy, ⟨?_, ?_⟩, explained_start start⟩
        hsettled
      · exact fun _ _ _ _ _ hx => absurd hx List.not_mem_nil
      · exact fun _ _ _ h => absurd h.symm (by simp [World.start])
    obtain ⟨hmem, hplaces⟩ := horders.explained.places
    refine ⟨w.order, horders.explained.nodup, fun i => (hmem i).trans ⟨fun ⟨a, ha⟩ hi => ?_, fun hi => ?_⟩, ?_,
      fun i p hp => ?_⟩
    · rw [hi] at ha
      cases ha
    · obtain ⟨p, hp⟩ := Option.ne_none_iff_exists'.mp hi
      exact ⟨p.answer, by rw [hp]; rfl⟩
    · rw [← serve_calls]
      exact horders.explained.finished hdone
    · obtain ⟨before, after, horder, ha⟩ := hplaces i p.answer (by rw [hp]; rfl)
      rw [serve_calls, act_call] at ha
      exact ⟨before, after, horder, ha⟩

/-- The version that an answer reports as saved. -/
def Returned.metadata : Returned → Option Metadata
  | .saved m => m
  | .text _ => none

theorem Returned.eq_saved {a : Returned} {m : Metadata} (h : a.metadata = some m) : a = .saved (some m) := by
  cases a with
  | text t => cases h
  | saved m' => exact congrArg Returned.saved h

/-- Two revisions and an approval. -/
def threeCalls : Fin 3 → Call
  | 0 => reviseItem
  | 1 => approveItem
  | 2 => reviseAgain

theorem unused_generateItem : Along step Unused Dict.empty [generateItem] :=
  ⟨fun _ _ hp => absurd hp List.not_mem_nil, trivial⟩

/-- The approval and the second revision come while the first one has the sidecar of the first version left. -/
def trailingWrite : List (Event (Fin 3)) :=
  [.read 0, .write 0, .write 0, .read 1, .write 1, .read 2, .write 2, .write 0, .write 2, .write 2]

theorem sessions_serial_trailing :
    let w := run (Interleave.step fun i => (threeCalls i).plan) (World.start (run step Dict.empty [generateItem])) trailingWrite
    (∃ order : List (Fin 3), order.Nodup ∧ run step (run step Dict.empty [generateItem]) (order.map threeCalls) = w.state) ∧
    ∃ p m, w.phase 2 = some p ∧ p.answer = .saved (some m) ∧ m.version = 3 ∧
      ∃ text, SavesText reviseAgain m text ∧ w.state.get? m.mdPath = some (.markdown text) := by
  intro w
  have hreq : ∀ i, ¬(threeCalls i).Generates := by
    intro i
    match i with
    | 0 | 1 | 2 => exact id
  obtain ⟨-, hsaved, horder⟩ := sessions_serial threeCalls hreq [generateItem] unused_generateItem trailingWrite
  have hsettled : Along (Interleave.step fun i => (threeCalls i).plan) (Settled threeCalls fun _ _ => True)
      (World.start (run step Dict.empty [generateItem])) trailingWrite := by decide +kernel
  obtain ⟨order, hnodup, -, hstate, -⟩ := horder hsettled (by decide +kernel)
  obtain ⟨p, hp, hdone, m, hm, hversion⟩ : ∃ p ∈ w.phase 2, p.writes = [] ∧ ∃ m ∈ p.answer.metadata, m.version = 3 := by
    decide +kernel
  refine ⟨⟨order, hnodup, hstate⟩, p, m, hp, Returned.eq_saved hm, hversion, ?_⟩
  have hrevises := hsettled.mono (Q := Settled threeCalls (ReviseOne threeCalls)) fun w e h => h.mono
  exact (hsaved hrevises 2 p m hp hdone (Returned.eq_saved hm)).1

/-! ## Other overlaps -/

/-- Two revisions at once. -/
def twoRevisions : Bool → Call
  | true => reviseItem
  | false => reviseAgain

/-- A revision and an approval at once. -/
def reviseAndApprove : Bool → Call
  | true => reviseItem
  | false => approveItem

/-- A request for review and an approval at once. -/
def twoReviews : Bool → Call
  | true => requestItemReview
  | false => approveItem

/-- Both read the first version, and the second one makes its writes after the first. -/
def bothRead (calls : Bool → Call) : List (Event Bool) :=
  let writes i := ((calls i).writes (run step Dict.empty [generateItem])).map fun _ => Event.write i
  [.read true, .read false] ++ writes true ++ writes false

def atOnce (calls : Bool → Call) : World Bool Store Returned :=
  run (Interleave.step fun i => (calls i).plan) (World.start (run step Dict.empty [generateItem])) (bothRead calls)

/-- The statuses that are recorded, for each version. -/
def histories (s : Store) : List (Nat × List Status) := (metas s).map fun m => (m.version, m.statuses)

/-- Two revisions report the second version as saved, and the text of one of them is lost; with a revision and an
approval, or with two reviews, the statuses are those of neither order. -/
theorem sessions_overlap :
    (Finished (atOnce twoRevisions) ∧ ∃ m m', ((atOnce twoRevisions).phase true).map (·.answer) = some (.saved (some m)) ∧
      ((atOnce twoRevisions).phase false).map (·.answer) = some (.saved (some m')) ∧ m'.artifactId = m.artifactId ∧
      m'.version = m.version ∧
      ∀ text, SavesText reviseItem m text → (atOnce twoRevisions).state.get? m.mdPath ≠ some (.markdown text)) ∧
    (Finished (atOnce reviseAndApprove) ∧ ∀ first, histories (atOnce reviseAndApprove).state ≠
      histories (run step Dict.empty [generateItem, reviseAndApprove first, reviseAndApprove !first])) ∧
    Finished (atOnce twoReviews) ∧ ∀ first, histories (atOnce twoReviews).state ≠
      histories (run step Dict.empty [generateItem, twoReviews first, twoReviews !first]) := by
  refine ⟨?_, by decide +kernel, by decide +kernel⟩
  obtain ⟨p, hp, m, hm, q, hq, m', hm', hid, hv, hlost⟩ : ∃ p ∈ (atOnce twoRevisions).phase true,
      ∃ m ∈ p.answer.metadata, ∃ q ∈ (atOnce twoRevisions).phase false, ∃ m' ∈ q.answer.metadata,
      m'.artifactId = m.artifactId ∧ m'.version = m.version ∧ (atOnce twoRevisions).state.get? m.mdPath ≠
        some (.markdown (replaceDocumentControl "# Item 2".toList (renderDocumentControl m m.upstreamRefs))) := by
    decide +kernel
  refine ⟨by decide +kernel, m, m', ?_, ?_, hid, hv, ?_⟩
  · rw [show (atOnce twoRevisions).phase true = some p from hp, Option.map_some, Returned.eq_saved hm]
  · rw [show (atOnce twoRevisions).phase false = some q from hq, Option.map_some, Returned.eq_saved hm']
  · rintro text ⟨_, _, _, _, hop, rfl⟩
    cases hop
    exact hlost

end KCore.Artifacts
