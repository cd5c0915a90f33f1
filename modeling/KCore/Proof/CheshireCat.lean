import KCore.Impl.CheshireCat
import KCore.Lib.Run
import Mathlib.Data.List.Perm.Subperm

/-!
# What is embedded after a call

After `embed_procedures` the points bear exactly the hashes of the active triggers,
each once (`embedProcedures_hashes`). They are the active triggers themselves just
where no two triggers, stored or active, share a hash (`embedProcedures_exact_iff`).
-/

namespace KCore.CheshireCat

open Text

/-- Source, trigger type and content, as a point has them. -/
def Point.trigger (p : Point) : Str × Option Str × Str := (p.metadata.source, p.metadata.triggerType, p.pageContent)

def Trigger.stored (t : Trigger) : Str × Option Str × Str := (t.source, some t.triggerType, t.content)

def storedHash (t : Str × Option Str × Str) : Str := pHash t.1 (t.2.1.getD "unsupported".toList) t.2.2

/-- One point for each active trigger, and no others. -/
def Exact (points : List Point) (active : List Procedure) : Prop :=
  (points.map Point.trigger).Nodup ∧ ∀ t, t ∈ points.map Point.trigger ↔ t ∈ (triggers active).map Trigger.stored

/-- No two triggers, stored or active, share a hash. -/
def ClashFree (points : List Point) (active : List Procedure) : Prop :=
  ∀ t ∈ points.map Point.trigger ++ (triggers active).map Trigger.stored,
    ∀ t' ∈ points.map Point.trigger ++ (triggers active).map Trigger.stored, storedHash t = storedHash t' → t = t'

/-- A call for at most as many triggers as a scroll returns. -/
structure BoundedCall extends Call where
  small : (triggers procedures).length ≤ 10000

/-- What calls keep: hashes and ids are distinct, and one scroll returns all points. -/
structure Synced (points : List Point) : Prop where
  hashes : (points.map Point.hash).Nodup
  ids : (points.map Point.id).Nodup
  small : points.length ≤ 10000

theorem mem_activeHashes {active : List Procedure} {h : Str} :
    h ∈ buildActiveProceduresHashes active ↔ ∃ t ∈ triggers active, t.hash = h := Dict.mem_collect

theorem mem_embeddedHashes {points : List Point} {h : Str} :
    h ∈ buildEmbeddedProceduresHashes points ↔ ∃ p ∈ points, p.hash = h := Dict.mem_collect

/-! ## Deletion -/

/-- Deleting the ids of hashes that are not active keeps the points with active hashes. -/
theorem deletePoints_eq {points : List Point} (hs : Synced points) (active : Dict Str Trigger) {hashes : List Str}
    (hmem : ∀ h, h ∈ hashes ↔ h ∈ buildEmbeddedProceduresHashes points ∧ h ∉ active) :
    deletePoints points (hashes.filterMap (buildEmbeddedProceduresHashes points).get?) =
      points.filter (·.hash ∈ active) := by
  refine List.filter_congr fun p hp => decide_eq_decide.mpr ?_
  rw [not_iff_comm, List.mem_filterMap]
  constructor
  · intro hactive
    have hembedded : p.hash ∈ buildEmbeddedProceduresHashes points := mem_embeddedHashes.mpr ⟨p, hp, rfl⟩
    obtain ⟨id, hid⟩ := Dict.mem_iff_get?.mp hembedded
    obtain ⟨q, hq, hhash, rfl⟩ := Dict.get?_collect hid
    obtain rfl := List.inj_on_of_nodup_map hs.hashes hq hp hhash
    exact ⟨_, (hmem _).mpr ⟨hembedded, hactive⟩, hid⟩
  · rintro ⟨h, hh, hid⟩ hactive
    obtain ⟨q, hq, rfl, hqid⟩ := Dict.get?_collect hid
    obtain rfl := List.inj_on_of_nodup_map hs.ids hq hp hqid
    exact ((hmem _).mp hh).2 hactive

/-! ## Embedding -/

/-- The points for some triggers are added, under new ids. -/
theorem foldl_addPoint {newId : List Str → Str} (hnew : ∀ ids, newId ids ∉ ids) :
    ∀ (ts : List Trigger) {points : List Point}, (points.map Point.id).Nodup →
      ∃ new, ts.foldl (addPoint newId) points = points ++ new ∧ new.map Point.trigger = ts.map Trigger.stored ∧
        ((points ++ new).map Point.id).Nodup
  | [], points, h => ⟨[], (List.append_nil points).symm, rfl, by rwa [List.append_nil]⟩
  | t :: ts, points, h => by
    have hids : ((addPoint newId points t).map Point.id).Nodup := by
      rw [addPoint, List.map_append, List.map_cons, List.map_nil]
      exact List.Nodup.append h (List.nodup_singleton _) (List.disjoint_singleton.mpr (hnew _))
    obtain ⟨new, hfold, htriggers, hnodup⟩ := foldl_addPoint hnew ts hids
    rw [addPoint, List.append_assoc, List.singleton_append] at hfold hnodup
    exact ⟨_ :: new, hfold, congrArg _ htriggers, hnodup⟩

/-- The hashes under which triggers are looked up are their own. -/
theorem hash_of_mem_activeHashes {active : List Procedure} {h : Str} {t : Trigger}
    (ht : (buildActiveProceduresHashes active).get? h = some t) : t ∈ triggers active ∧ t.hash = h := by
  obtain ⟨t, hmem, hhash, rfl⟩ := Dict.get?_collect ht
  exact ⟨hmem, hhash⟩

theorem map_hash_filterMap {active : List Procedure} : ∀ {hashes : List Str},
    (∀ h ∈ hashes, h ∈ buildActiveProceduresHashes active) →
      (hashes.filterMap (buildActiveProceduresHashes active).get?).map Trigger.hash = hashes
  | [], _ => rfl
  | h :: hashes, hmem => by
    obtain ⟨t, ht⟩ := Dict.mem_iff_get?.mp (hmem h (.head _))
    rw [List.filterMap_cons_some ht, List.map_cons, (hash_of_mem_activeHashes ht).2,
      map_hash_filterMap fun h' hh' => hmem h' (.tail _ hh')]

/-! ## One call -/

/-- A call keeps the points with active hashes and adds points for those active hashes that no point has. -/
theorem embedProcedures_eq {points : List Point} (hs : Synced points) (c : Call) :
    ∃ hashes new, embedProcedures points c =
        points.filter (·.hash ∈ buildActiveProceduresHashes c.procedures) ++ new ∧
      hashes.Nodup ∧ new.map Point.hash = hashes ∧
      (∀ h, h ∈ hashes ↔ h ∈ buildActiveProceduresHashes c.procedures ∧ ∀ p ∈ points, p.hash ≠ h) ∧
      (∀ p ∈ new, p.trigger ∈ (triggers c.procedures).map Trigger.stored) ∧
      ((embedProcedures points c).map Point.id).Nodup := by
  have hall : getAllPoints points = points := List.take_of_length_le hs.small
  let active := buildActiveProceduresHashes c.procedures
  let embedded := buildEmbeddedProceduresHashes points
  let hashes := c.order.order (active.keys.filter (· ∉ embedded))
  have hmem (h : Str) : h ∈ hashes ↔ h ∈ active ∧ ∀ p ∈ points, p.hash ≠ h := by
    rw [Shuffle.mem_order, List.mem_filter, decide_eq_true_eq, mem_embeddedHashes]
    simp only [not_exists, not_and, ne_eq]
    exact Iff.rfl
  have hkept : ((points.filter (·.hash ∈ active)).map Point.id).Nodup :=
    hs.ids.sublist (List.filter_sublist.map _)
  obtain ⟨new, hfold, htriggers, hids⟩ :=
    foldl_addPoint c.newId_fresh (hashes.filterMap active.get?) hkept
  have heq : embedProcedures points c = points.filter (·.hash ∈ active) ++ new := by
    rw [embedProcedures, hall, deletePoints_eq hs active fun h => ?_]
    · exact hfold
    · rw [Shuffle.mem_order, List.mem_filter, decide_eq_true_eq]
      exact Iff.rfl
  refine ⟨hashes, new, heq, Shuffle.nodup_order.mpr (active.nodup.filter _), ?_, hmem, fun p hp => ?_, heq ▸ hids⟩
  · have h := congrArg (List.map storedHash) htriggers
    rw [List.map_map, List.map_map] at h
    exact h.trans (map_hash_filterMap fun h hh => ((hmem h).mp hh).1)
  · have htrigger : p.trigger ∈ new.map Point.trigger := List.mem_map_of_mem hp
    rw [htriggers] at htrigger
    obtain ⟨t, ht, heq⟩ := List.mem_map.mp htrigger
    obtain ⟨h, -, ht⟩ := List.mem_filterMap.mp ht
    exact List.mem_map.mpr ⟨t, (hash_of_mem_activeHashes ht).1, heq⟩

/-- The hashes after a call are those of the active triggers, each once. -/
theorem embedProcedures_hashes {points : List Point} (hs : Synced points) (c : Call) :
    ((embedProcedures points c).map Point.hash).Nodup ∧
      ∀ h, h ∈ (embedProcedures points c).map Point.hash ↔ h ∈ buildActiveProceduresHashes c.procedures := by
  obtain ⟨hashes, new, heq, hnodup, hnew, hmem, -⟩ := embedProcedures_eq hs c
  rw [heq, List.map_append, hnew]
  have hkept (h : Str) : h ∈ (points.filter (·.hash ∈ buildActiveProceduresHashes c.procedures)).map Point.hash ↔
      h ∈ buildActiveProceduresHashes c.procedures ∧ ∃ p ∈ points, p.hash = h := by
    simp only [List.mem_map, List.mem_filter, decide_eq_true_eq]
    constructor
    · rintro ⟨p, ⟨hp, hactive⟩, rfl⟩
      exact ⟨hactive, p, hp, rfl⟩
    · rintro ⟨hactive, p, hp, rfl⟩
      exact ⟨p, ⟨hp, hactive⟩, rfl⟩
  constructor
  · refine List.Nodup.append (hs.hashes.sublist (List.filter_sublist.map _)) hnodup fun h hh hh' => ?_
    obtain ⟨-, p, hp, hhash⟩ := (hkept h).mp hh
    exact ((hmem h).mp hh').2 p hp hhash
  · intro h
    rw [List.mem_append, hkept, hmem, ← and_or_left]
    refine and_iff_left ?_
    by_cases hstored : ∃ p ∈ points, p.hash = h
    · exact .inl hstored
    · exact .inr fun p hp hhash => hstored ⟨p, hp, hhash⟩

theorem synced_nil : Synced [] := ⟨List.nodup_nil, List.nodup_nil, Nat.zero_le _⟩

theorem synced_embedProcedures {points : List Point} (hs : Synced points) (c : BoundedCall) :
    Synced (embedProcedures points c.toCall) := by
  obtain ⟨hnodup, hmem⟩ := embedProcedures_hashes hs c.toCall
  obtain ⟨_, _, _, _, _, _, _, hids⟩ := embedProcedures_eq hs c.toCall
  refine ⟨hnodup, hids, ?_⟩
  have hsub : (embedProcedures points c.toCall).map Point.hash ⊆ (triggers c.procedures).map Trigger.hash := by
    intro h hh
    obtain ⟨t, ht, hhash⟩ := mem_activeHashes.mp ((hmem h).mp hh)
    exact List.mem_map.mpr ⟨t, ht, hhash⟩
  have hle := (List.subperm_of_subset hnodup hsub).length_le
  rw [List.length_map, List.length_map] at hle
  exact hle.trans c.small

/-- A call for the procedures whose triggers' hashes are the stored ones finds nothing to do. -/
theorem embedProcedures_of_hashes {points : List Point} (hs : Synced points) (c : Call)
    (h : ∀ h, h ∈ points.map Point.hash ↔ h ∈ buildActiveProceduresHashes c.procedures) :
    embedProcedures points c = points := by
  obtain ⟨hashes, new, heq, -, hnew, hmem, -⟩ := embedProcedures_eq hs c
  have hnone : hashes = [] := by
    refine List.eq_nil_iff_forall_not_mem.mpr fun hash hh => ?_
    obtain ⟨hactive, hfresh⟩ := (hmem hash).mp hh
    obtain ⟨p, hp, hhash⟩ := List.mem_map.mp ((h hash).mpr hactive)
    exact hfresh p hp hhash
  rw [hnone, List.map_eq_nil_iff] at hnew
  rw [heq, hnew, List.append_nil]
  exact List.filter_eq_self.mpr fun p hp => decide_eq_true ((h _).mp (List.mem_map_of_mem hp))

/-- The triggers after a call are stored or active ones. -/
theorem trigger_of_mem {points : List Point} (hs : Synced points) {c : Call} {p : Point}
    (hp : p ∈ embedProcedures points c) :
    p.trigger ∈ points.map Point.trigger ++ (triggers c.procedures).map Trigger.stored := by
  obtain ⟨_, new, heq, -, -, -, hnew, -⟩ := embedProcedures_eq hs c
  rw [heq] at hp
  rcases List.mem_append.mp hp with hp | hp
  · exact List.mem_append_left _ (List.mem_map_of_mem (List.mem_of_mem_filter hp))
  · exact List.mem_append_right _ (hnew p hp)

/-- A stored trigger whose hash is active stays. -/
theorem mem_embedProcedures_of_active {points : List Point} (hs : Synced points) {c : Call} {p : Point}
    (hp : p ∈ points) (hactive : p.hash ∈ buildActiveProceduresHashes c.procedures) : p ∈ embedProcedures points c := by
  obtain ⟨_, new, heq, -⟩ := embedProcedures_eq hs c
  rw [heq]
  exact List.mem_append_left _ (List.mem_filter.mpr ⟨hp, decide_eq_true hactive⟩)

theorem stored_of_inactive {points : List Point} {procedures : List Procedure} {t : Str × Option Str × Str}
    (ht : t ∈ points.map Point.trigger ++ (triggers procedures).map Trigger.stored)
    (hactive : storedHash t ∉ buildActiveProceduresHashes procedures) : ∃ p ∈ points, p.trigger = t := by
  rcases List.mem_append.mp ht with ht | ht
  · exact List.mem_map.mp ht
  · obtain ⟨a, ha, rfl⟩ := List.mem_map.mp ht
    exact absurd (mem_activeHashes.mpr ⟨a, ha, rfl⟩) hactive

theorem clashFree_of_exact {points : List Point} (hs : Synced points) {c : Call}
    (h : Exact (embedProcedures points c) c.procedures) : ClashFree points c.procedures := by
  have hafter : ∀ t ∈ points.map Point.trigger ++ (triggers c.procedures).map Trigger.stored,
      storedHash t ∈ buildActiveProceduresHashes c.procedures → ∃ p ∈ embedProcedures points c, p.trigger = t := by
    intro t ht hactive
    rcases List.mem_append.mp ht with ht | ht
    · obtain ⟨p, hp, rfl⟩ := List.mem_map.mp ht
      exact ⟨p, mem_embedProcedures_of_active hs hp hactive, rfl⟩
    · exact List.mem_map.mp ((h.2 t).mpr ht)
  intro t ht t' ht' hhash
  by_cases hactive : storedHash t ∈ buildActiveProceduresHashes c.procedures
  · obtain ⟨p, hp, rfl⟩ := hafter t ht hactive
    obtain ⟨p', hp', rfl⟩ := hafter t' ht' (hhash ▸ hactive)
    rw [List.inj_on_of_nodup_map (embedProcedures_hashes hs c).1 hp hp' hhash]
  · -- neither is active, so both are stored
    obtain ⟨p, hp, rfl⟩ := stored_of_inactive ht hactive
    obtain ⟨p', hp', rfl⟩ := stored_of_inactive ht' (hhash ▸ hactive)
    rw [List.inj_on_of_nodup_map hs.hashes hp hp' hhash]

theorem exact_of_clashFree {points : List Point} (hs : Synced points) {c : Call}
    (h : ClashFree points c.procedures) : Exact (embedProcedures points c) c.procedures := by
  obtain ⟨hnodup, hmem⟩ := embedProcedures_hashes hs c
  have htriggers : ((embedProcedures points c).map Point.trigger).Nodup := by
    refine List.Nodup.of_map storedHash ?_
    rwa [List.map_map]
  refine ⟨htriggers, fun t => ⟨fun ht => ?_, fun ht => ?_⟩⟩
  · obtain ⟨p, hp, rfl⟩ := List.mem_map.mp ht
    obtain ⟨a, ha, hhash⟩ := mem_activeHashes.mp ((hmem _).mp (List.mem_map_of_mem hp))
    have hstored : a.stored ∈ (triggers c.procedures).map Trigger.stored := List.mem_map_of_mem ha
    rwa [← h _ (List.mem_append_right _ hstored) _ (trigger_of_mem hs hp) hhash]
  · obtain ⟨a, ha, rfl⟩ := List.mem_map.mp ht
    obtain ⟨p, hp, hhash⟩ := List.mem_map.mp ((hmem _).mpr (mem_activeHashes.mpr ⟨a, ha, rfl⟩))
    exact List.mem_map.mpr ⟨p, hp, h _ (trigger_of_mem hs hp) _ (List.mem_append_right _ ht) hhash⟩

theorem exact_embedProcedures {points : List Point} (hs : Synced points) (c : Call) :
    Exact (embedProcedures points c) c.procedures ↔ ClashFree points c.procedures :=
  ⟨clashFree_of_exact hs, exact_of_clashFree hs⟩

/-! ## Runs -/

def step (points : List Point) (c : BoundedCall) : List Point := embedProcedures points c.toCall

theorem synced_run (cs : List BoundedCall) : Synced (Machine.run step [] cs) :=
  Machine.run_invariant (I := Synced) (fun _ c h _ => synced_embedProcedures h c) synced_nil (Machine.along_true [] cs)

/-- After any calls, a further call leaves exactly the active triggers just where no two triggers, stored or active,
share a hash; and a second call for the same procedures changes nothing. -/
theorem embedProcedures_exact_iff (cs : List BoundedCall) (c : BoundedCall) :
    let points := Machine.run step [] cs
    (Exact (step points c) c.procedures ↔ ClashFree points c.procedures) ∧
      ∀ c' : BoundedCall, c'.procedures = c.procedures → step (step points c) c' = step points c := by
  intro points
  have hs : Synced points := synced_run cs
  refine ⟨exact_embedProcedures hs c.toCall, fun c' hc => ?_⟩
  refine embedProcedures_of_hashes (synced_embedProcedures hs c) c'.toCall ?_
  rw [hc]
  exact (embedProcedures_hashes hs c.toCall).2

/-- A new id made of all others. -/
def freshId (ids : List Str) : Str := 'a' :: ids.flatten

theorem freshId_fresh (ids : List Str) : freshId ids ∉ ids := fun h => by
  have hle := (List.sublist_flatten_of_mem h).length_le
  rw [freshId, List.length_cons] at hle
  omega

/-- The tool named `name` with one example. -/
def toolWithExample (name exampleText : String) : Procedure where
  name := name.toList
  procedureType := "tool".toList
  triggersMap := (Dict.empty.set "description".toList [name.toList ++ ": Answers.".toList]).set
    "start_example".toList [exampleText.toList]

def dottedTools : BoundedCall where
  procedures := [toolWithExample "x" "y.start_example.z", toolWithExample "x.start_example.y" "z"]
  order := .id
  newId := freshId
  newId_fresh := freshId_fresh
  small := by decide +kernel

/-- The example of one of two tools is not embedded: the other's has its hash, `x.start_example.y.start_example.z`. -/
theorem dottedTools_not_exact : ¬Exact (step [] dottedTools) dottedTools.procedures := by
  rintro ⟨-, hexact⟩
  have hactive : ("x".toList, some "start_example".toList, "y.start_example.z".toList) ∈
      (triggers dottedTools.procedures).map Trigger.stored := by decide +kernel
  have hpoint : ("x".toList, some "start_example".toList, "y.start_example.z".toList) ∉
      (step [] dottedTools).map Point.trigger := by decide +kernel
  exact hpoint ((hexact _).mpr hactive)

end KCore.CheshireCat
