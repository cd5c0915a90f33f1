import KCore.Impl.VectorMemory

/-!
# What a metadata filter deletes

The conditions of a filter are its leaves, with their paths as keys
(`buildCondition_eq`), so a point is selected where its metadata has these leaves
(`selects_iff`). A key whose value has no leaf says nothing about the point: see
`delete_only_matching_iff`.
-/

namespace KCore.VectorMemory

open Text Json

variable {N : Type*}

/-- A metadata filter: an object that is not empty. -/
structure MetadataFilter (N : Type*) where
  entries : List (Str × Json N)
  ne : entries ≠ []
  wf : (Json.obj entries).WF

/-- The metadata has a value under each key of the filter, with the leaves of the filter's value. -/
def Meets [DecidableEq N] (metadata : Json N) (filter : List (Str × Json N)) : Prop :=
  ∀ e ∈ filter, ∃ w, metadata.field e.1 = some w ∧ Covers w e.2

/-- The keys over the leaves have no characters of the syntax of paths. -/
def PathFree (filter : List (Str × Json N)) : Prop :=
  ∀ l ∈ (Json.obj filter).leaves, ∀ k, .key k ∈ l.1 → noSyntax k = true

/-- A leaf is `null` or no integer, or it stands under a key that is no name. -/
def Refused (q : Qdrant N) (filter : List (Str × Json N)) : Prop :=
  ∃ l ∈ (Json.obj filter).leaves, q.acceptsValue l.2 = false ∨ ∃ k, .key k ∈ l.1 ∧ q.isName k = false

/-! ## Conditions -/

def renderStep : Step → Str
  | .key k => '.' :: k
  | .items => "[]".toList

/-- The path as `_build_condition` writes it. -/
def render (path : List Step) : Str := path.flatMap renderStep

@[simp] theorem render_nil : render [] = [] := rfl

@[simp] theorem render_cons (s : Step) (path : List Step) : render (s :: path) = renderStep s ++ render path := rfl

def conditionAt (key : Str) (l : List Step × Json N) : FieldCondition N :=
  ⟨"metadata.".toList ++ (key ++ render l.1), l.2⟩

theorem conditionAt_nil (key : Str) (c : Json N) : conditionAt key ([], c) = ⟨"metadata.".toList ++ key, c⟩ := by
  have h : key ++ render [] = key := List.append_nil key
  exact congrArg (fun k => FieldCondition.mk ("metadata.".toList ++ k) c) h

theorem conditionAt_cons (key : Str) (s : Step) (path : List Step) (c : Json N) :
    conditionAt key (s :: path, c) = conditionAt (key ++ renderStep s) (path, c) := by
  have h : key ++ render (s :: path) = key ++ renderStep s ++ render path := by rw [render_cons, List.append_assoc]
  exact congrArg (fun k => FieldCondition.mk ("metadata.".toList ++ k) c) h

theorem map_conditionAt (key : Str) (s : Step) (ls : List (List Step × Json N)) :
    (ls.map fun l => (s :: l.1, l.2)).map (conditionAt key) = ls.map (conditionAt (key ++ renderStep s)) := by
  rw [List.map_map]
  exact List.map_congr_left fun l _ => conditionAt_cons key s l.1 l.2

mutual

/-- The conditions built for a value are its leaves, in order. -/
theorem buildCondition_eq (key : Str) : ∀ v : Json N, buildCondition key v = v.leaves.map (conditionAt key)
  | .null => by rw [buildCondition, leaves, List.map_cons, List.map_nil, conditionAt_nil]
  | .bool b => by rw [buildCondition, leaves, List.map_cons, List.map_nil, conditionAt_nil]
  | .num n => by rw [buildCondition, leaves, List.map_cons, List.map_nil, conditionAt_nil]
  | .str s => by rw [buildCondition, leaves, List.map_cons, List.map_nil, conditionAt_nil]
  | .arr vs => buildItems_eq key vs
  | .obj es => buildEntries_eq key es

theorem buildEntries_eq (key : Str) : ∀ es : List (Str × Json N),
    buildEntries key es = (leavesEntries es).map (conditionAt key)
  | [] => rfl
  | (k, v) :: es => by
    rw [buildEntries, buildCondition_eq, buildEntries_eq key es, leavesEntries, List.map_append, map_conditionAt]
    rfl

theorem buildItems_eq (key : Str) : ∀ vs : List (Json N), buildItems key vs = (leavesItems vs).map (conditionAt key)
  | [] => rfl
  | v :: vs => by
    rw [buildItems, buildCondition_eq, buildItems_eq key vs, leavesItems, List.map_append]
    cases v.isObj with
    | false => simp only [Bool.false_eq_true, ite_false, List.map_id']
    | true => simp only [ite_true, map_conditionAt, renderStep]

end

/-- The conditions on the leaves of a filter. -/
def mustOf (filter : List (Str × Json N)) : List (FieldCondition N) :=
  (Json.obj filter).leaves.map fun l => ⟨"metadata".toList ++ render l.1, l.2⟩

theorem qdrantFilterFromDict_eq (f : MetadataFilter N) : qdrantFilterFromDict f.entries = some (mustOf f.entries) := by
  have hkey : ∀ es : List (Str × Json N), (es.flatMap fun e => buildCondition e.1 e.2) = mustOf es := by
    intro es
    rw [mustOf, leaves]
    induction es with
    | nil => rfl
    | cons e es ih =>
      rw [List.flatMap_cons, ih, leavesEntries, List.map_append, List.map_map, buildCondition_eq]
      rfl
  rw [qdrantFilterFromDict, hkey, if_neg (by simpa using f.ne)]

/-! ## What the database finds at them -/

theorem readable_render (q : Qdrant N) : ∀ (path : List Step) (key : Str), (∀ k, .key k ∈ path → noSyntax k = true) →
    (q.readable (key ++ render path) = true ↔ q.readable key = true ∧ ∀ k, .key k ∈ path → q.isName k = true)
  | [], key, _ => by simp
  | .key k :: path, key, h => by
    have hk := q.readable_key key k (h k (.head _))
    have ih := readable_render q path (key ++ '.' :: k) fun k' hk' => h k' (.tail _ hk')
    rw [render_cons, ← List.append_assoc]
    rw [renderStep, ih, hk, Bool.and_eq_true]
    simp [and_assoc]
  | .items :: path, key, h => by
    have ih := readable_render q path (key ++ "[]".toList) fun k' hk' => h k' (.tail _ hk')
    rw [render_cons, ← List.append_assoc]
    rw [renderStep, ih, q.readable_items]
    simp

theorem valuesAt_render (q : Qdrant N) (v : Json N) : ∀ (path : List Step) (key : Str),
    (∀ k, .key k ∈ path → noSyntax k = true) →
      q.valuesAt (key ++ render path) v = (q.valuesAt key v).flatMap (reach path)
  | [], key, _ => by simp [reach]
  | .key k :: path, key, h => by
    rw [render_cons, ← List.append_assoc, renderStep]
    rw [valuesAt_render q v path _ fun k' hk' => h k' (.tail _ hk'), q.valuesAt_key key k v (h k (.head _)),
      List.flatMap_assoc]
    rfl
  | .items :: path, key, h => by
    rw [render_cons, ← List.append_assoc, renderStep]
    rw [valuesAt_render q v path _ fun k' hk' => h k' (.tail _ hk'), q.valuesAt_items, List.flatMap_assoc]
    rfl

theorem valuesAt_payload (q : Qdrant N) (p : Point N) : q.valuesAt "metadata".toList p.payload = [p.metadata] := by
  rw [q.valuesAt_metadata]
  rfl

/-- The conditions are taken unless a leaf is refused. -/
theorem takes_iff {q : Qdrant N} {f : MetadataFilter N} (hf : PathFree f.entries) :
    (mustOf f.entries).all q.takes = true ↔ ¬Refused q f.entries := by
  simp only [mustOf, List.all_map, List.all_eq_true, Function.comp, Qdrant.takes, Bool.and_eq_true, Refused, not_exists,
    not_and, not_or, Bool.not_eq_false]
  refine forall₂_congr fun l hl => and_congr_right fun _ => ?_
  rw [readable_render q l.1 _ (hf l hl)]
  exact and_iff_right q.readable_metadata

variable [DecidableEq N]

theorem met_iff {q : Qdrant N} {f : MetadataFilter N} (hf : PathFree f.entries) (p : Point N) :
    (mustOf f.entries).all (q.met p) = true ↔ Covers p.metadata (.obj f.entries) := by
  simp only [mustOf, List.all_map, List.all_eq_true, Function.comp, Qdrant.met, Covers]
  refine forall₂_congr fun l hl => ?_
  rw [valuesAt_render q _ l.1 _ (hf l hl), valuesAt_payload, List.flatMap_singleton, List.any_eq_true]

/-- A call deletes what has all leaves of the filter, or raises where one is refused. -/
theorem delete_eq {q : Qdrant N} {f : MetadataFilter N} (hf : PathFree f.entries) {points points' : List (Point N)} :
    deletePointsByMetadataFilter q points f.entries = some points' ↔
      ¬Refused q f.entries ∧ points' = points.filter fun p => !(mustOf f.entries).all (q.met p) := by
  rw [deletePointsByMetadataFilter, qdrantFilterFromDict_eq, Option.bind_eq_bind, Option.bind_some, ← takes_iff hf]
  split
  · rename_i h
    exact ⟨fun he => ⟨h, (Option.some.inj he).symm⟩, fun he => congrArg some he.2.symm⟩
  · rename_i h
    exact ⟨nofun, fun he => absurd he.1 h⟩

/-! ## Keys without leaves -/

/-- Where every value of the filter has a leaf, what has all leaves has all keys. -/
theorem meets_of_covers {v : Json N} {filter : List (Str × Json N)} (hleaf : ∀ e ∈ filter, e.2.leaves ≠ [])
    (h : Covers v (.obj filter)) : Meets v filter := by
  intro e he
  have hreach : ∀ l ∈ e.2.leaves, ∃ w, v.field e.1 = some w ∧ ∃ x ∈ reach l.1 w, x.holds l.2 = true := by
    intro l hl
    obtain ⟨x, hx, hc⟩ := h _ (mem_leavesEntries.mpr ⟨e, he, l, hl, rfl⟩)
    obtain ⟨w, hw, hx⟩ := List.mem_flatMap.mp hx
    exact ⟨w, Option.mem_toList.mp hw, x, hx, hc⟩
  obtain ⟨l, hl⟩ := List.exists_mem_of_ne_nil _ (hleaf e he)
  obtain ⟨w, hw, -⟩ := hreach l hl
  refine ⟨w, hw, fun l hl => ?_⟩
  obtain ⟨w', hw', hx⟩ := hreach l hl
  rw [hw] at hw'
  exact Option.some.inj hw' ▸ hx

/-- Metadata that lacks one key, whose value has no leaf, and has all leaves of the filter. -/
theorem exists_covers_not_meets (f : MetadataFilter N) {e : Str × Json N} (he : e ∈ f.entries)
    (hleaf : e.2.leaves = []) : ∃ v, Covers v (.obj f.entries) ∧ ¬Meets v f.entries := by
  have hn : (f.entries.map Prod.fst).Nodup := f.wf.1
  let others := f.entries.filter fun e' => e'.1 ≠ e.1
  have hothers : (others.map Prod.fst).Nodup := hn.sublist (List.filter_sublist.map _)
  refine ⟨fill (.obj others), covers_obj fun e' he' hleaf' => ?_, fun hmeets => ?_⟩
  · have hne : e'.1 ≠ e.1 := fun hkey => hleaf' (List.inj_on_of_nodup_map hn he' he hkey ▸ hleaf)
    have hmem : e' ∈ others := List.mem_filter.mpr ⟨he', decide_eq_true hne⟩
    exact ⟨_, field_fill hothers hmem, covers_fill _ (wfEntries_iff.mp f.wf.2 e' he')⟩
  · obtain ⟨w, hw, -⟩ := hmeets e he
    have hkey := List.mem_map_of_mem (f := Prod.fst) ((Dict.find_eq_some (by rwa [fillEntries_keys])).mp hw)
    rw [fillEntries_keys] at hkey
    obtain ⟨e', he', hkey⟩ := List.mem_map.mp hkey
    exact of_decide_eq_true (List.mem_filter.mp he').2 hkey

/-- Each key of a filter gives a condition just where each value has a leaf. Where no key has syntax of paths, this,
or that the call raises, is when points without what the filter asks for are safe. -/
theorem delete_only_matching_iff (q : Qdrant N) (f : MetadataFilter N) :
    ((∀ e ∈ f.entries, buildCondition e.1 e.2 ≠ []) ↔ ∀ e ∈ f.entries, e.2.leaves ≠ []) ∧
    (PathFree f.entries →
      ((∀ points points', deletePointsByMetadataFilter q points f.entries = some points' →
          ∀ p ∈ points, p ∉ points' → Meets p.metadata f.entries) ↔
        (∀ e ∈ f.entries, e.2.leaves ≠ []) ∨ Refused q f.entries)) := by
  refine ⟨forall₂_congr fun e _ => ?_, fun hf => ⟨fun h => ?_, fun h points points' hdelete p hp hp' => ?_⟩⟩
  · rw [buildCondition_eq, ne_eq, List.map_eq_nil_iff]
  · by_contra hneither
    obtain ⟨hleaf, hrefused⟩ := not_or.mp hneither
    push Not at hleaf
    obtain ⟨e, he, hleaf⟩ := hleaf
    obtain ⟨v, hcovers, hmeets⟩ := exists_covers_not_meets f he hleaf
    have hall := (met_iff (q := q) hf ⟨[], [], v⟩).mpr hcovers
    refine hmeets (h [⟨[], [], v⟩] [] ((delete_eq hf).mpr ⟨hrefused, ?_⟩) ⟨[], [], v⟩ (.head _) nofun)
    rw [List.filter_singleton, hall]
    rfl
  · obtain ⟨htaken, rfl⟩ := (delete_eq hf).mp hdelete
    rcases h with hleaf | hrefused
    · refine meets_of_covers hleaf ((met_iff (q := q) hf p).mp ?_)
      by_contra hall
      rw [Bool.not_eq_true] at hall
      exact hp' (List.mem_filter.mpr ⟨hp, by rw [hall]; rfl⟩)
    · exact absurd hrefused htaken

/-! ## A database -/

/-- The reading of a path: the values so far, the name begun, if one is, and whether all is well so far. -/
structure Reader where
  values : List (Json Int)
  name : Option Str
  ok : Bool

/-- Letters, digits, `_` and `-`, one at least. -/
def isName (k : Str) : Bool := k ≠ [] && k.all fun c => c.isAlphanum || c = '_' || c = '-'

def Reader.found (r : Reader) : List (Json Int) :=
  match r.name with
  | none => r.values
  | some k => r.values.flatMap (Step.key k).reach

def Reader.fine (r : Reader) : Bool := r.ok && r.name.all isName

def Reader.read (r : Reader) (c : Char) : Reader :=
  if c = '.' then ⟨r.found, some [], r.fine⟩
  else if c = '[' then ⟨r.found.flatMap Step.items.reach, none, r.fine⟩
  else if c = ']' then ⟨r.values, r.name, r.ok && r.name.isNone⟩
  else ⟨r.values, some (r.name.getD [] ++ [c]), r.ok && r.name.isSome⟩

def Reader.readAll (v : Json Int) (path : Str) : Reader := path.foldl Reader.read ⟨[v], some [], true⟩

theorem Reader.read_noSyntax : ∀ {k : Str} {r : Reader} {a : Str}, noSyntax k = true → r.name = some a →
    k.foldl Reader.read r = ⟨r.values, some (a ++ k), r.ok⟩
  | [], r, a, _, h => by simp [← h]
  | c :: k, r, a, hk, h => by
    rw [noSyntax, List.all_cons, Bool.and_eq_true, decide_eq_true_eq] at hk
    have hc : c ≠ '.' ∧ c ≠ '[' ∧ c ≠ ']' := by
      refine ⟨?_, ?_, ?_⟩ <;> rintro rfl <;> exact hk.1 (by decide)
    have hread : r.read c = ⟨r.values, some (a ++ [c]), r.ok⟩ := by
      simp [Reader.read, hc, h]
    rw [List.foldl_cons, hread, Reader.read_noSyntax hk.2 rfl]
    simp

theorem Reader.readAll_key (v : Json Int) (path k : Str) (hk : noSyntax k = true) :
    readAll v (path ++ '.' :: k) = ⟨(readAll v path).found, some k, (readAll v path).fine⟩ := by
  rw [readAll, List.foldl_append, List.foldl_cons, Reader.read_noSyntax hk (a := []) rfl]
  rfl

theorem Reader.readAll_items (v : Json Int) (path : Str) :
    readAll v (path ++ "[]".toList) =
      ⟨(readAll v path).found.flatMap Step.items.reach, none, (readAll v path).fine⟩ := by
  rw [readAll, List.foldl_append]
  show Reader.mk _ _ (_ && true) = _
  rw [Bool.and_true]
  rfl

/-- A database that reads paths one character after the other. -/
def pathQdrant : Qdrant Int where
  accepts _ := true
  isName := isName
  readable path := (Reader.readAll .null path).fine
  valuesAt path v := (Reader.readAll v path).found
  readable_metadata := by decide
  readable_key path k hk := by rw [Reader.readAll_key _ _ _ hk]; rfl
  readable_items path := by rw [Reader.readAll_items]; exact Bool.and_true _
  valuesAt_metadata v := by rw [Reader.readAll, Reader.read_noSyntax (a := []) (by decide) rfl]; simp [Reader.found]
  valuesAt_key path k v hk := by rw [Reader.readAll_key _ _ _ hk]; rfl
  valuesAt_items path v := by rw [Reader.readAll_items]; rfl

/-- The filter of an empty object selects a point without the key, as it selects every point. -/
theorem delete_by_empty_object :
    deletePointsByMetadataFilter pathQdrant [⟨"1".toList, "a note".toList, .obj []⟩]
      [("source".toList, .obj [])] = some [] ∧ ¬Meets (.obj [] : Json Int) [("source".toList, .obj [])] := by
  refine ⟨rfl, fun h => ?_⟩
  obtain ⟨w, hw, -⟩ := h _ (.head _)
  cases hw

end KCore.VectorMemory
