import KCore.Impl.MadHatter.Hooks
import KCore.Impl.MadHatter.Routes
import KCore.Lib.StableSort
import KCore.Proof.MadHatter.Endpoints
import Mathlib.Data.Set.Basic
import Mathlib.Order.OrderDual

/-!
# What `execute_hook` returns

The left fold of the active plugins' hooks, in the order of their priorities
(`execute_hook_ok`): `stir` is one step of it, on the heap and the state of the tea cup.
That takes hooks which change no argument of the caller and no object that another hook
returned, but where it is given to them (`Tame`).
-/

namespace KCore.MadHatter

open Text Machine

/-! ## The order of the hooks -/

/-- The active plugins' hooks of a name: a higher priority first, and those of one priority in the order of
the plugins, and of each plugin's list. -/
structure InOrder (s : State) (hookName : Str) (hooks : List Hook) : Prop where
  sorted : hooks.Pairwise fun h h' => h'.priority ≤ h.priority
  stable : ∀ k, hooks.filter (fun h => h.priority = k) =
    (s.activeOnes.flatMap Plugin.hooks).filter fun h => h.name = hookName ∧ h.priority = k

/-- The merged hooks are those of the active plugins. -/
structure Synced (s : State) : Prop where
  ids : ∀ id p, s.plugins.get? id = some p → p.id = id
  hooks : ∀ name, (s.hooks.get? name).getD [] =
    sortHooks ((s.activeOnes.flatMap Plugin.hooks).filter fun h => h.name = name)

theorem sortHooks_eq (hooks : List Hook) : sortHooks hooks = stableSort (fun h => OrderDual.toDual h.priority) hooks := rfl

theorem Synced.inOrder {s : State} (h : Synced s) {hookName : Str} {hooks : List Hook}
    (hh : s.hooks.get? hookName = some hooks) : InOrder s hookName hooks := by
  have hmerged := h.hooks hookName
  rw [hh, Option.getD_some, sortHooks_eq] at hmerged
  rw [hmerged]
  have hsorted := pairwise_le_stableSort (f := fun h : Hook => OrderDual.toDual h.priority)
    (l := (s.activeOnes.flatMap Plugin.hooks).filter fun h => h.name = hookName)
  refine ⟨hsorted.imp fun hle => OrderDual.toDual_le_toDual.mp hle, fun k => ?_⟩
  have hfilter := filter_stableSort (f := fun h : Hook => OrderDual.toDual h.priority)
    (l := (s.activeOnes.flatMap Plugin.hooks).filter fun h => h.name = hookName) (OrderDual.toDual k)
  simp only [OrderDual.toDual_inj] at hfilter
  rw [hfilter, List.filter_filter]
  simp only [Bool.decide_and, Bool.and_comm]

theorem Synced.mem_active {s : State} (h : Synced s) {hookName : Str} {hooks : List Hook}
    (hh : s.hooks.get? hookName = some hooks) {hook : Hook} (hmem : hook ∈ hooks) :
    ∃ id p, s.plugins.get? id = some p ∧ hook ∈ p.hooks := by
  have hmerged := h.hooks hookName
  rw [hh, Option.getD_some] at hmerged
  rw [hmerged, sortHooks, List.mem_mergeSort, List.mem_filter, List.mem_flatMap] at hmem
  obtain ⟨⟨p, hp, hin⟩, -⟩ := hmem
  obtain ⟨id, hid⟩ := Dict.mem_values.mp (List.mem_filter.mp hp).1
  exact ⟨id, p, hid, hin⟩

section

variable [FastApi] {s : State}

/-! ## Requests -/

omit [FastApi] in
/-- No deactivation in the request ends in the midst of the plugin's endpoints. -/
def Unbroken (s : State) : Request → Prop
  | .upload id extracted isPlugin _ d => extracted = true → isPlugin = false → Releases s id d
  | .toggle id _ d => Releases s id d
  | .delete id d _ => id ≠ corePlugin → Releases s id d
  | .settings _ => True

instance : ∀ (s : State) (r : Request), Decidable (Unbroken s r)
  | s, .upload id extracted isPlugin _ d =>
    inferInstanceAs (Decidable (extracted = true → isPlugin = false → Releases s id d))
  | s, .toggle id _ d => inferInstanceAs (Decidable (Releases s id d))
  | s, .delete id d _ => inferInstanceAs (Decidable (id ≠ corePlugin → Releases s id d))
  | _, .settings _ => .isTrue trivial

theorem sync_synced (hids : ∀ id p, s.plugins.get? id = some p → p.id = id) : Synced (syncHooksToolsAndForms s).1 := by
  refine ⟨?_, (sync_merged s).hooks⟩
  rw [sync_plugins]
  exact hids

omit [FastApi] in
/-- A plugin that is not listed may be any. -/
theorem Synced.set_unlisted (h : Synced s) {id : Str} (hid : id ∉ s.activePlugins) {q : Plugin} (hq : q.id = id) :
    Synced { s with plugins := s.plugins.set id q } := by
  have hones : State.activeOnes { s with plugins := s.plugins.set id q } = s.activeOnes := by
    refine Dict.filter_values_set (decide_eq_false (hq ▸ hid)) fun w hw => decide_eq_false ?_
    rwa [h.ids _ w hw]
  refine ⟨ids_set h.ids hq, fun name => ?_⟩
  rw [hones]
  exact h.hooks name

theorem Synced.toggle (h : Synced s) {id : Str} (a : Attempt) {d : Bool} (hd : Releases s id d) :
    Synced (togglePlugin s id a d).1 := by
  have hu := updateActivePlugins_spec s id a d
  generalize hres : updateActivePlugins s id a d = r at hu
  cases hu with
  | absent | refused =>
    rw [toggle_of_not_updated hres]
    exact h
  | broken hp hact hno he =>
    rcases hd hact _ hp with hyes | hreturns
    · exact absurd hyes (by rw [hno]; exact Bool.false_ne_true)
    · exact absurd hreturns (by rw [he]; exact Bool.false_ne_true)
  | @deactivated p _ hp =>
    rw [toggle_of_updated hres]
    exact sync_synced (ids_set h.ids (show p.off.id = id from h.ids id p hp))
  | @raised p hp hact =>
    rw [toggle_of_not_updated hres]
    exact h.set_unlisted hact ((activate_id p a).trans (h.ids id p hp))
  | @activated p hp =>
    rw [toggle_of_updated hres]
    exact sync_synced (ids_set h.ids ((activate_id p a).trans (h.ids id p hp)))

theorem Synced.install (h : Synced s) {id : Str} {extracted isPlugin : Bool} (a : Attempt) {d : Bool}
    (hd : extracted = true → isPlugin = false → Releases s id d) :
    Synced (installPlugin s id extracted isPlugin a d).1 := by
  rw [installPlugin]
  cases extracted with
  | false => exact h
  | true =>
    cases isPlugin with
    | false => exact h.toggle a (hd rfl rfl)
    | true =>
      by_cases hact : id ∈ s.activePlugins
      · rw [if_pos rfl, toggle_of_updated (updated_loaded_active hact)]
        refine sync_synced fun id' p hp => ?_
        simp only [saveActivePluginsToDb, Dict.set_set] at hp
        exact ids_set h.ids (q := .new id) rfl id' p hp
      · exact (h.set_unlisted hact (q := .new id) rfl).toggle a fun hin => absurd hin hact

/-- After a deactivation the plugin has no hooks. -/
theorem toggle_unhooked {id : Str} {a : Attempt} {d : Bool} (hact : id ∈ s.activePlugins)
    (hr : (togglePlugin s id a d).2 = true) {p : Plugin} (hp : (togglePlugin s id a d).1.plugins.get? id = some p) :
    p.hooks = [] := by
  have hu := updateActivePlugins_spec s id a d
  generalize hres : updateActivePlugins s id a d = r at hu
  cases hu with
  | absent | refused | broken => rw [toggle_of_not_updated hres] at hr; cases hr
  | raised _ hn | activated _ hn => exact absurd hact hn
  | deactivated =>
    rw [toggle_of_updated hres] at hp
    simp only [sync_plugins, saveActivePluginsToDb, Dict.get?_set_self] at hp
    rw [← Option.some.inj hp]
    rfl

omit [FastApi] in
/-- Plugins without hooks may be left out. -/
theorem flatMap_hooks (s : State) : s.activeOnes.flatMap Plugin.hooks =
    (s.plugins.values.filter fun p => p.id ∈ s.activePlugins ∧ p.hooks ≠ []).flatMap Plugin.hooks := by
  rw [State.activeOnes]
  induction s.plugins.values with
  | nil => rfl
  | cons p ps ih =>
    by_cases hid : p.id ∈ s.activePlugins
    · by_cases hhooks : p.hooks = []
      · simp [hid, hhooks, ih]
      · simp [hid, hhooks, ih]
    · simp [hid, ih]

omit [FastApi] in
theorem Synced.erase (h : Synced s) {id : Str}
    (hid : ∀ p, s.plugins.get? id = some p → p.id ∈ s.activePlugins → p.hooks = []) :
    Synced { s with plugins := s.plugins.erase id } := by
  refine ⟨fun id' p hp => ?_, fun name => ?_⟩
  · rw [Dict.get?_erase] at hp
    split at hp
    · cases hp
    · exact h.ids id' p hp
  · rw [h.hooks name, flatMap_hooks, flatMap_hooks]
    simp only
    rw [Dict.filter_values_erase fun w hw => decide_eq_false fun ⟨hlisted, hhooks⟩ => hhooks (hid w hw hlisted)]

theorem Synced.uninstall (h : Synced s) {id : Str} {d : Bool} (a : Attempt) (hd : id ≠ corePlugin → Releases s id d) :
    Synced (uninstallPlugin s id d a).1 := by
  rw [uninstallPlugin]
  split
  · rename_i hid
    by_cases hact : id ∈ s.activePlugins
    · have htoggle := h.toggle a (hd hid.2)
      simp only [if_pos hact]
      cases hr : (togglePlugin s id a d).2 with
      | true => exact htoggle.erase fun p hp _ => toggle_unhooked hact hr hp
      | false => exact htoggle
    · simp only [if_neg hact]
      exact h.erase fun p hp hlisted => absurd (h.ids id p hp ▸ hlisted) hact
  · exact h

theorem handle_synced (s : State) (r : Request) (h : Synced s) (hr : Unbroken s r) : Synced (handle s r) := by
  cases r with
  | upload id extracted isPlugin a d => exact h.install a hr
  | toggle id a d =>
    rw [handle]
    split
    · exact h.toggle a hr
    · exact h
  | delete id d a =>
    rw [handle]
    split
    · exact h.uninstall a hr
    · exact h
  | settings id => exact h

theorem bootstrap_synced {routes : List Route} {db : Option (List Str)} {folders : List Folder}
    (hs : bootstrap routes db folders = some s) : Synced s := by
  refine ⟨fun id p hp => ((bootstrap_wired hs).labels id p hp).1, ?_⟩
  have hfind := @find_app (.blank routes db) _ folders rfl
  rw [bootstrap] at hs
  rcases hfound : findPlugins (.blank routes db) folders with ⟨s', _ | _⟩
  · rw [hfound] at hs
    cases hs
  · rw [hfound] at hs hfind
    obtain ⟨-, hmerged, -⟩ := hfind rfl
    have hattached : Merged (attachCallback s').1 := ⟨hmerged.tools, hmerged.forms, hmerged.endpoints, hmerged.hooks⟩
    dsimp only at hs
    rcases hattach : attachCallback s' with ⟨s'', _ | _⟩
    · rw [hattach] at hs
      cases hs
    · rw [hattach] at hs hattached
      obtain rfl := Option.some.inj hs
      exact hattached.hooks

/-- A start-up and requests keep the merged hooks those of the active plugins. -/
theorem run_synced {routes : List Route} {db : Option (List Str)} {folders : List Folder} {rs : List Request}
    (hs : bootstrap routes db folders = some s) (hrs : Along handle Unbroken s rs) : Synced (run handle s rs) :=
  run_invariant handle_synced (bootstrap_synced hs) hrs

end

/-! ## One hook -/

section

variable {V : Type*}

/-- Copies of objects, given with their states: one of an object that is there twice. -/
def copyTuple (h : Heap V) (memo : List (Ref × Ref)) : List (Ref × V) → Heap V × List Ref
  | [] => (h, [])
  | (r, v) :: others =>
    match memo.lookup r with
    | some copy =>
      let (h, copies) := copyTuple h memo others
      (h, copy :: copies)
    | none =>
      let (h', copies) := copyTuple (h ++ [v]) ((r, h.length) :: memo) others
      (h', h.length :: copies)

/-- What a hook is given: a new object in the state of the tea cup, and copies of the caller's other arguments. -/
def tray (h : Heap V) (v : V) (others : List (Ref × V)) : Heap V × List Ref :=
  let (h', copies) := copyTuple (h ++ [v]) [] others
  (h', h.length :: copies)

/-- One step of the fold: the state of what the hook returns, or the one before it. -/
def stir (code : Code V) (others : List (Ref × V)) (s : Heap V × V) (hook : Hook) : Heap V × V :=
  let (h, given) := tray s.1 s.2 others
  match code hook.function h given with
  | (h, .returned (some r)) => (h, (h[r]?).getD s.2)
  | (h, _) => (h, s.2)

/-- The objects with their states. -/
def states (h : Heap V) (refs : List Ref) : List (Ref × V) := refs.filterMap fun r => (h[r]?).map fun v => (r, v)

/-- What the hooks reach of a heap in another way than as an argument: nothing that is not there, and no new copy. -/
structure Reach (V : Type*) where
  refs : Heap V → Set Ref
  live : ∀ h, ∀ r ∈ refs h, r < h.length
  copied : ∀ h v, refs (h ++ [v]) ⊆ refs h

/-- An object in this state, which the hooks do not reach. -/
structure Apart (K : Reach V) (h : Heap V) (r : Ref) (v : V) : Prop where
  state : h[r]? = some v
  unreached : r ∉ K.refs h

/-- A hook changes only what it is given, what the hooks reach, and new objects; it returns an object that can be
copied and that the hooks do not reach, or None, or raises an `Exception`. -/
structure Tame [Deepcopy V] (K : Reach V) (hook : Heap V → List Ref → Heap V × Outcome) : Prop where
  keeps : ∀ h given, (∀ r ∈ given, ∃ v, Apart K h r v) → ∀ r v, r ∉ given → Apart K h r v → Apart K (hook h given).1 r v
  returns : ∀ h given, (∀ r ∈ given, ∃ v, Apart K h r v) → ∀ r, (hook h given).2 = .returned (some r) →
    ∃ v, Apart K (hook h given).1 r v ∧ Deepcopy.copyable v = true
  exits : ∀ h given, (∀ r ∈ given, ∃ v, Apart K h r v) → (hook h given).2 ≠ .exits

variable {K : Reach V} {h : Heap V}

theorem Apart.push {r : Ref} {v : V} (ha : Apart K h r v) (w : V) : Apart K (h ++ [w]) r v := by
  obtain ⟨hlt, -⟩ := List.getElem?_eq_some_iff.mp ha.state
  refine ⟨?_, fun hr => ha.unreached (K.copied h w hr)⟩
  rw [List.getElem?_append_left hlt]
  exact ha.state

theorem apart_new (v : V) : Apart K (h ++ [v]) h.length v :=
  ⟨List.getElem?_concat_length, fun hr => absurd (K.live h _ (K.copied h v hr)) (lt_irrefl _)⟩

theorem copyTuple_keeps : ∀ {others : List (Ref × V)} {h : Heap V} {memo : List (Ref × Ref)} {r : Ref} {v : V},
    Apart K h r v → Apart K (copyTuple h memo others).1 r v
  | [], _, _, _, _, ha => ha
  | (o, w) :: others, h, memo, r, v, ha => by
    rw [copyTuple]
    cases memo.lookup o with
    | some copy => exact copyTuple_keeps ha
    | none => exact copyTuple_keeps (ha.push w)

theorem lookup_mem {memo : List (Ref × Ref)} {r copy : Ref} (h : memo.lookup r = some copy) :
    copy ∈ memo.map Prod.snd := by
  induction memo with
  | nil => cases h
  | cons e memo ih =>
    rw [List.lookup_cons] at h
    cases hb : r == e.1 with
    | true =>
      simp only [hb] at h
      exact Option.some.inj h ▸ .head _
    | false =>
      simp only [hb] at h
      exact .tail _ (ih h)

/-- The copies are new objects, which the hooks do not reach. -/
theorem copyTuple_copies {base : Nat} : ∀ {others : List (Ref × V)} {h : Heap V} {memo : List (Ref × Ref)},
    base ≤ h.length → (∀ c ∈ memo.map Prod.snd, base ≤ c ∧ ∃ v, Apart K h c v) →
    ∀ c ∈ (copyTuple h memo others).2, base ≤ c ∧ ∃ v, Apart K (copyTuple h memo others).1 c v
  | [], _, _, _, _ => nofun
  | (o, w) :: others, h, memo, hbase, hmemo => by
    rw [copyTuple]
    cases hl : memo.lookup o with
    | some copy =>
      intro c hc
      rcases List.mem_cons.mp hc with rfl | hc
      · obtain ⟨hle, v, hv⟩ := hmemo _ (lookup_mem hl)
        exact ⟨hle, v, copyTuple_keeps hv⟩
      · exact copyTuple_copies hbase hmemo c hc
    | none =>
      have hbase' : base ≤ (h ++ [w]).length := by
        rw [List.length_append]
        omega
      have hmemo' : ∀ c ∈ ((o, h.length) :: memo).map Prod.snd, base ≤ c ∧ ∃ v, Apart K (h ++ [w]) c v := by
        intro c hc
        rcases List.mem_cons.mp hc with rfl | hc
        · exact ⟨hbase, w, apart_new w⟩
        · obtain ⟨hle, v, hv⟩ := hmemo c hc
          exact ⟨hle, v, hv.push w⟩
      intro c hc
      rcases List.mem_cons.mp hc with rfl | hc
      · exact ⟨hbase, w, copyTuple_keeps (apart_new w)⟩
      · exact copyTuple_copies hbase' hmemo' c hc

theorem tray_keeps {others : List (Ref × V)} {r : Ref} {v w : V} (ha : Apart K h r v) :
    Apart K (tray h w others).1 r v := copyTuple_keeps (ha.push w)

theorem tray_given {others : List (Ref × V)} {w : V} :
    ∀ r ∈ (tray h w others).2, h.length ≤ r ∧ ∃ v, Apart K (tray h w others).1 r v := by
  intro r hr
  rcases List.mem_cons.mp hr with rfl | hr
  · exact ⟨le_refl _, w, copyTuple_keeps (apart_new w)⟩
  · refine copyTuple_copies ?_ (fun c hc => absurd hc List.not_mem_nil) r hr
    rw [List.length_append]
    exact Nat.le_add_right _ _

variable [Deepcopy V]

theorem deepcopy_eq {r : Ref} {v : V} (hr : h[r]? = some v) (hv : Deepcopy.copyable v = true) :
    deepcopy h r = some (h ++ [v], h.length) := by
  simp only [deepcopy, hr, hv, if_true]

theorem deepcopyTuple_eq : ∀ {others : List (Ref × V)} {h : Heap V} {memo : List (Ref × Ref)},
    (∀ o ∈ others, Apart K h o.1 o.2 ∧ Deepcopy.copyable o.2 = true) →
    deepcopyTuple h memo (others.map Prod.fst) = some (copyTuple h memo others)
  | [], _, _, _ => rfl
  | (o, w) :: others, h, memo, ho => by
    obtain ⟨ha, hw⟩ := ho (o, w) (.head _)
    have hrest := fun o' ho' => ho o' (.tail _ ho')
    rw [List.map_cons, deepcopyTuple, copyTuple]
    cases memo.lookup o with
    | some copy => simp only [deepcopyTuple_eq hrest]
    | none =>
      have hpush := fun o' ho' => And.imp_left (fun ha : Apart K h o'.1 o'.2 => ha.push w) (hrest o' ho')
      simp only [deepcopy_eq ha.state hw, deepcopyTuple_eq hpush]

theorem serve_eq {cup : Ref} {v : V} {others : List (Ref × V)} (hcup : h[cup]? = some v)
    (hv : Deepcopy.copyable v = true) (ho : ∀ o ∈ others, Apart K h o.1 o.2 ∧ Deepcopy.copyable o.2 = true) :
    serve h cup (others.map Prod.fst) = some (tray h v others) := by
  have hpush := fun o ho' => And.imp_left (fun ha : Apart K h o.1 o.2 => ha.push v) (ho o ho')
  simp only [serve, deepcopy_eq hcup hv, deepcopyTuple_eq hpush, tray]

/-! ## The fold -/

variable {s : State} {pluginId : Hook → Str} {code : Code V}

/-- A hook's place in the pipe: the cup after it is in the state that `stir` gives. -/
theorem pipe_cons {hook : Hook} (hooks : List Hook) (htame : Tame K (code hook.function))
    (hplugin : pluginId hook ∈ s.plugins) {cup : Ref} {v : V} (hcup : Apart K h cup v)
    (hv : Deepcopy.copyable v = true) {others : List (Ref × V)}
    (ho : ∀ o ∈ others, Apart K h o.1 o.2 ∧ Deepcopy.copyable o.2 = true) :
    ∃ cup', pipe s pluginId code (others.map Prod.fst) (hook :: hooks) h cup =
        pipe s pluginId code (others.map Prod.fst) hooks (stir code others (h, v) hook).1 cup' ∧
      Apart K (stir code others (h, v) hook).1 cup' (stir code others (h, v) hook).2 ∧
      Deepcopy.copyable (stir code others (h, v) hook).2 = true ∧
      ∀ r w, Apart K h r w → Apart K (stir code others (h, v) hook).1 r w := by
  have hgiven := @tray_given _ K h others v
  have hlent : ∀ r ∈ (tray h v others).2, ∃ v', Apart K (tray h v others).1 r v' := fun r hr => (hgiven r hr).2
  -- what was there before the copies is not among them
  have hkeeps (r : Ref) (w : V) (ha : Apart K h r w) :
      Apart K (code hook.function (tray h v others).1 (tray h v others).2).1 r w := by
    refine htame.keeps _ _ hlent r w (fun hr => ?_) (tray_keeps ha)
    obtain ⟨hlt, -⟩ := List.getElem?_eq_some_iff.mp ha.state
    exact absurd (hgiven r hr).1 (by omega)
  have hreturns := htame.returns _ _ hlent
  have hexits := htame.exits _ _ hlent
  rw [pipe, serve_eq hcup.state hv ho, stir]
  simp only
  generalize code hook.function (tray h v others).1 (tray h v others).2 = result at hkeeps hreturns hexits ⊢
  match result with
  | (h', .returned (some r)) =>
    obtain ⟨w, hw, hcopy⟩ := hreturns r rfl
    simp only [hw.state, Option.getD_some]
    exact ⟨r, rfl, hw, hcopy, hkeeps⟩
  | (h', .returned none) => exact ⟨cup, rfl, hkeeps cup v hcup, hv, hkeeps⟩
  | (h', .raised) => exact ⟨cup, if_pos hplugin, hkeeps cup v hcup, hv, hkeeps⟩
  | (h', .exits) => exact absurd rfl hexits

theorem pipe_folds {others : List (Ref × V)} : ∀ {hooks : List Hook} {h : Heap V} {cup : Ref} {v : V},
    (∀ hook ∈ hooks, Tame K (code hook.function) ∧ pluginId hook ∈ s.plugins) → Apart K h cup v →
    Deepcopy.copyable v = true → (∀ o ∈ others, Apart K h o.1 o.2 ∧ Deepcopy.copyable o.2 = true) →
    let done := hooks.foldl (stir code others) (h, v)
    ∃ r, pipe s pluginId code (others.map Prod.fst) hooks h cup = (done.1, .ok r) ∧ done.1[r]? = some done.2 ∧
      ∀ r w, Apart K h r w → Apart K done.1 r w
  | [], _, cup, _, _, hcup, _, _ => ⟨cup, rfl, hcup.state, fun _ _ ha => ha⟩
  | hook :: hooks, h, cup, v, hhooks, hcup, hv, ho => by
    obtain ⟨htame, hplugin⟩ := hhooks hook (.head _)
    obtain ⟨cup', hpipe, hcup', hv', hkeeps⟩ := pipe_cons hooks htame hplugin hcup hv ho
    obtain ⟨r, hrest, hr, hkept⟩ := pipe_folds (fun hook' hmem => hhooks hook' (.tail _ hmem)) hcup' hv'
      fun o hmem => And.imp_left (hkeeps o.1 o.2) (ho o hmem)
    refine ⟨r, hpipe.trans hrest, hr, fun r w ha => hkept r w (hkeeps r w ha)⟩

/-- The call returns an object in the state that the left fold gives, from a copy of the first argument on, and
the arguments are in the states that they were in. -/
def Folds (s : State) (pluginId : Hook → Str) (code : Code V) (hookName : Str) (hooks : List Hook) (arg : Ref)
    (others : List Ref) (h : Heap V) : Prop :=
  ∃ v, h[arg]? = some v ∧
    let done := hooks.foldl (stir code (states h others)) (h ++ [v], v)
    (∃ r, executeHook s pluginId code hookName (arg :: others) h = (done.1, .ok (some r)) ∧ done.1[r]? = some done.2) ∧
      ∀ r ∈ arg :: others, done.1[r]? = h[r]?

omit [Deepcopy V] in
theorem map_states {refs : List Ref} (hrefs : ∀ r ∈ refs, ∃ v, h[r]? = some v) : (states h refs).map Prod.fst = refs := by
  induction refs with
  | nil => rfl
  | cons r refs ih =>
    obtain ⟨v, hv⟩ := hrefs r (.head _)
    have htail := ih fun r' hr' => hrefs r' (.tail _ hr')
    rw [states] at htail ⊢
    simp [hv, htail]

omit [Deepcopy V] in
theorem mem_states {refs : List Ref} {o : Ref × V} (ho : o ∈ states h refs) : o.1 ∈ refs ∧ h[o.1]? = some o.2 := by
  obtain ⟨r, hr, hmap⟩ := List.mem_filterMap.mp ho
  obtain ⟨v, hv, rfl⟩ := Option.map_eq_some_iff.mp hmap
  exact ⟨hr, hv⟩

theorem executeHook_folds {hookName : Str} {hooks : List Hook} (hh : s.hooks.get? hookName = some hooks)
    (hhooks : ∀ hook ∈ hooks, Tame K (code hook.function) ∧ pluginId hook ∈ s.plugins) {arg : Ref} {others : List Ref}
    (hargs : ∀ r ∈ arg :: others, ∃ v, Apart K h r v ∧ Deepcopy.copyable v = true) :
    Folds s pluginId code hookName hooks arg others h := by
  obtain ⟨v, ha, hv⟩ := hargs arg (.head _)
  have hothers : ∀ o ∈ states h others, Apart K (h ++ [v]) o.1 o.2 ∧ Deepcopy.copyable o.2 = true := by
    intro o ho
    obtain ⟨hr, hstate⟩ := mem_states ho
    obtain ⟨w, hw, hcopy⟩ := hargs o.1 (.tail _ hr)
    obtain rfl := Option.some.inj (hstate.symm.trans hw.state)
    exact ⟨hw.push v, hcopy⟩
  obtain ⟨r, hpipe, hr, hkept⟩ := pipe_folds hhooks (apart_new v) hv hothers
  have hrefs := fun r hr => (hargs r (.tail _ hr)).imp fun _ hv => hv.1.state
  rw [map_states hrefs] at hpipe
  refine ⟨v, ha.state, ⟨r, ?_, hr⟩, fun r' hr' => ?_⟩
  · simp only [executeHook, hh, deepcopy_eq ha.state hv, hpipe]
    rfl
  · obtain ⟨w, hw, -⟩ := hargs r' hr'
    rw [hw.state]
    exact (hkept r' w (hw.push v)).state

/-- Of a manager that was started and handled any requests in which no deactivation ends in the midst of the plugin's
endpoints: a call with arguments that the hooks do not reach returns the left fold of the active plugins' hooks in the
order of their priorities, and changes no argument. -/
theorem execute_hook_ok [FastApi] {routes : List Route} {db : Option (List Str)} {folders : List Folder} {s₀ : State}
    (hs : bootstrap routes db folders = some s₀) (rs : List Request) (hrs : Along handle Unbroken s₀ rs)
    {hookName : Str} {hooks : List Hook} (hh : (run handle s₀ rs).hooks.get? hookName = some hooks)
    (hown : ∀ id p, (run handle s₀ rs).plugins.get? id = some p → ∀ hook ∈ p.hooks, pluginId hook = id)
    (htame : ∀ hook ∈ hooks, Tame K (code hook.function)) {arg : Ref} {others : List Ref}
    (hargs : ∀ r ∈ arg :: others, ∃ v, Apart K h r v ∧ Deepcopy.copyable v = true) :
    InOrder (run handle s₀ rs) hookName hooks ∧ Folds (run handle s₀ rs) pluginId code hookName hooks arg others h := by
  have hsynced := run_synced hs hrs
  refine ⟨hsynced.inOrder hh, executeHook_folds hh (fun hook hmem => ⟨htame hook hmem, ?_⟩) hargs⟩
  obtain ⟨id, p, hp, hin⟩ := hsynced.mem_active hh hmem
  rw [hown id p hp hook hin]
  exact Dict.mem_iff_get?.mpr ⟨p, hp⟩

end

/-- Numbers as the states of objects; what has the state 0 cannot be copied. -/
instance : Deepcopy ℕ := ⟨fun n => n ≠ 0⟩

def pour : Str := "before_cat_sends_message".toList

def sugar : Hook := ⟨pour, 2, 0⟩

def milk : Hook := ⟨pour, 1, 1⟩

/-- A core plugin with two hooks of a name. -/
def pouringFolder : Folder :=
  ⟨corePlugin, true, ⟨true, ⟨[milk, sugar], [], [], [], ⟨false, false⟩⟩, true, true⟩, true⟩

/-- Another plugin is installed and switched off. -/
def scoobyRequests : List Request :=
  [.upload "scooby".toList true true (serving [status]) true, .toggle "scooby".toList (serving []) true]

/-- Started with this plugin, the manager has the hooks by priority, and after the requests as well. -/
theorem pouring_served {rs : List Request} (hrs : rs = [] ∨ rs = scoobyRequests) :
    ∃ s, bootstrap [] none [pouringFolder] = some s ∧ Along handle Unbroken s rs ∧
      (run handle s rs).hooks.get? pour = some [sugar, milk] ∧ corePlugin ∈ (run handle s rs).plugins ∧
      ∀ e ∈ (run handle s rs).plugins.entries, e.2.hooks = [] ∨ corePlugin = e.1 := by
  obtain ⟨s, hs⟩ : ∃ s, bootstrap [] none [pouringFolder] = some s := ⟨_, rfl⟩
  have hunbroken : Along handle Unbroken s rs := by
    obtain rfl := Option.some.inj hs
    rcases hrs with rfl | rfl <;> decide +kernel
  have hhooks : (((run handle s rs).activeOnes.flatMap Plugin.hooks).filter fun h => h.name = pour) = [milk, sugar] := by
    obtain rfl := Option.some.inj hs
    rcases hrs with rfl | rfl <;> decide +kernel
  have hsorted : sortHooks [milk, sugar] = [sugar, milk] := by
    simp [sortHooks, List.mergeSort, List.MergeSort.Internal.splitInTwo, sugar, milk]
  have hmerged := (run_synced hs hunbroken).hooks pour
  rw [hhooks, hsorted] at hmerged
  refine ⟨s, hs, hunbroken, ?_, ?_, ?_⟩
  · cases hg : (run handle s rs).hooks.get? pour with
    | none => simp [hg] at hmerged
    | some hooks => simpa [hg] using hmerged
  all_goals
    obtain rfl := Option.some.inj hs
    rcases hrs with rfl | rfl <;> decide +kernel

/-- The first hook returns a new object, and the second one changes what it is given and raises. -/
def spilling : Code ℕ := fun function h given =>
  match function, given with
  | 0, _ => (h ++ [7], .returned (some h.length))
  | _, cup :: _ => (h.set cup 9, .raised)
  | _, [] => (h, .raised)

def noReach : Reach ℕ := ⟨fun _ => ∅, fun _ _ hr => absurd hr (Set.notMem_empty _), fun _ _ => Set.Subset.refl _⟩

theorem spilling_tame (function : Obj) : Tame noReach (spilling function) := by
  refine ⟨fun h given _ r v hr ha => ⟨?_, Set.notMem_empty r⟩, fun h given _ r hreturned => ?_, fun h given _ => ?_⟩
  · match function, given with
    | 0, _ => exact (ha.push 7).state
    | _ + 1, [] => exact ha.state
    | _ + 1, cup :: _ =>
      have hne : cup ≠ r := fun he => hr (he ▸ .head _)
      exact (List.getElem?_set_ne hne).trans ha.state
  · match function, given with
    | 0, _ =>
      obtain rfl : h.length = r := by simpa [spilling] using hreturned
      exact ⟨7, apart_new 7, by decide⟩
    | _ + 1, [] => cases hreturned
    | _ + 1, cup :: _ => cases hreturned
  · match function, given with
    | 0, _ => exact nofun
    | _ + 1, [] => exact nofun
    | _ + 1, cup :: _ => exact nofun

theorem execute_hook_spilling : ∃ s, bootstrap [] none [pouringFolder] = some s ∧
    InOrder (run handle s scoobyRequests) pour [sugar, milk] ∧
    Folds (run handle s scoobyRequests) (fun _ => corePlugin) spilling pour [sugar, milk] 0 [1, 1] [3, 4] := by
  obtain ⟨s, hs, hrs, hh, -, hkeys⟩ := pouring_served (.inr rfl)
  refine ⟨s, hs, execute_hook_ok (K := noReach) hs scoobyRequests hrs hh ?_ (fun hook _ => spilling_tame hook.function) ?_⟩
  · intro id p hp hook hin
    refine (hkeys (id, p) (Dict.get?_eq_some.mp hp)).resolve_left fun hnone => ?_
    rw [hnone] at hin
    cases hin
  · intro r hr
    have hr : r = 0 ∨ r = 1 := by simpa using hr
    rcases hr with rfl | rfl
    · exact ⟨3, ⟨rfl, Set.notMem_empty _⟩, by decide⟩
    · exact ⟨4, ⟨rfl, Set.notMem_empty _⟩, by decide⟩

/-- A hook that raises a `BaseException`. -/
def exiting : Code ℕ := fun _ h _ => (h, .exits)

/-- The first hook returns an object that cannot be copied, the second one another. -/
def uncopyable : Code ℕ := fun function h _ =>
  (h ++ [if function = 0 then 0 else 5], .returned (some h.length))

/-- The second hook changes the object that the first one returned, and returns None. -/
def keeping : Code ℕ := fun function h _ =>
  if function = 0 then (h ++ [5], .returned (some h.length)) else (h.set 3 6, .returned none)

/-- The hooks change the caller's argument itself. -/
def reaching : Code ℕ := fun _ h _ => (h.set 0 6, .returned none)

/-- The call raises, or leaves out a hook, or returns what a hook changed that returned None, or changes an argument. -/
theorem pipe_leaks : ∃ s, bootstrap [] none [pouringFolder] = some s ∧ s.hooks.get? pour = some [sugar, milk] ∧
    ∀ code ∈ [exiting, uncopyable, keeping, reaching],
      ¬Folds s (fun _ => corePlugin) code pour [sugar, milk] 0 [] [4] := by
  obtain ⟨s, hs, -, hh, hplugin, -⟩ := pouring_served (.inl rfl)
  change s.hooks.get? pour = _ at hh
  change corePlugin ∈ s.plugins at hplugin
  refine ⟨s, hs, hh, fun code hcode => ?_⟩
  rintro ⟨v, hv, ⟨r, he, hr⟩, hargs⟩
  obtain rfl := Option.some.inj hv
  simp only [executeHook, hh] at he
  have hcode : code = exiting ∨ code = uncopyable ∨ code = keeping ∨ code = reaching := by simpa using hcode
  rcases hcode with rfl | rfl | rfl | rfl
  · exact absurd (congrArg Prod.snd he) (by exact nofun)
  · -- the copy for the second hook raises
    simp [pipe, serve, deepcopy, deepcopyTuple, Deepcopy.copyable, uncopyable, hplugin, stir, tray, copyTuple, states,
      sugar, milk] at he
  · obtain rfl : 3 = r := Option.some.inj (Except.ok.inj (congrArg Prod.snd he))
    exact absurd hr (by decide)
  · exact absurd (hargs 0 (.head _)) (by decide)

end KCore.MadHatter
