import Mathlib.Algebra.GroupWithZero.Nat
import KCore.Impl.MadHatter.Hooks
import KCore.Impl.MadHatter.Importing
import KCore.Proof.MadHatter.Active

/-!
# How often a decorated object is listed

The lists of a plugin have an object as often as names are bound to it, over all
modules of the plugin (`listed_load`), the lists of the MadHatter as often as
those of the active plugins together (`listed_merged`), and a hook's function is
called as often as it is listed (`called_eq`). So each is there once exactly
when one name is bound to it and no other active plugin lists it
(`exactly_once_iff`).
-/

namespace KCore.MadHatter.Importing

open Text

/-- What stands in the lists: a function under a hook's name, or an object. -/
inductive Slot
  | hook (name : Str) (function : Obj)
  | tool (o : Obj)
  | form (o : Obj)
  | endpoint (o : Obj)
  deriving DecidableEq

/-- What a decorated object gives to the lists. -/
def slotOf (objects : Obj → Decorated) (o : Obj) : Option Slot :=
  match objects o with
  | .hook h => some (.hook h.name h.function)
  | .tool => some (.tool o)
  | .form => some (.form o)
  | .endpoint _ => some (.endpoint o)
  | .override _ | .other => none

/-- How often a plugin lists it. -/
def listed (p : Plugin) : Slot → Nat
  | .hook name function => p.hooks.countP fun h => h.name = name ∧ h.function = function
  | .tool o => p.tools.count o
  | .form o => p.forms.count o
  | .endpoint o => p.endpoints.countP fun e => e.obj = o

/-- How often the MadHatter lists it. -/
def listedIn (s : State) : Slot → Nat
  | .hook name function => ((s.hooks.get? name).getD []).countP fun h => h.function = function
  | .tool o => s.tools.count o
  | .form o => s.forms.count o
  | .endpoint o => s.endpoints.countP fun e => e.obj = o

/-- The objects the names of the imported modules are bound to. -/
def bound (imported : Str → Option Namespace) (pyFiles : List (List Str)) : List Obj :=
  (pyFiles.filterMap fun f => imported (moduleName f)).flatMap Dict.values

/-! ## The lists of a plugin -/

section

variable (objects : Obj → Decorated) (imported : Str → Option Namespace)

theorem getmembers_perm (ns : Namespace) (p : Obj → Bool) : ((getmembers ns p).map Prod.snd).Perm (ns.values.filter p) := by
  rw [Dict.values, List.filter_map]
  exact ((List.mergeSort_perm ns.entries _).filter _).map Prod.snd

/-- The members of one kind, over the modules. -/
theorem foldl_members (get : Members → List (Str × Obj)) (p : Obj → Bool) (f : Members → Namespace → Members)
    (hf : ∀ m ns, get (f m ns) = get m ++ getmembers ns p) : ∀ (pyFiles : List (List Str)) (m : Members),
      ((get (pyFiles.foldl (fun m pyFile => match imported (moduleName pyFile) with | none => m | some ns => f m ns) m)).map
        Prod.snd).Perm ((get m).map Prod.snd ++ (bound imported pyFiles).filter p)
  | [], m => by simp [bound]
  | pyFile :: pyFiles, m => by
    rw [List.foldl_cons]
    refine (foldl_members get p f hf pyFiles _).trans ?_
    cases hi : imported (moduleName pyFile) with
    | none => simp [bound, hi]
    | some ns =>
      simp only [bound, List.filterMap_cons, hi, List.flatMap_cons, List.filter_append, hf, List.map_append]
      rw [List.append_assoc]
      exact ((getmembers_perm ns p).append_right _).append_left _

/-- All members: of a kind, as often as names are bound to them. -/
theorem members_perm (pyFiles : List (List Str)) :
    let m := loadDecoratedFunctions objects imported pyFiles
    (m.hooks.map Prod.snd).Perm ((bound imported pyFiles).filter (isCatHook objects)) ∧
      (m.tools.map Prod.snd).Perm ((bound imported pyFiles).filter (isCatTool objects)) ∧
      (m.forms.map Prod.snd).Perm ((bound imported pyFiles).filter (isCatForm objects)) ∧
      (m.endpoints.map Prod.snd).Perm ((bound imported pyFiles).filter (isCustomEndpoint objects)) :=
  ⟨foldl_members imported Members.hooks _ _ (fun _ _ => rfl) pyFiles _,
    foldl_members imported Members.tools _ _ (fun _ _ => rfl) pyFiles _,
    foldl_members imported Members.forms _ _ (fun _ _ => rfl) pyFiles _,
    foldl_members imported Members.endpoints _ _ (fun _ _ => rfl) pyFiles _⟩

theorem countP_snd (l : List (Str × Obj)) (p : Obj → Bool) : l.countP (fun m => p m.2) = (l.map Prod.snd).countP p := by
  rw [List.countP_map]
  rfl

/-- The hook that an object is. -/
def hookOf (o : Obj) : Option Hook :=
  match objects o with
  | .hook h => some h
  | _ => none

/-- The endpoint that an object is. -/
def endpointOf (o : Obj) : Option CustomEndpoint :=
  match objects o with
  | .endpoint f => some { f with obj := o }
  | _ => none

/-- A plugin lists what its names are bound to, once for each name. -/
theorem listed_load (q : Plugin) (pyFiles : List (List Str)) (x : Slot) :
    listed (q.load ((loadDecoratedFunctions objects imported pyFiles).loaded objects)) x =
      (bound imported pyFiles).countP fun o => slotOf objects o = some x := by
  obtain ⟨hh, ht, hf, he⟩ := members_perm objects imported pyFiles
  cases x with
  | hook name function =>
    simp only [listed, Plugin.load, Members.loaded]
    rw [List.countP_filterMap]
    refine (countP_snd _ fun o => (Option.map (fun h : Hook => decide (h.name = name ∧ h.function = function))
      (hookOf objects o)).getD false).trans ?_
    rw [hh.countP_eq, List.countP_filter]
    refine List.countP_congr fun o _ => ?_
    cases ho : objects o <;> simp [isCatHook, slotOf, hookOf, ho]
  | tool o =>
    simp only [listed, Plugin.load, Members.loaded]
    rw [List.count_eq_countP, ht.countP_eq, List.countP_filter]
    refine List.countP_congr fun o' _ => ?_
    cases ho : objects o' <;> simp [isCatTool, slotOf, ho]
  | form o =>
    simp only [listed, Plugin.load, Members.loaded]
    rw [List.count_eq_countP, hf.countP_eq, List.countP_filter]
    refine List.countP_congr fun o' _ => ?_
    cases ho : objects o' <;> simp [isCatForm, slotOf, ho]
  | endpoint o =>
    simp only [listed, Plugin.load, Members.loaded]
    rw [List.countP_map, List.countP_filterMap]
    refine (countP_snd _ fun o' => (Option.map (fun e : CustomEndpoint => decide (e.obj = o))
      (endpointOf objects o')).getD false).trans ?_
    rw [he.countP_eq, List.countP_filter]
    refine List.countP_congr fun o' _ => ?_
    cases ho : objects o' <;> simp [isCustomEndpoint, slotOf, endpointOf, ho]

end

/-! ## The lists of the MadHatter -/

/-- The MadHatter lists what the active plugins list together. -/
theorem listed_merged {s : State} (h : Merged s) (x : Slot) : listedIn s x = (s.activeOnes.map fun p => listed p x).sum := by
  cases x with
  | hook name function =>
    rw [listedIn, h.hooks, sortHooks, (List.mergeSort_perm _ _).countP_eq, List.countP_filter, List.countP_flatMap]
    refine congrArg List.sum (List.map_congr_left fun p _ => List.countP_congr fun hook _ => ?_)
    simp [and_comm]
  | tool o => rw [listedIn, h.tools, List.count_flatMap]; rfl
  | form o => rw [listedIn, h.forms, List.count_flatMap]; rfl
  | endpoint o => rw [listedIn, h.endpoints, List.countP_flatMap]; rfl

/-- What one active plugin lists once is listed once, if the others do not list it. -/
theorem listedIn_eq_one {s : State} (h : Merged s) {id : Str} {p : Plugin} (hids : ∀ i q, s.plugins.get? i = some q → q.id = i)
    (hp : s.plugins.get? id = some p) (hact : id ∈ s.activePlugins) {x : Slot} (hone : listed p x = 1) :
    listedIn s x = 1 ↔ ∀ i q, i ≠ id → i ∈ s.activePlugins → s.plugins.get? i = some q → listed q x = 0 := by
  rw [listed_merged h]
  obtain ⟨l₁, l₂, he⟩ := List.append_of_mem (Dict.get?_eq_some.mp hp)
  have hnd := s.plugins.nodup
  rw [he, List.map_append, List.map_cons, List.nodup_append, List.nodup_cons] at hnd
  obtain ⟨-, ⟨hn₂, -⟩, hn₁⟩ := hnd
  -- the others are those before and after it
  have hones : s.activeOnes = (l₁.map Prod.snd).filter (fun q => q.id ∈ s.activePlugins) ++
      p :: (l₂.map Prod.snd).filter fun q => q.id ∈ s.activePlugins := by
    rw [State.activeOnes, Dict.values, he, List.map_append, List.filter_append, List.map_cons, List.filter_cons,
      if_pos (by simpa [hids id p hp] using hact)]
  have hmem : ∀ i q, (i, q) ∈ l₁ ++ l₂ ↔ i ≠ id ∧ s.plugins.get? i = some q := by
    intro i q
    rw [Dict.get?_eq_some, he]
    simp only [List.mem_append, List.mem_cons, Prod.mk.injEq]
    constructor
    · rintro (hm | hm)
      · refine ⟨?_, .inl hm⟩
        rintro rfl
        exact hn₁ i (List.mem_map.mpr ⟨_, hm, rfl⟩) i (.head _) rfl
      · refine ⟨?_, .inr (.inr hm)⟩
        rintro rfl
        exact hn₂ (List.mem_map.mpr ⟨_, hm, rfl⟩)
    · rintro ⟨hne, hm | ⟨e, -⟩ | hm⟩
      · exact .inl hm
      · exact absurd e hne
      · exact .inr hm
  have hz : ∀ l : List Plugin, (l.map fun q => listed q x).sum = 0 ↔ ∀ q ∈ l, listed q x = 0 := fun l => by
    induction l with
    | nil => simp
    | cons q l ih => simp [ih]
  have hsum : (s.activeOnes.map fun q => listed q x).sum = 1 ↔
      ((((l₁ ++ l₂).map Prod.snd).filter fun q => q.id ∈ s.activePlugins).map fun q => listed q x).sum = 0 := by
    rw [hones, List.map_append, List.sum_append, List.map_cons, List.sum_cons, hone, List.map_append, List.filter_append,
      List.map_append, List.sum_append]
    omega
  rw [hsum, hz]
  simp only [List.mem_filter, List.mem_map, Prod.exists, decide_eq_true_eq]
  constructor
  · intro hq i q hne hi hg
    exact hq q ⟨⟨i, q, (hmem i q).mpr ⟨hne, hg⟩, rfl⟩, by rwa [hids i q hg]⟩
  · rintro hq q ⟨⟨i, q, hm, rfl⟩, hi⟩
    obtain ⟨hne, hg⟩ := (hmem i q).mp hm
    exact hq i q hne (by rwa [hids i q hg] at hi) hg

/-! ## The calls of a hook -/

section

variable {V : Type*} [Deepcopy V] (s : State) (pluginId : Hook → Str) (code : Code V)

/-- `executeWithoutArguments`, and the functions it calls. -/
def tracedWithoutArguments : List Hook → Heap V → (Heap V × Except HookError Unit) × List Obj
  | [], h => ((h, .ok ()), [])
  | hook :: hooks, h =>
    match code hook.function h [] with
    | (h, .returned _) =>
      let (end', calls) := tracedWithoutArguments hooks h
      (end', hook.function :: calls)
    | (h, .raised) =>
      if pluginId hook ∈ s.plugins then
        let (end', calls) := tracedWithoutArguments hooks h
        (end', hook.function :: calls)
      else ((h, .error .noPlugin), [hook.function])
    | (h, .exits) => ((h, .error .exits), [hook.function])

/-- `pipe`, and the functions it calls. -/
def tracedPipe (others : List Ref) : List Hook → Heap V → Ref → (Heap V × Except HookError Ref) × List Obj
  | [], h, teaCup => ((h, .ok teaCup), [])
  | hook :: hooks, h, teaCup =>
    match serve h teaCup others with
    | none =>
      if pluginId hook ∈ s.plugins then tracedPipe others hooks h teaCup else ((h, .error .noPlugin), [])
    | some (h, given) =>
      match code hook.function h given with
      | (h, .returned r) =>
        let (end', calls) := tracedPipe others hooks h (r.getD teaCup)
        (end', hook.function :: calls)
      | (h, .raised) =>
        if pluginId hook ∈ s.plugins then
          let (end', calls) := tracedPipe others hooks h teaCup
          (end', hook.function :: calls)
        else ((h, .error .noPlugin), [hook.function])
      | (h, .exits) => ((h, .error .exits), [hook.function])

/-- `executeHook`, and the functions it calls. -/
def tracedHook (hookName : Str) (args : List Ref) (h : Heap V) :
    (Heap V × Except HookError (Option Ref)) × List Obj :=
  match s.hooks.get? hookName with
  | none => ((h, .error .notPresent), [])
  | some hooks =>
    match args with
    | [] =>
      let ((h, done), calls) := tracedWithoutArguments s pluginId code hooks h
      ((h, done.map fun _ => none), calls)
    | arg :: others =>
      match deepcopy h arg with
      | none => ((h, .error .uncopyable), [])
      | some (h, teaCup) =>
        let ((h, done), calls) := tracedPipe s pluginId code others hooks h teaCup
        ((h, done.map some), calls)

variable {s pluginId code}

omit [Deepcopy V] in
theorem tracedWithoutArguments_fst : ∀ (hooks : List Hook) (h : Heap V),
    (tracedWithoutArguments s pluginId code hooks h).1 = executeWithoutArguments s pluginId code hooks h
  | [], _ => rfl
  | hook :: hooks, h => by
    rw [tracedWithoutArguments, executeWithoutArguments]
    rcases code hook.function h [] with ⟨h', r | - | -⟩
    · exact tracedWithoutArguments_fst hooks h'
    · dsimp only
      split
      · exact tracedWithoutArguments_fst hooks h'
      · rfl
    · rfl

theorem tracedPipe_fst (others : List Ref) : ∀ (hooks : List Hook) (h : Heap V) (cup : Ref),
    (tracedPipe s pluginId code others hooks h cup).1 = pipe s pluginId code others hooks h cup
  | [], _, _ => rfl
  | hook :: hooks, h, cup => by
    rw [tracedPipe, pipe]
    cases serve h cup others with
    | none =>
      dsimp only
      split
      · exact tracedPipe_fst others hooks h cup
      · rfl
    | some r =>
      obtain ⟨h', given⟩ := r
      dsimp only
      rcases code hook.function h' given with ⟨h'', (- | r) | - | -⟩
      · exact tracedPipe_fst others hooks h'' cup
      · exact tracedPipe_fst others hooks h'' r
      · dsimp only
        split
        · exact tracedPipe_fst others hooks h'' cup
        · rfl
      · rfl

/-- The trace is one of `execute_hook`. -/
theorem tracedHook_fst (hookName : Str) (args : List Ref) (h : Heap V) :
    (tracedHook s pluginId code hookName args h).1 = executeHook s pluginId code hookName args h := by
  rw [tracedHook, executeHook]
  cases s.hooks.get? hookName with
  | none => rfl
  | some hooks =>
    cases args with
    | nil =>
      dsimp only
      rw [← tracedWithoutArguments_fst]
    | cons arg others =>
      dsimp only
      cases deepcopy h arg with
      | none => rfl
      | some r =>
        dsimp only
        rw [← tracedPipe_fst]

/-- Code that does not end the process, and objects that can be copied; a reference that is given is to an object. -/
structure Mild (code : Code V) : Prop where
  copies (v : V) : Deepcopy.copyable v = true
  keeps (f : Obj) (h : Heap V) (given : List Ref) : h.length ≤ (code f h given).1.length
  ends (f : Obj) (h : Heap V) (given : List Ref) : (code f h given).2 ≠ .exits
  gives {f : Obj} {h : Heap V} {given : List Ref} {r : Ref} (hg : ∀ g ∈ given, g < h.length) :
    (code f h given).2 = .returned (some r) → r < (code f h given).1.length

theorem deepcopy_ok (hc : ∀ v : V, Deepcopy.copyable v = true) {h : Heap V} {r : Ref} (hr : r < h.length) :
    ∃ v, deepcopy h r = some (h ++ [v], h.length) := by
  rw [deepcopy, List.getElem?_eq_getElem hr]
  exact ⟨h[r], if_pos (hc _)⟩

theorem deepcopyTuple_ok (hc : ∀ v : V, Deepcopy.copyable v = true) : ∀ {rs : List Ref} {h : Heap V} {memo : List (Ref × Ref)},
    (∀ r ∈ rs, r < h.length) → (∀ m ∈ memo, m.2 < h.length) →
      ∃ h' copies, deepcopyTuple h memo rs = some (h', copies) ∧ h.length ≤ h'.length ∧ ∀ c ∈ copies, c < h'.length
  | [], h, _, _, _ => ⟨h, [], rfl, le_rfl, fun _ hc => absurd hc List.not_mem_nil⟩
  | r :: rs, h, memo, hr, hm => by
    rw [deepcopyTuple]
    cases hl : memo.lookup r with
    | some copy =>
      obtain ⟨h', copies, he, hle, hcs⟩ := deepcopyTuple_ok hc (fun r hr' => hr r (.tail _ hr')) hm
      have hcopy : copy < h.length := by
        obtain ⟨l₁, l₂, hmemo, -⟩ := List.lookup_eq_some_iff.mp hl
        exact hm (r, copy) (by rw [hmemo]; simp)
      refine ⟨h', copy :: copies, by rw [he], hle, fun c hc => ?_⟩
      obtain rfl | hc := List.mem_cons.mp hc
      · exact Nat.lt_of_lt_of_le hcopy hle
      · exact hcs c hc
    | none =>
      obtain ⟨v, hv⟩ := deepcopy_ok hc (hr r (.head _))
      have hlen : h.length < (h ++ [v]).length := by simp
      have hrs : ∀ r ∈ rs, r < (h ++ [v]).length := fun r hr' => Nat.lt_trans (hr r (.tail _ hr')) hlen
      have hms : ∀ m ∈ (r, h.length) :: memo, m.2 < (h ++ [v]).length := by
        intro m hm'
        obtain rfl | hm' := List.mem_cons.mp hm'
        · exact hlen
        · exact Nat.lt_trans (hm m hm') hlen
      obtain ⟨h', copies, he, hle, hcs⟩ := deepcopyTuple_ok hc hrs hms
      refine ⟨h', h.length :: copies, by simp only [hv, he], Nat.le_trans (Nat.le_of_lt hlen) hle, fun c hc => ?_⟩
      obtain rfl | hc := List.mem_cons.mp hc
      · exact Nat.lt_of_lt_of_le hlen hle
      · exact hcs c hc

theorem serve_ok (hc : ∀ v : V, Deepcopy.copyable v = true) {h : Heap V} {cup : Ref} {others : List Ref}
    (hcup : cup < h.length) (ho : ∀ r ∈ others, r < h.length) :
    ∃ h' given, serve h cup others = some (h', given) ∧ h.length ≤ h'.length ∧ ∀ g ∈ given, g < h'.length := by
  obtain ⟨v, hv⟩ := deepcopy_ok hc hcup
  have hlen : h.length < (h ++ [v]).length := by simp
  have hmemo : ∀ m ∈ ([] : List (Ref × Ref)), m.2 < (h ++ [v]).length := fun m hm => absurd hm List.not_mem_nil
  obtain ⟨h', copies, he, hle, hcs⟩ := deepcopyTuple_ok hc (fun r hr => Nat.lt_trans (ho r hr) hlen) hmemo
  refine ⟨h', h.length :: copies, by rw [serve, hv]; simp only [he], Nat.le_trans (Nat.le_of_lt hlen) hle, fun g hg => ?_⟩
  obtain rfl | hg := List.mem_cons.mp hg
  · exact Nat.lt_of_lt_of_le hlen hle
  · exact hcs g hg

theorem tracedWithoutArguments_snd (hm : Mild code) : ∀ {hooks : List Hook} (h : Heap V),
    (∀ hook ∈ hooks, pluginId hook ∈ s.plugins) →
      (tracedWithoutArguments s pluginId code hooks h).2 = hooks.map Hook.function
  | [], _, _ => rfl
  | hook :: hooks, h, hp => by
    have ih := fun h => tracedWithoutArguments_snd hm h fun k hk => hp k (.tail _ hk)
    rw [tracedWithoutArguments, List.map_cons]
    have he := hm.ends hook.function h []
    rcases hcode : code hook.function h [] with ⟨h', r | - | -⟩
    · exact congrArg (hook.function :: ·) (ih h')
    · dsimp only
      rw [if_pos (hp hook (.head _))]
      exact congrArg (hook.function :: ·) (ih h')
    · rw [hcode] at he
      exact absurd rfl he

theorem tracedPipe_snd (hm : Mild code) {others : List Ref} : ∀ {hooks : List Hook} {h : Heap V} {cup : Ref},
    (∀ hook ∈ hooks, pluginId hook ∈ s.plugins) → cup < h.length → (∀ r ∈ others, r < h.length) →
      (tracedPipe s pluginId code others hooks h cup).2 = hooks.map Hook.function
  | [], _, _, _, _, _ => rfl
  | hook :: hooks, h, cup, hp, hcup, ho => by
    have hp' : ∀ k ∈ hooks, pluginId k ∈ s.plugins := fun k hk => hp k (.tail _ hk)
    obtain ⟨h', given, hs, hle, hg⟩ := serve_ok hm.copies hcup ho
    have hlen : h.length ≤ (code hook.function h' given).1.length := Nat.le_trans hle (hm.keeps _ _ _)
    have ho' : ∀ r ∈ others, r < (code hook.function h' given).1.length := fun r hr => Nat.lt_of_lt_of_le (ho r hr) hlen
    have hcup' := Nat.lt_of_lt_of_le hcup hlen
    have he := hm.ends hook.function h' given
    have hgive := fun r => hm.gives (f := hook.function) (r := r) hg
    rw [tracedPipe, hs, List.map_cons]
    dsimp only
    rcases hcode : code hook.function h' given with ⟨h'', (- | r) | - | -⟩ <;> rw [hcode] at ho' hcup' he hgive
    · exact congrArg (hook.function :: ·) (tracedPipe_snd hm hp' hcup' ho')
    · exact congrArg (hook.function :: ·) (tracedPipe_snd hm hp' (hgive r rfl) ho')
    · dsimp only
      rw [if_pos (hp hook (.head _))]
      exact congrArg (hook.function :: ·) (tracedPipe_snd hm hp' hcup' ho')
    · exact absurd rfl he

/-- Each hook of the name is called, in order. -/
theorem tracedHook_snd (hm : Mild code) {hookName : Str} {hooks : List Hook} (hh : s.hooks.get? hookName = some hooks)
    (hp : ∀ hook ∈ hooks, pluginId hook ∈ s.plugins) {args : List Ref} {h : Heap V} (ha : ∀ r ∈ args, r < h.length) :
    (tracedHook s pluginId code hookName args h).2 = hooks.map Hook.function := by
  rw [tracedHook, hh]
  cases args with
  | nil => exact tracedWithoutArguments_snd hm h hp
  | cons arg others =>
    obtain ⟨v, hv⟩ := deepcopy_ok hm.copies (ha arg (.head _))
    have hlen : h.length < (h ++ [v]).length := by simp
    simp only [hv]
    exact tracedPipe_snd hm hp hlen fun r hr => Nat.lt_trans (ha r (.tail _ hr)) hlen

end

/-! ## Exactly once -/

section

variable [FastApi]

/-- Every decorated object that a name is bound to is once in the plugin's lists and once in the MadHatter's, and
the function of a hook is called once when its hook is executed. -/
structure ExactlyOnce (objects : Obj → Decorated) (s : State) (pluginId : Str) (m : Members) (bound : List Obj) : Prop where
  collected : ∀ o ∈ bound, slotOf objects o ≠ none →
    ((m.hooks ++ m.tools ++ m.forms ++ m.endpoints).map Prod.snd).count o = 1
  listed : ∀ o ∈ bound, ∀ x, slotOf objects o = some x →
    (∃ p, s.plugins.get? pluginId = some p ∧ listed p x = 1) ∧ listedIn s x = 1
  called : ∀ o ∈ bound, ∀ h, objects o = .hook h →
    ∀ (V : Type) [Deepcopy V] (code : Code V) (pluginId : Hook → Str) (args : List Ref) (heap : Heap V), Mild code →
      (∀ hook ∈ (s.hooks.get? h.name).getD [], pluginId hook ∈ s.plugins) → (∀ r ∈ args, r < heap.length) →
        (tracedHook s pluginId code h.name args heap).2.count h.function = 1

/-- What an activation that returns leaves. -/
theorem toggle_activated {s : State} {id : Str} {p : Plugin} (hp : s.plugins.get? id = some p) (hid : id ∉ s.activePlugins)
    {a : Attempt} (hr : a.returns = true) (d : Bool) :
    (togglePlugin s id a d).1.plugins = s.plugins.set id (p.activate a).1 ∧
      (togglePlugin s id a d).1.activePlugins = s.activePlugins ++ [id] ∧ Merged (togglePlugin s id a d).1 := by
  rw [toggle_of_updated (updated_activated hp hid hr d)]
  refine ⟨?_, ?_, sync_merged _⟩
  · rw [sync_plugins]
    rfl
  · rw [sync_activePlugins]
    rfl

omit [FastApi] in
theorem listed_activate {p : Plugin} {a : Attempt} (hr : a.returns = true) (x : Slot) :
    listed (p.activate a).1 x = listed (p.load a.loaded) x := by
  rw [Attempt.returns, Bool.and_eq_true, Bool.and_eq_true] at hr
  rw [Plugin.activate, if_neg (by simp [hr]), if_neg (by simp [hr])]
  cases x <;> rfl

omit [FastApi] in
/-- As often as names are bound to the object. -/
theorem count_members (objects : Obj → Decorated) (imported : Str → Option Namespace) (pyFiles : List (List Str)) {o : Obj}
    (ho : slotOf objects o ≠ none) : let m := loadDecoratedFunctions objects imported pyFiles
      ((m.hooks ++ m.tools ++ m.forms ++ m.endpoints).map Prod.snd).count o = (bound imported pyFiles).count o := by
  obtain ⟨hh, ht, hf, he⟩ := members_perm objects imported pyFiles
  simp only [List.map_append, List.count_append, hh.count_eq, ht.count_eq, hf.count_eq, he.count_eq]
  have hc : ∀ p : Obj → Bool, ((bound imported pyFiles).filter p).count o =
      if p o = true then (bound imported pyFiles).count o else 0 := by
    intro p
    split
    · rename_i hp
      exact List.count_filter hp
    · rename_i hp
      exact List.count_eq_zero.mpr fun hm => hp (List.mem_filter.mp hm).2
  simp only [hc]
  cases hd : objects o <;> simp [isCatHook, isCatTool, isCatForm, isCustomEndpoint, hd, slotOf] at ho ⊢

omit [FastApi] in
/-- What the activated plugin lists of its modules. -/
theorem listed_activated {objects : Obj → Decorated} {imported : Str → Option Namespace} {pyFiles : List (List Str)}
    {a : Attempt} (hl : a.loaded = (loadDecoratedFunctions objects imported pyFiles).loaded objects)
    (hr : a.returns = true) (p : Plugin) (x : Slot) :
    Importing.listed (p.activate a).1 x = ((bound imported pyFiles).filterMap (slotOf objects)).count x := by
  rw [listed_activate hr, hl, listed_load, List.count_filterMap]
  refine List.countP_congr fun o _ => ?_
  simp

/-- What the plugin lists once is merged once exactly if no plugin that was active lists it. -/
theorem listedIn_activated {s : State} {id : Str} {p : Plugin} (hs : ∀ i q, s.plugins.get? i = some q → q.id = i)
    (hp : s.plugins.get? id = some p) (hid : id ∉ s.activePlugins) {a : Attempt} (hr : a.returns = true) (d : Bool)
    {x : Slot} (hx : Importing.listed (p.activate a).1 x = 1) : listedIn (togglePlugin s id a d).1 x = 1 ↔
      ∀ i q, i ∈ s.activePlugins → s.plugins.get? i = some q → Importing.listed q x = 0 := by
  obtain ⟨hplugins, hactive, hmerged⟩ := toggle_activated hp hid hr d
  have hids : ∀ i q, (togglePlugin s id a d).1.plugins.get? i = some q → q.id = i := by
    rw [hplugins]
    exact ids_set hs ((activate_id p a).trans (hs id p hp))
  have hget : (togglePlugin s id a d).1.plugins.get? id = some (p.activate a).1 := by
    rw [hplugins, Dict.get?_set_self]
  rw [listedIn_eq_one hmerged hids hget (by simp [hactive]) hx, hplugins, hactive]
  constructor
  · intro h i q hi hq
    have hne : i ≠ id := fun e => hid (e ▸ hi)
    exact h i q hne (List.mem_append_left _ hi) (by rwa [Dict.get?_set_of_ne _ _ hne])
  · intro h i q hne hi hq
    rw [Dict.get?_set_of_ne _ _ hne] at hq
    exact h i q ((List.mem_append.mp hi).resolve_right fun e => hne (List.mem_singleton.mp e)) hq

omit [FastApi] in
/-- A hook that is merged once is called once. -/
theorem called_once {s : State} {h : Hook} (hone : listedIn s (.hook h.name h.function) = 1) {V : Type} [Deepcopy V]
    {code : Code V} {pluginId : Hook → Str} {args : List Ref} {heap : Heap V} (hm : Mild code)
    (hpl : ∀ hook ∈ (s.hooks.get? h.name).getD [], pluginId hook ∈ s.plugins) (hargs : ∀ r ∈ args, r < heap.length) :
    (tracedHook s pluginId code h.name args heap).2.count h.function = 1 := by
  rw [listedIn] at hone
  cases hg : s.hooks.get? h.name with
  | none =>
    rw [hg] at hone
    simp at hone
  | some hooks =>
    rw [hg, Option.getD_some] at hone hpl
    rw [tracedHook_snd hm hg hpl hargs, List.count_eq_countP, List.countP_map, ← hone]
    refine List.countP_congr fun hook _ => ?_
    simp

/-- After an activation that returns, each decorated object is there exactly once, and each hook is called exactly
once, exactly when no two names are bound to one of them and no other active plugin has it. -/
theorem exactly_once_iff {objects : Obj → Decorated} {imported : Str → Option Namespace} {pyFiles : List (List Str)}
    {s : State} {id : Str} {p : Plugin} (hs : ∀ i q, s.plugins.get? i = some q → q.id = i)
    (hp : s.plugins.get? id = some p) (hid : id ∉ s.activePlugins) {a : Attempt}
    (hl : a.loaded = (loadDecoratedFunctions objects imported pyFiles).loaded objects)
    (hr : a.returns = true) (d : Bool) :
    ExactlyOnce objects (togglePlugin s id a d).1 id (loadDecoratedFunctions objects imported pyFiles)
        (bound imported pyFiles) ↔
      ((bound imported pyFiles).filterMap (slotOf objects)).Nodup ∧
        ∀ o ∈ bound imported pyFiles, ∀ x, slotOf objects o = some x →
          ∀ i q, i ∈ s.activePlugins → s.plugins.get? i = some q → Importing.listed q x = 0 := by
  have hget : (togglePlugin s id a d).1.plugins.get? id = some (p.activate a).1 := by
    rw [(toggle_activated hp hid hr d).1, Dict.get?_set_self]
  have hcount (x : Slot) := listed_activated hl hr p x
  constructor
  · intro h
    refine ⟨List.nodup_iff_count_le_one.mpr fun x => ?_, fun o ho x hx => ?_⟩
    · by_cases hm : x ∈ (bound imported pyFiles).filterMap (slotOf objects)
      · obtain ⟨o, ho, hx⟩ := List.mem_filterMap.mp hm
        obtain ⟨⟨q, hq, hone⟩, -⟩ := h.listed o ho x hx
        rw [hget] at hq
        rw [← hcount, Option.some.inj hq, hone]
      · rw [List.count_eq_zero.mpr hm]
        exact Nat.zero_le 1
    · obtain ⟨⟨q, hq, hone⟩, hin⟩ := h.listed o ho x hx
      rw [hget] at hq
      exact (listedIn_activated hs hp hid hr d (Option.some.inj hq ▸ hone)).mp hin
  · rintro ⟨hnd, hapart⟩
    have hone : ∀ o ∈ bound imported pyFiles, ∀ x, slotOf objects o = some x → Importing.listed (p.activate a).1 x = 1 :=
      fun o ho x hx => by
        rw [hcount]
        exact List.count_eq_one_of_mem hnd (List.mem_filterMap.mpr ⟨o, ho, hx⟩)
    have hin : ∀ o ∈ bound imported pyFiles, ∀ x, slotOf objects o = some x → listedIn (togglePlugin s id a d).1 x = 1 :=
      fun o ho x hx => (listedIn_activated hs hp hid hr d (hone o ho x hx)).mpr (hapart o ho x hx)
    refine ⟨fun o ho hslot => ?_, fun o ho x hx => ⟨⟨_, hget, hone o ho x hx⟩, hin o ho x hx⟩,
      fun o ho h hh V _ code pluginId args heap hm hpl hargs =>
        called_once (hin o ho (.hook h.name h.function) (by rw [slotOf, hh])) hm hpl hargs⟩
    obtain ⟨x, hx⟩ := Option.ne_none_iff_exists'.mp hslot
    have hle : (bound imported pyFiles).count o ≤ ((bound imported pyFiles).filterMap (slotOf objects)).count x := by
      rw [List.count_filterMap]
      refine List.countP_mono_left fun o' _ he => ?_
      rw [beq_iff_eq.mp he, hx]
      simp
    have hge : 0 < (bound imported pyFiles).count o := List.count_pos_iff.mpr ho
    have := hone o ho x hx
    rw [hcount] at this
    rw [count_members objects imported pyFiles hslot]
    omega

end

/-! ## Two names of one tool -/

def haraFile : List Str := ["p".toList, "hara.py".toList]

def haraId : Str := ['p']

/-- Object 0 is a tool and object 1 a hook. -/
def haraObjects (o : Obj) : Decorated := if o = 0 then .tool else .hook ⟨['h'], 1, 7⟩

/-- The plugin, not active, in a MadHatter without others. -/
def haraState : State := { State.blank [] none with plugins := Dict.empty.set haraId (.new haraId) }

theorem haraState_ids (i : Str) (p : Plugin) (hp : haraState.plugins.get? i = some p) : p.id = i := by
  rw [haraState, Dict.get?_set] at hp
  split at hp
  · rename_i he
    rw [← Option.some.inj hp, he]
    rfl
  · cases hp

/-- An activation that returns. -/
def activating (ns : Namespace) : Attempt :=
  ⟨true, (loadDecoratedFunctions haraObjects (fun _ => some ns) [haraFile]).loaded haraObjects, true, true⟩

theorem activating_returns (ns : Namespace) : (activating ns).returns = true := by
  simp [Attempt.returns, activating]

/-- Each object under one name. -/
def plainNames : Namespace := (Dict.empty.set "show_scenarios".toList 0).set "rail".toList 1

/-- The tool under two names, as in the HARA plugin. -/
def aliasedNames : Namespace := plainNames.set "show_situations".toList 0

theorem exactly_once_plain : ExactlyOnce haraObjects (togglePlugin haraState haraId (activating plainNames) true).1 haraId
    (loadDecoratedFunctions haraObjects (fun _ => some plainNames) [haraFile]) (bound (fun _ => some plainNames) [haraFile]) :=
  (exactly_once_iff haraState_ids (Dict.get?_set_self _ _ _) List.not_mem_nil rfl (activating_returns _) true).mpr
    ⟨by decide, fun _ _ _ _ _ _ hi => absurd hi List.not_mem_nil⟩

/-- The plugin and the MadHatter list the tool twice. -/
theorem aliased_tool_twice :
    (∃ p, (togglePlugin haraState haraId (activating aliasedNames) true).1.plugins.get? haraId = some p ∧
      p.tools.count 0 = 2) ∧
    ¬ExactlyOnce haraObjects (togglePlugin haraState haraId (activating aliasedNames) true).1 haraId
      (loadDecoratedFunctions haraObjects (fun _ => some aliasedNames) [haraFile])
      (bound (fun _ => some aliasedNames) [haraFile]) := by
  obtain ⟨hplugins, -, -⟩ := toggle_activated (s := haraState) (p := .new haraId) (Dict.get?_set_self _ _ _)
    List.not_mem_nil (activating_returns aliasedNames) true
  have hget : (togglePlugin haraState haraId (activating aliasedNames) true).1.plugins.get? haraId =
      some ((Plugin.new haraId).activate (activating aliasedNames)).1 := by
    rw [hplugins, Dict.get?_set_self]
  have htwice : listed ((Plugin.new haraId).activate (activating aliasedNames)).1 (.tool 0) = 2 := by
    rw [listed_activate (activating_returns _)]
    exact (listed_load haraObjects (fun _ => some aliasedNames) (.new haraId) [haraFile] (.tool 0)).trans (by decide)
  refine ⟨⟨_, hget, htwice⟩, fun h => ?_⟩
  obtain ⟨⟨p, hp, hone⟩, -⟩ := h.listed 0 (by decide) (.tool 0) (by decide)
  rw [hget] at hp
  rw [← Option.some.inj hp, htwice] at hone
  exact absurd hone (by decide)

end KCore.MadHatter.Importing
