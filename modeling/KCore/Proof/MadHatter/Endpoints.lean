import KCore.Proof.MadHatter.Active

/-!
# The app's routes and the endpoints of the active plugins

Activating an endpoint appends a route unless there is one with its path and methods;
deactivating it removes the first such route, whoever registered it. Both raise at a route
of the path that has no methods. The app's routes are the core's, then routes of the active
plugins, which serve all their endpoints (`Wired`). A call that activates no plugin with an
endpoint at such a route, deactivates none with an endpoint on a core route or with methods
not in upper case, and installs over no active plugin that registered a route, keeps this
(`step_wired`), so every run of such calls does (`endpoints_run_ok`).
-/

namespace KCore.MadHatter

open Text

/-- `e` is an endpoint of the plugin of this id, which is active. -/
def State.Offers (s : State) (id : Str) (e : CustomEndpoint) : Prop :=
  id ∈ s.activePlugins ∧ ∃ p, s.plugins.get? id = some p ∧ e ∈ p.endpoints

section

variable [FastApi]

/-- A route with the endpoint's path and methods, whoever registered it. -/
def CustomEndpoint.ServedBy (e : CustomEndpoint) (r : Route) : Prop :=
  r.path = e.name ∧ (r.methods = some e.methods ∨ r.methods = some (FastApi.methods e.methods))

/-- FastAPI keeps the endpoint's methods as they are: they are in upper case. -/
def CustomEndpoint.Verbatim (e : CustomEndpoint) : Prop := FastApi.methods e.methods = e.methods

instance (e : CustomEndpoint) : Decidable e.Verbatim := inferInstanceAs (Decidable (_ = _))

/-- No core route of the endpoint's path is without methods, unless one with its path and methods comes before. -/
def CustomEndpoint.Clear (core : List Route) (e : CustomEndpoint) : Prop := e.search core ≠ none

instance (core : List Route) (e : CustomEndpoint) : Decidable (e.Clear core) := inferInstanceAs (Decidable (_ ≠ none))

/-- The app has the core routes, a route for every endpoint of every active plugin, and no route that a
plugin registered which is not active. -/
structure Routed (core : List Route) (s : State) : Prop where
  core : core.Sublist s.app.routes
  served : ∀ id e, s.Offers id e → ∃ r ∈ s.app.routes, e.ServedBy r
  active : ∀ r ∈ s.app.routes, ∀ id, r.pluginId = some id → id ∈ s.activePlugins

/-- Deactivating the plugin, where its override returns, removes all its routes and no core route. -/
def Frees (core : List Route) (s : State) (id : Str) (deactivation : Bool) : Prop :=
  ∀ p ∈ s.plugins.get? id, p.refuses deactivation = false → ∀ e ∈ p.endpoints, e.Verbatim ∧ ∀ r ∈ core, e.matches r = false

/-- The endpoints that an activation loads which returns are clear. -/
def Attempt.Clear (core : List Route) (a : Attempt) : Prop := a.returns = true → ∀ e ∈ a.loaded.endpoints, e.Clear core

/-- An activated plugin has clear endpoints; a deactivated one has no endpoint on a core route and none whose
methods are not in upper case; the active plugin installed over has registered no route. A search for plugins
is no step of these runs. -/
def Spares (core : List Route) (s : State) : Call → Prop
  | .install id extracted isPlugin a d => extracted = true → if id ∈ s.activePlugins then
      if isPlugin then ∀ r ∈ s.app.routes, r.pluginId ≠ some id else Frees core s id d
    else a.Clear core
  | .toggle id a d => if id ∈ s.activePlugins then Frees core s id d else a.Clear core
  | .uninstall id d _ => id ≠ corePlugin → id ∈ s.activePlugins → Frees core s id d
  | .find _ => False
  | .attach => False

instance (core : List Route) (s : State) (id : Str) (d : Bool) : Decidable (Frees core s id d) :=
  inferInstanceAs (Decidable (∀ p ∈ s.plugins.get? id, _ → ∀ e ∈ p.endpoints, _ ∧ ∀ r ∈ core, _))

instance (core : List Route) (a : Attempt) : Decidable (a.Clear core) :=
  inferInstanceAs (Decidable (_ → ∀ e ∈ a.loaded.endpoints, e.Clear core))

instance (core : List Route) : ∀ (s : State) (c : Call), Decidable (Spares core s c)
  | s, .install id _ isPlugin a d =>
    inferInstanceAs (Decidable (_ → if id ∈ s.activePlugins then
      if isPlugin then ∀ r ∈ s.app.routes, r.pluginId ≠ some id else Frees core s id d else a.Clear core))
  | s, .toggle id a d => inferInstanceAs (Decidable (if id ∈ s.activePlugins then Frees core s id d else a.Clear core))
  | s, .uninstall id d _ => inferInstanceAs (Decidable (id ≠ corePlugin → id ∈ s.activePlugins → Frees core s id d))
  | _, .find _ => inferInstanceAs (Decidable False)
  | _, .attach => inferInstanceAs (Decidable False)

end

/-! ## Plugins and their endpoints -/

/-- The plugin has this id, and its endpoints are of it. -/
def Plugin.Labelled (p : Plugin) (id : Str) : Prop := p.id = id ∧ ∀ e ∈ p.endpoints, e.pluginId = id

variable {core own : List Route} {app : App} {s : State}

/-- The merged endpoints are those that the active plugins offer. -/
theorem mem_endpoints (h : ∀ id p, s.plugins.get? id = some p → p.Labelled id) {e : CustomEndpoint} :
    e ∈ s.activeOnes.flatMap Plugin.endpoints ↔ ∃ id, s.Offers id e := by
  simp only [List.mem_flatMap, State.activeOnes, List.mem_filter, Dict.mem_values, decide_eq_true_eq]
  constructor
  · rintro ⟨p, ⟨⟨id, hp⟩, hactive⟩, he⟩
    exact ⟨id, (h id p hp).1 ▸ hactive, p, hp, he⟩
  · rintro ⟨id, hactive, p, hp, he⟩
    exact ⟨p, ⟨⟨id, hp⟩, (h id p hp).1.symm ▸ hactive⟩, he⟩

theorem activate_labels {p : Plugin} (a : Attempt) {id : Str} (h : p.Labelled id) : (p.activate a).1.Labelled id := by
  have hload : ∀ e ∈ (p.load a.loaded).endpoints, e.pluginId = id := by
    intro e he
    obtain ⟨e', -, rfl⟩ := List.mem_map.mp he
    exact h.1
  refine ⟨(activate_id p a).trans h.1, ?_⟩
  rw [Plugin.activate]
  split
  · exact h.2
  · split
    · exact hload
    · exact hload

theorem matches_iff {e : CustomEndpoint} {r : Route} :
    e.matches r = true ↔ r.path = e.name ∧ r.methods = some e.methods := by
  rw [CustomEndpoint.matches, Bool.and_eq_true, beq_iff_eq, beq_iff_eq]

/-! ## The search for a route -/

/-- The search raises, or says whether a route matches. -/
theorem search_spec (e : CustomEndpoint) (routes : List Route) {found : Bool} (h : e.search routes = some found) :
    routes.any e.matches = found := by
  fun_induction e.search routes with
  | case1 => exact Option.some.inj h
  | case2 => cases h
  | case3 r routes hpath hr =>
    rw [List.any_cons, matches_iff.mpr ⟨hpath, hr⟩, Bool.true_or]
    exact Option.some.inj h
  | case4 r routes hpath methods hr hm ih =>
    have hno : e.matches r = false := by
      rw [← Bool.not_eq_true, matches_iff]
      rintro ⟨-, h'⟩
      exact hm (Option.some.inj (hr.symm.trans h'))
    rw [List.any_cons, hno, Bool.false_or, ih h]
  | case5 r routes hpath ih =>
    have hno : e.matches r = false := by
      rw [← Bool.not_eq_true, matches_iff]
      exact fun h' => hpath h'.1
    rw [List.any_cons, hno, Bool.false_or, ih h]

/-- Routes with methods do not make it raise. -/
theorem search_append (e : CustomEndpoint) (core : List Route) {own : List Route} (hown : ∀ r ∈ own, r.methods ≠ none) :
    e.search (core ++ own) = none ↔ e.search core = none := by
  fun_induction e.search core with
  | case1 =>
    rw [List.nil_append]
    refine iff_of_false ?_ (Option.some_ne_none false)
    fun_induction e.search own with
    | case1 => exact Option.some_ne_none false
    | case2 r own _ hr => exact absurd hr (hown r (.head _))
    | case3 => exact Option.some_ne_none true
    | case4 _ _ _ _ _ _ ih | case5 _ _ _ ih => exact ih fun r hr => hown r (.tail _ hr)
  | case2 r routes hpath hr => simp [CustomEndpoint.search, hpath, hr]
  | case3 r routes hpath hr => simp [CustomEndpoint.search, hpath, hr]
  | case4 r routes hpath methods hr hm ih => simpa [CustomEndpoint.search, hpath, hr, hm] using ih
  | case5 r routes hpath ih => simpa [CustomEndpoint.search, hpath] using ih

theorem search_label (e : CustomEndpoint) (id : Str) (routes : List Route) :
    CustomEndpoint.search { e with pluginId := id } routes = e.search routes := by
  induction routes with
  | nil => rfl
  | cons r routes ih => simp only [CustomEndpoint.search, ih]

/-- Deactivated, clear endpoints without a core route leave a part of the plugins' routes; one of them that is
left with the path and methods of such an endpoint came after another. -/
theorem forEach_deactivate {R : Route → Route → Prop} : ∀ {es : List CustomEndpoint} {app : App} {own : List Route},
    app.routes = core ++ own → (∀ r ∈ own, r.methods ≠ none) →
    (∀ e ∈ es, app.bound e.obj = true ∧ e.Clear core ∧ ∀ r ∈ core, e.matches r = false) → own.Pairwise R →
    ∃ app' own', forEachEndpoint CustomEndpoint.deactivate es app = (app', true) ∧ app'.routes = core ++ own' ∧
      own'.Sublist own ∧ ∀ e ∈ es, ∀ r ∈ own', e.matches r = true → ∃ r', e.matches r' = true ∧ R r' r
  | [], app, own, happ, _, _, _ => ⟨app, own, rfl, happ, .refl _, nofun⟩
  | e :: es, app, own, happ, hown, he, hR => by
    obtain ⟨hbound, hclear, hcore⟩ := he e (.head _)
    have hdeactivate : e.deactivate app = ({ app with routes := core ++ own.eraseP e.matches }, true) := by
      obtain ⟨found, hfound⟩ := Option.ne_none_iff_exists'.mp (mt (search_append e core hown).mp hclear)
      rw [CustomEndpoint.deactivate, if_pos hbound, happ, hfound]
      simp only [List.eraseP_append_right _ fun r hr => Bool.not_eq_true _ ▸ hcore r hr]
    have hsub : (own.eraseP e.matches).Sublist own := List.eraseP_sublist
    obtain ⟨app', own', hes, happ', hsub', hleft⟩ := forEach_deactivate (show App.routes { app with
      routes := core ++ own.eraseP e.matches } = _ from rfl) (fun r hr => hown r (hsub.subset hr))
      (fun e' he' => he e' (.tail _ he')) (hR.sublist hsub)
    refine ⟨app', own', ?_, happ', hsub'.trans hsub, fun e' he' r hr hm => ?_⟩
    · simp only [forEachEndpoint, hdeactivate, hes]
    rcases List.mem_cons.mp he' with rfl | he'
    · obtain ⟨r', l₁, l₂, hl₁, hr', heq, herase⟩ := List.exists_of_eraseP (hsub.subset (hsub'.subset hr)) hm
      have hr₂ : r ∈ l₁ ++ l₂ := herase ▸ hsub'.subset hr
      rw [heq, List.pairwise_append, List.pairwise_cons] at hR
      exact ⟨r', hr', hR.2.1.1 r ((List.mem_append.mp hr₂).resolve_left fun h₁ => hl₁ r h₁ hm)⟩
    · exact hleft e' he' r hr hm

section

variable [FastApi] {offers : Str → CustomEndpoint → Prop}

/-! ## Routes -/

/-- The routes that plugins registered, given the endpoints that the active ones offer: of two with one
path and methods, the later is there because its plugin has an endpoint whose methods are not in upper case. -/
structure Registered (offers : Str → CustomEndpoint → Prop) (own : List Route) : Prop where
  offered : ∀ r ∈ own, ∃ e, offers e.pluginId e ∧ r = e.route
  apart : own.Pairwise fun r r' => r'.path = r.path → r'.methods = r.methods →
    ∃ id e, r'.pluginId = some id ∧ offers id e ∧ ¬e.Verbatim

/-- The endpoint knows the app and has a route. -/
def Up (e : CustomEndpoint) (app : App) : Prop := app.bound e.obj = true ∧ ∃ r ∈ app.routes, e.ServedBy r

theorem Registered.methods (h : Registered offers own) : ∀ r ∈ own, r.methods ≠ none := by
  intro r hr
  obtain ⟨e, -, rfl⟩ := h.offered r hr
  exact Option.some_ne_none _

/-- An endpoint at a route without methods is not activated. -/
theorem activate_raises {e : CustomEndpoint} (happ : app.routes = core ++ own) (h : Registered offers own)
    (hclear : ¬e.Clear core) : (e.activate app).2 = false := by
  have hraises : e.search app.routes = none := by
    rw [happ, search_append e core h.methods]
    exact not_not.mp hclear
  simp only [CustomEndpoint.activate, hraises]

/-- Activating a clear endpoint puts it up, and leaves up what is so. -/
theorem activate_registered {e : CustomEndpoint} (happ : app.routes = core ++ own) (h : Registered offers own)
    (he : offers e.pluginId e) (hclear : e.Clear core) :
    ∃ app' own', e.activate app = (app', true) ∧ app'.routes = core ++ own' ∧ Registered offers own' ∧ Up e app' ∧
      ∀ e', Up e' app → Up e' app' := by
  have hbound (e' : CustomEndpoint) (hb : app.bound e'.obj = true) : Function.update app.bound e.obj true e'.obj = true := by
    rw [Function.update_apply]
    split
    · rfl
    · exact hb
  obtain ⟨found, hfound⟩ := Option.ne_none_iff_exists'.mp (mt (search_append e core h.methods).mp hclear)
  rw [← happ] at hfound
  have hany := search_spec e app.routes hfound
  cases found with
  | true =>
    refine ⟨{ app with bound := Function.update app.bound e.obj true }, own, ?_, happ, h, ?_, ?_⟩
    · simp only [CustomEndpoint.activate, hfound]
    · obtain ⟨r, hr, hm⟩ := List.any_eq_true.mp hany
      obtain ⟨hpath, hmethods⟩ := matches_iff.mp hm
      exact ⟨Function.update_self .., r, hr, hpath, .inl hmethods⟩
    · exact fun e' ⟨hb, hserved⟩ => ⟨hbound e' hb, hserved⟩
  | false =>
    refine ⟨⟨app.routes ++ [e.route], Function.update app.bound e.obj true⟩, own ++ [e.route], ?_, ?_, ⟨?_, ?_⟩, ?_, ?_⟩
    · simp only [CustomEndpoint.activate, hfound]
    · rw [happ, List.append_assoc]
    · intro r hr
      rw [List.mem_append, List.mem_singleton] at hr
      rcases hr with hr | rfl
      · exact h.offered r hr
      · exact ⟨e, he, rfl⟩
    · rw [List.pairwise_append]
      refine ⟨h.apart, List.pairwise_singleton _ _, fun r hr r' hr' hpath hmethods => ?_⟩
      obtain rfl := List.mem_singleton.mp hr'
      refine ⟨e.pluginId, e, rfl, he, fun hupper => ?_⟩
      -- in upper case the methods are those of the route that is there
      have hm : e.matches r = true := matches_iff.mpr ⟨hpath.symm, hmethods.symm.trans (congrArg some hupper)⟩
      exact List.any_eq_false.mp hany r (happ ▸ List.mem_append_right core hr) hm
    · exact ⟨Function.update_self .., e.route, List.mem_append_right _ (.head _), rfl, .inr rfl⟩
    · exact fun e' ⟨hb, r, hr, hserved⟩ => ⟨hbound e' hb, r, List.mem_append_left _ hr, hserved⟩

/-- The activation of an active plugin's endpoint, as the callback has it. -/
def activateOf (active : List Str) (e : CustomEndpoint) (app : App) : App × Bool :=
  if e.pluginId ∈ active then e.activate app else (app, true)

theorem forEach_activate {active : List Str} : ∀ {es : List CustomEndpoint} {app : App} {own : List Route},
    app.routes = core ++ own → Registered offers own →
    (∀ e ∈ es, e.pluginId ∈ active ∧ offers e.pluginId e ∧ e.Clear core) →
    ∃ app' own', forEachEndpoint (activateOf active) es app = (app', true) ∧ app'.routes = core ++ own' ∧
      Registered offers own' ∧ (∀ e ∈ es, Up e app') ∧ ∀ e, Up e app → Up e app'
  | [], app, own, happ, h, _ => ⟨app, own, rfl, happ, h, nofun, fun _ hup => hup⟩
  | e :: es, app, own, happ, h, he => by
    obtain ⟨hactive, hoffers, hclear⟩ := he e (.head _)
    obtain ⟨app₁, own₁, he₁, happ₁, h₁, hup₁, hkept₁⟩ := activate_registered happ h hoffers hclear
    obtain ⟨app', own', hes, happ', h', hall, hkept⟩ := forEach_activate happ₁ h₁ fun e' he' => he e' (.tail _ he')
    refine ⟨app', own', ?_, happ', h', fun e' he' => ?_, fun e' hup => hkept e' (hkept₁ e' hup)⟩
    · simp only [forEachEndpoint, activateOf, if_pos hactive, he₁]
      exact hes
    · rcases List.mem_cons.mp he' with rfl | he'
      · exact hkept _ hup₁
      · exact hall e' he'

/-- The callback returns only where all endpoints are clear. -/
theorem clear_of_returned {active : List Str} : ∀ {es : List CustomEndpoint} {app : App} {own : List Route},
    app.routes = core ++ own → Registered offers own → (∀ e ∈ es, e.pluginId ∈ active ∧ offers e.pluginId e) →
    (forEachEndpoint (activateOf active) es app).2 = true → ∀ e ∈ es, e.Clear core
  | [], _, _, _, _, _, _ => nofun
  | e :: es, app, own, happ, h, he, hr => by
    obtain ⟨hactive, hoffers⟩ := he e (.head _)
    have hclear : e.Clear core := by
      by_contra hn
      have hraises := activate_raises happ h hn
      simp only [forEachEndpoint, activateOf, if_pos hactive] at hr
      split at hr
      · cases hr
      · rename_i hreturns
        rw [hreturns] at hraises
        cases hraises
    obtain ⟨app₁, own₁, he₁, happ₁, h₁, -⟩ := activate_registered happ h hoffers hclear
    simp only [forEachEndpoint, activateOf, if_pos hactive, he₁] at hr
    have hrest := clear_of_returned happ₁ h₁ (fun e' he' => he e' (.tail _ he')) hr
    exact List.forall_mem_cons.mpr ⟨hclear, hrest⟩

/-! ## States -/

/-- The app's routes are the core's and the active plugins'. -/
structure Backed (core : List Route) (s : State) : Prop where
  labels : ∀ id p, s.plugins.get? id = some p → p.Labelled id
  callback : s.callback = true
  clear : ∀ id e, s.Offers id e → e.Clear core
  routes : ∃ own, s.app.routes = core ++ own ∧ Registered s.Offers own

/-- And they serve the endpoints of all active plugins. -/
structure Wired (core : List Route) (s : State) : Prop extends Backed core s where
  up : ∀ id e, s.Offers id e → Up e s.app

theorem Wired.routed (h : Wired core s) (hcore : ∀ r ∈ core, r.pluginId = none) : Routed core s := by
  obtain ⟨own, happ, hown⟩ := h.routes
  refine ⟨?_, fun id e he => (h.up id e he).2, fun r hr id hid => ?_⟩
  · rw [happ]
    exact List.sublist_append_left core own
  · rw [happ, List.mem_append] at hr
    rcases hr with hr | hr
    · simp [hcore r hr] at hid
    · obtain ⟨e, he, rfl⟩ := hown.offered r hr
      exact Option.some.inj hid ▸ he.1

omit [FastApi] in
theorem State.Offers.of_merged (hlabels : ∀ id p, s.plugins.get? id = some p → p.Labelled id)
    (hs : s.endpoints = s.activeOnes.flatMap Plugin.endpoints) {e : CustomEndpoint} (he : e ∈ s.endpoints) :
    e.pluginId ∈ s.activePlugins ∧ s.Offers e.pluginId e := by
  obtain ⟨id, hactive, p, hp, hmem⟩ := (mem_endpoints hlabels).mp (hs ▸ he)
  rw [(hlabels id p hp).2 e hmem]
  exact ⟨hactive, hactive, p, hp, hmem⟩

/-- The callback activates the endpoints of the active plugins, and returns. -/
theorem activateEndpoints_wired (h : Backed core s) (hs : s.endpoints = s.activeOnes.flatMap Plugin.endpoints) :
    Wired core (activateEndpoints s).1 := by
  obtain ⟨own, happ, hown⟩ := h.routes
  have hes (e : CustomEndpoint) (he : e ∈ s.endpoints) :
      e.pluginId ∈ s.activePlugins ∧ s.Offers e.pluginId e ∧ e.Clear core := by
    obtain ⟨hactive, hoffers⟩ := State.Offers.of_merged h.labels hs he
    exact ⟨hactive, hoffers, h.clear _ e hoffers⟩
  obtain ⟨app', own', hreturns, happ', hown', hup, -⟩ := forEach_activate happ hown hes
  have hstate : activateEndpoints s = ({ s with app := app' }, true) := by
    simp only [activateEndpoints]
    exact congrArg (fun r : App × Bool => ({ s with app := r.1 }, r.2)) hreturns
  rw [hstate]
  refine ⟨⟨h.labels, h.callback, h.clear, own', happ', hown'⟩, fun id e he => hup e ?_⟩
  rw [hs, mem_endpoints h.labels]
  exact ⟨id, he⟩

theorem sync_wired (h : Backed core s) : Wired core (syncHooksToolsAndForms s).1 := by
  simp only [syncHooksToolsAndForms, h.callback, if_true]
  exact activateEndpoints_wired ⟨h.labels, rfl, h.clear, h.routes⟩ rfl

/-- Registered routes stay so while the plugins that registered them offer the same. -/
theorem Registered.mono {offers' : Str → CustomEndpoint → Prop} {own' : List Route} (h : Registered offers own)
    (hsub : own'.Sublist own) (hoffers : ∀ r ∈ own', ∀ id, r.pluginId = some id → ∀ e, offers id e → offers' id e) :
    Registered offers' own' := by
  refine ⟨fun r hr => ?_, (h.apart.sublist hsub).imp_of_mem fun _ hr' hR hpath hmethods => ?_⟩
  · obtain ⟨e, he, rfl⟩ := h.offered r (hsub.subset hr)
    exact ⟨e, hoffers _ hr _ rfl e he, rfl⟩
  · obtain ⟨id, e, hid, he, hlower⟩ := hR hpath hmethods
    exact ⟨id, e, hid, hoffers _ hr' id hid e he, hlower⟩

/-- A plugin without routes may be put in or taken out, and made active or not; active, its endpoints are clear. -/
theorem Backed.replug (h : Backed core s) {id : Str} {ps : Dict Str Plugin} {active : List Str} {app : App}
    {own' : List Route} (hps : ∀ id', id' ≠ id → ps.get? id' = s.plugins.get? id')
    (hid : ∀ p, ps.get? id = some p → p.Labelled id)
    (hactive : ∀ id', id' ≠ id → (id' ∈ active ↔ id' ∈ s.activePlugins))
    (hclear : id ∈ active → ∀ p, ps.get? id = some p → ∀ e ∈ p.endpoints, e.Clear core)
    (happ : app.routes = core ++ own') (hown : Registered s.Offers own) (hsub : own'.Sublist own)
    (hno : ∀ r ∈ own', r.pluginId ≠ some id) :
    Backed core { s with plugins := ps, activePlugins := active, app := app } := by
  refine ⟨fun id' p hp => ?_, h.callback, fun id' e he => ?_, own', happ, hown.mono hsub fun r hr id' hr' e he => ?_⟩
  · by_cases heq : id' = id
    · subst heq
      exact hid p hp
    · exact h.labels id' p ((hps id' heq).symm.trans hp)
  · obtain ⟨hmem, p, hp, hpe⟩ := he
    by_cases heq : id' = id
    · subst heq
      exact hclear hmem p hp e hpe
    · exact h.clear id' e ⟨(hactive id' heq).mp hmem, p, (hps id' heq).symm.trans hp, hpe⟩
  · have hne : id' ≠ id := fun heq => hno r hr (heq ▸ hr')
    obtain ⟨hmem, p, hp, hpe⟩ := he
    exact ⟨(hactive id' hne).mpr hmem, p, (hps id' hne).trans hp, hpe⟩

/-- The same where the app and the active list stay, for a plugin that is not active or has no endpoint. -/
theorem Wired.replug (h : Wired core s) {id : Str} {ps : Dict Str Plugin}
    (hps : ∀ id', id' ≠ id → ps.get? id' = s.plugins.get? id')
    (hid : ∀ p, ps.get? id = some p → p.Labelled id)
    (hno : ∀ r ∈ s.app.routes, r.pluginId ≠ some id)
    (hnone : id ∈ s.activePlugins → ∀ p, ps.get? id = some p → p.endpoints = []) :
    Wired core { s with plugins := ps } := by
  obtain ⟨own, happ, hown⟩ := h.routes
  have hno' (r : Route) (hr : r ∈ own) : r.pluginId ≠ some id := hno r (happ ▸ List.mem_append_right core hr)
  refine ⟨h.toBacked.replug hps hid (fun _ _ => Iff.rfl) (fun hmem p hp e he => ?_) happ hown (.refl own) hno',
    fun id' e he => ?_⟩
  · rw [hnone hmem p hp] at he
    cases he
  · obtain ⟨hmem, p, hp, hpe⟩ := he
    by_cases heq : id' = id
    · subst heq
      rw [hnone hmem p hp] at hpe
      cases hpe
    · exact h.up id' e ⟨hmem, p, (hps id' heq).symm.trans hp, hpe⟩

theorem Wired.unregistered (h : Wired core s) (hcore : ∀ r ∈ core, r.pluginId = none) {id : Str}
    (hoffers : ∀ e, ¬s.Offers id e) : ∀ r ∈ s.app.routes, r.pluginId ≠ some id := by
  obtain ⟨own, happ, hown⟩ := h.routes
  intro r hr hid
  rw [happ, List.mem_append] at hr
  rcases hr with hr | hr
  · simp [hcore r hr] at hid
  · obtain ⟨e, he, rfl⟩ := hown.offered r hr
    exact hoffers e (Option.some.inj hid ▸ he)

/-! ## Calls -/

theorem Backed.save (h : Backed core s) : Backed core (saveActivePluginsToDb s) :=
  ⟨h.labels, h.callback, h.clear, h.routes⟩

/-- Deactivating a plugin whose override returns does not end in the midst of its endpoints; where it frees its
routes, it leaves none. -/
theorem Wired.deactivate (h : Wired core s) {id : Str} {p : Plugin} {d : Bool} (hp : s.plugins.get? id = some p)
    (hactive : id ∈ s.activePlugins) (hc : Frees core s id d) (hd : p.refuses d = false) :
    ∃ app, p.deactivateEndpoints s.app = (app, true) ∧ Backed core { s with
      plugins := s.plugins.set id p.off, app := app, activePlugins := s.activePlugins.erase id } := by
  obtain ⟨own, happ, hown⟩ := h.routes
  have hfrees := hc p hp hd
  have hoffers (e : CustomEndpoint) (he : e ∈ p.endpoints) : s.Offers id e := ⟨hactive, p, hp, he⟩
  obtain ⟨app, own', hreturns, happ', hsub, hleft⟩ := forEach_deactivate happ hown.methods
    (fun e he => ⟨(h.up id e (hoffers e he)).1, h.clear id e (hoffers e he), (hfrees e he).2⟩) hown.apart
  have hoffered {id' : Str} {e : CustomEndpoint} (hid : id' = id) (he : s.Offers id' e) : e ∈ p.endpoints := by
    obtain ⟨-, p', hp', hmem⟩ := he
    rw [hid, hp] at hp'
    exact Option.some.inj hp' ▸ hmem
  have hoff (q : Plugin) (hq : (s.plugins.set id p.off).get? id = some q) : q = p.off := by
    rw [Dict.get?_set_self] at hq
    exact (Option.some.inj hq).symm
  refine ⟨app, hreturns, h.toBacked.replug (fun id' hne => Dict.get?_set_of_ne _ _ hne) (fun q hq => ?_)
    (fun id' hne => List.mem_erase_of_ne hne) (fun _ q hq e he => ?_) happ' hown hsub fun r hr hid => ?_⟩
  · rw [hoff q hq]
    exact ⟨(h.labels id p hp).1, fun _ he => absurd he List.not_mem_nil⟩
  · rw [hoff q hq] at he
    cases he
  · -- a route of its own that is left came after another of the same path and methods
    obtain ⟨e, he, rfl⟩ := hown.offered r (hsub.subset hr)
    have hmem := hoffered (Option.some.inj hid) he
    have hm : e.matches e.route = true := matches_iff.mpr ⟨rfl, congrArg some (hfrees e hmem).1⟩
    obtain ⟨r', hr', hR⟩ := hleft e hmem e.route hr hm
    obtain ⟨hpath, hmethods⟩ := matches_iff.mp hr'
    obtain ⟨id', e', hid', he', hlower⟩ := hR hpath.symm ((matches_iff.mp hm).2.trans hmethods.symm)
    exact hlower (hfrees e' (hoffered (Option.some.inj (hid'.symm.trans hid)) he')).1

omit [FastApi] in
/-- An activation that returns has loaded its endpoints. -/
theorem activate_clear {p : Plugin} {a : Attempt} (h : a.Clear core) (hr : a.returns = true) :
    ∀ e ∈ (p.activate a).1.endpoints, e.Clear core := by
  have hflags := hr
  rw [Attempt.returns, Bool.and_eq_true, Bool.and_eq_true] at hflags
  rw [Plugin.activate, if_neg (by simp [hflags]), if_neg (by simp [hflags])]
  intro e he
  obtain ⟨e', he', rfl⟩ := List.mem_map.mp he
  rw [CustomEndpoint.Clear, search_label]
  exact h hr e' he'

theorem toggle_wired (h : Wired core s) (hcore : ∀ r ∈ core, r.pluginId = none) {id : Str} {a : Attempt} {d : Bool}
    (hc : if id ∈ s.activePlugins then Frees core s id d else a.Clear core) : Wired core (togglePlugin s id a d).1 := by
  have hlabels {p : Plugin} (hp : s.plugins.get? id = some p) (q : Plugin)
      (hq : (s.plugins.set id (p.activate a).1).get? id = some q) : q.Labelled id := by
    rw [Dict.get?_set_self] at hq
    exact Option.some.inj hq ▸ activate_labels a (h.labels id p hp)
  have hu := updateActivePlugins_spec s id a d
  generalize hres : updateActivePlugins s id a d = r at hu
  cases hu with
  | absent | refused =>
    rw [toggle_of_not_updated hres]
    exact h
  | broken hp hactive hd he =>
    rw [if_pos hactive] at hc
    obtain ⟨app, hreturns, -⟩ := h.deactivate hp hactive hc hd
    rw [he] at hreturns
    cases hreturns
  | deactivated hp hactive hd he =>
    rw [if_pos hactive] at hc
    obtain ⟨app, hreturns, hbacked⟩ := h.deactivate hp hactive hc hd
    rw [he] at hreturns
    obtain ⟨rfl, -⟩ := Prod.ext_iff.mp hreturns
    rw [toggle_of_updated hres]
    exact sync_wired hbacked.save
  | raised hp hactive _ =>
    have hno := h.unregistered hcore fun e (he : s.Offers id e) => hactive he.1
    rw [toggle_of_not_updated hres]
    exact h.replug (fun id' hne => Dict.get?_set_of_ne _ _ hne) (hlabels hp) hno fun hmem => absurd hmem hactive
  | activated hp hactive ha =>
    rw [if_neg hactive] at hc
    have hno := h.unregistered hcore fun e (he : s.Offers id e) => hactive he.1
    obtain ⟨own, happ, hown⟩ := h.routes
    have hno' (r : Route) (hr : r ∈ own) : r.pluginId ≠ some id := hno r (happ ▸ List.mem_append_right core hr)
    rw [toggle_of_updated hres]
    refine sync_wired (Backed.save (h.toBacked.replug (fun id' hne => Dict.get?_set_of_ne _ _ hne) (hlabels hp)
      (fun id' hne => ?_) (fun _ q hq => ?_) happ hown (.refl own) hno'))
    · simp [hne]
    · rw [Dict.get?_set_self] at hq
      exact Option.some.inj hq ▸ activate_clear hc ha

theorem load_wired (h : Wired core s) {id : Str} (hno : ∀ r ∈ s.app.routes, r.pluginId ≠ some id) :
    Wired core (loadPlugin s id true) := by
  have hnew (p : Plugin) (hp : (s.plugins.set id (.new id)).get? id = some p) : p = .new id := by
    rw [Dict.get?_set_self] at hp
    exact (Option.some.inj hp).symm
  rw [loadPlugin, if_pos rfl]
  refine h.replug (fun id' hne => Dict.get?_set_of_ne _ _ hne) (fun p hp => ?_) hno fun _ p hp => ?_
  · rw [hnew p hp]
    exact ⟨rfl, fun _ he => absurd he List.not_mem_nil⟩
  · rw [hnew p hp]
    rfl

theorem install_wired (h : Wired core s) (hcore : ∀ r ∈ core, r.pluginId = none) {id : Str}
    {extracted isPlugin : Bool} {a : Attempt} {d : Bool} (hc : Spares core s (.install id extracted isPlugin a d)) :
    Wired core (installPlugin s id extracted isPlugin a d).1 := by
  rw [installPlugin]
  cases extracted with
  | false => exact h
  | true =>
    have hc := hc rfl
    rw [if_pos rfl]
    cases isPlugin with
    | false => exact toggle_wired h hcore hc
    | true =>
      have hno : ∀ r ∈ s.app.routes, r.pluginId ≠ some id := by
        by_cases hactive : id ∈ s.activePlugins
        · rw [if_pos hactive] at hc
          exact hc
        · exact h.unregistered hcore fun e he => hactive he.1
      refine toggle_wired (load_wired h hno) hcore ?_
      by_cases hactive : id ∈ s.activePlugins
      · rw [if_pos (show id ∈ (loadPlugin s id true).activePlugins from hactive)]
        intro p hp _ e he
        -- the new object knows no endpoint
        have hnew : p = .new id := by simpa [loadPlugin] using hp.symm
        rw [hnew] at he
        cases he
      · rw [if_neg hactive] at hc
        rw [if_neg (show id ∉ (loadPlugin s id true).activePlugins from hactive)]
        exact hc

theorem toggle_offers {id : Str} {a : Attempt} {d : Bool} (hactive : id ∈ s.activePlugins)
    (hr : (togglePlugin s id a d).2 = true) (e : CustomEndpoint) : ¬(togglePlugin s id a d).1.Offers id e := by
  have hu := updateActivePlugins_spec s id a d
  generalize hres : updateActivePlugins s id a d = r at hu
  cases hu with
  | absent | refused | broken => rw [toggle_of_not_updated hres] at hr; cases hr
  | raised _ hn | activated _ hn => exact absurd hactive hn
  | deactivated =>
    rw [toggle_of_updated hres]
    rintro ⟨-, q, hq, he⟩
    simp only [sync_plugins, saveActivePluginsToDb, Dict.get?_set_self] at hq
    rw [← Option.some.inj hq] at he
    cases he

theorem erase_wired (h : Wired core s) (hcore : ∀ r ∈ core, r.pluginId = none) {id : Str}
    (hoffers : ∀ e, ¬s.Offers id e) : Wired core { s with plugins := s.plugins.erase id } := by
  have hget : (s.plugins.erase id).get? id = none := by rw [Dict.get?_erase, if_pos rfl]
  refine h.replug (fun id' hne => ?_) (fun p hp => ?_) (h.unregistered hcore hoffers) fun _ p hp => ?_
  · rw [Dict.get?_erase, if_neg hne]
  · cases hget.symm.trans hp
  · cases hget.symm.trans hp

theorem uninstall_wired (h : Wired core s) (hcore : ∀ r ∈ core, r.pluginId = none) {id : Str} {a : Attempt} {d : Bool}
    (hc : id ≠ corePlugin → id ∈ s.activePlugins → Frees core s id d) : Wired core (uninstallPlugin s id d a).1 := by
  rw [uninstallPlugin]
  split
  · rename_i hid
    by_cases hactive : id ∈ s.activePlugins
    · have htoggle : Wired core (togglePlugin s id a d).1 :=
        toggle_wired h hcore (by rw [if_pos hactive]; exact hc hid.2 hactive)
      simp only [if_pos hactive]
      cases hr : (togglePlugin s id a d).2 with
      | true => exact erase_wired htoggle hcore (toggle_offers hactive hr)
      | false => exact htoggle
    · simp only [if_neg hactive]
      exact erase_wired h hcore fun e he => hactive he.1
  · exact h

theorem step_wired (hcore : ∀ r ∈ core, r.pluginId = none) (s : State) (c : Call) (h : Wired core s)
    (hc : Spares core s c) : Wired core (step s c) := by
  cases c with
  | install => exact install_wired h hcore hc
  | toggle => exact toggle_wired h hcore hc
  | uninstall => exact uninstall_wired h hcore hc
  | find | attach => exact hc.elim

/-! ## Runs -/

theorem discover_app : ∀ {folders : List Folder} {s : State},
    (∀ id p, s.plugins.get? id = some p → p.Labelled id) → (discover s folders).2 = true →
    (discover s folders).1.app = s.app ∧ (discover s folders).1.callback = s.callback ∧
      ∀ id p, (discover s folders).1.plugins.get? id = some p → p.Labelled id
  | [], _, h, _ => ⟨rfl, rfl, h⟩
  | f :: folders, s, h, hr => by
    have hset {ps : Dict Str Plugin} {q : Plugin} (hps : ∀ id p, ps.get? id = some p → p.Labelled id)
        (hq : q.Labelled f.id) : ∀ id p, (ps.set f.id q).get? id = some p → p.Labelled id := by
      intro id p hp
      rw [Dict.get?_set] at hp
      split at hp
      · rename_i he
        rw [he, ← Option.some.inj hp]
        exact hq
      · exact hps id p hp
    have hload : (loadPlugin s f.id f.isPlugin).app = s.app ∧ (loadPlugin s f.id f.isPlugin).callback = s.callback ∧
        ∀ id p, (loadPlugin s f.id f.isPlugin).plugins.get? id = some p → p.Labelled id := by
      rw [loadPlugin]
      split
      · exact ⟨rfl, rfl, hset h ⟨rfl, fun _ he => absurd he List.not_mem_nil⟩⟩
      · exact ⟨rfl, rfl, h⟩
    obtain ⟨happ, hcallback, hps⟩ := hload
    rw [← happ, ← hcallback]
    rw [discover] at hr ⊢
    simp only at hr ⊢
    split at hr
    · rename_i hactive
      simp only [if_pos hactive]
      cases hp : (loadPlugin s f.id f.isPlugin).plugins.get? f.id with
      | none => simp [hp] at hr
      | some p =>
        simp only [hp] at hr ⊢
        cases hret : (p.activate f.activation).2 with
        | false => simp [hret] at hr
        | true =>
          simp only [hret, if_true] at hr ⊢
          exact discover_app (hset hps (activate_labels f.activation (hps f.id p hp))) hr
    · rename_i hactive
      simp only [if_neg hactive]
      exact discover_app hps hr

/-- Without the callback, the app stays as it is while the plugins are found. -/
theorem find_app {folders : List Folder} (hcallback : s.callback = false) (hr : (findPlugins s folders).2 = true) :
    (findPlugins s folders).1.app = s.app ∧ Merged (findPlugins s folders).1 ∧
      ∀ id p, (findPlugins s folders).1.plugins.get? id = some p → p.Labelled id := by
  rw [findPlugins] at hr ⊢
  have hdisc := @discover_app _ folders { s with plugins := .empty, activePlugins := loadActivePluginsFromDb s.db }
    fun _ _ hp => by cases hp
  generalize discover { s with plugins := .empty, activePlugins := loadActivePluginsFromDb s.db } folders = r at hr hdisc ⊢
  obtain ⟨s', returned⟩ := r
  cases returned with
  | false => cases hr
  | true =>
    obtain ⟨happ, hcallback', hps⟩ := hdisc rfl
    refine ⟨?_, sync_merged s', ?_⟩
    · simp only [if_true, syncHooksToolsAndForms]
      rw [show s'.callback = false from hcallback'.trans hcallback, if_neg Bool.false_ne_true]
      exact happ
    · simp only [if_true, sync_plugins]
      exact hps

/-- Attached where the routes are the core's, a callback that returns leaves all endpoints wired. -/
theorem attach_wired (hlabels : ∀ id p, s.plugins.get? id = some p → p.Labelled id) (hmerged : Merged s)
    (happ : s.app.routes = core) (hr : (attachCallback s).2 = true) : Wired core (attachCallback s).1 := by
  have hroutes : s.app.routes = core ++ [] := happ.trans (List.append_nil core).symm
  have hnone : Registered s.Offers [] := ⟨nofun, .nil⟩
  have hclear := clear_of_returned hroutes hnone
    (fun e he => State.Offers.of_merged hlabels hmerged.endpoints he) hr
  refine activateEndpoints_wired (s := { s with callback := true })
    ⟨hlabels, rfl, fun id e he => hclear e ?_, [], hroutes, hnone⟩ hmerged.endpoints
  rw [hmerged.endpoints, mem_endpoints hlabels]
  exact ⟨id, he⟩

/-- The plugins found, the routes are the core's until the callback activates the endpoints. -/
theorem bootstrap_wired {db : Option (List Str)} {folders : List Folder} (h : bootstrap core db folders = some s) :
    Wired core s := by
  have hfind := @find_app (.blank core db) _ folders rfl
  rw [bootstrap] at h
  rcases hfound : findPlugins (.blank core db) folders with ⟨s', _ | _⟩
  · rw [hfound] at h
    cases h
  · rw [hfound] at h hfind
    obtain ⟨happ, hmerged, hps⟩ := hfind rfl
    have hattach := attach_wired hps hmerged (congrArg App.routes happ)
    dsimp only at h
    rcases hattached : attachCallback s' with ⟨s'', _ | _⟩
    · rw [hattached] at h
      cases h
    · rw [hattached] at h hattach
      obtain rfl := Option.some.inj h
      exact hattach rfl

end

def statusRoute : Route := ⟨"/".toList, some {"GET".toList}, none⟩

def socketRoute : Route := ⟨"/ws".toList, none, none⟩

/-- An endpoint at the path of a websocket makes the callback raise: the plugin is active, and the app has no route of it. -/
example : ∃ s, bootstrap [socketRoute] none [coreFolder] = some s ∧
    let s := step s (.install "scooby".toList true true (serving [{ status with name := socketRoute.path }]) true)
    "scooby".toList ∈ s.activePlugins ∧ s.app.routes = [socketRoute] :=
  ⟨_, rfl, by decide +kernel⟩

end KCore.MadHatter
