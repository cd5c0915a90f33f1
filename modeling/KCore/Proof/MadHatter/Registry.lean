import KCore.Impl.MadHatter.Registry

/-!
# Results that an installed plugin takes away

The loop over the installed plugins takes each plugin's url out of the index before the
query decides about the plugin (`listing_eq`). `available_plugins_iff` is when no result of
the registry gets lost by that.
-/

namespace KCore.MadHatter.Registry

open Text

variable {N : Type*}

/-! ## The index -/

/-- The first result with a url. -/
def first (registryPlugins : List (Manifest N)) (url : Str) : Option (Manifest N) :=
  registryPlugins.find? fun r => pluginUrl r = some url

theorem first_cons (p : Manifest N) (l : List (Manifest N)) (url : Str) :
    first (p :: l) url = if pluginUrl p = some url then some p else first l url := by
  rw [first, List.find?_cons]
  split
  · rename_i h
    rw [if_pos (by simpa using h)]
  · rename_i h
    rw [if_neg (by simpa using h), first]

theorem get?_registryPluginsIndex (registryPlugins : List (Manifest N)) (url : Str) :
    (registryPluginsIndex registryPlugins).get? url = first registryPlugins url := by
  -- the loop keeps what is in the index already
  have hempty : first registryPlugins url =
      ((Dict.empty : Dict Str (Manifest N)).get? url).or (first registryPlugins url) := rfl
  rw [hempty, registryPluginsIndex]
  clear hempty
  generalize (Dict.empty : Dict Str (Manifest N)) = d
  induction registryPlugins generalizing d with
  | nil => simp [first]
  | cons p l ih =>
    rw [List.foldl_cons, ih, first_cons]
    cases hp : pluginUrl p with
    | none => simp
    | some u =>
      dsimp only
      by_cases hu : u = url
      · subst hu
        by_cases hm : u ∈ d
        · obtain ⟨v, hv⟩ := Dict.mem_iff_get?.mp hm
          simp [hm, hv]
        · simp [hm, Dict.get?_eq_none.mpr hm]
      · have hget : (if u ∈ d then d else d.set u p).get? url = d.get? url := by
          split
          · rfl
          · exact Dict.get?_set_of_ne d p (Ne.symm hu)
        simp [hget, hu]

theorem pluginUrl_of_mem_index {registryPlugins : List (Manifest N)} {e : Str × Manifest N}
    (h : e ∈ (registryPluginsIndex registryPlugins).entries) : pluginUrl e.2 = some e.1 := by
  have hget := get?_registryPluginsIndex registryPlugins e.1
  rw [Dict.get?_eq_some.mpr h] at hget
  simpa using List.find?_some hget.symm

/-! ## The loop -/

/-- A manifest with no upgrade. -/
def plain (m : Manifest N) : Manifest N := m.set "upgrade".toList .null

theorem plain_withUpgrade (manifest : Manifest N) (p : Installed N) (r : Option (Manifest N)) :
    plain (withUpgrade manifest p r) = plain manifest := by
  unfold withUpgrade
  split
  · rfl
  · split
    · exact Dict.set_set manifest _ _ _
    · rfl

theorem pluginUrl_set {m : Manifest N} {key : Str} (v : Json N) (h : "plugin_url".toList ≠ key) :
    pluginUrl (m.set key v) = pluginUrl m := by
  rw [pluginUrl, field, Dict.get?_set_of_ne m v h]
  rfl

theorem pluginUrl_plain (m : Manifest N) : pluginUrl (plain m) = pluginUrl m := pluginUrl_set _ (by decide)

theorem pluginUrl_manifestOf (activePlugins : List Str) (p : Installed N) :
    pluginUrl (manifestOf activePlugins p) = pluginUrl p.manifest := by
  rw [manifestOf, pluginUrl_set _ (by decide), pluginUrl_set _ (by decide), pluginUrl_set _ (by decide),
    pluginUrl_set _ (by decide), pluginUrl_set _ (by decide), pluginUrl_set _ (by decide)]

theorem entries_pop (index : Dict Str (Manifest N)) (url : Option Str) :
    (pop index url).2.entries = index.entries.filter fun e => url ≠ some e.1 := by
  cases url with
  | none => simp [pop]
  | some url =>
    rw [pop, Dict.erase]
    refine List.filter_congr fun e _ => ?_
    simp [eq_comm]

variable (t : Texts N) (query : Option Str) (activePlugins : List Str)

/-- The plugin matches the query. -/
def Matches (p : Installed N) : Bool := matchesQuery t query (manifestOf activePlugins p)

/-- What the loop leaves: the urls that no plugin has, and the plugins that match. -/
theorem listing_eq (plugins : List (Installed N)) (acc : Dict Str (Manifest N) × List (Manifest N)) :
    let r := plugins.foldl (listPlugin t query activePlugins) acc
    r.1.entries = acc.1.entries.filter (fun e => ∀ p ∈ plugins, pluginUrl p.manifest ≠ some e.1) ∧
      r.2.map plain = acc.2.map plain ++
        (plugins.filter (Matches t query activePlugins)).map fun p => plain (manifestOf activePlugins p) := by
  induction plugins generalizing acc with
  | nil => simp
  | cons p plugins ih =>
    obtain ⟨hindex, hinstalled⟩ := ih (listPlugin t query activePlugins acc p)
    have hpop : (listPlugin t query activePlugins acc p).1 = (pop acc.1 (pluginUrl p.manifest)).2 := by
      rw [listPlugin, ← pluginUrl_manifestOf activePlugins p]
      dsimp only
      split <;> rfl
    have hlist : (listPlugin t query activePlugins acc p).2.map plain = acc.2.map plain ++
        ([p].filter (Matches t query activePlugins)).map fun p => plain (manifestOf activePlugins p) := by
      rw [listPlugin]
      dsimp only
      by_cases hm : matchesQuery t query (manifestOf activePlugins p) = true
      · have hp : [p].filter (Matches t query activePlugins) = [p] := List.filter_cons_of_pos hm
        rw [if_pos hm, hp]
        simp [plain_withUpgrade]
      · have hp : [p].filter (Matches t query activePlugins) = [] := List.filter_cons_of_neg hm
        rw [if_neg hm, hp]
        simp
    refine ⟨?_, ?_⟩
    · rw [List.foldl_cons, hindex, hpop, entries_pop, List.filter_filter]
      refine List.filter_congr fun e _ => ?_
      rw [← Bool.decide_and, decide_eq_decide, List.forall_mem_cons, and_comm]
    · rw [List.foldl_cons, hinstalled, hlist, List.append_assoc, ← List.map_append, ← List.filter_append,
        List.singleton_append]

/-! ## What the answer shows -/

/-- The plugin has the url of a result. -/
def Stands (registryPlugins : List (Manifest N)) (p : Installed N) : Prop :=
  ∃ r ∈ registryPlugins, pluginUrl r = pluginUrl p.manifest ∧ pluginUrl r ≠ none

instance (registryPlugins : List (Manifest N)) (p : Installed N) : Decidable (Stands registryPlugins p) :=
  inferInstanceAs (Decidable (∃ r ∈ registryPlugins, _))

/-- The results of a url, among those that the answer lists. -/
def listed (ms : List (Manifest N)) (url : Str) : List (Manifest N) := ms.filter fun m => pluginUrl m = some url

/-- Each first result is among the registry's, or an installed plugin with its url is among the installed ones; and
these are the plugins that match, or have the url of a result. The manifests are compared without their upgrade. -/
def Complete (registryPlugins : List (Manifest N)) (plugins : List (Installed N)) (a : Answer N) : Prop :=
  (∀ url r, first registryPlugins url = some r →
    if ∃ p ∈ plugins, pluginUrl p.manifest = some url then
      listed a.registry url = [] ∧ listed a.installed url ≠ []
    else listed a.registry url = [r] ∧ listed a.installed url = []) ∧
  a.installed.map plain =
    (plugins.filter fun p => Matches t query activePlugins p || decide (Stands registryPlugins p)).map
      fun p => plain (manifestOf activePlugins p)

variable {t query activePlugins}

/-- The entries of a key are one or none. -/
theorem values_of_key (url : Str) : ∀ {l : List (Str × Manifest N)}, (l.map Prod.fst).Nodup →
    (l.filter fun e => e.1 = url).map Prod.snd = (Dict.find url l).toList
  | [], _ => rfl
  | (u, m) :: l, h => by
    have h := List.nodup_cons.mp h
    by_cases hu : u = url
    · subst hu
      have hrest : l.filter (fun e => e.1 = u) = [] := by
        rw [List.filter_eq_nil_iff]
        exact fun e he hu => h.1 (List.mem_map.mpr ⟨e, he, by simpa using hu⟩)
      simp [Dict.find, hrest]
    · simpa [Dict.find, hu] using values_of_key url h.2

theorem listed_values {d : Dict Str (Manifest N)} (h : ∀ e ∈ d.entries, pluginUrl e.2 = some e.1) (url : Str) :
    listed d.values url = (d.get? url).toList := by
  have hfilter : listed d.values url = (d.entries.filter fun e => e.1 = url).map Prod.snd := by
    rw [listed, Dict.values, List.filter_map]
    congr 1
    refine List.filter_congr fun e he => ?_
    simp [h e he]
  rw [hfilter, values_of_key url d.nodup, Dict.get?]

theorem stands_of_first {registryPlugins : List (Manifest N)} {p : Installed N} {url : Str} {r : Manifest N}
    (hr : first registryPlugins url = some r) (hp : pluginUrl p.manifest = some url) : Stands registryPlugins p := by
  have hurl : pluginUrl r = some url := by simpa using List.find?_some hr
  exact ⟨r, List.mem_of_find?_eq_some hr, by rw [hurl, hp], by simp [hurl]⟩

/-- A selection by `p` that is as long as one by `p` or `q` has all that `q` selects. -/
theorem of_length_filter_or {α : Type*} {p q : α → Bool} {l : List α}
    (h : (l.filter fun x => p x || q x).length = (l.filter p).length) : ∀ x ∈ l, q x = true → p x = true := by
  intro x hx hq
  have hsub : l.filter p = (l.filter fun x => p x || q x).filter p := by
    rw [List.filter_filter]
    refine List.filter_congr fun y _ => ?_
    cases p y <;> rfl
  rw [hsub] at h
  have heq := List.filter_sublist.eq_of_length h.symm
  exact List.filter_eq_self.mp heq x (List.mem_filter.mpr ⟨hx, by simp [hq]⟩)

/-- What is installed and has a url, in the answer. -/
theorem exists_listed {ms : List (Manifest N)} {ps : List (Installed N)} {p : Installed N} {url : Str}
    (h : ms.map plain = ps.map fun p => plain (manifestOf activePlugins p)) (hp : p ∈ ps)
    (hurl : pluginUrl p.manifest = some url) : listed ms url ≠ [] := by
  have hm : plain (manifestOf activePlugins p) ∈ ms.map plain := h ▸ List.mem_map.mpr ⟨p, hp, rfl⟩
  obtain ⟨m, hm, heq⟩ := List.mem_map.mp hm
  refine List.ne_nil_of_mem (List.mem_filter.mpr ⟨hm, decide_eq_true (?_ : pluginUrl m = some url)⟩)
  rw [← pluginUrl_plain m, heq, pluginUrl_plain, pluginUrl_manifestOf, hurl]

theorem listed_eq_nil {ms : List (Manifest N)} {ps : List (Installed N)} {url : Str}
    (h : ms.map plain = ps.map fun p => plain (manifestOf activePlugins p))
    (hurl : ∀ p ∈ ps, pluginUrl p.manifest ≠ some url) : listed ms url = [] := by
  rw [listed, List.filter_eq_nil_iff]
  intro m hm hu
  have hm' : plain m ∈ ps.map fun p => plain (manifestOf activePlugins p) := h ▸ List.mem_map.mpr ⟨m, hm, rfl⟩
  obtain ⟨p, hp, heq⟩ := List.mem_map.mp hm'
  refine hurl p hp ?_
  rw [← pluginUrl_manifestOf activePlugins, ← pluginUrl_plain, heq, pluginUrl_plain]
  simpa using hu

/-- What is left in the index under a url. -/
theorem get?_left {d d' : Dict Str (Manifest N)} {plugins : List (Installed N)}
    (h : d'.entries = d.entries.filter fun e => ∀ p ∈ plugins, pluginUrl p.manifest ≠ some e.1) (url : Str) :
    d'.get? url = if ∃ p ∈ plugins, pluginUrl p.manifest = some url then none else d.get? url := by
  split
  · rename_i hex
    obtain ⟨p, hp, hurl⟩ := hex
    rw [Dict.get?_eq_none, Dict.mem_def, Dict.keys, h]
    intro hm
    obtain ⟨e, he, rfl⟩ := List.mem_map.mp hm
    exact of_decide_eq_true (List.mem_filter.mp he).2 p hp hurl
  · rename_i hex
    refine Option.ext fun m => ?_
    rw [Dict.get?_eq_some, Dict.get?_eq_some, h, List.mem_filter, decide_eq_true_eq]
    exact and_iff_left fun p hp hurl => hex ⟨p, hp, hurl⟩

/-- No result of the registry gets lost just when every installed plugin with the url of one matches the query. -/
theorem available_plugins_iff (t : Texts N) (registryPlugins : List (Manifest N)) (activePlugins : List Str)
    (plugins : List (Installed N)) (query : Option Str) :
    Complete t query activePlugins registryPlugins plugins
        (getAvailablePlugins t registryPlugins activePlugins plugins query) ↔
      ∀ p ∈ plugins, Stands registryPlugins p → Matches t query activePlugins p = true := by
  obtain ⟨hindex, hinstalled⟩ := listing_eq t query activePlugins plugins (registryPluginsIndex registryPlugins, [])
  unfold getAvailablePlugins
  set r := plugins.foldl (listPlugin t query activePlugins) (registryPluginsIndex registryPlugins, []) with hr
  dsimp only at hindex hinstalled ⊢
  rw [List.map_nil, List.nil_append] at hinstalled
  constructor
  · intro ⟨_, h⟩ p hp hs
    have hlen := congrArg List.length (h.symm.trans hinstalled)
    rw [List.length_map, List.length_map] at hlen
    exact of_length_filter_or hlen p hp (decide_eq_true hs)
  · intro h
    refine ⟨fun url result hfirst => ?_, ?_⟩
    · have hvalues : listed r.1.values url = (r.1.get? url).toList := listed_values (fun e he => ?_) url
      · rw [get?_left hindex, get?_registryPluginsIndex, hfirst] at hvalues
        split
        · rename_i hex
          rw [if_pos hex] at hvalues
          obtain ⟨p, hp, hurl⟩ := hex
          have hm := h p hp (stands_of_first hfirst hurl)
          exact ⟨hvalues, exists_listed hinstalled (List.mem_filter.mpr ⟨hp, hm⟩) hurl⟩
        · rename_i hex
          rw [if_neg hex] at hvalues
          refine ⟨hvalues, listed_eq_nil hinstalled fun p hp hurl => hex ⟨p, (List.mem_filter.mp hp).1, hurl⟩⟩
      · rw [hindex] at he
        exact pluginUrl_of_mem_index (List.mem_filter.mp he).1
    · rw [hinstalled]
      congr 1
      refine List.filter_congr fun p hp => ?_
      cases hm : Matches t query activePlugins p with
      | true => rfl
      | false =>
        have hs : ¬Stands registryPlugins p := fun hs => by simp [h p hp hs] at hm
        simp [hs]

/-! ## A search that the installed plugin does not match -/

def podcastUrl : Str := "podcast-url".toList

/-- A result of the registry that was found by its tags. -/
def podcastResult : Manifest ℕ :=
  Dict.empty.set "name".toList (.str "Podcast".toList) |>.set "plugin_url".toList (.str podcastUrl)

/-- The same plugin, installed, with no tags. -/
def podcastInstalled : Installed ℕ where
  id := "podcast".toList
  manifest := Dict.empty.set "name".toList (.str "Pod".toList) |>.set "plugin_url".toList (.str podcastUrl)
  hooks := []
  tools := []
  endpoints := []
  forms := []

/-- Texts as they are; the fields that are none do not show. -/
def plainTexts : Texts ℕ where
  str
    | .str s => s
    | _ => []
  lower := lower

/-- A result gets lost. -/
theorem found_plugin_lost :
    ¬Complete plainTexts (some "audio".toList) [] [podcastResult] [podcastInstalled]
      (getAvailablePlugins plainTexts [podcastResult] [] [podcastInstalled] (some "audio".toList)) := by
  intro h
  have hlen := congrArg List.length h.2
  have hnone : (getAvailablePlugins plainTexts [podcastResult] [] [podcastInstalled] (some "audio".toList)).installed =
      [] := by decide
  have hstands : Stands [podcastResult] podcastInstalled := ⟨_, .head _, by decide, by decide⟩
  rw [hnone] at hlen
  simp [hstands] at hlen

end KCore.MadHatter.Registry
