import KCore.Impl.MadHatter.Extractor

/-!
# What an extraction changes

An extraction replaces one child of the plugins folder and leaves the others (`Extracts`).
It does so just where the name of the package has a slug that is not empty, and unpacking
the package leaves the other plugins and the settings that are kept: `extract_iff`.
-/

namespace KCore.MadHatter

open Text FileTree

variable {P : Platform} {dst tmp : List Str} {id : Str} {contents plugins : List (Str × Files)} {fs fs' : Files}

/-- The plugin's files of a package: those of its only folder, or of the package itself. -/
def pluginFiles : List (Str × Files) → List (Str × Files)
  | [(_, .dir files)] => files
  | contents => contents

/-- The settings file of a plugin. -/
def settingsOf (child : List Str) (fs : Files) : Option Str :=
  match lookup (child ++ [settingsJson]) fs with
  | some (.file settings) => some settings
  | _ => none

/-- The `settings.json` of the plugin, or else of the package. -/
def keptSettings (child : List Str) (contents : List (Str × Files)) (fs : Files) : Option Files :=
  ((settingsOf child fs).map .file).or (Dict.find settingsJson (pluginFiles contents))

/-! ## Paths -/

theorem slash_notMem {s : Str} (h : ∀ c ∈ s, isSlugChar c = true) : '/' ∉ s := fun hs => by
  have hslash := h _ hs
  revert hslash
  decide

/-- A slug that is not empty leads to a child. -/
theorem pathJoin_slug (h : ∀ c ∈ id, isSlugChar c = true) (hne : id ≠ []) : pathJoin dst id = dst ++ [id] := by
  have hsplit : split '/' id = [id] := by
    have hjoin : split '/' (join ['/'] [id]) = [id] :=
      split_join (List.cons_ne_nil _ _) (by simpa using slash_notMem h)
    rwa [join_singleton] at hjoin
  unfold pathJoin
  split
  · exact absurd (.head _) (slash_notMem h)
  · rw [hsplit, List.filter_cons_of_pos (by simpa using hne), List.filter_nil]

theorem lookup_folderToCopy (h : lookup tmp fs = some (.dir contents)) :
    ∃ rest, folderToCopy tmp contents = tmp ++ rest ∧ lookup (tmp ++ rest) fs = some (.dir (pluginFiles contents)) := by
  have hflat : lookup (tmp ++ []) fs = some (.dir contents) := by rw [List.append_nil, h]
  match contents with
  | [(name, .dir files)] =>
    refine ⟨[name], rfl, ?_⟩
    rw [lookup_append, h]
    simp [lookup, Dict.find, pluginFiles]
  | [] | (_, .file _) :: _ | (_, .dir _) :: _ :: _ => exact ⟨[], (List.append_nil _).symm, hflat⟩

/-! ## Moving -/

/-- A folder from the temporary one takes the place of a child. -/
theorem moveFolder_spec (id : Str) (ha : Apart tmp dst) {rest : List Str} {files : Files}
    (hfiles : lookup (tmp ++ rest) fs = some files) (hdst : lookup dst fs = some (.dir plugins)) (hne : tmp ≠ []) :
    ∃ fs', moveFolder tmp (tmp ++ rest) (dst ++ [id]) fs = (fs', some (dst ++ [id])) ∧ lookup tmp fs' = none ∧
      lookup (dst ++ [id]) fs' = some files ∧
      ∀ name, name ≠ id → lookup (dst ++ [name]) fs' = lookup (dst ++ [name]) fs := by
  have hfolder (r : List Str) : Apart (tmp ++ rest) (dst ++ r) := ha.append rest r
  have htmp (r : List Str) : Apart tmp (dst ++ r) := by simpa using ha.append [] r
  have hdst' : lookup dst (remove (tmp ++ rest) fs) = some (.dir plugins) := by
    have := hfolder []
    rw [List.append_nil] at this
    rw [lookup_remove_apart this, hdst]
  obtain ⟨fs₁, hw, -⟩ := write_child id files hdst'
  have hchild : lookup (dst ++ [id]) fs₁ = some files := by simpa [lookup] using lookup_write [] hw
  have hothers (name : Str) (hn : name ≠ id) : lookup (dst ++ [name]) fs₁ = lookup (dst ++ [name]) fs := by
    have hap : Apart (dst ++ [id]) (dst ++ [name]) := apart_append.mpr (apart_singleton hn.symm)
    rw [lookup_write_apart hw hap, lookup_remove_apart (hfolder [name])]
  have hmove : moveFolder tmp (tmp ++ rest) (dst ++ [id]) fs =
      (if (lookup tmp fs₁).isSome then remove tmp fs₁ else fs₁, some (dst ++ [id])) := by
    simp only [moveFolder, hfiles, hw]
  rw [hmove]
  refine ⟨_, rfl, ?_⟩
  cases ht : lookup tmp fs₁ with
  | none => exact ⟨ht, hchild, hothers⟩
  | some t =>
    rw [if_pos (show (some t).isSome = true from rfl)]
    refine ⟨?_, ?_, fun name hn => ?_⟩
    · simpa using lookup_remove [] fs₁ hne
    · rw [lookup_remove_apart (htmp [id]), hchild]
    · rw [lookup_remove_apart (htmp [name]), hothers name hn]

/-! ## Replacing -/

/-- What keeps a package from the place of its plugin: a file there, or a folder in the place of its settings. -/
def Blocked (child : List Str) (contents : List (Str × Files)) (fs : Files) : Prop :=
  (∃ content, lookup child fs = some (.file content)) ∨
    (∃ settings, settingsOf child fs = some settings) ∧
      ∃ entries, Dict.find settingsJson (pluginFiles contents) = some (.dir entries)

theorem settingsOf_eq_none {child : List Str} (h : ∀ entries, lookup child fs ≠ some (.dir entries)) :
    settingsOf child fs = none := by
  have hl : lookup (child ++ [settingsJson]) fs = none := by
    rw [lookup_append]
    cases hc : lookup child fs with
    | none => rfl
    | some t =>
      cases t with
      | file => rfl
      | dir entries => exact absurd hc (h entries)
  rw [settingsOf, hl]

theorem lookup_settings {child : List Str} {settings : Str} (h : settingsOf child fs = some settings) :
    lookup (child ++ [settingsJson]) fs = some (.file settings) := by
  unfold settingsOf at h
  split at h
  · exact Option.some.inj h ▸ ‹_›
  · cases h

theorem lookup_package {rest : List Str} (h : lookup (tmp ++ rest) fs = some (.dir (pluginFiles contents))) :
    lookup (tmp ++ rest ++ [settingsJson]) fs = Dict.find settingsJson (pluginFiles contents) := by
  rw [lookup_append, h]
  cases h : Dict.find settingsJson (pluginFiles contents) <;> simp [lookup, h]

theorem copySettings_eq_self {child folder : List Str} (h : settingsOf child fs = none) :
    copySettings child folder fs = some fs := by
  unfold settingsOf at h
  unfold copySettings
  match hl : lookup (child ++ [settingsJson]) fs with
  | some (.file settings) => simp [hl] at h
  | some (.dir _) | none => rfl

/-- A folder in the place of the settings makes the copy raise. -/
theorem copySettings_blocked {child rest : List Str} {settings : Str} {entries : List (Str × Files)}
    (hfiles : lookup (tmp ++ rest) fs = some (.dir (pluginFiles contents)))
    (hs : settingsOf child fs = some settings)
    (he : Dict.find settingsJson (pluginFiles contents) = some (.dir entries)) :
    copySettings child (tmp ++ rest) fs = none := by
  simp only [copySettings, lookup_settings hs, lookup_package hfiles, he]

/-- What `copySettings` does where nothing blocks it. -/
theorem copySettings_spec {child rest : List Str}
    (hfiles : lookup (tmp ++ rest) fs = some (.dir (pluginFiles contents))) (hb : ¬Blocked child contents fs) :
    ∃ fs' files, copySettings child (tmp ++ rest) fs = some fs' ∧ lookup (tmp ++ rest) fs' = some (.dir files) ∧
      (∀ name, Dict.find name files =
        if name = settingsJson then keptSettings child contents fs else Dict.find name (pluginFiles contents)) ∧
      ∀ q, Apart tmp q → lookup q fs' = lookup q fs := by
  cases hs : settingsOf child fs with
  | none =>
    refine ⟨fs, pluginFiles contents, ?_, hfiles, fun name => ?_, fun q _ => rfl⟩
    · exact copySettings_eq_self hs
    · rw [keptSettings, hs]
      split
      · rename_i hn
        rw [hn]
        rfl
      · rfl
  | some settings =>
    obtain ⟨fs', hw, hl⟩ := write_child settingsJson (.file settings) hfiles
    refine ⟨fs', _, ?_, hl, fun name => ?_, fun q hq => ?_⟩
    · have hno : ∀ entries, Dict.find settingsJson (pluginFiles contents) ≠ some (.dir entries) := fun entries he =>
        hb (.inr ⟨⟨settings, hs⟩, entries, he⟩)
      simp only [copySettings, lookup_settings hs, lookup_package hfiles, hw]
    · split
      · rename_i hn
        rw [hn, Dict.find_put_self, keptSettings, hs]
        rfl
      · rename_i hn
        exact Dict.find_put_of_ne hn _
    · have hq' : Apart (tmp ++ rest ++ [settingsJson]) q := by
        have := hq.append (rest ++ [settingsJson]) []
        rwa [List.append_nil, ← List.append_assoc] at this
      exact lookup_write_apart hw hq'

/-- A package that is blocked changes nothing after the unpacking. -/
theorem replacePlugin_blocked {child : List Str} (htmp : lookup tmp fs = some (.dir contents))
    (hb : Blocked child contents fs) : replacePlugin tmp child contents fs = (fs, none) := by
  obtain ⟨rest, hfolder, hfiles⟩ := lookup_folderToCopy htmp
  rcases hb with ⟨content, hc⟩ | ⟨⟨settings, hs⟩, entries, he⟩
  · simp only [replacePlugin, hc]
  · have hcopy : copySettings child (tmp ++ rest) fs = none := copySettings_blocked hfiles hs he
    match hc : lookup child fs with
    | none =>
      rw [settingsOf_eq_none fun entries he => by rw [hc] at he; cases he] at hs
      cases hs
    | some (.file content) => simp only [replacePlugin, hc]
    | some (.dir _) => simp only [replacePlugin, hc, hfolder, hcopy]

/-- Another package takes the place of a child of the plugins folder. -/
theorem replacePlugin_spec (id : Str) (ha : Apart tmp dst) (hne : tmp ≠ [])
    (htmp : lookup tmp fs = some (.dir contents)) (hdst : lookup dst fs = some (.dir plugins))
    (hb : ¬Blocked (dst ++ [id]) contents fs) :
    ∃ fs' files, replacePlugin tmp (dst ++ [id]) contents fs = (fs', some (dst ++ [id])) ∧
      lookup tmp fs' = none ∧ lookup (dst ++ [id]) fs' = some (.dir files) ∧
      (∀ name, Dict.find name files = if name = settingsJson then keptSettings (dst ++ [id]) contents fs
        else Dict.find name (pluginFiles contents)) ∧
      ∀ name, name ≠ id → lookup (dst ++ [name]) fs' = lookup (dst ++ [name]) fs := by
  obtain ⟨rest, hfolder, hfiles⟩ := lookup_folderToCopy htmp
  have hchild (name : Str) : Apart tmp (dst ++ [name]) := by simpa using ha.append [] [name]
  match hc : lookup (dst ++ [id]) fs with
  | some (.file content) => exact absurd (.inl ⟨content, hc⟩) hb
  | none =>
    have hs : settingsOf (dst ++ [id]) fs = none := settingsOf_eq_none fun entries he => by rw [hc] at he; cases he
    obtain ⟨fs', hmove, hgone, hnew, hothers⟩ := moveFolder_spec id ha hfiles hdst hne
    refine ⟨fs', _, ?_, hgone, hnew, fun name => ?_, hothers⟩
    · simp only [replacePlugin, hc, hfolder, hmove]
    · rw [keptSettings, hs]
      split
      · rename_i hn
        rw [hn]
        rfl
      · rfl
  | some (.dir entries) =>
    obtain ⟨fs₁, files, hcopy, hfiles₁, hfind, hsame⟩ := copySettings_spec hfiles hb
    have hdst₁ : lookup dst (remove (dst ++ [id]) fs₁) = some (.dir (plugins.filter (·.1 ≠ id))) :=
      remove_child ((hsame dst ha).trans hdst)
    have hfiles₂ : lookup (tmp ++ rest) (remove (dst ++ [id]) fs₁) = some (.dir files) := by
      have hap : Apart (dst ++ [id]) (tmp ++ rest) := by simpa using (hchild id).symm.append [] rest
      rw [lookup_remove_apart hap, hfiles₁]
    obtain ⟨fs', hmove, hgone, hnew, hothers⟩ := moveFolder_spec id ha hfiles₂ hdst₁ hne
    refine ⟨fs', files, ?_, hgone, hnew, hfind, fun name hn => ?_⟩
    · simp only [replacePlugin, hc, hfolder, hcopy, hmove]
    · have hap : Apart (dst ++ [id]) (dst ++ [name]) := apart_append.mpr (apart_singleton hn.symm)
      rw [hothers name hn, lookup_remove_apart hap, hsame _ (hchild name)]

/-! ## Extracting -/

/-- What an extraction is to do: only one child of the plugins folder changes, and when the call returns, that holds
the plugin's files of the package with the settings that are kept, and the temporary folder is gone. -/
structure Extracts (dst tmp : List Str) (id : Str) (contents : List (Str × Files)) (fs : Files)
    (r : Files × Option (List Str)) : Prop where
  id_ne : id ≠ []
  frame : ∀ name, name ≠ id → lookup (dst ++ [name]) r.1 = lookup (dst ++ [name]) fs
  returned : ∀ path, r.2 = some path → path = dst ++ [id] ∧ lookup tmp r.1 = none ∧
    ∃ files, lookup (dst ++ [id]) r.1 = some (.dir files) ∧ ∀ name, Dict.find name files =
      if name = settingsJson then keptSettings (dst ++ [id]) contents fs else Dict.find name (pluginFiles contents)

theorem id_of_new {path : Str} {x : PluginExtractor} (h : PluginExtractor.new P path = some x) :
    x.id = createPluginId P path := by
  unfold PluginExtractor.new at h
  split at h
  · cases h
  · split_ifs at h with h₁ h₂
    · rw [← Option.some.inj h]
    · rw [← Option.some.inj h]

/-- When an extraction does what it is to do: the plugin has a name, and unpacking the package (which gives `fs'`)
leaves the other children of the plugins folder, and, where nothing keeps the package from its place, the settings that
are kept. -/
structure Contained (dst : List Str) (id : Str) (contents : List (Str × Files)) (ok : Bool) (fs fs' : Files) :
    Prop where
  id_ne : id ≠ []
  others : ∀ name, name ≠ id → lookup (dst ++ [name]) fs' = lookup (dst ++ [name]) fs
  settings : ok = true → ¬Blocked (dst ++ [id]) contents fs' →
    keptSettings (dst ++ [id]) contents fs' = keptSettings (dst ++ [id]) contents fs

theorem lookup_mkdir {folder q : List Str} {fs₁ : Files} (hmk : mkdir folder fs = some fs₁) (hq : Apart folder q) :
    lookup q fs₁ = lookup q fs := by
  unfold mkdir at hmk
  split at hmk
  · exact lookup_write_apart hmk hq
  · cases hmk

/-- For a package that is unpacked into the temporary folder only, the name of the plugin is all that matters. -/
theorem contained_of_inside {ok : Bool} {fs₁ fs₂ : Files} (hdst : Apart tmp dst) (hmk : mkdir tmp fs = some fs₁)
    (hin : ∀ q, Apart tmp q → lookup q fs₂ = lookup q fs₁) : Contained dst id contents ok fs fs₂ ↔ id ≠ [] := by
  have hsame (rest : List Str) : lookup (dst ++ rest) fs₂ = lookup (dst ++ rest) fs := by
    have hap : Apart tmp (dst ++ rest) := by simpa using hdst.append [] rest
    rw [hin _ hap, lookup_mkdir hmk hap]
  refine ⟨Contained.id_ne, fun hid => ⟨hid, fun name _ => hsame [name], fun _ _ => ?_⟩⟩
  rw [keptSettings, keptSettings, settingsOf, settingsOf, List.append_assoc, hsame]

/-- For every package whose file name is accepted, and whatever the folders hold: the call does what it is to do just
where it is `Contained`. -/
theorem extract_iff {path : Str} {x : PluginExtractor} (hx : PluginExtractor.new P path = some x)
    (hdst : Apart (tmpFolder P) dst) {fs fs₁ fs₂ : Files} {ok : Bool} (hmk : mkdir (tmpFolder P) fs = some fs₁)
    (hun : P.unpackArchive x.path (tmpFolder P) x.extension fs₁ = (fs₂, ok))
    (htmp : lookup (tmpFolder P) fs₂ = some (.dir contents)) (hplugins : lookup dst fs₂ = some (.dir plugins)) :
    Extracts dst (tmpFolder P) x.id contents fs (x.extract P dst fs) ↔ Contained dst x.id contents ok fs fs₂ := by
  have hne : tmpFolder P ≠ [] := List.cons_ne_nil _ _
  have hslug : ∀ c ∈ x.id, isSlugChar c = true := by
    rw [id_of_new hx]
    exact P.slugify_chars _
  by_cases hid : x.id = []
  · exact ⟨fun h => absurd hid h.id_ne, fun h => absurd hid h.id_ne⟩
  have hrun : x.extract P dst fs =
      if ok = true then replacePlugin (tmpFolder P) (dst ++ [x.id]) contents fs₂ else (fs₂, none) := by
    simp only [PluginExtractor.extract, hmk, hun]
    cases ok with
    | false => rfl
    | true => simp only [htmp, pathJoin_slug hslug hid, if_true]
  generalize x.extract P dst fs = r at hrun
  have hraised (hr : r = (fs₂, none)) (hkept : ok = true → ¬Blocked (dst ++ [x.id]) contents fs₂ → False) :
      Extracts dst (tmpFolder P) x.id contents fs r ↔ Contained dst x.id contents ok fs fs₂ := by
    subst hr
    exact ⟨fun h => ⟨hid, h.frame, fun hok hb => (hkept hok hb).elim⟩, fun h => ⟨hid, h.others, nofun⟩⟩
  cases ok with
  | false => exact hraised hrun nofun
  | true =>
    rw [if_pos rfl] at hrun
    by_cases hb : Blocked (dst ++ [x.id]) contents fs₂
    · exact hraised (hrun.trans (replacePlugin_blocked htmp hb)) fun _ h => h hb
    · obtain ⟨fs', files, hrep, hgone, hchild, hfind, hothers⟩ := replacePlugin_spec x.id hdst hne htmp hplugins hb
      obtain rfl := hrun.trans hrep
      constructor
      · intro h
        refine ⟨hid, fun name hn => (hothers name hn).symm.trans (h.frame name hn), fun _ _ => ?_⟩
        obtain ⟨-, -, files', hchild', hfind'⟩ := h.returned _ rfl
        obtain rfl : files = files' := by
          rw [hchild] at hchild'
          simpa using hchild'
        have h₁ := hfind settingsJson
        have h₂ := hfind' settingsJson
        rw [if_pos rfl] at h₁ h₂
        exact h₁.symm.trans h₂
      · rintro ⟨-, hsame, hkept⟩
        refine ⟨hid, fun name hn => (hothers name hn).trans (hsame name hn), fun path hpath => ?_⟩
        obtain rfl := Option.some.inj hpath
        refine ⟨rfl, hgone, files, hchild, fun name => ?_⟩
        rw [hfind name, hkept rfl hb]

/-! ## Two packages -/

def samplePlatform : Platform where
  guessType path := if ".zip".toList <:+ path then some "application/zip".toList else none
  slugify s := s.filter isSlugChar
  slugify_chars _ _ hc := (List.mem_filter.mp hc).2
  uuid := "0".toList
  unpackArchive _ folder _ fs :=
    match write folder (.dir [("tool.py".toList, .file "@tool".toList)]) fs with
    | some fs => (fs, true)
    | none => (fs, false)

def weatherPlugin : Files := .dir [("weather.py".toList, .file "@hook".toList)]

def sampleFiles : Files :=
  .dir [("tmp".toList, .dir []), ("plugins".toList, .dir [("weather".toList, weatherPlugin)])]

def samplePackage (name : Str) : PluginExtractor :=
  ⟨"/tmp/".toList ++ name ++ ".zip".toList, "zip".toList, name.filter isSlugChar⟩

/-- The files with an empty temporary folder, and with the package unpacked. -/
def sampleUnpacked (contents : List (Str × Files)) : Files :=
  .dir [("tmp".toList, .dir [("0".toList, .dir contents)]), ("plugins".toList, .dir [("weather".toList, weatherPlugin)])]

theorem extract_tool_ok : Extracts ["plugins".toList] (tmpFolder samplePlatform) "tool".toList
    [("tool.py".toList, .file "@tool".toList)] sampleFiles
    ((samplePackage "tool".toList).extract samplePlatform ["plugins".toList] sampleFiles) := by
  have hmk : mkdir (tmpFolder samplePlatform) sampleFiles = some (sampleUnpacked []) := rfl
  have hx : PluginExtractor.new samplePlatform "/tmp/tool.zip".toList = some (samplePackage "tool".toList) := rfl
  refine (extract_iff hx (by decide) hmk rfl rfl rfl).mpr ?_
  refine (contained_of_inside (by decide) hmk fun q hq => ?_).mpr (by decide)
  exact lookup_write_apart (p := tmpFolder samplePlatform) rfl hq

/-- A name without a letter or a digit has an empty slug, and the package replaces all plugins. -/
theorem extract_dash_removes : ∃ x, PluginExtractor.new samplePlatform "/tmp/-.zip".toList = some x ∧
    ¬Extracts ["plugins".toList] (tmpFolder samplePlatform) x.id [("tool.py".toList, .file "@tool".toList)] sampleFiles
      (x.extract samplePlatform ["plugins".toList] sampleFiles) ∧
    lookup ["plugins".toList, "weather".toList] sampleFiles = some weatherPlugin ∧
    lookup ["plugins".toList, "weather".toList] (x.extract samplePlatform ["plugins".toList] sampleFiles).1 = none :=
  ⟨samplePackage "-".toList, rfl, fun h => h.id_ne rfl, rfl, rfl⟩

end KCore.MadHatter
