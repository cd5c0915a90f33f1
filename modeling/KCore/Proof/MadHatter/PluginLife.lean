import KCore.Proof.MadHatter.PluginSettings

/-!
# Settings over the life of a plugin

The file is created with the defaults of the model that is known at that time, which is
the empty one as long as the plugin's code is not loaded. `settings_throughout`: where
nothing reads or saves the settings before that, an active plugin has, for every field of
its model, the last value saved or the default.
-/

namespace KCore.MadHatter.PluginSettings

open Text

variable {N : Type*} [DecidableEq N] [Numeral N] (reader : Json.Reader N)

/-- A settings model with a default for every field: what it writes for them, and which settings it accepts. -/
structure SettingsModel where
  text : Str
  defaults : Dict Str (Json N)
  accepts : (Str → Option (Json N)) → Prop
  loads_text : reader.loads text = some (.obj defaults.entries)

/-- A plugin, and the settings that were saved, the last ones first. -/
abbrev Life (N : Type*) := Plugin × List (Settings N)

variable {reader} (m : SettingsModel reader)

/-- The last value saved for a key, or its default. -/
def SettingsModel.value (saved : List (Settings N)) (k : Str) : Option (Json N) :=
  (saved.findSome? fun settings => settings.dict.get? k).or (m.defaults.get? k)

omit [DecidableEq N] [Numeral N] in
/-- The settings saved up to a call. -/
def Call.log (saved : List (Settings N)) : Call N → List (Settings N)
  | .save settings => settings :: saved
  | .load | .activate _ | .deactivate _ => saved

def SettingsModel.step (s : Life N) (c : Call N) : Life N :=
  (PluginSettings.step reader (some m.text) s.1 c, c.log s.2)

/-- An active plugin loads settings that the model accepts, with the last value saved or the default for every field. -/
def SettingsModel.Served (s : Life N) : Prop :=
  s.1.active = true → ∃ d : Dict Str (Json N),
    (loadSettings reader (s.1.defaults (some m.text)) .works s.1.file).2 = some (.obj d.entries) ∧
      m.accepts d.get? ∧ ∀ k ∈ m.defaults, d.get? k = m.value s.2 k

/-- The file is there, or is created with the defaults of the plugin's own model. -/
def Known (p : Plugin) : Prop := p.file ≠ none ∨ p.loaded = true

/-- Settings are read or saved only once the model is known, unless nothing of it is missing then; and the model accepts
its defaults with all that is saved. -/
def SettingsModel.Safe (s : Life N) (c : Call N) : Prop :=
  (match c with
    | .load => Known s.1 ∨ ∀ k, k ∉ m.defaults
    | .save settings => Known s.1 ∨ ∀ k ∈ m.defaults, k ∈ settings.dict
    | .activate _ | .deactivate _ => True) ∧ m.accepts (m.value (c.log s.2))

/-! ## One call -/

/-- A file that reads as the settings of the plugin. -/
def SettingsModel.Holds (saved : List (Settings N)) (text : Str) : Prop :=
  ∃ d : Dict Str (Json N), reader.loads text = some (.obj d.entries) ∧ (∀ v ∈ d.values, v.WF) ∧
    ∀ k, d.get? k = m.value saved k

/-- Before the file is created, nothing was saved. -/
def SettingsModel.Inv (s : Life N) : Prop :=
  (match s.1.file with
    | none => s.1.active = false ∧ s.2 = []
    | some text => m.Holds s.2 text) ∧ (s.1.active = true → m.accepts (m.value s.2))

omit [DecidableEq N] in
theorem SettingsModel.value_cons (settings : Settings N) (saved : List (Settings N)) (k : Str) :
    m.value (settings :: saved) k = (settings.dict.get? k).or (m.value saved k) := by
  rw [value, value, List.findSome?_cons]
  cases settings.dict.get? k <;> rfl

omit [DecidableEq N] in
/-- The defaults, as the model writes them. -/
theorem SettingsModel.holds_text : m.Holds [] m.text := by
  obtain ⟨d, hd, hwf⟩ := exists_dict_of_loads reader m.loads_text
  obtain rfl := Dict.ext hd
  exact ⟨m.defaults, m.loads_text, hwf, fun k => rfl⟩

omit [DecidableEq N] in
/-- What the empty model writes. -/
theorem loads_braces : reader.loads "\x7b\x7d".toList = some (.obj (Dict.empty : Dict Str (Json N)).entries) :=
  reader.loads_dumpsIndent (.obj []) ⟨List.nodup_nil, trivial⟩

/-- A save over settings that load. -/
theorem SettingsModel.holds_save {saved : List (Settings N)} {defaults : Option Str} {file file' : Option Str}
    {d : Dict Str (Json N)} (settings : Settings N) (hd : ∀ v ∈ d.values, v.WF)
    (hload : loadSettings reader defaults .works file = (file', some (.obj d.entries)))
    (hvalue : ∀ k, (settings.dict.get? k).or (d.get? k) = m.value (settings :: saved) k) :
    ∃ text, (saveSettings reader defaults .works .works file settings.toPy).1 = some text ∧
      m.Holds (settings :: saved) text := by
  rw [saveSettings_eq reader .works settings.toPy hload, oldSettings_eq, toPy_eq, embed_merge]
  have hwf := values_merge hd settings.wf
  refine ⟨_, rfl, d.merge settings.dict, (loads_embed reader hwf).2, hwf, fun k => ?_⟩
  rw [Dict.get?_merge, hvalue]

variable {m} {s : Life N}

omit [DecidableEq N] in
/-- A load of settings that are there, or that the plugin's own model creates. -/
theorem SettingsModel.Inv.load (h : m.Inv s) (hk : Known s.1) : ∃ text,
    loadSettings reader (s.1.defaults (some m.text)) .works s.1.file = (some text, reader.loads text) ∧
      m.Holds s.2 text := by
  obtain ⟨⟨file, loaded, active⟩, saved⟩ := s
  cases file with
  | some text => exact ⟨text, rfl, h.1⟩
  | none =>
    obtain rfl : loaded = true := hk.resolve_left fun hfile => hfile rfl
    obtain ⟨⟨-, rfl⟩, -⟩ := h
    exact ⟨m.text, rfl, m.holds_text⟩

omit [DecidableEq N] in
/-- A load that the empty model creates the settings for. -/
theorem load_of_not_known {p : Plugin} (hk : ¬Known p) :
    p.file = none ∧ loadSettings reader (p.defaults (some m.text)) .works p.file =
      (some "{}".toList, some (.obj (Dict.empty : Dict Str (Json N)).entries)) := by
  obtain ⟨file, loaded, active⟩ := p
  obtain ⟨hfile, hloaded⟩ := not_or.mp hk
  obtain rfl : file = none := not_not.mp hfile
  obtain rfl : loaded = false := Bool.eq_false_iff.mpr hloaded
  refine ⟨rfl, ?_⟩
  have hbraces : reader.loads "\x7b\x7d".toList = _ := loads_braces
  rw [← hbraces]
  rfl

omit [DecidableEq N] in
/-- The file after a load. -/
theorem SettingsModel.Inv.after_load (h : m.Inv s) (hk : Known s.1 ∨ ∀ k, k ∉ m.defaults) : ∃ text,
    (loadSettings reader (s.1.defaults (some m.text)) .works s.1.file).1 = some text ∧ m.Holds s.2 text := by
  by_cases hknown : Known s.1
  · obtain ⟨text, hload, hholds⟩ := h.load hknown
    exact ⟨text, congrArg Prod.fst hload, hholds⟩
  · obtain ⟨hnone, hload⟩ := load_of_not_known (m := m) hknown
    have hnew := h.1
    rw [hnone] at hnew
    refine ⟨_, congrArg Prod.fst hload, .empty, loads_braces, by simp [Dict.values, Dict.empty], fun k => ?_⟩
    rw [hnew.2, value, Dict.get?_eq_none.mpr (hk.resolve_left hknown k)]
    rfl

/-- The file after a save. -/
theorem SettingsModel.Inv.after_save (h : m.Inv s) (settings : Settings N)
    (hk : Known s.1 ∨ ∀ k ∈ m.defaults, k ∈ settings.dict) : ∃ text,
    (saveSettings reader (s.1.defaults (some m.text)) .works .works s.1.file settings.toPy).1 = some text ∧
      m.Holds (settings :: s.2) text := by
  by_cases hknown : Known s.1
  · obtain ⟨text, hload, d, hd, hwf, hvalue⟩ := h.load hknown
    rw [hd] at hload
    exact m.holds_save settings hwf hload fun k => by rw [hvalue, m.value_cons]
  · obtain ⟨hnone, hload⟩ := load_of_not_known (m := m) hknown
    have hnew := h.1
    rw [hnone] at hnew
    refine m.holds_save settings (by simp [Dict.values, Dict.empty]) hload fun k => ?_
    rw [m.value_cons, hnew.2]
    by_cases hdefault : k ∈ m.defaults
    · obtain ⟨v, hv⟩ := Dict.mem_iff_get?.mp (hk.resolve_left hknown k hdefault)
      rw [hv]
      rfl
    · rw [value, Dict.get?_eq_none.mpr hdefault]
      rfl

theorem SettingsModel.Inv.step (h : m.Inv s) {c : Call N} (hs : m.Safe s c) : m.Inv (m.step s c) := by
  obtain ⟨hfile, haccepts⟩ := hs
  refine ⟨?_, fun _ => haccepts⟩
  cases c with
  | load =>
    obtain ⟨text, hload, hholds⟩ := h.after_load hfile
    rw [SettingsModel.step, PluginSettings.step]
    dsimp only
    rw [hload]
    exact hholds
  | save settings =>
    obtain ⟨text, hsave, hholds⟩ := h.after_save settings hfile
    rw [SettingsModel.step, PluginSettings.step]
    dsimp only
    rw [hsave]
    exact hholds
  | activate installs =>
    cases installs with
    | false => exact h.1
    | true =>
      obtain ⟨⟨file, loaded, active⟩, saved⟩ := s
      cases file with
      | some text => exact h.1
      | none =>
        obtain ⟨⟨-, rfl⟩, -⟩ := h
        exact m.holds_text
  | deactivate returns =>
    cases returns with
    | false => exact h.1
    | true =>
      obtain ⟨⟨file, loaded, active⟩, saved⟩ := s
      cases file with
      | some text => exact h.1
      | none => exact ⟨rfl, h.1.2⟩

omit [DecidableEq N] in
theorem SettingsModel.Inv.served (h : m.Inv s) : m.Served s := by
  intro hactive
  obtain ⟨⟨file, loaded, active⟩, saved⟩ := s
  cases file with
  | none => exact absurd (h.1.1.symm.trans hactive) Bool.false_ne_true
  | some text =>
    obtain ⟨d, hd, -, hvalue⟩ := h.1
    refine ⟨d, hd, ?_, fun k _ => hvalue k⟩
    rw [show d.get? = m.value saved from funext hvalue]
    exact h.2 hactive

/-! ## Runs -/

/-- The settings of an active plugin are complete, and the last ones saved, throughout the runs of safe calls. -/
theorem settings_throughout {calls : List (Call N)}
    (h : Machine.Along m.step m.Safe (⟨none, false, false⟩, []) calls) :
    Machine.Throughout m.step m.Served (⟨none, false, false⟩, []) calls :=
  Machine.throughout_of_along (I := m.Inv) (fun _ hs => hs.served) (fun _ _ hs hc => hs.step hc) ⟨⟨rfl, rfl⟩, nofun⟩ h

/-- A model with one field, a number. -/
def numberModel : SettingsModel (Json.Reader.canonical (N := ℕ)) where
  text := Json.dumpsIndent 0 (.obj [("a".toList, .num 1)])
  defaults := ⟨[("a".toList, .num 1)], by decide⟩
  accepts settings := ∃ n, settings "a".toList = some (.num n)
  loads_text := Json.Reader.canonical.loads_dumpsIndent _ (by simp [Json.WF, Json.WFEntries])

theorem settings_throughout_saved :
    Machine.Throughout numberModel.step numberModel.Served (⟨none, false, false⟩, [])
      [.activate true, .save ⟨⟨[("a".toList, .num 2)], by decide⟩, by simp [Dict.values, Json.WF]⟩, .load] := by
  refine settings_throughout ⟨⟨trivial, 1, rfl⟩, ⟨.inl (.inr rfl), 2, rfl⟩, ⟨.inl (.inr rfl), 2, rfl⟩, trivial⟩

/-- The settings are read once before the plugin is activated: the file has no defaults ever after. -/
theorem read_before_activation_loses_defaults :
    ¬Machine.Throughout numberModel.step numberModel.Served (⟨none, false, false⟩, []) [.load, .activate true] := by
  intro h
  obtain ⟨d, hd, -, hvalue⟩ := h _ (List.prefix_refl _) rfl
  have hd : Json.Reader.canonical.loads "\x7b\x7d".toList = some (.obj d.entries) := hd
  rw [loads_braces] at hd
  have hentries : [] = d.entries := by
    injection hd with hd
    injection hd
  have hnone : d.get? "a".toList = none := Dict.get?_eq_none.mpr (by simp [Dict.mem_def, Dict.keys, ← hentries])
  have hsome := hvalue "a".toList (.head _)
  rw [hnone] at hsome
  cases hsome

end KCore.MadHatter.PluginSettings
