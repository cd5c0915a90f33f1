import KCore.Lib.Run
import KCore.Impl.MadHatter.PluginSettings

/-!
# Settings that are saved

`save_settings` opens the file before it serialises: what a failure leaves of the file is
the part that was written, which does not load (`loads_of_isPrefix`). `save_settings_iff`
is when a save keeps the settings that it does not replace.
-/

namespace KCore.MadHatter.PluginSettings

open Text

variable {N : Type*} [DecidableEq N]

/-! ## Dictionaries of JSON values -/

omit [DecidableEq N] in
theorem ofEntries_eq_map (es : List (Str × Json N)) :
    Py.ofEntries es = es.map fun e => (Py.Key.str e.1, Py.ofJson e.2) := by
  induction es with
  | nil => rfl
  | cons e es ih => rw [Py.ofEntries, ih, List.map_cons]

/-- A dictionary with texts as its keys, as Python has it. -/
def embed (d : Dict Str (Json N)) : PyDict N :=
  ⟨Py.ofEntries d.entries, by
    rw [ofEntries_eq_map, List.map_map]
    have h : (d.entries.map Prod.fst).Nodup := d.nodup
    have h' := h.map (f := Py.Key.str (N := N)) fun _ _ h => by cases h; rfl
    rwa [List.map_map] at h'⟩

theorem ofEntries_put (k : Str) (v : Json N) (l : List (Str × Json N)) :
    Py.ofEntries (Dict.put k v l) = Dict.put (Py.Key.str k) (Py.ofJson v) (Py.ofEntries l) := by
  induction l with
  | nil => rfl
  | cons e l ih =>
    obtain ⟨k', w⟩ := e
    rw [Dict.put, Py.ofEntries, Dict.put]
    by_cases h : k' = k
    · rw [if_pos h, if_pos (congrArg Py.Key.str h)]
      rfl
    · rw [if_neg h, if_neg fun h' => h (by cases h'; rfl), ← ih]
      rfl

theorem embed_set (d : Dict Str (Json N)) (k : Str) (v : Json N) :
    embed (d.set k v) = (embed d).set (.str k) (Py.ofJson v) :=
  Dict.ext (ofEntries_put k v d.entries)

theorem foldl_set (l : List (Str × Json N)) (d : Dict Str (Json N)) :
    l.foldl (fun d e => d.set (.str e.1) (Py.ofJson e.2)) (embed d) =
      embed (l.foldl (fun d e => d.set e.1 e.2) d) := by
  induction l generalizing d with
  | nil => rfl
  | cons e l ih => rw [List.foldl_cons, List.foldl_cons, ← embed_set, ih]

theorem oldSettings_eq (d : Dict Str (Json N)) : oldSettings d.entries = embed d := by
  have h := foldl_set d.entries .empty
  rw [show d.entries.foldl (fun d e => d.set e.1 e.2) .empty = d from Dict.empty_merge d] at h
  exact h

theorem toPy_eq (settings : Settings N) : settings.toPy = embed settings.dict := oldSettings_eq settings.dict

theorem embed_merge (d d' : Dict Str (Json N)) : (embed d).merge (embed d') = embed (d.merge d') := by
  rw [Dict.merge, Dict.merge, ← foldl_set]
  show (Py.ofEntries d'.entries).foldl _ _ = _
  rw [ofEntries_eq_map, List.foldl_map]

/-! ## Reading back -/

omit [DecidableEq N] in
theorem wf_obj {d : Dict Str (Json N)} (h : ∀ v ∈ d.values, v.WF) : (Json.obj d.entries).WF :=
  ⟨d.nodup, Json.wfEntries_iff.mpr fun _ he => h _ (List.mem_map_of_mem he)⟩

omit [DecidableEq N] in
theorem exists_ofEntries {l : List (Py.Key N × Py.Value N)} (h : ∀ e ∈ l, ∃ k v, e = (.str k, Py.ofJson v) ∧ v.WF) :
    ∃ es : List (Str × Json N), Py.ofEntries es = l ∧ ∀ e ∈ es, e.2.WF := by
  induction l with
  | nil => exact ⟨[], rfl, by simp⟩
  | cons e l ih =>
    obtain ⟨es, rfl, hes⟩ := ih fun e he => h e (.tail _ he)
    obtain ⟨k, v, rfl, hv⟩ := h e (.head _)
    exact ⟨(k, v) :: es, rfl, List.forall_mem_cons.mpr ⟨hv, hes⟩⟩

/-- Every key is a text, and every value one of JSON. -/
def Plain (settings : PyDict N) : Prop := ∀ e ∈ settings.entries, ∃ k v, e = (.str k, Py.ofJson v) ∧ v.WF

theorem Plain.exists_embed {settings : PyDict N} (h : Plain settings) :
    ∃ d : Dict Str (Json N), embed d = settings ∧ ∀ v ∈ d.values, v.WF := by
  obtain ⟨es, hes, hwf⟩ := exists_ofEntries h
  have hnodup : (es.map Prod.fst).Nodup := by
    have hkeys : (settings.entries.map Prod.fst).Nodup := settings.nodup
    rw [← hes, ofEntries_eq_map, List.map_map] at hkeys
    refine List.Nodup.of_map (Py.Key.str (N := N)) ?_
    rwa [List.map_map]
  refine ⟨⟨es, hnodup⟩, Dict.ext hes, fun v hv => ?_⟩
  obtain ⟨e, he, rfl⟩ := List.mem_map.mp hv
  exact hwf e he

variable [Numeral N] (reader : Json.Reader N)

/-- JSON settings are written whole, and read back as they are. -/
theorem loads_embed {d : Dict Str (Json N)} (h : ∀ v ∈ d.values, v.WF) :
    (Py.dump 0 (.obj (embed d).entries)).2 = true ∧
      reader.loads (Py.dump 0 (.obj (embed d).entries)).1 = some (.obj d.entries) := by
  have hdump : Py.dump 0 (.obj (embed d).entries) = (Json.dumpsIndent 0 (.obj d.entries), true) :=
    Py.dump_ofJson 0 (.obj d.entries)
  rw [hdump]
  exact ⟨rfl, reader.loads_dumpsIndent _ (wf_obj h)⟩

/-- What was written of the settings before a failure does not load. -/
theorem loads_of_isPrefix {settings : PyDict N} {t : Str} (ht : t <+: (Py.dump 0 (.obj settings.entries)).1)
    (h : (Py.dump 0 (.obj settings.entries)).2 = true → t ≠ (Py.dump 0 (.obj settings.entries)).1) :
    reader.loads t = none := by
  rcases Py.unclosed_of_isPrefix 0 ht h with rfl | hopen
  · exact reader.loads_nil
  · cases hl : reader.loads t with
    | none => rfl
    | some v => exact absurd (reader.balanced hl) hopen

omit [DecidableEq N] in
/-- Settings that were loaded. -/
theorem exists_dict_of_loads {t : Str} {es : List (Str × Json N)} (h : reader.loads t = some (.obj es)) :
    ∃ d : Dict Str (Json N), d.entries = es ∧ ∀ v ∈ d.values, v.WF := by
  obtain ⟨hnodup, hwf⟩ : (es.map Prod.fst).Nodup ∧ Json.WFEntries es := reader.wf h
  refine ⟨⟨es, hnodup⟩, rfl, fun v hv => ?_⟩
  obtain ⟨e, he, rfl⟩ := List.mem_map.mp hv
  exact Json.wfEntries_iff.mp hwf e he

omit [Numeral N] in
theorem mem_merge {d d' : PyDict N} {e : Py.Key N × Py.Value N} (h : e ∈ d'.entries) : e ∈ (d.merge d').entries := by
  rw [← Dict.get?_eq_some, Dict.get?_merge, Dict.get?_eq_some.mpr h]
  rfl

omit [DecidableEq N] [Numeral N] in
/-- The values that are updated. -/
theorem values_merge {d d' : Dict Str (Json N)} (h : ∀ v ∈ d.values, v.WF) (h' : ∀ v ∈ d'.values, v.WF) :
    ∀ v ∈ (d.merge d').values, v.WF := by
  intro v hv
  obtain ⟨k, hk⟩ := Dict.mem_values.mp hv
  rw [Dict.get?_merge, Option.or_eq_some_iff] at hk
  rcases hk with hk | ⟨-, hk⟩
  · exact h' v (Dict.mem_values.mpr ⟨k, hk⟩)
  · exact h v (Dict.mem_values.mpr ⟨k, hk⟩)

/-! ## A save -/

/-- What a save is to leave for the next load: after a success, the old settings `es` with the new ones over them;
after a failure, the old ones. -/
def Kept (defaults : Option Str) (creating saving : Disk) (file : Option Str) (settings : PyDict N)
    (es : List (Str × Json N)) : Prop :=
  let saved := saveSettings reader defaults creating saving file settings
  let later := (loadSettings reader defaults .works saved.1).2
  let updated := (oldSettings es).merge settings
  (∀ u, saved.2 = some u → u.entries ≠ [] → later.map Py.ofJson = some (.obj updated.entries)) ∧
    (saved.2 = none ∨ saving ≠ .works ∨ (Py.dump 0 (.obj updated.entries)).2 = false → later = some (.obj es))

/-- The write is refused, or whole: of settings that are JSON, or, where the error comes after it, of what reads as the
old settings. -/
def Whole (saving : Disk) (settings : PyDict N) (es : List (Str × Json N)) : Prop :=
  match saving with
  | .refuses => True
  | .works => Plain settings
  | .cut n =>
    let (text, ok) := Py.dump 0 (.obj ((oldSettings es).merge settings).entries)
    ok = true ∧ text.length ≤ n ∧ reader.loads text = some (.obj es)

/-- The same, where a file that is not there may have to be created first. -/
def Lasting (defaults : Option Str) (creating saving : Disk) (file : Option Str) (settings : PyDict N)
    (es : List (Str × Json N)) : Prop :=
  match file, defaults, creating with
  | none, some _, .refuses => True
  | none, some text, .cut n => reader.loads (text.take n) = some (.obj es)
  | _, _, _ => Whole reader saving settings es

theorem loads_take_iff (settings : PyDict N) (n : ℕ) (es : List (Str × Json N)) :
    reader.loads ((Py.dump 0 (.obj settings.entries)).1.take n) = some (.obj es) ↔
      (Py.dump 0 (.obj settings.entries)).2 = true ∧ (Py.dump 0 (.obj settings.entries)).1.length ≤ n ∧
        reader.loads (Py.dump 0 (.obj settings.entries)).1 = some (.obj es) := by
  constructor
  · intro h
    have hall : (Py.dump 0 (.obj settings.entries)).2 = true ∧
        (Py.dump 0 (.obj settings.entries)).1.take n = (Py.dump 0 (.obj settings.entries)).1 := by
      by_contra hcut
      rw [loads_of_isPrefix reader (List.take_prefix n _) fun hok htake => hcut ⟨hok, htake⟩] at h
      cases h
    refine ⟨hall.1, List.take_eq_self_iff _ |>.mp hall.2, ?_⟩
    rwa [hall.2] at h
  · intro ⟨_, hlen, h⟩
    rwa [List.take_of_length_le hlen]

omit [DecidableEq N] in
/-- What loads without an error gives a dictionary of settings. -/
theorem exists_old {defaults : Option Str} {file : Option Str} {es : List (Str × Json N)}
    (h : (loadSettings reader defaults .works file).2 = some (.obj es)) :
    ∃ d : Dict Str (Json N), d.entries = es ∧ ∀ v ∈ d.values, v.WF := by
  cases file with
  | some text => exact exists_dict_of_loads reader h
  | none =>
    cases defaults with
    | some text => exact exists_dict_of_loads reader h
    | none =>
      cases h
      exact ⟨.empty, rfl, by simp [Dict.values, Dict.empty]⟩

/-- JSON settings over old ones are written whole, and read back as they are. -/
theorem Plain.loads {d : Dict Str (Json N)} {settings : PyDict N} (hd : ∀ v ∈ d.values, v.WF) (h : Plain settings) :
    ∃ es, ((embed d).merge settings).entries = Py.ofEntries es ∧
      (Py.dump 0 (.obj ((embed d).merge settings).entries)).2 = true ∧
      reader.loads (Py.dump 0 (.obj ((embed d).merge settings).entries)).1 = some (.obj es) := by
  obtain ⟨d', rfl, hd'⟩ := h.exists_embed
  rw [embed_merge]
  exact ⟨(d.merge d').entries, rfl, loads_embed reader (values_merge hd hd')⟩

/-- Settings whose update is read back are those of JSON. -/
theorem plain_of_loads {old settings : PyDict N} {t : Str}
    (h : (reader.loads t).map Py.ofJson = some (.obj (old.merge settings).entries)) : Plain settings := by
  obtain ⟨v, hv, hobj⟩ := Option.map_eq_some_iff.mp h
  cases v with
  | obj es =>
    obtain ⟨d, rfl, hd⟩ := exists_dict_of_loads reader hv
    have hentries : Py.ofEntries d.entries = (old.merge settings).entries := by
      rw [Py.ofJson] at hobj
      exact Py.Value.obj.inj hobj
    intro e he
    have hmem := mem_merge (d := old) he
    rw [← hentries, ofEntries_eq_map] at hmem
    obtain ⟨⟨k, w⟩, hkw, rfl⟩ := List.mem_map.mp hmem
    exact ⟨k, w, rfl, hd w (List.mem_map_of_mem hkw)⟩
  | _ => simp [Py.ofJson] at hobj

/-- A save over settings that were loaded. -/
theorem saveSettings_eq {defaults : Option Str} {creating : Disk} (saving : Disk) {file file' : Option Str}
    (settings : PyDict N) {es : List (Str × Json N)}
    (hload : loadSettings reader defaults creating file = (file', some (.obj es))) :
    saveSettings reader defaults creating saving file settings =
      let updated := (oldSettings es).merge settings
      let written := Py.dump 0 (.obj updated.entries)
      match saving with
      | .refuses => (file', some .empty)
      | .cut n => (some (written.1.take n), some .empty)
      | .works => (some written.1, some (if written.2 then updated else .empty)) := by
  unfold saveSettings
  cases saving <;> simp only [hload]

/-- A write of settings over those that were loaded. -/
theorem kept_iff_whole {defaults : Option Str} {creating : Disk} (saving : Disk) {file file' : Option Str}
    (settings : PyDict N) {es : List (Str × Json N)}
    (hload : loadSettings reader defaults creating file = (file', some (.obj es)))
    (hlater : (loadSettings reader defaults .works file').2 = some (.obj es)) :
    Kept reader defaults creating saving file settings es ↔ Whole reader saving settings es := by
  rw [Kept, saveSettings_eq reader saving settings hload]
  cases saving with
  | refuses =>
    refine iff_of_true ⟨fun u hu hne => ?_, fun _ => hlater⟩ trivial
    cases hu
    exact absurd rfl hne
  | cut n =>
    refine Iff.trans ⟨fun h => h.2 (.inr (.inl nofun)), fun h => ⟨fun u hu hne => ?_, fun _ => h⟩⟩
      (loads_take_iff reader ((oldSettings es).merge settings) n es)
    cases hu
    exact absurd rfl hne
  | works =>
    obtain ⟨d, rfl, hd⟩ := exists_old reader hlater
    rw [oldSettings_eq]
    constructor
    · intro ⟨hkept, hfailed⟩
      have hok : (Py.dump 0 (.obj ((embed d).merge settings).entries)).2 = true := by
        by_contra hok
        have hnone := loads_of_isPrefix reader (List.prefix_refl _) fun h => absurd h hok
        have hold : reader.loads (Py.dump 0 (.obj ((embed d).merge settings).entries)).1 = _ :=
          hfailed (.inr (.inr (Bool.eq_false_iff.mpr hok)))
        rw [hnone] at hold
        cases hold
      by_cases hempty : ((embed d).merge settings).entries = []
      · intro e he
        have hmem := mem_merge (d := embed d) he
        rw [hempty] at hmem
        cases hmem
      · exact plain_of_loads reader (hkept _ (congrArg some (if_pos hok)) hempty)
    · intro hplain
      obtain ⟨es', hes', hok, hloads⟩ := hplain.loads reader hd
      refine ⟨fun u _ _ => ?_, fun h => ?_⟩
      · show (reader.loads _).map Py.ofJson = _
        rw [hloads, Option.map_some, Py.ofJson, hes']
      · rcases h with h | h | h
        · cases h
        · exact absurd rfl h
        · rw [hok] at h
          cases h

/-- A save keeps the settings that it does not replace just where its writes last. -/
theorem save_settings_iff {defaults : Option Str} (creating saving : Disk) {file : Option Str} (settings : PyDict N)
    {es : List (Str × Json N)} (h : (loadSettings reader defaults .works file).2 = some (.obj es)) :
    Kept reader defaults creating saving file settings es ↔ Lasting reader defaults creating saving file settings es := by
  cases file with
  | some text =>
    have hload : reader.loads text = some (.obj es) := h
    exact kept_iff_whole reader saving settings (by rw [loadSettings, hload]) h
  | none =>
    cases defaults with
    | none =>
      cases h
      exact kept_iff_whole reader saving settings rfl rfl
    | some text =>
      have hload : reader.loads text = some (.obj es) := h
      cases creating with
      | works =>
        have hfirst : loadSettings reader (some text) .works none = (some text, some (.obj es)) := by
          rw [loadSettings, createSettingsFromModel, ← hload]
          rfl
        exact kept_iff_whole reader saving settings hfirst hload
      | refuses => exact iff_of_true ⟨(fun u hu => by cases hu), fun _ => h⟩ trivial
      | cut n => exact ⟨fun hkept => hkept.2 (.inl rfl), fun hload => ⟨(fun u hu => by cases hu), fun _ => hload⟩⟩

/-- A text is saved beside a number. -/
theorem save_settings_iff_text :
    Kept Json.Reader.canonical none .works .works (some (Json.dumpsIndent 0 (.obj [("a".toList, .num 1)])))
      ⟨[(.str "b".toList, .str "x".toList)], by decide⟩ [("a".toList, (.num 1 : Json ℕ))] := by
  refine (save_settings_iff Json.Reader.canonical .works .works _ ?_).mpr ?_
  · refine Json.Reader.canonical.loads_dumpsIndent (.obj [("a".toList, .num 1)]) ?_
    simp [Json.WF, Json.WFEntries]
  · intro e he
    rw [List.mem_singleton] at he
    exact ⟨"b".toList, .str "x".toList, he, trivial⟩

/-- A value that JSON has no text for: the settings before it are lost. -/
theorem unserialisable_setting_loses :
    let file := Json.dumpsIndent 0 (.obj [("a".toList, (.num 1 : Json ℕ))])
    (loadSettings Json.Reader.canonical none .works (some file)).2 = some (.obj [("a".toList, (.num 1 : Json ℕ))]) ∧
      ¬Kept Json.Reader.canonical none .works .works (some file) ⟨[(.str "b".toList, .object)], by decide⟩
        [("a".toList, (.num 1 : Json ℕ))] := by
  intro file
  have hloads : Json.Reader.canonical.loads file = some (.obj [("a".toList, (.num 1 : Json ℕ))]) :=
    Json.Reader.canonical.loads_dumpsIndent _ (by simp [Json.WF, Json.WFEntries])
  have hload : loadSettings Json.Reader.canonical none .works (some file) =
      (some file, some (.obj [("a".toList, .num 1)])) := by rw [loadSettings, hloads]
  refine ⟨congrArg Prod.snd hload, fun h => ?_⟩
  have hplain := (kept_iff_whole Json.Reader.canonical .works _ hload (congrArg Prod.snd hload)).mp h
  obtain ⟨k, v, hkv, -⟩ := hplain _ (.head _)
  cases v <;> cases hkv

end KCore.MadHatter.PluginSettings
