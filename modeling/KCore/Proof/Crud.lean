import KCore.Impl.Crud
import KCore.Lib.Run
import Mathlib.Data.List.Nodup
import Mathlib.Data.List.Pairwise
import Mathlib.Logic.Function.Basic

/-!
# One record per name and per id

An upsert looks the name up before it inserts; the route that creates a setting does not,
and the one that updates a setting may give it a name that is in use. `keyed_iff` says
that these are the only ways to get two records of one name, or of one id.
-/

namespace KCore.Crud

open Text Machine

variable {V : Type*} {db : Table V} {uuid : ℕ → Str} {s : Store V} {c : Call V}

/-- No two records have one name, and no two have one id. -/
structure Keyed (db : Table V) : Prop where
  names : (db.map (·.name)).Nodup
  ids : (db.map (·.settingId)).Nodup

/-- A created or an updated setting takes no name of another record. -/
def NameUnused (s : Store V) : Call V → Prop
  | .create payload _ => ∀ r ∈ s.db, r.name ≠ payload.name
  | .update settingId payload _ =>
    (∃ r ∈ s.db, r.settingId = settingId) → ∀ r ∈ s.db, r.settingId ≠ settingId → r.name ≠ payload.name
  | _ => True

instance : Decidable (NameUnused s c) :=
  match c with
  | .create payload _ => inferInstanceAs (Decidable (∀ r ∈ s.db, r.name ≠ payload.name))
  | .update settingId payload _ => inferInstanceAs (Decidable
    ((∃ r ∈ s.db, r.settingId = settingId) → ∀ r ∈ s.db, r.settingId ≠ settingId → r.name ≠ payload.name))
  | .delete _ | .upsertByName .. | .updateUsers .. | .deleteByCategory _ => .isTrue trivial

/-- What an upsert and a successful update leave: the name, or the id, has the new content, and the other records are
as they were. -/
def Written (uuid : ℕ → Str) (s : Store V) (c : Call V) : Prop :=
  let db := (step uuid s c).db
  let byName (name : Str) (value : V) : Prop := (getSettingByName db name).map (·.value) = some value ∧
    (db.filter fun r => r.name ≠ name) = s.db.filter fun r => r.name ≠ name
  match c with
  | .upsertByName payload _ => byName payload.name payload.value
  | .updateUsers users _ => byName usersName users
  | .update settingId payload _ => (respond uuid s c).2 ≠ notFound settingId →
    (getSettingById db settingId).map (·.toSettingBody) = some payload ∧
      (db.filter fun r => r.settingId ≠ settingId) = s.db.filter fun r => r.settingId ≠ settingId
  | _ => True

/-- The ids of the records are among those that have been drawn. -/
def Drawn (uuid : ℕ → Str) (s : Store V) : Prop := ∀ r ∈ s.db, ∃ k < s.drawn, r.settingId = uuid k

/-! ## Records that are replaced -/

section Replace

variable {α β γ : Type*} [DecidableEq β] {k : α → β} {f : α → γ} {x : β} {r : α} {l : List α}

/-- The one record with the key `x` is replaced: another key stays unique unless a second record has the new one. -/
theorem nodup_replace (hk : (l.map k).Nodup) (hf : (l.map f).Nodup) (hx : ∃ a ∈ l, k a = x) :
    ((l.map fun a => if k a = x then r else a).map f).Nodup ↔ ∀ a ∈ l, k a ≠ x → f a ≠ f r := by
  rw [List.map_map, List.Nodup, List.pairwise_map]
  rw [List.Nodup, List.pairwise_map] at hk hf
  constructor
  · intro h a ha hax
    obtain ⟨b, hb, hbx⟩ := hx
    have hab : a ≠ b := fun e => hax (e ▸ hbx)
    have hsymm : Std.Symm fun a b => (f ∘ fun a => if k a = x then r else a) a ≠
      (f ∘ fun a => if k a = x then r else a) b := ⟨fun _ _ h => h.symm⟩
    have := h.forall ha hb hab
    simpa [hax, hbx] using this
  · intro h
    refine (hk.and hf).imp_of_mem fun {a b} ha hb hab => ?_
    show f (if k a = x then r else a) ≠ f (if k b = x then r else b)
    split <;> split
    · rename_i hax hbx
      exact absurd (hax.trans hbx.symm) hab.1
    · exact (h b hb ‹_›).symm
    · exact h a ha ‹_›
    · exact hab.2

theorem filter_replace (hr : k r = x) :
    ((l.map fun a => if k a = x then r else a).filter fun a => k a ≠ x) = l.filter fun a => k a ≠ x := by
  induction l with
  | nil => rfl
  | cons a l ih =>
    rw [List.map_cons, List.filter_cons, List.filter_cons, ih]
    by_cases ha : k a = x
    · simp [ha, hr]
    · simp [ha]

theorem head?_filter_replace (hr : k r = x) (hx : ∃ a ∈ l, k a = x) :
    ((l.map fun a => if k a = x then r else a).filter fun a => k a = x).head? = some r := by
  induction l with
  | nil => simp at hx
  | cons a l ih =>
    rw [List.map_cons]
    by_cases ha : k a = x
    · simp [ha, hr]
    · obtain ⟨b, hb, hbx⟩ := hx
      rcases List.mem_cons.mp hb with rfl | hb
      · exact absurd hbx ha
      · simpa [ha] using ih ⟨b, hb, hbx⟩

end Replace

theorem getSettingByName_eq_none {name : Str} : getSettingByName db name = none ↔ ∀ r ∈ db, r.name ≠ name := by
  simp [getSettingByName]

theorem getSettingById_eq_none {settingId : Str} :
    getSettingById db settingId = none ↔ ∀ r ∈ db, r.settingId ≠ settingId := by
  simp [getSettingById]

theorem exists_of_getSettingById {settingId : Str} {t : Setting V} (h : getSettingById db settingId = some t) :
    ∃ r ∈ db, r.settingId = settingId := by
  have ht : t ∈ db.filter fun r => r.settingId = settingId := List.mem_of_head? h
  exact ⟨t, List.mem_of_mem_filter ht, by simpa using List.of_mem_filter ht⟩

theorem upsert_new {payload : Setting V} (h : ∀ r ∈ db, r.name ≠ payload.name) :
    upsertSettingByName db payload = db ++ [payload] := by
  rw [upsertSettingByName, getSettingByName_eq_none.mpr h, createSetting]

theorem upsert_present {payload : Setting V} (h : ∃ r ∈ db, r.name = payload.name) :
    upsertSettingByName db payload = db.map fun r => if r.name = payload.name then payload else r := by
  rw [upsertSettingByName]
  cases hg : getSettingByName db payload.name with
  | none =>
    obtain ⟨r, hr, hn⟩ := h
    exact absurd hn (getSettingByName_eq_none.mp hg r hr)
  | some _ => rfl

theorem present_or_new (db : Table V) (name : Str) : (∃ r ∈ db, r.name = name) ∨ ∀ r ∈ db, r.name ≠ name := by
  rw [or_iff_not_imp_left]
  exact fun h r hr hn => h ⟨r, hr, hn⟩

/-! ## One call -/

theorem keyed_append {payload : Setting V} (h : Keyed db) (hid : ∀ r ∈ db, r.settingId ≠ payload.settingId) :
    Keyed (db ++ [payload]) ↔ ∀ r ∈ db, r.name ≠ payload.name := by
  have happend {β : Type _} (f : Setting V → β) (hf : (db.map f).Nodup) :
      ((db ++ [payload]).map f).Nodup ↔ ∀ r ∈ db, f r ≠ f payload := by
    rw [List.map_append, List.nodup_append]
    simp [hf]
  refine ⟨fun hk => (happend (·.name) h.names).mp hk.names, fun hn => ⟨?_, ?_⟩⟩
  · exact (happend (·.name) h.names).mpr hn
  · exact (happend (·.settingId) h.ids).mpr hid

theorem keyed_upsert {payload : Setting V} (h : Keyed db) (hid : ∀ r ∈ db, r.settingId ≠ payload.settingId) :
    Keyed (upsertSettingByName db payload) := by
  rcases present_or_new db payload.name with hex | hnew
  · rw [upsert_present hex]
    refine ⟨?_, ?_⟩
    · exact (nodup_replace h.names h.names hex).mpr fun _ _ hn => hn
    · exact (nodup_replace h.names h.ids hex).mpr fun r hr _ => hid r hr
  · rw [upsert_new hnew]
    exact (keyed_append h hid).mpr hnew

theorem keyed_update {payload : Setting V} (h : Keyed db) (hex : ∃ r ∈ db, r.settingId = payload.settingId) :
    Keyed (updateSettingById db payload) ↔ ∀ r ∈ db, r.settingId ≠ payload.settingId → r.name ≠ payload.name := by
  refine ⟨fun hk => (nodup_replace h.ids h.names hex).mp hk.names, fun hn => ⟨?_, ?_⟩⟩
  · exact (nodup_replace h.ids h.names hex).mpr hn
  · exact (nodup_replace h.ids h.ids hex).mpr fun _ _ hne => hne

theorem keyed_filter (h : Keyed db) (p : Setting V → Bool) : Keyed (db.filter p) :=
  ⟨h.names.sublist (List.filter_sublist.map _), h.ids.sublist (List.filter_sublist.map _)⟩

/-- An id that is drawn now is the id of no record. -/
theorem Drawn.fresh (huuid : Function.Injective uuid) (h : Drawn uuid s) : ∀ r ∈ s.db, r.settingId ≠ uuid s.drawn := by
  intro r hr he
  obtain ⟨k, hk, hrk⟩ := h r hr
  have : k = s.drawn := huuid (hrk.symm.trans he)
  omega

theorem keyed_step (huuid : Function.Injective uuid) (hd : Drawn uuid s) (h : Keyed s.db) (c : Call V) :
    Keyed (step uuid s c).db ↔ NameUnused s c := by
  have hid := hd.fresh huuid
  cases c with
  | create payload now => exact keyed_append h hid
  | update settingId payload now =>
    simp only [step, respond, NameUnused]
    cases hg : getSettingById s.db settingId with
    | none =>
      refine iff_of_true h fun ⟨r, hr, he⟩ => absurd he ?_
      exact getSettingById_eq_none.mp hg r hr
    | some t =>
      have hex := exists_of_getSettingById hg
      exact (keyed_update h hex).trans ⟨fun hn _ => hn, fun hn => hn hex⟩
  | delete settingId =>
    simp only [step, respond]
    cases getSettingById s.db settingId with
    | none => exact iff_of_true h trivial
    | some t => exact iff_of_true (keyed_filter h _) trivial
  | upsertByName payload now => exact iff_of_true (keyed_upsert h hid) trivial
  | updateUsers users now => exact iff_of_true (keyed_upsert h hid) trivial
  | deleteByCategory category => exact iff_of_true (keyed_filter h _) trivial

/-! ### Ids are drawn -/

theorem Drawn.add (h : Drawn uuid s) {db : Table V} (payload : Setting V) (hp : payload.settingId = uuid s.drawn)
    (hdb : ∀ r ∈ db, r = payload ∨ r ∈ s.db) : Drawn uuid ⟨db, s.drawn + 1⟩ := by
  intro r hr
  rcases hdb r hr with rfl | hr
  · exact ⟨s.drawn, by simp, hp⟩
  · obtain ⟨k, hk, he⟩ := h r hr
    exact ⟨k, Nat.lt_succ_of_lt hk, he⟩

theorem mem_upsert {payload r : Setting V} (h : r ∈ upsertSettingByName db payload) : r = payload ∨ r ∈ db := by
  rcases present_or_new db payload.name with hex | hnew
  · rw [upsert_present hex] at h
    obtain ⟨t, ht, rfl⟩ := List.mem_map.mp h
    split
    · exact .inl rfl
    · exact .inr ht
  · rw [upsert_new hnew, List.mem_append, List.mem_singleton] at h
    exact h.symm

theorem drawn_step (c : Call V) (h : Drawn uuid s) : Drawn uuid (step uuid s c) := by
  cases c with
  | create payload now =>
    refine h.add ⟨payload, uuid s.drawn, now⟩ rfl fun r hr => ?_
    rw [createSetting, List.mem_append, List.mem_singleton] at hr
    exact hr.symm
  | update settingId payload now =>
    simp only [step, respond]
    cases getSettingById s.db settingId with
    | none => exact h
    | some t =>
      intro r hr
      obtain ⟨u, hu, rfl⟩ := List.mem_map.mp hr
      obtain ⟨k, hk, he⟩ := h u hu
      refine ⟨k, Nat.lt_succ_of_lt hk, ?_⟩
      split
      · rename_i hid
        exact hid.symm.trans he
      · exact he
  | delete settingId =>
    simp only [step, respond]
    cases getSettingById s.db settingId with
    | none => exact h
    | some t => exact fun r hr => h r (List.mem_of_mem_filter hr)
  | upsertByName payload now => exact h.add _ rfl fun r hr => mem_upsert hr
  | updateUsers users now => exact h.add _ rfl fun r hr => mem_upsert hr
  | deleteByCategory category => exact fun r hr => h r (List.mem_of_mem_filter hr)

/-! ### What a write leaves -/

theorem upsert_written (db : Table V) (payload : Setting V) :
    (getSettingByName (upsertSettingByName db payload) payload.name).map (·.value) = some payload.value ∧
      ((upsertSettingByName db payload).filter fun r => r.name ≠ payload.name) =
        db.filter fun r => r.name ≠ payload.name := by
  rcases present_or_new db payload.name with hex | hnew
  · rw [upsert_present hex, getSettingByName, head?_filter_replace rfl hex]
    exact ⟨rfl, filter_replace rfl⟩
  · rw [upsert_new hnew, getSettingByName, List.filter_append, List.filter_append,
      List.filter_eq_nil_iff.mpr fun r hr => by simpa using hnew r hr]
    simp

theorem update_written {payload : Setting V} (hex : ∃ r ∈ db, r.settingId = payload.settingId) :
    getSettingById (updateSettingById db payload) payload.settingId = some payload ∧
      ((updateSettingById db payload).filter fun r => r.settingId ≠ payload.settingId) =
        db.filter fun r => r.settingId ≠ payload.settingId :=
  ⟨head?_filter_replace rfl hex, filter_replace rfl⟩

theorem written_step (uuid : ℕ → Str) (s : Store V) (c : Call V) : Written uuid s c := by
  cases c with
  | update settingId payload now =>
    simp only [Written, step, respond]
    cases hg : getSettingById s.db settingId with
    | none => exact fun h => absurd rfl h
    | some t =>
      intro _
      let payload : Setting V := ⟨payload, settingId, now⟩
      have hex : ∃ r ∈ s.db, r.settingId = payload.settingId := exists_of_getSettingById hg
      obtain ⟨hget, hrest⟩ := update_written hex
      exact ⟨congrArg (Option.map (·.toSettingBody)) hget, hrest⟩
  | upsertByName payload now => exact upsert_written s.db ⟨payload, uuid s.drawn, now⟩
  | updateUsers users now => exact upsert_written s.db ⟨⟨usersName, users, none⟩, uuid s.drawn, now⟩
  | create | delete | deleteByCategory => trivial

/-! ## Runs -/

/-- From an empty table there is one record per name and one per id at every moment, and every upsert and every
successful update leaves what it should, just where no setting is created or updated to the name of another. -/
theorem keyed_iff (huuid : Function.Injective uuid) (cs : List (Call V)) :
    Throughout (step uuid) (fun s => Keyed s.db) .empty cs ∧ Along (step uuid) (Written uuid) .empty cs ↔
      Along (step uuid) NameUnused .empty cs := by
  have hdrawn : Drawn uuid (Store.empty (V := V)) := fun _ => nofun
  have hkeyed : Keyed (Store.empty (V := V)).db := ⟨List.nodup_nil, List.nodup_nil⟩
  rw [← throughout_iff_along (fun _ c h => drawn_step c h) (fun _ c hd h => keyed_step huuid hd h c) hdrawn hkeyed]
  refine and_iff_left ?_
  exact (along_true _ cs).mono fun s c _ => written_step uuid s c

/-- A setting that is created, written and renamed. -/
theorem keyed_three : Throughout (step fun n => List.replicate n 'x') (fun s => Keyed s.db) .empty
    [.create ⟨"a".toList, 1, none⟩ 0, .upsertByName ⟨"a".toList, 2, none⟩ 0,
      .update "x".toList ⟨"b".toList, 3, none⟩ 0] :=
  ((keyed_iff (List.replicate_left_injective 'x') _).mpr (by decide)).1

/-- A name is created twice and then written: two records have the name, and then one id. -/
theorem created_twice : ¬Keyed (run (step fun n => List.replicate n 'x') .empty
    [.create ⟨"a".toList, 1, none⟩ 0, .create ⟨"a".toList, 2, none⟩ 0]).db ∧
    ((run (step fun n => List.replicate n 'x') .empty
      [.create ⟨"a".toList, 1, none⟩ 0, .create ⟨"a".toList, 2, none⟩ 0, .upsertByName ⟨"a".toList, 3, none⟩ 0]).db.map
        (·.settingId)) = ["xx".toList, "xx".toList] := by
  refine ⟨fun h => absurd h.names (by decide), by decide⟩

end KCore.Crud
