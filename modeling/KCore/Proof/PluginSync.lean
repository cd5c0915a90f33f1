import KCore.Impl.PluginSync
import KCore.Proof.LongTermMemory.Account
import KCore.Proof.MadHatter.Active

/-!
# The embedded procedures are those of the plugins

On the database a call of the plugin manager is a sync, and a wipe a load, of the procedures that the plugin manager has
after it (`sync_eq`, `load_eq`). So once such a call has returned, the procedural collection bears exactly the hashes of
their triggers, until a later sync or load raises, or a request deletes procedures (`plugins_embedded`).
-/

namespace KCore.PluginSync

open Text Faulty MadHatter LongTermMemory

variable {M : Type} {code : Code}

/-! ## The database -/

theorem step_tidy {db : Db M} (h : Tidy db) (e : Request M × List Fault) : Tidy (LongTermMemory.step db e) := by
  have hkept : Kept VectorMemory.episodic db ⟨none, [], memories db VectorMemory.episodic⟩ :=
    ⟨h, by rintro _ ⟨⟩, List.nil_sublist _, List.Sublist.refl _⟩
  exact (step_kept hkept (by decide) (by decide) e).toTidy

theorem aligned_congr {procedures : List CheshireCat.Procedure} {db db' : Db M} (h : Aligned procedures db)
    (hsame : memories db' procedural = memories db procedural) : Aligned procedures db' :=
  h.imp fun _ hps => ⟨hsame.trans hps.1, hps.2⟩

/-- The request deletes no procedures. -/
def spares : PointRequest M → Bool
  | .create .. | .edit .. => true
  | .delete name _ | .deleteByMetadata name _ => name ≠ procedural

theorem memories_of_changes {db : Db M} {name : Str} {g : List (MemoryPoint M) → List (MemoryPoint M)}
    {m : Prog (Db M) Unit} (hm : Changes db name g m) (hne : name ≠ procedural) (faults : List Fault) :
    memories (m db faults).2.1 procedural = memories db procedural := by
  have hchanged (db' : Db M) (h : Changed db name g db') : memories db' procedural = memories db procedural := by
    obtain ⟨c, -, rfl⟩ := h
    exact memories_of_get? (Dict.get?_set_of_ne _ _ hne.symm)
  rcases hm.ends faults (.inl rfl) rfl with ⟨_, -, h⟩ | ⟨-, h | h⟩
  · exact hchanged _ h
  · rw [h]
  · exact hchanged _ h

theorem memories_of_spares {db : Db M} (r : PointRequest M) (hr : spares r = true) (faults : List Fault) :
    memories (r.serve db faults).2.1 procedural = memories db procedural := by
  cases r with
  | create name size id payload =>
    by_cases hname : name = procedural
    · subst hname
      rfl
    · exact memories_of_changes (createMemoryPoint_changes size id payload) hname faults
  | edit name size id payload =>
    by_cases hname : name = procedural
    · subst hname
      rfl
    · exact memories_of_changes (editMemoryPoint_changes size id payload) hname faults
  | delete name id => exact memories_of_changes (deleteMemoryPoint_changes id) (of_decide_eq_true hr) faults
  | deleteByMetadata name selected =>
    exact memories_of_changes (deleteMemoryPointsByMetadata_changes selected) (of_decide_eq_true hr) faults

/-! ## Syncs -/

/-- One scroll returns the points of all triggers. -/
def Small (code : Code) (s : State) : Prop := (CheshireCat.triggers (procedures code s)).length ≤ 10000

/-- The sync of the plugins in a call. -/
def asSync (code : Code) (o : Outside) (r : Result) (h : r.embeds = true → Small code r.hat) : Sync where
  call := if r.embeds then some (embedCall code o r.hat) else none
  small := by
    intro c hc
    split at hc
    · rename_i hr
      obtain rfl := Option.some.inj hc
      exact h hr
    · cases hc
  returns := r.returns

section

variable {o : Outside} {r : Result} (h : r.embeds = true → Small code r.hat)

theorem embedCall_of_mem {c : CheshireCat.Call} (hc : (asSync code o r h).call = some c) :
    c = embedCall code o r.hat := by
  dsimp only [asSync] at hc
  split at hc
  · exact (Option.some.inj hc).symm
  · cases hc

theorem embed_eq (size : ℕ) : (embed code o size r : Prog (Db M) Unit) = syncPlugins size (asSync code o r h) := by
  unfold embed syncPlugins
  by_cases hr : r.embeds = true
  · have hcall : (asSync code o r h).call = some (embedCall code o r.hat) := if_pos hr
    rw [if_pos hr, hcall]
    rfl
  · have hcall : (asSync code o r h).call = none := if_neg hr
    rw [if_neg hr, hcall]

/-- A call of the plugin manager is a sync. -/
theorem sync_eq (size : ℕ) (faults : List Fault) (db : Db M) : World.sync code o size faults db r =
    (⟨r.hat, LongTermMemory.step db (.sync size (asSync code o r h), faults)⟩,
      returns db (.sync size (asSync code o r h), faults)) := by
  unfold World.sync
  rw [embed_eq h]
  rfl

end

/-- A sync that returns came to `embed_procedures`. -/
theorem returns_of_sync {o : Outside} {size : ℕ} {faults : List Fault} {db : Db M} {r : Result}
    (h : (World.sync code o size faults db r).2 = true) : r.embeds = true ∧ r.returns = true := by
  unfold World.sync embed at h
  by_cases hembeds : r.embeds = true
  · refine ⟨hembeds, ?_⟩
    by_contra hreturns
    rw [if_pos hembeds, if_neg hreturns] at h
    revert h
    generalize (embedProcedures size (embedCall code o r.hat) : Prog (Db M) Unit) = m
    dsimp only [bind]
    rcases m db faults with ⟨_ | _, _, _⟩ <;> rintro ⟨⟩
  · rw [if_neg hembeds] at h
    cases h

theorem reload_eq (env : VectorMemory.Env) (pair : VectorMemory.Pair) (plugins : Sync) (deleted : List Str) :
    (reload env pair plugins deleted : Prog (Db M) Unit) =
      (deleteCollections deleted >>= fun _ => loadMemory env pair) >>= fun _ => syncPlugins pair.size plugins := by
  funext db faults
  dsimp only [reload, bind]
  rcases (deleteCollections deleted : Prog (Db M) Unit) db faults with ⟨_ | _, _, _⟩ <;> rfl

/-- The procedural collection bears the hashes of the plugin manager's procedures, where they are surely embedded. -/
structure Sound (code : Code) (w : World M) (b : Bool) : Prop where
  tidy : Tidy w.db
  aligned : b = true → Aligned (procedures code w.hat) w.db

theorem Sound.congr {w w' : World M} {b : Bool} (h : Sound code w b) (hdb : w'.db = w.db)
    (hprocedures : procedures code w'.hat = procedures code w.hat) : Sound code w' b := by
  refine ⟨hdb ▸ h.tidy, fun hb => ?_⟩
  rw [hdb, hprocedures]
  exact h.aligned hb

theorem sound_empty (hat : State) : Sound code (⟨hat, .empty⟩ : World M) false where
  tidy := (kept_empty : Kept VectorMemory.episodic (.empty : Db M) .none).toTidy
  aligned := by rintro ⟨⟩

theorem sync_sound {db : Db M} {r : Result} {b : Bool} (ht : Tidy db) (h : r.embeds = true → Small code r.hat)
    (hb : r.merges = false → b = true → Aligned (procedures code r.hat) db) (o : Outside) (size : ℕ)
    (faults : List Fault) : Sound code (World.sync code o size faults db r).1
      (if r.merges then (World.sync code o size faults db r).2 else b) := by
  rw [sync_eq h]
  refine ⟨step_tidy ht _, fun hsettled => ?_⟩
  cases hr : r.merges with
  | true =>
    rw [hr, if_pos rfl] at hsettled
    obtain ⟨c, hc, haligned⟩ := (step_served ht _ hsettled).procedures _ rfl
    obtain rfl := embedCall_of_mem h hc
    exact haligned
  | false =>
    rw [hr, if_neg Bool.false_ne_true] at hsettled
    have hnone : (asSync code o r h).call = none := if_neg (by rw [Result.embeds, hr]; exact Bool.false_ne_true)
    have hsame : LongTermMemory.step db (.sync size (asSync code o r h), faults) = db := by
      dsimp only [LongTermMemory.step, Request.serve, syncPlugins]
      rw [hnone]
      rfl
    rw [hsame]
    exact hb hr hsettled

/-! ## The plugin manager -/

section

variable [FastApi]

/-- The plugins after a toggle are as the plugin manager has them, and it embeds where that returns. -/
theorem toggle_eq (s : State) (id : Str) (a : Attempt) (d : Bool) :
    ((toggle s id a d).hat, (toggle s id a d).embeds) = togglePlugin s id a d := by
  rw [toggle, togglePlugin]
  rcases updateActivePlugins s id a d with ⟨s', _ | _⟩
  · rfl
  · rfl

/-- A toggle that does not come to the sync leaves the merged tools and forms as they are. -/
theorem procedures_toggle {s : State} {id : Str} {a : Attempt} {d : Bool} (h : (toggle s id a d).merges = false) :
    procedures code (toggle s id a d).hat = procedures code s := by
  have hu := updateActivePlugins_spec s id a d
  rw [toggle] at h ⊢
  generalize updateActivePlugins s id a d = r at hu h ⊢
  cases hu with
  | absent | refused | broken | raised => rfl
  | deactivated | activated => cases h

theorem procedures_install {s : State} {id : Str} {extracted isPlugin : Bool} {a : Attempt} {d : Bool}
    (h : (install s id extracted isPlugin a d).merges = false) :
    procedures code (install s id extracted isPlugin a d).hat = procedures code s := by
  cases extracted with
  | false => rfl
  | true =>
    refine (procedures_toggle h).trans ?_
    cases isPlugin <;> rfl

theorem discover_eq (folders : List Folder) (s : State) :
    ((discover s folders).hat, (discover s folders).returns) = MadHatter.discover s folders := by
  induction folders generalizing s with
  | nil => rfl
  | cons f folders ih =>
    unfold discover MadHatter.discover
    dsimp only
    by_cases hact : f.id ∈ (loadPlugin s f.id f.isPlugin).activePlugins
    · rw [if_pos hact, if_pos hact]
      cases hp : (loadPlugin s f.id f.isPlugin).plugins.get? f.id with
      | none => exact congrArg (·.1, false) (toggle_eq _ _ _ _)
      | some p =>
        dsimp only
        rcases hr : p.activate f.activation with ⟨q, _ | _⟩
        · exact congrArg (·.1, false) (toggle_eq _ _ _ _)
        · exact ih _
    · rw [if_neg hact, if_neg hact]
      exact ih _

/-- Where the plugins are found, they are as the plugin manager has them. -/
theorem find_eq {s : State} {folders : List Folder} (h : (find s folders).returns = true) :
    findPlugins s folders = ((find s folders).hat, true) := by
  unfold findPlugins find at *
  dsimp only at h ⊢
  rw [← discover_eq]
  by_cases hr : (discover { s with plugins := .empty, activePlugins := loadActivePluginsFromDb s.db } folders).returns =
      true
  · rw [if_pos hr] at h
    rw [if_pos hr, if_pos hr]
    exact Prod.ext rfl h
  · rw [if_neg hr] at h
    exact absurd h hr

section

variable {w : World M} {l : Load} {env : VectorMemory.Env} {pair : VectorMemory.Pair} {folders : List Folder}
  {o : Outside}

variable (env pair o) in
/-- A wipe, or another load, is one of the requests. -/
theorem load_eq (hl : l.Accepted) (h : (find w.hat folders).embeds = true → Small code (find w.hat folders).hat) :
    (load code w l env pair folders o).1.db =
        LongTermMemory.step w.db (.load l env pair (asSync code o (find w.hat folders) h), o.faults) ∧
      (load code w l env pair folders o).2 =
        returns w.db (.load l env pair (asSync code o (find w.hat folders) h), o.faults) := by
  have hdeleted : ∀ name ∈ l.deleted, name ∈ VectorMemory.collectionNames := hl
  unfold load
  rw [if_pos hdeleted]
  dsimp only [LongTermMemory.step, returns, Request.serve]
  rw [l.serve_eq, if_pos hl, reload_eq]
  generalize hm : (deleteCollections l.deleted >>= fun _ => loadMemory env pair : Prog (Db M) Unit) = m
  dsimp only [bind]
  rcases m w.db o.faults with ⟨_ | _, db, faults⟩
  · exact ⟨rfl, rfl⟩
  · dsimp only
    rw [sync_eq h]
    exact ⟨rfl, rfl⟩

/-- Where it returns, the plugins were found. -/
theorem load_found (h : (load code w l env pair folders o).2 = true) :
    (load code w l env pair folders o).1.hat = (find w.hat folders).hat ∧ (find w.hat folders).returns = true := by
  revert h
  unfold load
  split
  · generalize (deleteCollections l.deleted >>= fun _ => loadMemory env pair : Prog (Db M) Unit) = m
    rcases m w.db o.faults with ⟨_ | _, db, faults⟩
    · rintro ⟨⟩
    · exact fun h => ⟨rfl, (returns_of_sync h).2⟩
  · rintro ⟨⟩

end

/-! ## Calls -/

/-- The plugins after a call that merges them, or tries to. -/
def Event.result (s : State) : Event M → Option Result
  | install pluginId extracted isPlugin activation deactivation =>
    some (PluginSync.install s pluginId extracted isPlugin activation deactivation)
  | toggle pluginId activation deactivation => some (PluginSync.toggle s pluginId activation deactivation)
  | uninstall pluginId activation deactivation =>
    if (pluginId ∈ s.plugins ∧ pluginId ≠ corePlugin) ∧ pluginId ∈ s.activePlugins then
      some (PluginSync.toggle s pluginId activation deactivation)
    else none
  | load l _ _ folders => if l.Accepted then some (find s folders) else none
  | points _ => none

/-- What a call embeds is small. -/
def Fits (code : Code) (w : World M) (e : Event M × Outside) : Prop :=
  ∀ r ∈ e.1.result w.hat, r.embeds = true → Small code r.hat

/-- The call of the plugin manager. -/
def Event.call : Event M → Option MadHatter.Call
  | install pluginId extracted isPlugin activation deactivation =>
    some (.install pluginId extracted isPlugin activation deactivation)
  | toggle pluginId activation deactivation => some (.toggle pluginId activation deactivation)
  | uninstall pluginId activation deactivation => some (.uninstall pluginId deactivation activation)
  | load _ _ _ folders => some (.find folders)
  | points _ => none

/-- Where a call returns, the plugins are as the plugin manager's own step has them. -/
theorem serve_hat {w : World M} {e : Event M × Outside} (h : (serve code w e).2 = true) :
    (step code w e).hat = e.1.call.elim w.hat (MadHatter.step w.hat) := by
  obtain ⟨_ | _ | _ | _ | _, o⟩ := e
  case install id extracted isPlugin a d =>
    cases extracted with
    | false => rfl
    | true => exact congrArg Prod.fst (toggle_eq _ _ _ _)
  case toggle id a d => exact congrArg Prod.fst (toggle_eq _ _ _ _)
  case uninstall id a d =>
    change (uninstall code w id a d o).2 = true at h
    change (uninstall code w id a d o).1.hat = (uninstallPlugin w.hat id d a).1
    unfold uninstall at h ⊢
    unfold uninstallPlugin
    by_cases hplugin : id ∈ w.hat.plugins ∧ id ≠ corePlugin
    · rw [if_pos hplugin] at h ⊢
      rw [if_pos hplugin]
      by_cases hact : id ∈ w.hat.activePlugins
      · rw [if_pos hact] at h ⊢
        rw [if_pos hact]
        dsimp only at h ⊢
        by_cases hsync : (World.sync code o o.size o.faults w.db (toggle w.hat id a d)).2 = true
        · rw [if_pos hsync, ← toggle_eq, if_pos (returns_of_sync hsync).1]
          rfl
        · rw [if_neg hsync] at h
          cases h
      · rw [if_neg hact, if_neg hact]
        rfl
    · rw [if_neg hplugin, if_neg hplugin]
  case load l env pair folders =>
    obtain ⟨hhat, hreturns⟩ := load_found h
    exact hhat.trans (congrArg Prod.fst (find_eq hreturns)).symm
  case points r => rfl

/-- Whether the procedures are surely embedded after a call, from whether they were before it. -/
def settles (code : Code) (w : World M) (b : Bool) (e : Event M × Outside) : Bool :=
  match e.1 with
  | .points r => b && spares r
  | .load .. => if (e.1.result w.hat).isSome then (serve code w e).2 else b
  | _ => if (e.1.result w.hat).any Result.merges then (serve code w e).2 else b

/-- The world, with whether the procedures are surely embedded. -/
def follow (code : Code) (s : World M × Bool) (e : Event M × Outside) : World M × Bool :=
  (step code s.1 e, settles code s.1 s.2 e)

section

variable (code) {w : World M} {id : Str} (a : Attempt) (d : Bool) (o : Outside)

/-- The uninstall of an active plugin is its toggle, before the plugin is gone. -/
theorem uninstall_toggled (hin : (id ∈ w.hat.plugins ∧ id ≠ corePlugin) ∧ id ∈ w.hat.activePlugins) :
    let synced := World.sync code o o.size o.faults w.db (toggle w.hat id a d)
    (uninstall code w id a d o).1.db = synced.1.db ∧ (uninstall code w id a d o).2 = synced.2 ∧
      procedures code (uninstall code w id a d o).1.hat = procedures code synced.1.hat := by
  dsimp only
  unfold uninstall
  rw [if_pos hin.1, if_pos hin.2]
  rcases World.sync code o o.size o.faults w.db (toggle w.hat id a d) with ⟨w', _ | _⟩
  · exact ⟨rfl, rfl, rfl⟩
  · exact ⟨rfl, rfl, rfl⟩

/-- The uninstall of another changes neither the database nor the merged tools and forms. -/
theorem uninstall_same (hin : ¬((id ∈ w.hat.plugins ∧ id ≠ corePlugin) ∧ id ∈ w.hat.activePlugins)) :
    (uninstall code w id a d o).1.db = w.db ∧
      procedures code (uninstall code w id a d o).1.hat = procedures code w.hat := by
  unfold uninstall
  by_cases hplugin : id ∈ w.hat.plugins ∧ id ≠ corePlugin
  · rw [if_pos hplugin, if_neg fun hact => hin ⟨hplugin, hact⟩]
    exact ⟨rfl, rfl⟩
  · rw [if_neg hplugin]
    exact ⟨rfl, rfl⟩

end

/-- One call keeps the procedural collection sound. -/
theorem step_sound {w : World M} {b : Bool} (h : Sound code w b) (e : Event M × Outside) (hfits : Fits code w e) :
    Sound code (step code w e) (settles code w b e) := by
  obtain ⟨_ | _ | _ | _ | _, o⟩ := e
  case install id extracted isPlugin a d =>
    exact sync_sound h.tidy (hfits _ rfl) (fun hr hb => procedures_install hr ▸ h.aligned hb) o o.size o.faults
  case toggle id a d =>
    exact sync_sound h.tidy (hfits _ rfl) (fun hr hb => procedures_toggle hr ▸ h.aligned hb) o o.size o.faults
  case uninstall id a d =>
    by_cases hin : (id ∈ w.hat.plugins ∧ id ≠ corePlugin) ∧ id ∈ w.hat.activePlugins
    · have hresult : Event.result w.hat (.uninstall id a d : Event M) = some (toggle w.hat id a d) := if_pos hin
      have hsync := sync_sound h.tidy (hfits _ hresult) (fun hr hb => procedures_toggle hr ▸ h.aligned hb) o o.size
        o.faults
      obtain ⟨hdb, hreturned, hprocedures⟩ := uninstall_toggled code a d o hin
      have hsettles : settles code w b (.uninstall id a d, o) = if (toggle w.hat id a d).merges then
          (World.sync code o o.size o.faults w.db (toggle w.hat id a d)).2 else b := by
        dsimp only [settles, serve]
        rw [hresult, Option.any_some, hreturned]
      rw [hsettles]
      exact hsync.congr hdb hprocedures
    · have hresult : Event.result w.hat (.uninstall id a d : Event M) = none := if_neg hin
      have hsettles : settles code w b (.uninstall id a d, o) = b := by
        dsimp only [settles]
        rw [hresult]
        rfl
      obtain ⟨hdb, hprocedures⟩ := uninstall_same code a d o hin
      rw [hsettles]
      exact h.congr hdb hprocedures
  case load l env pair folders =>
    by_cases hl : l.Accepted
    · have hresult : Event.result w.hat (.load l env pair folders : Event M) = some (find w.hat folders) := if_pos hl
      obtain ⟨hdb, hreturned⟩ := load_eq env pair o hl (hfits _ hresult)
      refine ⟨?_, fun hb => ?_⟩
      · dsimp only [step, serve]
        rw [hdb]
        exact step_tidy h.tidy _
      · dsimp only [step, serve, settles] at hb ⊢
        rw [hresult, Option.isSome_some, if_pos rfl] at hb
        obtain ⟨c, hc, haligned⟩ := (step_served h.tidy _ (hreturned ▸ hb)).procedures _ rfl
        obtain rfl := embedCall_of_mem _ hc
        rw [hdb, (load_found hb).1]
        exact haligned
    · have hresult : Event.result w.hat (.load l env pair folders : Event M) = none := if_neg hl
      have hsettles : settles code w b (.load l env pair folders, o) = b := by
        dsimp only [settles]
        rw [hresult]
        rfl
      have hsame : load code w l env pair folders o = (w, false) := if_neg hl
      rw [hsettles]
      exact h.congr (congrArg (·.1.db) hsame) (congrArg (procedures code ·.1.hat) hsame)
  case points r =>
    refine ⟨step_tidy h.tidy (.points r, o.faults), fun hb => ?_⟩
    obtain ⟨hb, hr⟩ := Bool.and_eq_true_iff.mp hb
    exact aligned_congr (h.aligned hb) (memories_of_spares r hr o.faults)

/-! ## Runs -/

theorem run_sound (es : List (Event M × Outside)) {w : World M} {b : Bool} (h : Sound code w b)
    (hfits : Machine.Along (step code) (Fits code) w es) :
    Sound code (Machine.run (step code) w es) (Machine.run (follow code) (w, b) es).2 := by
  induction es generalizing w b with
  | nil => exact h
  | cons e es ih => exact ih (step_sound h e hfits.1) hfits.2

/-- After any calls from an empty database, whatever raised in them: where the procedures are surely embedded, the
procedural collection bears exactly the hashes of the triggers of the plugin manager's tools and forms, each once. -/
theorem plugins_embedded (hat : State) (es : List (Event M × Outside))
    (hfits : Machine.Along (step code) (Fits code) ⟨hat, .empty⟩ es)
    (hsettled : (Machine.run (follow code) (⟨hat, .empty⟩, false) es).2 = true) :
    Aligned (procedures code (Machine.run (step code) ⟨hat, .empty⟩ es).hat)
      (Machine.run (step code) ⟨hat, .empty⟩ es).db :=
  (run_sound es (sound_empty hat) hfits).aligned hsettled

end

/-- A plugin with one tool. -/
def lamp : Attempt := ⟨true, ⟨[], [7], [], [], ⟨false, false⟩⟩, true, true⟩

def lampCode : Code := fun _ => CheshireCat.toolWithExample "x" "y.start_example.z"

def lampOutside (faults : List Fault) : Outside :=
  ⟨1536, .id, CheshireCat.freshId, CheshireCat.freshId_fresh, faults⟩

/-- The plugin is installed and toggled off, and the sync that toggles it on raises on its way; it is toggled twice
more, and the answer of a stored message is lost. -/
def lampRun : List (Event Str × Outside) :=
  [(.load .bootstrap VectorMemory.noSnapshots VectorMemory.ada [], lampOutside []),
    (.install "lamp".toList true true lamp true, lampOutside []), (.toggle "lamp".toList lamp true, lampOutside []),
    (.toggle "lamp".toList lamp true, lampOutside [.none, .none, .before]),
    (.toggle "lamp".toList lamp true, lampOutside []), (.toggle "lamp".toList lamp true, lampOutside []),
    (.points (.create VectorMemory.episodic 1536 "1".toList "I moved".toList), lampOutside [.none, .after])]

instance (code : Code) (w : World M) [FastApi] (e : Event M × Outside) : Decidable (Fits code w e) :=
  inferInstanceAs (Decidable (∀ r ∈ e.1.result w.hat, r.embeds = true →
    (CheshireCat.triggers (procedures code r.hat)).length ≤ 10000))

/-- The cat's callback is attached, and no plugin is there. -/
def attachedHat : State := { State.blank [] none with callback := true }

theorem plugins_embedded_lamp : Aligned [CheshireCat.toolWithExample "x" "y.start_example.z"]
    (Machine.run (step lampCode) ⟨attachedHat, .empty⟩ lampRun).db := by
  have hprocedures : procedures lampCode (Machine.run (step lampCode) ⟨attachedHat, .empty⟩ lampRun).hat =
      [CheshireCat.toolWithExample "x" "y.start_example.z"] := rfl
  exact hprocedures ▸ plugins_embedded attachedHat lampRun (by decide +kernel) (by decide +kernel)

end KCore.PluginSync
