import KCore.Impl.RabbitHole.Ingestion
import KCore.Proof.MainAgent

/-!
# What an upload leaves in the declarative memory

`thoughts` are the points that a task is to store. Whatever raises, the points that it stores are the first of
them (`ingestFile_spec`), so that those of an upload are the first of all that its files are to give
(`upload_stores`).
-/

namespace KCore.RabbitHole

open Text VectorMemory

variable {N : Type*} {t : Ingestion N} {source : Str} {metadata : Json N} {n : ℕ}

/-! ## The loop -/

/-- The point of a document, if it is to have one. -/
def pointOf (t : Ingestion N) (source : Str) (metadata : Json N) (doc : Doc N) (d : ℕ) : List (Written N) :=
  (prepared t source metadata doc d).elim [] fun doc => if doc.pageContent = [] then [] else [doc.written]

/-- The points of the documents from the `d`-th on. -/
def points (t : Ingestion N) (source : Str) (metadata : Json N) (docs : List (Doc N)) (d : ℕ) : List (Written N) :=
  (docs.zipIdx d).flatMap fun x => pointOf t source metadata x.1 x.2

theorem points_cons (doc : Doc N) (docs : List (Doc N)) (d : ℕ) : points t source metadata (doc :: docs) d =
    pointOf t source metadata doc d ++ points t source metadata docs (d + 1) := rfl

/-- `add_point` returned the point, or nothing. -/
def Returned (w : Written N) (point : Option (Written N)) : Prop := point = some w ∨ point = none

/-- What is done from `s` on: the first of the points, and all where it returns. -/
structure Stored (ws : List (Written N)) (s : Progress N) (r : Progress N × Bool) : Prop where
  hooked : r.1.hooked = s.hooked
  written : ∃ new, r.1.written = s.written ++ new ∧ new <+: ws
  completed : r.2 = true → r.1.written = s.written ++ ws ∧
    ∃ new, r.1.storedPoints = s.storedPoints ++ new ∧ List.Forall₂ Returned ws new

/-- Nothing is done that is seen in the memory. -/
theorem stored_nil {s s' : Progress N} {returns : Bool} (hh : s'.hooked = s.hooked) (hw : s'.written = s.written)
    (hp : s'.storedPoints = s.storedPoints) : Stored [] s (s', returns) where
  hooked := hh
  written := ⟨[], hw.trans (List.append_nil _).symm, List.prefix_rfl⟩
  completed := fun _ => ⟨hw.trans (List.append_nil _).symm, [], hp.trans (List.append_nil _).symm, .nil⟩

/-- It raises, and the rest is not done. -/
theorem Stored.raises {ws ws' : List (Written N)} {s s' : Progress N} (h : Stored ws s (s', false)) :
    Stored (ws ++ ws') s (s', false) := by
  obtain ⟨new, hw, hnew⟩ := h.written
  exact ⟨h.hooked, ⟨new, hw, hnew.trans (List.prefix_append ..)⟩, by rintro ⟨⟩⟩

/-- It returns, and the rest is done. -/
theorem Stored.then {ws ws' : List (Written N)} {s s' : Progress N} {r : Progress N × Bool} (h : Stored ws s (s', true))
    (h' : Stored ws' s' r) : Stored (ws ++ ws') s r := by
  obtain ⟨hw, ps, hp, hps⟩ := h.completed rfl
  obtain ⟨new, hw', hnew⟩ := h'.written
  refine ⟨h'.hooked.trans h.hooked, ⟨ws ++ new, ?_, (List.prefix_append_right_inj ws).mpr hnew⟩, fun hr => ?_⟩
  · rw [hw', hw, List.append_assoc]
  · obtain ⟨hw', ps', hp', hps'⟩ := h'.completed hr
    refine ⟨?_, ps ++ ps', ?_, List.rel_append hps hps'⟩
    · rw [hw', hw, List.append_assoc]
    · rw [hp', hp, List.append_assoc]

/-- Only notifications are made. -/
structure Silent (s s' : Progress N) : Prop where
  written : s'.written = s.written
  storedPoints : s'.storedPoints = s.storedPoints
  hooked : s'.hooked = s.hooked

theorem Silent.trans {s s' s'' : Progress N} (h : Silent s s') (h' : Silent s' s'') : Silent s s'' :=
  ⟨h'.written.trans h.written, h'.storedPoints.trans h.storedPoints, h'.hooked.trans h.hooked⟩

theorem notify_silent (t : Ingestion N) (content : Str) (s : Progress N) : Silent s (s.notify t content).1 := by
  unfold Progress.notify
  split <;> exact ⟨rfl, rfl, rfl⟩

theorem notify_stored (t : Ingestion N) (content : Str) (s : Progress N) : Stored [] s (s.notify t content) := by
  have hsilent := notify_silent t content s
  generalize s.notify t content = r at hsilent
  exact stored_nil hsilent.hooked hsilent.written hsilent.storedPoints

theorem storeDocument_stored (t : Ingestion N) (doc : Doc N) (d : ℕ) (s : Progress N) :
    Stored (if doc.pageContent = [] then [] else [doc.written]) s (storeDocument t doc d s) := by
  unfold storeDocument
  by_cases hempty : doc.pageContent = []
  · rw [if_pos hempty, if_pos hempty]
    exact stored_nil rfl rfl rfl
  · rw [if_neg hempty, if_neg hempty]
    split
    · cases t.upsert d with
      | completed =>
        exact ⟨rfl, ⟨_, rfl, List.prefix_rfl⟩, fun _ => ⟨rfl, _, rfl, .cons (.inl rfl) .nil⟩⟩
      | acknowledged =>
        exact ⟨rfl, ⟨_, rfl, List.prefix_rfl⟩, fun _ => ⟨rfl, _, rfl, .cons (.inr rfl) .nil⟩⟩
      | raises stored =>
        refine ⟨rfl, ⟨_, rfl, ?_⟩, by rintro ⟨⟩⟩
        cases stored with
        | false => exact List.nil_prefix
        | true => exact List.prefix_rfl
    · exact (stored_nil rfl rfl rfl : Stored [] s (s, false)).raises

theorem storeLoop_stored (docs : List (Doc N)) (d : ℕ) (s : Progress N) :
    Stored (points t source metadata docs d) s (storeLoop t source metadata n docs d s) := by
  induction docs generalizing d s with
  | nil => exact stored_nil rfl rfl rfl
  | cons doc docs ih =>
    have hnotified : Stored [] s (if t.late d then
        s.notify t ("Read ".toList ++ dec (t.percent d n) ++ "% of ".toList ++ source) else (s, true)) := by
      split
      · exact notify_stored ..
      · exact stored_nil rfl rfl rfl
    unfold storeLoop
    dsimp only
    rw [points_cons, ← List.nil_append (pointOf .. ++ _)]
    split
    · rename_i s' hs
      rw [hs] at hnotified
      exact hnotified.raises
    · rename_i s' hs
      rw [hs] at hnotified
      refine hnotified.then ?_
      split
      · exact (stored_nil rfl rfl rfl : Stored [] s' (s', false)).raises
      · rename_i doc' hprepared
        have hdoc := storeDocument_stored t doc' d s'
        rw [pointOf, hprepared, Option.elim_some]
        rcases hs' : storeDocument t doc' d s' with ⟨s'', _ | _⟩
        · rw [hs'] at hdoc
          exact hdoc.raises
        · rw [hs'] at hdoc
          exact hdoc.then (ih (d + 1) s'')

/-! ## A task -/

/-- The documents that are to be stored. -/
def documents (t : Ingestion N) (task : Task N) : Option (List (Doc N)) :=
  (fileToDocs t task).2.bind t.beforeStoresDocuments

/-- The points that a task is to store. -/
def thoughts (t : Ingestion N) (task : Task N) : List (Written N) :=
  (documents t task).elim [] fun docs => points t task.filename task.metadata docs 0

/-- What a task has done: the hook after it is called, with the points that were stored, just where all are. -/
structure Ingested (t : Ingestion N) (task : Task N) (r : Progress N × Bool) : Prop where
  written : r.1.written <+: thoughts t task
  hooked : ∀ ps, r.1.hooked = some ps → r.1.written = thoughts t task ∧ List.Forall₂ Returned (thoughts t task) ps
  completed : r.2 = true → r.1.hooked.isSome

theorem fileToDocs_silent (t : Ingestion N) (task : Task N) : Silent .start (fileToDocs t task).1 := by
  unfold fileToDocs
  split
  · have hparsing := notify_silent t "I'm parsing the content. Big content could require some minutes...".toList .start
    split
    · rename_i s hs
      rw [hs] at hparsing
      exact hparsing
    · rename_i s hs
      rw [hs] at hparsing
      cases t.parse with
      | none => exact hparsing
      | some superDocs =>
        have hreading := notify_silent t "Parsing completed. Now let's go with reading process...".toList s
        dsimp only
        split
        · rename_i s' hs'
          rw [hs'] at hreading
          exact hparsing.trans hreading
        · rename_i s' hs'
          rw [hs'] at hreading
          exact hparsing.trans hreading
  · exact ⟨rfl, rfl, rfl⟩

/-- After the loop. -/
theorem finish_spec (t : Ingestion N) (source : Str) (n : ℕ) (s : Progress N) :
    (finish t source n s).1.written = s.written ∧ (finish t source n s).1.hooked = some s.storedPoints := by
  unfold finish
  dsimp only
  split
  · have hsilent := notify_silent t ("Finished reading ".toList ++ source ++ ", I made ".toList ++ dec n ++
      " thoughts on it.".toList) { s with hooked := some s.storedPoints }
    exact ⟨hsilent.written, hsilent.hooked⟩
  · exact ⟨rfl, rfl⟩

/-- A task that raises before the loop. -/
theorem ingested_none {task : Task N} {s : Progress N} (h : Silent .start s) : Ingested t task (s, false) where
  written := (h.written : s.written = []) ▸ List.nil_prefix
  hooked := fun ps hps => by
    have := hps.symm.trans h.hooked
    cases this
  completed := by rintro ⟨⟩

theorem ingestFile_spec (t : Ingestion N) (task : Task N) : Ingested t task (ingestFile t task) := by
  have hsilent := fileToDocs_silent t task
  unfold ingestFile
  rcases hdocs : fileToDocs t task with ⟨s, _ | docs⟩
  · rw [hdocs] at hsilent
    exact ingested_none hsilent
  · rw [hdocs] at hsilent
    have hdocuments : documents t task = t.beforeStoresDocuments docs := by rw [documents, hdocs, Option.bind_some]
    dsimp only
    unfold ingestDocuments
    cases hbefore : t.beforeStoresDocuments docs with
    | none => exact ingested_none hsilent
    | some docs =>
      have hthoughts : thoughts t task = points t task.filename task.metadata docs 0 := by
        rw [thoughts, hdocuments, hbefore, Option.elim_some]
      have hw : s.written = [] := hsilent.written
      have hp : s.storedPoints = [] := hsilent.storedPoints
      have hloop : Stored (thoughts t task) s (storeLoop t task.filename task.metadata docs.length docs 0 s) :=
        hthoughts ▸ storeLoop_stored docs 0 s
      dsimp only
      rcases hr : storeLoop t task.filename task.metadata docs.length docs 0 s with ⟨s', _ | _⟩
      · rw [hr] at hloop
        obtain ⟨new, hnew, hprefix⟩ := hloop.written
        rw [hw, List.nil_append] at hnew
        refine ⟨hnew ▸ hprefix, fun ps hps => ?_, by rintro ⟨⟩⟩
        have := hps.symm.trans (hloop.hooked.trans hsilent.hooked)
        cases this
      · rw [hr] at hloop
        obtain ⟨hwritten, ps, hps, hreturned⟩ := hloop.completed rfl
        obtain ⟨hfw, hfh⟩ := finish_spec t task.filename docs.length s'
        rw [hw, List.nil_append] at hwritten
        rw [hp, List.nil_append] at hps
        refine ⟨?_, fun ps' hps' => ⟨hfw.trans hwritten, ?_⟩, fun _ => by rw [hfh]; rfl⟩
        · rw [hfw, hwritten]
        · rw [hfh] at hps'
          obtain rfl := Option.some.inj hps'
          exact hps ▸ hreturned

/-! ## Uploads -/

/-- The tasks of the files of a batch, each with the metadata under its name. -/
def batchTasks (form : Form N) (metadataDict : Json N) (fs : List File) : List (Task N) :=
  fs.filterMap fun f => (fileMetadata metadataDict f.filename).map fun metadata =>
    ⟨f.filename, form.chunkSize, form.chunkOverlap, metadata⟩

/-- The tasks of an upload. -/
def Upload.tasks : Upload N → List (Task N)
  | file form f => form.metadata.toList.map fun metadata => ⟨f.filename, form.chunkSize, form.chunkOverlap, metadata⟩
  | files form fs => form.metadata.elim [] fun metadataDict => batchTasks form metadataDict fs
  | url _ uploadConfig => [uploadConfig]

/-- The files of an upload, in order. -/
def Upload.names : Upload N → List Str
  | file _ f => [f.filename]
  | files _ fs => fs.map File.filename
  | url _ uploadConfig => [uploadConfig.filename]

/-- Every file has a type that is supported, and metadata can be found for it; a url is there. -/
def Upload.Admitted (types : Types) : Upload N → Prop
  | file form f => types.refusal f = none ∧ form.metadata.isSome
  | files form fs => form.metadata.isSome ∧ ∀ f ∈ fs, types.refusal f = none ∧
      ∀ metadataDict ∈ form.metadata, (fileMetadata metadataDict f.filename).isSome
  | url head _ => head = some 200

def Response.accepts : Response → Bool
  | file _ | files _ | url _ => true
  | badRequest _ | internalServerError => false

/-- A request is accepted just where it is admitted, and then queues its tasks, one for each file; otherwise it queues
nothing. -/
structure Queued (admitted : Prop) (names : List Str) (tasks : List (Task N)) (r : Response × List (Task N)) :
    Prop where
  accepts : r.1.accepts = true ↔ admitted
  refused : r.1.accepts = false → r.2 = []
  accepted : r.1.accepts = true → r.2 = tasks ∧ r.2.map Task.filename = names

theorem queued_refused {admitted : Prop} {names : List Str} {tasks : List (Task N)} {response : Response}
    (h : response.accepts = false) (hn : ¬admitted) : Queued admitted names tasks (response, []) where
  accepts := ⟨fun h' => absurd (h.symm.trans h') (by decide), fun h' => absurd h' hn⟩
  refused := fun _ => rfl
  accepted := fun h' => absurd (h.symm.trans h') (by decide)

theorem queued_accepted {admitted : Prop} {names : List Str} {tasks : List (Task N)} {response : Response}
    (h : response.accepts = true) (ha : admitted) (hnames : tasks.map Task.filename = names) :
    Queued admitted names tasks (response, tasks) where
  accepts := ⟨fun _ => ha, fun _ => h⟩
  refused := fun h' => absurd (h'.symm.trans h) (by decide)
  accepted := fun _ => ⟨rfl, hnames⟩

theorem uploadLoop_queued (types : Types) (form : Form N) (metadataDict : Json N) (fs : List File)
    (response : Dict Str File) (tasks : List (Task N)) :
    Queued (∀ f ∈ fs, types.refusal f = none ∧ (fileMetadata metadataDict f.filename).isSome)
      (tasks.map Task.filename ++ fs.map File.filename) (tasks ++ batchTasks form metadataDict fs)
      (uploadLoop types form metadataDict fs response tasks) := by
  induction fs generalizing response tasks with
  | nil =>
    have hnil : tasks ++ batchTasks form metadataDict [] = tasks := List.append_nil _
    rw [hnil]
    exact queued_accepted rfl (by simp) (List.append_nil _).symm
  | cons f fs ih =>
    unfold uploadLoop
    cases hrefusal : types.refusal f with
    | some error => exact queued_refused rfl fun h => by simpa [hrefusal] using h f (.head _)
    | none =>
      cases hmetadata : fileMetadata metadataDict f.filename with
      | none => exact queued_refused rfl fun h => by simpa [hmetadata] using h f (.head _)
      | some metadata =>
        obtain ⟨haccepts, hrefused, haccepted⟩ := ih (response.set f.filename f)
          (tasks ++ [⟨f.filename, form.chunkSize, form.chunkOverlap, metadata⟩])
        have hbatch : batchTasks form metadataDict (f :: fs) =
            ⟨f.filename, form.chunkSize, form.chunkOverlap, metadata⟩ :: batchTasks form metadataDict fs := by
          rw [batchTasks, List.filterMap_cons_some (by rw [hmetadata]; rfl), batchTasks]
        refine ⟨haccepts.trans ?_, hrefused, fun h => ?_⟩
        · rw [List.forall_mem_cons, hrefusal, hmetadata]
          simp
        · rw [hbatch]
          simpa using haccepted h

theorem uploadFile_queued (types : Types) (form : Form N) (f : File) :
    Queued (types.refusal f = none ∧ form.metadata.isSome) [f.filename] (Upload.file form f).tasks
      (uploadFile types form f) := by
  unfold uploadFile
  cases hrefusal : types.refusal f with
  | some error => exact queued_refused rfl fun h => by cases h.1
  | none =>
    cases hmetadata : form.metadata with
    | none => exact queued_refused rfl fun h => by cases h.2
    | some metadata =>
      have htasks : (Upload.file form f).tasks = [⟨f.filename, form.chunkSize, form.chunkOverlap, metadata⟩] := by
        rw [Upload.tasks, hmetadata]
        rfl
      rw [htasks]
      exact queued_accepted rfl ⟨rfl, rfl⟩ rfl

theorem uploadFiles_queued (types : Types) (form : Form N) (fs : List File) :
    Queued ((Upload.files form fs).Admitted types) (fs.map File.filename) (Upload.files form fs).tasks
      (uploadFiles types form fs) := by
  unfold uploadFiles
  cases hmetadata : form.metadata with
  | none => exact queued_refused rfl fun h => by simpa [hmetadata] using h.1
  | some metadataDict =>
    have htasks : (Upload.files form fs).tasks = batchTasks form metadataDict fs := by
      rw [Upload.tasks, hmetadata]
      rfl
    obtain ⟨haccepts, hrefused, haccepted⟩ := uploadLoop_queued types form metadataDict fs .empty []
    rw [htasks]
    refine ⟨haccepts.trans ?_, hrefused, haccepted⟩
    simp [Upload.Admitted, hmetadata]

theorem uploadUrl_queued (head : Option ℕ) (uploadConfig : Task N) :
    Queued (head = some 200) [uploadConfig.filename] [uploadConfig] (uploadUrl head uploadConfig) := by
  unfold uploadUrl
  cases head with
  | none => exact queued_refused rfl fun h => by cases h
  | some status =>
    by_cases hstatus : status = 200
    · simp only [hstatus, if_true]
      exact queued_accepted rfl trivial rfl
    · simp only [hstatus, if_false]
      exact queued_refused rfl fun h => hstatus (Option.some.inj h)

theorem request_queued (types : Types) (u : Upload N) :
    Queued (u.Admitted types) u.names u.tasks (u.request types) := by
  cases u with
  | file form f => exact uploadFile_queued types form f
  | files form fs => exact uploadFiles_queued types form fs
  | url head uploadConfig => exact uploadUrl_queued head uploadConfig

/-! ## Background tasks -/

/-- The hook after a task was given the points of all that the task is to store. -/
def Finished (t : Ingestion N) (task : Task N) (s : Progress N) : Prop :=
  ∀ ps, s.hooked = some ps → s.written = thoughts t task ∧ List.Forall₂ Returned (thoughts t task) ps

/-- The tasks that are begun store the first of all the points, and all where the run completes. -/
structure Ran (tasks : List (Task N × Ingestion N)) (r : List (Progress N) × Bool) : Prop where
  begun : List.Forall₂ (fun x s => Finished x.2 x.1 s) (tasks.take r.1.length) r.1
  stored : r.1.flatMap Progress.written <+: tasks.flatMap fun x => thoughts x.2 x.1
  completed : r.2 = true → r.1.length = tasks.length ∧
    r.1.flatMap Progress.written = tasks.flatMap fun x => thoughts x.2 x.1

theorem runTasks_spec (tasks : List (Task N × Ingestion N)) : Ran tasks (runTasks tasks) := by
  induction tasks with
  | nil => exact ⟨.nil, List.prefix_rfl, fun _ => ⟨rfl, rfl⟩⟩
  | cons x tasks ih =>
    obtain ⟨task, t⟩ := x
    obtain ⟨hwritten, hhooked, hcompleted⟩ := ingestFile_spec t task
    unfold runTasks
    rcases hr : ingestFile t task with ⟨s, _ | _⟩
    · rw [hr] at hwritten hhooked
      refine ⟨.cons hhooked .nil, ?_, by rintro ⟨⟩⟩
      simpa using hwritten.trans (List.prefix_append ..)
    · rw [hr] at hhooked hcompleted
      obtain ⟨ps, hps⟩ := Option.isSome_iff_exists.mp (hcompleted rfl)
      obtain ⟨hall, -⟩ := hhooked ps hps
      dsimp only at hall ⊢
      refine ⟨.cons hhooked ih.begun, ?_, fun h => ?_⟩
      · rw [List.flatMap_cons, List.flatMap_cons, hall]
        exact (List.prefix_append_right_inj _).mpr ih.stored
      · obtain ⟨hlength, hstored⟩ := ih.completed h
        rw [List.flatMap_cons, List.flatMap_cons, hall, hstored, List.length_cons, List.length_cons, hlength]
        exact ⟨rfl, rfl⟩

/-- An upload is accepted just where all its files are admitted, and then queues a task for each of them; one that is
refused leaves nothing. Whatever raises in the tasks: what is stored is the first of what the files are to give, in
their order, and all where the tasks complete; and the hook after a file is called only where all of it was stored. -/
theorem upload_stores (types : Types) (u : Upload N) (outside : ℕ → Ingestion N) :
    let r := u.request types
    let tasks := r.2.zipIdx.map fun x => (x.1, outside x.2)
    (r.1.accepts = true ↔ u.Admitted types) ∧
    (r.1.accepts = false → (runTasks tasks).1 = []) ∧
    (r.1.accepts = true → r.2 = u.tasks ∧ r.2.map Task.filename = u.names) ∧
    Ran tasks (runTasks tasks) := by
  intro r tasks
  obtain ⟨haccepts, hrefused, haccepted⟩ := request_queued types u
  refine ⟨haccepts, fun h => ?_, haccepted, runTasks_spec tasks⟩
  have htasks : tasks = [] := by
    rw [List.map_eq_nil_iff, List.zipIdx_eq_nil_iff]
    exact hrefused h
  rw [htasks]
  rfl

/-! ## Plain ingestions -/

/-- The hooks leave the documents as they are, and nothing raises; `docs` is what the splitter gives. -/
structure Plain (t : Ingestion N) (task : Task N) (docs : List (Doc N)) : Prop where
  reads : t.reads = true
  beforeSplitsText : ∀ ds, t.beforeSplitsText ds = some ds
  splits : ∃ superDocs size overlap, t.parse = some superDocs ∧ t.splitter = some (size, overlap) ∧
    t.splitDocuments (overridden task.chunkSize size, overridden task.chunkOverlap overlap) superDocs = some docs
  afterSplittedText : ∀ ds, t.afterSplittedText ds = some ds
  beforeStoresDocuments : ∀ ds, t.beforeStoresDocuments ds = some ds
  beforeInsertMemory : ∀ d, t.beforeInsertMemory d = some d
  embeds : ∀ content, t.embeds content = true
  upsert : ∀ d stored, t.upsert d ≠ .raises stored
  afterStoredDocuments : ∀ name ps, t.afterStoredDocuments name ps = true
  sendWsMessage : ∀ content, t.sendWsMessage content = true

/-- The chunks of a file: what is not short. -/
def chunks (docs : List (Doc N)) : List (Doc N) := docs.filter fun d => 10 < d.pageContent.length

section

variable {task : Task N} {docs : List (Doc N)} {es : List (Str × Json N)}

theorem Plain.notify (h : Plain t task docs) (content : Str) (s : Progress N) :
    s.notify t content = ({ s with notifications := s.notifications ++ [content] }, true) := by
  rw [Progress.notify, if_pos (h.sendWsMessage content)]

theorem Plain.storeDocument (h : Plain t task docs) (doc : Doc N) (d : ℕ) (s : Progress N) :
    (storeDocument t doc d s).2 = true := by
  unfold RabbitHole.storeDocument
  by_cases hempty : doc.pageContent = []
  · rw [if_pos hempty]
  · rw [if_neg hempty, if_pos (h.embeds _)]
    cases hupsert : t.upsert d with
    | completed | acknowledged => rfl
    | raises stored => exact absurd hupsert (h.upsert d stored)

theorem Plain.storeLoop (h : Plain t task docs) (source : Str) (es : List (Str × Json N)) (n : ℕ) (ds : List (Doc N))
    (d : ℕ) (s : Progress N) : (storeLoop t source (.obj es) n ds d s).2 = true := by
  induction ds generalizing d s with
  | nil => rfl
  | cons doc ds ih =>
    unfold RabbitHole.storeLoop
    dsimp only [prepared]
    have hnotified : ∃ s', (if t.late d then
        s.notify t ("Read ".toList ++ dec (t.percent d n) ++ "% of ".toList ++ source) else (s, true)) =
          (s', true) := by
      split
      · exact ⟨_, h.notify ..⟩
      · exact ⟨s, rfl⟩
    obtain ⟨s', hs'⟩ := hnotified
    rw [hs', h.beforeInsertMemory]
    dsimp only
    generalize (⟨doc.pageContent, chunkMetadata doc.metadata source (t.clock d) (.collect Prod.fst Prod.snd es)⟩ :
      Doc N) = doc'
    have hstored := h.storeDocument doc' d s'
    rcases hr : RabbitHole.storeDocument t doc' d s' with ⟨s'', _ | _⟩
    · rw [hr] at hstored
      cases hstored
    · exact ih (d + 1) s''

theorem Plain.fileToDocs (h : Plain t task docs) : (fileToDocs t task).2 = some (chunks docs) := by
  obtain ⟨superDocs, size, overlap, hparse, hsplitter, hsplit⟩ := h.splits
  unfold RabbitHole.fileToDocs splitText
  rw [if_pos h.reads, h.notify, hparse]
  dsimp only
  rw [h.notify]
  dsimp only
  rw [h.beforeSplitsText, hsplitter, Option.bind_some, Option.bind_some]
  dsimp only
  rw [hsplit, Option.bind_some, h.afterSplittedText]
  rfl

theorem Plain.completes (h : Plain t task docs) (hmetadata : task.metadata = .obj es) :
    (ingestFile t task).2 = true := by
  have hdocs := h.fileToDocs
  unfold ingestFile
  generalize RabbitHole.fileToDocs t task = r at hdocs
  obtain ⟨s, _ | docs'⟩ := r
  · cases hdocs
  · obtain rfl := Option.some.inj hdocs
    dsimp only
    unfold ingestDocuments
    rw [h.beforeStoresDocuments, hmetadata]
    dsimp only
    have hloop := h.storeLoop task.filename es (chunks docs).length (chunks docs) 0 s
    rcases hr : RabbitHole.storeLoop t task.filename (.obj es) (chunks docs).length (chunks docs) 0 s with ⟨s', _ | _⟩
    · rw [hr] at hloop
      cases hloop
    · dsimp only
      unfold finish
      rw [if_pos (h.afterStoredDocuments ..), h.notify]

/-- The points of the chunks are those of `storeDocuments`. -/
theorem Plain.points [Zero N] [One N] [DecidableEq N] (h : Plain t task docs) (p : MainAgent.Platform N)
    (clock : ℕ → p.Time) (hclock : ∀ d, t.clock d = (clock d).val) (ds : List (Doc N)) :
    points t source (.obj es) ds 0 =
      storeDocuments p (ds.map fun d => (d.pageContent, d.metadata)) source clock (.collect Prod.fst Prod.snd es) := by
  unfold RabbitHole.points storeDocuments
  rw [List.filterMap_eq_flatMap_toList, List.zipIdx_map, List.flatMap_map]
  refine List.flatMap_congr fun x _ => ?_
  obtain ⟨doc, d⟩ := x
  rw [pointOf, prepared, h.beforeInsertMemory, Option.elim_some, hclock]
  by_cases hempty : doc.pageContent = []
  · simp [hempty]
  · simp [hempty, Doc.written]

/-- A point for each document, where none is empty. -/
theorem storeDocuments_nonempty [Zero N] [One N] [DecidableEq N] (p : MainAgent.Platform N) (clock : ℕ → p.Time)
    (ds : List (Str × Dict Str (Json N))) (source : Str) (metadata : Dict Str (Json N)) (h : ∀ d ∈ ds, d.1 ≠ []) :
    storeDocuments p ds source clock metadata = ds.zipIdx.map fun x =>
      ⟨declarative, .str x.1.1, .obj (chunkMetadata x.1.2 source (clock x.2).val metadata).entries⟩ := by
  unfold storeDocuments
  rw [← List.filterMap_eq_map]
  refine List.filterMap_congr fun x hx => ?_
  obtain ⟨⟨pageContent, docMetadata⟩, d⟩ := x
  have hne : pageContent ≠ [] := h _ (List.fst_mem_of_mem_zipIdx hx)
  exact if_pos hne

/-- Where the hooks leave the documents as they are and nothing raises, a file with metadata is ingested whole: what is
stored is what `storeDocuments` makes of its chunks, one point for each, whose text is not short. -/
theorem plain_ingestion [Zero N] [One N] [DecidableEq N] (p : MainAgent.Platform N) (clock : ℕ → p.Time)
    (t : Ingestion N) (task : Task N) (docs : List (Doc N)) (es : List (Str × Json N)) (h : Plain t task docs)
    (hclock : ∀ d, t.clock d = (clock d).val) (hmetadata : task.metadata = .obj es) :
    (ingestFile t task).2 = true ∧
    (ingestFile t task).1.written = storeDocuments p ((chunks docs).map fun d => (d.pageContent, d.metadata))
      task.filename clock (.collect Prod.fst Prod.snd es) ∧
    (ingestFile t task).1.written.length = (chunks docs).length ∧
    ∀ w ∈ (ingestFile t task).1.written, ∃ text, w.payload.pageContent = .str text ∧ 10 < text.length := by
  have hcompletes := h.completes hmetadata
  have hspec := ingestFile_spec t task
  obtain ⟨ps, hps⟩ := Option.isSome_iff_exists.mp (hspec.completed hcompletes)
  have hthoughts : thoughts t task = RabbitHole.points t task.filename (.obj es) (chunks docs) 0 := by
    rw [thoughts, RabbitHole.documents, h.fileToDocs, Option.bind_some, h.beforeStoresDocuments, Option.elim_some,
      hmetadata]
  have hwritten := (hspec.hooked ps hps).1.trans hthoughts
  have hlong : ∀ d ∈ (chunks docs).map fun d => (d.pageContent, d.metadata), 10 < d.1.length := by
    intro d hd
    obtain ⟨doc, hdoc, rfl⟩ := List.mem_map.mp hd
    exact of_decide_eq_true (List.mem_filter.mp hdoc).2
  have hne : ∀ d ∈ (chunks docs).map fun d => (d.pageContent, d.metadata), d.1 ≠ [] := fun d hd hempty =>
    absurd (hlong d hd) (by rw [hempty]; decide)
  rw [hwritten, h.points p clock hclock]
  refine ⟨hcompletes, rfl, ?_, ?_⟩
  · rw [storeDocuments_nonempty p clock _ _ _ hne, List.length_map, List.length_zipIdx, List.length_map]
  · intro w hw
    rw [storeDocuments_nonempty p clock _ _ _ hne] at hw
    obtain ⟨x, hx, rfl⟩ := List.mem_map.mp hw
    exact ⟨x.1.1, rfl, hlong _ (List.fst_mem_of_mem_zipIdx hx)⟩

end

/-- A page number, and a sentence. -/
def pages : List (Doc Int) := [⟨"3".toList, .empty⟩, ⟨"The brake must not lock.".toList, .empty⟩]

def manual : Task Int := ⟨"brake.txt".toList, some 128, none, .obj [("author".toList, .str "ada".toList)]⟩

def reader : Ingestion Int where
  reads := true
  parse := some [⟨"3 The brake must not lock.".toList, .empty⟩]
  beforeSplitsText := some
  splitter := some (256, 64)
  splitDocuments _ _ := some pages
  afterSplittedText := some
  beforeStoresDocuments := some
  beforeInsertMemory := some
  embeds _ := true
  upsert _ := .acknowledged
  afterStoredDocuments _ _ := true
  sendWsMessage _ := true
  late _ := false
  clock d := d
  percent _ _ := 0

theorem reader_plain : Plain reader manual pages where
  reads := rfl
  beforeSplitsText _ := rfl
  splits := ⟨_, 256, 64, rfl, rfl, rfl⟩
  afterSplittedText _ := rfl
  beforeStoresDocuments _ := rfl
  beforeInsertMemory _ := rfl
  embeds _ := rfl
  upsert _ _ := nofun
  afterStoredDocuments _ _ := rfl
  sendWsMessage _ := rfl

/-- The sentence is stored, and not the page number. -/
theorem plain_ingestion_manual : (ingestFile reader manual).1.written.length = 1 :=
  (plain_ingestion plainPlatform (fun d => ⟨(d : Int), trivial⟩) reader manual pages
    [("author".toList, .str "ada".toList)] reader_plain (fun _ => rfl) rfl).2.2.1.trans (by decide)

end KCore.RabbitHole
