import KCore.Proof.LongTermMemory

/-!
# What the memory holds after any requests

The account of a collection is kept from the requests alone, and from which of them returned: what is surely stored, and
what may be. A request that raised may have had its effect or not. Whatever raised, the points of the episodic and the
declarative collection lie between the two (`memories_kept`).
-/

namespace KCore.LongTermMemory

open Text Faulty VectorMemory

variable {M : Type} {base : Db M} {name : Str}

/-! ## Accounts -/

/-- The embedder that the collection is surely there for, and its points: those it surely has, and those it may have. -/
structure Account (M : Type) where
  made : Option Pair
  kept : List (MemoryPoint M)
  sent : List (MemoryPoint M)

def Account.none : Account M := ⟨.none, [], []⟩

/-- A point with the id of another takes its place. -/
def put (point : MemoryPoint M) (points : List (MemoryPoint M)) : List (MemoryPoint M) :=
  points.filter (·.id ≠ point.id) ++ [point]

def drop (selected : MemoryPoint M → Bool) (points : List (MemoryPoint M)) : List (MemoryPoint M) :=
  points.filter fun p => !selected p

def Account.put (point : MemoryPoint M) (returned : Bool) (a : Account M) : Account M :=
  if returned then { a with kept := LongTermMemory.put point a.kept, sent := LongTermMemory.put point a.sent }
  else { a with kept := drop (fun p => p.id = point.id) a.kept, sent := a.sent ++ [point] }

def Account.drop (selected : MemoryPoint M → Bool) (returned : Bool) (a : Account M) : Account M :=
  { a with
    kept := LongTermMemory.drop selected a.kept
    sent := if returned then LongTermMemory.drop selected a.sent else a.sent }

/-- What was made for the embedder is the same after a reload that does not delete it. -/
def Account.reload (name : Str) (pair : Pair) (deleted : List Str) (returned : Bool) (a : Account M) : Account M :=
  if a.made = some pair ∧ name ∉ deleted then a
  else
    { made := if returned then some pair else .none
      kept := []
      sent := if returned = true ∧ name ∈ deleted then [] else a.sent }

def Account.points (name : Str) (returned : Bool) (a : Account M) : PointRequest M → Account M
  | .create other _ id payload | .edit other _ id payload =>
    if other = name then a.put (.memory id payload) returned else a
  | .delete other id => if other = name then a.drop (fun p => p.id = id) returned else a
  | .deleteByMetadata other selected => if other = name then a.drop selected returned else a

/-- What is deleted are collections of the memory. -/
def Load.Accepted (l : Load) : Prop := ∀ name ∈ l.deleted, name ∈ collectionNames

instance (l : Load) : Decidable l.Accepted := inferInstanceAs (Decidable (∀ name ∈ l.deleted, name ∈ collectionNames))

/-- The account after a request. -/
def Account.step (name : Str) (a : Account M) : Request M × Bool → Account M
  | (.points r, returned) => a.points name returned r
  | (.sync .., _) => a
  | (.load l _ pair _, returned) => if l.Accepted then a.reload name pair l.deleted returned else a

/-- The requests of a run, each with whether it returned. -/
def outcomes : Db M → List (Request M × List Fault) → List (Request M × Bool)
  | _, [] => []
  | db, e :: es => (e.1, returns db e) :: outcomes (step db e) es

/-- The account of a collection, from the requests and which of them returned. -/
def account (name : Str) (rs : List (Request M × Bool)) : Account M := Machine.run (Account.step name) .none rs

/-- The database is as the account says. -/
structure Kept (name : Str) (db : Db M) (a : Account M) : Prop extends Tidy db where
  made : ∀ pair ∈ a.made, Labelled pair name db
  kept : a.kept.Sublist (memories db name)
  sent : (memories db name).Sublist a.sent

/-! ## Points -/

/-- The points of one collection are changed. -/
def Changed (base : Db M) (name : Str) (g : List (MemoryPoint M) → List (MemoryPoint M)) (db : Db M) : Prop :=
  ∃ c, base.get? name = some c ∧ db = base.set name { c with points := g c.points }

/-- The collection's points are changed where the program returns, and perhaps where it raises. -/
abbrev Changes (base : Db M) (name : Str) (g : List (MemoryPoint M) → List (MemoryPoint M)) (m : Prog (Db M) Unit) :
    Prop :=
  Triple true (fun db => db = base) m (fun _ => Changed base name g) fun db => db = base ∨ Changed base name g db

section

variable {g : List (MemoryPoint M) → List (MemoryPoint M)}

theorem modify_changes {f : Collection (MemoryPoint M) → Option (List (MemoryPoint M))}
    (hf : ∀ c, ∀ points ∈ f c, points = g c.points) : Changes base name g (modify name f) := by
  refine Triple.call fun db hdb => ?_
  subst hdb
  cases hc : db.get? name with
  | none => exact .inl rfl
  | some c =>
    rw [Option.bind_some]
    cases hfc : f c with
    | none => exact .inl rfl
    | some points =>
      obtain rfl := hf c points hfc
      exact ⟨⟨c, hc, rfl⟩, fun _ => ⟨.inl rfl, .inr ⟨c, hc, rfl⟩⟩⟩

theorem raise_changes : Changes base name g raise := Triple.raise.mono (fun _ h => .inl h) (fun _ _ h => h) fun _ h => h

/-- The program changes nothing. -/
abbrev Quiet {α : Type} (base : Db M) (m : Prog (Db M) α) : Prop :=
  Triple true (fun db => db = base) m (fun _ db => db = base) fun db => db = base

theorem read_quiet {α : Type} (f : Db M → Option α) : Quiet base (read f) := by
  refine Triple.read fun db hdb => ?_
  cases f db with
  | none => exact hdb
  | some a => exact ⟨hdb, fun _ => hdb⟩

theorem ensurePoint_quiet (other id : Str) : Quiet base (ensurePoint other id) :=
  (read_quiet _).bind fun _ => Triple.ite (fun _ => Triple.raise) fun _ => Triple.skip

theorem Changes.after {α : Type} {m : Prog (Db M) α} {k : α → Prog (Db M) Unit} (hm : Quiet base m)
    (hk : ∀ a, Changes base name g (k a)) : Changes base name g (m >>= k) :=
  Triple.bind (hm.mono (fun _ h => h) (fun _ _ h => h) fun _ h => .inl h) hk

theorem addPoint_changes (size : ℕ) (point : MemoryPoint M) :
    Changes base name (put point) (addPoint name size point) := by
  refine modify_changes fun c points hpoints => ?_
  split at hpoints
  · exact (Option.some.inj hpoints).symm
  · cases hpoints

theorem deletePoints_changes (selected : MemoryPoint M → Bool) :
    Changes base name (drop selected) (deletePoints name selected) :=
  modify_changes fun _ _ hpoints => (Option.some.inj hpoints).symm

theorem createMemoryPoint_changes (size : ℕ) (id : Str) (payload : M) :
    Changes base name (put (.memory id payload)) (createMemoryPoint name size id payload) :=
  Triple.ite (fun _ => raise_changes) fun _ => Triple.ite (fun _ => raise_changes) fun _ =>
    Changes.after (read_quiet _) fun _ => addPoint_changes size _

theorem editMemoryPoint_changes (size : ℕ) (id : Str) (payload : M) :
    Changes base name (put (.memory id payload)) (editMemoryPoint name size id payload) :=
  Triple.ite (fun _ => raise_changes) fun _ => Triple.ite (fun _ => raise_changes) fun _ =>
    Changes.after (ensurePoint_quiet name id) fun _ => Changes.after (read_quiet _) fun _ => addPoint_changes size _

theorem deleteMemoryPoint_changes (id : Str) :
    Changes base name (drop fun p => p.id = id) (deleteMemoryPoint name id) :=
  Triple.ite (fun _ => raise_changes) fun _ =>
    Changes.after (ensurePoint_quiet name id) fun _ => deletePoints_changes _

theorem deleteMemoryPointsByMetadata_changes (selected : MemoryPoint M → Bool) :
    Changes base name (drop selected) (deleteMemoryPointsByMetadata name selected) :=
  Triple.ite (fun _ => raise_changes) fun _ => deletePoints_changes selected

end

/-! ## Requests for points -/

section

variable {db db' : Db M} {a a' : Account M} {other : Str}

/-- The collection and its account are changed, or another collection is. -/
theorem Kept.changed {g : List (MemoryPoint M) → List (MemoryPoint M)} (h : Kept name db a)
    (hc : Changed db other g db')
    (hprocedures : other = procedural → Procedures (memories db other) → Procedures (g (memories db other)))
    (hsame : other ≠ name → a' = a) (hmade : a'.made = a.made)
    (hkept : other = name → a'.kept.Sublist (g (memories db name)))
    (hsent : other = name → (g (memories db name)).Sublist a'.sent) : Kept name db' a' := by
  obtain ⟨c, hget, rfl⟩ := hc
  have hpoints : memories db other = c.points := by rw [memories, hget, Option.elim_some]
  have hset : memories (db.set other { c with points := g c.points }) other = g (memories db other) := by
    rw [memories_set, hpoints]
  have hothers {n : Str} (hn : n ≠ other) : (db.set other { c with points := g c.points }).get? n = db.get? n :=
    Dict.get?_set_of_ne _ _ hn
  refine ⟨⟨fun n c' hc' => ?_, ?_⟩, fun pair hpair => ?_, ?_, ?_⟩
  · by_cases hn : n = other
    · subst hn
      rw [Dict.get?_set_self] at hc'
      obtain rfl := Option.some.inj hc'
      exact h.aliases n c hget
    · exact h.aliases n c' (hothers hn ▸ hc')
  · by_cases hn : procedural = other
    · subst hn
      rw [hset]
      exact hprocedures rfl h.procedures
    · rw [memories_of_get? (hothers hn)]
      exact h.procedures
  · obtain ⟨c', hc', hready⟩ := h.made pair (hmade ▸ hpair)
    by_cases hn : name = other
    · subst hn
      obtain rfl := Option.some.inj (hget.symm.trans hc')
      exact ⟨_, Dict.get?_set_self .., hready⟩
    · exact ⟨c', (hothers hn).trans hc', hready⟩
  · by_cases hn : name = other
    · subst hn
      rw [hset]
      exact hkept rfl
    · rw [memories_of_get? (hothers hn), hsame (Ne.symm hn)]
      exact h.kept
  · by_cases hn : name = other
    · subst hn
      rw [hset]
      exact hsent rfl
    · rw [memories_of_get? (hothers hn), hsame (Ne.symm hn)]
      exact h.sent

theorem put_sublist {l l' : List (MemoryPoint M)} (h : l.Sublist l') (point : MemoryPoint M) :
    (put point l).Sublist (put point l') := (h.filter _).append (List.Sublist.refl _)

theorem drop_sublist {l l' : List (MemoryPoint M)} (h : l.Sublist l') (selected : MemoryPoint M → Bool) :
    (drop selected l).Sublist (drop selected l') := h.filter _

theorem drop_le (selected : MemoryPoint M → Bool) (l : List (MemoryPoint M)) : (drop selected l).Sublist l :=
  List.filter_sublist

theorem drop_le_put (point : MemoryPoint M) (l : List (MemoryPoint M)) :
    (drop (fun p => p.id = point.id) l).Sublist (put point l) := by
  have heq : drop (fun p => p.id = point.id) l = l.filter (·.id ≠ point.id) :=
    List.filter_congr fun p _ => (decide_not (p := p.id = point.id)).symm
  rw [heq]
  exact List.sublist_append_left ..

/-- The points lie between the two sides of the account. -/
def Between (a : Account M) (points : List (MemoryPoint M)) : Prop := a.kept.Sublist points ∧ points.Sublist a.sent

/-- A request that changes the points of a collection, if it does, and what becomes of the account. -/
theorem Kept.points {m : Prog (Db M) Unit} {g : List (MemoryPoint M) → List (MemoryPoint M)}
    {f : Bool → Account M → Account M} (h : Kept name db a) (hm : Changes db other g m) (fs : List Fault)
    (hprocedures : other = procedural → Procedures (memories db other) → Procedures (g (memories db other)))
    (hmade : ∀ returned, (f returned a).made = a.made)
    (hchanged : ∀ returned, Between (f returned a) (g (memories db name)))
    (hraised : Between (f false a) (memories db name)) :
    Kept name (m db fs).2.1 (if other = name then f (m db fs).1.isSome a else a) := by
  have hafter (returned : Bool) {db' : Db M} (hc : Changed db other g db') :
      Kept name db' (if other = name then f returned a else a) := by
    refine h.changed hc hprocedures (fun hne => if_neg hne) ?_ (fun hn => ?_) fun hn => ?_
    · split
      · exact hmade returned
      · rfl
    · rw [if_pos hn]
      exact (hchanged returned).1
    · rw [if_pos hn]
      exact (hchanged returned).2
  rcases hm.ends fs (.inl rfl) rfl with ⟨_, hret, hc⟩ | ⟨hret, hdb | hc⟩
  · exact hafter _ hc
  · rw [hdb, hret]
    split
    · exact ⟨h.toTidy, hmade false ▸ h.made, hraised.1, hraised.2⟩
    · exact h
  · exact hafter _ hc

theorem Kept.put {m : Prog (Db M) Unit} {point : MemoryPoint M} (h : Kept name db a)
    (hm : Changes db other (put point) m) (hother : other ≠ procedural) (fs : List Fault) :
    Kept name (m db fs).2.1 (if other = name then a.put point (m db fs).1.isSome else a) := by
  refine h.points (f := Account.put point) hm fs (fun he => absurd he hother) (fun returned => ?_)
    (fun returned => ?_) ?_
  · cases returned <;> rfl
  · cases returned with
    | true => exact ⟨put_sublist h.kept point, put_sublist h.sent point⟩
    | false => exact ⟨(drop_sublist h.kept _).trans (drop_le_put ..),
        (List.filter_sublist.trans h.sent).append (List.Sublist.refl _)⟩
  · exact ⟨(drop_le ..).trans h.kept, h.sent.trans (List.sublist_append_left ..)⟩

theorem Procedures.drop {points : List (MemoryPoint M)} (h : Procedures points) (selected : MemoryPoint M → Bool) :
    Procedures (drop selected points) := by
  obtain ⟨ps, rfl, hs⟩ := h
  rw [LongTermMemory.drop, List.filter_map]
  exact ⟨_, rfl, synced_of_sublist hs List.filter_sublist⟩

theorem Kept.drop {m : Prog (Db M) Unit} {selected : MemoryPoint M → Bool} (h : Kept name db a)
    (hm : Changes db other (drop selected) m) (fs : List Fault) :
    Kept name (m db fs).2.1 (if other = name then a.drop selected (m db fs).1.isSome else a) := by
  refine h.points (f := Account.drop selected) hm fs (fun _ hp => hp.drop selected) (fun _ => rfl)
    (fun returned => ?_) ?_
  · cases returned with
    | true => exact ⟨drop_sublist h.kept selected, drop_sublist h.sent selected⟩
    | false => exact ⟨drop_sublist h.kept selected, (drop_le ..).trans h.sent⟩
  · exact ⟨(drop_le ..).trans h.kept, h.sent⟩

/-- A request that is refused. -/
theorem Kept.refused {point : MemoryPoint M} (h : Kept name db a) (hother : other ≠ name) {m : Prog (Db M) Unit}
    (hm : m = raise) (fs : List Fault) :
    Kept name (m db fs).2.1 (if other = name then a.put point (m db fs).1.isSome else a) := by
  rw [hm, if_neg hother]
  exact h

end

/-! ## Syncs and reloads -/

section

variable {db : Db M} {a : Account M} {pair : Pair}

theorem held_self (h : Kept name db a) (pair : Pair) (may : Str → Prop) : Held db pair may [] [] db :=
  ⟨h.toTidy, fun _ _ => .inl rfl, by simp, by simp⟩

/-- The collection is the same. -/
theorem Kept.same {db' : Db M} (h : Kept name db a) (ht : Tidy db') (hget : db'.get? name = db.get? name) :
    Kept name db' a :=
  ⟨ht, fun pair hpair => (h.made pair hpair).congr hget, memories_of_get? hget ▸ h.kept, memories_of_get? hget ▸ h.sent⟩

/-- A sync leaves the collection as it is. -/
theorem Kept.sync_same (h : Kept name db a) (hne : name ≠ procedural) (size : ℕ) (plugins : Sync) (fs : List Fault) :
    Tidy (syncPlugins size plugins db fs).2.1 ∧ (syncPlugins size plugins db fs).2.1.get? name = db.get? name := by
  have hheld : ∃ gone done, Held db ⟨[], size⟩ (fun _ => False) gone done (syncPlugins size plugins db fs).2.1 := by
    rcases (syncPlugins_spec size plugins).ends fs (.inl rfl) (held_self h ⟨[], size⟩ fun _ => False) with
      ⟨_, -, hend⟩ | ⟨-, hend⟩
    · exact ⟨_, _, hend.1⟩
    · exact ⟨_, _, hend⟩
  obtain ⟨_, _, hheld⟩ := hheld
  exact ⟨hheld.toTidy, (hheld.remains name hne).resolve_right fun hno => hno.1⟩

/-- The points of a collection after a reload: the same, or none. -/
theorem Kept.sent_of_held {db' : Db M} {may : Str → Prop} {gone done : List Str} (h : Kept name db a)
    (hheld : Held db pair may gone done db') (hne : name ≠ procedural) : (memories db' name).Sublist a.sent := by
  rcases hheld.remains name hne with hsame | ⟨-, hempty⟩
  · rw [memories_of_get? hsame]
    exact h.sent
  · rw [hempty]
    exact List.nil_sublist _

/-- A collection that is there for the embedder and is not deleted. -/
theorem Kept.reload_same {db' : Db M} {deleted gone done : List Str} (h : Kept name db a)
    (hheld : Held db pair (reloads db pair deleted) gone done db') (hne : name ≠ procedural)
    (hmade : a.made = some pair) (hin : name ∉ deleted) : db'.get? name = db.get? name := by
  refine (hheld.remains name hne).resolve_right fun hno => ?_
  exact hno.1.elim hin fun hnot => hnot (h.made pair hmade)

theorem Kept.reload (h : Kept name db a) (hname : name ∈ collectionNames) (hne : name ≠ procedural) (env : Env)
    (pair : Pair) (plugins : Sync) (deleted : List Str) (fs : List Fault) :
    Kept name (LongTermMemory.reload env pair plugins deleted db fs).2.1
      (a.reload name pair deleted (LongTermMemory.reload env pair plugins deleted db fs).1.isSome) := by
  rcases (reload_spec env plugins deleted).ends fs (.inl rfl) (held_self h pair (reloads db pair deleted)) with
    ⟨_, hret, hheld, -⟩ | ⟨hret, hheld⟩
  · rw [hret, Account.reload]
    split
    · rename_i hsame
      exact h.same hheld.toTidy (h.reload_same hheld hne hsame.1 hsame.2)
    · refine ⟨hheld.toTidy, fun pair' hpair => ?_, List.nil_sublist _, ?_⟩
      · obtain rfl := Option.some.inj hpair
        exact hheld.ready name hname
      · dsimp only
        split
        · rename_i hin
          rw [hheld.emptied name hin.2 hne]
        · exact h.sent_of_held hheld hne
  · rw [hret, Account.reload]
    split
    · rename_i hsame
      exact h.same hheld.toTidy (h.reload_same hheld hne hsame.1 hsame.2)
    · refine ⟨hheld.toTidy, fun pair' hpair => ?_, List.nil_sublist _, ?_⟩
      · cases hpair
      · exact h.sent_of_held hheld hne

end

/-! ## Runs -/

theorem Load.serve_eq (l : Load) (env : Env) (pair : Pair) (plugins : Sync) :
    (l.serve env pair plugins : Prog (Db M) Unit) =
      if l.Accepted then LongTermMemory.reload env pair plugins l.deleted else raise := by
  cases l with
  | wipeCollections => exact (if_pos fun _ h => h).symm
  | wipeSingleCollection name =>
    by_cases hname : name ∈ collectionNames
    · exact (if_neg (not_not_intro hname)).trans (if_pos (by simpa [Load.Accepted, Load.deleted] using hname)).symm
    · exact (if_pos hname).trans (if_neg (by simpa [Load.Accepted, Load.deleted] using hname)).symm
  | bootstrap => exact (if_pos fun _ h => absurd h List.not_mem_nil).symm

theorem points_kept {db : Db M} {a : Account M} (h : Kept name db a) (hne : name ≠ procedural) (r : PointRequest M)
    (fs : List Fault) : Kept name (r.serve db fs).2.1 (a.points name (r.serve db fs).1.isSome r) := by
  cases r with
  | create other size id payload =>
    by_cases hother : other = procedural
    · exact h.refused (fun he => hne (he.symm.trans hother)) (if_pos hother) fs
    · exact h.put (createMemoryPoint_changes size id payload) hother fs
  | edit other size id payload =>
    by_cases hother : other = procedural
    · exact h.refused (fun he => hne (he.symm.trans hother)) (if_pos hother) fs
    · exact h.put (editMemoryPoint_changes size id payload) hother fs
  | delete other id => exact h.drop (deleteMemoryPoint_changes id) fs
  | deleteByMetadata other selected => exact h.drop (deleteMemoryPointsByMetadata_changes selected) fs

theorem step_kept {db : Db M} {a : Account M} (h : Kept name db a) (hname : name ∈ collectionNames)
    (hne : name ≠ procedural) (e : Request M × List Fault) :
    Kept name (step db e) (a.step name (e.1, returns db e)) := by
  obtain ⟨r, fs⟩ := e
  cases r with
  | points r => exact points_kept h hne r fs
  | sync size plugins =>
    obtain ⟨htidy, hsame⟩ := h.sync_same hne size plugins fs
    exact h.same htidy hsame
  | load l env pair plugins =>
    dsimp only [step, returns, Request.serve, Account.step]
    rw [l.serve_eq]
    by_cases hl : l.Accepted
    · rw [if_pos hl, if_pos hl]
      exact h.reload hname hne env pair plugins l.deleted fs
    · rw [if_neg hl, if_neg hl]
      exact h

/-- The request is a sync, or a load for the embedder that the collection is there for and does not delete it. -/
def Request.Spares (name : Str) (a : Account M) : Request M → Prop
  | .points _ => False
  | .sync .. => True
  | .load l _ pair _ => a.made = some pair ∧ name ∉ l.deleted

theorem step_spared {db : Db M} {a : Account M} (h : Kept name db a) (hne : name ≠ procedural)
    (e : Request M × List Fault) (hspares : e.1.Spares name a) : (step db e).get? name = db.get? name := by
  obtain ⟨r, fs⟩ := e
  cases r with
  | points => exact hspares.elim
  | sync size plugins => exact (h.sync_same hne size plugins fs).2
  | load l env pair plugins =>
    dsimp only [step, Request.serve]
    rw [l.serve_eq]
    split
    · rcases (reload_spec env plugins l.deleted).ends fs (.inl rfl) (held_self h pair (reloads db pair l.deleted)) with
        ⟨_, -, hheld, -⟩ | ⟨-, hheld⟩
      all_goals exact h.reload_same hheld hne hspares.1 hspares.2
    · rfl

theorem kept_empty : Kept name (.empty : Db M) .none where
  aliases := by
    intro name c hc
    cases hc
  procedures := procedures_nil
  made := by rintro pair ⟨⟩
  kept := List.Sublist.refl _
  sent := List.Sublist.refl _

theorem run_kept (hname : name ∈ collectionNames) (hne : name ≠ procedural) (es : List (Request M × List Fault))
    {db : Db M} {a : Account M} (h : Kept name db a) :
    Kept name (Machine.run step db es) (Machine.run (Account.step name) a (outcomes db es)) := by
  induction es generalizing db a with
  | nil => exact h
  | cons e es ih => exact ih (step_kept h hname hne e)

/-- After any requests from the empty database, any of whose calls raised before or after their effect: the episodic and
the declarative collection surely have the points that their accounts keep, and have no others than those that these may
have, in their order. A wipe of another collection, a change of the language model or a sync leaves the collection as it
is, wherever it raises. -/
theorem memories_kept (es : List (Request M × List Fault)) (hname : name ∈ collectionNames) (hne : name ≠ procedural) :
    (account name (outcomes .empty es)).kept.Sublist (memories (Machine.run step .empty es) name) ∧
    (memories (Machine.run step .empty es) name).Sublist (account name (outcomes .empty es)).sent ∧
    ∀ e : Request M × List Fault, e.1.Spares name (account name (outcomes .empty es)) →
      (Machine.run step .empty (es ++ [e])).get? name = (Machine.run step .empty es).get? name := by
  have h := run_kept hname hne es kept_empty
  refine ⟨h.kept, h.sent, fun e hspares => ?_⟩
  rw [Machine.run_append, Machine.run_cons, Machine.run_nil]
  exact step_spared h hne e hspares

def dotted : Sync where
  call := some CheshireCat.dottedTools.toCall
  small := by
    rintro c ⟨⟩
    exact CheshireCat.dottedTools.small
  returns := true

/-- A message is stored, and a wipe of the documents raises once they are deleted. -/
def halfWipe : List (Request Str × List Fault) :=
  [(.load .bootstrap noSnapshots ada dotted, []), (.points (.create episodic 1536 "1".toList "I moved".toList), []),
    (.load (.wipeSingleCollection "declarative".toList) noSnapshots ada dotted, [.none, .before])]

theorem memories_kept_halfWipe : [MemoryPoint.memory "1".toList "I moved".toList].Sublist
    (memories (Machine.run step .empty halfWipe) episodic) := by
  have hkept : (account episodic (outcomes .empty halfWipe)).kept = [.memory "1".toList "I moved".toList] := by
    decide +kernel
  exact hkept ▸ (memories_kept halfWipe (by decide) (by decide)).1

/-! ## Requests that return -/

/-- The sync of the plugins in a request. -/
def Request.syncs : Request M → Option Sync
  | .points _ => none
  | .sync _ plugins | .load _ _ _ plugins => some plugins

/-- After a request: the procedures are those of the plugins; after a load, the collections are there for the embedder,
and the deleted ones have no points. -/
structure Served (r : Request M) (db : Db M) : Prop where
  procedures : ∀ plugins ∈ r.syncs, ∃ c, plugins.call = some c ∧ Aligned c.procedures db
  ready : ∀ l env pair plugins, r = .load l env pair plugins → ∀ name ∈ collectionNames, Labelled pair name db
  wiped : ∀ l env pair plugins, r = .load l env pair plugins → ∀ name ∈ l.deleted, name ≠ procedural →
    memories db name = []

theorem step_served {db : Db M} (ht : Tidy db) (e : Request M × List Fault) (h : returns db e = true) :
    Served e.1 (step db e) := by
  have hheld (pair : Pair) (may : Str → Prop) : Held db pair may [] [] db := ⟨ht, fun _ _ => .inl rfl, by simp, by simp⟩
  obtain ⟨r, fs⟩ := e
  cases r with
  | points => exact ⟨by rintro _ ⟨⟩, by rintro _ _ _ _ ⟨⟩, by rintro _ _ _ _ ⟨⟩⟩
  | sync size plugins =>
    rcases (syncPlugins_spec size plugins).ends fs (.inl rfl) (hheld ⟨[], size⟩ fun _ => False) with
      ⟨_, -, hend⟩ | ⟨hret, -⟩
    · refine ⟨fun plugins' hp => ?_, by rintro _ _ _ _ ⟨⟩, by rintro _ _ _ _ ⟨⟩⟩
      obtain rfl := Option.some.inj hp
      exact hend.2
    · dsimp only [returns, Request.serve] at h
      rw [hret] at h
      cases h
  | load l env pair plugins =>
    dsimp only [step, returns, Request.serve] at h ⊢
    rw [l.serve_eq] at h ⊢
    by_cases hl : l.Accepted
    · rw [if_pos hl] at h ⊢
      rcases (reload_spec env plugins l.deleted).ends fs (.inl rfl) (hheld pair (reloads db pair l.deleted)) with
        ⟨_, -, hend, haligned⟩ | ⟨hret, -⟩
      · refine ⟨fun plugins' hp => ?_, ?_, ?_⟩
        · obtain rfl := Option.some.inj hp
          exact haligned
        · rintro _ _ _ _ ⟨⟩
          exact hend.ready
        · rintro _ _ _ _ ⟨⟩
          exact hend.emptied
      · rw [hret] at h
        cases h
    · rw [if_neg hl] at h
      cases h

/-- After any requests, whatever raised in them: a sync of the plugins, a wipe or a load of the memory that returns
leaves exactly the hashes of the active triggers in the procedural collection, each once; a wipe or a load leaves every
collection there for the embedder, and those that it wipes without points. -/
theorem returned_served (es : List (Request M × List Fault)) (e : Request M × List Fault)
    (h : returns (Machine.run step .empty es) e = true) :
    Served e.1 (step (Machine.run step .empty es) e) :=
  have hkept : Kept episodic (Machine.run step .empty es)
      (Machine.run (Account.step episodic) .none (outcomes .empty es)) :=
    run_kept (by decide) (by decide) es kept_empty
  step_served hkept.toTidy e h

/-- The documents are wiped after all. -/
theorem returned_served_halfWipe : Served (.load (.wipeSingleCollection "declarative".toList) noSnapshots ada dotted)
    (step (Machine.run step .empty halfWipe)
      (.load (.wipeSingleCollection "declarative".toList) noSnapshots ada dotted, [])) :=
  returned_served halfWipe (.load (.wipeSingleCollection "declarative".toList) noSnapshots ada dotted, [])
    (by decide +kernel)

end KCore.LongTermMemory
