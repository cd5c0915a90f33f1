import KCore.Lib.Run
import Mathlib.Data.List.Nodup
import KCore.Impl.WhiteRabbit

/-!
# Ids of scheduled jobs

The id that a method composes tells the kind of a job, its function's name and what it
has of the timing (`composedId_eq_iff`). So a call succeeds just when no job still
scheduled is alike in these (`serves_iff`), and `job_ids_iff` says so of every call of a
run.
-/

namespace KCore.WhiteRabbit

open Text Calendar

variable {K : Type}

/-! ## Composed ids -/

def composedId (name : Str) : Trigger → Str
  | .date runDate => name ++ "-".toList ++ strftime runDate
  | .interval _ _ days hours minutes seconds =>
    name ++ "-interval-".toList ++ dec days ++ "-".toList ++ dec hours ++ "-".toList ++ dec minutes ++
      "-".toList ++ dec seconds
  | .cron .. => name ++ "-cron".toList

/-- Jobs of functions with one name, due in one second, or after the same time, or both cron jobs. -/
def Alike (name name' : Str) : Trigger → Trigger → Prop
  | .date runDate, .date runDate' => name = name' ∧ runDate / Calendar.second = runDate' / Calendar.second
  | .interval _ _ d h m s, .interval _ _ d' h' m' s' => name = name' ∧ d = d' ∧ h = h' ∧ m = m' ∧ s = s'
  | .cron .., .cron .. => name = name'
  | _, _ => False

instance (name name' : Str) : ∀ t t', Decidable (Alike name name' t t')
  | .date _, .date _ => inferInstanceAs (Decidable (_ ∧ _))
  | .interval .., .interval .. => inferInstanceAs (Decidable (_ ∧ _ ∧ _ ∧ _ ∧ _))
  | .cron .., .cron .. => inferInstanceAs (Decidable (_ = _))
  | .date _, .interval .. | .date _, .cron .. | .interval .., .date _ | .interval .., .cron .. | .cron .., .date _
  | .cron .., .interval .. => .isFalse id

/-- What stands before the last digits of an id. -/
def Trigger.mark : Trigger → Char
  | .date _ => ':'
  | .interval .. => '-'
  | .cron .. => 'n'

theorem Trigger.isDigit_mark (t : Trigger) : t.mark.isDigit = false := by
  cases t <;> rfl

theorem dec_eq_pad (n : ℕ) : dec n = pad 0 n := by
  rw [pad, Nat.zero_sub, List.replicate_zero, List.nil_append]

theorem composedId_ends (name : Str) (t : Trigger) :
    ∃ a d, composedId name t = a ++ t.mark :: d ∧ ∀ c ∈ d, c.isDigit = true := by
  cases t with
  | date runDate =>
    obtain ⟨a, ha⟩ := strftime_ends runDate
    refine ⟨name ++ "-".toList ++ a, pad 2 (runDate / Calendar.second % 60), ?_, fun c hc => isDigit_of_mem_pad hc⟩
    rw [composedId, ha, List.append_assoc _ a]
    rfl
  | interval _ _ days hours minutes seconds =>
    refine ⟨name ++ "-interval-".toList ++ dec days ++ "-".toList ++ dec hours ++ "-".toList ++ dec minutes,
      dec seconds, ?_, fun c hc => isDigit_of_mem_dec hc⟩
    exact List.append_assoc _ ['-'] (dec seconds)
  | cron => exact ⟨name ++ "-cro".toList, [], by simp [composedId, Trigger.mark], by simp⟩

/-- The character before the last run of digits. -/
theorem mark_inj {a b d e : Str} {c c' : Char} (hc : c.isDigit = false) (hc' : c'.isDigit = false)
    (hd : ∀ x ∈ d, x.isDigit = true) (he : ∀ x ∈ e, x.isDigit = true) (h : a ++ c :: d = b ++ c' :: e) : c = c' := by
  have hlast {a d : Str} {c : Char} (hc : c.isDigit = false) (hd : ∀ x ∈ d, x.isDigit = true) :
      (a ++ c :: d).reverse.find? (fun x => !x.isDigit) = some c := by
    have hnone : d.reverse.find? (fun x => !x.isDigit) = none :=
      List.find?_eq_none.mpr fun x hx => by simp [hd x (List.mem_reverse.mp hx)]
    rw [List.reverse_append, List.reverse_cons, List.append_assoc, List.find?_append, hnone, Option.none_or]
    exact List.find?_cons_of_pos (by rw [hc]; rfl)
  have hl := hlast (a := a) hc hd
  rw [h, hlast hc' he] at hl
  exact (Option.some.inj hl).symm

/-- Ids are equal just for jobs that are alike. -/
theorem composedId_eq_iff (name name' : Str) (t t' : Trigger) :
    composedId name t = composedId name' t' ↔ Alike name name' t t' := by
  have hmark (h : composedId name t = composedId name' t') : t.mark = t'.mark := by
    obtain ⟨a, d, ha, hd⟩ := composedId_ends name t
    obtain ⟨b, e, hb, he⟩ := composedId_ends name' t'
    rw [ha, hb] at h
    exact mark_inj t.isDigit_mark t'.isDigit_mark hd he h
  cases t with
  | date runDate =>
    cases t' with
    | date runDate' =>
      refine ⟨fun h => append_strftime_inj h, fun ⟨hname, hsecond⟩ => ?_⟩
      rw [composedId, composedId, hname, strftime_congr hsecond]
    | interval => exact iff_of_false (fun h => absurd (hmark h) (by simp [Trigger.mark])) id
    | cron => exact iff_of_false (fun h => absurd (hmark h) (by simp [Trigger.mark])) id
  | interval _ _ d h m s =>
    cases t' with
    | interval _ _ d' h' m' s' =>
      refine ⟨fun heq => ?_, fun ⟨hname, hd, hh, hm, hs⟩ => by rw [composedId, composedId, hname, hd, hh, hm, hs]⟩
      simp only [composedId, dec_eq_pad] at heq
      obtain ⟨heq, hs⟩ := append_pad_inj (by decide) heq
      obtain ⟨heq, hm⟩ := append_pad_inj (by decide) heq
      obtain ⟨heq, hh⟩ := append_pad_inj (by decide) heq
      have heq : name ++ "-interval".toList ++ ['-'] ++ pad 0 d = name' ++ "-interval".toList ++ ['-'] ++ pad 0 d' := by
        simpa using heq
      obtain ⟨heq, hd⟩ := append_pad_inj (by decide) heq
      exact ⟨List.append_cancel_right heq, hd, hh, hm, hs⟩
    | date => exact iff_of_false (fun h => absurd (hmark h) (by simp [Trigger.mark])) id
    | cron => exact iff_of_false (fun h => absurd (hmark h) (by simp [Trigger.mark])) id
  | cron =>
    cases t' with
    | cron => exact ⟨fun h => List.append_cancel_right h, fun h => congrArg (· ++ "-cron".toList) h⟩
    | date => exact iff_of_false (fun h => absurd (hmark h) (by simp [Trigger.mark])) id
    | interval => exact iff_of_false (fun h => absurd (hmark h) (by simp [Trigger.mark])) id

/-! ## Calls -/

def Call.function : Call K → Function
  | .job _ function .. | .interval function .. | .cron function .. => function
  | .chat .. => sendWsMessage

def Call.trigger : Call K → Trigger
  | .job today _ _ delay _ | .chat today _ delay => .date (today + delay.total)
  | .interval _ _ startDate endDate days hours minutes seconds _ => .interval startDate endDate days hours minutes seconds
  | .cron _ _ startDate endDate fields _ => .cron startDate endDate fields

def Call.kwargs : Call K → Kwargs K
  | .job _ _ _ _ kwargs | .interval _ _ _ _ _ _ _ _ kwargs | .cron _ _ _ _ _ kwargs => .given kwargs
  | .chat _ content _ => .chat content

/-- The job is callable, the timing one that there is, and no id is given. -/
def Call.Valid : Call K → Prop
  | .job today function jobId delay _ => function.callable = true ∧ jobId = none ∧ today + delay.total < maxInstant
  | .interval function jobId .. | .cron function jobId .. => function.callable = true ∧ jobId = none
  | .chat today _ delay => today + delay.total < maxInstant

/-- The job that a call makes of a function with this name. -/
def Call.made (c : Call K) (name : Str) : Job K := ⟨composedId name c.trigger, c.function, c.trigger, c.kwargs, false⟩

theorem Call.respond_eq {c : Call K} (h : c.Valid) (jobs : List (Job K)) :
    c.respond jobs = c.function.name.bind fun name =>
      (addJob jobs (c.made name)).map fun jobs => (jobs, (c.made name).id) := by
  cases c with
  | job today function jobId delay kwargs =>
    obtain ⟨hcallable, rfl, htime⟩ := h
    simp only [respond, scheduleJob, schedule, if_pos htime, if_pos hcallable, Option.bind_eq_bind, Option.bind_some,
      Option.bind_map]
    refine Option.bind_congr fun name _ => ?_
    exact Option.map_eq_bind.symm
  | interval function jobId startDate endDate days hours minutes seconds kwargs =>
    obtain ⟨hcallable, rfl⟩ := h
    simp only [respond, scheduleIntervalJob, if_pos hcallable, Option.bind_eq_bind, Option.bind_map]
    refine Option.bind_congr fun name _ => ?_
    exact Option.map_eq_bind.symm
  | cron function jobId startDate endDate fields kwargs =>
    obtain ⟨hcallable, rfl⟩ := h
    simp only [respond, scheduleCronJob, if_pos hcallable, Option.bind_eq_bind, Option.bind_map]
    refine Option.bind_congr fun name _ => ?_
    exact Option.map_eq_bind.symm
  | chat today content delay =>
    have htime : today + delay.total < maxInstant := h
    simp only [respond, scheduleChatMessage, schedule, if_pos htime, Option.bind_eq_bind, Option.bind_some]
    exact Option.map_eq_bind.symm

/-- No job has the id. -/
def Fresh (jobs : List (Job K)) (id : Str) : Prop := ∀ j ∈ jobs, j.id ≠ id

theorem addJob_of_fresh {jobs : List (Job K)} {j : Job K} (h : Fresh jobs j.id) : addJob jobs j = some (jobs ++ [j]) := by
  rw [addJob, if_neg]
  intro hany
  obtain ⟨k, hk, heq⟩ := List.any_eq_true.mp hany
  exact h k hk (of_decide_eq_true heq)

theorem addJob_of_used {jobs : List (Job K)} {j : Job K} (h : ¬Fresh jobs j.id) : addJob jobs j = none := by
  unfold Fresh at h
  push Not at h
  obtain ⟨k, hk, heq⟩ := h
  exact if_pos (List.any_eq_true.mpr ⟨k, hk, decide_eq_true heq⟩)

/-- Pausing, resuming and removing the job that came last touch that job only. -/
def Alone (jobs : List (Job K)) (j : Job K) : Prop :=
  (pauseJob (jobs ++ [j]) j.id).1 = jobs ++ [{ j with paused := true }] ∧
    (∀ again, (resumeJob (jobs ++ [j]) j.id again).1 = jobs ++ if again then [{ j with paused := false }] else []) ∧
    (removeJob (jobs ++ [j]) j.id).1 = jobs

theorem alone_of_fresh {jobs : List (Job K)} {j : Job K} (h : Fresh jobs j.id) : Alone jobs j := by
  have hmap (f : Job K → Job K) : (jobs ++ [j]).map (fun k => if k.id = j.id then f k else k) = jobs ++ [f j] := by
    rw [List.map_append, List.map_singleton, if_pos rfl]
    congr 1
    conv_rhs => rw [← List.map_id jobs]
    exact List.map_congr_left fun k hk => if_neg (h k hk)
  have hfilter : (jobs ++ [j]).filter (fun k => k.id ≠ j.id) = jobs := by
    rw [List.filter_append, List.filter_eq_self.mpr fun k hk => decide_eq_true (h k hk)]
    simp
  refine ⟨hmap _, fun again => ?_, hfilter⟩
  cases again with
  | true => exact hmap _
  | false => exact hfilter.trans (List.append_nil jobs).symm

/-- The call succeeds with an id that no job has, and with that acts on its own job only. -/
def Serves (jobs : List (Job K)) (c : Call K) : Prop :=
  ∃ j : Job K, c.respond jobs = some (jobs ++ [j], j.id) ∧ Fresh jobs j.id ∧ Alone jobs j

/-- The function has a name, and no job still scheduled is alike. -/
def Distinct (jobs : List (Job K)) (c : Call K) : Prop :=
  ∃ name ∈ c.function.name, ∀ j ∈ jobs, ∀ name' ∈ j.function.name, ¬Alike name' name j.trigger c.trigger

/-- Every job has the id that was composed for it. -/
structure Inv (jobs : List (Job K)) : Prop where
  nodup : (jobs.map Job.id).Nodup
  composed : ∀ j ∈ jobs, ∃ name ∈ j.function.name, j.id = composedId name j.trigger

theorem fresh_made_iff {jobs : List (Job K)} (hj : Inv jobs) (c : Call K) (name : Str) :
    Fresh jobs (c.made name).id ↔
      ∀ j ∈ jobs, ∀ name' ∈ j.function.name, ¬Alike name' name j.trigger c.trigger := by
  refine forall₂_congr fun j hm => ?_
  obtain ⟨n, hn, hid⟩ := hj.composed j hm
  have hn : j.function.name = some n := hn
  have hmade : (c.made name).id = composedId name c.trigger := rfl
  rw [hid, hmade, Ne, composedId_eq_iff]
  simp [hn]

theorem serves_iff {jobs : List (Job K)} (hj : Inv jobs) {c : Call K} (h : c.Valid) : Serves jobs c ↔ Distinct jobs c := by
  unfold Serves Distinct
  rw [c.respond_eq h]
  cases hname : c.function.name with
  | none => simp
  | some name =>
    simp only [Option.bind_some, Option.mem_some_iff, exists_eq_left']
    rw [← fresh_made_iff hj]
    constructor
    · rintro ⟨j, hr, -, -⟩
      by_contra hused
      rw [addJob_of_used hused] at hr
      cases hr
    · intro hfresh
      exact ⟨c.made name, by rw [addJob_of_fresh hfresh]; rfl, hfresh, alone_of_fresh hfresh⟩

/-! ## Runs -/

/-- What pausing and resuming do to the jobs with an id. -/
def setPaused (jobs : List (Job K)) (id : Str) (paused : Bool) : List (Job K) :=
  jobs.map fun j => if j.id = id then { j with paused := paused } else j

theorem Inv.setPaused {jobs : List (Job K)} (h : Inv jobs) (id : Str) (paused : Bool) :
    Inv (setPaused jobs id paused) where
  nodup := by
    have hid : (WhiteRabbit.setPaused jobs id paused).map Job.id = jobs.map Job.id := by
      rw [WhiteRabbit.setPaused, List.map_map]
      refine List.map_congr_left fun j _ => ?_
      dsimp only [Function.comp_apply]
      split <;> rfl
    rw [hid]
    exact h.nodup
  composed := fun j hj => by
    obtain ⟨k, hk, rfl⟩ := List.mem_map.mp hj
    obtain ⟨name, hname, hid⟩ := h.composed k hk
    refine ⟨name, ?_⟩
    split
    · exact ⟨hname, hid⟩
    · exact ⟨hname, hid⟩

theorem Inv.filter {jobs : List (Job K)} (h : Inv jobs) (id : Str) : Inv (jobs.filter (·.id ≠ id)) where
  nodup := h.nodup.sublist (List.filter_sublist.map _)
  composed := fun j hj => h.composed j (List.mem_filter.mp hj).1

theorem Inv.made {jobs : List (Job K)} (h : Inv jobs) {c : Call K} {name : Str} (hname : c.function.name = some name)
    (hfresh : Fresh jobs (c.made name).id) : Inv (jobs ++ [c.made name]) where
  nodup := by
    rw [List.map_append, List.map_singleton, ← List.concat_eq_append]
    refine List.Nodup.concat (fun hm => ?_) h.nodup
    obtain ⟨j, hj, heq⟩ := List.mem_map.mp hm
    exact hfresh j hj heq
  composed := fun j hj => by
    rcases List.mem_append.mp hj with hj | hj
    · exact h.composed j hj
    · rw [List.mem_singleton.mp hj]
      exact ⟨name, hname, rfl⟩

def Event.Valid : Event K → Prop
  | .call c => c.Valid
  | _ => True

theorem Inv.step {jobs : List (Job K)} (h : Inv jobs) {e : Event K} (he : e.Valid) : Inv (step jobs e) := by
  cases e with
  | call c =>
    have hvalid : c.Valid := he
    rw [WhiteRabbit.step, c.respond_eq hvalid]
    cases hname : c.function.name with
    | none => exact h
    | some name =>
      rw [Option.bind_some]
      by_cases hfresh : Fresh jobs (c.made name).id
      · rw [addJob_of_fresh hfresh]
        exact h.made hname hfresh
      · rw [addJob_of_used hfresh]
        exact h
  | pause id => exact h.setPaused id true
  | resume id again =>
    cases again with
    | true => exact h.setPaused id false
    | false => exact h.filter id
  | remove id => exact h.filter id
  | ended id => exact h.filter id

/-- There is one job with the id at most, and the others stay as they are. -/
def OnlyOne (jobs jobs' : List (Job K)) (id : Str) : Prop :=
  (∀ j ∈ jobs, ∀ k ∈ jobs, j.id = id → k.id = id → j = k) ∧ jobs'.filter (·.id ≠ id) = jobs.filter (·.id ≠ id)

theorem filter_setPaused (jobs : List (Job K)) (id : Str) (paused : Bool) :
    (setPaused jobs id paused).filter (·.id ≠ id) = jobs.filter (·.id ≠ id) := by
  induction jobs with
  | nil => rfl
  | cons j jobs ih =>
    rw [setPaused] at ih ⊢
    rw [List.map_cons, List.filter_cons, List.filter_cons, ih]
    by_cases hid : j.id = id <;> simp [hid]

theorem Inv.onlyOne {jobs jobs' : List (Job K)} {id : Str} (h : Inv jobs)
    (hrest : jobs'.filter (·.id ≠ id) = jobs.filter (·.id ≠ id)) : OnlyOne jobs jobs' id :=
  ⟨fun _ hj _ hk hji hki => List.inj_on_of_nodup_map h.nodup hj hk (hji.trans hki.symm), hrest⟩

/-- What is wanted of an event: a call serves, and a job's id is good for that job. -/
def Good (jobs : List (Job K)) (e : Event K) : Prop :=
  match e with
  | .call c => Serves jobs c
  | .pause id | .resume id _ | .remove id => OnlyOne jobs (step jobs e) id
  | .ended _ => True

/-- A call's job is alike to none that is still scheduled. -/
def Event.Distinct (jobs : List (Job K)) : Event K → Prop
  | .call c => WhiteRabbit.Distinct jobs c
  | _ => True

theorem good_iff {jobs : List (Job K)} (h : Inv jobs) {e : Event K} (he : e.Valid) : Good jobs e ↔ e.Distinct jobs := by
  have hfilter (id : Str) : (jobs.filter (·.id ≠ id)).filter (·.id ≠ id) = jobs.filter (·.id ≠ id) := by
    rw [List.filter_filter]
    exact List.filter_congr fun j _ => Bool.and_self _
  cases e with
  | call c => exact serves_iff h he
  | pause id => exact iff_of_true (h.onlyOne (filter_setPaused jobs id true)) trivial
  | resume id again =>
    cases again with
    | true => exact iff_of_true (h.onlyOne (filter_setPaused jobs id false)) trivial
    | false => exact iff_of_true (h.onlyOne (hfilter id)) trivial
  | remove id => exact iff_of_true (h.onlyOne (hfilter id)) trivial
  | ended id => exact iff_of_true trivial trivial

/-- In a run of valid calls, each succeeds with an id of its own just when each has a function with a name, and no job
still scheduled is alike. -/
theorem job_ids_iff {es : List (Event K)} (h : Machine.Along step (fun _ e => e.Valid) ([] : List (Job K)) es) :
    Machine.Along step Good ([] : List (Job K)) es ↔ Machine.Along step (fun jobs e => e.Distinct jobs) [] es := by
  have hinit : Inv ([] : List (Job K)) := ⟨List.nodup_nil, fun j hj => absurd hj List.not_mem_nil⟩
  constructor
  · intro hg
    exact Machine.Along.of_invariant (fun _ _ hj he => Inv.step hj he.1) (fun _ _ hj he => (good_iff hj he.1).mp he.2)
      hinit (h.and hg)
  · intro hd
    exact Machine.Along.of_invariant (fun _ _ hj he => Inv.step hj he.1) (fun _ _ hj he => (good_iff hj he.1).mpr he.2)
      hinit (h.and hd)

/-! ## Two messages in one second -/

def noDelay : Delay := ⟨0, 0, 0, 0, 0, 0⟩

/-- Noon of the first day of 2026. -/
def noon : ℕ := (739616 * 86400 + 43200) * Calendar.second

def remind : Function := ⟨true, some "remind".toList⟩

/-- A reminder at noon and one a second later. -/
theorem job_ids_iff_seconds :
    Machine.Along step Good ([] : List (Job Unit))
      [.call (.job noon remind none noDelay ()), .call (.job noon remind none { noDelay with seconds := 1 } ())] := by
  have hvalid : Machine.Along step (fun _ e => e.Valid) ([] : List (Job Unit))
      [.call (.job noon remind none noDelay ()), .call (.job noon remind none { noDelay with seconds := 1 } ())] :=
    ⟨⟨rfl, rfl, by decide⟩, ⟨rfl, rfl, by decide⟩, trivial⟩
  refine (job_ids_iff hvalid).mpr ⟨⟨"remind".toList, rfl, by simp⟩, ⟨"remind".toList, rfl, ?_⟩, trivial⟩
  intro j hj name _ h
  have hstep : step ([] : List (Job Unit)) (.call (.job noon remind none noDelay ())) =
      [⟨composedId "remind".toList (.date noon), remind, .date noon, .given (), false⟩] := by decide
  rw [hstep] at hj
  rw [List.mem_singleton.mp hj] at h
  exact absurd h.2 (by decide)

/-- Two users' messages for the same second: the second call raises. -/
theorem chat_messages_clash :
    ¬Machine.Along step Good ([] : List (Job Unit))
      [.call (.chat noon "Wake up, Alice".toList noDelay), .call (.chat noon "Wake up, Bob".toList noDelay)] := by
  intro h
  obtain ⟨-, ⟨j, hj, -⟩, -⟩ := h
  have hraises : ((Call.chat noon "Wake up, Bob".toList noDelay).respond
      (step ([] : List (Job Unit)) (.call (.chat noon "Wake up, Alice".toList noDelay)))).isSome = false := by decide
  rw [hj] at hraises
  cases hraises

end KCore.WhiteRabbit
