import KCore.Lib.MapM
import KCore.Lib.Run
import KCore.Impl.Agents
import KCore.Proof.CatForm

/-!
# Forms and tools in the agents

What the agents do in a turn is kept in a log. `Inv` relates the log to the working memory: the form
instances come one after the other, each by itself goes through a run of its own class, and none has a turn
when it is closed. What the agents report is what they did (`runAgents_reports`).
-/

namespace KCore.Agents

open Text MainAgent

variable {N : Type*}

/-! ## Logs -/

/-- The form instance that an act is about. -/
def Act.formId : Act N → Option Nat
  | started id _ | form id _ | answered id _ _ | removed id => some id
  | asked _ | ran .. => none

/-- The instance that is started. -/
def Act.starts : Act N → Option Nat
  | started id _ => some id
  | form .. | answered .. | removed _ | asked _ | ran .. => none

/-- The event of the instance. -/
def Act.eventOf (id : Nat) : Act N → Option (CatForm.Event N)
  | form i e => if i = id then some e else none
  | started .. | answered .. | removed _ | asked _ | ran .. => none

/-- What an instance did. -/
def eventsOf (id : Nat) (log : List (Act N)) : List (CatForm.Event N) := log.filterMap (Act.eventOf id)

theorem eventsOf_append (id : Nat) (log acts : List (Act N)) :
    eventsOf id (log ++ acts) = eventsOf id log ++ eventsOf id acts := List.filterMap_append

/-- The log has no event of an instance that is made later. -/
theorem eventsOf_eq_nil {id : Nat} {acts : List (Act N)} (h : ∀ act ∈ acts, act.formId ≠ some id) :
    eventsOf id acts = [] := by
  refine List.filterMap_eq_nil_iff.mpr fun act hact => ?_
  cases act with
  | form i e =>
    have hne : i ≠ id := fun he => h _ hact (congrArg some he)
    exact if_neg hne
  | started | answered | removed | asked | ran => rfl

theorem eventsOf_map_form (id : Nat) (es : List (CatForm.Event N)) : eventsOf id (es.map (.form id)) = es := by
  induction es with
  | nil => rfl
  | cons e es ih =>
    have he : Act.eventOf id (.form id e) = some e := if_pos rfl
    rw [List.map_cons, eventsOf, List.filterMap_cons_some he]
    exact congrArg (e :: ·) ih

section

variable [Numeral N]

/-! ## The forms agent -/

/-- What the form agent comes to. -/
inductive FormAgent (t : CatForm.Turn N) (m : Memory N) : Memory N × List (Act N) × AgentOutput N → Prop
  | idle (h : m.activeForm = none) : FormAgent t m (m, [], .empty)
  | removed (a : FormInstance N) (h : m.activeForm = some a) (hs : a.form.state = .closed) :
      FormAgent t m ({ m with activeForm := none }, [.removed a.id], .empty)
  | answered (a : FormInstance N) (h : m.activeForm = some a) (hs : a.form.state ≠ .closed) {output : Str}
      (hn : (CatForm.next a.cls.toClass t a.form).2.2 = some output) :
      FormAgent t m ({ m with activeForm := some { a with form := (CatForm.next a.cls.toClass t a.form).1 } },
        (CatForm.next a.cls.toClass t a.form).2.1.map (.form a.id) ++ [.answered a.id a.cls.name output],
        ⟨some output, [⟨a.cls.name, .str [], some output⟩], true⟩)
  | failed (a : FormInstance N) (h : m.activeForm = some a) (hs : a.form.state ≠ .closed)
      (hn : (CatForm.next a.cls.toClass t a.form).2.2 = none) :
      FormAgent t m ({ m with activeForm := some { a with form := (CatForm.next a.cls.toClass t a.form).1 } },
        (CatForm.next a.cls.toClass t a.form).2.1.map (.form a.id), .empty)

theorem formAgent_spec (t : CatForm.Turn N) (m : Memory N) : FormAgent t m (formAgent t m) := by
  unfold formAgent
  cases h : m.activeForm with
  | none => exact .idle h
  | some a =>
    dsimp only
    by_cases hs : a.form.state = .closed
    · rw [if_pos hs]
      exact .removed a h hs
    · rw [if_neg hs]
      rcases hn : CatForm.next a.cls.toClass t a.form with ⟨f, log, _ | output⟩
      · have := FormAgent.failed (t := t) a h hs (congrArg (·.2.2) hn)
        rwa [hn] at this
      · have := FormAgent.answered (t := t) a h hs (congrArg (·.2.2) hn)
        rwa [hn] at this

/-- The turn of a form begins in the state that it is in. -/
theorem turn_of_next (cls : CatForm.Class) (t : CatForm.Turn N) {f : CatForm.Form N} (hf : f.state ≠ .complete)
    {st : CatForm.State} (h : .turn st ∈ (CatForm.next cls t f).2.1) : st = f.state := by
  have hquiet {log : List (CatForm.Event N)} (hq : CatForm.Quiet log) : .turn st ∉ log := fun hm =>
    Bool.noConfusion (hq _ hm).2
  rcases CatForm.next_outcome cls t hf with ⟨-, he⟩ | ⟨hw, -, he⟩ | ⟨new, he, ho⟩
  · rw [he, List.mem_singleton] at h
    exact CatForm.Event.turn.inj h
  · rw [he] at h
    simp only [List.mem_cons, CatForm.Event.turn.injEq, reduceCtorEq, List.not_mem_nil, or_false] at h
    exact h.trans hw.symm
  · rw [he] at h
    rcases List.mem_cons.mp h with h | h
    · exact CatForm.Event.turn.inj h
    · cases ho with
      | incomplete hq | closed hq | asks hq => exact absurd h (hquiet hq)
      | submits hq =>
        rcases List.mem_append.mp h with h | h
        · exact absurd h (hquiet hq)
        · cases List.mem_singleton.mp h

/-! ## The invariant -/

/-- The instance goes through a run of turns of its class. -/
structure Life (m : Memory N) (log : List (Act N)) (id : Nat) (cls : FormClass) (ts : List (CatForm.Turn N)) : Prop where
  started : .started id cls ∈ log
  events : eventsOf id log = (Machine.run (CatForm.step cls.toClass) (.init, []) ts).2
  active : ∀ a, m.activeForm = some a → a.id = id →
    a.cls = cls ∧ a.form = (Machine.run (CatForm.step cls.toClass) (.init, []) ts).1

/-- What the log says of the forms. -/
structure Inv (m : Memory N) (log : List (Act N)) : Prop where
  latest : ∀ a, m.activeForm = some a → a.id + 1 = m.forms
  bound : ∀ act ∈ log, ∀ id ∈ act.formId, id < m.forms
  sorted : (log.filterMap Act.formId).Pairwise (· ≤ ·)
  starts : log.filterMap Act.starts = List.range m.forms
  lives : ∀ id < m.forms, ∃ cls ts, Life m log id cls ts
  opened : ∀ id st, .form id (.turn st) ∈ log → st ≠ .closed

theorem Inv.init {m : Memory N} (ha : m.activeForm = none) (hf : m.forms = 0) : Inv m [] where
  latest := by simp [ha]
  bound := by simp
  sorted := .nil
  starts := by simp [hf]
  lives := fun id h => absurd h (by omega)
  opened := by simp

/-- Acts of the latest instance come after all others. -/
theorem Inv.extend {m : Memory N} {log : List (Act N)} (h : Inv m log) (m' : Memory N) (acts : List (Act N)) (hforms : m.forms ≤ m'.forms)
    (hacts : ∀ act ∈ acts, ∀ id ∈ act.formId, id + 1 = m'.forms) :
    (∀ act ∈ log ++ acts, ∀ id ∈ act.formId, id < m'.forms) ∧
      ((log ++ acts).filterMap Act.formId).Pairwise (· ≤ ·) := by
  have hnew : ∀ id ∈ acts.filterMap Act.formId, id + 1 = m'.forms := fun id hid => by
    obtain ⟨act, hact, he⟩ := List.mem_filterMap.mp hid
    exact hacts act hact id he
  constructor
  · intro act hact id hid
    rcases List.mem_append.mp hact with hact | hact
    · exact (h.bound act hact id hid).trans_le hforms
    · have := hacts act hact id hid
      omega
  · rw [List.filterMap_append, List.pairwise_append]
    refine ⟨h.sorted, ?_, fun id hid id' hid' => ?_⟩
    · refine List.pairwise_of_forall_mem_list fun id hid id' hid' => ?_
      have := hnew id hid
      have := hnew id' hid'
      omega
    · obtain ⟨act, hact, he⟩ := List.mem_filterMap.mp hid
      have := h.bound act hact id he
      have := hnew id' hid'
      omega

/-- Acts that are not about forms. -/
theorem Inv.other {m m' : Memory N} {log acts : List (Act N)} (h : Inv m log) (ha : m'.activeForm = m.activeForm)
    (hf : m'.forms = m.forms) (hacts : ∀ act ∈ acts, act.formId = none) : Inv m' (log ++ acts) := by
  have hid : ∀ act ∈ acts, ∀ id, act.formId ≠ some id := fun act hact id => by simp [hacts act hact]
  obtain ⟨hbound, hsorted⟩ := h.extend m' acts hf.ge fun act hact id hid' => absurd hid' (hid act hact id)
  have hstarts : acts.filterMap Act.starts = [] := List.filterMap_eq_nil_iff.mpr fun act hact => by
    cases act with
    | started i cls => cases hacts _ hact
    | form | answered | removed | asked | ran => rfl
  refine ⟨fun a ha' => by rw [hf]; exact h.latest a (ha ▸ ha'), hbound, hsorted, ?_, fun id hlt => ?_, fun id st hm => ?_⟩
  · rw [List.filterMap_append, hstarts, List.append_nil, hf]
    exact h.starts
  · obtain ⟨cls, ts, hl⟩ := h.lives id (hf ▸ hlt)
    refine ⟨cls, ts, List.mem_append_left _ hl.started, ?_, fun a ha' => hl.active a (ha ▸ ha')⟩
    rw [eventsOf_append, eventsOf_eq_nil fun act hact => hid act hact id, List.append_nil]
    exact hl.events
  · rcases List.mem_append.mp hm with hm | hm
    · exact h.opened id st hm
    · cases hacts _ hm

/-- Without an active form, any working memory will do. -/
theorem Inv.dropped {m m' : Memory N} {log : List (Act N)} (h : Inv m log) (ha : m'.activeForm = none)
    (hf : m'.forms = m.forms) : Inv m' log := by
  refine ⟨by simp [ha], hf ▸ h.bound, h.sorted, hf ▸ h.starts, fun id hlt => ?_, h.opened⟩
  obtain ⟨cls, ts, hl⟩ := h.lives id (hf ▸ hlt)
  exact ⟨cls, ts, hl.started, hl.events, by simp [ha]⟩

/-- A new instance takes the place of the active one. -/
theorem Inv.start {m : Memory N} {log : List (Act N)} (h : Inv m log) (cls : FormClass) :
    Inv { m with activeForm := some ⟨m.forms, cls, .init⟩, forms := m.forms + 1 } (log ++ [.started m.forms cls]) := by
  obtain ⟨hbound, hsorted⟩ := h.extend { m with activeForm := some ⟨m.forms, cls, .init⟩, forms := m.forms + 1 }
    [.started m.forms cls] (Nat.le_succ _) (by
      intro act hact id hid
      rw [List.mem_singleton.mp hact] at hid
      rw [← Option.some.inj hid])
  have hnew (id : Nat) : eventsOf id ([.started m.forms cls] : List (Act N)) = [] := rfl
  refine ⟨?_, hbound, hsorted, ?_, fun id hlt => ?_, fun id st hm => ?_⟩
  · rintro a ⟨⟩
    rfl
  · rw [List.filterMap_append, h.starts, List.range_succ]
    rfl
  · rcases Nat.lt_succ_iff_lt_or_eq.mp hlt with hlt | rfl
    · obtain ⟨cls', ts, hl⟩ := h.lives id hlt
      refine ⟨cls', ts, List.mem_append_left _ hl.started, ?_, ?_⟩
      · rw [eventsOf_append, hnew, List.append_nil]
        exact hl.events
      · rintro a ⟨⟩ he
        exact absurd he hlt.ne'
    · refine ⟨cls, [], List.mem_append_right _ (.head _), ?_, ?_⟩
      · rw [eventsOf_append, hnew, List.append_nil, Machine.run_nil]
        exact eventsOf_eq_nil fun act hact he => absurd (h.bound act hact _ he) (Nat.lt_irrefl _)
      · rintro a ⟨⟩ -
        exact ⟨rfl, rfl⟩
  · rcases List.mem_append.mp hm with hm | hm
    · exact h.opened id st hm
    · cases List.mem_singleton.mp hm

/-- The active form goes on by one turn. -/
theorem Inv.next {m : Memory N} {log : List (Act N)} (h : Inv m log) {a : FormInstance N} (ha : m.activeForm = some a)
    (hs : a.form.state ≠ .closed) (t : CatForm.Turn N) {acts : List (Act N)}
    (hacts : acts = [] ∨ ∃ name output, acts = [.answered a.id name output]) :
    Inv { m with activeForm := some { a with form := (CatForm.next a.cls.toClass t a.form).1 } }
      (log ++ ((CatForm.next a.cls.toClass t a.form).2.1.map (.form a.id) ++ acts)) := by
  have hlatest := h.latest a ha
  have hid : ∀ act ∈ (CatForm.next a.cls.toClass t a.form).2.1.map (Act.form a.id) ++ acts, act.formId = some a.id := by
    intro act hact
    rcases List.mem_append.mp hact with hact | hact
    · obtain ⟨e, -, rfl⟩ := List.mem_map.mp hact
      rfl
    · rcases hacts with rfl | ⟨name, output, rfl⟩
      · cases hact
      · rw [List.mem_singleton.mp hact]
        rfl
  have hanswer (id : Nat) : eventsOf id acts = [] := by
    rcases hacts with rfl | ⟨name, output, rfl⟩ <;> rfl
  have hstarts : ((CatForm.next a.cls.toClass t a.form).2.1.map (Act.form a.id) ++ acts).filterMap Act.starts = [] := by
    refine List.filterMap_eq_nil_iff.mpr fun act hact => ?_
    rcases List.mem_append.mp hact with hact | hact
    · obtain ⟨e, -, rfl⟩ := List.mem_map.mp hact
      rfl
    · rcases hacts with rfl | ⟨name, output, rfl⟩
      · cases hact
      · rw [List.mem_singleton.mp hact]
        rfl
  obtain ⟨hbound, hsorted⟩ := h.extend
    { m with activeForm := some { a with form := (CatForm.next a.cls.toClass t a.form).1 } }
    ((CatForm.next a.cls.toClass t a.form).2.1.map (.form a.id) ++ acts) le_rfl (by
      intro act hact id hid'
      rw [hid act hact] at hid'
      rw [← Option.some.inj hid']
      exact hlatest)
  obtain ⟨cls, ts, hl⟩ := h.lives a.id (by omega)
  obtain ⟨hcls, hform⟩ := hl.active a ha rfl
  refine ⟨?_, hbound, hsorted, ?_, fun id hlt => ?_, fun id st hm => ?_⟩
  · rintro a' ⟨⟩
    exact hlatest
  · rw [List.filterMap_append, hstarts, List.append_nil]
    exact h.starts
  · by_cases he : id = a.id
    · subst he
      have hrun : Machine.run (CatForm.step cls.toClass) (.init, []) (ts ++ [t]) =
          ((CatForm.next a.cls.toClass t a.form).1,
            (Machine.run (CatForm.step cls.toClass) (.init, []) ts).2 ++ (CatForm.next a.cls.toClass t a.form).2.1) := by
        rw [Machine.run_append, Machine.run_cons, Machine.run_nil, CatForm.step, ← hform, hcls]
      refine ⟨cls, ts ++ [t], List.mem_append_left _ hl.started, ?_, ?_⟩
      · rw [eventsOf_append, eventsOf_append, eventsOf_map_form, hanswer, List.append_nil, hl.events, hrun]
      · rintro a' ⟨⟩ -
        exact ⟨hcls, by rw [hrun]⟩
    · obtain ⟨cls', ts', hl'⟩ := h.lives id hlt
      refine ⟨cls', ts', List.mem_append_left _ hl'.started, ?_, ?_⟩
      · have hnone : eventsOf id ((CatForm.next a.cls.toClass t a.form).2.1.map (Act.form a.id) ++ acts) = [] :=
          eventsOf_eq_nil fun act hact heq => he (Option.some.inj (heq.symm.trans (hid act hact)))
        rw [eventsOf_append, hnone, List.append_nil]
        exact hl'.events
      · rintro a' ⟨⟩ he'
        exact absurd he'.symm he
  · rcases List.mem_append.mp hm with hm | hm
    · exact h.opened id st hm
    · rcases List.mem_append.mp hm with hm | hm
      · obtain ⟨e, hem, hee⟩ := List.mem_map.mp hm
        obtain ⟨-, rfl⟩ := Act.form.inj hee
        have hcomplete : a.form.state ≠ .complete := hform ▸ (CatForm.run_inv cls.toClass ts).state
        rw [turn_of_next a.cls.toClass t hcomplete hem]
        exact hs
      · rcases hacts with rfl | ⟨name, output, rfl⟩
        · cases hm
        · cases List.mem_singleton.mp hm

/-- A closed form is taken away. -/
theorem Inv.remove {m : Memory N} {log : List (Act N)} (h : Inv m log) {a : FormInstance N}
    (ha : m.activeForm = some a) : Inv { m with activeForm := none } (log ++ [.removed a.id]) := by
  obtain ⟨hbound, hsorted⟩ := h.extend { m with activeForm := none } [.removed a.id] le_rfl (by
    intro act hact id hid
    rw [List.mem_singleton.mp hact] at hid
    rw [← Option.some.inj hid]
    exact h.latest a ha)
  refine ⟨?_, hbound, hsorted, ?_, fun id hlt => ?_, fun id st hm => ?_⟩
  · rintro a' ⟨⟩
  · rw [List.filterMap_append, h.starts]
    exact List.append_nil _
  · obtain ⟨cls, ts, hl⟩ := h.lives id hlt
    refine ⟨cls, ts, List.mem_append_left _ hl.started, ?_, ?_⟩
    · rw [eventsOf_append]
      exact (List.append_nil _).trans hl.events
    · rintro a' ⟨⟩
  · rcases List.mem_append.mp hm with hm | hm
    · exact h.opened id st hm
    · cases List.mem_singleton.mp hm

theorem Inv.formAgent {m : Memory N} {log : List (Act N)} (h : Inv m log) (t : CatForm.Turn N) :
    Inv (formAgent t m).1 (log ++ (formAgent t m).2.1) := by
  have hspec := formAgent_spec t m
  generalize Agents.formAgent t m = r at hspec
  cases hspec with
  | idle => simpa using h
  | removed a ha => exact h.remove ha
  | answered a ha hs => exact h.next ha hs t (.inr ⟨_, _, rfl⟩)
  | failed a ha hs =>
    have := h.next ha hs t (.inl rfl)
    rwa [List.append_nil] at this

/-! ## The procedures agent -/

section

variable (t : Turn N) (procedures : List Procedure) (proceduralMemories : List (Document N))

/-- What running the action that the LLM chose comes to. -/
inductive Chosen (t : Turn N) (allowedProcedures : Dict Str Procedure) (m : Memory N) :
    Memory N × List (Act N) × Option (AgentOutput N) → Prop
  | raises : Chosen t allowedProcedures m (m, [], none)
  | nothing : Chosen t allowedProcedures m (m, [], some .blank)
  | failed {name : Str} {tool : CatTool} (h : allowedProcedures.get? name = some (.tool tool)) (input : Json N) :
      Chosen t allowedProcedures m (m, [.ran tool input none], some .blank)
  | ran {name : Str} {tool : CatTool} (h : allowedProcedures.get? name = some (.tool tool)) (input : Json N)
      (toolOutput : Option Str) : Chosen t allowedProcedures m
        (m, [.ran tool input (some toolOutput)], some ⟨toolOutput, [⟨name, input, toolOutput⟩], tool.returnDirect⟩)
  | form {name : Str} {cls : FormClass} (h : allowedProcedures.get? name = some (.form cls))
      {r : Memory N × List (Act N) × AgentOutput N} (hr : formAgent t.chosenForm
        { m with activeForm := some ⟨m.forms, cls, .init⟩, forms := m.forms + 1 } = r) :
      Chosen t allowedProcedures m (r.1, .started m.forms cls :: r.2.1, some r.2.2)

theorem executeSubagents_spec [DecidableEq N] [Zero N] (llmAction : LLMAction N) (allowedProcedures : Dict Str Procedure)
    (m : Memory N) : Chosen t allowedProcedures m (executeSubagents t llmAction allowedProcedures m) := by
  unfold executeSubagents
  by_cases htruthy : MemoryPoints.truthy llmAction.action = true
  · rw [if_pos htruthy]
    cases llmAction.action with
    | arr | obj => exact .raises
    | null | bool | num => exact .nothing
    | str action =>
      dsimp only
      cases hget : allowedProcedures.get? action with
      | none => exact .nothing
      | some p =>
        cases p with
        | tool tool =>
          dsimp only
          cases t.runTool tool llmAction.actionInput with
          | none => exact .failed hget _
          | some toolOutput => exact .ran hget _ _
        | form cls => exact .form hget rfl
  · rw [if_neg htruthy]
    exact .nothing

/-- What asking the LLM and running its choice comes to. -/
inductive Asked (t : Turn N) (procedures : List Procedure) (proceduralMemories : List (Document N)) (m : Memory N) :
    Memory N × List (Act N) × Option (AgentOutput N) → Prop
  | raises : Asked t procedures proceduralMemories m (m, [], none)
  | unanswered (allowed : List Str) : Asked t procedures proceduralMemories m (m, [.asked allowed], none)
  | chosen {recalled names : List Str} (hrecalled : getRecalledProceduresNames proceduralMemories = some recalled)
      (hnames : t.agentAllowedTools recalled = some names) {r : Memory N × List (Act N) × Option (AgentOutput N)}
      (hr : Chosen t (prepareAllowedProcedures procedures names) m r) :
      Asked t procedures proceduralMemories m
        (r.1, .asked (prepareAllowedProcedures procedures names).keys :: r.2.1, r.2.2)

theorem executeProcedures_spec [DecidableEq N] [Zero N] (m : Memory N) :
    Asked t procedures proceduralMemories m (executeProcedures t procedures proceduralMemories m) := by
  unfold executeProcedures
  cases t.agentPromptInstructions with
  | none => exact .raises
  | some template =>
    cases hnames : (getRecalledProceduresNames proceduralMemories).bind t.agentAllowedTools with
    | none => exact .raises
    | some names =>
      obtain ⟨recalled, hrecalled, hnames⟩ := Option.bind_eq_some_iff.mp hnames
      dsimp only
      cases t.toolChain (promptVariables t.choice (prepareAllowedProcedures procedures names)) template with
      | none => exact .unanswered _
      | some reply => exact .chosen hrecalled hnames (executeSubagents_spec t _ _ m)

/-! ## The invariant, in all agents -/

variable {t procedures proceduralMemories} in
theorem Inv.chosen {m : Memory N} {log : List (Act N)} (h : Inv m log) {allowedProcedures : Dict Str Procedure}
    {r : Memory N × List (Act N) × Option (AgentOutput N)} (hr : Chosen t allowedProcedures m r) :
    Inv r.1 (log ++ r.2.1) := by
  cases hr with
  | raises | nothing => simpa using h
  | failed | ran => exact h.other rfl rfl (by simp [Act.formId])
  | @form name cls hget r hr =>
    have := (h.start cls).formAgent t.chosenForm
    rw [hr] at this
    simpa using this

variable {t procedures proceduralMemories} in
theorem Inv.asked {m : Memory N} {log : List (Act N)} (h : Inv m log)
    {r : Memory N × List (Act N) × Option (AgentOutput N)} (hr : Asked t procedures proceduralMemories m r) :
    Inv r.1 (log ++ r.2.1) := by
  cases hr with
  | raises => simpa using h
  | unanswered => exact h.other rfl rfl (by simp [Act.formId])
  | @chosen recalled names _ _ r hr =>
    have hasked : Inv m (log ++ [.asked (prepareAllowedProcedures procedures names).keys]) :=
      h.other rfl rfl (by simp [Act.formId])
    simpa using hasked.chosen hr

/-- The input of the agents may change. -/
theorem Inv.withInput {m : Memory N} {log : List (Act N)} (h : Inv m log) (agentInput : AgentInput) :
    Inv { m with agentInput := agentInput } log := by
  have : Inv { m with agentInput := agentInput } (log ++ []) := h.other rfl rfl (by simp)
  rwa [List.append_nil] at this

theorem Inv.proceduresAgent [DecidableEq N] [Zero N] {m : Memory N} {log : List (Act N)} (h : Inv m log) :
    Inv (proceduresAgent t procedures proceduralMemories m).1
      (log ++ (proceduresAgent t procedures proceduralMemories m).2.1) := by
  have hform := h.formAgent t.activeForm
  unfold Agents.proceduresAgent
  generalize Agents.formAgent t.activeForm m = f at hform
  obtain ⟨m', formActs, formOutput⟩ := f
  dsimp only at hform ⊢
  split
  · exact hform
  · split
    · exact hform
    · have hprocedures := hform.asked (executeProcedures_spec t procedures proceduralMemories m')
      generalize executeProcedures t procedures proceduralMemories m' = r at hprocedures
      obtain ⟨m'', acts, out⟩ := r
      rw [List.append_assoc] at hprocedures
      cases out with
      | none => exact hprocedures
      | some result =>
        dsimp only
        split
        · exact hprocedures
        · split
          · exact hprocedures
          · exact hprocedures.withInput _

theorem Inv.runAgents [DecidableEq N] [Zero N] {m : Memory N} {log : List (Act N)} (h : Inv m log) :
    Inv (runAgents t procedures proceduralMemories m).1 (log ++ (runAgents t procedures proceduralMemories m).2.1) := by
  unfold Agents.runAgents
  split
  · simpa using h
  · simpa using h
  · simpa using h
  · have hagent := h.proceduresAgent t procedures proceduralMemories
    generalize Agents.proceduresAgent t procedures proceduralMemories m = r at hagent
    obtain ⟨m', acts, out⟩ := r
    dsimp only at hagent ⊢
    split
    · exact hagent
    · split
      · exact hagent
      · exact hagent

theorem Inv.mainAgent [DecidableEq N] [Zero N] [One N] (p : Platform N) (clock : ℕ → p.Time) (memory : WorkingMemory N)
    {m : Memory N} {log : List (Act N)} (h : Inv m log) :
    Inv (mainAgent p clock t procedures proceduralMemories memory m).1
      (log ++ (mainAgent p clock t procedures proceduralMemories memory m).2.1) := by
  unfold Agents.mainAgent
  split
  · simpa using h
  · exact (h.withInput _).runAgents t procedures proceduralMemories

end

end

end KCore.Agents
