import KCore.Proof.Agents

/-!
# What the agents report

The steps that come with an answer are those that were executed, a tool runs at most once in a turn and only
where the plugins have it and the recall or a hook named it, the LLM is not asked while a form answers, and
the memory chain sees the steps that were executed (`agents_report`).
-/

namespace KCore.Agents

open Text MainAgent

variable {N : Type*}

/-- The step that an act is reported as. -/
def Act.step : Act N → Option (Step N)
  | answered _ name output => some ⟨name, .str [], some output⟩
  | ran tool input (some output) => some ⟨tool.name, input, output⟩
  | ran _ _ none | started .. | form .. | removed _ | asked _ => none

def Act.isRan : Act N → Bool
  | ran .. => true
  | answered .. | started .. | form .. | removed _ | asked _ => false

/-- The procedure that an act begins. -/
def Act.procedure : Act N → Option Procedure
  | ran tool .. => some (.tool tool)
  | started _ cls => some (.form cls)
  | answered .. | form .. | removed _ | asked _ => none

def Act.isAsked : Act N → Bool
  | asked _ => true
  | answered .. | started .. | form .. | removed _ | ran .. => false

/-- The plugins have the procedure, and it was recalled, or a hook named it. -/
def Allowed (t : Turn N) (procedures : List Procedure) (proceduralMemories : List (Document N)) (p : Procedure) : Prop :=
  p ∈ procedures ∧ ∃ recalled names, getRecalledProceduresNames proceduralMemories = some recalled ∧
    t.agentAllowedTools recalled = some names ∧ p.name ∈ names

/-- The acts against what was to be run; `out` is nothing where it raised. -/
structure Executed (ok : Procedure → Prop) (m : Memory N) (r : Memory N × List (Act N) × Option (AgentOutput N)) :
    Prop where
  steps : (r.2.2.getD .empty).intermediateSteps = r.2.1.filterMap Act.step
  once : r.2.1.countP Act.isRan ≤ 1
  ok : ∀ act ∈ r.2.1, ∀ p ∈ act.procedure, ok p
  input : r.1.agentInput = m.agentInput

theorem get?_prepareAllowedProcedures {procedures : List Procedure} {names : List Str} {name : Str} {p : Procedure}
    (h : (prepareAllowedProcedures procedures names).get? name = some p) :
    p ∈ procedures ∧ p.name ∈ names ∧ p.name = name := by
  obtain ⟨i, hi, hname, rfl⟩ := Dict.get?_collect (k := Procedure.name) (v := id) h
  obtain ⟨hmem, hin⟩ := List.mem_filter.mp hi
  exact ⟨hmem, of_decide_eq_true hin, hname⟩

theorem formSteps_eq_nil (id : Nat) (es : List (CatForm.Event N)) : (es.map (Act.form id)).filterMap Act.step = [] :=
  List.filterMap_eq_nil_iff.mpr fun act hact => by
    obtain ⟨e, -, rfl⟩ := List.mem_map.mp hact
    rfl

section

variable [Numeral N]

/-- The form agent runs nothing and asks nothing. -/
theorem formAgent_quiet (t : CatForm.Turn N) (m : Memory N) :
    ∀ act ∈ (formAgent t m).2.1, act.isRan = false ∧ act.isAsked = false ∧ act.procedure = none := by
  have hspec := formAgent_spec t m
  generalize formAgent t m = r at hspec
  cases hspec with
  | idle => simp
  | removed => simp [Act.isRan, Act.isAsked, Act.procedure]
  | failed => simp [Act.isRan, Act.isAsked, Act.procedure]
  | answered =>
    intro act hact
    rcases List.mem_append.mp hact with hact | hact
    · obtain ⟨e, -, rfl⟩ := List.mem_map.mp hact
      exact ⟨rfl, rfl, rfl⟩
    · rw [List.mem_singleton.mp hact]
      exact ⟨rfl, rfl, rfl⟩

theorem formAgent_executed (t : CatForm.Turn N) (m : Memory N) (ok : Procedure → Prop) :
    Executed ok m ((formAgent t m).1, (formAgent t m).2.1, some (formAgent t m).2.2) := by
  have hquiet := formAgent_quiet t m
  have hcount : (formAgent t m).2.1.countP Act.isRan = 0 :=
    List.countP_eq_zero.mpr fun act hact => by simp [(hquiet act hact).1]
  refine ⟨?_, hcount.trans_le (Nat.zero_le 1), fun act hact p hp => ?_, ?_⟩
  · have hspec := formAgent_spec t m
    generalize formAgent t m = r at hspec
    cases hspec with
    | idle | removed => rfl
    | answered =>
      rw [List.filterMap_append, formSteps_eq_nil]
      rfl
    | failed => exact (formSteps_eq_nil _ _).symm
  · rw [(hquiet act hact).2.2] at hp
    cases hp
  · have hspec := formAgent_spec t m
    generalize formAgent t m = r at hspec
    cases hspec with
    | idle | removed | answered | failed => rfl

variable {t : Turn N} {procedures : List Procedure} {proceduralMemories : List (Document N)} {m : Memory N}

theorem Chosen.executed {names : List Str} {r : Memory N × List (Act N) × Option (AgentOutput N)}
    (h : Chosen t (prepareAllowedProcedures procedures names) m r) :
    Executed (fun p => p ∈ procedures ∧ p.name ∈ names) m r := by
  cases h with
  | raises | nothing => exact ⟨rfl, Nat.zero_le 1, by simp, rfl⟩
  | failed hget input =>
    obtain ⟨hmem, hin, -⟩ := get?_prepareAllowedProcedures hget
    refine ⟨rfl, le_rfl, ?_, rfl⟩
    simp only [List.mem_singleton, forall_eq, Act.procedure, Option.mem_some_iff, forall_eq']
    exact ⟨hmem, hin⟩
  | ran hget input toolOutput =>
    obtain ⟨hmem, hin, rfl⟩ := get?_prepareAllowedProcedures hget
    refine ⟨rfl, le_rfl, ?_, rfl⟩
    simp only [List.mem_singleton, forall_eq, Act.procedure, Option.mem_some_iff, forall_eq']
    exact ⟨hmem, hin⟩
  | @form name cls hget r hr =>
    obtain ⟨hmem, hin, -⟩ := get?_prepareAllowedProcedures hget
    have hform := formAgent_executed t.chosenForm
      { m with activeForm := some ⟨m.forms, cls, .init⟩, forms := m.forms + 1 } fun p => p ∈ procedures ∧ p.name ∈ names
    rw [hr] at hform
    refine ⟨hform.steps, hform.once, ?_, hform.input⟩
    rintro act (_ | ⟨_, hact⟩) p hp
    · cases hp
      exact ⟨hmem, hin⟩
    · exact hform.ok act hact p hp

theorem Asked.executed {r : Memory N × List (Act N) × Option (AgentOutput N)}
    (h : Asked t procedures proceduralMemories m r) : Executed (Allowed t procedures proceduralMemories) m r := by
  cases h with
  | raises => exact ⟨rfl, Nat.zero_le 1, by simp, rfl⟩
  | unanswered => exact ⟨rfl, Nat.zero_le 1, by simp [Act.procedure], rfl⟩
  | @chosen recalled names hrecalled hnames r hr =>
    obtain ⟨hsteps, honce, hok, hinput⟩ := hr.executed
    refine ⟨hsteps, honce, ?_, hinput⟩
    rintro act (_ | ⟨_, hact⟩) p hp
    · cases hp
    · obtain ⟨hmem, hin⟩ := hok act hact p hp
      exact ⟨hmem, recalled, names, hrecalled, hnames, hin⟩

/-! ## The procedures agent -/

/-- What a turn of the agents may do: a tool at most, of those that the plugins have and the recall or its hook named, and
no question to the LLM where the active form answers. -/
structure Proper (t : Turn N) (procedures : List Procedure) (proceduralMemories : List (Document N)) (m : Memory N)
    (acts : List (Act N)) : Prop where
  once : acts.countP Act.isRan ≤ 1
  allowed : ∀ act ∈ acts, ∀ p ∈ act.procedure, Allowed t procedures proceduralMemories p
  asked : ∀ act ∈ acts, act.isAsked = true → ∀ a, m.activeForm = some a → a.form.state ≠ .closed →
    (CatForm.next a.cls.toClass t.activeForm a.form).2.2 = none

/-- What the memory chain gets: the tools' output where a step was executed. -/
def chainInput (agentInput : AgentInput) (steps : List (Step N)) : AgentInput :=
  if steps = [] then agentInput else { agentInput with toolsOutput := toolsOutput steps }

/-- Where the form agent leaves the answer to others, no form answered. -/
theorem formAgent_passes {t : CatForm.Turn N} {m : Memory N} (h : (formAgent t m).2.2.returnDirect = false) :
    (formAgent t m).2.1.filterMap Act.step = [] ∧ ∀ a, m.activeForm = some a → a.form.state ≠ .closed →
      (CatForm.next a.cls.toClass t a.form).2.2 = none := by
  have hspec := formAgent_spec t m
  generalize formAgent t m = r at h hspec
  cases hspec with
  | idle hnone => exact ⟨rfl, fun a ha => by rw [hnone] at ha; cases ha⟩
  | removed a ha hs =>
    refine ⟨rfl, fun a' ha' hs' => ?_⟩
    rw [ha] at ha'
    cases ha'
    exact absurd hs hs'
  | answered => cases h
  | failed a ha hs hn =>
    refine ⟨formSteps_eq_nil _ _, fun a' ha' _ => ?_⟩
    rw [ha] at ha'
    cases ha'
    exact hn

/-- The active form answers. -/
theorem proper_of_form {f : Memory N × List (Act N) × AgentOutput N} (hf : formAgent t.activeForm m = f) :
    Proper t procedures proceduralMemories m f.2.1 ∧ f.2.2.intermediateSteps = f.2.1.filterMap Act.step := by
  subst hf
  have hquiet := formAgent_quiet t.activeForm m
  obtain ⟨hsteps, honce, -, -⟩ := formAgent_executed t.activeForm m fun _ => True
  refine ⟨⟨honce, fun act hact p hp => ?_, fun act hact ha => ?_⟩, hsteps⟩
  · rw [(hquiet act hact).2.2] at hp
    cases hp
  · rw [(hquiet act hact).2.1] at ha
    cases ha

/-- No form answers, and the LLM is asked. -/
theorem proper_of_asked {f : Memory N × List (Act N) × AgentOutput N} (hf : formAgent t.activeForm m = f)
    (hdirect : f.2.2.returnDirect = false) {r : Memory N × List (Act N) × Option (AgentOutput N)}
    (hr : Asked t procedures proceduralMemories f.1 r) :
    Proper t procedures proceduralMemories m (f.2.1 ++ r.2.1) ∧
      (r.2.2.getD .empty).intermediateSteps = (f.2.1 ++ r.2.1).filterMap Act.step := by
  subst hf
  have hquiet := formAgent_quiet t.activeForm m
  obtain ⟨hsteps, hopen⟩ := formAgent_passes hdirect
  obtain ⟨hsteps', honce, hok, -⟩ := hr.executed
  have hcount : (formAgent t.activeForm m).2.1.countP Act.isRan = 0 :=
    List.countP_eq_zero.mpr fun act hact => by simp [(hquiet act hact).1]
  refine ⟨⟨?_, fun act hact p hp => ?_, fun act hact _ => hopen⟩, ?_⟩
  · rw [List.countP_append, hcount, Nat.zero_add]
    exact honce
  · rcases List.mem_append.mp hact with hact | hact
    · rw [(hquiet act hact).2.2] at hp
      cases hp
    · exact hok act hact p hp
  · rw [List.filterMap_append, hsteps, List.nil_append, hsteps']

theorem proceduresAgent_proper [DecidableEq N] [Zero N] (t : Turn N) (procedures : List Procedure)
    (proceduralMemories : List (Document N)) (m : Memory N) {r : Memory N × List (Act N) × AgentOutput N}
    (hr : proceduresAgent t procedures proceduralMemories m = r) :
    (Proper t procedures proceduralMemories m r.2.1 ∧ r.2.2.intermediateSteps = r.2.1.filterMap Act.step) ∧
      (r.2.2.returnDirect = false → r.1.agentInput = chainInput m.agentInput r.2.2.intermediateSteps) := by
  subst hr
  unfold proceduresAgent
  have hinput := (formAgent_executed t.activeForm m fun _ => True).input
  rcases hf : formAgent t.activeForm m with ⟨m', formActs, formOutput⟩
  rw [hf] at hinput
  dsimp only at hinput ⊢
  split
  · rename_i hdirect
    exact ⟨proper_of_form hf, fun h => absurd (hdirect.symm.trans h) (by decide)⟩
  · rename_i hdirect
    have hdirect : formOutput.returnDirect = false := by simpa using hdirect
    split
    · have hquiet := proper_of_asked hf hdirect (Asked.raises : Asked t procedures proceduralMemories m' _)
      rw [List.append_nil] at hquiet
      exact ⟨hquiet, fun _ => hinput⟩
    · have hspec := executeProcedures_spec t procedures proceduralMemories m'
      have hasked := proper_of_asked hf hdirect hspec
      have hinput' := hspec.executed.input
      generalize executeProcedures t procedures proceduralMemories m' = r at hasked hinput'
      obtain ⟨m'', acts, out⟩ := r
      dsimp only at hasked hinput'
      cases out with
      | none => exact ⟨hasked, fun _ => hinput'.trans hinput⟩
      | some result =>
        dsimp only
        split
        · rename_i hdirect'
          exact ⟨hasked, fun h => absurd (hdirect'.symm.trans h) (by decide)⟩
        · split
          · rename_i hnil
            exact ⟨hasked, fun _ => by rw [chainInput, if_pos hnil, hinput', hinput]⟩
          · rename_i hne
            exact ⟨hasked, fun _ => by rw [chainInput, if_neg hne, hinput', hinput]⟩

/-! ## The agents -/

theorem Proper.nil : Proper t procedures proceduralMemories m [] := ⟨Nat.zero_le 1, by simp, by simp⟩

/-- In every turn, also in one that raises: at most one tool runs; a tool that runs and a form that starts are among the
plugins' procedures, under a name that the recall or its hook gave; and the LLM is asked to choose only where the active
form does not answer. An answer that is not the plugins' own comes with the steps that were executed, in order; and where
it is not direct, it is what the memory chain makes of an input that shows these steps. -/
theorem agents_report [DecidableEq N] [Zero N] (t : Turn N) (procedures : List Procedure)
    (proceduralMemories : List (Document N)) (m : Memory N) :
    let r := runAgents t procedures proceduralMemories m
    Proper t procedures proceduralMemories m r.2.1 ∧ ∀ output, r.2.2 = .ok output →
      t.agentFastReply = .ok (some output) ∧ r.2.1 = [] ∨
      output.intermediateSteps = r.2.1.filterMap Act.step ∧
      (output.returnDirect = false → ∃ prompt text, t.agentPrompt = .ok prompt ∧ output.output = some text ∧
        t.memoryChain prompt (chainInput m.agentInput output.intermediateSteps) = .ok text) := by
  dsimp only
  generalize hr : runAgents t procedures proceduralMemories m = r
  unfold runAgents at hr
  split at hr
  · subst hr
    exact ⟨.nil, by rintro output ⟨⟩⟩
  · subst hr
    exact ⟨.nil, by rintro output ⟨⟩⟩
  · rename_i output hfast
    subst hr
    refine ⟨.nil, ?_⟩
    rintro output ⟨⟩
    exact .inl ⟨hfast, rfl⟩
  · rename_i prompt hfast hprompt
    rcases hagent : proceduresAgent t procedures proceduralMemories m with ⟨m', acts, proceduresOut⟩
    obtain ⟨⟨hproper, hsteps⟩, hinput⟩ := proceduresAgent_proper t procedures proceduralMemories m hagent
    rw [hagent] at hr
    dsimp only at hr hproper hsteps hinput
    split at hr
    · rename_i hdirect
      subst hr
      refine ⟨hproper, ?_⟩
      rintro output ⟨⟩
      exact .inr ⟨hsteps, fun hd => absurd (hdirect.symm.trans hd) (by decide)⟩
    · rename_i hdirect
      rw [hinput (by simpa using hdirect)] at hr
      split at hr
      · subst hr
        exact ⟨hproper, by rintro output ⟨⟩⟩
      · rename_i text hchain
        subst hr
        refine ⟨hproper, ?_⟩
        rintro output ⟨⟩
        exact .inr ⟨hsteps, fun _ => ⟨prompt, text, hprompt, rfl, hchain⟩⟩

end

end KCore.Agents
