import KCore.Lib.Run
import KCore.Impl.StrayCat
import KCore.Proof.Agents
import Mathlib.Algebra.GroupWithZero.Nat

/-!
# Forms over the messages of a user

A message is run on the cached working memory, which is saved where the call does not raise. With the in-memory
cache the cached object changes all the same, so that no turn of a form is lost; with the file-system cache it
is lost where a call raises after it (`Kept`). In every run in which none is lost the forms come one after the
other, and each submits at most once (`forms_run_ok`). A message whose call raises in the file-system cache does
the same again when it is sent again (`run_again`).
-/

namespace KCore.StrayCat

open Text MainAgent Agents

variable {N : Type*} [Zero N] [One N] [DecidableEq N] [Numeral N] {p : Platform N} {b : Session.Backend}

/-! ## A call -/

/-- What a call comes to; `r` is what comes of the agents. -/
inductive Called (t : Turn p) (w : World N) : World N × List (Act N) × Outcome N → Prop
  | early (e : Raised) : Called t w (w, [], .raised none e)
  | fast (m : CatMessage N) : Called t w (w, [], .fast m)
  | recallError (user : UserMessage) : Called t w (w.remember (.human user), [], .recallError user)
  | raised (user : UserMessage) (e : Raised) {recalled : List (Document N)} {memory : MainAgent.WorkingMemory N}
      {r : Memory N × List (Act N) × Except Raised (AgentOutput N)}
      (hr : mainAgent p t.clock t.toTurn t.procedures recalled memory w.cat.memory = r) {docs : List (Document N)}
      (hd : docs.length ≤ 1) :
      Called t w (⟨⟨w.cat.history.updateHistory (.human user), r.1⟩, w.episodic ++ docs⟩, r.2.1, .raised (some user) e)
  | answered (user : UserMessage) (m : CatMessage N) {recalled : List (Document N)} {memory : MainAgent.WorkingMemory N}
      {r : Memory N × List (Act N) × Except Raised (AgentOutput N)}
      (hr : mainAgent p t.clock t.toTurn t.procedures recalled memory w.cat.memory = r) (doc : Document N) :
      Called t w (⟨⟨(w.cat.history.updateHistory (.human user)).updateHistory (.cat m), r.1⟩, w.episodic ++ [doc]⟩,
        r.2.1, .answered user m)

omit [Numeral N] in
theorem storeUserMessage_eq {t : Turn p} {text : Option Str} {w w' : World N} (h : storeUserMessage t text w = .ok w') :
    ∃ doc, w' = { w with episodic := w.episodic ++ [doc] } := by
  unfold storeUserMessage at h
  split at h
  · cases h
  · split at h
    · cases h
    · cases h
    · rename_i doc _ _
      cases h
      exact ⟨doc, rfl⟩

theorem call_spec (t : Turn p) (w : World N) : Called t w (call t w) := by
  unfold call
  split
  · exact .early _
  · exact .early _
  · exact .fast _
  · split
    · exact .early _
    · rename_i user _
      unfold converse
      split
      · exact .recallError user
      · rename_i recalled _
        rcases hr : mainAgent p t.clock t.toTurn t.procedures recalled.procedural _ _ with ⟨memory, acts, output⟩
        have hraised (e : Raised) {docs : List (Document N)} (hd : docs.length ≤ 1) :=
          Called.raised (t := t) (w := w) user e hr hd
        have hnone (e : Raised) := hraised e (show List.length [] ≤ 1 from Nat.zero_le 1)
        rw [List.append_nil] at hnone
        dsimp only
        split
        · exact hnone _
        · rename_i output _
          unfold answer
          split
          · exact hnone _
          · rename_i w' hstore
            obtain ⟨doc, rfl⟩ := storeUserMessage_eq hstore
            split
            · exact hraised _ (le_rfl : [doc].length ≤ 1)
            · exact Called.answered (t := t) (w := w) user _ hr doc

/-- What a call does to the forms. -/
theorem call_inv (t : Turn p) {w : World N} {log : List (Act N)} (h : Inv w.cat.memory log) :
    Inv (call t w).1.cat.memory (log ++ (call t w).2.1) := by
  have hspec := call_spec t w
  generalize call t w = r at hspec
  have hnil : Inv w.cat.memory (log ++ []) := by rwa [List.append_nil]
  cases hspec with
  | early | fast | recallError => exact hnil
  | raised user e hr =>
    subst hr
    exact h.mainAgent _ _ _ p t.clock _
  | answered user m hr =>
    subst hr
    exact h.mainAgent _ _ _ p t.clock _

/-! ## Runs -/

/-- What the agents did. -/
def Entry.acts : Entry N → List (Act N)
  | message _ acts _ _ => acts
  | wiped => []

def State.acts (s : State N) : List (Act N) := s.log.flatMap Entry.acts

/-- No turn of the active form is lost: the cached object changes, the call does not raise, the agents did nothing in it,
or no form was active before. -/
def Kept (b : Session.Backend) (s : State N) : Event p → Prop
  | .message t _ => b = .inMemory ∨ (call t s.load).2.2.returns = true ∨ (call t s.load).2.1 = [] ∨
    s.load.cat.memory.activeForm = none
  | .wipe => True

/-- What the next message finds of the forms: what the call left of them, no active form, or that of before the call. -/
theorem run_memory (b : Session.Backend) (s : State N) (t : Turn p) (c : Channel) :
    (run b s t c).load.cat.memory = (call t s.load).1.cat.memory ∨
    (run b s t c).load.cat.memory.activeForm = none ∨
    (b = .fileSystem ∧ (call t s.load).2.2.returns = false ∧
      (run b s t c).load.cat.memory.activeForm = s.load.cat.memory.activeForm) := by
  unfold run
  rcases call t s.load with ⟨w, acts, outcome⟩
  dsimp only
  cases hr : outcome.returns with
  | true => exact .inl rfl
  | false =>
    cases b with
    | fileSystem => exact .inr (.inr ⟨rfl, rfl, rfl⟩)
    | inMemory =>
      cases hc : s.cache with
      | none => exact .inr (.inl rfl)
      | some cat => exact .inl rfl

theorem step_inv (s : State N) (e : Event p) (h : Inv s.load.cat.memory s.acts) (hk : Kept b s e) :
    Inv (step b s e).load.cat.memory (step b s e).acts := by
  cases e with
  | wipe =>
    have hacts : (wipe s).acts = s.acts := by simp [wipe, State.acts, Entry.acts]
    exact hacts.symm ▸ h
  | message t c =>
    have hcall := call_inv t h
    have hforms : (run b s t c).load.cat.memory.forms = (call t s.load).1.cat.memory.forms := rfl
    have hacts : (step b s (.message t c)).acts = s.acts ++ (call t s.load).2.1 := by
      simp [step, run, State.acts, Entry.acts]
    rw [hacts]
    rcases run_memory b s t c with hm | hm | ⟨hb, hr, hm⟩
    · exact hm.symm ▸ hcall
    · exact hcall.dropped hm hforms
    · rcases hk with hk | hk | hk | hk
      · rw [hb] at hk
        cases hk
      · rw [hr] at hk
        cases hk
      · -- the agents did nothing, and so started no form
        have hsame : (call t s.load).1.cat.memory.forms = s.load.cat.memory.forms := by
          have := hcall.starts
          rw [hk, List.append_nil, h.starts] at this
          simpa using (congrArg List.length this).symm
        exact h.other hm (hforms.trans hsame) (by simp [hk])
      · exact hcall.dropped (hm.trans hk) hforms

/-- In every run of messages and wipes in which no turn of an active form is lost: the forms come one after the other, and
never go on after another has begun; each goes through a run of turns of its class, none of which finds it closed; and
each submits at most once. -/
theorem forms_run_ok (b : Session.Backend) (es : List (Event p))
    (h : Machine.Along (step b) (Kept b) (State.init : State N) es) :
    let s := Machine.run (step b) (State.init : State N) es
    (s.acts.filterMap Act.formId).Pairwise (· ≤ ·) ∧
    s.acts.filterMap Act.starts = List.range s.forms ∧
    (∀ id < s.forms, ∃ cls ts, .started id cls ∈ s.acts ∧
      eventsOf id s.acts = (Machine.run (CatForm.step cls.toClass) (.init, []) ts).2) ∧
    (∀ id st, .form id (.turn st) ∈ s.acts → st ≠ .closed) ∧
    ∀ id < s.forms, (eventsOf id s.acts).countP CatForm.Event.isSubmitted ≤ 1 := by
  have hinv := Machine.run_invariant (I := fun s => Inv s.load.cat.memory s.acts) step_inv
    (Inv.init (m := (State.init : State N).load.cat.memory) rfl rfl) h
  refine ⟨hinv.sorted, hinv.starts, fun id hid => ?_, hinv.opened, fun id hid => ?_⟩
  · obtain ⟨cls, ts, hl⟩ := hinv.lives id hid
    exact ⟨cls, ts, hl.started, hl.events⟩
  · obtain ⟨cls, ts, hl⟩ := hinv.lives id hid
    rw [hl.events]
    exact (CatForm.run_inv cls.toClass ts).once

/-! ### A form that asks -/

/-- A document is a text and an object; all numbers are times. -/
def plainTimes : Platform Nat where
  isTime _ := True
  exists_time := ⟨0, trivial⟩
  timedelta now t := some ⟨0, now - t⟩
  timedelta_time _ _ := rfl
  str _ := []
  pageContent
    | .str s => some s
    | _ => none
  metadata
    | .obj es => some es
    | _ => none
  pageContent_str _ := rfl
  metadata_obj _ := rfl

def booking : FormClass := ⟨⟨"book".toList, true⟩, [], []⟩

/-- All data is valid, and the user confirms. -/
def agreeing : CatForm.Turn Nat where
  confirm := some "true".toList
  exitConfirm := none
  exit := some "false".toList
  extraction := some "\x7b\x7d".toList
  parse _ := some (.obj [])
  validate _ := .valid
  submit := some "Booked".toList

/-- The LLM chooses the form where none is active. -/
def chooses (storeError : Option Raised) : Turn plainTimes where
  formatError := ⟨[], []⟩
  beforeAgentStarts := .ok
  agentFastReply := .ok none
  agentPrompt := .ok []
  agentPromptInstructions := some []
  agentAllowedTools := some
  choice _ := []
  toolChain _ _ := some "\x7b\x7d".toList
  parse _ := some (.obj [("action".toList, .str "book".toList)])
  runTool _ _ := none
  memoryChain _ _ := .ok []
  activeForm := agreeing
  chosenForm := agreeing
  userMessage := .ok ⟨some "A table, please".toList⟩
  fastReply := .ok none
  beforeCatReadsMessage := .ok
  recallRelevantMemories _ := some ⟨[], [], [⟨"book".toList, [("type".toList, .str "form".toList),
    ("trigger_type".toList, .str "description".toList), ("source".toList, .str "book".toList)]⟩]⟩
  clock _ := ⟨0, trivial⟩
  procedures := [.form booking]
  userId := "ada".toList
  now := 0
  beforeCatStoresEpisodicMemory := .ok
  documentError := ⟨[], []⟩
  storeError := storeError
  beforeCatSendsMessage := .ok

/-- The form is started, and confirmed in the next turn. -/
def bookOnce : List (Event plainTimes) := [.message (chooses none) .http, .message (chooses none) .http, .wipe]

theorem forms_run_ok_bookOnce :
    (eventsOf 0 (Machine.run (step .fileSystem) State.init bookOnce).acts).countP CatForm.Event.isSubmitted ≤ 1 :=
  (forms_run_ok .fileSystem bookOnce
    ⟨.inr (.inl (by decide)), .inr (.inl (by decide)), trivial, trivial⟩).2.2.2.2 0 (by decide)

/-! ## A message that is sent again -/

/-- What the agents do, and how the call ends, does not depend on the episodic memories. -/
theorem call_congr (t : Turn p) (w : World N) (docs : List (Document N)) :
    (call t { w with episodic := docs }).2 = (call t w).2 := by
  unfold call
  cases t.userMessage with
  | error => rfl
  | ok user =>
    cases t.fastReply with
    | error => rfl
    | ok fastReply =>
      cases fastReply with
      | some => rfl
      | none =>
        dsimp only
        cases t.beforeCatReadsMessage user with
        | error => rfl
        | ok user =>
          dsimp only [World.remember]
          unfold converse
          cases t.recallRelevantMemories user.text with
          | none => rfl
          | some recalled =>
            dsimp only
            generalize mainAgent p t.clock t.toTurn t.procedures recalled.procedural _ _ = r
            obtain ⟨memory, acts, output⟩ := r
            dsimp only
            cases recovered output with
            | error => rfl
            | ok output =>
              dsimp only
              unfold answer storeUserMessage
              cases user.text with
              | none => rfl
              | some text =>
                dsimp only
                cases t.beforeCatStoresEpisodicMemory _ with
                | error => rfl
                | ok doc =>
                  cases t.storeError with
                  | some => rfl
                  | none =>
                    dsimp only
                    cases t.beforeCatSendsMessage _ with
                    | error => rfl
                    | ok => rfl

/-- With the file-system cache, a message whose call raises and starts no form does the same again when it is sent again:
what was submitted in it is submitted twice. -/
theorem submitted_again (s : State N) (t : Turn p) (c c' : Channel) (id : Nat) (d : Dict Str (Json N))
    (hraised : (call t s.load).2.2.returns = false) (hforms : (call t s.load).1.cat.memory.forms = s.forms)
    (hsubmitted : .form id (.submitted d) ∈ (call t s.load).2.1) :
    2 ≤ (eventsOf id (run .fileSystem (run .fileSystem s t c) t c').acts).countP CatForm.Event.isSubmitted := by
  have hload : (run .fileSystem s t c).load = { s.load with episodic := (call t s.load).1.episodic } := by
    rw [State.load, run]
    dsimp only
    rw [hraised, hforms]
    rfl
  have hacts (s : State N) (c : Channel) : (run .fileSystem s t c).acts = s.acts ++ (call t s.load).2.1 := by
    simp [run, State.acts, Entry.acts]
  have honce : 1 ≤ (eventsOf id (call t s.load).2.1).countP CatForm.Event.isSubmitted :=
    List.countP_pos_iff.mpr ⟨_, List.mem_filterMap.mpr ⟨_, hsubmitted, if_pos rfl⟩, rfl⟩
  rw [hacts, hload, call_congr, hacts, eventsOf_append, eventsOf_append, List.countP_append, List.countP_append]
  omega

/-- The form is confirmed in a message that cannot be stored, twice. -/
theorem submitted_again_book : 2 ≤ (eventsOf 0 (run .fileSystem (run .fileSystem
      (run .fileSystem State.init (chooses none) .http) (chooses (some ⟨[], []⟩)) .http)
      (chooses (some ⟨[], []⟩)) .http).acts).countP CatForm.Event.isSubmitted :=
  submitted_again _ _ .http .http 0 .empty (by decide) (by decide) (.tail _ (.tail _ (.head _)))

end KCore.StrayCat
