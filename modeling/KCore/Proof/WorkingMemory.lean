import KCore.Lib.MapM
import KCore.Lib.Run
import KCore.Proof.Session
import KCore.Impl.WorkingMemory

/-!
# The last messages of a conversation

The history of a working memory is the last of the messages it was given just as
long as `update_conversation_history` finds it with room for one more, and a
reader renders the last `latest_n` of it just when it is not asked for none
(`working_memory_iff`).
-/

namespace KCore.Convo

open Text

/-! ## Slices -/

theorem sliceFrom_neg_zero {M : Type*} (l : List M) : sliceFrom (-((0 : Nat) : Int)) l = l := by
  simp [sliceFrom]

/-- A negative index counts from the end. -/
theorem sliceFrom_neg {M : Type*} {n : Nat} (hn : n ≠ 0) (l : List M) : sliceFrom (-(n : Int)) l = l.rtake n := by
  have h : -(n : Int) < 0 := by omega
  have hl : ((l.length : Int) + -(n : Int)).toNat = l.length - n := by omega
  rw [sliceFrom, if_pos h, hl, List.rtake]

theorem length_rtake {M : Type*} (l : List M) (n : Nat) : (l.rtake n).length = min n l.length := by
  rw [List.rtake, List.length_drop]
  omega

/-- Appending to the last `n` gives the last `n` again where there were fewer. -/
theorem rtake_concat_iff {M : Type*} (l : List M) (m : M) (n : Nat) :
    l.rtake n ++ [m] = (l ++ [m]).rtake n ↔ (l.rtake n).length < n := by
  rw [length_rtake]
  constructor
  · intro h
    have hl := congrArg List.length h
    rw [List.length_append, length_rtake, length_rtake, List.length_append, List.length_singleton] at hl
    omega
  · intro h
    have hl : l.length - n = 0 := by omega
    have hl' : (l ++ [m]).length - n = 0 := by
      rw [List.length_append, List.length_singleton]
      omega
    rw [List.rtake, List.rtake, hl, hl', List.drop_zero, List.drop_zero]

/-! ## Calls -/

/-- A call on the working memory; a turn sets `user_message_json` before. -/
inductive Call (W : Type*)
  | userMessage (message : Option ConversationMessage)
  | updateHistory (message : ConversationMessage)
  | updateConversationHistory (message who : Str) (why : W)
  | stringifyChatHistory (latestN : Nat)
  | langchainfyChatHistory (latestN : Nat)

/-- The working memory, and the messages it was given. -/
structure State where
  memory : WorkingMemory
  messages : List ConversationMessage

/-- `WorkingMemory()`. -/
def State.new : State := ⟨⟨.new, none⟩, []⟩

variable {W : Type*} (takesWhy : W → Bool) (download : Str → Option (Option Str))

/-- A call that raises leaves the working memory as it is. -/
def step (s : State) : Call W → State
  | .userMessage message => { s with memory := { s.memory with userMessageJson := message } }
  | .updateHistory message => ⟨s.memory.updateHistory message, s.messages ++ [message]⟩
  | .updateConversationHistory message who why =>
    ⟨(s.memory.updateConversationHistory takesWhy message who why).getD s.memory,
      s.messages ++ (s.memory.conversationMessage takesWhy message who why).toList⟩
  | .stringifyChatHistory _ | .langchainfyChatHistory _ => s

/-- The history is the last messages. -/
def Bounded (s : State) : Prop := s.memory.history = s.messages.rtake Session.maxWorkingHistoryLength

/-- A reader gives the last `latestN` messages of the history, each rendered. -/
def Renders (s : State) : Call W → Prop
  | .stringifyChatHistory latestN =>
    s.memory.stringifyChatHistory latestN = (s.memory.history.rtake latestN).flatMap ConversationMessage.line
  | .langchainfyChatHistory latestN => ∃ messages,
    s.memory.langchainfyChatHistory download latestN = some messages ∧
    (s.memory.history.rtake latestN).mapM (ConversationMessage.langchainfy download) = some messages
  | _ => True

/-- `update_conversation_history` finds room for the message, or raises. -/
def Room (s : State) : Call W → Prop
  | .updateConversationHistory _ who why => s.memory.userMessageJson = none ∨
    (who = "AI".toList ∧ takesWhy why = false) ∨ s.memory.history.length < Session.maxWorkingHistoryLength
  | _ => True

/-- A message of the cat has a text; the image of a user is not at a URL whose download raises. -/
def Renderable (m : ConversationMessage) : Prop :=
  match m.role with
  | some .ai => m.text ≠ none
  | some .human => ∀ image ∈ m.image, "http".toList <+: image → download image ≠ none
  | none => False

/-- A reader is not asked for none of some messages; langchain's can be made of each. -/
def Readable (s : State) : Call W → Prop
  | .stringifyChatHistory latestN => latestN = 0 → s.memory.history = []
  | .langchainfyChatHistory latestN => (latestN = 0 → s.memory.history = []) ∧
    ∀ m ∈ s.memory.history.rtake latestN, Renderable download m
  | _ => True

/-! ## The bound -/

theorem history_updateConversationHistory (wm : WorkingMemory) (message who : Str) (why : W) :
    ((wm.updateConversationHistory takesWhy message who why).getD wm).history =
      wm.history ++ (wm.conversationMessage takesWhy message who why).toList := by
  rw [WorkingMemory.updateConversationHistory]
  cases wm.conversationMessage takesWhy message who why with
  | none => simp
  | some content => rfl

theorem conversationMessage_eq_none (wm : WorkingMemory) (message who : Str) (why : W) :
    wm.conversationMessage takesWhy message who why = none ↔
      wm.userMessageJson = none ∨ (who = "AI".toList ∧ takesWhy why = false) := by
  cases hu : wm.userMessageJson with
  | none => simp [WorkingMemory.conversationMessage, hu]
  | some user => by_cases hw : who = "AI".toList <;> simp [WorkingMemory.conversationMessage, hu, hw]

theorem bounded_step {s : State} (h : Bounded s) (c : Call W) : Bounded (step takesWhy s c) ↔ Room takesWhy s c := by
  cases c with
  | userMessage | stringifyChatHistory | langchainfyChatHistory => exact iff_of_true h trivial
  | updateHistory message => exact iff_of_true (Session.history_updateHistory message h) trivial
  | updateConversationHistory message who why =>
    have hn := conversationMessage_eq_none takesWhy s.memory message who why
    rw [Bounded, step, history_updateConversationHistory, Room, ← or_assoc, ← hn]
    unfold Bounded at h
    cases hm : s.memory.conversationMessage takesWhy message who why with
    | none => simpa using h
    | some content =>
      rw [h, Option.toList_some, rtake_concat_iff]
      simp

/-! ## The readers -/

theorem line_ne_nil (turn : ConversationMessage) : turn.line ≠ [] := by
  have hdash : "\n - ".toList ≠ [] := by decide
  have hwho : "\n - ".toList ++ turn.who ++ ": ".toList ≠ [] :=
    List.append_ne_nil_of_left_ne_nil (List.append_ne_nil_of_left_ne_nil hdash _) _
  exact List.append_ne_nil_of_left_ne_nil hwho _

theorem stringify_iff (wm : WorkingMemory) (n : Nat) :
    wm.stringifyChatHistory n = (wm.history.rtake n).flatMap ConversationMessage.line ↔ (n = 0 → wm.history = []) := by
  rw [WorkingMemory.stringifyChatHistory]
  by_cases hn : n = 0
  · subst hn
    rw [sliceFrom_neg_zero, List.rtake_zero, List.flatMap_nil, List.flatMap_eq_nil_iff]
    constructor
    · exact fun h _ => List.eq_nil_iff_forall_not_mem.mpr fun turn ht => line_ne_nil turn (h turn ht)
    · intro h turn ht
      rw [h rfl] at ht
      exact absurd ht List.not_mem_nil
  · rw [sliceFrom_neg hn]
    exact iff_of_true rfl fun h => absurd h hn

theorem langchainfyImage_isSome (image : Str) :
    (langchainfyImage download image).isSome ↔ ("http".toList <+: image → download image ≠ none) := by
  rw [langchainfyImage]
  split
  · rename_i hp
    rw [Option.isSome_map, Option.isSome_iff_ne_none]
    exact ⟨fun h _ => h, fun h => h hp⟩
  · rename_i hp
    exact iff_of_true rfl fun h => absurd h hp

theorem userLangchainfy_isSome (m : ConversationMessage) : (userLangchainfy download m).isSome ↔
    ∀ image ∈ m.image, "http".toList <+: image → download image ≠ none := by
  unfold userLangchainfy
  cases m.image with
  | none => simp
  | some image =>
    by_cases he : image = []
    · subst he
      exact iff_of_true rfl fun _ h hp => by
        cases h
        exact absurd hp (by decide)
    · have hf : (some image).filter (· ≠ []) = some image := by simp [he]
      rw [hf]
      simp only [Option.isSome_map, langchainfyImage_isSome, Option.mem_def, Option.some.injEq, forall_eq']

theorem langchainfy_isSome (m : ConversationMessage) : (m.langchainfy download).isSome ↔ Renderable download m := by
  rw [ConversationMessage.langchainfy, Renderable]
  match m.role with
  | some .ai =>
    simp only [catLangchainfy, Option.isSome_map]
    exact Option.isSome_iff_ne_none
  | some .human => exact userLangchainfy_isSome download m
  | none => simp

theorem langchainfy_iff (wm : WorkingMemory) (n : Nat) :
    (∃ messages, wm.langchainfyChatHistory download n = some messages ∧
      (wm.history.rtake n).mapM (ConversationMessage.langchainfy download) = some messages) ↔
    (n = 0 → wm.history = []) ∧ ∀ m ∈ wm.history.rtake n, Renderable download m := by
  rw [WorkingMemory.langchainfyChatHistory]
  by_cases hn : n = 0
  · subst hn
    rw [sliceFrom_neg_zero, List.rtake_zero]
    cases wm.history with
    | nil => simp
    | cons m ms => simp [List.mapM_cons, Option.bind_eq_some_iff]
  · have hm := @MapM.isSome_iff _ _ (ConversationMessage.langchainfy download) (wm.history.rtake n)
    simp only [langchainfy_isSome] at hm
    rw [sliceFrom_neg hn, ← hm, Option.isSome_iff_exists]
    simp [hn]

theorem renders_iff (s : State) (c : Call W) : Renders download s c ↔ Readable download s c := by
  cases c with
  | userMessage | updateHistory | updateConversationHistory => exact Iff.rfl
  | stringifyChatHistory n => exact stringify_iff s.memory n
  | langchainfyChatHistory n => exact langchainfy_iff download s.memory n

/-- Over every run of calls: the history is the last messages, and each reader gives the last of it, just when every
`update_conversation_history` has room and no reader is asked for none of some messages. -/
theorem working_memory_iff (calls : List (Call W)) :
    Machine.Throughout (step takesWhy) Bounded .new calls ∧ Machine.Along (step takesWhy) (Renders download) .new calls ↔
      Machine.Along (step takesWhy) (fun s c => Room takesWhy s c ∧ Readable download s c) .new calls := by
  have hb : Machine.Throughout (step takesWhy) Bounded .new calls ↔
      Machine.Along (step takesWhy) (Room takesWhy) .new calls :=
    Machine.throughout_iff_along (I := fun _ => True) (fun _ _ _ => trivial)
      (fun s c _ h => bounded_step takesWhy h c) trivial rfl
  rw [hb]
  constructor
  · intro ⟨hroom, hrenders⟩
    exact hroom.and (hrenders.mono fun s c => (renders_iff download s c).mp)
  · intro h
    exact ⟨h.mono fun _ _ h => h.1, h.mono fun s c h => (renders_iff download s c).mpr h.2⟩

/-- The deprecated method lets the history grow past its bound; `latest_n = 0` gives all of it. -/
theorem history_unbounded : let hi : ConversationMessage := ⟨some .human, ['u'], ['H'], some ['h'], none⟩
    let calls : List (Call Unit) := .userMessage (some hi) :: List.replicate 21 (.updateConversationHistory ['h'] ['H'] ())
    let s := Machine.run (step fun _ => true) .new calls
    ¬Machine.Throughout (step fun _ => true) Bounded .new calls ∧ s.memory.history.length = 21 ∧
      ¬Renders (fun _ => none) (step (fun _ => true) .new (.updateHistory hi : Call Unit))
        (.stringifyChatHistory 0 : Call Unit) := by
  refine ⟨fun h => ?_, by decide, fun h => ?_⟩
  · have hl := congrArg List.length (h _ List.prefix_rfl)
    exact absurd hl (by decide)
  · rw [Renders] at h
    exact absurd h (by decide)

end KCore.Convo
