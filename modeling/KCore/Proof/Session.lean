import KCore.Lib.Run
import KCore.Impl.Session

/-!
# The cached history is what the turns and wipes produce

`Conversation` is what the session is for: the messages since the last wipe. The
cached history is its last messages in every run in which a websocket is closed
only while its working memory is the cached one, and no turn raises in the midst
of the cached object (`session_run_ok`).
-/

namespace KCore.Session

variable {M : Type*} {b : Backend}

/-! ## The conversation -/

/-- The open websockets, and the messages of the turns since the last wipe. -/
structure Conversation (M : Type*) where
  opened : Nat → Bool
  messages : List M

def Conversation.init : Conversation M := ⟨fun _ => false, []⟩

/-- The messages of a turn. -/
def Turn.messages : Turn M → List M
  | .reply human ai => [human, ai]
  | .recallError human => [human]
  | .fastReply | .raises _ => []

/-- The conversation after an event. -/
def Conversation.after (t : Conversation M) : Event M → Conversation M
  | .openWs c => { t with opened := Function.update t.opened c true }
  | .wsMessage c turn => if t.opened c then { t with messages := t.messages ++ turn.messages } else t
  | .httpMessage turn => { t with messages := t.messages ++ turn.messages }
  | .wipe => { t with messages := [] }
  | .closeWs c => { t with opened := Function.update t.opened c false }

/-- A closed websocket's working memory is the cached one; a turn does not raise in the cached object. -/
def Safe (b : Backend) (s : State M) : Event M → Prop
  | .closeWs c => ∀ ref ∈ s.connections c, (s.heap ref).history = s.cachedHistory
  | .wsMessage c (.raises (some _)) => b = .inMemory → s.connections c = none ∨ s.cache = none
  | .httpMessage (.raises (some _)) => b = .inMemory → s.cache = none
  | _ => True

/-! ## Histories -/

/-- What is cut off before does not matter for the last `n`. -/
theorem rtake_append (l r : List M) (n : Nat) : (l.rtake n ++ r).rtake n = (l ++ r).rtake n := by
  rw [List.rtake_eq_reverse_take_reverse, List.rtake_eq_reverse_take_reverse, List.rtake_eq_reverse_take_reverse,
    List.reverse_append, List.reverse_append, List.reverse_reverse, List.take_append, List.take_append,
    List.take_take, Nat.min_eq_left (Nat.sub_le _ _)]

theorem history_updateHistory {wm : WorkingMemory M} {l : List M} (m : M)
    (h : wm.history = l.rtake maxWorkingHistoryLength) :
    (wm.updateHistory m).history = (l ++ [m]).rtake maxWorkingHistoryLength := by
  rw [WorkingMemory.updateHistory, h, rtake_append]

/-! ## The cache -/

/-- A cached object is one that was made, and only the in-memory cache has it. -/
def Cached (b : Backend) (s : State M) : Prop :=
  ∀ ref, s.cache = some (.object ref) → b = .inMemory ∧ ref < s.next

/-- What a cat starts from: a working memory with the cached history. -/
structure Loaded (b : Backend) (s s' : State M) (ref : Nat) : Prop where
  cache : s'.cache = s.cache
  history : (s'.heap ref).history = s.cachedHistory
  cached : s'.cachedHistory = s.cachedHistory
  made : ref < s'.next
  le : s.next ≤ s'.next
  /-- a copy or a new object is not the cached one -/
  apart : b = .fileSystem ∨ s.cache = none → ∀ f, (s'.modify ref f).cachedHistory = s.cachedHistory

theorem load_loaded {s : State M} (hs : Cached b s) :
    Loaded b s (loadWorkingMemoryFromCache s).1 (loadWorkingMemoryFromCache s).2 := by
  cases h : s.cache with
  | none =>
    simp only [loadWorkingMemoryFromCache, h, State.alloc]
    refine ⟨h.symm, ?_, ?_, Nat.lt_succ_self _, Nat.le_succ _, fun _ f => ?_⟩
    · simp [WorkingMemory.new, State.cachedHistory, h]
    all_goals simp [State.cachedHistory, State.modify, h]
  | some e =>
    cases e with
    | object ref =>
      obtain ⟨hb, hlt⟩ := hs ref h
      simp only [loadWorkingMemoryFromCache, h]
      refine ⟨rfl, ?_, rfl, hlt, le_rfl, fun h' => ?_⟩
      · simp [State.cachedHistory, h]
      · rcases h' with h' | h'
        · rw [hb] at h'; cases h'
        · rw [h] at h'; cases h'
    | pickled wm =>
      simp only [loadWorkingMemoryFromCache, h, State.alloc]
      refine ⟨h.symm, ?_, ?_, Nat.lt_succ_self _, Nat.le_succ _, fun _ f => ?_⟩
      all_goals simp [State.cachedHistory, State.modify, h]

theorem connections_load (s : State M) : (loadWorkingMemoryFromCache s).1.connections = s.connections := by
  rw [loadWorkingMemoryFromCache]
  split <;> rfl

theorem Loaded.connect {s s' : State M} {ref : Nat} (h : Loaded b s s' ref) (c : Nat) (r : Option Nat) :
    Loaded b s (s'.connect c r) ref :=
  ⟨h.cache, h.history, h.cached, h.made, h.le, h.apart⟩

theorem cachedHistory_save (b : Backend) (s : State M) (ref : Nat) :
    (updateWorkingMemoryCache b s ref).cachedHistory = (s.heap ref).history := by
  cases b <;> rfl

theorem cached_save {s : State M} {ref : Nat} (h : ref < s.next) : Cached b (updateWorkingMemoryCache b s ref) := by
  intro ref' h'
  cases b with
  | inMemory =>
    obtain rfl : ref = ref' := by simpa [updateWorkingMemoryCache] using h'
    exact ⟨rfl, h⟩
  | fileSystem => simp [updateWorkingMemoryCache] at h'

@[simp] theorem connections_save (b : Backend) (s : State M) (ref : Nat) :
    (updateWorkingMemoryCache b s ref).connections = s.connections := by
  cases b <;> rfl

@[simp] theorem next_save (b : Backend) (s : State M) (ref : Nat) : (updateWorkingMemoryCache b s ref).next = s.next := by
  cases b <;> rfl

@[simp] theorem heap_modify_self (s : State M) (ref : Nat) (f : WorkingMemory M → WorkingMemory M) :
    (s.modify ref f).heap ref = f (s.heap ref) :=
  Function.update_self ..

theorem Loaded.cached_load {s s' : State M} {ref : Nat} (h : Loaded b s s' ref) (hs : Cached b s) : Cached b s' := by
  intro ref' h'
  rw [h.cache] at h'
  exact ⟨(hs ref' h').1, (hs ref' h').2.trans_le h.le⟩

/-! ## Turns -/

/-- After a turn: the messages of the turn are in the cached history. -/
structure Turned (b : Backend) (s s' : State M) (l : List M) : Prop where
  history : s'.cachedHistory = l.rtake maxWorkingHistoryLength
  cached : Cached b s'
  connections : s'.connections = s.connections
  next : s'.next = s.next

theorem run_turned {s s' : State M} {ref : Nat} {l : List M} (hload : Loaded b s s' ref) (hs : Cached b s)
    (hl : s.cachedHistory = l.rtake maxWorkingHistoryLength) (turn : Turn M)
    (hsafe : ∀ human, turn = .raises (some human) → b = .inMemory → s.cache = none) :
    Turned b s' (run b s' ref turn) (l ++ turn.messages) := by
  have hwm := hload.history.trans hl
  cases turn with
  | reply human ai =>
    refine ⟨?_, cached_save hload.made, by simp [run, State.modify], by simp [run, State.modify]⟩
    rw [run, cachedHistory_save, heap_modify_self, history_updateHistory ai (history_updateHistory human hwm),
      List.append_assoc]
    rfl
  | fastReply =>
    refine ⟨?_, cached_save hload.made, connections_save .., next_save ..⟩
    rw [run, cachedHistory_save, hwm, Turn.messages, List.append_nil]
  | recallError human =>
    refine ⟨?_, cached_save hload.made, by simp [run, State.modify], by simp [run, State.modify]⟩
    rw [run, cachedHistory_save, heap_modify_self, history_updateHistory human hwm]
    rfl
  | raises human =>
    rw [Turn.messages, List.append_nil]
    cases human with
    | none => exact ⟨hload.cached.trans hl, hload.cached_load hs, rfl, rfl⟩
    | some human =>
      have hb : b = .fileSystem ∨ s.cache = none := by
        cases b with
        | inMemory => exact .inr (hsafe human rfl rfl)
        | fileSystem => exact .inl rfl
      exact ⟨(hload.apart hb _).trans hl, hload.cached_load hs, rfl, rfl⟩

/-! ## Runs -/

/-- The cached history is that of the conversation. -/
structure Agrees (b : Backend) (s : State M) (t : Conversation M) : Prop where
  history : s.cachedHistory = t.messages.rtake maxWorkingHistoryLength
  opened : ∀ c, (s.connections c).isSome = t.opened c
  cached : Cached b s
  connected : ∀ c, ∀ ref ∈ s.connections c, ref < s.next

theorem Agrees.opened_of_some {s : State M} {t : Conversation M} (h : Agrees b s t) {c ref : Nat}
    (hc : s.connections c = some ref) : t.opened c = true := by
  rw [← h.opened c, hc]
  rfl

theorem Agrees.opened_of_none {s : State M} {t : Conversation M} (h : Agrees b s t) {c : Nat}
    (hc : s.connections c = none) : t.opened c = false := by
  rw [← h.opened c, hc]
  rfl

/-- The cat is saved by `run` already. -/
theorem httpMessage_eq (b : Backend) (s : State M) (turn : Turn M) :
    httpMessage b s turn = run b (loadWorkingMemoryFromCache s).1 (loadWorkingMemoryFromCache s).2 turn := by
  cases turn with
  | reply | fastReply => cases b <;> rfl
  | recallError | raises => rfl

theorem connections_connect (s : State M) (c : Nat) (r : Option Nat) :
    (s.connect c r).connections = Function.update s.connections c r := rfl

theorem opened_connect {s : State M} {opened : Nat → Bool} (h : ∀ c, (s.connections c).isSome = opened c)
    (c : Nat) (r : Option Nat) (c' : Nat) :
    ((s.connect c r).connections c').isSome = Function.update opened c r.isSome c' := by
  rw [connections_connect]
  by_cases hc : c' = c
  · subst hc
    rw [Function.update_self, Function.update_self]
  · rw [Function.update_of_ne hc, Function.update_of_ne hc, h]

theorem connected_connect {s s' : State M} (h : ∀ c, ∀ ref ∈ s.connections c, ref < s.next)
    (hc : s'.connections = s.connections) (hn : s.next ≤ s'.next) {r : Option Nat} (hr : ∀ ref ∈ r, ref < s'.next)
    (c c' : Nat) : ∀ ref ∈ (s'.connect c r).connections c', ref < s'.next := by
  intro ref href
  rw [connections_connect, hc] at href
  by_cases h' : c' = c
  · subst h'
    rw [Function.update_self] at href
    exact hr ref href
  · rw [Function.update_of_ne h'] at href
    exact (h c' ref href).trans_le hn

theorem step_agrees (s : State M) (t : Conversation M) (e : Event M) (h : Agrees b s t) (hsafe : Safe b s e) :
    Agrees b (step b s e) (t.after e) := by
  have hload := load_loaded h.cached
  have hconn := connections_load s
  have hopened : ∀ c, ((loadWorkingMemoryFromCache s).1.connections c).isSome = t.opened c := by
    rw [hconn]
    exact h.opened
  cases e with
  | openWs c =>
    cases hc : s.connections c with
    | some ref =>
      have ht : Function.update t.opened c true = t.opened :=
        Function.update_eq_self_iff.mpr (h.opened_of_some hc).symm
      simp only [step, hc, Conversation.after, ht]
      exact h
    | none =>
      simp only [step, hc, Conversation.after]
      refine ⟨hload.cached.trans h.history, opened_connect hopened c _, hload.cached_load h.cached, ?_⟩
      exact connected_connect h.connected hconn hload.le (by simpa using hload.made) c
  | wsMessage c turn =>
    cases hc : s.connections c with
    | none =>
      simp only [step, hc, Conversation.after, h.opened_of_none hc]
      exact h
    | some ref =>
      have ht : t.opened c = true := h.opened_of_some hc
      have hturn := run_turned (hload.connect c (some (loadWorkingMemoryFromCache s).2)) h.cached h.history turn
        (by
          rintro human rfl hb
          exact (hsafe hb).resolve_left (by rw [hc]; exact Option.some_ne_none ref))
      have hup : Function.update t.opened c true = t.opened := Function.update_eq_self_iff.mpr ht.symm
      simp only [step, hc, Conversation.after, ht, if_true]
      refine ⟨hturn.history, fun c' => ?_, hturn.cached, fun c' ref' href' => ?_⟩
      · rw [hturn.connections, opened_connect hopened c, Option.isSome_some, hup]
      · rw [hturn.connections] at href'
        rw [hturn.next]
        exact connected_connect h.connected hconn hload.le (by simpa using hload.made) c c' ref' href'
  | httpMessage turn =>
    have hturn := run_turned hload h.cached h.history turn (by rintro human rfl hb; exact hsafe hb)
    simp only [step, httpMessage_eq, Conversation.after]
    refine ⟨hturn.history, fun c => ?_, hturn.cached, fun c ref href => ?_⟩
    · rw [hturn.connections, hconn, h.opened]
    · rw [hturn.connections, hconn] at href
      rw [hturn.next]
      exact (h.connected c ref href).trans_le hload.le
  | wipe =>
    simp only [step, wipeConversationHistory, Conversation.after]
    refine ⟨?_, fun c => ?_, cached_save hload.made, fun c ref href => ?_⟩
    · rw [cachedHistory_save, heap_modify_self]
      rfl
    · rw [connections_save, ← h.opened, ← hconn]
      rfl
    · rw [connections_save] at href
      rw [next_save]
      exact (h.connected c ref (hconn ▸ href)).trans_le hload.le
  | closeWs c =>
    cases hc : s.connections c with
    | none =>
      have ht : Function.update t.opened c false = t.opened :=
        Function.update_eq_self_iff.mpr (h.opened_of_none hc).symm
      simp only [step, hc, Conversation.after, ht]
      exact h
    | some ref =>
      have hmade := h.connected c ref hc
      simp only [step, hc, Conversation.after]
      refine ⟨?_, opened_connect (by rw [connections_save]; exact h.opened) c none, cached_save hmade, ?_⟩
      · exact (cachedHistory_save b s ref).trans ((hsafe ref hc).trans h.history)
      · exact connected_connect h.connected (connections_save ..) (next_save ..).ge (by simp) c

/-- In every run of safe events the cached history is that of the conversation. -/
theorem session_run_ok (b : Backend) (es : List (Event M)) (h : Machine.Along (step b) (Safe b) State.init es) :
    (Machine.run (step b) State.init es).cachedHistory =
      (Machine.run Conversation.after Conversation.init es).messages.rtake maxWorkingHistoryLength := by
  have hinit : Agrees b (State.init : State M) .init := ⟨rfl, fun _ => rfl, nofun, nofun⟩
  exact (Machine.run_simulation step_agrees hinit h).history

/-- A turn over HTTP, then a websocket with a turn of its own. -/
theorem session_run_http_ws :
    let es : List (Event Nat) := [.httpMessage (.reply 1 2), .openWs 0, .wsMessage 0 (.reply 3 4), .closeWs 0]
    (Machine.run (step .fileSystem) State.init es).cachedHistory =
      (Machine.run Conversation.after Conversation.init es).messages.rtake maxWorkingHistoryLength :=
  session_run_ok .fileSystem _ ⟨trivial, trivial, trivial, show ∀ ref ∈ some 2, _ = _ by decide, trivial⟩

/-- The first turn over HTTP while a websocket is open is lost when it is closed, with either cache. -/
theorem session_close_loses_turn :
    let es : List (Event Nat) := [.openWs 0, .httpMessage (.reply 1 2), .closeWs 0]
    (Machine.run Conversation.after Conversation.init es).messages.rtake maxWorkingHistoryLength = [1, 2] ∧
    (Machine.run (step .inMemory) State.init es).cachedHistory = [] ∧
    (Machine.run (step .fileSystem) State.init es).cachedHistory = [] := by
  decide

end KCore.Session
