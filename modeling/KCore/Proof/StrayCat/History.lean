import KCore.Proof.Session
import KCore.Proof.StrayCat

/-!
# The messages of a user refine a session

What a message does to the history is a turn of `Session`, whose kind is how the call ends. In every run the
cached history is that of the session with these turns, every message over HTTP is answered once, and the
episodic memory has a document for each answer that the agents gave (`conversation_refines`).
-/

namespace KCore.Session

variable {M : Type*} {b : Backend}

/-! ## The cached working memory -/

/-- The working memory after a turn. -/
def Turn.after (wm : WorkingMemory M) : Turn M → WorkingMemory M
  | .reply human ai => (wm.updateHistory human).updateHistory ai
  | .fastReply | .raises none => wm
  | .recallError human | .raises (some human) => wm.updateHistory human

def Turn.returns : Turn M → Bool
  | .reply .. | .fastReply | .recallError _ => true
  | .raises _ => false

def State.cached (s : State M) : Option (WorkingMemory M) := s.cache.map fun
  | .object ref => s.heap ref
  | .pickled wm => wm

/-- What is cached after a change that is not saved: it reaches the cached object, and no copy. -/
def changed (b : Backend) (cached : Option (WorkingMemory M)) (f : WorkingMemory M → WorkingMemory M) :
    Option (WorkingMemory M) :=
  match b with
  | .inMemory => cached.map f
  | .fileSystem => cached

/-- What is cached after a turn. -/
def keep (b : Backend) (cached : Option (WorkingMemory M)) (turn : Turn M) : Option (WorkingMemory M) :=
  if turn.returns then some (turn.after (cached.getD .new)) else changed b cached fun wm => turn.after wm

/-- The cache holds what the backend makes. -/
structure Kind (b : Backend) (s : State M) : Prop where
  object : Cached b s
  pickled : ∀ wm, s.cache = some (.pickled wm) → b = .fileSystem

theorem cached_updateWorkingMemoryCache (b : Backend) (s : State M) (ref : Nat) :
    (updateWorkingMemoryCache b s ref).cached = some (s.heap ref) := by
  cases b <;> rfl

theorem kind_save {s : State M} {ref : Nat} (h : ref < s.next) : Kind b (updateWorkingMemoryCache b s ref) := by
  refine ⟨cached_save h, fun wm hwm => ?_⟩
  cases b with
  | inMemory => cases hwm
  | fileSystem => rfl

theorem Kind.of_cache {s s' : State M} (h : Kind b s) (hc : s'.cache = s.cache) (hn : s.next ≤ s'.next) : Kind b s' := by
  refine ⟨fun ref href => ?_, fun wm hwm => h.pickled wm (hc ▸ hwm)⟩
  obtain ⟨hb, hlt⟩ := h.object ref (hc ▸ href)
  exact ⟨hb, hlt.trans_le hn⟩

/-- What a turn starts from. -/
structure Opened (b : Backend) (s s' : State M) (ref : Nat) : Prop where
  heap : s'.heap ref = s.cached.getD .new
  made : ref < s'.next
  kind : Kind b s'
  modify : ∀ f, (s'.modify ref f).cached = changed b s.cached f

theorem load_opened {s : State M} (h : Kind b s) :
    Opened b s (loadWorkingMemoryFromCache s).1 (loadWorkingMemoryFromCache s).2 := by
  have hload := load_loaded h.object
  have hkind := h.of_cache hload.cache hload.le
  refine ⟨?_, hload.made, hkind, fun f => ?_⟩
  · unfold loadWorkingMemoryFromCache State.cached
    rcases s.cache with _ | ref | wm
    · exact Function.update_self ..
    · rfl
    · exact Function.update_self ..
  · unfold loadWorkingMemoryFromCache
    cases hc : s.cache with
    | none => cases b <;> simp [State.cached, State.modify, State.alloc, changed, hc]
    | some e =>
      cases e with
      | object ref =>
        obtain ⟨rfl, -⟩ := h.object ref hc
        simp [State.cached, State.modify, changed, hc]
      | pickled wm =>
        obtain rfl := h.pickled wm hc
        simp [State.cached, State.modify, State.alloc, changed, hc]

theorem Opened.connect {s s' : State M} {ref : Nat} (h : Opened b s s' ref) (c : Nat) (r : Option Nat) :
    Opened b s (s'.connect c r) ref :=
  ⟨h.heap, h.made, ⟨h.kind.object, h.kind.pickled⟩, h.modify⟩

/-- A change that is saved. -/
theorem Opened.saved {s s' : State M} {ref : Nat} (h : Opened b s s' ref) (f : WorkingMemory M → WorkingMemory M) :
    (updateWorkingMemoryCache b (s'.modify ref f) ref).cached = some (f (s.cached.getD .new)) ∧
      Kind b (updateWorkingMemoryCache b (s'.modify ref f) ref) := by
  refine ⟨?_, kind_save h.made⟩
  rw [cached_updateWorkingMemoryCache, heap_modify_self, h.heap]

/-- A turn on what was loaded. -/
theorem Opened.run {s s' : State M} {ref : Nat} (h : Opened b s s' ref) (turn : Turn M) :
    (run b s' ref turn).cached = keep b s.cached turn ∧ Kind b (run b s' ref turn) := by
  have hsame : s'.modify ref id = s' := congrArg (fun heap => { s' with heap := heap }) (Function.update_eq_self ..)
  cases turn with
  | reply human ai => exact h.saved _
  | fastReply =>
    have := h.saved id
    rwa [hsame] at this
  | recallError human => exact h.saved _
  | raises human =>
    cases human with
    | none =>
      refine ⟨?_, h.kind⟩
      rw [Session.run, ← hsame, h.modify]
      rfl
    | some human => exact ⟨h.modify _, h.kind.of_cache rfl le_rfl⟩

theorem connections_run (b : Backend) (s : State M) (ref : Nat) (turn : Turn M) :
    (run b s ref turn).connections = s.connections := by
  cases turn with
  | reply | fastReply | recallError => exact connections_save ..
  | raises human => cases human <;> rfl

end KCore.Session

namespace KCore.StrayCat

open Text MainAgent Agents

variable {N : Type*}

/-! ## Turns -/

/-- What the call is in the session. -/
def Outcome.turn : Outcome N → Session.Turn (Message N)
  | fast _ => .fastReply
  | answered user m => .reply (.human user) (.cat m)
  | recallError user => .recallError (.human user)
  | raised user _ => .raises (user.map .human)

/-- The event of the session, in which one websocket is open. -/
def Entry.event : Entry N → Session.Event (Message N)
  | message .http _ outcome _ => .httpMessage outcome.turn
  | message (.ws ..) _ outcome _ => .wsMessage 0 outcome.turn
  | wiped => .wipe

def Entry.isAnswered : Entry N → Bool
  | message _ _ (.answered ..) _ => true
  | message _ _ (.fast _) _ | message _ _ (.recallError _) _ | message _ _ (.raised ..) _ | wiped => false

def Entry.isRaised : Entry N → Bool
  | message _ _ (.raised ..) _ => true
  | message _ _ (.fast _) _ | message _ _ (.recallError _) _ | message _ _ (.answered ..) _ | wiped => false

theorem returns_turn (outcome : Outcome N) : outcome.turn.returns = outcome.returns := by
  cases outcome <;> rfl

/-- At most one answer, and over HTTP no less. -/
theorem length_respond (outcome : Outcome N) (c : Channel) :
    (respond outcome c).1.length ≤ 1 ∧ (c = .http → (respond outcome c).1.length = 1) := by
  cases c with
  | http => cases outcome <;> exact ⟨le_rfl, fun _ => rfl⟩
  | ws chat error =>
    refine ⟨?_, fun h => by cases h⟩
    have hsend (e : Raised) : (sendError error e : List (Answer N) × Option Raised).1.length ≤ 1 := by
      cases error with
      | sent => exact le_rfl
      | dropped | connectionClosed | raises => exact Nat.zero_le 1
    cases outcome with
    | recallError | raised => exact hsend _
    | fast | answered =>
      cases chat with
      | sent => exact le_rfl
      | dropped => exact Nat.zero_le 1
      | connectionClosed | raises => exact hsend _

section

variable [Zero N] [One N] [DecidableEq N] [Numeral N] {p : Platform N} {b : Session.Backend}

theorem call_history (t : Turn p) (w : World N) :
    (call t w).1.cat.history = (call t w).2.2.turn.after w.cat.history := by
  have hspec := call_spec t w
  generalize call t w = r at hspec
  cases hspec <;> rfl

theorem run_history (b : Session.Backend) (s : State N) (t : Turn p) (c : Channel) :
    (run b s t c).cache.map Cat.history =
      Session.keep b (s.cache.map Cat.history) (call t s.load).2.2.turn := by
  have hhistory := call_history t s.load
  have hload : s.load.cat.history = (s.cache.map Cat.history).getD .new := by
    cases hc : s.cache <;> simp [State.load, hc, Cat.new]
  rw [hload] at hhistory
  unfold run Session.keep
  rw [returns_turn]
  generalize call t s.load = r at hhistory
  obtain ⟨w, acts, outcome⟩ := r
  dsimp only at hhistory ⊢
  cases outcome.returns with
  | true => exact congrArg some hhistory
  | false =>
    cases b with
    | fileSystem => rfl
    | inMemory =>
      cases hc : s.cache with
      | none => rfl
      | some cat =>
        rw [hc] at hhistory
        exact congrArg some hhistory

/-- The documents that a call stores. -/
theorem call_stored (t : Turn p) (w : World N) (c : Channel) (answers : List (Answer N)) :
    let e := Entry.message c (call t w).2.1 (call t w).2.2 answers
    w.episodic.length + [e].countP Entry.isAnswered ≤ (call t w).1.episodic.length ∧
    (call t w).1.episodic.length ≤ w.episodic.length + [e].countP Entry.isAnswered + [e].countP Entry.isRaised := by
  have hspec := call_spec t w
  generalize call t w = r at hspec
  cases hspec with
  | early | fast | recallError => exact ⟨le_rfl, Nat.le_add_right ..⟩
  | answered => simp [Entry.isAnswered]
  | raised _ _ _ hd => simpa [Entry.isAnswered, Entry.isRaised] using hd

/-! ## Runs -/

/-- The session with the turns that were run. -/
def session (b : Session.Backend) (log : List (Entry N)) : Session.State (Message N) :=
  Machine.run (Session.step b) .init (.openWs 0 :: log.map Entry.event)

structure Agrees (b : Session.Backend) (s : State N) : Prop where
  cached : (session b s.log).cached = s.cache.map Cat.history
  kind : Session.Kind b (session b s.log)
  opened : ((session b s.log).connections 0).isSome

omit [Zero N] [One N] [DecidableEq N] [Numeral N] in
theorem session_append (b : Session.Backend) (log : List (Entry N)) (e : Entry N) :
    session b (log ++ [e]) = Session.step b (session b log) e.event := by
  rw [session, List.map_append, ← List.cons_append, Machine.run_append]
  rfl

omit [Zero N] [One N] [DecidableEq N] [Numeral N] in
/-- The turn of a message, in the session. -/
theorem step_message {σ : Session.State (Message N)} (h : Session.Kind b σ) (hopen : (σ.connections 0).isSome) (c : Channel)
    (acts : List (Act N)) (outcome : Outcome N) (answers : List (Answer N)) :
    let σ' := Session.step b σ (Entry.message c acts outcome answers).event
    σ'.cached = Session.keep b σ.cached outcome.turn ∧ Session.Kind b σ' ∧ (σ'.connections 0).isSome := by
  have hload := Session.load_opened h
  cases c with
  | http =>
    obtain ⟨hcached, hkind⟩ := hload.run outcome.turn
    simp only [Entry.event, Session.step, Session.httpMessage_eq]
    refine ⟨hcached, hkind, ?_⟩
    rw [Session.connections_run, Session.connections_load]
    exact hopen
  | ws =>
    obtain ⟨ref, href⟩ := Option.isSome_iff_exists.mp hopen
    obtain ⟨hcached, hkind⟩ := (hload.connect 0 (some (Session.loadWorkingMemoryFromCache σ).2)).run outcome.turn
    simp only [Entry.event, Session.step, href]
    refine ⟨hcached, hkind, ?_⟩
    rw [Session.connections_run, Session.connections_connect, Function.update_self]
    rfl

theorem agrees_message {s : State N} (h : Agrees b s) (t : Turn p) (c : Channel) : Agrees b (run b s t c) := by
  have hlog : (run b s t c).log = s.log ++ [.message c (call t s.load).2.1 (call t s.load).2.2
      (respond (call t s.load).2.2 c).1] := rfl
  obtain ⟨hcached, hkind, hopened⟩ := step_message h.kind h.opened c (call t s.load).2.1 (call t s.load).2.2
    (respond (call t s.load).2.2 c).1
  refine ⟨?_, ?_, ?_⟩
  · rw [hlog, session_append, run_history, ← h.cached]
    exact hcached
  · rw [hlog, session_append]
    exact hkind
  · rw [hlog, session_append]
    exact hopened

omit [Zero N] [One N] [DecidableEq N] [Numeral N] in
theorem agrees_wipe {s : State N} (h : Agrees b s) : Agrees b (wipe s) := by
  obtain ⟨hcached, hkind⟩ := (Session.load_opened h.kind).saved fun _ => ⟨[]⟩
  have hstep : session b (wipe s).log = Session.wipeConversationHistory b (session b s.log) := session_append ..
  refine ⟨?_, ?_, ?_⟩
  · rw [hstep]
    exact hcached
  · rw [hstep]
    exact hkind
  · rw [hstep, Session.wipeConversationHistory, Session.connections_save]
    change ((Session.loadWorkingMemoryFromCache (session b s.log)).1.connections 0).isSome
    rw [Session.connections_load]
    exact h.opened

/-- What a run of messages and wipes has done. -/
structure Conversed (b : Session.Backend) (s : State N) : Prop where
  agrees : Agrees b s
  answers : ∀ c acts outcome answers, .message c acts outcome answers ∈ s.log →
    answers.length ≤ 1 ∧ (c = .http → answers.length = 1)
  stored : s.log.countP Entry.isAnswered ≤ s.episodic.length
  raised : s.episodic.length ≤ s.log.countP Entry.isAnswered + s.log.countP Entry.isRaised

theorem step_conversed (s : State N) (e : Event p) (h : Conversed b s) : Conversed b (step b s e) := by
  obtain ⟨hagrees, hanswers, hstored, hraised⟩ := h
  cases e with
  | wipe =>
    refine ⟨agrees_wipe hagrees, fun c acts outcome answers hmem => ?_, ?_, ?_⟩
    · rcases List.mem_append.mp hmem with hmem | hmem
      · exact hanswers c acts outcome answers hmem
      · cases List.mem_singleton.mp hmem
    · exact List.countP_append.trans_le hstored
    · refine hraised.trans_eq ?_
      simp [step, wipe, Entry.isAnswered, Entry.isRaised]
  | message t c =>
    obtain ⟨hleast, hmost⟩ := call_stored t s.load c (respond (call t s.load).2.2 c).1
    have hlog : (run b s t c).log = s.log ++ [.message c (call t s.load).2.1 (call t s.load).2.2
        (respond (call t s.load).2.2 c).1] := rfl
    have hdocs : (run b s t c).episodic = (call t s.load).1.episodic := rfl
    have hload : s.load.episodic = s.episodic := rfl
    rw [hload] at hleast hmost
    refine ⟨agrees_message hagrees t c, fun c' acts outcome answers hmem => ?_, ?_, ?_⟩
    · rcases List.mem_append.mp hmem with hmem | hmem
      · exact hanswers c' acts outcome answers hmem
      · cases List.mem_singleton.mp hmem
        exact length_respond _ _
    · rw [step, hlog, hdocs, List.countP_append]
      omega
    · rw [step, hlog, hdocs, List.countP_append, List.countP_append]
      omega

theorem length_log (s : State N) (es : List (Event p)) :
    (Machine.run (step b) s es).log.length = s.log.length + es.length := by
  induction es generalizing s with
  | nil => rfl
  | cons e es ih =>
    have hstep : (step b s e).log.length = s.log.length + 1 := by
      cases e <;> simp [step, run, wipe]
    rw [Machine.run_cons, ih, hstep, List.length_cons]
    omega

/-- In every run of messages and wipes, with either cache: the cached history is that of the session in which each message
is a turn of the kind that its call came to; every message is answered at most once, and over HTTP no less; and the
episodic memory has a document for each answer of the agents, and at most one more for each call that raised. -/
theorem conversation_refines (b : Session.Backend) (es : List (Event p)) :
    let s := Machine.run (step b) (State.init : State N) es
    (session b s.log).cached = s.cache.map Cat.history ∧ s.log.length = es.length ∧
    (∀ c acts outcome answers, .message c acts outcome answers ∈ s.log →
      answers.length ≤ 1 ∧ (c = .http → answers.length = 1)) ∧
    s.log.countP Entry.isAnswered ≤ s.episodic.length ∧
    s.episodic.length ≤ s.log.countP Entry.isAnswered + s.log.countP Entry.isRaised := by
  have hinit : Conversed b (State.init : State N) := by
    refine ⟨⟨rfl, ⟨?_, ?_⟩, rfl⟩, by simp [State.init], Nat.zero_le _, Nat.zero_le _⟩
    · rintro ref ⟨⟩
    · rintro wm ⟨⟩
  have h := Machine.run_invariant (P := fun _ _ => True) (fun s e hs _ => step_conversed s e hs) hinit
    (Machine.along_true _ es)
  exact ⟨h.agrees.cached, by rw [length_log]; exact Nat.zero_add _, h.answers, h.stored, h.raised⟩

end

end KCore.StrayCat
