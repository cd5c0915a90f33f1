import KCore.Lib.Run
import KCore.Impl.Websocket

/-!
# The websocket of a user

The manager never gives a closed websocket or another user's (`run_sound`). It gives
one for every user who has one just in the runs in which no websocket is closed
while its user has another (`get_connection_iff`).
-/

namespace KCore.Websocket

open Text Machine

/-! ## The manager -/

@[simp] theorem getConnection_addConnection (m : WebsocketManager) (u u' : Str) (w : Nat) :
    (m.addConnection u w).getConnection u' = if u' = u then some w else m.getConnection u' :=
  Dict.get?_set ..

@[simp] theorem getConnection_removeConnection (m : WebsocketManager) (u u' : Str) :
    (m.removeConnection u).getConnection u' = if u' = u then none else m.getConnection u' := by
  unfold WebsocketManager.removeConnection
  by_cases h : u ∈ m.connections
  · rw [if_pos h]
    exact Dict.get?_erase ..
  · rw [if_neg h]
    by_cases hu : u' = u
    · rw [if_pos hu, hu]
      exact Dict.get?_eq_none.mpr h
    · rw [if_neg hu]

/-! ## What holds in every run -/

/-- `w` is an open websocket of `u`. -/
def Server.Open (s : Server) (w : Nat) (u : Str) : Prop := s.running.get? w = some u

instance (s : Server) (w : Nat) (u : Str) : Decidable (s.Open w u) := inferInstanceAs (Decidable (_ = _))

structure Sound (s : Server) : Prop where
  /-- what the manager has under a user is an open websocket of that user -/
  gives : ∀ u w, s.manager.getConnection u = some w → s.Open w u
  fresh : ∀ w u, s.Open w u → w < s.next

theorem init_sound : Sound .init := ⟨fun _ _ h => (nomatch h), fun _ _ h => nomatch h⟩

theorem open_accept {s : Server} (hs : Sound s) {u u' : Str} {w : Nat} :
    (step s (.accept u)).Open w u' ↔ w = s.next ∧ u' = u ∨ s.Open w u' := by
  unfold Server.Open
  simp only [step, Dict.get?_set]
  by_cases hw : w = s.next
  · have hno : s.running.get? w ≠ some u' := fun h => by
      have := hs.fresh w u' h
      omega
    simp [hw, eq_comm, hw ▸ hno]
  · simp [hw]

theorem step_sound {s : Server} (hs : Sound s) : ∀ e, Sound (step s e)
  | .accept u => by
    refine ⟨fun u' w h => ?_, fun w u' h => ?_⟩
    · simp only [step, getConnection_addConnection] at h
      split at h
      · rename_i hu
        exact (open_accept hs).mpr (.inl ⟨(Option.some.inj h).symm, hu⟩)
      · exact (open_accept hs).mpr (.inr (hs.gives u' w h))
    · show w < s.next + 1
      rcases (open_accept hs).mp h with ⟨rfl, -⟩ | h
      · omega
      · have := hs.fresh w u' h
        omega
  | .close w => by
    simp only [step]
    cases hw : s.running.get? w with
    | none => exact hs
    | some u =>
      refine ⟨fun u' w' h => ?_, fun w' u' h => ?_⟩
      · simp only [getConnection_removeConnection] at h
        by_cases hu : u' = u
        · rw [if_pos hu] at h
          cases h
        · rw [if_neg hu] at h
          have hg := hs.gives u' w' h
          have hne : w' ≠ w := fun he => hu (Option.some.inj ((he ▸ hg : s.Open w u').symm.trans hw))
          unfold Server.Open
          simp only [Dict.get?_erase, if_neg hne]
          exact hg
      · unfold Server.Open at h
        simp only [Dict.get?_erase] at h
        split at h
        · cases h
        · exact hs.fresh w' u' h

theorem run_sound (es : List Event) : Sound (run step .init es) :=
  run_invariant (I := Sound) (fun _ e hs _ => step_sound hs e) init_sound (along_true _ es)

/-! ## The websocket that is given -/

/-- A user with an open websocket is given one of them, and a user without one none. -/
def Right (s : Server) : Prop :=
  ∀ u, match s.manager.getConnection u with
    | some w => s.Open w u
    | none => ∀ w, ¬s.Open w u

/-- A reply is dropped just where the user has no open websocket, and goes to one of the user's. -/
theorem Right.sendWsJson {α : Type*} {s : Server} (h : Right s) (u : Str) (data : α) :
    (sendWsJson s u data = none ↔ ∀ w, ¬s.Open w u) ∧
      ∀ w d, Websocket.sendWsJson s u data = some (w, d) → s.Open w u ∧ d = data := by
  have hu := h u
  unfold Websocket.sendWsJson
  cases hg : s.manager.getConnection u with
  | none =>
    simp only [hg] at hu
    exact ⟨iff_of_true rfl hu, fun _ _ h => nomatch h⟩
  | some w =>
    simp only [hg] at hu
    refine ⟨iff_of_false (Option.some_ne_none _) fun h => h w hu, fun w' d h => ?_⟩
    cases h
    exact ⟨hu, rfl⟩

/-- No websocket is closed while its user has another. -/
def Last (s : Server) : Event → Prop
  | .accept _ => True
  | .close w => ∀ u w', s.Open w u → s.Open w' u → w' = w

theorem right_init : Right .init := fun _ _ h => nomatch h

theorem right_accept {s : Server} (hs : Sound s) (hr : Right s) (u : Str) : Right (step s (.accept u)) := by
  intro u'
  have hget : (step s (.accept u)).manager.getConnection u' =
      if u' = u then some s.next else s.manager.getConnection u' := getConnection_addConnection ..
  have hu' := hr u'
  by_cases hu : u' = u
  · rw [hget, if_pos hu]
    exact (open_accept hs).mpr (.inl ⟨rfl, hu⟩)
  · rw [hget, if_neg hu]
    cases hg : s.manager.getConnection u' with
    | some w =>
      simp only [hg] at hu'
      exact (open_accept hs).mpr (.inr hu')
    | none =>
      simp only [hg] at hu'
      intro w hw
      rcases (open_accept hs).mp hw with ⟨-, rfl⟩ | hw
      · exact hu rfl
      · exact hu' w hw

theorem open_close {s : Server} {w w' : Nat} {u u' : Str} (hw : s.Open w u) :
    (step s (.close w)).Open w' u' ↔ w' ≠ w ∧ s.Open w' u' := by
  unfold Server.Open at hw ⊢
  simp only [step, hw, Dict.get?_erase]
  by_cases h : w' = w
  · simp [h]
  · simp [h]

/-- A closing websocket takes its user's entry with it. -/
theorem right_close {s : Server} (hr : Right s) {w : Nat} {u : Str} (hw : s.Open w u) :
    Right (step s (.close w)) ↔ ∀ w', s.Open w' u → w' = w := by
  have hget : ∀ u', (step s (.close w)).manager.getConnection u' =
      if u' = u then none else s.manager.getConnection u' := by
    intro u'
    have hw' : s.running.get? w = some u := hw
    simp only [step, hw', getConnection_removeConnection]
  constructor
  · intro h w' hw'
    have hu := h u
    rw [hget, if_pos rfl] at hu
    by_contra hne
    exact hu w' ((open_close hw).mpr ⟨hne, hw'⟩)
  · intro h u'
    rw [hget]
    by_cases hu : u' = u
    · rw [if_pos hu]
      intro w' hw'
      obtain ⟨hne, hw'⟩ := (open_close hw).mp hw'
      exact hne (h w' (hu ▸ hw'))
    · rw [if_neg hu]
      have hu' := hr u'
      cases hg : s.manager.getConnection u' with
      | some w' =>
        simp only [hg] at hu'
        refine (open_close hw).mpr ⟨fun he => hu ?_, hu'⟩
        exact Option.some.inj ((he ▸ hu' : s.Open w u').symm.trans hw)
      | none =>
        simp only [hg] at hu'
        exact fun w' hw' => hu' w' ((open_close hw).mp hw').2

theorem right_step {s : Server} (hs : Sound s) (hr : Right s) : ∀ e, Right (step s e) ↔ Last s e
  | .accept u => iff_of_true (right_accept hs hr u) trivial
  | .close w => by
    cases hw : s.running.get? w with
    | none =>
      refine iff_of_true (by simpa only [step, hw] using hr) fun u _ hu => ?_
      cases hw.symm.trans hu
    | some u =>
      rw [right_close hr hw]
      refine ⟨fun h u' w' hu' hw' => h w' ?_, fun h w' hw' => h u w' hw hw'⟩
      rwa [Option.some.inj (hw.symm.trans hu')]

/-- Every user is given an open websocket of theirs if they have one, throughout the run, just when no
websocket is closed while its user has another. -/
theorem get_connection_iff (es : List Event) : Throughout step Right .init es ↔ Along step Last .init es :=
  throughout_iff_along (fun _ e hs => step_sound hs e) (fun _ e hs hr => right_step hs hr e) init_sound right_init

/-- Two tabs of one user, of which the first is closed: the replies to the second are dropped. -/
theorem second_tab_is_lost :
    (run step .init [.accept "user".toList, .accept "user".toList, .close 0]).Open 1 "user".toList ∧
      sendWsJson (run step .init [.accept "user".toList, .accept "user".toList, .close 0]) "user".toList () = none := by
  decide

end KCore.Websocket
