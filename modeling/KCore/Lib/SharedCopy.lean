import KCore.Lib.Run
import KCore.Lib.Serial
import Mathlib.Data.Fintype.Basic
import Mathlib.Logic.Function.Basic

/-!
# Calls on a copy that they share

A store that is read whole and written whole, behind a cache. A call gets the copy that is cached, or a new one of
what is stored; it checks that copy, and then changes it in place and stores it, which empties the
cache. So the calls that read between two writes share one copy, and a change may be on a copy that is out of
date, or that has changed since it was checked. Where neither is the case (`Current`), what is
stored and the answers are those of some order of the calls (`explained_of_current`).
-/

namespace SharedCopy

open Machine Serial

/-- After the check. What a change gives is stored, if it gives a value. -/
inductive Decision (σ α : Type*)
  | reject (a : α)
  | change (f : σ → Option σ × α)

variable {ι σ α : Type*}

/-- The call alone. -/
def act (plan : ι → σ → Decision σ α) (i : ι) (s : σ) : σ × α :=
  match plan i s with
  | .reject a => (s, a)
  | .change f => ((f s).1.getD s, (f s).2)

inductive Phase (σ α : Type*)
  | idle
  | read (copy : ℕ)
  | checked (copy : ℕ) (f : σ → Option σ × α)
  | done (a : α)

/-- The copies from `next` on have not been made. -/
structure World (ι σ α : Type*) where
  stored : σ
  copies : ℕ → σ
  next : ℕ
  cached : Option ℕ
  phase : ι → Phase σ α

def World.start (s : σ) : World ι σ α := ⟨s, fun _ => s, 0, none, fun _ => .idle⟩

/-- `drop` is the cache emptied by something else. -/
inductive Event (ι : Type*)
  | read (i : ι)
  | check (i : ι)
  | write (i : ι)
  | drop

section

variable [DecidableEq ι] (plan : ι → σ → Decision σ α)

def World.goes (w : World ι σ α) (i : ι) (p : Phase σ α) : World ι σ α := { w with phase := Function.update w.phase i p }

/-- A step that is not the call's next one changes nothing. -/
def step (w : World ι σ α) : Event ι → World ι σ α
  | .read i =>
    match w.phase i, w.cached with
    | .idle, some c => w.goes i (.read c)
    | .idle, none =>
      { w with copies := Function.update w.copies w.next w.stored, next := w.next + 1, cached := some w.next }.goes i
        (.read w.next)
    | _, _ => w
  | .check i =>
    match w.phase i with
    | .read c =>
      match plan i (w.copies c) with
      | .reject a => w.goes i (.done a)
      | .change f => w.goes i (.checked c f)
    | _ => w
  | .write i =>
    match w.phase i with
    | .checked c f =>
      match f (w.copies c) with
      | (some s, a) => { w with stored := s, copies := Function.update w.copies c s, cached := none }.goes i (.done a)
      | (none, a) => w.goes i (.done a)
    | _ => w
  | .drop => { w with cached := none }

end

/-- The copy that is changed is what is stored, and the call still passes its check there. -/
def Current (plan : ι → σ → Decision σ α) (w : World ι σ α) : Event ι → Prop
  | .write i => ∀ c f, w.phase i = .checked c f → w.copies c = w.stored ∧ plan i w.stored = .change f
  | _ => True

/-- Every call that has read has an answer. -/
def Finished (w : World ι σ α) : Prop := ∀ i, w.phase i = .idle ∨ ∃ a, w.phase i = .done a

variable {plan : ι → σ → Decision σ α} {start : σ} {w : World ι σ α}

/-- Every copy is what was stored at some point of the order. -/
structure Inv (plan : ι → σ → Decision σ α) (start : σ) (w : World ι σ α) (order : List ι) : Prop where
  explains : Explains (act plan) start order w.stored fun i a => w.phase i = .done a
  copies : ∀ c, ∃ before after, order = before ++ after ∧ w.copies c = serve (act plan) start before

theorem inv_start (start : σ) : Inv plan start (.start start) [] where
  explains := (explains_nil start).congr fun _ _ => iff_of_false nofun id
  copies _ := ⟨[], [], rfl, rfl⟩

variable [DecidableEq ι]

/-- The answers after a step of a call that has none. -/
theorem done_update {i : ι} (hi : ∀ a, w.phase i ≠ .done a) (p : Phase σ α) (j : ι) (b : α) :
    Function.update w.phase i p j = .done b ↔ w.phase j = .done b ∨ j = i ∧ p = .done b := by
  by_cases hj : j = i
  · subst hj
    simp [hi]
  · simp [hj]

theorem Inv.goes {order : List ι} (h : Inv plan start w order) {i : ι} (hi : ∀ a, w.phase i ≠ .done a) {p : Phase σ α}
    (hp : ∀ a, p ≠ .done a) : Inv plan start (w.goes i p) order where
  explains := h.explains.congr fun j b => (done_update hi p j b).trans (or_iff_left fun h => hp b h.2)
  copies := h.copies

theorem Inv.read {order : List ι} (h : Inv plan start w order) (i : ι) : Inv plan start (step plan w (.read i)) order := by
  rw [step]
  split
  · exact h.goes (‹w.phase i = _› ▸ nofun) nofun
  · have hnew : Inv plan start
        { w with copies := Function.update w.copies w.next w.stored, next := w.next + 1, cached := some w.next } order := by
      refine ⟨h.explains, fun c => ?_⟩
      by_cases hc : c = w.next
      · refine ⟨order, [], (List.append_nil order).symm, ?_⟩
        rw [hc, h.explains.state]
        exact Function.update_self ..
      · obtain ⟨before, after, horder, hcopy⟩ := h.copies c
        exact ⟨before, after, horder, (Function.update_of_ne hc ..).trans hcopy⟩
    exact hnew.goes (‹w.phase i = _› ▸ nofun) nofun
  · exact h

/-- A call that is rejected was served when what it has read was stored. -/
theorem Inv.check {order : List ι} (h : Inv plan start w order) (i : ι) :
    ∃ order', Inv plan start (step plan w (.check i)) order' := by
  rw [step]
  split
  · rename_i c hi
    have hi' : ∀ a, w.phase i ≠ .done a := hi ▸ nofun
    split
    · rename_i a ha
      obtain ⟨before, after, rfl, hc⟩ := h.copies c
      have hquiet : act plan i (serve (act plan) start before) = (serve (act plan) start before, a) := by
        rw [act, ← hc, ha]
      refine ⟨before ++ i :: after, (h.explains.insert hi' hquiet).congr fun j b => ?_, fun c' => ?_⟩
      · rw [World.goes, done_update hi', Phase.done.injEq, @eq_comm _ a b]
      obtain ⟨before', after', horder, hc'⟩ := h.copies c'
      rcases List.append_eq_append_iff.mp horder with ⟨mid, rfl, rfl⟩ | ⟨mid, rfl, rfl⟩
      · refine ⟨before ++ i :: mid, after', by simp, ?_⟩
        rw [World.goes, hc', serve_append, serve_append, serve_cons, hquiet]
      · exact ⟨before', mid ++ i :: after, by simp, hc'⟩
    · exact ⟨order, h.goes hi' nofun⟩
  · exact ⟨order, h⟩

theorem Inv.write {order : List ι} (h : Inv plan start w order) (i : ι) (hcurrent : Current plan w (.write i)) :
    ∃ order', Inv plan start (step plan w (.write i)) order' := by
  rw [step]
  split
  · rename_i c f hi
    have hi' : ∀ a, w.phase i ≠ .done a := hi ▸ nofun
    obtain ⟨hc, hplan⟩ := hcurrent c f hi
    have hact : act plan i w.stored = ((f w.stored).1.getD w.stored, (f w.stored).2) := by
      rw [act, hplan]
    have hnext := h.explains.next hi'
    rw [hact] at hnext
    have hextend (c' : ℕ) :
        ∃ before after, order ++ [i] = before ++ after ∧ w.copies c' = serve (act plan) start before := by
      obtain ⟨before, after, rfl, hc'⟩ := h.copies c'
      exact ⟨before, after ++ [i], List.append_assoc .., hc'⟩
    rw [hc]
    split
    · rename_i s a hf
      rw [hf] at hnext
      refine ⟨order ++ [i], hnext.congr fun j b => ?_, fun c' => ?_⟩
      · simp only [World.goes, done_update hi', Phase.done.injEq, @eq_comm _ a b]
      · by_cases hc' : c' = c
        · refine ⟨order ++ [i], [], (List.append_nil _).symm, ?_⟩
          rw [hc', hnext.state]
          exact Function.update_self ..
        · obtain ⟨before, after, horder, hcopy⟩ := hextend c'
          exact ⟨before, after, horder, (Function.update_of_ne hc' ..).trans hcopy⟩
    · rename_i a hf
      rw [hf] at hnext
      refine ⟨order ++ [i], hnext.congr fun j b => ?_, hextend⟩
      rw [World.goes, done_update hi', Phase.done.injEq, @eq_comm _ a b]
  · exact ⟨order, h⟩

/-- Where every change is made on what is stored, and to what its call has checked, the calls that are done came one
after another. -/
theorem explained_of_current {es : List (Event ι)} (h : Along (step plan) (Current plan) (.start start) es) :
    ∃ order, Explains (act plan) start order (run (step plan) (.start start) es).stored
      fun i a => (run (step plan) (.start start) es).phase i = .done a := by
  have hinv : ∃ order, Inv plan start (run (step plan) (.start start) es) order := by
    refine run_invariant (I := fun w => ∃ order, Inv plan start w order) (fun w e ⟨order, hw⟩ he => ?_)
      ⟨[], inv_start start⟩ h
    cases e with
    | read i => exact ⟨order, hw.read i⟩
    | check i => exact hw.check i
    | write i => exact hw.write i he
    | drop => exact ⟨order, hw.explains, hw.copies⟩
  obtain ⟨order, hinv⟩ := hinv
  exact ⟨order, hinv.explains⟩

end SharedCopy
