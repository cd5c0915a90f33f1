import KCore.Lib.Run
import KCore.Lib.Serial
import Mathlib.Data.Fintype.Basic
import Mathlib.Logic.Function.Basic

/-!
# Interleaved calls on a shared state

A call reads the state once, which decides its answer and its writes, and then makes
these one by one (`Plan`). The steps of any number of calls come in any order (`World`). Where each call
reads what it would read if all writes begun were made, and writes what those before it leave alone (`InTurn`),
the state and the answers are those of the calls in the order of their reads (`explained_of_inTurn`). In any
order of the steps an invariant holds that every write keeps, where what the write needs is true after the
read and stays so under the writes of the others (`invariant_of_stable`).
-/

namespace Interleave

open Machine Serial

/-- What a call does after its read. -/
structure Plan (σ α : Type*) where
  writes : List (σ → σ)
  answer : α

variable {ι σ α : Type*}

def applyAll (fs : List (σ → σ)) (s : σ) : σ := fs.foldl (fun s f => f s) s

@[simp] theorem applyAll_nil (s : σ) : applyAll [] s = s := rfl

@[simp] theorem applyAll_cons (f : σ → σ) (fs : List (σ → σ)) (s : σ) : applyAll (f :: fs) s = applyAll fs (f s) := rfl

@[simp] theorem applyAll_append (fs gs : List (σ → σ)) (s : σ) : applyAll (fs ++ gs) s = applyAll gs (applyAll fs s) :=
  List.foldl_append ..

/-- The call alone. -/
def act (plan : ι → σ → Plan σ α) (i : ι) (s : σ) : σ × α := (applyAll (plan i s).writes s, (plan i s).answer)

/-! ## Steps in any order -/

/-- `phase i` is none before the read of the call, and then its answer with the writes that are left; `order` is the
calls that have read, one after another. -/
structure World (ι σ α : Type*) where
  state : σ
  phase : ι → Option (Plan σ α)
  order : List ι

def World.start (s : σ) : World ι σ α := ⟨s, fun _ => none, []⟩

/-- The writes that the call has left. -/
def World.left (w : World ι σ α) (i : ι) : List (σ → σ) := ((w.phase i).map Plan.writes).getD []

/-- All that is left to write. -/
def World.pending (w : World ι σ α) : List (σ → σ) := w.order.flatMap w.left

inductive Event (ι : Type*)
  | read (i : ι)
  | write (i : ι)

/-- Every call that has read has made its writes. -/
def Finished (w : World ι σ α) : Prop := ∀ i, ∀ p ∈ w.phase i, p.writes = []

instance [Fintype ι] (w : World ι σ α) : Decidable (Finished w) :=
  inferInstanceAs (Decidable (∀ i, ∀ p ∈ w.phase i, p.writes = []))

variable (plan : ι → σ → Plan σ α)

/-- A call reads once; a write that is not left changes nothing. -/
def step [DecidableEq ι] (w : World ι σ α) : Event ι → World ι σ α
  | .read i =>
    match w.phase i with
    | none => { w with phase := Function.update w.phase i (some (plan i w.state)), order := w.order ++ [i] }
    | some _ => w
  | .write i =>
    match w.phase i with
    | some ⟨f :: fs, a⟩ => { w with state := f w.state, phase := Function.update w.phase i (some ⟨fs, a⟩) }
    | _ => w

/-- A call that reads has no use of the writes that are left; a write does not meddle with those that are left of
earlier calls. -/
def InTurn (w : World ι σ α) : Event ι → Prop
  | .read i => w.phase i = none → plan i (applyAll w.pending w.state) = plan i w.state
  | .write i => ∀ before after f fs, w.order = before ++ i :: after → w.left i = f :: fs →
      applyAll (before.flatMap w.left) (f w.state) = f (applyAll (before.flatMap w.left) w.state)

/-- With all that is left to write, the calls have come in the order of their reads. -/
def Explained (start : σ) (w : World ι σ α) : Prop :=
  Explains (act plan) start w.order (applyAll w.pending w.state) fun i a => (w.phase i).map Plan.answer = some a

variable {plan} {start : σ} {w : World ι σ α}

theorem explained_start (start : σ) : Explained plan start (.start start) :=
  (explains_nil start).congr fun _ _ => iff_of_false nofun id

theorem Explained.phase_none (h : Explained plan start w) {i : ι} (hi : w.phase i = none) : i ∉ w.order :=
  h.notMem fun a ha => by rw [hi] at ha; cases ha

variable [DecidableEq ι]

theorem phase_update {i j : ι} {p q : Plan σ α} (h : Function.update w.phase i (some p) j = some q) :
    j = i ∧ p = q ∨ j ≠ i ∧ w.phase j = some q := by
  rw [Function.update_apply] at h
  split at h
  · exact .inl ⟨‹_›, Option.some.inj h⟩
  · exact .inr ⟨‹_›, h⟩

/-- The other calls have left what they had. -/
theorem flatMap_left_update {i : ι} {l : List ι} (hi : i ∉ l) (s : σ) (p : Plan σ α) (order : List ι) :
    l.flatMap (World.left ⟨s, Function.update w.phase i (some p), order⟩) = l.flatMap w.left := by
  refine List.flatMap_congr fun j hj => ?_
  have hne : j ≠ i := fun he => hi (he ▸ hj)
  simp only [World.left, Function.update_of_ne hne]

theorem left_update (i : ι) (s : σ) (p : Plan σ α) (order : List ι) :
    World.left ⟨s, Function.update w.phase i (some p), order⟩ i = p.writes := by
  simp only [World.left, Function.update_self]
  rfl

theorem Explained.read (h : Explained plan start w) (i : ι) (hturn : InTurn plan w (.read i)) :
    Explained plan start (step plan w (.read i)) := by
  rw [step]
  split
  · rename_i hi
    have hnew : i ∉ w.order := h.phase_none hi
    have hnext := Explains.next h (i := i) fun a ha => by rw [hi] at ha; cases ha
    rw [act, hturn hi] at hnext
    have hpending : World.pending ⟨w.state, Function.update w.phase i (some (plan i w.state)), w.order ++ [i]⟩ =
        w.pending ++ (plan i w.state).writes := by
      rw [World.pending, List.flatMap_append, flatMap_left_update hnew, List.flatMap_singleton, left_update]
      rfl
    refine ⟨hnext.nodup, ?_, fun j b => ?_⟩
    · rw [hpending, applyAll_append]
      exact hnext.state
    · rw [← hnext.answers]
      by_cases hj : j = i
      · subst hj
        simp [hi, eq_comm]
      · simp [hj]
  · exact h

theorem Explained.write (h : Explained plan start w) (i : ι) (hturn : InTurn plan w (.write i)) :
    Explained plan start (step plan w (.write i)) := by
  rw [step]
  split
  · rename_i f fs a hi
    have hleft : w.left i = f :: fs := by rw [World.left, hi]; rfl
    have hmem : i ∈ w.order := (h.places.1 i).mpr ⟨a, by rw [hi]; rfl⟩
    obtain ⟨before, after, horder⟩ := List.append_of_mem hmem
    have hnodup := h.nodup
    rw [horder, List.nodup_middle, List.nodup_cons, List.mem_append, not_or] at hnodup
    refine ⟨h.nodup, ?_, fun j b => ?_⟩
    · have hstate := h.state
      rw [hstate]
      simp only [World.pending, horder, List.flatMap_append, List.flatMap_cons, applyAll_append,
        flatMap_left_update hnodup.1.1, flatMap_left_update hnodup.1.2, left_update, hleft, applyAll_cons]
      rw [hturn before after f fs horder hleft]
    · rw [← h.answers]
      by_cases hj : j = i
      · subst hj
        simp [hi]
      · simp [hj]
  · exact h

theorem Explained.step (h : Explained plan start w) (e : Event ι) (hturn : InTurn plan w e) :
    Explained plan start (step plan w e) := by
  cases e with
  | read i => exact h.read i hturn
  | write i => exact h.write i hturn

omit [DecidableEq ι] in
/-- Once all is written, the state and the answers are those of the calls in the order of their reads. -/
theorem Explained.finished (h : Explained plan start w) (hdone : Finished w) : serve (act plan) start w.order = w.state := by
  have hpending : w.pending = [] := by
    refine List.flatMap_eq_nil_iff.mpr fun i _ => ?_
    rw [World.left]
    cases hi : w.phase i with
    | none => rfl
    | some p => exact hdone i p hi
  rw [h.state, hpending, applyAll_nil]

/-! ## Invariants -/

/-- `Q i fs s` is what the call `i` with the writes `fs` left needs of the state. -/
structure Ready (I : σ → Prop) (Q : ι → Plan σ α → σ → Prop) (w : World ι σ α) : Prop where
  state : I w.state
  left : ∀ i p, w.phase i = some p → Q i p w.state

/-- `R` is what a write may do to the state. -/
theorem ready_of_stable {I : σ → Prop} {Q : ι → Plan σ α → σ → Prop} {R : σ → σ → Prop}
    (hread : ∀ s i, I s → Q i (plan i s) s)
    (hwrite : ∀ s i f fs a, I s → Q i ⟨f :: fs, a⟩ s → I (f s) ∧ R s (f s) ∧ Q i ⟨fs, a⟩ (f s))
    (hstable : ∀ s s' i p, I s → I s' → R s s' → Q i p s → Q i p s') (h : Ready I Q w) (e : Event ι) :
    Ready I Q (step plan w e) := by
  cases e with
  | read i =>
    rw [step]
    cases hi : w.phase i with
    | some p => exact h
    | none =>
      refine ⟨h.state, fun j p hj => ?_⟩
      rcases phase_update hj with ⟨rfl, rfl⟩ | ⟨-, hj⟩
      · exact hread _ _ h.state
      · exact h.left j p hj
  | write i =>
    rw [step]
    split
    · rename_i f fs a hi
      obtain ⟨hs', hR, hfs⟩ := hwrite _ _ _ _ _ h.state (h.left i _ hi)
      refine ⟨hs', fun j p hj => ?_⟩
      rcases phase_update hj with ⟨rfl, rfl⟩ | ⟨-, hj⟩
      · exact hfs
      · exact hstable _ _ _ _ h.state hs' hR (h.left j p hj)
    · exact h

omit [DecidableEq ι] in
theorem ready_start {I : σ → Prop} {Q : ι → Plan σ α → σ → Prop} (h : I start) : Ready I Q (.start start) :=
  ⟨h, fun _ _ hp => by cases hp⟩

end Interleave
