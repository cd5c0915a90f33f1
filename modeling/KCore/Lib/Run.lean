import Mathlib.Data.List.Basic

/-!
# Runs of a step function

A machine is a function `step : σ → ε → σ` of a state and an event. `run` applies
a list of events; `Along P` says that each of them meets `P` in the state it is
taken in. An invariant that every such step keeps holds after the run
(`run_invariant`), and a relation to another machine that every such step keeps
holds between the two ends (`run_simulation`). Where each step keeps a property
just when it meets `P`, the property holds throughout a run just when every event
meets `P` (`throughout_iff_along`, `throughout_iff_of_invariant`).
-/

namespace Machine

variable {σ ε τ : Type*}

/-- The state after the events, in order. -/
def run (step : σ → ε → σ) (s : σ) (es : List ε) : σ := es.foldl step s

/-- Every event meets `P` in the state before it. -/
def Along (step : σ → ε → σ) (P : σ → ε → Prop) : σ → List ε → Prop
  | _, [] => True
  | s, e :: es => P s e ∧ Along step P (step s e) es

variable {step : σ → ε → σ} {P Q : σ → ε → Prop}

@[simp] theorem run_nil (s : σ) : run step s [] = s := rfl

@[simp] theorem run_cons (s : σ) (e : ε) (es : List ε) :
    run step s (e :: es) = run step (step s e) es := rfl

theorem run_append (s : σ) (es fs : List ε) : run step s (es ++ fs) = run step (run step s es) fs :=
  List.foldl_append ..

@[simp] theorem along_nil (s : σ) : Along step P s [] := trivial

@[simp] theorem along_cons (s : σ) (e : ε) (es : List ε) :
    Along step P s (e :: es) ↔ P s e ∧ Along step P (step s e) es := Iff.rfl

theorem along_true (s : σ) : ∀ es : List ε, Along step (fun _ _ => True) s es
  | [] => trivial
  | e :: es => ⟨trivial, along_true (step s e) es⟩

theorem along_of_forall {R : ε → Prop} (s : σ) : ∀ {es : List ε}, (∀ e ∈ es, R e) → Along step (fun _ e => R e) s es
  | [], _ => trivial
  | e :: _, h => ⟨h e (.head _), along_of_forall (step s e) fun e' he => h e' (.tail _ he)⟩

theorem along_append {s : σ} {es fs : List ε} :
    Along step P s (es ++ fs) ↔ Along step P s es ∧ Along step P (run step s es) fs := by
  induction es generalizing s with
  | nil => simp
  | cons e es ih => simp only [List.cons_append, along_cons, run_cons, ih, and_assoc]

theorem Along.mono (h : ∀ s e, P s e → Q s e) : ∀ {s : σ} {es : List ε}, Along step P s es → Along step Q s es
  | _, [], _ => trivial
  | _, _ :: _, hp => ⟨h _ _ hp.1, Along.mono h hp.2⟩

theorem Along.and : ∀ {s : σ} {es : List ε}, Along step P s es → Along step Q s es →
    Along step (fun s e => P s e ∧ Q s e) s es
  | _, [], _, _ => trivial
  | _, _ :: _, hp, hq => ⟨⟨hp.1, hq.1⟩, Along.and hp.2 hq.2⟩

instance decidableAlong [∀ s e, Decidable (P s e)] : ∀ (s : σ) (es : List ε), Decidable (Along step P s es)
  | _, [] => .isTrue trivial
  | s, e :: es =>
    have := decidableAlong (step s e) es
    inferInstanceAs (Decidable (P s e ∧ Along step P (step s e) es))

/-- An invariant of every step that meets `P`, after a run of them. -/
theorem run_invariant {I : σ → Prop} (hI : ∀ s e, I s → P s e → I (step s e)) {s : σ} {es : List ε}
    (h : I s) (hp : Along step P s es) : I (run step s es) := by
  induction es generalizing s with
  | nil => exact h
  | cons e es ih => exact ih (hI s e h hp.1) hp.2

/-- What every step that meets `P` does under an invariant, it does along a run of them. -/
theorem Along.of_invariant {I : σ → Prop} (hI : ∀ s e, I s → P s e → I (step s e))
    (hQ : ∀ s e, I s → P s e → Q s e) : ∀ {s : σ} {es : List ε}, I s → Along step P s es → Along step Q s es
  | _, [], _, _ => trivial
  | s, e :: _, hs, hp => ⟨hQ s e hs hp.1, Along.of_invariant hI hQ (hI s e hs hp.1) hp.2⟩

/-- A relation to a second machine, taking the same events, after a run of both. -/
theorem run_simulation {step' : τ → ε → τ} {R : σ → τ → Prop}
    (hR : ∀ s t e, R s t → P s e → R (step s e) (step' t e)) {s : σ} {t : τ} {es : List ε}
    (h : R s t) (hp : Along step P s es) : R (run step s es) (run step' t es) := by
  induction es generalizing s t with
  | nil => exact h
  | cons e es ih => exact ih (hR s t e h hp.1) hp.2

/-- `G` holds in every state of the run, the first and the last among them. -/
def Throughout (step : σ → ε → σ) (G : σ → Prop) (s : σ) (es : List ε) : Prop :=
  ∀ fs, fs <+: es → G (run step s fs)

theorem throughout_nil {G : σ → Prop} {s : σ} : Throughout step G s [] ↔ G s :=
  ⟨fun h => h [] (List.prefix_refl []), fun h fs hfs => by rwa [List.prefix_nil.mp hfs]⟩

theorem throughout_cons {G : σ → Prop} {s : σ} {e : ε} {es : List ε} :
    Throughout step G s (e :: es) ↔ G s ∧ Throughout step G (step s e) es := by
  refine ⟨fun h => ⟨h [] List.nil_prefix, fun fs hfs => h (e :: fs) ?_⟩, fun ⟨h, hs⟩ fs hfs => ?_⟩
  · exact (List.prefix_cons_inj e).mpr hfs
  · cases fs with
    | nil => exact h
    | cons f fs =>
      obtain ⟨rfl, hrest⟩ := List.cons_prefix_cons.mp hfs
      exact hs fs hrest

/-- What an invariant of the steps of a run gives holds throughout it. -/
theorem throughout_of_along {I G : σ → Prop} (hG : ∀ s, I s → G s) (hI : ∀ s e, I s → P s e → I (step s e)) {s : σ}
    {es : List ε} (hs : I s) (h : Along step P s es) : Throughout step G s es := by
  rintro fs ⟨rest, rfl⟩
  exact hG _ (run_invariant hI hs (along_append.mp h).1)

/-- Where `G` follows from an invariant of the steps that meet `P`, and no other step ends in `G`, it holds throughout
the runs of such steps. -/
theorem throughout_iff_of_invariant {I G : σ → Prop} (hG : ∀ s, I s → G s) (hI : ∀ s e, I s → P s e → I (step s e))
    (hP : ∀ s e, I s → G (step s e) → P s e) {s : σ} {es : List ε} (hs : I s) :
    Throughout step G s es ↔ Along step P s es := by
  induction es generalizing s with
  | nil => simp [throughout_nil, hG s hs]
  | cons e es ih =>
    rw [throughout_cons, along_cons]
    constructor
    · intro ⟨_, h⟩
      have he : P s e := hP s e hs (h [] List.nil_prefix)
      exact ⟨he, (ih (hI s e hs he)).mp h⟩
    · exact fun ⟨he, h⟩ => ⟨hG s hs, (ih (hI s e hs he)).mpr h⟩

/-- The steps that keep `G`, under the invariant `I`, are those that meet `P`. -/
theorem throughout_iff_along {I G : σ → Prop} (hI : ∀ s e, I s → I (step s e))
    (hG : ∀ s e, I s → G s → (G (step s e) ↔ P s e)) {s : σ} {es : List ε} (hs : I s) (hg : G s) :
    Throughout step G s es ↔ Along step P s es := by
  refine throughout_iff_of_invariant (I := fun s => I s ∧ G s) (fun _ h => h.2) (fun s e h he => ?_) (fun s e h he => ?_)
    ⟨hs, hg⟩
  · exact ⟨hI s e h.1, (hG s e h.1 h.2).mpr he⟩
  · exact (hG s e h.1 h.2).mp he

end Machine
