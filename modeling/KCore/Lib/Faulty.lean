import Mathlib.Logic.Basic

/-!
# Programs whose calls may fail

A `Prog` works on a state that is kept elsewhere, through calls. A list of faults says how
the calls to come go: each may raise before it has its effect, or after it. A `Triple` says
in which states a program returns and in which it raises, for every list of faults, or for
none; it has a rule for each way to build a program.
-/

namespace Faulty

/-- How a call goes. -/
inductive Fault
  | none
  | before
  | after
  deriving DecidableEq

/-- The result, `none` where the program raises, the state and the faults of the calls to come, which go well after
the list. -/
def Prog (σ α : Type*) := σ → List Fault → Option α × σ × List Fault

universe u

variable {σ : Type*} {α β : Type u}

instance : Monad (Prog σ) where
  pure a s fs := (some a, s, fs)
  bind m f s fs :=
    match m s fs with
    | (some a, s, fs) => f a s fs
    | (none, s, fs) => (none, s, fs)

/-- `f` is refused in a state where it is `none`. -/
def call (f : σ → Option (σ × α)) : Prog σ α := fun s fs =>
  match f s, fs with
  | none, fs => (none, s, fs.tail)
  | some (s', a), [] => (some a, s', [])
  | some (s', a), .none :: fs => (some a, s', fs)
  | some _, .before :: fs => (none, s, fs)
  | some (s', _), .after :: fs => (none, s', fs)

/-- A call that changes nothing. -/
def read (f : σ → Option α) : Prog σ α := call fun s => (f s).map fun a => (s, a)

/-- The program raises itself. -/
def raise : Prog σ α := fun s fs => (none, s, fs)

/-- `try: m`, `except: cleanup; raise`. -/
def onRaise (m : Prog σ α) (cleanup : Prog σ Unit) : Prog σ α := fun s fs =>
  match m s fs with
  | (some a, s, fs) => (some a, s, fs)
  | (none, s, fs) => (none, (cleanup s fs).2)

/-! ## Triples -/

/-- From a state in `P`, with any faults or with none, the program ends in `Q` where it returns and in `E` where it
raises. -/
def Triple (faulty : Bool) (P : σ → Prop) (m : Prog σ α) (Q : α → σ → Prop) (E : σ → Prop) : Prop :=
  ∀ s fs, (faulty = true ∨ fs = []) → P s →
    (fs = [] → (m s fs).2.2 = []) ∧
      match m s fs with
      | (some a, s', _) => Q a s'
      | (none, s', _) => E s'

variable {faulty : Bool} {P P' : σ → Prop} {m : Prog σ α} {Q Q' : α → σ → Prop} {E E' : σ → Prop}

theorem Triple.pure (a : α) : Triple faulty (Q a) (Pure.pure a : Prog σ α) Q E := fun _ _ _ h => ⟨fun hfs => hfs, h⟩

theorem Triple.skip {P E : σ → Prop} : Triple faulty P (Pure.pure () : Prog σ Unit) (fun _ => P) E :=
  fun _ _ _ h => ⟨fun hfs => hfs, h⟩

theorem Triple.raise : Triple faulty E (Faulty.raise : Prog σ α) Q E := fun _ _ _ h => ⟨fun hfs => hfs, h⟩

theorem Triple.bind {f : α → Prog σ β} {R : β → σ → Prop} (hm : Triple faulty P m Q E)
    (hf : ∀ a, Triple faulty (Q a) (f a) R E) : Triple faulty P (m >>= f) R E := by
  intro s fs hfs hs
  obtain ⟨hnil, hend⟩ := hm s fs hfs hs
  simp only [Bind.bind]
  generalize m s fs = r at hnil hend ⊢
  match r with
  | (some a, s', fs') =>
    obtain ⟨hnil', hend'⟩ := hf a s' fs' (hfs.imp_right hnil) hend
    exact ⟨fun h => hnil' (hnil h), hend'⟩
  | (none, s', fs') => exact ⟨hnil, hend⟩

theorem Triple.call {f : σ → Option (σ × α)}
    (h : ∀ s, P s → match f s with
      | none => E s
      | some (s', a) => Q a s' ∧ (faulty = true → E s ∧ E s')) : Triple faulty P (Faulty.call f) Q E := by
  intro s fs hfs hs
  have hcall := h s hs
  cases hf : f s with
  | none =>
    rw [hf] at hcall
    simp only [Faulty.call, hf]
    exact ⟨fun hnil => by rw [hnil]; rfl, hcall⟩
  | some r =>
    obtain ⟨s', a⟩ := r
    rw [hf] at hcall
    simp only [Faulty.call, hf]
    match fs, hfs with
    | [], _ => exact ⟨fun _ => rfl, hcall.1⟩
    | .none :: fs, _ => exact ⟨nofun, hcall.1⟩
    | .before :: fs, hfs => exact ⟨nofun, (hcall.2 (hfs.resolve_right nofun)).1⟩
    | .after :: fs, hfs => exact ⟨nofun, (hcall.2 (hfs.resolve_right nofun)).2⟩

theorem Triple.read {f : σ → Option α}
    (h : ∀ s, P s → match f s with
      | none => E s
      | some a => Q a s ∧ (faulty = true → E s)) : Triple faulty P (Faulty.read f) Q E := by
  refine Triple.call fun s hs => ?_
  have hread := h s hs
  cases hf : f s with
  | none =>
    rw [hf] at hread
    exact hread
  | some a =>
    rw [hf] at hread
    exact ⟨hread.1, fun hfault => ⟨hread.2 hfault, hread.2 hfault⟩⟩

theorem Triple.onRaise {cleanup : Prog σ Unit} (hm : Triple faulty P m Q E')
    (hcleanup : Triple faulty E' cleanup (fun _ => E) E) : Triple faulty P (Faulty.onRaise m cleanup) Q E := by
  intro s fs hfs hs
  obtain ⟨hnil, hend⟩ := hm s fs hfs hs
  simp only [Faulty.onRaise]
  generalize m s fs = r at hnil hend ⊢
  match r with
  | (some a, s', fs') => exact ⟨hnil, hend⟩
  | (none, s', fs') =>
    obtain ⟨hnil', hend'⟩ := hcleanup s' fs' (hfs.imp_right hnil) hend
    show (fs = [] → (cleanup s' fs').2.2 = []) ∧ E (cleanup s' fs').2.1
    refine ⟨fun h => hnil' (hnil h), ?_⟩
    generalize cleanup s' fs' = r' at hend' ⊢
    match r' with
    | (some _, _, _) => exact hend'
    | (none, _, _) => exact hend'

theorem Triple.mono (hm : Triple faulty P m Q E) (hP : ∀ s, P' s → P s) (hQ : ∀ a s, Q a s → Q' a s)
    (hE : ∀ s, E s → E' s) : Triple faulty P' m Q' E' := by
  intro s fs hfs hs
  obtain ⟨hnil, hend⟩ := hm s fs hfs (hP s hs)
  refine ⟨hnil, ?_⟩
  generalize m s fs = r at hend ⊢
  match r with
  | (some a, s', _) => exact hQ a s' hend
  | (none, s', _) => exact hE s' hend

theorem Triple.ite {c : Prop} [Decidable c] {m' : Prog σ α} (ht : c → Triple faulty P m Q E)
    (hf : ¬c → Triple faulty P m' Q E) : Triple faulty P (if c then m else m') Q E := by
  split
  · exact ht ‹c›
  · exact hf ‹¬c›

/-- What the state before gives and does not depend on the state. -/
theorem Triple.keep {p : Prop} (hp : ∀ s, P s → p) (h : p → Triple faulty P m Q E) : Triple faulty P m Q E :=
  fun s fs hfs hs => h (hp s hs) s fs hfs hs

theorem Triple.exists {ι : Sort*} {P : ι → σ → Prop} (h : ∀ i, Triple faulty (P i) m Q E) :
    Triple faulty (fun s => ∃ i, P i s) m Q E := fun s fs hfs ⟨i, hi⟩ => h i s fs hfs hi

/-- The program returned and ended in `Q`, or raised and ended in `E`. -/
theorem Triple.ends (hm : Triple faulty P m Q E) {s : σ} (fs : List Fault) (hfs : faulty = true ∨ fs = []) (hs : P s) :
    (∃ a, (m s fs).1 = some a ∧ Q a (m s fs).2.1) ∨ (m s fs).1 = none ∧ E (m s fs).2.1 := by
  have hend := (hm s fs hfs hs).2
  generalize m s fs = r at hend ⊢
  match r with
  | (some a, _, _) => exact .inl ⟨a, rfl, hend⟩
  | (none, _, _) => exact .inr ⟨rfl, hend⟩

end Faulty
