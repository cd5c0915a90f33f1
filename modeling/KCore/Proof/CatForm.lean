import KCore.Lib.Run
import KCore.Impl.CatForm

/-!
# Forms submit once, and what was validated

The events of a run of turns are kept in a log. `Outcome` says what one turn can
do to the form and add to the log (`next_outcome`); from it follows the invariant
of a run, `Inv`, and from that `form_run_ok`: at most one submission, of data
that passed validation and was not changed after, confirmed where the form asks.
-/

namespace KCore.CatForm

open Text

variable {N : Type*}

/-! ## Logs -/

def Event.isTurn : Event N → Bool
  | .turn _ => true
  | _ => false

def Event.isChanged : Event N → Bool
  | .changed _ => true
  | _ => false

def Event.isSubmitted : Event N → Bool
  | .submitted _ => true
  | _ => false

/-- `d` passed validation, and the data was not changed after. -/
def Settled (d : Dict Str (Json N)) (log : List (Event N)) : Prop :=
  ∃ l₁ l₂, log = l₁ ++ .validated d :: l₂ ∧ ∀ e ∈ l₂, e.isChanged = false

/-- The last turn began in WAIT_CONFIRM, and `confirm` returned true in it. -/
def Confirmed (log : List (Event N)) : Prop :=
  ∃ l₁ l₂, log = l₁ ++ .turn .waitConfirm :: l₂ ∧ .confirmed ∈ l₂ ∧ ∀ e ∈ l₂, e.isTurn = false

/-- Every submission is of settled data, and confirmed where the form asks. -/
def Good (cls : Class) (log : List (Event N)) : Prop :=
  ∀ l₁ d l₂, log = l₁ ++ .submitted d :: l₂ → Settled d l₁ ∧ (cls.askConfirm = true → Confirmed l₁)

/-- Events of a turn that neither submit nor begin another. -/
def Quiet (log : List (Event N)) : Prop := ∀ e ∈ log, e.isSubmitted = false ∧ e.isTurn = false

theorem Settled.append {d : Dict Str (Json N)} {log new : List (Event N)} (h : Settled d log)
    (hn : ∀ e ∈ new, e.isChanged = false) : Settled d (log ++ new) := by
  obtain ⟨l₁, l₂, rfl, h⟩ := h
  refine ⟨l₁, l₂ ++ new, by simp, fun e he => ?_⟩
  exact (List.mem_append.mp he).elim (h e) (hn e)

theorem Settled.of_append {d : Dict Str (Json N)} {log new : List (Event N)} (h : Settled d new) :
    Settled d (log ++ new) := by
  obtain ⟨l₁, l₂, rfl, h⟩ := h
  exact ⟨log ++ l₁, l₂, by simp, h⟩

theorem Good.append {cls : Class} {log new : List (Event N)} (h : Good cls log)
    (hn : ∀ l₁ d l₂, new = l₁ ++ .submitted d :: l₂ →
      Settled d (log ++ l₁) ∧ (cls.askConfirm = true → Confirmed (log ++ l₁))) : Good cls (log ++ new) := by
  intro l₁ d l₂ heq
  rcases List.append_eq_append_iff.mp heq with ⟨u, rfl, hu⟩ | ⟨u, rfl, hu⟩
  · exact hn u d l₂ hu
  · cases u with
    | nil =>
      have := hn [] d l₂ (by simpa using hu.symm)
      simpa using this
    | cons e u =>
      rw [List.cons_append, List.cons.injEq] at hu
      obtain ⟨rfl, -⟩ := hu
      exact h l₁ d u rfl

theorem Good.append_quiet {cls : Class} {log new : List (Event N)} (h : Good cls log)
    (hn : ∀ e ∈ new, e.isSubmitted = false) : Good cls (log ++ new) := by
  refine h.append fun l₁ d l₂ heq => ?_
  exact absurd (hn (.submitted d) (heq ▸ by simp)) (by simp [Event.isSubmitted])

/-! ## Updates -/

theorem collectErrors_ok (f : Form N) (es : List FieldError) :
    (collectErrors f es).1.state = f.state ∧ Quiet (collectErrors f es).2.1 := by
  induction es generalizing f with
  | nil => exact ⟨rfl, fun e he => by cases he⟩
  | cons e es ih =>
    rw [collectErrors]
    cases e.loc with
    | nil => exact ⟨rfl, fun e he => by cases he⟩
    | cons fieldName _ =>
      dsimp only
      split
      · exact ih _
      · split
        · obtain ⟨hs, hq⟩ := ih { f with
            errors := f.errors ++ [fieldName ++ ": ".toList ++ e.msg]
            model := f.model.erase fieldName }
          refine ⟨hs, fun ev hev => ?_⟩
          rcases List.mem_cons.mp hev with rfl | hev
          · exact ⟨rfl, rfl⟩
          · exact hq ev hev
        · exact ⟨rfl, fun e he => by cases he⟩

/-- An update completes the form with data that passed, or leaves it incomplete. -/
theorem update_ok (t : Turn N) {f : Form N} (hf : f.state = .incomplete) :
    Quiet (update t f).2.1 ∧ ((update t f).1.state = .incomplete ∨ (update t f).2.2 = true ∧
      (update t f).1.state = .complete ∧ Settled (update t f).1.model (update t f).2.1) := by
  have hnil : Quiet ([] : List (Event N)) := fun e he => by cases he
  have hcons {d : Dict Str (Json N)} {log : List (Event N)} (h : Quiet log) : Quiet (.changed d :: log) := fun e he => by
    rcases List.mem_cons.mp he with rfl | he
    · exact ⟨rfl, rfl⟩
    · exact h e he
  rw [update]
  cases (extract t).bind sanitize with
  | none => exact ⟨hnil, .inl hf⟩
  | some jsonDetails =>
    dsimp only
    rw [validate]
    dsimp only
    cases t.validate (f.model.merge jsonDetails) with
    | valid =>
      refine ⟨hcons fun e he => ?_, .inr ⟨rfl, rfl, [_], [], rfl, fun e he => by cases he⟩⟩
      rw [List.mem_singleton.mp he]
      exact ⟨rfl, rfl⟩
    | raises => exact ⟨hcons hnil, .inl hf⟩
    | errors es =>
      obtain ⟨hs, hq⟩ := collectErrors_ok
        { f with model := f.model.merge jsonDetails, missingFields := [], errors := [] } es
      dsimp only
      split
      · exact ⟨hcons hq, .inl rfl⟩
      · exact ⟨hcons hq, .inl (hs.trans hf)⟩

/-! ## Turns -/

/-- What a turn can come to from its second exit check on, and the events it adds. -/
inductive Outcome (cls : Class) (f : Form N) : Form N → List (Event N) → Prop
  | incomplete {f' : Form N} {log : List (Event N)} (hq : Quiet log) (hs : f'.state = .incomplete)
      (hf : f.state ≠ .closed) : Outcome cls f f' log
  | closed {f' : Form N} {log : List (Event N)} (hq : Quiet log) (hs : f'.state = .closed) : Outcome cls f f' log
  | asks {f' : Form N} {log : List (Event N)} (hq : Quiet log) (hs : f'.state = .waitConfirm)
      (hd : Settled f'.model log) (hf : f.state ≠ .closed) : Outcome cls f f' log
  | submits {f' : Form N} {d : Dict Str (Json N)} {log : List (Event N)} (hq : Quiet log) (hs : f'.state = .closed)
      (hd : Settled d log) (hc : cls.askConfirm = false) (hf : f.state ≠ .closed) :
      Outcome cls f f' (log ++ [.submitted d])

theorem Outcome.of_open {cls : Class} {f g f' : Form N} {log : List (Event N)} (h : Outcome cls f f' log)
    (hg : g.state ≠ .closed) : Outcome cls g f' log := by
  cases h with
  | incomplete hq hs => exact .incomplete hq hs hg
  | closed hq hs => exact .closed hq hs
  | asks hq hs hd => exact .asks hq hs hd hg
  | submits hq hs hd hc => exact .submits hq hs hd hc hg

/-- What holds of a form and its log between turns. -/
structure Inv (cls : Class) (s : Form N × List (Event N)) : Prop where
  state : s.1.state ≠ .complete
  settled : s.1.state = .waitConfirm → Settled s.1.model s.2
  unsubmitted : s.1.state ≠ .closed → s.2.countP Event.isSubmitted = 0
  once : s.2.countP Event.isSubmitted ≤ 1
  good : Good cls s.2

theorem Inv.init (cls : Class) : Inv cls ((Form.init : Form N), []) where
  state := fun h => by cases h
  settled := fun h => by cases h
  unsubmitted := fun _ => rfl
  once := Nat.zero_le 1
  good := fun l₁ d l₂ h => by simp at h

theorem Quiet.countP {log : List (Event N)} (h : Quiet log) : log.countP Event.isSubmitted = 0 :=
  List.countP_eq_zero.mpr fun e he => by simp [(h e he).1]

theorem Quiet.good {cls : Class} {log new : List (Event N)} (h : Good cls log) (hq : Quiet new) (st : State) :
    Good cls (log ++ .turn st :: new) := h.append_quiet fun e he => by
  rcases List.mem_cons.mp he with rfl | he
  · rfl
  · exact (hq e he).1

section
variable [Numeral N]

theorem proceed_outcome (cls : Class) (t : Turn N) {f : Form N} (hf : f.state = .incomplete ∨ f.state = .closed) :
    Outcome cls f (proceed cls t f).1 (proceed cls t f).2.1 := by
  have hnil : Quiet ([] : List (Event N)) := fun e he => by cases he
  have hstay : Outcome cls f f [] := by
    rcases hf with hf | hf
    · exact .incomplete hnil hf (by rw [hf]; decide)
    · exact .closed hnil hf
  rw [proceed]
  cases t.exit with
  | none => exact hstay
  | some response =>
    dsimp only
    by_cases ha : agrees response = true
    · simp only [ha, ite_true, reduceCtorEq, ite_false]
      exact .closed hnil rfl
    · simp only [ha, Bool.false_eq_true, ite_false]
      rcases hf with hf | hf
      · obtain ⟨hq, hu⟩ := update_ok t hf
        have hne : f.state ≠ .closed := by rw [hf]; decide
        simp only [hf, ite_true]
        generalize update t f = u at hq hu
        obtain ⟨f', log, ok⟩ := u
        dsimp only at hq hu
        rcases hu with hu | ⟨rfl, hu, hd⟩
        · cases ok <;> simp only [hu, Bool.false_eq_true, ite_true, reduceCtorEq, ite_false] <;>
            exact .incomplete hq hu hne
        · simp only [hu, ite_true]
          by_cases hask : cls.askConfirm = true
          · simp only [hask, ite_true]
            exact .asks hq rfl hd hne
          · simp only [hask]
            exact .submits hq rfl hd (by simpa using hask) hne
      · simp only [hf, reduceCtorEq, ite_false, ite_true]
        exact hstay

/-- What a turn can come to: nothing but its beginning, a confirmed submission, or an `Outcome`. -/
theorem next_outcome (cls : Class) (t : Turn N) {f : Form N} (hf : f.state ≠ .complete) :
    ((next cls t f).1 = f ∧ (next cls t f).2.1 = [.turn f.state]) ∨
    (f.state = .waitConfirm ∧ (next cls t f).1.state = .closed ∧
      (next cls t f).2.1 = [.turn .waitConfirm, .confirmed, .submitted f.model]) ∨
    ∃ new, (next cls t f).2.1 = .turn f.state :: new ∧ Outcome cls f (next cls t f).1 new := by
  rw [next]
  by_cases hw : f.state = .waitConfirm
  · rw [if_pos hw]
    cases t.confirm with
    | none => exact .inl ⟨rfl, rfl⟩
    | some response =>
      dsimp only
      by_cases ha : agrees response = true
      · rw [if_pos ha]
        exact .inr (.inl ⟨hw, rfl, by rw [hw]⟩)
      · simp only [ha, Bool.false_eq_true, ite_false]
        cases t.exitConfirm with
        | none => exact .inl ⟨rfl, rfl⟩
        | some response =>
          have ho := proceed_outcome cls t
            (f := { f with state := if agrees response then .closed else .incomplete }) (by
              cases agrees response
              · exact .inl rfl
              · exact .inr rfl)
          exact .inr (.inr ⟨_, rfl, ho.of_open (by rw [hw]; decide)⟩)
  · simp only [hw, ite_false]
    have hfs : f.state = .incomplete ∨ f.state = .closed := by
      cases h : f.state with
      | incomplete => exact .inl rfl
      | closed => exact .inr rfl
      | complete => exact absurd h hf
      | waitConfirm => exact absurd h hw
    exact .inr (.inr ⟨_, rfl, proceed_outcome cls t hfs⟩)

/-! ## Runs -/

omit [Numeral N] in
/-- A submission at the end of a quiet turn. -/
theorem eq_of_submitted {log l₁ l₂ : List (Event N)} {d d' : Dict Str (Json N)} (hq : ∀ e ∈ log, e.isSubmitted = false)
    (h : log ++ [.submitted d] = l₁ ++ .submitted d' :: l₂) : l₁ = log ∧ d' = d := by
  rcases List.append_eq_append_iff.mp h with ⟨u, rfl, hu⟩ | ⟨u, rfl, hu⟩
  · cases u with
    | nil =>
      simp only [List.nil_append, List.cons.injEq, Event.submitted.injEq] at hu
      exact ⟨by simp, hu.1.symm⟩
    | cons e u => simp at hu
  · cases u with
    | nil =>
      simp only [List.nil_append, List.cons.injEq, Event.submitted.injEq] at hu
      exact ⟨by simp, hu.1⟩
    | cons e u =>
      rw [List.cons_append, List.cons.injEq] at hu
      exact absurd (hq e (by simp)) (by simp [← hu.1, Event.isSubmitted])

theorem Inv.step {cls : Class} {s : Form N × List (Event N)} (h : Inv cls s) (t : Turn N) :
    Inv cls (step cls s t) := by
  obtain ⟨f, log⟩ := s
  obtain ⟨hs, hset, hun, honce, hgood⟩ := h
  dsimp only at hs hset hun honce hgood
  have hout := next_outcome cls t hs
  rw [CatForm.step]
  generalize next cls t f = r at hout
  obtain ⟨f', new, out⟩ := r
  dsimp only at hout ⊢
  rcases hout with ⟨rfl, rfl⟩ | ⟨hw, hc, rfl⟩ | ⟨new, rfl, ho⟩
  · exact ⟨hs, fun hw => (hset hw).append (by simp [Event.isChanged]),
      fun ho => by simpa [Event.isSubmitted] using hun ho, by simpa [Event.isSubmitted] using honce,
      hgood.append_quiet (by simp [Event.isSubmitted])⟩
  · -- a confirmed submission of what was settled when the turn began
    have h0 := hun (by rw [hw]; decide)
    refine ⟨by simp [hc], fun h => by simp [hc] at h, fun h => absurd hc h,
      by simp [h0, List.countP_cons, Event.isSubmitted], hgood.append fun l₁ d l₂ heq => ?_⟩
    have hquiet : ∀ e ∈ [(.turn .waitConfirm : Event N), .confirmed], e.isSubmitted = false := by
      simp [Event.isSubmitted]
    obtain ⟨rfl, rfl⟩ := eq_of_submitted hquiet heq
    exact ⟨(hset hw).append (by simp [Event.isChanged]), fun _ => ⟨log, [.confirmed], rfl, by simp,
      by simp [Event.isTurn]⟩⟩
  · cases ho with
    | incomplete hq hs' hf =>
      have h0 : (log ++ .turn f.state :: new).countP Event.isSubmitted = 0 := by
        simp [hun hf, hq.countP, Event.isSubmitted]
      exact ⟨by simp [hs'], fun h => by simp [hs'] at h, fun _ => h0, by simp [h0], hq.good hgood _⟩
    | closed hq hs' =>
      have h1 : (log ++ .turn f.state :: new).countP Event.isSubmitted ≤ 1 := by
        simpa [hq.countP, List.countP_cons, Event.isSubmitted] using honce
      exact ⟨by simp [hs'], fun h => by simp [hs'] at h, fun h => absurd hs' h, h1, hq.good hgood _⟩
    | asks hq hs' hd hf =>
      have h0 : (log ++ .turn f.state :: new).countP Event.isSubmitted = 0 := by
        simp [hun hf, hq.countP, Event.isSubmitted]
      refine ⟨by simp [hs'], fun _ => ?_, fun _ => h0, by simp [h0], hq.good hgood _⟩
      rw [← List.singleton_append, ← List.append_assoc]
      exact hd.of_append
    | submits hq hs' hd hc hf =>
      refine ⟨by simp [hs'], fun h => by simp [hs'] at h, fun h => absurd hs' h, ?_, hgood.append fun l₁ d l₂ heq => ?_⟩
      · simp [hun hf, hq.countP, Event.isSubmitted]
      · rw [← List.cons_append] at heq
        obtain ⟨rfl, rfl⟩ := eq_of_submitted (fun e he => by
          rcases List.mem_cons.mp he with rfl | he
          · rfl
          · exact (hq e he).1) heq
        refine ⟨?_, fun h => by simp [hc] at h⟩
        rw [← List.singleton_append, ← List.append_assoc]
        exact hd.of_append

theorem run_inv (cls : Class) (ts : List (Turn N)) : Inv cls (Machine.run (step cls) (Form.init, []) ts) :=
  Machine.run_invariant (P := fun _ _ => True) (fun _ t h _ => h.step t) (Inv.init cls)
    (Machine.along_true _ _)

/-- A closed form stays closed. -/
theorem closed_run (cls : Class) (ts : List (Turn N)) {s : Form N × List (Event N)} (h : s.1.state = .closed) :
    (Machine.run (step cls) s ts).1.state = .closed := by
  refine Machine.run_invariant (P := fun _ _ => True)
    (I := fun s : Form N × List (Event N) => s.1.state = .closed) (fun s t hs _ => ?_) h (Machine.along_true _ _)
  have hout := next_outcome cls t (f := s.1) (by rw [hs]; decide)
  rw [CatForm.step]
  generalize next cls t s.1 = r at hout
  obtain ⟨f', new, out⟩ := r
  dsimp only at hout ⊢
  rcases hout with ⟨rfl, -⟩ | ⟨hw, -⟩ | ⟨new, -, ho⟩
  · exact hs
  · rw [hs] at hw
    cases hw
  · cases ho with
    | closed _ hs' => exact hs'
    | incomplete _ _ hf => exact absurd hs hf
    | asks _ _ _ hf => exact absurd hs hf
    | submits _ _ _ _ hf => exact absurd hs hf

/-- In every run of turns: the form submits at most once; what it submits passed validation and was
not changed after; a form that asks submits only in a turn that began in WAIT_CONFIRM and was
confirmed; a closed form stays closed; and no turn ends in COMPLETE. -/
theorem form_run_ok (cls : Class) (ts : List (Turn N)) :
    let s := Machine.run (step cls) (Form.init, []) ts
    s.2.countP Event.isSubmitted ≤ 1 ∧
    (∀ l₁ d l₂, s.2 = l₁ ++ .submitted d :: l₂ → Settled d l₁ ∧ (cls.askConfirm = true → Confirmed l₁)) ∧
    (s.1.state = .closed → ∀ ts', (Machine.run (step cls) s ts').1.state = .closed) ∧
    s.1.state ≠ .complete := by
  have h := run_inv cls ts
  exact ⟨h.once, h.good, fun hs ts' => closed_run cls ts' hs, h.state⟩

end

end KCore.CatForm
