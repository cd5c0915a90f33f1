import KCore.Impl.CatForm

/-!
# The errors of a form (`CatForm.validate`)

The loop over the errors deletes the field of an error from the data as it goes. It comes
to its end just when every error has a location and no field is to be deleted twice, or
without being there (`collectErrors_ok_iff`). `validate_iff` is when a validation leaves
what was reported.
-/

namespace KCore.CatForm

open Text

variable {N : Type*}

/-! ## What is reported -/

/-- The fields with an error that is not of type `missing`, once for each. -/
def rejected (es : List FieldError) : List Str := es.filterMap fun e => if e.missing then none else e.loc.head?

/-- The fields in which something is missing. -/
def missingIn (es : List FieldError) : List Str := es.filterMap fun e => if e.missing then e.loc.head? else none

/-- The field that an error is about as a whole. -/
def FieldError.field? (e : FieldError) : Option Str :=
  match e.loc with
  | [fieldName] => some fieldName
  | _ => none

/-- The fields that are missing themselves. -/
def missingAt (es : List FieldError) : List Str := es.filterMap fun e => if e.missing then e.field? else none

/-- Every error has a field, and what is to be deleted is there, for each time that it is. -/
def Removable (model : Dict Str (Json N)) (es : List FieldError) : Prop :=
  (∀ e ∈ es, e.loc ≠ []) ∧ (rejected es).Nodup ∧ ∀ fieldName ∈ rejected es, fieldName ∈ model

/-- What is missing is a field of the form, and not a part of one. -/
def Shallow (es : List FieldError) : Prop := ∀ e ∈ es, e.missing = true → ∃ fieldName, e.loc = [fieldName]

theorem rejected_missing {e : FieldError} (h : e.missing = true) (es : List FieldError) :
    rejected (e :: es) = rejected es := by
  simp [rejected, h]

theorem rejected_cons {e : FieldError} {fieldName : Str} {loc : List Str} (h : e.missing = false)
    (hloc : e.loc = fieldName :: loc) (es : List FieldError) : rejected (e :: es) = fieldName :: rejected es := by
  simp [rejected, h, hloc]

/-! ## The loop -/

/-- What the loop does to the form where it comes to its end. -/
theorem collectErrors_of_ok : ∀ {es : List FieldError} {f : Form N}, (collectErrors f es).2.2 = true →
    (collectErrors f es).1.missingFields = f.missingFields ++ missingIn es ∧
      (collectErrors f es).1.model.entries = f.model.entries.filter fun e => e.1 ∉ rejected es
  | [], f, _ => by simp [collectErrors, missingIn, rejected]
  | e :: es, f, h => by
    rw [collectErrors] at h ⊢
    cases hloc : e.loc with
    | nil => simp [hloc] at h
    | cons fieldName loc =>
      cases hm : e.missing with
      | true =>
        simp only [hloc, hm, ite_true] at h ⊢
        obtain ⟨hmissing, hmodel⟩ := collectErrors_of_ok h
        rw [rejected_missing hm, hmissing, hmodel]
        refine ⟨?_, rfl⟩
        simp [missingIn, hm, hloc]
      | false =>
        simp only [hloc, hm, Bool.false_eq_true, ite_false] at h ⊢
        by_cases hmem : fieldName ∈ f.model
        · rw [if_pos hmem] at h ⊢
          obtain ⟨hmissing, hmodel⟩ := collectErrors_of_ok h
          refine ⟨?_, ?_⟩
          · simp only [hmissing, missingIn, hm, Bool.false_eq_true, ite_false, List.filterMap_cons]
          · refine hmodel.trans ?_
            rw [rejected_cons hm hloc, Dict.erase, List.filter_filter]
            refine List.filter_congr fun x _ => ?_
            rw [← Bool.decide_and, decide_eq_decide, List.mem_cons, not_or, and_comm]
        · rw [if_neg hmem] at h
          cases h

theorem collectErrors_ok_iff : ∀ {es : List FieldError} {f : Form N},
    (collectErrors f es).2.2 = true ↔ Removable f.model es
  | [], f => by simp [collectErrors, Removable, rejected]
  | e :: es, f => by
    rw [collectErrors, Removable]
    cases hloc : e.loc with
    | nil => simp [hloc]
    | cons fieldName loc =>
      have hne : (∀ e' ∈ e :: es, e'.loc ≠ []) ↔ ∀ e' ∈ es, e'.loc ≠ [] := by simp [hloc]
      rw [hne]
      cases hm : e.missing with
      | true =>
        rw [rejected_missing hm]
        simp only [ite_true]
        exact collectErrors_ok_iff
      | false =>
        rw [rejected_cons hm hloc, List.nodup_cons]
        simp only [Bool.false_eq_true, ite_false]
        by_cases hmem : fieldName ∈ f.model
        · rw [if_pos hmem]
          refine collectErrors_ok_iff.trans ?_
          simp only [Removable, Dict.mem_erase, List.mem_cons, forall_eq_or_imp, hmem, true_and]
          constructor
          · intro ⟨hlocs, hnodup, hin⟩
            exact ⟨hlocs, ⟨fun h => (hin fieldName h).1 rfl, hnodup⟩, fun n hn => (hin n hn).2⟩
          · intro ⟨hlocs, ⟨hnotMem, hnodup⟩, hin⟩
            exact ⟨hlocs, hnodup, fun n hn => ⟨fun h => hnotMem (h ▸ hn), hin n hn⟩⟩
        · rw [if_neg hmem]
          exact iff_of_false (by simp) fun h => hmem (h.2.2 fieldName (.head _))

/-! ## The validation -/

/-- What `validate` is to leave, for a reading of which fields are reported missing. -/
def AsReported (reported : List FieldError → List Str) (t : Turn N) (f : Form N) : Prop :=
  (validate t f).2.2 = true ∧
    match t.validate f.model with
    | .valid => (validate t f).1.state = .complete ∧ (validate t f).1.missingFields = [] ∧
        (validate t f).1.model = f.model
    | .errors es => (validate t f).1.state = .incomplete ∧ (validate t f).1.missingFields = reported es ∧
        (validate t f).1.model.entries = f.model.entries.filter fun e => e.1 ∉ rejected es
    | .raises => True

/-- The result of a validation is one that the loop gets through. -/
def Handled (t : Turn N) (f : Form N) : Prop :=
  match t.validate f.model with
  | .valid => True
  | .errors es => Removable f.model es
  | .raises => False

theorem missing_of_not {e : FieldError} (h : e.missing = false) (es : List FieldError) :
    missingIn (e :: es) = missingIn es ∧ missingAt (e :: es) = missingAt es := by
  simp [missingIn, missingAt, h]

theorem missing_whole {e : FieldError} {a : Str} (h : e.missing = true) (hloc : e.loc = [a]) (es : List FieldError) :
    missingIn (e :: es) = a :: missingIn es ∧ missingAt (e :: es) = a :: missingAt es := by
  simp [missingIn, missingAt, FieldError.field?, h, hloc]

theorem missing_part {e : FieldError} {a b : Str} {loc : List Str} (h : e.missing = true) (hloc : e.loc = a :: b :: loc)
    (es : List FieldError) : missingIn (e :: es) = a :: missingIn es ∧ missingAt (e :: es) = missingAt es := by
  simp [missingIn, missingAt, FieldError.field?, h, hloc]

/-- The two readings agree where nothing is missing inside a field. -/
theorem missingIn_eq_missingAt : ∀ {es : List FieldError}, (∀ e ∈ es, e.loc ≠ []) →
    (missingAt es).length ≤ (missingIn es).length ∧ (missingIn es = missingAt es ↔ Shallow es)
  | [], _ => by simp [missingIn, missingAt, Shallow]
  | e :: es, hlocs => by
    obtain ⟨hle, ih⟩ := missingIn_eq_missingAt fun e' he => hlocs e' (.tail _ he)
    simp only [Shallow, List.mem_cons, forall_eq_or_imp] at ih ⊢
    cases hm : e.missing with
    | false =>
      obtain ⟨hin, hat⟩ := missing_of_not hm es
      rw [hin, hat]
      exact ⟨hle, by simpa using ih⟩
    | true =>
      cases hloc : e.loc with
      | nil => exact absurd hloc (hlocs e (.head _))
      | cons a loc =>
        cases loc with
        | nil =>
          obtain ⟨hin, hat⟩ := missing_whole hm hloc es
          rw [hin, hat, List.cons.injEq]
          refine ⟨?_, by simpa using ih⟩
          simp only [List.length_cons]
          omega
        | cons b loc =>
          obtain ⟨hin, hat⟩ := missing_part hm hloc es
          rw [hin, hat]
          refine ⟨?_, iff_of_false (fun h => ?_) fun h => by simp at h⟩
          · simp only [List.length_cons]
            omega
          · have hlen := congrArg List.length h
            simp only [List.length_cons] at hlen
            omega

/-- A validation leaves what was reported just when the loop gets through, and, where a field is missing only if it is
reported itself, no part of a field is. -/
theorem validate_iff (t : Turn N) (f : Form N) :
    (AsReported missingIn t f ↔ Handled t f) ∧
      (AsReported missingAt t f ↔ Handled t f ∧ ∀ es, t.validate f.model = .errors es → Shallow es) := by
  unfold AsReported Handled
  rw [validate]
  cases hv : t.validate f.model with
  | valid => simp
  | raises => simp
  | errors es =>
    have hfilled := @collectErrors_of_ok N es { f with missingFields := [], errors := [] }
    have hok := @collectErrors_ok_iff N es { f with missingFields := [], errors := [] }
    dsimp only at hok ⊢
    by_cases h : (collectErrors { f with missingFields := [], errors := [] } es).2.2 = true
    · obtain ⟨hmissing, hmodel⟩ := hfilled h
      have hremovable : Removable f.model es := hok.mp h
      rw [List.nil_append] at hmissing
      simp only [h, ite_true, hmissing, hmodel, hremovable, true_and, and_true, Validation.errors.injEq,
        forall_eq']
      exact (missingIn_eq_missingAt hremovable.1).2
    · have hremovable : ¬Removable f.model es := fun hr => h (hok.mpr hr)
      simp only [h, Bool.false_eq_true, ite_false, hremovable, false_and, and_self]

/-! ## Two errors for one field -/

/-- A model with a field that takes a number or a truth value, for which pydantic reports both that it tried. -/
def unionTurn : Turn ℕ where
  confirm := none
  exitConfirm := none
  exit := none
  extraction := none
  parse := fun _ => none
  validate := fun _ => .errors
    [⟨["age".toList, "int".toList], false, "Input should be a valid integer".toList⟩,
      ⟨["age".toList, "bool".toList], false, "Input should be a valid boolean".toList⟩]
  submit := none

/-- The second deletion of the field raises. -/
theorem union_error_raises :
    ¬AsReported missingIn unionTurn { (Form.init : Form ℕ) with model := Dict.empty.set "age".toList (.str "x".toList) } := by
  intro h
  have hraises : (validate unionTurn
      { (Form.init : Form ℕ) with model := Dict.empty.set "age".toList (.str "x".toList) }).2.2 = false := by decide
  rw [h.1] at hraises
  cases hraises

end KCore.CatForm
