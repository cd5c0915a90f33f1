import KCore.Lib.MapM
import KCore.Impl.Artifacts.CoreTools

/-!
# Inputs that the core tools answer

The tools take every input that is blank, a JSON object or no JSON text
(`readable_iff`); on another JSON value they raise. Listing also joins two values
of the object to a path, which must be texts and lead to a directory that can be
looked up. `call_answers_iff` has the four tools together.
-/

namespace KCore.Artifacts.CoreTools

open Text

/-- The input is blank, a JSON object, or no JSON text. -/
def Readable (p : Platform) (toolInput : Str) : Prop :=
  strip toolInput = [] ∨ match p.loads (strip toolInput) with
    | .object _ | .notJson => True
    | .other | .raises => False

/-- A filter that is given is a text. -/
def Joinable (value : Value) : Prop := value.truthy = true → ∃ t, value = .text t

/-- The text of a filter that is given. -/
def filterText : Value → Option Str
  | .text (c :: t) => some (c :: t)
  | _ => none

/-- The directory that a listing searches. -/
def listingBase (p : Platform) (w : World) (data : Values) : Base :=
  baseOf (some (getProjectSlug (p.config w) data w.memory).1) (filterText (data.value "phase".toList))
    (filterText (data.value "wp_id".toList))

/-- The filters are texts and lead to a directory that can be looked up; what is loaded outside of the workspace are
objects. -/
structure Listable (p : Platform) (w : World) (data : Values) : Prop where
  phase : Joinable (data.value "phase".toList)
  wpId : Joinable (data.value "wp_id".toList)
  looked : p.raises (listingBase p w data) = false
  objects : (listingBase p w data).inside = false → none ∉ p.outside (listingBase p w data)

/-- The inputs that a tool can use. -/
def Usable (p : Platform) (w : World) (toolInput : Str) : Tool → Prop
  | .listIso26262Artifacts => Readable p toolInput ∧
    ∀ data, parseToolInput p toolInput = some (.dict data) → Listable p w data
  | _ => Readable p toolInput

/-- The tool returns a text, and but for `set_iso26262_project` leaves the files as they are. -/
structure Answers (p : Platform) (w : World) (toolInput : Str) (tool : Tool) : Prop where
  answer : ∃ text, (call p w toolInput tool).1 = some text
  store : tool ≠ .setIso26262Project → (call p w toolInput tool).2.store = w.store

variable {p : Platform} {w : World} {toolInput : Str}

theorem readable_iff : Readable p toolInput ↔ ∃ data, parseToolInput p toolInput = some (.dict data) := by
  unfold Readable parseToolInput
  by_cases hs : strip toolInput = []
  · simp [hs]
  · cases hl : p.loads (strip toolInput) <;> simp [hs, hl]

/-- A tool that answers every dictionary answers every readable input, and no other. -/
theorem withData_isSome {tool : Values → Option Str × World} {P : Values → Prop}
    (h : ∀ data, (∃ text, (tool data).1 = some text) ↔ P data) :
    (∃ text, (withData p w toolInput tool).1 = some text) ↔
      Readable p toolInput ∧ ∀ data, parseToolInput p toolInput = some (.dict data) → P data := by
  rw [readable_iff, withData]
  cases hp : parseToolInput p toolInput with
  | none => simp
  | some d =>
    cases d with
    | other => simp
    | dict data => simp [h]

theorem withData_store {tool : Values → Option Str × World} (h : ∀ data, (tool data).2.store = w.store) :
    (withData p w toolInput tool).2.store = w.store := by
  unfold withData
  split
  · exact h _
  · rfl
  · rfl

/-! ## Listing -/

theorem pathArg_eq_some {value : Value} {arg : Option Str} :
    pathArg value = some arg ↔ Joinable value ∧ filterText value = arg := by
  cases value with
  | text t => cases t <;> simp [pathArg, Joinable, filterText, Value.truthy]
  | null => simp [pathArg, Joinable, filterText, Value.truthy]
  | bool b => cases b <;> simp [pathArg, Joinable, filterText, Value.truthy]
  | number isZero s => cases isZero <;> simp [pathArg, Joinable, filterText, Value.truthy]
  | list items s => cases items <;> simp [pathArg, Joinable, filterText, Value.truthy]
  | object isEmpty s => cases isEmpty <;> simp [pathArg, Joinable, filterText, Value.truthy]

theorem listing_isSome {s : Store} {projectSlug : Str} {base : Base} {status : Value} :
    (∃ text, listing p s projectSlug base status = some text) ↔
      p.raises base = false ∧ (base.inside = false → none ∉ p.outside base) := by
  unfold listing findMetadata
  cases hr : p.raises base with
  | true => simp
  | false =>
    have hl : none ∉ (if base.inside then (below p.listing s base.parts).map some else p.outside base) ↔
        (base.inside = false → none ∉ p.outside base) := by
      cases base.inside <;> simp
    rw [← hl, ← MapM.id_isSome_iff]
    simp

theorem listArtifacts_answers (data : Values) : (∃ text, ((pathArg (data.value "phase".toList)).bind fun phase =>
      (pathArg (data.value "wp_id".toList)).bind fun wpId =>
        listing p w.store (getProjectSlug (p.config w) data w.memory).1
          (baseOf (some (getProjectSlug (p.config w) data w.memory).1) phase wpId) (data.value "status".toList)) = some text) ↔
    Listable p w data := by
  simp only [Option.bind_eq_some_iff, pathArg_eq_some]
  constructor
  · rintro ⟨text, phase, ⟨hp, rfl⟩, wpId, ⟨hw, rfl⟩, ht⟩
    have hb := listing_isSome.mp ⟨text, ht⟩
    exact ⟨hp, hw, hb.1, hb.2⟩
  · intro h
    obtain ⟨text, ht⟩ := listing_isSome.mpr ⟨h.looked, h.objects⟩
    exact ⟨text, _, ⟨h.phase, rfl⟩, _, ⟨h.wpId, rfl⟩, ht⟩

/-! ## The four tools -/

/-- Each tool answers just the inputs that it can use. -/
theorem call_answers_iff (p : Platform) (w : World) (toolInput : Str) (tool : Tool) :
    Answers p w toolInput tool ↔ Usable p w toolInput tool := by
  have hstore : tool ≠ .setIso26262Project → (call p w toolInput tool).2.store = w.store := by
    intro ht
    cases tool with
    | setIso26262Project => exact absurd rfl ht
    | listIso26262Artifacts => exact withData_store fun data => rfl
    | showIso26262Artifact => exact withData_store fun data => rfl
    | showIso26262Traceability => exact withData_store fun data => rfl
  have hanswer : (∃ text, (call p w toolInput tool).1 = some text) ↔ Usable p w toolInput tool := by
    cases tool with
    | setIso26262Project =>
      refine (withData_isSome fun data => iff_of_true ?_ trivial).trans (and_iff_left fun data _ => trivial)
      by_cases ht : (firstOf data ["project_slug".toList, "project".toList, "text".toList]).truthy = true
      · exact ⟨_, by rw [if_pos ht]⟩
      · exact ⟨_, by rw [if_neg ht]⟩
    | listIso26262Artifacts => exact withData_isSome listArtifacts_answers
    | showIso26262Artifact =>
      exact (withData_isSome fun data => iff_of_true ⟨_, rfl⟩ trivial).trans (and_iff_left fun data _ => trivial)
    | showIso26262Traceability =>
      exact (withData_isSome fun data => iff_of_true ⟨_, rfl⟩ trivial).trans (and_iff_left fun data _ => trivial)
  exact ⟨fun h => hanswer.mp h.answer, fun h => ⟨hanswer.mpr h, hstore⟩⟩

/-- `[]` is a JSON text, and every one of the tools raises on it. -/
theorem json_array_raises : let p : Platform :=
      ⟨fun s => if s = "[]".toList then .other else .notJson, none, "/work".toList, true, .id, fun _ => false, fun _ => []⟩
    ∀ tool, (call p ⟨.empty, .empty, .empty⟩ "[]".toList tool).1 = none ∧
      ¬Answers p ⟨.empty, .empty, .empty⟩ "[]".toList tool := by
  intro p tool
  have h : (call p ⟨.empty, .empty, .empty⟩ "[]".toList tool).1 = none := by cases tool <;> rfl
  refine ⟨h, fun ha => ?_⟩
  obtain ⟨text, ht⟩ := ha.answer
  rw [h] at ht
  cases ht

end KCore.Artifacts.CoreTools
