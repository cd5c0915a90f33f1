import KCore.Lib.Dict
import KCore.Lib.Json

/-!
# Paths into JSON values

A path goes by the keys of objects and through all elements of arrays, so it reaches
a list of values (`reach`). `leaves` are the scalars of a value with the paths they
stand at; a value has room for all leaves of any other (`exists_holds_fill`).
-/

open Text

namespace Json

variable {N : Type*}

inductive Step
  | key (k : Str)
  | items

/-- `v[k]`, where `v` is an object with this key. -/
def field (k : Str) : Json N → Option (Json N)
  | obj es => Dict.find k es
  | _ => none

def Step.reach : Step → Json N → List (Json N)
  | key k, v => (v.field k).toList
  | items, arr vs => vs
  | items, _ => []

/-- The values at the end of a path. -/
def reach : List Step → Json N → List (Json N)
  | [], v => [v]
  | s :: path, v => (s.reach v).flatMap (reach path)

def isObj : Json N → Bool
  | obj _ => true
  | _ => false

mutual

/-- The scalars of a value, each with its path; scalars of an array stand at the array itself. -/
def leaves : Json N → List (List Step × Json N)
  | null => [([], null)]
  | bool b => [([], bool b)]
  | num n => [([], num n)]
  | str s => [([], str s)]
  | arr vs => leavesItems vs
  | obj es => leavesEntries es

def leavesItems : List (Json N) → List (List Step × Json N)
  | [] => []
  | v :: vs => (leaves v).map (fun l => (if v.isObj then .items :: l.1 else l.1, l.2)) ++ leavesItems vs

def leavesEntries : List (Str × Json N) → List (List Step × Json N)
  | [] => []
  | (k, v) :: es => (leaves v).map (fun l => (.key k :: l.1, l.2)) ++ leavesEntries es

end

/-- Equality with a scalar. -/
def same [DecidableEq N] : Json N → Json N → Bool
  | null, null => true
  | bool a, bool b => a = b
  | num m, num n => m = n
  | str s, str t => s = t
  | _, _ => false

/-- A value is this scalar, or an array with it. -/
def holds [DecidableEq N] (v c : Json N) : Bool :=
  v.same c ||
    match v with
    | arr vs => vs.any (·.same c)
    | _ => false

/-- `v` has each leaf of `w` at its path. -/
def Covers [DecidableEq N] (v w : Json N) : Prop := ∀ l ∈ w.leaves, ∃ x ∈ reach l.1 v, x.holds l.2 = true

/-! ## Paths -/

theorem mem_leavesItems {vs : List (Json N)} {l : List Step × Json N} : l ∈ leavesItems vs ↔
    ∃ v ∈ vs, ∃ l' ∈ leaves v, l = (if v.isObj then .items :: l'.1 else l'.1, l'.2) := by
  induction vs with
  | nil => simp [leavesItems]
  | cons v vs ih => simp only [leavesItems, List.mem_append, List.mem_map, ih, List.exists_mem_cons_iff, eq_comm]

theorem mem_leavesEntries {es : List (Str × Json N)} {l : List Step × Json N} : l ∈ leavesEntries es ↔
    ∃ e ∈ es, ∃ l' ∈ leaves e.2, l = (.key e.1 :: l'.1, l'.2) := by
  induction es with
  | nil => simp [leavesEntries]
  | cons e es ih => simp only [leavesEntries, List.mem_append, List.mem_map, ih, List.exists_mem_cons_iff, eq_comm]

/-! ## Filling -/

/-- What an array gets for an element: the element, or the elements of an array. -/
def spread : Json N → List (Json N)
  | arr vs => vs
  | v => [v]

mutual

/-- A value in which arrays in arrays are dissolved. -/
def fill : Json N → Json N
  | null => null
  | bool b => bool b
  | num n => num n
  | str s => str s
  | arr vs => arr (fillItems vs)
  | obj es => obj (fillEntries es)

def fillItems : List (Json N) → List (Json N)
  | [] => []
  | v :: vs => spread (fill v) ++ fillItems vs

def fillEntries : List (Str × Json N) → List (Str × Json N)
  | [] => []
  | (k, v) :: es => (k, fill v) :: fillEntries es

end

theorem mem_fillItems {vs : List (Json N)} {v w : Json N} (hv : v ∈ vs) (hw : w ∈ spread (fill v)) :
    w ∈ fillItems vs := by
  induction vs with
  | nil => cases hv
  | cons u vs ih =>
    rcases List.mem_cons.mp hv with rfl | hv
    · exact List.mem_append_left _ hw
    · exact List.mem_append_right _ (ih hv)

theorem fillEntries_eq : ∀ es : List (Str × Json N), fillEntries es = es.map fun e => (e.1, fill e.2)
  | [] => rfl
  | _ :: es => congrArg _ (fillEntries_eq es)

theorem fillEntries_keys (es : List (Str × Json N)) : (fillEntries es).map Prod.fst = es.map Prod.fst := by
  rw [fillEntries_eq, List.map_map]
  rfl

theorem field_fill {es : List (Str × Json N)} (hn : (es.map Prod.fst).Nodup) {e : Str × Json N} (he : e ∈ es) :
    (fill (obj es)).field e.1 = some (fill e.2) := by
  rw [fill, field, fillEntries_eq, Dict.find_eq_some]
  · exact List.mem_map_of_mem he
  · rwa [← fillEntries_eq, fillEntries_keys]

variable [DecidableEq N]

/-- A longer array has what a shorter one has. -/
theorem exists_holds_arr_mono {vs ws : List (Json N)} (h : vs ⊆ ws) {path : List Step} {c : Json N}
    (hv : ∃ x ∈ reach path (arr vs), x.holds c = true) : ∃ x ∈ reach path (arr ws), x.holds c = true := by
  obtain ⟨x, hx, hc⟩ := hv
  cases path with
  | nil =>
    obtain rfl := List.mem_singleton.mp hx
    refine ⟨arr ws, .head _, ?_⟩
    simp only [holds, Bool.or_eq_true, List.any_eq_true] at hc ⊢
    rcases hc with hc | ⟨u, hu, hc⟩
    · cases c <;> cases hc
    · exact .inr ⟨u, h hu, hc⟩
  | cons s path =>
    obtain ⟨u, hu, hxu⟩ := List.mem_flatMap.mp hx
    cases s with
    | key k => cases hu
    | items => exact ⟨x, List.mem_flatMap.mpr ⟨u, h hu, hxu⟩, hc⟩

/-- A leaf of an element stands in every array with what the element is filled to. -/
theorem exists_holds_of_item {v : Json N} (hv : Covers (fill v) v) {ws : List (Json N)}
    (hws : spread (fill v) ⊆ ws) {l : List Step × Json N} (hl : l ∈ leaves v) :
    ∃ x ∈ reach (if v.isObj then .items :: l.1 else l.1) (arr ws), x.holds l.2 = true := by
  obtain ⟨x, hx, hc⟩ := hv l hl
  have hscalar {c : Json N} (hsame : c.same c = true) (hc : c ∈ ws) : ∃ x ∈ reach [] (arr ws), x.holds c = true :=
    ⟨arr ws, .head _, Bool.or_eq_true_iff.mpr (.inr (List.any_eq_true.mpr ⟨c, hc, hsame⟩))⟩
  cases v with
  | null => obtain rfl := List.mem_singleton.mp hl; exact hscalar rfl (hws (.head _))
  | bool b => obtain rfl := List.mem_singleton.mp hl; exact hscalar (decide_eq_true rfl) (hws (.head _))
  | num n => obtain rfl := List.mem_singleton.mp hl; exact hscalar (decide_eq_true rfl) (hws (.head _))
  | str s => obtain rfl := List.mem_singleton.mp hl; exact hscalar (decide_eq_true rfl) (hws (.head _))
  | arr us => exact exists_holds_arr_mono hws ⟨x, hx, hc⟩
  | obj es => exact ⟨x, List.mem_flatMap.mpr ⟨fill (obj es), hws (.head _), hx⟩, hc⟩

/-- An object has the leaves of another where its fields have those of the other's fields. -/
theorem covers_obj {v : Json N} {es : List (Str × Json N)}
    (h : ∀ e ∈ es, e.2.leaves ≠ [] → ∃ w, v.field e.1 = some w ∧ Covers w e.2) : Covers v (obj es) := by
  intro l hl
  obtain ⟨e, he, l', hl', rfl⟩ := mem_leavesEntries.mp hl
  obtain ⟨w, hw, hcovers⟩ := h e he (List.ne_nil_of_mem hl')
  obtain ⟨x, hx, hc⟩ := hcovers l' hl'
  have hfield : w ∈ (Step.key e.1).reach v := Option.mem_toList.mpr hw
  exact ⟨x, List.mem_flatMap.mpr ⟨w, hfield, hx⟩, hc⟩

mutual

/-- A value as it is filled has all its leaves. -/
theorem covers_fill : ∀ v : Json N, v.WF → Covers (fill v) v
  | null, _ => fun l hl => by obtain rfl := List.mem_singleton.mp hl; exact ⟨null, .head _, rfl⟩
  | bool b, _ => fun l hl => by obtain rfl := List.mem_singleton.mp hl; exact ⟨bool b, .head _, by simp [holds, same]⟩
  | num n, _ => fun l hl => by obtain rfl := List.mem_singleton.mp hl; exact ⟨num n, .head _, by simp [holds, same]⟩
  | str s, _ => fun l hl => by obtain rfl := List.mem_singleton.mp hl; exact ⟨str s, .head _, by simp [holds, same]⟩
  | arr vs, h => fun l hl => by
    obtain ⟨v, hv, l', hl', rfl⟩ := mem_leavesItems.mp hl
    exact exists_holds_of_item (covers_fillItems vs h v hv) (fun w hw => mem_fillItems hv hw) hl'
  | obj es, h => covers_obj fun e he _ => ⟨fill e.2, field_fill h.1 he, covers_fillEntries es h.2 e he⟩

theorem covers_fillItems : ∀ vs : List (Json N), WFItems vs → ∀ v ∈ vs, Covers (fill v) v
  | [], _ => nofun
  | v :: vs, h => List.forall_mem_cons.mpr ⟨covers_fill v h.1, covers_fillItems vs h.2⟩

theorem covers_fillEntries : ∀ es : List (Str × Json N), WFEntries es → ∀ e ∈ es, Covers (fill e.2) e.2
  | [], _ => nofun
  | (_, v) :: es, h => List.forall_mem_cons.mpr ⟨covers_fill v h.1, covers_fillEntries es h.2⟩

end

end Json
