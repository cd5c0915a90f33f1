import Mathlib.Data.List.Induction
import Mathlib.Data.List.Basic
import Mathlib.Data.List.Nodup

/-!
# Insertion-ordered dictionaries

A `Dict` is a list of pairs with distinct keys, in the order the keys were first
set: setting a present key keeps its place, setting a new one appends it, as
Python's `dict` has it (Mathlib's `AList` moves a set key to the front).
-/

/-- Pairs with distinct keys, in insertion order. -/
structure Dict (α β : Type*) where
  entries : List (α × β)
  nodup : (entries.map Prod.fst).Nodup

namespace Dict

variable {α β : Type*}

@[ext] theorem ext {d d' : Dict α β} (h : d.entries = d'.entries) : d = d' := by
  cases d; cases d'; cases h; rfl

/-- The dictionary with no entry. -/
def empty : Dict α β := ⟨[], List.nodup_nil⟩

/-- The keys, in order. -/
def keys (d : Dict α β) : List α := d.entries.map Prod.fst

/-- The values, in order. -/
def values (d : Dict α β) : List β := d.entries.map Prod.snd

instance [DecidableEq α] [DecidableEq β] : DecidableEq (Dict α β) := fun d d' =>
  decidable_of_iff (d.entries = d'.entries) ⟨ext, fun h => h ▸ rfl⟩

variable [DecidableEq α]

/-- The value under `k`, of a list of pairs. -/
def find (k : α) : List (α × β) → Option β
  | [] => none
  | (k', v) :: l => if k' = k then some v else find k l

/-- `l` with `v` under `k`, in the place of the old value if there is one. -/
def put (k : α) (v : β) : List (α × β) → List (α × β)
  | [] => [(k, v)]
  | (k', w) :: l => if k' = k then (k, v) :: l else (k', w) :: put k v l

theorem mem_keys_put {k k' : α} {v : β} (l : List (α × β)) :
    k' ∈ (put k v l).map Prod.fst ↔ k' = k ∨ k' ∈ l.map Prod.fst := by
  induction l with
  | nil => simp [put]
  | cons e l ih =>
    obtain ⟨k₁, w⟩ := e
    simp only [put]
    split
    · rename_i h; subst h; simp
    · simp only [List.map_cons, List.mem_cons, ih]
      exact or_left_comm

theorem nodup_put {k : α} {v : β} : ∀ {l : List (α × β)}, (l.map Prod.fst).Nodup →
    ((put k v l).map Prod.fst).Nodup
  | [], _ => by simp [put]
  | (k', w) :: l, h => by
    simp only [put]
    simp only [List.map_cons, List.nodup_cons] at h
    split
    · rename_i hk; subst hk; simpa using h
    · rename_i hk
      simp only [List.map_cons, List.nodup_cons, mem_keys_put, not_or]
      exact ⟨⟨hk, h.1⟩, nodup_put h.2⟩

/-- `d.get(k)`. -/
def get? (d : Dict α β) (k : α) : Option β := find k d.entries

/-- `d[k] = v`. -/
def set (d : Dict α β) (k : α) (v : β) : Dict α β := ⟨put k v d.entries, nodup_put d.nodup⟩

theorem entries_set (d : Dict α β) (k : α) (v : β) : (d.set k v).entries = put k v d.entries := rfl

/-- `del d[k]`, if `k` is there. -/
def erase (d : Dict α β) (k : α) : Dict α β :=
  ⟨d.entries.filter (·.1 ≠ k), d.nodup.sublist (List.filter_sublist.map _)⟩

/-- `d | d'`: the entries of `d'` set in `d`, in order. -/
def merge (d d' : Dict α β) : Dict α β := d'.entries.foldl (fun d e => d.set e.1 e.2) d

/-- `{k: f(v) for k, v in d.items()}`. -/
def mapValues {γ : Type*} (f : β → γ) (d : Dict α β) : Dict α γ :=
  ⟨d.entries.map fun e => (e.1, f e.2), by rw [List.map_map]; exact d.nodup⟩

/-- `{k(i): v(i) for i in l}`: of one key, the last value. -/
def collect {ι : Type*} (k : ι → α) (v : ι → β) (l : List ι) : Dict α β := l.foldl (fun d i => d.set (k i) (v i)) empty

instance : Membership α (Dict α β) := ⟨fun d k => k ∈ d.keys⟩

instance (d : Dict α β) (k : α) : Decidable (k ∈ d) := inferInstanceAs (Decidable (k ∈ d.keys))

omit [DecidableEq α] in
theorem mem_def {d : Dict α β} {k : α} : k ∈ d ↔ k ∈ d.keys := Iff.rfl

theorem find_eq_none {k : α} : ∀ {l : List (α × β)}, find k l = none ↔ k ∉ l.map Prod.fst
  | [] => by simp [find]
  | (k', v) :: l => by
    simp only [find, List.map_cons, List.mem_cons, not_or]
    split
    · rename_i h; simp [h]
    · rename_i h; simp [find_eq_none, Ne.symm h]

theorem find_eq_some {k : α} {v : β} : ∀ {l : List (α × β)}, (l.map Prod.fst).Nodup →
    (find k l = some v ↔ (k, v) ∈ l)
  | [], _ => by simp [find]
  | (k', w) :: l, h => by
    simp only [List.map_cons, List.nodup_cons] at h
    simp only [find, List.mem_cons, Prod.mk.injEq]
    split
    · rename_i hk
      subst hk
      have : (k', v) ∉ l := fun hm => h.1 (List.mem_map_of_mem (f := Prod.fst) hm)
      simp [this, eq_comm]
    · rename_i hk
      rw [find_eq_some h.2]
      simp [Ne.symm hk]

theorem find_put_self {k : α} {v : β} : ∀ l : List (α × β), find k (put k v l) = some v
  | [] => by simp [put, find]
  | (k', w) :: l => by
    simp only [put]
    split
    · simp [find]
    · rename_i h; simp only [find, h, ite_false, find_put_self l]

theorem find_put_of_ne {k k' : α} {v : β} (h : k' ≠ k) : ∀ l : List (α × β), find k' (put k v l) = find k' l
  | [] => by simp [put, find, Ne.symm h]
  | (k₁, w) :: l => by
    simp only [put]
    split
    · rename_i h₁; subst h₁; simp [find, Ne.symm h]
    · simp only [find, find_put_of_ne h l]

theorem find_filter_self {k : α} (l : List (α × β)) : find k (l.filter (·.1 ≠ k)) = none := by
  refine find_eq_none.mpr fun hm => ?_
  obtain ⟨e, he, hk⟩ := List.mem_map.mp hm
  exact (of_decide_eq_true (List.mem_filter.mp he).2) hk

theorem find_filter_of_ne {k k' : α} (h : k' ≠ k) : ∀ l : List (α × β), find k' (l.filter (·.1 ≠ k)) = find k' l
  | [] => rfl
  | (k₁, v) :: l => by
    rw [List.filter_cons]
    split
    · rw [find, find, find_filter_of_ne h l]
    · rename_i hk
      have hne : k₁ ≠ k' := fun he => hk (decide_eq_true (he ▸ h))
      rw [find, if_neg hne, find_filter_of_ne h l]

theorem get?_eq_some {d : Dict α β} {k : α} {v : β} : d.get? k = some v ↔ (k, v) ∈ d.entries :=
  find_eq_some d.nodup

theorem get?_eq_none {d : Dict α β} {k : α} : d.get? k = none ↔ k ∉ d := find_eq_none

@[simp] theorem get?_empty (k : α) : (empty : Dict α β).get? k = none := rfl

@[simp] theorem get?_set_self (d : Dict α β) (k : α) (v : β) : (d.set k v).get? k = some v :=
  find_put_self _

theorem get?_set_of_ne (d : Dict α β) {k k' : α} (v : β) (h : k' ≠ k) : (d.set k v).get? k' = d.get? k' :=
  find_put_of_ne h _

theorem get?_set (d : Dict α β) (k k' : α) (v : β) :
    (d.set k v).get? k' = if k' = k then some v else d.get? k' := by
  split
  · rename_i h; rw [h, get?_set_self]
  · rename_i h; exact get?_set_of_ne d v h

theorem put_self {k : α} {v : β} : ∀ {l : List (α × β)}, find k l = some v → put k v l = l
  | [], h => by cases h
  | (k', w) :: l, h => by
    rw [find] at h
    rw [put]
    split at h
    · rename_i hk
      rw [if_pos hk, hk, Option.some.inj h]
    · rename_i hk
      rw [if_neg hk, put_self h]

theorem set_eq_self {d : Dict α β} {k : α} {v : β} (h : d.get? k = some v) : d.set k v = d := ext (put_self h)

@[simp] theorem set_set (d : Dict α β) (k : α) (v w : β) : (d.set k v).set k w = d.set k w := by
  refine ext ?_
  change put k w (put k v d.entries) = put k w d.entries
  induction d.entries with
  | nil => simp [put]
  | cons e l ih =>
    simp only [put]
    split
    · simp [put]
    · rename_i h
      simp only [put, if_neg h, ih]

/-- A value that is replaced keeps its place, so it does not matter when. -/
theorem set_comm_of_mem {d : Dict α β} {k k' : α} (hne : k ≠ k') (hk : k ∈ d) (v v' : β) :
    (d.set k v).set k' v' = (d.set k' v').set k v := by
  refine ext ?_
  change k ∈ d.entries.map Prod.fst at hk
  change put k' v' (put k v d.entries) = put k v (put k' v' d.entries)
  generalize d.entries = l at hk ⊢
  induction l with
  | nil => cases hk
  | cons e l ih =>
    rw [List.map_cons, List.mem_cons] at hk
    by_cases he : e.1 = k
    · simp [put, he, hne]
    · by_cases he' : e.1 = k'
      · simp [put, he', hne.symm]
      · simp [put, he, he', ih (hk.resolve_left fun h => he h.symm)]

theorem mem_set {d : Dict α β} {k k' : α} {v : β} : k' ∈ d.set k v ↔ k' = k ∨ k' ∈ d := mem_keys_put _

theorem mem_merge_left {d d' : Dict α β} {k : α} (h : k ∈ d) : k ∈ d.merge d' := by
  unfold merge
  induction d'.entries generalizing d with
  | nil => exact h
  | cons e l ih => exact ih (mem_set.mpr (.inr h))

/-- The second dictionary's values, and the first's under its own keys. -/
theorem get?_merge (d d' : Dict α β) (k : α) : (d.merge d').get? k = (d'.get? k).or (d.get? k) := by
  obtain ⟨l, hl⟩ := d'
  show (l.foldl (fun d e => d.set e.1 e.2) d).get? k = (find k l).or (d.get? k)
  induction l generalizing d with
  | nil => rfl
  | cons e l ih =>
    have hl := List.nodup_cons.mp hl
    rw [List.foldl_cons, ih (d.set e.1 e.2) hl.2, find]
    by_cases h : e.1 = k
    · subst h
      rw [if_pos rfl, find_eq_none.mpr hl.1, get?_set_self]
      rfl
    · rw [if_neg h, get?_set_of_ne d e.2 (Ne.symm h)]

theorem mem_iff_get? {d : Dict α β} {k : α} : k ∈ d ↔ ∃ v, d.get? k = some v := by
  rw [← Option.isSome_iff_exists, ← not_iff_not, ← get?_eq_none, Option.not_isSome_iff_eq_none]

theorem get?_erase (d : Dict α β) (k k' : α) :
    (d.erase k).get? k' = if k' = k then none else d.get? k' := by
  split
  · rename_i h
    exact h ▸ find_filter_self d.entries
  · rename_i h
    exact find_filter_of_ne h d.entries

theorem mem_erase {d : Dict α β} {k k' : α} : k' ∈ d.erase k ↔ k' ≠ k ∧ k' ∈ d := by
  rw [mem_iff_get?, mem_iff_get?, get?_erase]
  by_cases h : k' = k <;> simp [h]

@[simp] theorem erase_erase (d : Dict α β) (k : α) : (d.erase k).erase k = d.erase k := by
  ext1
  simp [erase, List.filter_filter]

@[simp] theorem erase_set (d : Dict α β) (k : α) (v : β) : (d.set k v).erase k = d.erase k := by
  obtain ⟨l, hl⟩ := d
  ext1
  simp only [erase, set]
  clear hl
  induction l with
  | nil => simp [put]
  | cons e l ih =>
    by_cases hk : e.1 = k
    · simp [put, hk]
    · simpa [put, hk] using ih

/-- Entries that are deleted one by one. -/
theorem entries_foldl_erase (l : List (α × β)) (d : Dict α β) :
    (l.foldl (fun d e => d.erase e.1) d).entries = d.entries.filter fun e => e.1 ∉ l.map Prod.fst := by
  induction l generalizing d with
  | nil => simp
  | cons e l ih =>
    rw [List.foldl_cons, ih, erase, List.filter_filter]
    refine List.filter_congr fun x _ => ?_
    rw [← Bool.decide_and, decide_eq_decide, List.map_cons, List.mem_cons, not_or, and_comm]

theorem entries_put_of_notMem {k : α} {v : β} : ∀ {l : List (α × β)}, k ∉ l.map Prod.fst → put k v l = l ++ [(k, v)]
  | [], _ => rfl
  | (k', w) :: l, h => by
    simp only [List.map_cons, List.mem_cons, not_or] at h
    rw [put, if_neg (Ne.symm h.1), entries_put_of_notMem h.2, List.cons_append]

/-- A dictionary with no key of the first one is appended. -/
theorem entries_merge_of_disjoint {d d' : Dict α β} (h : ∀ k ∈ d', k ∉ d) :
    (d.merge d').entries = d.entries ++ d'.entries := by
  obtain ⟨l, hl⟩ := d'
  show (l.foldl (fun d e => d.set e.1 e.2) d).entries = d.entries ++ l
  have h : ∀ k ∈ l.map Prod.fst, k ∉ d := h
  clear * - h hl
  induction l generalizing d with
  | nil => simp
  | cons e l ih =>
    have hl := List.nodup_cons.mp hl
    have hset : (d.set e.1 e.2).entries = d.entries ++ [e] := entries_put_of_notMem (h e.1 (.head _))
    rw [List.foldl_cons, ih hl.2 fun k hk hm => ?_, hset, List.append_assoc, List.singleton_append]
    rcases mem_set.mp hm with rfl | hm
    · exact hl.1 hk
    · exact h k (.tail _ hk) hm

theorem empty_merge (d : Dict α β) : empty.merge d = d :=
  ext (entries_merge_of_disjoint fun _ _ h => absurd h List.not_mem_nil)

theorem keys_put_of_mem {k : α} {v : β} : ∀ {l : List (α × β)}, k ∈ l.map Prod.fst →
    (put k v l).map Prod.fst = l.map Prod.fst
  | (k', w) :: l, h => by
    rw [put]
    by_cases hk : k' = k
    · rw [if_pos hk, List.map_cons, List.map_cons, hk]
    · rw [if_neg hk, List.map_cons, List.map_cons, keys_put_of_mem]
      exact (List.mem_cons.mp h).resolve_left (Ne.symm hk)

theorem mem_values {d : Dict α β} {v : β} : v ∈ d.values ↔ ∃ k, d.get? k = some v := by
  simp only [values, List.mem_map, Prod.exists, exists_eq_right, get?_eq_some]

theorem get?_collect {ι : Type*} {k : ι → α} {v : ι → β} {l : List ι} {key : α} {w : β}
    (h : (collect k v l).get? key = some w) : ∃ i ∈ l, k i = key ∧ v i = w := by
  induction l using List.reverseRecOn with
  | nil => cases h
  | append_singleton l i ih =>
    rw [collect, List.foldl_append, List.foldl_cons, List.foldl_nil, get?_set] at h
    split at h
    · rename_i hk
      exact ⟨i, by simp, hk.symm, Option.some.inj h⟩
    · obtain ⟨j, hj, hkv⟩ := ih h
      exact ⟨j, by simp [hj], hkv⟩

theorem mem_collect {ι : Type*} {k : ι → α} {v : ι → β} {l : List ι} {key : α} :
    key ∈ collect k v l ↔ ∃ i ∈ l, k i = key := by
  induction l using List.reverseRecOn with
  | nil => simp [collect, empty, mem_def, keys]
  | append_singleton l i ih =>
    rw [collect] at ih ⊢
    rw [List.foldl_append, List.foldl_cons, List.foldl_nil, mem_set, ih]
    constructor
    · rintro (rfl | ⟨j, hj, hk⟩)
      · exact ⟨i, by simp, rfl⟩
      · exact ⟨j, by simp [hj], hk⟩
    · rintro ⟨j, hj, hk⟩
      rcases List.mem_append.mp hj with hj | hj
      · exact .inr ⟨j, hj, hk⟩
      · exact .inl (List.mem_singleton.mp hj ▸ hk.symm)

/-- The values differ under `f` just where no two keys share one. -/
theorem nodup_values_map {γ : Type*} {f : β → γ} {d : Dict α β} : (d.values.map f).Nodup ↔
    ∀ k k' v v', d.get? k = some v → d.get? k' = some v' → f v = f v' → k = k' := by
  have hentries : d.entries.Nodup := d.nodup.of_map _
  rw [values, List.map_map, List.nodup_map_iff_inj_on hentries]
  constructor
  · intro h k k' v v' hv hv' he
    exact congrArg Prod.fst (h (k, v) (get?_eq_some.mp hv) (k', v') (get?_eq_some.mp hv') he)
  · rintro h ⟨k, v⟩ hv ⟨k', v'⟩ hv' he
    have hv := get?_eq_some.mpr hv
    have hv' := get?_eq_some.mpr hv'
    obtain rfl := h k k' v v' hv hv' he
    rw [hv] at hv'
    rw [Option.some.inj hv']

theorem get?_mapValues {γ : Type*} (f : β → γ) (d : Dict α β) (k : α) : (d.mapValues f).get? k = (d.get? k).map f := by
  obtain ⟨l, hl⟩ := d
  simp only [mapValues, get?]
  clear hl
  induction l with
  | nil => rfl
  | cons e l ih =>
    simp only [List.map_cons, find]
    split
    · rfl
    · exact ih

/-- Setting a value outside `P` in the place of one outside `P` does not show in `P`. -/
theorem filter_values_set {P : β → Bool} {d : Dict α β} {k : α} {v : β} (hv : P v = false)
    (h : ∀ w, d.get? k = some w → P w = false) : (d.set k v).values.filter P = d.values.filter P := by
  obtain ⟨l, hl⟩ := d
  simp only [values, set, get?] at h ⊢
  clear hl
  induction l with
  | nil => simp [put, hv]
  | cons e l ih =>
    obtain ⟨k', w⟩ := e
    simp only [put]
    by_cases hk : k' = k
    · subst hk
      have hw : P w = false := h w (by simp [find])
      simp [hv, hw]
    · have ih := ih fun w hw => h w (by simpa [find, hk] using hw)
      simp only [if_neg hk, List.map_cons, List.filter_cons, ih]

theorem filter_values_erase {P : β → Bool} {d : Dict α β} {k : α} (h : ∀ w, d.get? k = some w → P w = false) :
    (d.erase k).values.filter P = d.values.filter P := by
  have hk : ∀ e ∈ d.entries, e.1 = k → P e.2 = false := by
    rintro ⟨k', w⟩ he rfl
    exact h w (get?_eq_some.mpr he)
  simp only [values, erase, List.filter_map]
  congr 1
  rw [List.filter_filter]
  refine List.filter_congr fun e he => ?_
  by_cases h' : e.1 = k
  · simp [h', hk e he h']
  · simp [h']

end Dict
