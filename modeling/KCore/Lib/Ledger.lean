import Mathlib.Data.List.Chain
import Mathlib.Data.List.Range
import Mathlib.Logic.Function.Basic

/-!
# Ledgers of numbered versions

A ledger keeps under each key a list of versions. Only the last one of a list is
still open: it may be amended in place, and it may be closed as a new one is
added after it. `Linked` says what holds of one list: its first version is a
`first`, each one is tied to the next by `next`, and its last is `opened`; `amend` and
`extend` keep it if the amended version keeps its ties (`Linked.amend`,
`Linked.extend`).
-/

/-- A list of versions, each tied to the one after it, the last one open. -/
structure Linked {ρ : Type*} (first : ρ → Prop) (next : ρ → ρ → Prop) (opened : ρ → Prop) (l : List ρ) :
    Prop where
  ne : l ≠ []
  head : ∀ a ∈ l.head?, first a
  link : l.IsChain next
  last : ∀ a ∈ l.getLast?, opened a

namespace Linked

variable {ρ : Type*} {first opened : ρ → Prop} {next : ρ → ρ → Prop} {l : List ρ} {a a' b : ρ}

theorem single (h : first a) (ho : opened a) : Linked first next opened [a] :=
  ⟨by simp, by simpa using h, .singleton _, by simpa using ho⟩

/-- The last version replaced by one with the same ties. -/
theorem amend (h : Linked first next opened (l ++ [a])) (hf : first a → first a')
    (hn : ∀ b, next b a → next b a') (ho : opened a') : Linked first next opened (l ++ [a']) := by
  refine ⟨by simp, fun c hc => ?_, ?_, by simpa using ho⟩
  · cases l with
    | nil => simp only [List.nil_append, List.head?_cons, Option.mem_some_iff] at hc
             exact hc ▸ hf (h.head a rfl)
    | cons d l => exact h.head c hc
  · have hl := List.isChain_append.mp h.link
    refine List.isChain_append.mpr ⟨hl.1, .singleton _, fun b hb c hc => ?_⟩
    simp only [List.head?_cons, Option.mem_some_iff] at hc
    exact hc ▸ hn b (hl.2.2 b hb a rfl)

/-- The last version closed, and one added after it. -/
theorem extend (h : Linked first next opened (l ++ [a])) (hf : first a → first a')
    (hn : ∀ b, next b a → next b a') (hb : next a' b) (ho : opened b) :
    Linked first next opened (l ++ [a', b]) := by
  have h' : Linked first next (fun _ => True) (l ++ [a']) :=
    amend ⟨h.ne, h.head, h.link, fun _ _ => trivial⟩ hf hn trivial
  rw [show l ++ [a', b] = l ++ [a'] ++ [b] by simp]
  refine ⟨by simp, fun c hc => h'.head c ?_, ?_, by simpa using ho⟩
  · rwa [List.head?_append_of_ne_nil _ (by simp)] at hc
  · refine List.isChain_append.mpr ⟨h'.link, .singleton _, fun c hc d hd => ?_⟩
    simp only [List.getLast?_append, List.getLast?_singleton, Option.some_or, Option.mem_some_iff,
      List.head?_cons] at hc hd
    exact hc ▸ hd ▸ hb

/-- A version is the last one, or is tied to one after it. -/
theorem eq_last_or_next (h : l.IsChain next) (ha : a ∈ l) : l.getLast? = some a ∨ ∃ b ∈ l, next a b := by
  obtain ⟨s, t, rfl⟩ := List.append_of_mem ha
  cases t with
  | nil => exact .inl (by simp)
  | cons b t => exact .inr ⟨b, by simp, (List.isChain_append_cons_cons.mp h).2.1⟩

/-- A version is the first one, or one before it is tied to it. -/
theorem eq_head_or_prev (h : l.IsChain next) (ha : a ∈ l) : l.head? = some a ∨ ∃ b ∈ l, next b a := by
  obtain ⟨s, t, rfl⟩ := List.append_of_mem ha
  rcases s.eq_nil_or_concat with rfl | ⟨s, b, rfl⟩
  · exact .inl rfl
  · rw [List.concat_eq_append, List.append_assoc, List.singleton_append] at h
    exact .inr ⟨b, by simp, (List.isChain_append_cons_cons.mp h).2.1⟩

/-- Versions that count up are numbered below the last. -/
theorem lt_last {f : ρ → Nat} (h : (l ++ [a]).IsChain fun a b => f b = f a + 1) : ∀ b ∈ l, f b < f a := by
  have hlt : ((l ++ [a]).map f).IsChain (· < ·) :=
    (List.isChain_map f).mpr (h.imp fun b c (hbc : f c = f b + 1) => by omega)
  rw [List.isChain_iff_pairwise, List.map_append, List.pairwise_append] at hlt
  exact fun b hb => hlt.2.2 _ (List.mem_map_of_mem hb) _ (.head _)

/-- The numbers of versions that count up by one, from the first one's. -/
theorem map_eq_range' {f : ρ → Nat} {k : Nat} :
    ∀ {l : List ρ}, (∀ a ∈ l.head?, f a = k) → l.IsChain (fun a b => f b = f a + 1) →
      l.map f = List.range' k l.length
  | [], _, _ => rfl
  | [a], h, _ => by simpa using h
  | a :: b :: l, h, hc => by
    have ha : f a = k := h a rfl
    obtain ⟨hab, hc⟩ := List.isChain_cons_cons.mp hc
    have := map_eq_range' (k := k + 1) (l := b :: l) (by simp [hab, ha]) hc
    simp only [List.map_cons, List.length_cons, List.range'_succ, List.cons.injEq] at this ⊢
    exact ⟨ha, this⟩

end Linked

/-- Versions under each key. -/
abbrev Ledger (ι ρ : Type*) := ι → List ρ

namespace Ledger

variable {ι ρ : Type*} [DecidableEq ι]

/-- A first version under a new key. -/
def create (L : Ledger ι ρ) (i : ι) (a : ρ) : Ledger ι ρ := Function.update L i [a]

/-- The last version under `i` rewritten by `f`. -/
def amend (L : Ledger ι ρ) (i : ι) (f : ρ → ρ) : Ledger ι ρ :=
  match (L i).getLast? with
  | none => L
  | some a => Function.update L i ((L i).dropLast ++ [f a])

/-- The last version under `i` closed by `close new`, and the `new` one that `f` makes of it added. -/
def extend (L : Ledger ι ρ) (i : ι) (f : ρ → ρ) (close : ρ → ρ → ρ) : Ledger ι ρ :=
  match (L i).getLast? with
  | none => L
  | some a => Function.update L i ((L i).dropLast ++ [close (f a) a, f a])

theorem amend_of_ne (L : Ledger ι ρ) {i j : ι} (f : ρ → ρ) (h : j ≠ i) : L.amend i f j = L j := by
  unfold amend
  cases (L i).getLast? with
  | none => rfl
  | some a => exact Function.update_of_ne h _ _

theorem extend_of_ne (L : Ledger ι ρ) {i j : ι} (f : ρ → ρ) (close : ρ → ρ → ρ) (h : j ≠ i) :
    L.extend i f close j = L j := by
  unfold extend
  cases (L i).getLast? with
  | none => rfl
  | some a => exact Function.update_of_ne h _ _

theorem create_of_ne (L : Ledger ι ρ) {i j : ι} (a : ρ) (h : j ≠ i) : L.create i a j = L j :=
  Function.update_of_ne h _ _

@[simp] theorem create_self (L : Ledger ι ρ) (i : ι) (a : ρ) : L.create i a i = [a] := Function.update_self ..

theorem amend_self (L : Ledger ι ρ) {i : ι} {f : ρ → ρ} {l : List ρ} {a : ρ} (h : L i = l ++ [a]) :
    L.amend i f i = l ++ [f a] := by
  simp [amend, h]

theorem extend_self (L : Ledger ι ρ) {i : ι} {f : ρ → ρ} {close : ρ → ρ → ρ} {l : List ρ} {a : ρ}
    (h : L i = l ++ [a]) : L.extend i f close i = l ++ [close (f a) a, f a] := by
  simp [extend, h]

theorem mem_create {L : Ledger ι ρ} {i j : ι} {a b : ρ} (h : b ∈ L.create i a j) : b ∈ L j ∨ j = i ∧ b = a := by
  by_cases hj : j = i
  · subst hj
    rw [create_self, List.mem_singleton] at h
    exact .inr ⟨rfl, h⟩
  · exact .inl (by rwa [L.create_of_ne a hj] at h)

/-- A version is an old one, or the amended one. -/
theorem mem_amend {L : Ledger ι ρ} {i j : ι} {f : ρ → ρ} {b : ρ} (h : b ∈ L.amend i f j) :
    b ∈ L j ∨ j = i ∧ ∃ a ∈ L j, b = f a := by
  by_cases hj : j = i
  · subst hj
    rcases (L j).eq_nil_or_concat with hL | ⟨l, a, hL⟩
    · simp only [amend, hL, List.getLast?_nil, List.not_mem_nil] at h
    · rw [List.concat_eq_append] at hL
      rw [L.amend_self hL, List.mem_append, List.mem_singleton] at h
      rw [hL]
      exact h.imp (fun h => by simp [h]) fun h => ⟨rfl, a, by simp, h⟩
  · exact .inl (by rwa [L.amend_of_ne f hj] at h)

/-- A version is an old one, the closed one or the new one. -/
theorem mem_extend {L : Ledger ι ρ} {i j : ι} {f : ρ → ρ} {close : ρ → ρ → ρ} {b : ρ} (h : b ∈ L.extend i f close j) :
    b ∈ L j ∨ j = i ∧ ∃ a ∈ L j, b = close (f a) a ∨ b = f a := by
  by_cases hj : j = i
  · subst hj
    rcases (L j).eq_nil_or_concat with hL | ⟨l, a, hL⟩
    · simp only [extend, hL, List.getLast?_nil, List.not_mem_nil] at h
    · rw [List.concat_eq_append] at hL
      rw [L.extend_self hL, List.mem_append, List.mem_cons, List.mem_singleton] at h
      rw [hL]
      exact h.imp (fun h => by simp [h]) fun h => ⟨rfl, a, by simp, h⟩
  · exact .inl (by rwa [L.extend_of_ne f close hj] at h)

end Ledger
