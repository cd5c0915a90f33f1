import Mathlib.Order.Lattice
import Mathlib.Data.List.Nodup

/-!
# Stable sorting by a key

`stableSort f l` is `sorted(l, key=f)`. What it puts first has a smaller key, or the
same key and stood before (`pairwise_stableSort`). An element that is last in the
list and has a greatest key stays last (`stableSort_concat`).
-/

section

variable {α β : Type*} [LinearOrder β] {f : α → β} {l : List α}

/-- `sorted(l, key=f)`. -/
def stableSort (f : α → β) (l : List α) : List α := l.mergeSort fun a b => f a ≤ f b

theorem stableSort_perm : (stableSort f l).Perm l := List.mergeSort_perm ..

@[simp] theorem mem_stableSort {a : α} : a ∈ stableSort f l ↔ a ∈ l := List.mem_mergeSort

@[simp] theorem length_stableSort : (stableSort f l).length = l.length := List.length_mergeSort _

theorem stableSort_of_pairwise (h : l.Pairwise fun a b => f a ≤ f b) : stableSort f l = l :=
  List.mergeSort_of_pairwise (h.imp fun hab => decide_eq_true hab)

theorem le_trans_key (a b c : α) (hab : decide (f a ≤ f b) = true) (hbc : decide (f b ≤ f c) = true) :
    decide (f a ≤ f c) = true :=
  decide_eq_true ((of_decide_eq_true hab).trans (of_decide_eq_true hbc))

theorem le_total_key (a b : α) : (decide (f a ≤ f b) || decide (f b ≤ f a)) = true := by
  simpa using le_total (f a) (f b)

theorem pairwise_le_stableSort : (stableSort f l).Pairwise fun a b => f a ≤ f b :=
  (List.pairwise_mergeSort le_trans_key le_total_key l).imp fun hab => of_decide_eq_true hab

/-- The elements with one key keep their order. -/
theorem filter_stableSort (v : β) : (stableSort f l).filter (f · = v) = l.filter (f · = v) := by
  have hkey : ∀ a ∈ l.filter (f · = v), f a = v := fun a ha => of_decide_eq_true (List.mem_filter.mp ha).2
  have hsorted : (l.filter (f · = v)).Pairwise fun a b => decide (f a ≤ f b) = true :=
    List.pairwise_of_forall_mem_list fun a ha b hb => decide_eq_true ((hkey a ha).trans (hkey b hb).symm).le
  have hsub : (l.filter (f · = v)).Sublist (stableSort f l) :=
    List.sublist_mergeSort le_trans_key le_total_key hsorted List.filter_sublist
  have hfilter := hsub.filter (f · = v)
  rw [List.filter_filter, List.filter_congr fun a _ => Bool.and_self _] at hfilter
  exact (hfilter.eq_of_length (stableSort_perm.filter _).length_eq.symm).symm

/-- `a` goes before `b`: its key is smaller, or the keys are the same and it stands before. -/
def Before (f : α → β) (l : List α) (a b : α) : Prop := f a < f b ∨ f a = f b ∧ [a, b].Sublist l

/-- What comes after the list changes nothing in it. -/
theorem Before.of_concat {a b x : α} (h : Before f (l ++ [x]) a b) (hb : b ≠ x) : Before f l a b := by
  refine h.imp_right fun ⟨heq, hsub⟩ => ⟨heq, ?_⟩
  obtain ⟨l₁, l₂, hl, h₁, h₂⟩ := List.sublist_append_iff.mp hsub
  rcases l₂.eq_nil_or_concat with rfl | ⟨l₂, y, rfl⟩
  · rwa [hl, List.append_nil]
  · have hlast := congrArg List.getLast? hl
    rw [List.concat_eq_append] at h₂ hlast
    have hy : y = x := List.mem_singleton.mp (h₂.subset (List.mem_append_right l₂ (.head _)))
    simp [hy] at hlast
    exact absurd hlast hb

theorem pairwise_stableSort : (stableSort f l).Pairwise (Before f l) := by
  rw [List.pairwise_iff_forall_sublist]
  intro a b hab
  have hle : f a ≤ f b := List.pairwise_iff_forall_sublist.mp pairwise_le_stableSort hab
  rcases hle.lt_or_eq with hlt | heq
  · exact .inl hlt
  · refine .inr ⟨heq, ?_⟩
    have hfilter := hab.filter (f · = f b)
    rw [filter_stableSort] at hfilter
    simp only [heq, decide_true, List.filter_cons_of_pos, List.filter_nil] at hfilter
    exact hfilter.trans List.filter_sublist

/-- The greatest element stays last. -/
theorem stableSort_concat {x : α} (h : ∀ a ∈ l, f a ≤ f x) : ∃ s, stableSort f (l ++ [x]) = s ++ [x] := by
  have hne : stableSort f (l ++ [x]) ≠ [] := fun h => by simpa using congrArg List.length h
  obtain ⟨s, y, hs⟩ := (List.eq_nil_or_concat _).resolve_left hne
  rw [List.concat_eq_append] at hs
  have hmem {a : α} : a ∈ s ++ [y] ↔ a ∈ l ++ [x] := hs ▸ mem_stableSort
  have hyx : f y ≤ f x := by
    rcases List.mem_append.mp (hmem.mp (List.mem_append_right s (.head _))) with hy | hy
    · exact h y hy
    · exact (congrArg f (List.mem_singleton.mp hy)).le
  have hxy : f x ≤ f y := by
    have hsorted := pairwise_le_stableSort (f := f) (l := l ++ [x])
    rw [hs, List.pairwise_append] at hsorted
    rcases List.mem_append.mp (hmem.mpr (List.mem_append_right l (.head _))) with hx | hx
    · exact hsorted.2.2 x hx y (.head _)
    · exact (congrArg f (List.mem_singleton.mp hx)).le
  -- both are the last element with the greatest key
  have hlast := congrArg List.getLast? (filter_stableSort (f := f) (l := l ++ [x]) (f x))
  rw [hs, List.filter_append, List.filter_append, List.filter_cons_of_pos (by simp [le_antisymm hyx hxy]),
    List.filter_cons_of_pos (by simp)] at hlast
  simp only [List.filter_nil, List.getLast?_append, List.getLast?_singleton, Option.some_or,
    Option.some.injEq] at hlast
  exact ⟨s, by rw [hs, hlast]⟩

end
