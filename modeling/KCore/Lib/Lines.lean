import KCore.Lib.Text

/-!
# Lines of a text

`lines` are the parts between newlines. Where a text stands that has no newline, or
that begins with its only one, is said of the lines: `find_lines`, `find_newline`.
-/

namespace Text

/-- The lines, each with a newline before it. -/
def below (ls : List Str) : Str := ls.flatMap ('\n' :: ·)

/-- The lines, each with a newline after it. -/
def above (ls : List Str) : Str := ls.flatMap (· ++ ['\n'])

def lines (s : Str) : List Str := split '\n' s

@[simp] theorem below_nil : below [] = [] := rfl

@[simp] theorem below_cons (l : Str) (ls : List Str) : below (l :: ls) = '\n' :: (l ++ below ls) := rfl

@[simp] theorem above_nil : above [] = [] := rfl

@[simp] theorem above_cons (l : Str) (ls : List Str) : above (l :: ls) = l ++ '\n' :: above ls := by
  simp [above]

theorem below_append (ls ls' : List Str) : below (ls ++ ls') = below ls ++ below ls' := List.flatMap_append

theorem above_append (ls ls' : List Str) : above (ls ++ ls') = above ls ++ above ls' := List.flatMap_append

theorem join_newline (l : Str) : ∀ ls : List Str, join ['\n'] (l :: ls) = l ++ below ls
  | [] => by simp
  | l' :: ls => by rw [join_cons_cons, join_newline l' ls, below_cons, List.singleton_append]

theorem above_append_below (l : Str) (ls : List Str) :
    ∀ ls' : List Str, above ls' ++ (l ++ below ls) = join ['\n'] (ls' ++ l :: ls)
  | [] => (join_newline l ls).symm
  | [l'] => by simp [join_newline]
  | l₁ :: l₂ :: ls' => by
    have ih := above_append_below l ls (l₂ :: ls')
    rw [above_cons, List.append_assoc, List.cons_append, ih]
    simp

/-- The lines of a text that is built from lines. -/
theorem lines_above_below {ls' ls : List Str} {l : Str} (h : ∀ x ∈ ls' ++ l :: ls, '\n' ∉ x) :
    lines (above ls' ++ (l ++ below ls)) = ls' ++ l :: ls := by
  rw [lines, above_append_below, split_join (by simp) h]

theorem lines_below {ls : List Str} {l : Str} (h : ∀ x ∈ l :: ls, '\n' ∉ x) : lines (l ++ below ls) = l :: ls :=
  @lines_above_below [] ls l h

theorem join_lines (s : Str) : join ['\n'] (lines s) = s := List.intercalate_splitOn '\n'

theorem lines_ne_nil (s : Str) : lines s ≠ [] := List.splitOn_ne_nil '\n' s

theorem newline_notMem_lines : ∀ {s : Str}, ∀ l ∈ lines s, '\n' ∉ l
  | [] => by simp [lines, split]
  | c :: s => by
    have ih := @newline_notMem_lines s
    rw [lines, split] at ih ⊢
    rw [List.splitOn_cons_eq_if_modifyHead]
    cases hs : s.splitOn '\n' with
    | nil => exact absurd hs (List.splitOn_ne_nil _ _)
    | cons l ls =>
      rw [hs] at ih
      split
      · exact List.forall_mem_cons.mpr ⟨List.not_mem_nil, ih⟩
      · rename_i hc
        refine List.forall_mem_cons.mpr ⟨?_, fun x hx => ih x (.tail _ hx)⟩
        rw [List.mem_cons, not_or]
        exact ⟨fun he => hc (beq_iff_eq.mpr he.symm), ih l (.head _)⟩

/-- Every text is its lines before one of them, this line, and the lines after it. -/
theorem eq_above_below {s l : Str} {ls' ls : List Str} (h : lines s = ls' ++ l :: ls) :
    s = above ls' ++ (l ++ below ls) := by
  rw [above_append_below, ← h, join_lines]

theorem below_lines (s : Str) : below (lines s) = '\n' :: s := by
  obtain ⟨l, ls, hs⟩ := List.exists_cons_of_ne_nil (lines_ne_nil s)
  have hjoin := join_newline l ls
  rw [← hs, join_lines] at hjoin
  rw [hs, below_cons, ← hjoin]

/-- The lines of a text between lines. -/
theorem lines_around {ls' ls : List Str} (h' : ∀ l ∈ ls', '\n' ∉ l) (h : ∀ l ∈ ls, '\n' ∉ l) (s : Str) :
    lines (above ls' ++ (s ++ below ls)) = ls' ++ (lines s ++ ls) := by
  obtain ⟨xs, l, hs⟩ := List.eq_nil_or_concat (lines s) |>.resolve_left (lines_ne_nil s)
  rw [List.concat_eq_append] at hs
  have hmem : ∀ x ∈ xs ++ [l], '\n' ∉ x := hs ▸ @newline_notMem_lines s
  have htext : above ls' ++ (s ++ below ls) = above (ls' ++ xs) ++ (l ++ below ls) := by
    nth_rewrite 1 [eq_above_below hs]
    rw [above_append, below_nil, List.append_nil, List.append_assoc, List.append_assoc]
  rw [htext, lines_above_below, hs, List.append_assoc, List.append_assoc, List.singleton_append]
  intro x hx
  simp only [List.mem_append, List.mem_cons] at hx hmem
  rcases hx with (hx | hx) | rfl | hx
  · exact h' x hx
  · exact hmem x (.inl hx)
  · exact hmem x (.inr (.inl rfl))
  · exact h x hx

/-! ## Where a text stands -/

theorem find_spec {p : Str} : ∀ {s : Str} {n : Nat}, find p s = some n →
    ∃ t, s = s.take n ++ (p ++ t) ∧ (s.take n).length = n
  | [], n, h => by
    rw [find] at h
    split at h
    · rename_i hp
      obtain rfl := Option.some.inj h
      exact ⟨[], by simp [hp]⟩
    · cases h
  | c :: s, n, h => by
    rw [find] at h
    split at h
    · rename_i hp
      obtain rfl := Option.some.inj h
      obtain ⟨t, ht⟩ := hp
      exact ⟨t, by simp [ht]⟩
    · obtain ⟨k, hk, rfl⟩ := Option.map_eq_some_iff.mp h
      obtain ⟨t, ht, hlen⟩ := find_spec hk
      refine ⟨t, ?_, by rw [List.take_succ_cons, List.length_cons, hlen]⟩
      rw [List.take_succ_cons, List.cons_append, ← ht]

/-- The first place of a text shows before what follows it. -/
theorem find_of_append {p t : Str} : ∀ {s : Str} {n : Nat}, find p (s ++ t) = some n → n + p.length ≤ s.length →
    find p s = some n
  | [], n, h, hn => by
    obtain ⟨hp, rfl⟩ : p = [] ∧ n = 0 := by
      rw [List.length_nil] at hn
      exact ⟨List.eq_nil_of_length_eq_zero (by omega), by omega⟩
    rw [hp]
    rfl
  | c :: s, n, h, hn => by
    rw [List.cons_append, find] at h
    rw [find]
    split at h
    · rename_i hp
      obtain rfl := Option.some.inj h
      rw [Nat.zero_add] at hn
      exact if_pos (List.prefix_of_prefix_length_le hp (List.prefix_append (c :: s) t) hn)
    · rename_i hp
      obtain ⟨k, hk, rfl⟩ := Option.map_eq_some_iff.mp h
      rw [List.length_cons] at hn
      rw [if_neg (fun h => hp (h.trans (List.prefix_append (c :: s) t))), find_of_append hk (by omega)]
      rfl

theorem length_of_find {p s : Str} {n : Nat} (h : find p s = some n) : n + p.length ≤ s.length := by
  obtain ⟨t, ht, hlen⟩ := find_spec h
  have := congrArg List.length ht
  rw [List.length_append, hlen, List.length_append] at this
  omega

theorem find_append {p t : Str} : ∀ {s : Str} {n : Nat}, find p s = some n → find p (s ++ t) = some n
  | [], n, h => by
    obtain ⟨rfl, rfl⟩ : p = [] ∧ n = 0 := by
      have := length_of_find h
      rw [List.length_nil] at this
      exact ⟨List.eq_nil_of_length_eq_zero (by omega), by omega⟩
    cases t with
    | nil => rfl
    | cons c t => exact if_pos List.nil_prefix
  | c :: s, n, h => by
    have hlen := length_of_find h
    rw [find] at h
    rw [List.cons_append, find]
    split at h
    · rename_i hp
      have hp' : p <+: c :: (s ++ t) := hp.trans (List.prefix_append (c :: s) t)
      rw [if_pos hp', h]
    · rename_i hp
      obtain ⟨k, hk, rfl⟩ := Option.map_eq_some_iff.mp h
      have hp' : ¬p <+: c :: (s ++ t) := fun hp' =>
        hp (List.prefix_of_prefix_length_le hp' (List.prefix_append (c :: s) t) (by omega))
      rw [if_neg hp', find_append hk]
      rfl

/-- A text is found where it stands first whatever follows it. -/
theorem find_change {p a t : Str} (h : find p (a ++ (p ++ t)) = some a.length) (t' : Str) :
    find p (a ++ (p ++ t')) = some a.length := by
  rw [← List.append_assoc] at h ⊢
  exact find_append (find_of_append h (by rw [List.length_append]))

theorem isPrefix_append_below {p l : Str} (hp : '\n' ∉ p) : ∀ {ls : List Str}, p <+: l ++ below ls ↔ p <+: l
  | [] => by simp
  | _ :: _ => isPrefix_append_cons hp

/-- A text without a newline stands before a newline or after it. -/
theorem find_append_newline {p b : Str} (hp : '\n' ∉ p) (hne : p ≠ []) : ∀ a : Str,
    find p (a ++ '\n' :: b) = (find p a).or ((find p b).map (· + (a.length + 1)))
  | [] => by
    have hnp : ¬p <+: '\n' :: b := fun h => hne (List.prefix_nil.mp ((isPrefix_append_cons (a := []) hp).mp h))
    simp [find, hnp, hne]
  | c :: a => by
    have ih := find_append_newline (b := b) hp hne a
    have hpre : p <+: c :: (a ++ '\n' :: b) ↔ p <+: c :: a := isPrefix_append_cons (a := c :: a) hp
    rw [List.cons_append]
    simp only [find, hpre, ih]
    split
    · rfl
    · cases find p a with
      | some n => rfl
      | none => cases find p b <;> rfl

theorem find_above_append {p b : Str} (hp : '\n' ∉ p) (hne : p ≠ []) : ∀ {ls : List Str}, (∀ l ∈ ls, find p l = none) →
    find p (above ls ++ b) = (find p b).map (· + (above ls).length)
  | [], _ => by simp
  | l :: ls, h => by
    rw [above_cons, List.append_assoc, List.cons_append, find_append_newline hp hne, h l (.head _), Option.none_or,
      find_above_append hp hne fun l' hl' => h l' (.tail _ hl'), Option.map_map]
    congr 1
    funext n
    simp
    omega

theorem find_append_below {p l : Str} (hp : '\n' ∉ p) (hne : p ≠ []) {n : Nat} (h : find p l = some n) :
    ∀ ls : List Str, find p (l ++ below ls) = some n
  | [] => by simp [h]
  | _ :: _ => by rw [below_cons, find_append_newline hp hne, h, Option.some_or]

/-- The first line with a text is where the text stands first. -/
theorem find_lines {p l : Str} (hp : '\n' ∉ p) (hne : p ≠ []) {ls' : List Str} (h' : ∀ l ∈ ls', find p l = none)
    {n : Nat} (h : find p l = some n) (ls : List Str) :
    find p (above ls' ++ (l ++ below ls)) = some (n + (above ls').length) := by
  rw [find_above_append hp hne h', find_append_below hp hne h, Option.map_some]

theorem find_eq_none_of_lines {p : Str} (hp : '\n' ∉ p) (hne : p ≠ []) {s : Str} (h : ∀ l ∈ lines s, find p l = none) :
    find p s = none := by
  obtain ⟨ls', l, hs⟩ := List.eq_nil_or_concat (lines s) |>.resolve_left (lines_ne_nil s)
  rw [List.concat_eq_append] at hs
  rw [hs] at h
  rw [eq_above_below hs, find_above_append hp hne fun x hx => h x (List.mem_append_left _ hx), below_nil,
    List.append_nil, h l (by simp), Option.map_none]

/-- A text after a newline is the beginning of a line. -/
theorem find_newline {p : Str} (hp : '\n' ∉ p) : ∀ {a : Str} (ls : List Str), '\n' ∉ a → (∀ l ∈ ls, '\n' ∉ l) →
    find ('\n' :: p) (a ++ below ls) =
      match ls.dropWhile (¬p <+: ·) with
      | [] => none
      | _ => some (a ++ below (ls.takeWhile (¬p <+: ·))).length
  | c :: a, ls, ha, hls => by
    have hc : ¬ '\n' :: p <+: c :: (a ++ below ls) := fun h => ha ((List.cons_prefix_cons.mp h).1 ▸ .head _)
    rw [List.cons_append, find, if_neg hc, find_newline hp ls (fun h => ha (.tail _ h)) hls]
    split <;> rfl
  | [], [], _, _ => by simp [find]
  | [], l :: ls, _, hls => by
    have hpre : '\n' :: p <+: '\n' :: (l ++ below ls) ↔ p <+: l := by
      rw [List.cons_prefix_cons, isPrefix_append_below hp, eq_self, true_and]
    have ih := find_newline hp (a := l) ls (hls l (.head _)) fun x hx => hls x (.tail _ hx)
    rw [List.nil_append, below_cons]
    simp only [find, hpre]
    by_cases hl : p <+: l
    · simp [hl]
    · rw [if_neg hl, ih]
      simp only [List.dropWhile_cons, List.takeWhile_cons, hl, not_false_eq_true, decide_true, ite_true]
      split <;> simp

/-- What follows from the first line that begins with a text, with the newline before it. -/
theorem drop_find_newline {p a : Str} {ls : List Str} (hp : '\n' ∉ p) (ha : '\n' ∉ a) (hls : ∀ l ∈ ls, '\n' ∉ l) :
    (find ('\n' :: p) (a ++ below ls)).elim [] (a ++ below ls).drop = below (ls.dropWhile (¬p <+: ·)) := by
  rw [find_newline hp ls ha hls]
  have hsplit : below ls = below (ls.takeWhile (¬p <+: ·)) ++ below (ls.dropWhile (¬p <+: ·)) := by
    rw [← below_append, List.takeWhile_append_dropWhile]
  cases hdrop : ls.dropWhile (¬p <+: ·) with
  | nil => rfl
  | cons l ls' =>
    rw [Option.elim_some, hsplit, ← List.append_assoc, List.drop_left, hdrop]

end Text
