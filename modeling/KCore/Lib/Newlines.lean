import KCore.Lib.Lines

/-!
# Universal newlines

A text file that is read has one kind of line break: `\r\n` and `\r` become `\n`
(`universalNewlines`). A text without `\n` and `\r` stands in the result where it
stood in the file (`find_universalNewlines`).
-/

namespace Text

/-- `\r` before `\n` is left out, any other one becomes `\n`. -/
def universalNewlines : Str → Str
  | [] => []
  | c :: s =>
    if c = '\r' then
      if s.head? = some '\n' then universalNewlines s else '\n' :: universalNewlines s
    else c :: universalNewlines s

@[simp] theorem universalNewlines_nil : universalNewlines [] = [] := rfl

theorem universalNewlines_cons {c : Char} (h : c ≠ '\r') (s : Str) :
    universalNewlines (c :: s) = c :: universalNewlines s := if_neg h

theorem universalNewlines_of_notMem : ∀ {s : Str}, '\r' ∉ s → universalNewlines s = s
  | [], _ => rfl
  | c :: s, h => by
    rw [List.mem_cons, not_or] at h
    rw [universalNewlines_cons (Ne.symm h.1), universalNewlines_of_notMem h.2]

theorem cr_notMem_universalNewlines : ∀ s : Str, '\r' ∉ universalNewlines s
  | [] => List.not_mem_nil
  | c :: s => by
    have ih := cr_notMem_universalNewlines s
    rw [universalNewlines]
    split
    · split
      · exact ih
      · exact fun h => (List.mem_cons.mp h).elim (by decide) ih
    · rename_i hc
      exact fun h => (List.mem_cons.mp h).elim (Ne.symm hc) ih

/-- Two texts are read one after another, unless a `\r\n` is between them. -/
theorem universalNewlines_append {t : Str} : ∀ {s : Str}, s.getLast? ≠ some '\r' ∨ t.head? ≠ some '\n' →
    universalNewlines (s ++ t) = universalNewlines s ++ universalNewlines t
  | [], _ => rfl
  | [c], h => by
    by_cases hc : c = '\r'
    · subst hc
      have ht : t.head? ≠ some '\n' := h.resolve_left fun hne => hne rfl
      simp [universalNewlines, ht]
    · simp [universalNewlines, hc]
  | c :: d :: s, h => by
    have ih : universalNewlines (d :: s ++ t) = universalNewlines (d :: s) ++ universalNewlines t :=
      universalNewlines_append (by rwa [List.getLast?_cons_cons] at h)
    rw [List.cons_append, universalNewlines, universalNewlines, List.cons_append, List.head?_cons, List.head?_cons]
    split_ifs
    · exact ih
    · exact congrArg ('\n' :: ·) ih
    · exact congrArg (c :: ·) ih

/-- A `\r\n` between two texts. -/
theorem universalNewlines_crlf (s t : Str) :
    universalNewlines (s ++ '\r' :: '\n' :: t) = universalNewlines s ++ '\n' :: universalNewlines t := by
  rw [universalNewlines_append (.inr (by simp))]
  rfl

theorem universalNewlines_concat_cr (s : Str) : universalNewlines (s ++ ['\r']) = universalNewlines s ++ ['\n'] := by
  rw [universalNewlines_append (.inr (by simp))]
  rfl

/-- A text on one line that comes first after the reading came first before. -/
theorem isPrefix_of_universalNewlines {t : Str} : ∀ {p s : Str}, '\n' ∉ p → p <+: universalNewlines s ++ t → p <+: s ++ t
  | [], _, _, _ => List.nil_prefix
  | _ :: _, [], _, h => h
  | q :: p, c :: s, hp, h => by
    rw [List.mem_cons, not_or] at hp
    by_cases hc : c = '\r'
    · have hnewline : ∃ u, universalNewlines (c :: s) = '\n' :: u := by
        rw [universalNewlines, if_pos hc]
        split
        · rename_i hs
          obtain ⟨s', rfl⟩ := List.head?_eq_some_iff.mp hs
          exact ⟨_, universalNewlines_cons (by decide) s'⟩
        · exact ⟨_, rfl⟩
      obtain ⟨u, hu⟩ := hnewline
      rw [hu] at h
      exact absurd (List.cons_prefix_cons.mp h).1.symm hp.1
    · rw [universalNewlines_cons hc, List.cons_append, List.cons_prefix_cons] at h
      exact List.cons_prefix_cons.mpr ⟨h.1, isPrefix_of_universalNewlines hp.2 h.2⟩

theorem find_universalNewlines {p : Str} (hp : '\n' ∉ p) (hr : '\r' ∉ p) : ∀ {s : Str}, find p (s ++ p) = some s.length →
    find p (universalNewlines s ++ p) = some (universalNewlines s).length
  | [], h => h
  | c :: s, h => by
    have hnot : ¬p <+: c :: (s ++ p) := fun hpre => by
      rw [List.cons_append, find, if_pos hpre] at h
      simp at h
    have hrest : find p (s ++ p) = some s.length := by
      rw [List.cons_append, find, if_neg hnot, List.length_cons, Option.map_eq_some_iff] at h
      obtain ⟨n, hn, he⟩ := h
      rw [hn, Nat.succ.inj he]
    have ih := find_universalNewlines hp hr hrest
    have hcons {d : Char} (hd : ¬p <+: d :: (universalNewlines s ++ p)) :
        find p (d :: universalNewlines s ++ p) = some (d :: universalNewlines s).length := by
      rw [List.cons_append, find, if_neg hd, ih]
      rfl
    rw [universalNewlines]
    split
    · split
      · exact ih
      · refine hcons fun hpre => hnot ?_
        cases p with
        | nil => exact List.nil_prefix
        | cons q p => exact absurd (List.cons_prefix_cons.mp hpre).1.symm (List.ne_of_not_mem_cons hp)
    · rename_i hc
      refine hcons fun hpre => hnot ?_
      rw [← List.cons_append, ← universalNewlines_cons hc] at hpre
      exact isPrefix_of_universalNewlines hp hpre

theorem find_eq_none_iff {p : Str} : ∀ {s : Str}, find p s = none ↔ ¬p <:+: s
  | [] => by simp [find, List.infix_nil]
  | c :: s => by
    rw [find, List.infix_cons_iff, not_or, ← find_eq_none_iff]
    split <;> simp [*]

theorem isInfix_of_universalNewlines {p : Str} (hp : '\n' ∉ p) : ∀ {s : Str}, p <:+: universalNewlines s → p <:+: s
  | [], h => h
  | c :: s, h => by
    have ih := @isInfix_of_universalNewlines p hp s
    rw [List.infix_cons_iff]
    by_cases hc : c = '\r'
    · rw [universalNewlines, if_pos hc] at h
      split at h
      · exact .inr (ih h)
      · rcases List.infix_cons_iff.mp h with hpre | hin
        · cases p with
          | nil => exact .inl List.nil_prefix
          | cons q p => exact absurd (List.cons_prefix_cons.mp hpre).1.symm (List.ne_of_not_mem_cons hp)
        · exact .inr (ih hin)
    · rw [universalNewlines_cons hc] at h
      rcases List.infix_cons_iff.mp h with hpre | hin
      · rw [← universalNewlines_cons hc, ← List.append_nil (universalNewlines _)] at hpre
        have := isPrefix_of_universalNewlines hp hpre
        exact .inl (by rwa [List.append_nil] at this)
      · exact .inr (ih hin)

/-- A text on one line, however it is read. -/
def Unbroken (s : Str) : Prop := '\n' ∉ s ∧ '\r' ∉ s

instance (s : Str) : Decidable (Unbroken s) := inferInstanceAs (Decidable (_ ∧ _))

theorem unbroken_nil : Unbroken [] := ⟨List.not_mem_nil, List.not_mem_nil⟩

theorem Unbroken.append {s t : Str} (hs : Unbroken s) (ht : Unbroken t) : Unbroken (s ++ t) :=
  ⟨fun h => (List.mem_append.mp h).elim hs.1 ht.1, fun h => (List.mem_append.mp h).elim hs.2 ht.2⟩

theorem unbroken_join {sep : Str} (hsep : Unbroken sep) : ∀ {ls : List Str}, (∀ l ∈ ls, Unbroken l) →
    Unbroken (join sep ls)
  | [], _ => unbroken_nil
  | [l], h => by rw [join_singleton]; exact h l (.head _)
  | l :: l' :: ls, h => by
    rw [join_cons_cons]
    exact (h l (.head _)).append (hsep.append (unbroken_join hsep fun x hx => h x (.tail _ hx)))

/-! ## Lines of two texts -/

/-- The last line, which has no newline after it. -/
def lastLine (s : Str) : Str := (lines s).getLast (lines_ne_nil s)

/-- The lines before the last. -/
def fullLines (s : Str) : List Str := (lines s).dropLast

theorem lines_eq (s : Str) : lines s = fullLines s ++ [lastLine s] := (List.dropLast_append_getLast (lines_ne_nil s)).symm

theorem eq_above_lastLine (s : Str) : s = above (fullLines s) ++ lastLine s := by
  have h := eq_above_below (lines_eq s)
  rwa [below_nil, List.append_nil] at h

theorem newline_notMem_lastLine (s : Str) : '\n' ∉ lastLine s :=
  newline_notMem_lines _ (List.getLast_mem (lines_ne_nil s))

/-- The last line of a text goes on in the next. -/
theorem lines_append (s t : Str) : lines (s ++ t) = fullLines s ++ lines (lastLine s ++ t) := by
  have hfull : ∀ l ∈ fullLines s, '\n' ∉ l := fun l hl => newline_notMem_lines l (List.mem_of_mem_dropLast hl)
  have h := lines_around hfull (fun l (h : l ∈ []) => absurd h List.not_mem_nil) (lastLine s ++ t)
  rw [below_nil, List.append_nil, List.append_nil, ← List.append_assoc, ← eq_above_lastLine] at h
  exact h

/-- No line that is over before the first place of a text has it. -/
theorem find_fullLines {p : Str} (hp : '\n' ∉ p) (hne : p ≠ []) {s : Str} (h : find p (s ++ p) = some s.length) :
    ∀ l ∈ fullLines s, find p l = none := by
  have habove : ∀ (ls : List Str) (x : Str), find p (above ls ++ x ++ p) = some (above ls ++ x).length →
      ∀ l ∈ ls, find p l = none := by
    intro ls
    induction ls with
    | nil => exact fun x _ => nofun
    | cons l ls ih =>
      intro x hx
      rw [above_cons, List.append_assoc, List.append_assoc, List.cons_append, find_append_newline hp hne] at hx
      cases hl : find p l with
      | some n =>
        rw [hl, Option.some_or, Option.some.injEq] at hx
        have hlength := length_of_find hl
        simp only [List.length_append, List.length_cons] at hx
        omega
      | none =>
        rw [hl, Option.none_or, Option.map_eq_some_iff] at hx
        obtain ⟨n, hn, hlength⟩ := hx
        refine List.forall_mem_cons.mpr ⟨hl, ih x ?_⟩
        rw [List.append_assoc, hn]
        simp only [List.length_append, List.length_cons] at hlength ⊢
        exact congrArg some (by omega)
  have hs := eq_above_lastLine s
  exact habove (fullLines s) (lastLine s) (by rwa [← hs])

theorem above_lines (s : Str) : above (lines s) = s ++ ['\n'] := by
  nth_rewrite 2 [eq_above_lastLine s]
  rw [lines_eq, above_append, above_cons, above_nil, List.append_assoc]

theorem lines_append_newline (s t : Str) : lines (s ++ '\n' :: t) = lines s ++ lines t := by
  have h := lines_around (@newline_notMem_lines s) (fun l (h : l ∈ []) => absurd h List.not_mem_nil) t
  rwa [above_lines, below_nil, List.append_nil, List.append_nil, List.append_assoc, List.singleton_append] at h

/-- A newline at the end is still there. -/
theorem lastLine_universalNewlines (s : Str) : lastLine (universalNewlines (s ++ ['\n'])) = [] := by
  have hlast (t : Str) : lastLine (t ++ ['\n']) = [] := by
    simp only [lastLine, lines_append_newline]
    exact List.getLast_append_of_ne_nil _ (List.cons_ne_nil _ _)
  by_cases hs : s.getLast? = some '\r'
  · obtain ⟨t, rfl⟩ := List.getLast?_eq_some_iff.mp hs
    rw [List.append_assoc, List.singleton_append, universalNewlines_crlf]
    exact hlast _
  · rw [universalNewlines_append (.inl hs)]
    exact hlast _

end Text
