import KCore.Lib.Text

/-!
# Rows of Markdown tables

A row is its cells, each between two bars. A text without a bar stands in a row
exactly if it stands in a cell (`isInfix_barred`). A row stripped of bars and split
at them gives the cells back if the first and the last are not empty
(`split_strip_barred`), and fewer cells else (`length_split_strip_barred`).
-/

namespace Markdown

open Text

/-- `|c₁|…|cₙ|`. -/
def barred : List Str → Str
  | [] => ['|']
  | c :: cs => '|' :: (c ++ barred cs)

/-- A row of `n` cells on one line. -/
structure Row (n : Nat) where
  cells : List Str
  length_eq : cells.length = n
  noBar : ∀ c ∈ cells, '|' ∉ c
  oneLine : ∀ c ∈ cells, '\n' ∉ c

def Row.text {n : Nat} (r : Row n) : Str := barred r.cells

theorem barred_eq_cons : ∀ cs : List Str, ∃ t, barred cs = '|' :: t
  | [] => ⟨[], rfl⟩
  | c :: cs => ⟨c ++ barred cs, rfl⟩

theorem barred_append_bar : ∀ {cs : List Str}, cs ≠ [] → barred cs = '|' :: (join ['|'] cs ++ ['|'])
  | [c], _ => by simp [barred]
  | c :: d :: cs, _ => by
    rw [barred, barred_append_bar (List.cons_ne_nil d cs)]
    simp

theorem barred_head (cs : List Str) : (barred cs).head? = some '|' := by
  obtain ⟨t, ht⟩ := barred_eq_cons cs
  rw [ht]; rfl

theorem barred_last : ∀ cs : List Str, (barred cs).getLast? = some '|'
  | [] => rfl
  | c :: cs => by
    rw [barred_append_bar (List.cons_ne_nil c cs), ← List.cons_append, List.getLast?_concat]

/-- Rows below each other begin and end with a bar. -/
theorem barred_lines_ends {ls : List Str} (hne : ls ≠ []) (hl : ∀ l ∈ ls, ∃ cs, l = barred cs) :
    (join ['\n'] ls).head? = some '|' ∧ (join ['\n'] ls).getLast? = some '|' := by
  have hnil (cs : List Str) : barred cs ≠ [] := by
    obtain ⟨t, ht⟩ := barred_eq_cons cs
    simp [ht]
  constructor
  · obtain ⟨l, ls, rfl⟩ := List.exists_cons_of_ne_nil hne
    obtain ⟨cs, rfl⟩ := hl l (by simp)
    rw [join_head (hnil cs), barred_head]
  · have hlast := List.getLast?_eq_some_getLast hne
    obtain ⟨cs, hcs⟩ := hl _ (List.getLast_mem hne)
    rw [hcs] at hlast
    rw [join_last hlast (hnil cs), barred_last]

theorem mem_barred {x : Char} : ∀ {cs : List Str}, x ∈ barred cs → x = '|' ∨ ∃ c ∈ cs, x ∈ c
  | [], h => by simp only [barred, List.mem_singleton] at h; exact .inl h
  | c :: cs, h => by
    simp only [barred, List.mem_cons, List.mem_append] at h
    rcases h with h | h | h
    · exact .inl h
    · exact .inr ⟨c, by simp, h⟩
    · rcases mem_barred h with h | ⟨d, hd, h⟩
      · exact .inl h
      · exact .inr ⟨d, by simp [hd], h⟩

theorem newline_notMem_barred {cs : List Str} (hc : ∀ c ∈ cs, '\n' ∉ c) : '\n' ∉ barred cs := by
  intro h
  rcases mem_barred h with h | ⟨c, hcs, h⟩
  · exact absurd h (by decide)
  · exact hc c hcs h

theorem Row.newline_notMem {n : Nat} (r : Row n) : '\n' ∉ r.text := newline_notMem_barred r.oneLine

theorem isInfix_cons_bar {w s : Str} (hw : '|' ∉ w) (hne : w ≠ []) : w <:+: '|' :: s ↔ w <:+: s := by
  have := isInfix_append_cons (a := []) (b := s) hw hne
  rwa [List.nil_append, List.infix_nil, or_iff_right hne] at this

/-- A text without a bar stands in one of the cells or after the row. -/
theorem isInfix_barred_append {w s : Str} (hw : '|' ∉ w) (hne : w ≠ []) :
    ∀ {cs : List Str}, w <:+: barred cs ++ s ↔ (∃ c ∈ cs, w <:+: c) ∨ w <:+: s
  | [] => by
    rw [barred, List.cons_append, isInfix_cons_bar hw hne]
    simp
  | c :: cs => by
    obtain ⟨t, ht⟩ := barred_eq_cons cs
    have ih := @isInfix_barred_append w s hw hne cs
    rw [ht, List.cons_append, isInfix_cons_bar hw hne] at ih
    rw [barred, List.cons_append, isInfix_cons_bar hw hne, List.append_assoc, ht, List.cons_append,
      isInfix_append_cons hw hne, ih]
    simp [or_assoc]

theorem isInfix_barred {w : Str} (hw : '|' ∉ w) (hne : w ≠ []) {cs : List Str} :
    w <:+: barred cs ↔ ∃ c ∈ cs, w <:+: c := by
  have := @isInfix_barred_append w [] hw hne cs
  rwa [List.append_nil, List.infix_nil, or_iff_left hne] at this

theorem count_barred : ∀ {cs : List Str}, (∀ c ∈ cs, '|' ∉ c) → (barred cs).count '|' = cs.length + 1
  | [], _ => rfl
  | c :: cs, h => by
    have ih := count_barred fun d hd => h d (List.mem_cons_of_mem c hd)
    rw [barred, List.count_cons_self, List.count_append, List.count_eq_zero_of_not_mem (h c (by simp)), ih,
      List.length_cons]
    omega

variable {cs : List Str} {c d : Str}

/-- The cells of a row, read back. -/
theorem split_strip_barred (hb : ∀ c ∈ cs, '|' ∉ c) (hh : cs.head? = some c) (hc : c ≠ [])
    (hl : cs.getLast? = some d) (hd : d ≠ []) : split '|' (stripChar '|' (barred cs)) = cs := by
  have hne : cs ≠ [] := by rintro rfl; simp at hh
  have hsep (e : Str) (he : e ∈ cs) (x : Char) (hx : x ∈ e) : (x == '|') = false := by
    rw [beq_eq_false_iff_ne]
    rintro rfl
    exact hb e he hx
  have hhead : (join ['|'] cs).head? = c.head? := by
    obtain ⟨b, cs, rfl⟩ := List.exists_cons_of_ne_nil hne
    obtain rfl : b = c := by simpa using hh
    exact join_head hc
  have hlast : (join ['|'] cs).getLast? = d.getLast? := join_last hl hd
  have hj : join ['|'] cs ≠ [] := by
    intro hj
    rw [hj, List.head?_nil, eq_comm, List.head?_eq_none_iff] at hhead
    exact hc hhead
  have hstrip : stripChar '|' (['|'] ++ join ['|'] cs ++ ['|']) = join ['|'] cs := by
    apply stripBy_append (by simp) (by simp) hj
    · intro x hx
      exact hsep c (List.mem_of_mem_head? hh) x (List.mem_of_mem_head? (hhead ▸ hx))
    · intro x hx
      exact hsep d (List.mem_of_mem_getLast? hl) x (List.mem_of_mem_getLast? (hlast ▸ hx))
  rw [barred_append_bar hne]
  change split '|' (stripChar '|' (['|'] ++ join ['|'] cs ++ ['|'])) = cs
  rw [hstrip, split_join hne hb]

theorem length_split_strip_le (hb : ∀ c ∈ cs, '|' ∉ c) (hne : cs ≠ []) :
    (split '|' (stripChar '|' (barred cs))).length ≤ cs.length := by
  have hcount := count_barred hb
  rw [barred_append_bar hne, List.count_cons_self, List.count_append, List.count_singleton_self] at hcount
  rw [barred_append_bar hne, stripChar, stripBy_cons (by decide), stripBy_concat (by decide), length_split]
  have := (stripBy_isInfix (· == '|') (join ['|'] cs)).sublist.count_le '|'
  omega

theorem barred_concat_nil : ∀ cs : List Str, barred (cs ++ [[]]) = barred cs ++ ['|']
  | [] => rfl
  | c :: cs => by simp [barred, barred_concat_nil cs]

/-- An empty cell at an end of a row is lost. -/
theorem length_split_strip_barred (hb : ∀ c ∈ cs, '|' ∉ c) (hlen : 2 ≤ cs.length)
    (he : cs.head? = some [] ∨ cs.getLast? = some []) :
    (split '|' (stripChar '|' (barred cs))).length < cs.length := by
  rcases he with he | he
  · obtain ⟨c, cs, rfl⟩ : ∃ c t, cs = c :: t := List.exists_cons_of_ne_nil (by rintro rfl; simp at he)
    obtain rfl : c = [] := by simpa using he
    rw [List.length_cons] at hlen ⊢
    have hle := length_split_strip_le (fun c hc => hb c (.tail _ hc)) (List.ne_nil_of_length_pos (by omega))
    rw [barred, List.nil_append, stripChar, stripBy_cons (by decide)]
    exact Nat.lt_succ_of_le hle
  · obtain ⟨cs, rfl⟩ := List.getLast?_eq_some_iff.mp he
    rw [List.length_append, List.length_singleton] at hlen ⊢
    have hle := @length_split_strip_le cs (fun c hc => hb c (List.mem_append_left _ hc))
      (List.ne_nil_of_length_pos (by omega))
    rw [barred_concat_nil, stripChar, stripBy_concat (by decide)]
    exact Nat.lt_succ_of_le hle

end Markdown
