import KCore.Impl.Hara.Tools

/-!
# The numbered list of functions, read back

A list of functions is written as the extraction prompt asks for it. Its lines are
cut right whatever the names and descriptions are (`functionName_strip_line`), but
a line counts as one of the list only with a digit among its first three
characters, so the names come back just when no line is indented by more than
two blanks (`parse_functions_iff`).
-/

namespace KCore.Hara.FunctionList

open Text

/-- What is used of the Unicode tables: the ASCII digits are digits, and no blank is one. -/
structure Digits (u : Unicode) : Prop where
  ascii : ∀ c, c.isDigit = true → u.isDigit c = true
  blank : ∀ c, isSpace c = true → u.isDigit c = false

/-- A text of blanks, within a line. -/
def Blank (s : Str) : Prop := ∀ c ∈ s, isSpace c = true ∧ c ≠ '\n'

instance (s : Str) : Decidable (Blank s) := inferInstanceAs (Decidable (∀ c ∈ s, isSpace c = true ∧ c ≠ '\n'))

/-- A function of the list, with the blank lines before it. -/
structure Entry where
  blanks : List Str
  indent : Str
  name : Str
  description : Option Str
  blank_lines : ∀ s ∈ blanks, Blank s
  blank_indent : Blank indent
  named : name ≠ []
  trimmed : strip name = name
  no_colon : ':' ∉ name
  name_line : ¬ '\n' ∈ name
  description_line : ∀ d ∈ description, ¬ '\n' ∈ d

/-- `i. Name: description`, or `i. Name`. -/
def Entry.line (i : Nat) (x : Entry) : Str :=
  x.indent ++ (dec i ++ ". ".toList ++ x.name) ++ (x.description.map (": ".toList ++ ·)).getD []

/-- The lines of the list, numbered from `i`, and the blank lines after it. -/
def lines (after : List Str) : Nat → List Entry → List Str
  | _, [] => after
  | i, x :: xs => x.blanks ++ x.line i :: lines after (i + 1) xs

/-- The text of the list. -/
def render (after : List Str) (xs : List Entry) : Str := join ['\n'] (lines after 1 xs)

/-- The names come back, and without a function of its own the HAZOP analysis goes over them all. -/
structure Reads (u : Unicode) (after : List Str) (xs : List Entry) : Prop where
  names : parseFunctionsFromText u (render after xs) = xs.map Entry.name
  analysed : ∀ toolInput, focusFunction toolInput = none →
    functionsToProcess toolInput (parseFunctionsFromText u (render after xs)) = xs.map Entry.name

/-! ## One line -/

theorem Blank.isSpace {s : Str} (h : Blank s) : ∀ c ∈ s, Text.isSpace c = true := fun c hc => (h c hc).1

theorem strip_blank {s : Str} (h : ∀ c ∈ s, isSpace c = true) : strip s = [] := by
  rw [strip, stripBy, List.dropWhile_eq_nil_iff.mpr h, List.rdropWhile_nil]

theorem isSpace_of_isDigit {c : Char} (h : c.isDigit = true) : isSpace c = false := by
  simp only [Char.isDigit, Bool.and_eq_true, decide_eq_true_eq, UInt32.le_iff_toNat_le] at h
  have h48 : 48 ≤ c.toNat := h.1
  have h57 : c.toNat ≤ 57 := h.2
  simp only [isSpace, Bool.or_eq_false_iff, Bool.and_eq_false_iff, decide_eq_false_iff_not, beq_eq_false_iff_ne]
  omega

theorem dec_ne_nil (i : Nat) : dec i ≠ [] := Nat.toDigits_ne_nil

variable {x : Entry} {i : Nat}

/-- The line as far as the name. -/
def Entry.numbered (i : Nat) (x : Entry) : Str := dec i ++ ". ".toList ++ x.name

theorem numbered_head : ∀ c ∈ (x.numbered i).head?, isSpace c = false := by
  intro c hc
  obtain ⟨d, ds, hd⟩ := List.exists_cons_of_ne_nil (dec_ne_nil i)
  simp only [Entry.numbered, hd, List.cons_append, List.head?_cons, Option.mem_some_iff] at hc
  subst hc
  exact isSpace_of_isDigit (isDigit_of_mem_dec (n := i) (by simp [hd]))

theorem numbered_last : ∀ c ∈ (x.numbered i).getLast?, isSpace c = false := by
  intro c hc
  rw [Entry.numbered, List.getLast?_append_of_ne_nil _ x.named, ← x.trimmed] at hc
  exact stripBy_last c hc

/-- Stripped, the line begins with the number, and a colon ends the name. -/
theorem strip_line : ∃ rest, strip (x.line i) = x.numbered i ++ rest ∧ (rest = [] ∨ rest.head? = some ':') := by
  have hne : x.numbered i ≠ [] := by simp [Entry.numbered, dec_ne_nil]
  cases hd : x.description with
  | none =>
    refine ⟨[], ?_, .inl rfl⟩
    rw [Entry.line, hd, List.append_nil]
    exact stripBy_append x.blank_indent.isSpace (fun _ h => absurd h List.not_mem_nil) hne numbered_head numbered_last
  | some d =>
    have ht := @List.rdropWhile_append_rtakeWhile _ isSpace (' ' :: d)
    have hl : x.line i = x.indent ++ (x.numbered i ++ ':' :: (' ' :: d).rdropWhile isSpace) ++
        (' ' :: d).rtakeWhile isSpace := by
      rw [List.append_assoc, List.append_assoc, List.cons_append, ht]
      simp [Entry.line, Entry.numbered, hd]
    refine ⟨':' :: (' ' :: d).rdropWhile isSpace, ?_, .inr rfl⟩
    rw [hl]
    refine stripBy_append x.blank_indent.isSpace (fun c hc => List.mem_rtakeWhile_imp hc) (by simp) ?_ ?_
    · rw [List.head?_append_of_ne_nil _ hne]
      exact numbered_head
    · intro c hc
      rw [List.getLast?_append_of_ne_nil _ (by simp)] at hc
      by_cases hr : (' ' :: d).rdropWhile isSpace = []
      · rw [hr, List.getLast?_singleton, Option.mem_some_iff] at hc
        exact hc ▸ rfl
      · rw [List.getLast?_cons_of_ne_nil hr, List.getLast?_eq_some_getLast hr, Option.mem_some_iff] at hc
        have hp := List.rdropWhile_last_not isSpace _ hr
        simpa [hc] using hp

theorem strip_line_ne_nil : strip (x.line i) ≠ [] := by
  obtain ⟨rest, hs, _⟩ := @strip_line x i
  simp [hs, Entry.numbered]

theorem before_append {c : Char} {s t : Str} (hs : c ∉ s) (ht : t = [] ∨ t.head? = some c) : before c (s ++ t) = s := by
  have hp : ∀ d ∈ s, (d != c) = true := fun d hd => by
    rw [bne_iff_ne]
    rintro rfl
    exact hs hd
  rw [before, List.takeWhile_append_of_pos hp]
  rcases ht with rfl | ht
  · simp
  · obtain ⟨t, rfl⟩ := List.head?_eq_some_iff.mp ht
    simp

/-- What comes before the first colon, after the first dot, is the name. -/
theorem functionName_strip_line : functionName (strip (x.line i)) = x.name := by
  obtain ⟨rest, hs, hr⟩ := @strip_line x i
  have hc : ':' ∉ x.numbered i := by
    simp only [Entry.numbered, List.mem_append, not_or]
    exact ⟨⟨fun h => absurd (isDigit_of_mem_dec h) (by decide), by decide⟩, x.no_colon⟩
  have hb : (if ':' ∈ strip (x.line i) then before ':' (strip (x.line i)) else strip (x.line i)) = x.numbered i := by
    rw [hs, before_append hc hr]
    split
    · rfl
    · rename_i h
      rcases hr with rfl | hr
      · rw [List.append_nil]
      · exact absurd (List.mem_append_right _ (List.mem_of_mem_head? hr)) h
  have hdot : '.' ∉ dec i := fun h => absurd (isDigit_of_mem_dec h) (by decide)
  have ha : after '.' (x.numbered i) = ' ' :: x.name := by
    have hn : x.numbered i = dec i ++ '.' :: ' ' :: x.name := by simp [Entry.numbered]
    have hp : ∀ d ∈ dec i, (d != '.') = true := fun d hd => bne_iff_ne.mpr fun h => hdot (h ▸ hd)
    rw [after, hn, if_pos (by simp), List.dropWhile_append_of_pos hp]
    simp
  rw [functionName, hb, ha, strip, stripBy_cons (by decide)]
  exact x.trimmed

/-- A line counts just when its first digit is among its first three characters. -/
theorem any_isDigit_line {u : Unicode} (hu : Digits u) :
    ((x.line i).take 3).any u.isDigit = decide (x.indent.length ≤ 2) := by
  obtain ⟨d, ds, hd⟩ := List.exists_cons_of_ne_nil (dec_ne_nil i)
  have hud : u.isDigit d = true := hu.ascii d (isDigit_of_mem_dec (n := i) (by simp [hd]))
  obtain ⟨rest, hl⟩ : ∃ rest, x.line i = x.indent ++ d :: rest := by
    simp only [Entry.line, hd, List.append_assoc, List.cons_append]
    exact ⟨_, rfl⟩
  rw [hl]
  by_cases hi : x.indent.length ≤ 2
  · rw [decide_eq_true hi, List.any_eq_true]
    refine ⟨d, ?_, hud⟩
    obtain ⟨k, hk⟩ : ∃ k, 3 - x.indent.length = k + 1 := ⟨2 - x.indent.length, by omega⟩
    rw [List.take_append, hk]
    simp
  · rw [decide_eq_false hi, List.take_append_of_le_length (by omega), List.any_eq_false]
    intro c hc
    rw [hu.blank c (x.blank_indent.isSpace c (List.mem_of_mem_take hc))]
    decide

/-! ## The list -/

/-- The functions of the lines that count. -/
def functionsOf (u : Unicode) (lines : List Str) : List Str :=
  (((lines.filter fun line => strip line != [] && (line.take 3).any u.isDigit).map strip).map functionName).filter (· != [])

theorem functionsOf_append (u : Unicode) (l r : List Str) : functionsOf u (l ++ r) = functionsOf u l ++ functionsOf u r := by
  simp only [functionsOf, List.filter_append, List.map_append]

theorem functionsOf_blank (u : Unicode) {l : List Str} (h : ∀ s ∈ l, Blank s) : functionsOf u l = [] := by
  have hf : l.filter (fun line => strip line != [] && (line.take 3).any u.isDigit) = [] := by
    rw [List.filter_eq_nil_iff]
    intro s hs
    simp [strip_blank (h s hs).isSpace]
  rw [functionsOf, hf, List.map_nil, List.map_nil, List.filter_nil]

theorem functionsOf_line {u : Unicode} (hu : Digits u) :
    functionsOf u [x.line i] = if x.indent.length ≤ 2 then [x.name] else [] := by
  have hne := @strip_line_ne_nil x i
  by_cases hi : x.indent.length ≤ 2
  · have hf : [x.line i].filter (fun line => strip line != [] && (line.take 3).any u.isDigit) = [x.line i] := by
      simp [any_isDigit_line hu, hi, hne]
    rw [functionsOf, hf, List.map_singleton, List.map_singleton, functionName_strip_line, if_pos hi]
    simp [x.named]
  · have hf : [x.line i].filter (fun line => strip line != [] && (line.take 3).any u.isDigit) = [] := by
      simp [any_isDigit_line hu, hi]
    rw [functionsOf, hf, if_neg hi]
    rfl

theorem functionsOf_lines {u : Unicode} (hu : Digits u) {after : List Str} (ha : ∀ s ∈ after, Blank s) :
    ∀ (xs : List Entry) (i : Nat),
      functionsOf u (lines after i xs) = (xs.filter (·.indent.length ≤ 2)).map Entry.name
  | [], i => functionsOf_blank u ha
  | x :: xs, i => by
    have hc : lines after i (x :: xs) = x.blanks ++ ([x.line i] ++ lines after (i + 1) xs) := rfl
    rw [hc, functionsOf_append, functionsOf_append, functionsOf_blank u x.blank_lines, functionsOf_line hu,
      functionsOf_lines hu ha xs (i + 1), List.nil_append]
    by_cases hi : x.indent.length ≤ 2 <;> simp [hi]

theorem newline_notMem_line : ¬ '\n' ∈ x.line i := by
  simp only [Entry.line, List.mem_append, not_or]
  refine ⟨⟨fun h => (x.blank_indent _ h).2 rfl, ⟨fun h => absurd (isDigit_of_mem_dec h) (by decide), by decide⟩,
    x.name_line⟩, ?_⟩
  cases hd : x.description with
  | none => exact List.not_mem_nil
  | some d => simp [x.description_line d hd]

theorem newline_notMem_lines {after : List Str} (ha : ∀ s ∈ after, Blank s) : ∀ (xs : List Entry) (i : Nat),
    ∀ l ∈ lines after i xs, ¬ '\n' ∈ l
  | [], _, l, hl => fun h => (ha l hl _ h).2 rfl
  | x :: xs, i, l, hl => by
    rcases List.mem_append.mp hl with hl | hl
    · exact fun h => (x.blank_lines l hl _ h).2 rfl
    · rcases List.mem_cons.mp hl with rfl | hl
      · exact newline_notMem_line
      · exact newline_notMem_lines ha xs (i + 1) l hl

/-- Where no line counts, every line is taken for a function, number and all. -/
theorem parse_render {u : Unicode} (hu : Digits u) {after : List Str} (ha : ∀ s ∈ after, Blank s) (xs : List Entry) :
    parseFunctionsFromText u (render after xs) =
      if (xs.filter (·.indent.length ≤ 2)).map Entry.name = [] then ((lines after 1 xs).map strip).filter (· != [])
      else (xs.filter (·.indent.length ≤ 2)).map Entry.name := by
  rw [← functionsOf_lines hu ha xs 1]
  by_cases hne : lines after 1 xs = []
  · rw [render, hne]
    rfl
  · have hs : split '\n' (render after xs) = lines after 1 xs := split_join hne (newline_notMem_lines ha xs 1)
    unfold parseFunctionsFromText
    rw [hs]
    rfl

/-- A line with its number is no name. -/
theorem strip_line_ne_name : strip (x.line i) ≠ x.name := by
  obtain ⟨rest, hs, _⟩ := @strip_line x i
  intro h
  have hl := congrArg List.length (hs.symm.trans h)
  simp only [Entry.numbered, List.length_append] at hl
  have : ". ".toList.length = 2 := rfl
  omega

/-- The first function, where every line is taken for one. -/
theorem head?_stripped {after : List Str} (i : Nat) (xs : List Entry) :
    (((lines after i (x :: xs)).map strip).filter (· != [])).head? = some (strip (x.line i)) := by
  have hb : (x.blanks.map strip).filter (· != []) = [] := by
    rw [List.filter_eq_nil_iff]
    intro s hs
    obtain ⟨t, ht, rfl⟩ := List.mem_map.mp hs
    simp [strip_blank (x.blank_lines t ht).isSpace]
  rw [lines, List.map_append, List.filter_append, hb, List.nil_append, List.map_cons,
    List.filter_cons_of_pos (by simpa using strip_line_ne_nil), List.head?_cons]

/-- The names come back just when no line is indented by more than two blanks. -/
theorem parse_functions_iff {u : Unicode} (hu : Digits u) {after : List Str} (ha : ∀ s ∈ after, Blank s)
    (xs : List Entry) : Reads u after xs ↔ ∀ x ∈ xs, x.indent.length ≤ 2 := by
  have hnames : (xs.filter (·.indent.length ≤ 2)).map Entry.name = xs.map Entry.name ↔
      ∀ x ∈ xs, x.indent.length ≤ 2 := by
    constructor
    · intro h
      have hl := congrArg List.length h
      rw [List.length_map, List.length_map, List.length_filter_eq_length_iff] at hl
      exact fun x hx => of_decide_eq_true (hl x hx)
    · intro h
      rw [List.filter_eq_self.mpr fun x hx => decide_eq_true (h x hx)]
  constructor
  · intro h
    have hp := h.names
    rw [parse_render hu ha] at hp
    split at hp
    · cases xs with
      | nil => exact fun x hx => absurd hx List.not_mem_nil
      | cons x xs =>
        have hh := congrArg List.head? hp
        rw [head?_stripped, List.map_cons, List.head?_cons] at hh
        exact absurd (Option.some.inj hh) strip_line_ne_name
    · exact hnames.mp hp
  · intro h
    have hp : parseFunctionsFromText u (render after xs) = xs.map Entry.name := by
      rw [parse_render hu ha, hnames.mpr h]
      split
      · rename_i hn
        obtain rfl := List.map_eq_nil_iff.mp hn
        rw [List.map_nil, List.filter_eq_nil_iff]
        intro s hs
        obtain ⟨t, ht, rfl⟩ := List.mem_map.mp hs
        simp [strip_blank (ha t ht).isSpace]
      · rfl
    refine ⟨hp, fun toolInput hf => ?_⟩
    rw [functionsToProcess, hf, hp]
    rfl

theorem digits_ascii : Digits .ascii := by
  refine ⟨fun c hc => hc, fun c hc => ?_⟩
  rw [← Bool.not_eq_true]
  intro hd
  exact absurd hc (by simp [isSpace_of_isDigit hd])

/-- A function with the indentation of its line. -/
def brakeEntry (indent : Str) (h : Blank indent) : Entry where
  blanks := []
  indent := indent
  name := "Brake".toList
  description := some "slow".toList
  blank_lines := by decide
  blank_indent := h
  named := by decide
  trimmed := by decide
  no_colon := by decide
  name_line := by decide
  description_line := by decide

theorem parse_functions_iff_brake :
    Reads .ascii [[' ']] [brakeEntry [] (by decide), brakeEntry [' ', ' '] (by decide)] :=
  (parse_functions_iff digits_ascii (by decide) _).mpr (by decide)

/-- Of `1. Brake: slow` and `   2. Brake: slow` only the first is found. -/
theorem indented_function_lost :
    parseFunctionsFromText .ascii (render [] [brakeEntry [] (by decide), brakeEntry [' ', ' ', ' '] (by decide)]) =
      ["Brake".toList] ∧
    ¬Reads .ascii [] [brakeEntry [] (by decide), brakeEntry [' ', ' ', ' '] (by decide)] := by
  have hp : parseFunctionsFromText .ascii
      (render [] [brakeEntry [] (by decide), brakeEntry [' ', ' ', ' '] (by decide)]) = ["Brake".toList] := by decide
  refine ⟨hp, fun h => ?_⟩
  have hn := h.names
  rw [hp] at hn
  exact absurd hn (by decide)

end KCore.Hara.FunctionList
