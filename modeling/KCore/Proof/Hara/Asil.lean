import KCore.Impl.Hara.Tools

/-!
# Which hazard rows the safety goals and the ASIL distribution take

`derive_safety_goals` selects a row by a mention of an ASIL anywhere in it, and
`extract_asil_distribution` counts it under the first of its cells that is a class
by itself; both read only rows that begin with `| HAZ-` to the blank. The two
agree with the ASIL cell of every row exactly if every row meets `RowOk`
(`asil_agree_iff`).
-/

namespace KCore.Hara

open Text Markdown

/-! ## Hazard rows -/

inductive Level
  | a | b | c | d
  deriving DecidableEq, Repr

def Level.char : Level → Char
  | .a => 'A'
  | .b => 'B'
  | .c => 'C'
  | .d => 'D'

/-- The forms of a class that the prompt allows. -/
inductive Asil
  | qm
  | letter (l : Level)
  | asil (l : Level)
  deriving DecidableEq, Repr

def Asil.text : Asil → Str
  | .qm => "QM".toList
  | .letter l => [l.char]
  | .asil l => "ASIL ".toList ++ [l.char]

/-- Blanks, on one line. -/
def Blank (s : Str) : Prop := ∀ c ∈ s, isSpace c = true ∧ c ≠ '\n'

instance : DecidablePred Blank := fun s => inferInstanceAs (Decidable (∀ c ∈ s, isSpace c = true ∧ c ≠ '\n'))

/-- A hazard row of the twelve columns: the first cell is an id, the ninth a class. -/
structure HazardRow extends Row 12 where
  before : Str
  after : Str
  asil : Asil
  blank_before : Blank before
  blank_after : Blank after
  identified : ∃ blanks rest, Blank blanks ∧ cells[0]? = some (blanks ++ "HAZ-".toList ++ rest)
  classed : ∃ blanks blanks', Blank blanks ∧ Blank blanks' ∧ cells[8]? = some (blanks ++ asil.text ++ blanks')

def HazardRow.line (r : HazardRow) : Str := r.before ++ r.text ++ r.after

/-- The first cell of the line is an id. -/
def Identified (line : Str) : Prop := ∃ blanks blanks' rest, Blank blanks ∧ Blank blanks' ∧
  line = blanks ++ '|' :: (blanks' ++ "HAZ-".toList ++ rest)

/-- A line of a table. -/
inductive Line
  | hazard (r : HazardRow)
  | other (s : Str) (oneLine : '\n' ∉ s) (not_hazard : ¬Identified s)

def Line.text : Line → Str
  | .hazard r => r.line
  | .other s _ _ => s

def Line.hazard? : Line → Option HazardRow
  | .hazard r => some r
  | .other .. => none

/-- A HARA table: the lines of its text. -/
abbrev Table := List Line

def Table.text (t : Table) : Str := join ['\n'] (t.map Line.text)

def Table.rows (t : Table) : List HazardRow := t.filterMap Line.hazard?

/-- `derive_safety_goals` derives a goal for the row. -/
def Selected (t : Table) (r : HazardRow) : Prop := r.line ∈ asilHazards t.text

/-- `extract_asil_distribution` counts the row under a class other than QM. -/
def Counted (t : Table) (r : HazardRow) : Prop :=
  r.line ∈ hazardRows t.text ∧ ∃ asil, asilOf r.line = some asil ∧ asil ≠ "QM".toList

/-- The goals and the counts agree with the classes of the rows. -/
def Agree (t : Table) : Prop :=
  (∀ r ∈ t.rows, (Selected t r ↔ r.asil ≠ .qm) ∧ (Counted t r ↔ Selected t r)) ∧
  ∀ m llm, m.haraTable = some t.text → (deriveSafetyGoals m llm).2 = .noSafetyGoalsNeeded →
    ∀ r ∈ t.rows, r.asil = .qm

/-! ## What decides about a row -/

/-- The first cell begins with exactly one blank and the id. -/
def Recognised (r : HazardRow) : Prop := " HAZ-".toList <+: r.cells.headD []

/-- An ASIL is mentioned. -/
def Mentioned (s : Str) : Prop := (search matchAsil s).isSome = true

/-- The class that a cell is by itself, between blanks. -/
def cellClass (c : Str) : Option Str :=
  (matchClass (c.dropWhile isSpace)).bind fun (group, rest) => if rest.all isSpace then some group else none

/-- The row is selected and counted as its class has it. -/
def RowOk (r : HazardRow) : Prop :=
  if r.asil = .qm then Recognised r → ∀ c ∈ r.cells, ¬Mentioned c
  else Recognised r ∧ ∃ asil, r.cells.findSome? cellClass = some asil ∧ asil ≠ "QM".toList

instance : DecidablePred Recognised := fun r => inferInstanceAs (Decidable (_ <+: r.cells.headD []))

instance : DecidablePred Mentioned := fun s => inferInstanceAs (Decidable ((search matchAsil s).isSome = true))

/-! ## The regular expressions -/

/-- A text that `ASIL\s*[A-D]` matches. -/
def AsilMark (w : Str) : Prop :=
  ∃ blanks c, (∀ x ∈ blanks, isSpace x = true) ∧ isLevel c = true ∧ w = "ASIL".toList ++ blanks ++ [c]

theorem isSpace_of_isLevel {c : Char} (h : isLevel c = true) : isSpace c = false := by
  simp only [isLevel, Bool.or_eq_true, beq_iff_eq] at h
  obtain ((rfl | rfl) | rfl) | rfl := h <;> rfl

/-- What `ASIL\s*[A-D]` takes from the beginning of a text. -/
theorem matchAsil_eq_some {s g t : Str} : matchAsil s = some (g, t) ↔ AsilMark g ∧ s = g ++ t := by
  rw [matchAsil]
  constructor
  · intro h
    split at h
    · rename_i hp
      obtain ⟨r, rfl⟩ := hp
      have hdrop : ("ASIL".toList ++ r).drop 4 = r := rfl
      rw [hdrop] at h
      split at h
      · rename_i c u hu
        split at h
        · rename_i hc
          simp only [Option.some.injEq, Prod.mk.injEq] at h
          obtain ⟨rfl, rfl⟩ := h
          refine ⟨⟨_, c, fun x hx => (List.mem_takeWhile_imp hx), hc, rfl⟩, ?_⟩
          have := List.takeWhile_append_dropWhile (p := isSpace) (l := r)
          rw [hu] at this
          simp [this]
        · cases h
      · cases h
    · cases h
  · rintro ⟨⟨blanks, c, hb, hc, rfl⟩, rfl⟩
    have hs := isSpace_of_isLevel hc
    have hdrop : ("ASIL".toList ++ blanks ++ [c] ++ t).drop 4 = blanks ++ c :: t := by
      simp [List.append_assoc]
    rw [if_pos ⟨blanks ++ [c] ++ t, by simp⟩, hdrop, List.dropWhile_append_of_pos hb,
      List.takeWhile_append_of_pos hb]
    simp [hs, hc]

theorem search_isSome {α : Type*} {m : Str → Option α} : ∀ {s : Str},
    (search m s).isSome = true ↔ ∃ t, t <:+ s ∧ (m t).isSome = true
  | [] => by simp [search]
  | c :: s => by
    rw [search, Option.isSome_or, Bool.or_eq_true, search_isSome]
    simp only [List.suffix_cons_iff, or_and_right, exists_or, exists_eq_left]

/-- An ASIL is mentioned where a mark stands in the text. -/
theorem mentioned_iff {s : Str} : Mentioned s ↔ ∃ w, AsilMark w ∧ w <:+: s := by
  rw [Mentioned, search_isSome]
  constructor
  · rintro ⟨t, ht, hm⟩
    obtain ⟨⟨g, u⟩, hg⟩ := Option.isSome_iff_exists.mp hm
    obtain ⟨hmark, rfl⟩ := matchAsil_eq_some.mp hg
    exact ⟨g, hmark, (List.prefix_append g u).isInfix.trans ht.isInfix⟩
  · rintro ⟨w, hmark, hw⟩
    obtain ⟨t, ⟨u, rfl⟩, ht⟩ := List.infix_iff_prefix_suffix.mp hw
    exact ⟨w ++ u, ht, Option.isSome_iff_exists.mpr ⟨(w, u), matchAsil_eq_some.mpr ⟨hmark, rfl⟩⟩⟩

theorem AsilMark.head {w : Str} (h : AsilMark w) : ∃ t, w = 'A' :: t := by
  obtain ⟨blanks, c, -, -, rfl⟩ := h
  exact ⟨_, rfl⟩

theorem AsilMark.noBar {w : Str} (h : AsilMark w) : '|' ∉ w := by
  obtain ⟨blanks, c, hb, hc, rfl⟩ := h
  refine List.not_mem_append (List.not_mem_append (by decide) fun h => ?_) fun h => ?_
  · exact absurd (hb _ h) (by decide)
  · obtain rfl : '|' = c := by simpa using h
    exact absurd hc (by decide)

theorem AsilMark.strip {w : Str} (h : AsilMark w) : Text.strip w = w := by
  obtain ⟨blanks, c, -, hc, rfl⟩ := h
  refine stripBy_eq_self (fun x hx => ?_) fun x hx => ?_
  · obtain rfl : 'A' = x := Option.some.inj hx
    decide
  · rw [List.getLast?_concat] at hx
    obtain rfl : c = x := Option.some.inj hx
    exact isSpace_of_isLevel hc

theorem Blank.notMem {s : Str} {c : Char} (h : Blank s) (hc : isSpace c = false) : c ∉ s := fun hm => by
  rw [(h c hm).1] at hc
  exact Bool.noConfusion hc

/-- The mentions in a row are those in its cells. -/
theorem mentioned_line {r : HazardRow} : Mentioned r.line ↔ ∃ c ∈ r.cells, Mentioned c := by
  have key {w : Str} (h : AsilMark w) : w <:+: r.line ↔ ∃ c ∈ r.cells, w <:+: c := by
    obtain ⟨t, rfl⟩ := h.head
    have hafter : ¬ 'A' :: t <:+: r.after := fun hi =>
      r.blank_after.notMem (by decide) (hi.sublist.subset (.head _))
    rw [HazardRow.line, List.append_assoc, isInfix_append_of_head (r.blank_before.notMem (by decide)), Row.text,
      isInfix_barred_append h.noBar (List.cons_ne_nil _ _), or_iff_left hafter]
  simp only [mentioned_iff]
  constructor
  · rintro ⟨w, hmark, hw⟩
    obtain ⟨c, hc, hw⟩ := (key hmark).mp hw
    exact ⟨c, hc, w, hmark, hw⟩
  · rintro ⟨c, hc, w, hmark, hw⟩
    exact ⟨w, hmark, (key hmark).mpr ⟨c, hc, hw⟩⟩

/-! ## Classes by themselves -/

theorem dropWhile_append_cons {p : Char → Bool} {x : Char} {a b : Str} (hx : p x = false) :
    (a ++ x :: b).dropWhile p = a.dropWhile p ++ x :: b := by
  rw [List.dropWhile_append]
  split
  · rename_i h
    rw [List.isEmpty_iff] at h
    rw [List.dropWhile_cons_of_neg (by simp [hx]), h, List.nil_append]
  · rfl

/-- A mark is not matched across a bar. -/
theorem matchAsil_append_bar {s b : Str} (hs : '|' ∉ s) :
    matchAsil (s ++ '|' :: b) = (matchAsil s).map fun (g, t) => (g, t ++ '|' :: b) := by
  cases h : matchAsil s with
  | some p =>
    obtain ⟨g, t⟩ := p
    obtain ⟨hg, rfl⟩ := matchAsil_eq_some.mp h
    exact matchAsil_eq_some.mpr ⟨hg, List.append_assoc ..⟩
  | none =>
    rw [Option.map_none, Option.eq_none_iff_forall_ne_some]
    rintro ⟨g, t⟩ h'
    obtain ⟨hg, heq⟩ := matchAsil_eq_some.mp h'
    obtain ⟨u, rfl⟩ := (isPrefix_append_cons hg.noBar).mp ⟨t, heq.symm⟩
    rw [matchAsil_eq_some.mpr ⟨hg, rfl⟩] at h
    cases h

theorem matchClass_append_bar {s b : Str} (hs : '|' ∉ s) :
    matchClass (s ++ '|' :: b) = (matchClass s).map fun (g, t) => (g, t ++ '|' :: b) := by
  have hqm : "QM".toList <+: s ++ '|' :: b ↔ "QM".toList <+: s := isPrefix_append_cons (by decide)
  rw [matchClass, matchAsil_append_bar hs, matchClass]
  cases matchAsil s with
  | some p => rfl
  | none =>
    by_cases hq : "QM".toList <+: s
    · rw [if_pos (hqm.mpr hq), if_pos hq]
      obtain ⟨t, rfl⟩ := hq
      rfl
    · rw [if_neg (mt hqm.mp hq), if_neg hq]
      rfl

theorem matchClass_rest {s g t : Str} (h : matchClass s = some (g, t)) : t <:+ s := by
  rw [matchClass] at h
  rcases Option.or_eq_some_iff.mp h with h | ⟨-, h⟩
  · exact ⟨g, (matchAsil_eq_some.mp h).2.symm⟩
  · split at h
    · obtain ⟨-, rfl⟩ := Prod.mk.inj (Option.some.inj h)
      exact List.drop_suffix 2 s
    · cases h

/-- Between two bars, the pattern of a cell takes the class that the cell is. -/
theorem matchCell_cell {c b : Str} (hc : '|' ∉ c) : matchCell ('|' :: (c ++ '|' :: b)) = cellClass c := by
  have hd : '|' ∉ c.dropWhile isSpace := fun h => hc ((List.dropWhile_suffix isSpace).subset h)
  rw [matchCell, dropWhile_append_cons (by decide), matchClass_append_bar hd, cellClass]
  cases h : matchClass (c.dropWhile isSpace) with
  | none => rfl
  | some p =>
    obtain ⟨g, t⟩ := p
    have ht : '|' ∉ t := fun hm => hd ((matchClass_rest h).subset hm)
    simp only [Option.map_some, Option.bind_some, dropWhile_append_cons (show isSpace '|' = false by decide)]
    congr 1
    rw [eq_iff_iff, List.all_eq_true, ← List.dropWhile_eq_nil_iff]
    cases hr : t.dropWhile isSpace with
    | nil => simp
    | cons x u =>
      have hx : x ∈ t := (List.dropWhile_suffix isSpace).subset (hr ▸ .head _)
      simp only [List.cons_append, List.head?_cons, Option.some.injEq, reduceCtorEq, iff_false]
      rintro rfl
      exact ht hx

theorem search_matchCell_append {a s : Str} (ha : '|' ∉ a) :
    search matchCell (a ++ s) = search matchCell s := by
  induction a with
  | nil => rfl
  | cons x a ih =>
    simp only [List.mem_cons, not_or] at ha
    have hx : matchCell (x :: (a ++ s)) = none := by
      rw [matchCell]
      exact fun t h => ha.1 (List.cons.inj h).1.symm
    rw [List.cons_append, search, hx, Option.none_or, ih ha.2]

/-- The leftmost match in a row is the first cell that is a class by itself. -/
theorem search_matchCell_row {s : Str} (hs : '|' ∉ s) (hb : ∀ c ∈ s, isSpace c = true) :
    ∀ {cs : List Str}, (∀ c ∈ cs, '|' ∉ c) → search matchCell (barred cs ++ s) = cs.findSome? cellClass
  | [], _ => by
    have hnone : ∀ {t : Str}, '|' ∉ t → search matchCell t = none := by
      intro t ht
      induction t with
      | nil => rfl
      | cons x t ih =>
        simp only [List.mem_cons, not_or] at ht
        rw [search, ih ht.2, matchCell, Option.or_none]
        exact fun t h => ht.1 (List.cons.inj h).1.symm
    have hd : s.dropWhile isSpace = [] := List.dropWhile_eq_nil_iff.mpr hb
    rw [barred, List.cons_append, List.nil_append, search, hnone hs, matchCell, hd, Option.or_none]
    rfl
  | c :: cs, hc => by
    have ih := search_matchCell_row hs hb fun d hd => hc d (.tail _ hd)
    obtain ⟨t, ht⟩ := barred_eq_cons cs
    have hcell := hc c (.head _)
    rw [barred, List.cons_append, List.append_assoc, search,
      search_matchCell_append hcell, ih, ht, List.cons_append, matchCell_cell hcell,
      List.findSome?_cons]
    cases cellClass c <;> rfl

/-- A class is its own text, and QM or a mark in the cell. -/
theorem cellClass_eq_some {c g : Str} (h : cellClass c = some g) :
    strip g = g ∧ (g = "QM".toList ∨ Mentioned c) := by
  obtain ⟨⟨g', rest⟩, hm, hg⟩ := Option.bind_eq_some_iff.mp h
  replace hg : (if rest.all isSpace then some g' else none) = some g := hg
  obtain rfl : g' = g := by
    split at hg
    · exact Option.some.inj hg
    · cases hg
  rcases Option.or_eq_some_iff.mp hm with hm | ⟨-, hm⟩
  · obtain ⟨hmark, hc⟩ := matchAsil_eq_some.mp hm
    refine ⟨hmark.strip, .inr (mentioned_iff.mpr ⟨g', hmark, ?_⟩)⟩
    exact (List.IsPrefix.isInfix ⟨rest, hc.symm⟩).trans (List.dropWhile_suffix isSpace).isInfix
  · split at hm
    · obtain ⟨rfl, -⟩ := Prod.mk.inj (Option.some.inj hm)
      exact ⟨by decide, .inl rfl⟩
    · cases hm

/-! ## Rows of a table -/

theorem HazardRow.strip_line (r : HazardRow) : strip r.line = r.text := by
  have hne : r.text ≠ [] := by
    obtain ⟨t, ht⟩ := barred_eq_cons r.cells
    rw [Row.text, ht]
    exact List.cons_ne_nil _ _
  have hbar : ∀ c ∈ some '|', isSpace c = false := by decide
  refine stripBy_append (fun c hc => (r.blank_before c hc).1) (fun c hc => (r.blank_after c hc).1) hne
    (fun c hc => hbar c ?_) (fun c hc => hbar c ?_)
  · rwa [← barred_head r.cells]
  · rwa [← barred_last r.cells]

theorem isHazard_line (r : HazardRow) : isHazard r.line = true ↔ Recognised r := by
  rw [isHazard, decide_eq_true_iff, r.strip_line, Row.text, Recognised]
  cases h : r.cells with
  | nil =>
    have := r.length_eq
    simp [h] at this
  | cons c cs =>
    obtain ⟨t, ht⟩ := barred_eq_cons cs
    rw [barred, ht, List.headD_cons]
    exact (List.cons_prefix_cons.trans (and_iff_right rfl)).trans (isPrefix_append_cons (by decide))

theorem asilOf_line (r : HazardRow) : asilOf r.line = r.cells.findSome? cellClass := by
  have hbar : isSpace '|' = false := by decide
  rw [asilOf, HazardRow.line, List.append_assoc, search_matchCell_append (r.blank_before.notMem hbar), Row.text,
    search_matchCell_row (r.blank_after.notMem hbar) (fun c hc => (r.blank_after c hc).1) r.noBar]
  cases h : r.cells.findSome? cellClass with
  | none => rfl
  | some g =>
    obtain ⟨c, -, hg⟩ := List.exists_of_findSome?_eq_some h
    rw [Option.map_some, (cellClass_eq_some hg).1]

theorem HazardRow.newline_notMem_line (r : HazardRow) : '\n' ∉ r.line :=
  List.not_mem_append (List.not_mem_append (fun h => (r.blank_before _ h).2 rfl) r.newline_notMem)
    fun h => (r.blank_after _ h).2 rfl

theorem mem_rows {t : Table} {r : HazardRow} : r ∈ t.rows ↔ Line.hazard r ∈ t := by
  rw [Table.rows, List.mem_filterMap]
  constructor
  · rintro ⟨l, hl, h⟩
    cases l with
    | hazard r' =>
      obtain rfl : r' = r := Option.some.inj h
      exact hl
    | other => cases h
  · exact fun h => ⟨_, h, rfl⟩

/-- The hazard rows of a table's text are the recognised ones of its lines. -/
theorem hazardRows_text (t : Table) : hazardRows t.text = (t.map Line.text).filter isHazard := by
  rw [hazardRows, Table.text]
  by_cases ht : t = []
  · subst ht
    decide
  · rw [split_join (by simpa using ht)]
    intro l hl
    obtain ⟨l, -, rfl⟩ := List.mem_map.mp hl
    cases l with
    | hazard r => exact r.newline_notMem_line
    | other s h _ => exact h

theorem line_mem_hazardRows {t : Table} {r : HazardRow} (hr : r ∈ t.rows) :
    r.line ∈ hazardRows t.text ↔ Recognised r := by
  rw [hazardRows_text, List.mem_filter, isHazard_line, and_iff_right]
  exact List.mem_map.mpr ⟨_, mem_rows.mp hr, rfl⟩

theorem selected_iff {t : Table} {r : HazardRow} (hr : r ∈ t.rows) :
    Selected t r ↔ Recognised r ∧ ∃ c ∈ r.cells, Mentioned c := by
  rw [Selected, asilHazards, List.mem_filter, line_mem_hazardRows hr, ← mentioned_line, Mentioned]

theorem counted_iff {t : Table} {r : HazardRow} (hr : r ∈ t.rows) :
    Counted t r ↔ Recognised r ∧ ∃ asil, r.cells.findSome? cellClass = some asil ∧ asil ≠ "QM".toList := by
  rw [Counted, line_mem_hazardRows hr, asilOf_line]

/-- A counted row is selected. -/
theorem Counted.selected {t : Table} {r : HazardRow} (hr : r ∈ t.rows) (h : Counted t r) : Selected t r := by
  obtain ⟨hrec, g, hg, hne⟩ := (counted_iff hr).mp h
  obtain ⟨c, hc, hcg⟩ := List.exists_of_findSome?_eq_some hg
  exact (selected_iff hr).mpr ⟨hrec, c, hc, (cellClass_eq_some hcg).2.resolve_left hne⟩

theorem rowOk_iff {t : Table} {r : HazardRow} (hr : r ∈ t.rows) :
    (Selected t r ↔ r.asil ≠ .qm) ∧ (Counted t r ↔ Selected t r) ↔ RowOk r := by
  rw [RowOk]
  by_cases hq : r.asil = .qm
  · rw [if_pos hq, iff_false_right (not_not.mpr hq)]
    constructor
    · exact fun h hrec c hc hm => h.1 ((selected_iff hr).mpr ⟨hrec, c, hc, hm⟩)
    · intro h
      have hsel : ¬Selected t r := fun hs => by
        obtain ⟨hrec, c, hc, hm⟩ := (selected_iff hr).mp hs
        exact h hrec c hc hm
      exact ⟨hsel, Counted.selected hr, fun hs => absurd hs hsel⟩
  · rw [if_neg hq, iff_true_right hq, ← counted_iff hr]
    exact ⟨fun h => h.2.mpr h.1, fun h => ⟨h.selected hr, fun _ => h.selected hr, fun _ => h⟩⟩

/-- The counts of the distribution are those of the hazard rows, class by class. -/
theorem get?_extractAsilDistribution (table asil : Str) :
    ((extractAsilDistribution table).get? asil).getD 0 =
      (hazardRows table).countP fun row => asilOf row = some asil := by
  have key : ∀ (rows : List Str) (d : Dict Str Nat), ((rows.foldl countRow d).get? asil).getD 0 =
      (d.get? asil).getD 0 + rows.countP fun row => asilOf row = some asil := by
    intro rows
    induction rows with
    | nil => exact fun d => rfl
    | cons row rows ih =>
      intro d
      rw [List.foldl_cons, ih, List.countP_cons, countRow]
      cases h : asilOf row with
      | none => simp
      | some a =>
        by_cases ha : a = asil
        · subst ha
          simp
          omega
        · simp [Dict.get?_set_of_ne _ _ (Ne.symm ha), ha]
  rw [extractAsilDistribution, key, Dict.get?_empty, Option.getD_none, Nat.zero_add]

theorem asilHazards_of_noSafetyGoals {m : Memory} {llm : Option Str}
    (h : (deriveSafetyGoals m llm).2 = .noSafetyGoalsNeeded) : asilHazards (text m.haraTable) = [] := by
  rw [deriveSafetyGoals] at h
  by_contra hne
  simp only [if_neg hne] at h
  split at h
  · cases h
  · cases llm <;> cases h

/-- The goals and the counts agree with the classes of the rows exactly if every row is taken as its
class has it. -/
theorem asil_agree_iff (t : Table) :
    (∀ asil, ((extractAsilDistribution t.text).get? asil).getD 0 =
      (hazardRows t.text).countP fun row => asilOf row = some asil) ∧
    (Agree t ↔ ∀ r ∈ t.rows, RowOk r) := by
  refine ⟨get?_extractAsilDistribution t.text, fun h r hr => (rowOk_iff hr).mp (h.1 r hr), fun h => ?_⟩
  have hrows : ∀ r ∈ t.rows, (Selected t r ↔ r.asil ≠ .qm) ∧ (Counted t r ↔ Selected t r) :=
    fun r hr => (rowOk_iff hr).mpr (h r hr)
  refine ⟨hrows, fun m llm hm hgoals r hr => ?_⟩
  by_contra hq
  have hsel : r.line ∈ asilHazards t.text := (hrows r hr).1.mpr hq
  have hnil := asilHazards_of_noSafetyGoals hgoals
  rw [hm, text, Option.getD_some] at hnil
  rw [hnil] at hsel
  exact List.not_mem_nil hsel

/-- A row with the class as a letter, as the prompt has it for the ninth column. -/
def letterRow : HazardRow where
  cells := [" HAZ-001 ", " Brake ", " No brake force ", " Crash ", " Highway ", " S3 ", " E3 ", " C3 ", " D ",
    " Avoid loss of braking ", " Standstill ", " 100ms "].map String.toList
  length_eq := rfl
  noBar := by decide
  oneLine := by decide
  before := []
  after := []
  asil := .letter .d
  blank_before := nofun
  blank_after := nofun
  identified := ⟨[' '], "001 ".toList, by decide, rfl⟩
  classed := ⟨[' '], [' '], by decide, by decide, rfl⟩

/-- For a table whose only hazard is of class D, no safety goals are needed. -/
theorem letterRow_disagrees : ¬Agree [.hazard letterRow] := by
  intro h
  have hgoals := h.2 { Memory.init with haraTable := some (Table.text [.hazard letterRow]) } none rfl
    (by decide +kernel)
  exact absurd (hgoals letterRow (mem_rows.mpr (.head _))) (by decide)

end KCore.Hara
