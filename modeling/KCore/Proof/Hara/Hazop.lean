import KCore.Lib.Markdown
import KCore.Impl.Hara.Tools

/-!
# HAZOP rows are stored exactly if the filter and the cell count let them through

A reply is a table of six columns (`Reply`). The tool keeps a row of it exactly if
no cell holds a word of the header or the separator and neither end cell is empty
(`Kept`); the stored table has every row of every reply, in order and numbered
without gaps, exactly if all rows are kept (`applyHazopAnalysis_stores_iff`).
-/

namespace KCore.Hara

open Text Markdown

abbrev HazopRow := Row 6

/-- A reply in the format of the prompt, with blanks around it. -/
structure Reply where
  before : Str
  header : HazopRow
  separator : HazopRow
  rows : List HazopRow
  after : Str
  blank_before : ∀ c ∈ before, isSpace c = true
  blank_after : ∀ c ∈ after, isSpace c = true
  headed : ∃ c ∈ header.cells, "Function".toList <:+: c
  separated : ∃ c ∈ separator.cells, "---".toList <:+: c

def Reply.table (r : Reply) : Str := join ['\n'] (r.header.text :: r.separator.text :: r.rows.map Row.text)

def Reply.text (r : Reply) : Str := r.before ++ r.table ++ r.after

/-- No cell holds a word by which the tool knows a header or a separator. -/
def Plain (r : HazopRow) : Prop := ∀ c ∈ r.cells, ∀ w ∈ headerWords, ¬w <:+: c

/-- Neither the first nor the last cell is empty. -/
def Ended (r : HazopRow) : Prop := r.cells.head? ≠ some [] ∧ r.cells.getLast? ≠ some []

/-- The rows that reach the stored table. -/
def Kept (r : HazopRow) : Prop := Plain r ∧ Ended r

instance : DecidablePred Plain := fun r => inferInstanceAs (Decidable (∀ c ∈ r.cells, ∀ w ∈ headerWords, ¬w <:+: c))

instance : DecidablePred Ended := fun r =>
  inferInstanceAs (Decidable (r.cells.head? ≠ some [] ∧ r.cells.getLast? ≠ some []))

instance : DecidablePred Kept := fun r => inferInstanceAs (Decidable (Plain r ∧ Ended r))

/-- The lines of the rows, numbered from `k`. -/
def numbered (k : Nat) (rows : List HazopRow) : List Str := (rows.zipIdx k).map fun (r, i) => hazopLine i r.cells

/-- The call stores every row, in order, numbered from 1, or stores nothing as there is no row. -/
def Stores (m : Memory) (rows : List HazopRow) (out : Memory × Answer) : Prop :=
  if rows = [] then out = (m, .noHazopResults)
  else out.1.hazopAnalysis = some (hazopTable (numbered 1 rows)) ∧
    ∃ itemName functions, out.2 = .hazopCompleted itemName (hazopTable (numbered 1 rows)) rows.length functions

/-! ## The rows taken from a reply -/

theorem isInfix_row {w : Str} (hw : w ∈ headerWords) (r : HazopRow) :
    w <:+: r.text ↔ ∃ c ∈ r.cells, w <:+: c := by
  have h : '|' ∉ w ∧ w ≠ [] := by revert w; decide
  exact isInfix_barred h.1 h.2

theorem isDataRow_text (r : HazopRow) : isDataRow r.text = decide (Plain r) := by
  have hh : (r.text.head? == some '|') = true := by rw [Row.text, barred_head]; rfl
  have hw : headerWords.any (fun w => decide (w <:+: r.text)) = true ↔ ¬Plain r := by
    simp only [List.any_eq_true, decide_eq_true_eq, Plain, not_forall, not_not]
    constructor
    · rintro ⟨w, hw, hi⟩
      obtain ⟨c, hc, hi⟩ := (isInfix_row hw r).mp hi
      exact ⟨c, hc, w, hw, hi⟩
    · rintro ⟨c, hc, w, hw, hi⟩
      exact ⟨w, hw, (isInfix_row hw r).mpr ⟨c, hc, hi⟩⟩
  rw [isDataRow, hh, Bool.true_and]
  by_cases hp : Plain r
  · rw [decide_eq_true hp, Bool.not_eq_true', ← Bool.not_eq_true, hw]
    exact not_not.mpr hp
  · rw [decide_eq_false hp, hw.mpr hp]
    rfl

theorem isDataRow_of_word {w : Str} (hw : w ∈ headerWords) {r : HazopRow} (h : ∃ c ∈ r.cells, w <:+: c) :
    isDataRow r.text = false := by
  rw [isDataRow_text, decide_eq_false_iff_not]
  obtain ⟨c, hc, hi⟩ := h
  exact fun hp => hp c hc w hw hi

theorem Reply.strip_text (r : Reply) : strip r.text = r.table := by
  have hlines : ∀ l ∈ r.header.text :: r.separator.text :: r.rows.map Row.text, ∃ cs, l = barred cs := by
    intro l hl
    simp only [List.mem_cons, List.mem_map] at hl
    obtain rfl | rfl | ⟨x, -, rfl⟩ := hl
    exacts [⟨_, rfl⟩, ⟨_, rfl⟩, ⟨_, rfl⟩]
  obtain ⟨hh, hl⟩ := barred_lines_ends (List.cons_ne_nil _ _) hlines
  have hbar : ∀ c ∈ some '|', isSpace c = false := by decide
  refine stripBy_append r.blank_before r.blank_after ?_ (fun c hc => ?_) (fun c hc => ?_)
  · intro h
    rw [Reply.table] at h
    simp [h] at hh
  · exact hbar c (hh ▸ hc)
  · exact hbar c (hl ▸ hc)

/-- The tool takes from a reply its plain rows. -/
theorem dataRows_text (r : Reply) : dataRows r.text = (r.rows.filter (Plain ·)).map Row.text := by
  rw [dataRows, r.strip_text, Reply.table, split_join (by simp)]
  · rw [List.filter_cons_of_neg (by simp [isDataRow_of_word (by decide) r.headed]),
      List.filter_cons_of_neg (by simp [isDataRow_of_word (by decide) r.separated]), List.filter_map]
    congr 1
    exact List.filter_congr fun x _ => isDataRow_text x
  · intro l hl
    simp only [List.mem_cons, List.mem_map] at hl
    obtain rfl | rfl | ⟨x, -, rfl⟩ := hl <;> exact Row.newline_notMem _

/-! ## The numbered rows -/

theorem newRow_text (i : Nat) (r : HazopRow) :
    newRow i r.text = if Ended r then some (hazopLine i r.cells) else none := by
  have hlen := r.length_eq
  split
  · rename_i he
    obtain ⟨c, hc⟩ : ∃ c, r.cells.head? = some c := by
      cases h : r.cells with
      | nil => simp [h] at hlen
      | cons c cs => exact ⟨c, rfl⟩
    obtain ⟨d, hd⟩ : ∃ d, r.cells.getLast? = some d := by
      refine ⟨_, List.getLast?_eq_some_getLast ?_⟩
      rintro h
      simp [h] at hlen
    have hsplit : split '|' (stripChar '|' r.text) = r.cells :=
      split_strip_barred r.noBar hc (fun h => he.1 (h ▸ hc)) hd (fun h => he.2 (h ▸ hd))
    rw [newRow, hsplit, if_pos hlen.ge, List.take_of_length_le hlen.le]
  · rename_i he
    have hlt := length_split_strip_barred r.noBar (by omega) (by
      by_contra h
      exact he (not_or.mp h))
    rw [newRow, if_neg (by rw [Row.text]; omega)]

theorem finalRows_text (rows : List HazopRow) (k : Nat) :
    ((rows.map Row.text).zipIdx k).filterMap (fun p => newRow p.2 p.1) =
      ((rows.zipIdx k).filter fun p => Ended p.1).map fun p => hazopLine p.2 p.1.cells := by
  induction rows generalizing k with
  | nil => rfl
  | cons r rows ih =>
    rw [List.map_cons, List.zipIdx_cons, List.zipIdx_cons, List.filterMap_cons, ih, newRow_text]
    by_cases he : Ended r <;> simp [he]

theorem newline_notMem_hazopLine (i : Nat) {cells : List Str} (hc : ∀ c ∈ cells, '\n' ∉ c) : '\n' ∉ hazopLine i cells := by
  have hpad : '\n' ∉ pad 3 i := by
    intro h
    have hd : Char.isDigit '\n' = true := isDigit_of_mem_pad h
    exact Bool.noConfusion hd
  have hcells : '\n' ∉ cells.flatMap (" | ".toList ++ ·) := by
    rw [List.mem_flatMap]
    rintro ⟨c, hmem, h⟩
    rcases List.mem_append.mp h with h | h
    · exact absurd h (by decide)
    · exact hc c hmem h
  have hends : '\n' ∉ "| HAZ-".toList ∧ '\n' ∉ " |".toList := by decide
  exact List.not_mem_append (List.not_mem_append (List.not_mem_append hends.1 hpad) hcells) hends.2

theorem split_hazopTable {a : List Str} (ha : ∀ l ∈ a, '\n' ∉ l) :
    split '\n' (hazopTable a) = hazopHeader :: hazopSeparator :: a := by
  have hends : '\n' ∉ hazopHeader ∧ '\n' ∉ hazopSeparator :=
    ⟨newline_notMem_barred (by decide), newline_notMem_barred (by decide)⟩
  exact split_join (List.cons_ne_nil _ _) (List.forall_mem_cons.mpr ⟨hends.1, List.forall_mem_cons.mpr ⟨hends.2, ha⟩⟩)

theorem hazopTable_inj {a b : List Str} (ha : ∀ l ∈ a, '\n' ∉ l) (hb : ∀ l ∈ b, '\n' ∉ l)
    (h : hazopTable a = hazopTable b) : a = b := by
  have := split_hazopTable ha
  rw [h, split_hazopTable hb] at this
  simpa using this.symm

theorem newline_notMem_numbered {k : Nat} {rows : List HazopRow} {l : Str} (hl : l ∈ numbered k rows) :
    '\n' ∉ l := by
  obtain ⟨p, -, rfl⟩ := List.mem_map.mp hl
  exact newline_notMem_hazopLine _ p.1.oneLine

theorem length_numbered (k : Nat) (rows : List HazopRow) : (numbered k rows).length = rows.length := by
  rw [numbered, List.length_map, List.length_zipIdx]

theorem length_finalRows (rows : List HazopRow) :
    (finalRows (rows.map Row.text)).length = rows.countP (Ended ·) := by
  rw [finalRows, finalRows_text, List.length_map, ← List.countP_eq_length_filter]
  have := @List.countP_map _ _ (fun r => decide (Ended r)) Prod.fst (rows.zipIdx 1)
  rwa [List.zipIdx_map_fst, eq_comm] at this

theorem finalRows_of_ended {rows : List HazopRow} (h : ∀ r ∈ rows, Ended r) :
    finalRows (rows.map Row.text) = numbered 1 rows := by
  rw [finalRows, finalRows_text, numbered, List.filter_eq_self.mpr]
  intro p hp
  have : p.1 ∈ (rows.zipIdx 1).map Prod.fst := List.mem_map_of_mem hp
  rw [List.zipIdx_map_fst] at this
  exact decide_eq_true (h p.1 this)

/-- The numbered rows are all rows exactly if none is filtered out and none has an empty end. -/
theorem finalRows_eq_numbered_iff (rows : List HazopRow) :
    finalRows ((rows.filter (Plain ·)).map Row.text) = numbered 1 rows ↔ ∀ r ∈ rows, Kept r := by
  constructor
  · intro h
    have hlen := congrArg List.length h
    rw [length_numbered, length_finalRows] at hlen
    have hfilter := rows.length_filter_le (Plain ·)
    have hend := (rows.filter (Plain ·)).countP_le_length (p := (Ended ·))
    have hplain : rows.filter (Plain ·) = rows :=
      List.filter_eq_self.mpr (List.length_filter_eq_length_iff.mp (le_antisymm hfilter (hlen ▸ hend)))
    rw [hplain] at hlen
    intro r hr
    exact ⟨of_decide_eq_true (List.filter_eq_self.mp hplain r hr),
      of_decide_eq_true (List.countP_eq_length.mp hlen r hr)⟩
  · intro h
    rw [List.filter_eq_self.mpr fun r hr => decide_eq_true (h r hr).1]
    exact finalRows_of_ended fun r hr => (h r hr).2

/-! ## The call -/

/-- The rows of all replies, function by function. -/
theorem rows_of_replies (llm : Nat → Option Str) : ∀ (functions : List Str) (replies : List Reply) (k : Nat),
    functions.length = replies.length → (∀ i, llm (k + i) = replies[i]?.map Reply.text) →
    (functions.zipIdx k).flatMap (fun p => ((llm p.2).map dataRows).getD []) =
      ((replies.flatMap Reply.rows).filter (Plain ·)).map Row.text
  | [], [], _, _, _ => rfl
  | f :: fs, r :: rs, k, hlen, hllm => by
    have h0 : llm k = some r.text := hllm 0
    have ih := rows_of_replies llm fs rs (k + 1) (by simpa using hlen) fun i => by
      have := hllm (i + 1)
      rwa [List.getElem?_cons_succ, ← Nat.add_assoc, Nat.add_right_comm] at this
    rw [List.zipIdx_cons, List.flatMap_cons, ih, h0, Option.map_some, Option.getD_some, dataRows_text,
      List.flatMap_cons, List.filter_append, List.map_append]

/-- The stored table has every row of every reply exactly if every row is kept. -/
theorem applyHazopAnalysis_stores_iff {u : Unicode} {m : Memory} {toolInput : ToolInput}
    (hf : parseFunctionsFromText u (text m.itemFunctions) ≠ []) {replies : List Reply}
    (hlen : (functionsToProcess toolInput (parseFunctionsFromText u (text m.itemFunctions))).length = replies.length) :
    Stores m (replies.flatMap Reply.rows)
        (applyHazopAnalysis u m toolInput true fun i => replies[i]?.map Reply.text) ↔
      ∀ r ∈ replies.flatMap Reply.rows, Kept r := by
  have htext : text m.itemFunctions ≠ [] := by
    intro h
    rw [h] at hf
    exact hf rfl
  have hrows := rows_of_replies (fun i => replies[i]?.map Reply.text) _ replies 0 hlen (by simp)
  rw [applyHazopAnalysis]
  simp only [if_neg htext, if_neg hf, reduceCtorEq, if_false]
  rw [hrows]
  generalize replies.flatMap Reply.rows = rows
  rw [← finalRows_eq_numbered_iff]
  by_cases hr : rows = []
  · subst hr
    exact iff_of_true (by simp [Stores]) rfl
  rw [Stores, if_neg hr]
  have hlines {l : Str} (hl : l ∈ finalRows ((rows.filter (Plain ·)).map Row.text)) : '\n' ∉ l := by
    rw [finalRows, finalRows_text] at hl
    obtain ⟨p, -, rfl⟩ := List.mem_map.mp hl
    exact newline_notMem_hazopLine _ p.1.oneLine
  constructor
  · rintro ⟨htable, name, functions, hanswer⟩
    split at htable
    · rename_i h
      simp [h] at hanswer
    · exact hazopTable_inj (fun l => hlines) (fun l => newline_notMem_numbered) (Option.some.inj htable)
  · intro h
    have hne : (rows.filter (Plain ·)).map Row.text ≠ [] := by
      intro h'
      rw [h'] at h
      have := congrArg List.length h
      rw [length_numbered] at this
      exact hr (List.length_eq_zero_iff.mp this.symm)
    rw [if_neg hne, h, length_numbered]
    exact ⟨rfl, _, _, rfl⟩

/-! ## A run -/

/-- A row of these cells. -/
def rowOf (c₁ c₂ c₃ c₄ c₅ c₆ : String) (hb : ∀ c ∈ [c₁, c₂, c₃, c₄, c₅, c₆].map String.toList, '|' ∉ c ∧ '\n' ∉ c) :
    HazopRow where
  cells := [c₁, c₂, c₃, c₄, c₅, c₆].map String.toList
  length_eq := rfl
  noBar c hc := (hb c hc).1
  oneLine c hc := (hb c hc).2

/-- A reply with these rows. -/
def replyOf (rows : List HazopRow) : Reply where
  before := []
  header := rowOf " Function " " HAZOP Guideword " " Malfunction " " Hazard " " Severity Class " " Rationale " (by decide)
  separator := rowOf "---" "---" "---" "---" "---" "---" (by decide)
  rows := rows
  after := ['\n']
  blank_before := by decide
  blank_after := by decide
  headed := ⟨" Function ".toList, by decide, by decide⟩
  separated := ⟨"---".toList, by decide, by decide⟩

def noBraking : HazopRow := rowOf " Brake " " NO " " No brake force " " Crash " " S3 " " High speed " (by decide)

def functionalLoss : HazopRow := rowOf " Brake " " LESS " " Functional loss " " Crash " " S2 " " Low speed " (by decide)

/-- A memory with one function. -/
def oneFunction : Memory := { Memory.init with itemFunctions := some "1. Brake: stops the car".toList }

theorem applyHazopAnalysis_one_row :
    Stores oneFunction ([replyOf [noBraking]].flatMap Reply.rows)
      (applyHazopAnalysis .ascii oneFunction .other true fun i => [replyOf [noBraking]][i]?.map Reply.text) :=
  (applyHazopAnalysis_stores_iff (by decide) (by decide)).mpr (by decide)

/-- The second row holds a word of the header, and is lost. -/
theorem applyHazopAnalysis_loses_row :
    ¬Stores oneFunction [noBraking, functionalLoss]
      (applyHazopAnalysis .ascii oneFunction .other true fun i =>
        [replyOf [noBraking, functionalLoss]][i]?.map Reply.text) := by
  intro h
  rw [Stores, if_neg (List.cons_ne_nil _ _)] at h
  obtain ⟨-, name, functions, h⟩ := h
  have hcount := congrArg (fun | .hazopCompleted _ _ hazards _ => hazards | _ => 0) h
  exact absurd hcount (show ¬_ = 2 by decide +kernel)

end KCore.Hara
