import KCore.Proof.Artifacts.Sections

/-!
# What revisions keep of a text

A text is stored as it is given and read in text mode, so that its `\r` are line breaks for
the next revision. Over any number of revisions a text keeps what it has outside of its
Document Control section, and ends with one such section, just where it is `Replaceable`:
`replaceDocumentControl_keeps_iff`.
-/

namespace KCore.Artifacts

open Text

/-- A file says the same as another outside of Document Control sections, of which it has one. -/
structure Keeps (c f : Str) : Prop where
  outside : outsideText f = outsideText c
  one : (lines (universalNewlines f)).countP isControl = 1

/-- The section that is cut out begins its line and holds no heading of the first two levels but its own, and there is
none of its headings after it; or nothing is cut out, and no line before the first section of the second level is more
than blank. -/
def Replaceable (c : Str) : Prop :=
  match controlCut c with
  | none => ∀ l ∈ (lines c).takeWhile (!isLevelTwo ·), isBlank l = true
  | some (before, taken, rest) => lastLine (universalNewlines before) = [] ∧
      (∀ l ∈ lines (universalNewlines taken), isLevelOne l = true ∨ isLevelTwo l = true → isControl l = true) ∧
      ∀ l ∈ lines (universalNewlines rest), isControl l = false

/-- The lines that are not blank. -/
def nonBlankLines (s : Str) : List Str := (lines s).filter (!isBlank ·)

/-- The file's text after further revisions, each of which passes on what is read. -/
def passedOn (f : Str) (ms : List Metadata) : Str :=
  ms.foldl (fun f m => replaceDocumentControl (universalNewlines f) (header m)) f

/-- The file's text after a revision for each of the versions, of which the first is given the text. -/
def revisions (c : Str) : List Metadata → Str
  | [] => c
  | m :: ms => passedOn (replaceDocumentControl c (header m)) ms

/-- A further revision takes with the old header what stands before the next section. -/
theorem replaceLines_headed (m m' : Metadata) (after : List Str) :
    replaceLines (controlLines m') (headed m after) = headed m' (after.dropWhile (!isLevelTwo ·)) := by
  have hmarker : hasMarker controlMarker = true := by decide
  have hfind : find controlMarker controlMarker = some 0 := by decide
  have hrow : ∀ l ∈ controlLines m ++ [[]], (!isLevelTwo l) = true := fun l hl => by rw [(kind_of_mem_rows l hl).2.2]; rfl
  rw [replaceLines, headed_eq]
  simp only [List.dropWhile_cons, List.takeWhile_cons, hmarker, hfind, Bool.not_true, Bool.false_eq_true, ite_false,
    List.dropWhile_append_of_pos hrow]
  rfl

theorem lines_replace_headed {f : Str} {m m' : Metadata} {after : List Str} (hf : lines f = headed m after)
    (hm' : SingleLine m') :
    lines (replaceDocumentControl f (header m')) = headed m' (after.dropWhile (!isLevelTwo ·)) := by
  rw [lines_replaceDocumentControl f hm', hf, replaceLines_headed]

/-! ## Reading -/

theorem mem_replaceDocumentControl {c d : Str} {x : Char} (h : x ∈ replaceDocumentControl c d) :
    x ∈ c ∨ x ∈ d ∨ x = '\n' := by
  cases hcut : controlCut c with
  | none =>
    have hblank : "\n\n".toList = ['\n', '\n'] := by decide
    rw [replace_of_cut_none hcut, hblank, List.mem_append, List.mem_append] at h
    rcases h with (h | h) | h
    · exact .inr (.inl h)
    · exact .inr (.inr (by simpa using h))
    · exact .inl h
  | some cut =>
    obtain ⟨before, taken, rest⟩ := cut
    rw [replace_of_cut hcut, List.mem_append, List.mem_append] at h
    rw [(isCut_of_controlCut hcut).text, List.mem_append, List.mem_append]
    tauto

/-- A text that has been read, and a header on single lines, are read as they are written. -/
theorem universalNewlines_replace (s : Str) {m : Metadata} (hm : SingleLine m) :
    universalNewlines (replaceDocumentControl (universalNewlines s) (header m)) =
      replaceDocumentControl (universalNewlines s) (header m) := by
  refine universalNewlines_of_notMem fun hr => ?_
  rcases mem_replaceDocumentControl hr with h | h | h
  · exact cr_notMem_universalNewlines s h
  · exact cr_notMem_universalNewlines (header m) (by rwa [universalNewlines_header hm])
  · exact absurd h (by decide)

/-- With text before it on its line the header is no section, and its rows are text. -/
theorem said_left {left : Str} (hne : left ≠ []) (hleft : '\n' ∉ left) {m : Metadata} (hm : SingleLine m) :
    said (lines (left ++ header m)) = (left ++ controlMarker) :: (controlLines m ++ [[]]).filter (!isBlank ·) := by
  have hlines : lines (left ++ header m) = (left ++ controlMarker) :: (controlLines m ++ [[]]) := by
    rw [header_eq, ← List.append_assoc, lines_below]
    intro l hl
    simp only [List.mem_cons, List.mem_append, List.not_mem_nil, or_false] at hl
    rcases hl with rfl | hl | rfl
    · rw [List.mem_append, not_or]
      exact ⟨hleft, newline_notMem_controlMarker⟩
    · exact newline_notMem_controlLines hm l hl
    · exact List.not_mem_nil
  have hcontrol : ∀ l ∈ (left ++ controlMarker) :: (controlLines m ++ [[]]), isControl l = false := by
    refine List.forall_mem_cons.mpr ⟨?_, fun l hl => (kind_of_mem_rows l hl).1⟩
    rw [isControl_append_marker]
    exact decide_eq_false hne
  have hblank : isBlank (left ++ controlMarker) = false := by
    have hmarker : isBlank controlMarker = false := by decide
    rw [isBlank, List.all_append, ← isBlank, ← isBlank, hmarker, Bool.and_false]
  rw [said, hlines, outside_eq_self hcontrol, List.filter_cons, hblank]
  rfl

/-! ## A text with a section -/

section Marker

variable {c before taken rest f : Str} (h : controlCut c = some (before, taken, rest)) {m : Metadata}
include h

/-- The file after revisions, of which the last has the header of `m`. -/
theorem read_revised (hm : SingleLine m) : universalNewlines (replaceDocumentControl c (header m)) =
    universalNewlines before ++ (header m ++ universalNewlines rest) := by
  have hhead : (header m ++ rest).head? ≠ some '\n' := by
    obtain ⟨t, ht⟩ := List.head?_eq_some_iff.mp (head_header m)
    rw [ht]
    exact fun h => absurd (Option.some.inj h) (by decide)
  have hlast : (header m).getLast? ≠ some '\r' := by
    rw [getLast_header]
    decide
  rw [replace_of_cut h, universalNewlines_append (.inr hhead), universalNewlines_append (.inl hlast),
    universalNewlines_header hm]

theorem read_passedOn : ∀ {ms : List Metadata} {f : Str} {m : Metadata}, SingleLine m → (∀ m ∈ ms, SingleLine m) →
    universalNewlines f = universalNewlines before ++ (header m ++ universalNewlines rest) →
    ∃ m', SingleLine m' ∧
      universalNewlines (passedOn f ms) = universalNewlines before ++ (header m' ++ universalNewlines rest)
  | [], _, m, hm, _, hf => ⟨m, hm, hf⟩
  | m' :: ms, f, m, hm, hms, hf => by
    have hmarker : '\r' ∉ controlMarker := by decide
    have hcut := isCut_of_controlCut h
    have hm' := hms m' (.head _)
    have hread : controlCut (universalNewlines f) =
        some (universalNewlines before, header m, universalNewlines rest) := by
      rw [hf]
      exact controlCut_header (find_universalNewlines newline_notMem_controlMarker hmarker hcut.first)
        hcut.follows.universalNewlines hm
    have hnext : universalNewlines (replaceDocumentControl (universalNewlines f) (header m')) =
        universalNewlines before ++ (header m' ++ universalNewlines rest) := by
      rw [universalNewlines_replace f hm', replace_of_cut hread]
    have hms' : ∀ x ∈ ms, SingleLine x := fun x hx => hms x (.tail _ hx)
    have htail := read_passedOn hm' hms' hnext
    exact htail

theorem lines_read (hf : universalNewlines f = universalNewlines before ++ (header m ++ universalNewlines rest)) :
    lines (universalNewlines f) = fullLines (universalNewlines before) ++
      (lines (lastLine (universalNewlines before) ++ header m) ++ restLines rest) := by
  rw [hf, lines_append_follows _ (isCut_of_controlCut h).follows.universalNewlines]
  rfl

theorem outsideText_read (hm : SingleLine m)
    (hf : universalNewlines f = universalNewlines before ++ (header m ++ universalNewlines rest)) :
    outsideText f = (fullLines (universalNewlines before)).filter (!isBlank ·) ++
      (said (lines (lastLine (universalNewlines before) ++ header m)) ++ said (restLines rest)) := by
  have hcut := isCut_of_controlCut h
  have hfile := outsideText_around hcut.first (head_header m) hcut.follows
  rw [universalNewlines_header hm, ← replace_of_cut h] at hfile
  rw [← hfile, outsideText, outsideText, hf, read_revised h hm]

/-- The file after revisions, where the marker begins its line. -/
theorem keeps_iff_of_cut (hleft : lastLine (universalNewlines before) = []) (hm : SingleLine m)
    (hf : universalNewlines f = universalNewlines before ++ (header m ++ universalNewlines rest)) :
    Keeps c f ↔
      (∀ l ∈ lines (universalNewlines taken), isLevelOne l = true ∨ isLevelTwo l = true → isControl l = true) ∧
        ∀ l ∈ lines (universalNewlines rest), isControl l = false := by
  have hcut := isCut_of_controlCut h
  have hkept : outsideText f = outsideText c ↔
      ∀ l ∈ lines (universalNewlines taken), isLevelOne l = true ∨ isLevelTwo l = true → isControl l = true := by
    rw [outsideText_read h hm hf, outsideText_cut h, hleft, List.nil_append, List.nil_append, lines_header_eq hm,
      opens_nil.said_headed, List.append_cancel_left_eq, List.append_cancel_right_eq, ← (opens_taken h).said_eq_nil_iff]
    exact eq_comm
  have hcount : (lines (universalNewlines f)).countP isControl = 1 ↔
      ∀ l ∈ lines (universalNewlines rest), isControl l = false := by
    have hfull : (fullLines (universalNewlines before)).countP isControl = 0 :=
      List.countP_eq_zero.mpr fun l hl => by rw [control_fullLines hcut.first l hl]; exact Bool.false_ne_true
    have hnil : isControl [] = false := by decide
    have hrest : (∀ l ∈ lines (universalNewlines rest), isControl l = false) ↔ (restLines rest).countP isControl = 0 := by
      rw [hcut.follows.universalNewlines.lines_eq, List.forall_mem_cons, List.countP_eq_zero]
      simp [hnil, restLines]
    rw [hrest, lines_read h hf, hleft, List.nil_append, lines_header_eq hm, List.countP_append, List.countP_append,
      hfull, countP_headed, List.countP_nil]
    omega
  exact ⟨fun hk => ⟨hkept.mp hk.outside, hcount.mp hk.one⟩, fun hr => ⟨hkept.mpr hr.1, hcount.mpr hr.2⟩⟩

/-- Two headers that differ are not both kept where there is text before the marker on its line. -/
theorem not_keeps_of_left (hleft : lastLine (universalNewlines before) ≠ []) {f' : Str} {m' : Metadata} (hm : SingleLine m)
    (hm' : SingleLine m') (hf : universalNewlines f = universalNewlines before ++ (header m ++ universalNewlines rest))
    (hf' : universalNewlines f' = universalNewlines before ++ (header m' ++ universalNewlines rest))
    (hne : controlLines m ≠ controlLines m') : ¬(Keeps c f ∧ Keeps c f') := by
  rintro ⟨hk, hk'⟩
  have houtside := hk.outside.trans hk'.outside.symm
  rw [outsideText_read h hm hf, outsideText_read h hm' hf', List.append_cancel_left_eq, List.append_cancel_right_eq,
    said_left hleft (newline_notMem_lastLine _) hm, said_left hleft (newline_notMem_lastLine _) hm'] at houtside
  exact hne (List.append_cancel_right (List.cons.inj houtside).2)

end Marker

/-! ## A text without one -/

theorem filter_headed (m : Metadata) (after : List Str) :
    (headed m after).filter (!isBlank ·) = (headed m []).filter (!isBlank ·) ++ after.filter (!isBlank ·) := by
  rw [headed_eq, headed_eq, List.append_nil, ← List.cons_append, List.filter_append]

theorem hasMarker_of_absent {c : Str} (h : controlCut c = none) : ∀ l ∈ lines c, hasMarker l = false := by
  intro l hl
  have hnone : find controlMarker l = none := find_eq_none_iff.mpr fun hin =>
    find_eq_none_iff.mp (controlCut_eq_none.mp h) (hin.trans (isInfix_of_mem_split hl))
  rw [hasMarker, hnone]
  rfl

theorem absent_universalNewlines {c : Str} (h : controlCut c = none) : controlCut (universalNewlines c) = none :=
  controlCut_eq_none.mpr (find_eq_none_iff.mpr fun hin =>
    find_eq_none_iff.mp (controlCut_eq_none.mp h) (isInfix_of_universalNewlines newline_notMem_controlMarker hin))

/-- The lines of a text before the first section of the second level, and from there on. -/
theorem takeWhile_levelTwo (ls : List Str) :
    ls = ls.takeWhile (!isLevelTwo ·) ++ ls.dropWhile (!isLevelTwo ·) := List.takeWhile_append_dropWhile.symm

theorem lines_next {f : Str} {m m' : Metadata} {after : List Str} (hf : lines (universalNewlines f) = headed m after)
    (hm' : SingleLine m') : lines (universalNewlines (replaceDocumentControl (universalNewlines f) (header m'))) =
      headed m' (after.dropWhile (!isLevelTwo ·)) := by
  rw [universalNewlines_replace f hm', lines_replace_headed hf hm']

theorem lines_passedOn {after : List Str} (hafter : after.dropWhile (!isLevelTwo ·) = after) : ∀ {ms : List Metadata}
    {f : Str} {m : Metadata}, (∀ m ∈ ms, SingleLine m) → lines (universalNewlines f) = headed m after →
    ∃ m', lines (universalNewlines (passedOn f ms)) = headed m' after
  | [], _, m, _, hf => ⟨m, hf⟩
  | m' :: ms, f, m, hms, hf => by
    have hnext := lines_next hf (hms m' (.head _))
    rw [hafter] at hnext
    have hms' : ∀ x ∈ ms, SingleLine x := fun x hx => hms x (.tail _ hx)
    have htail := lines_passedOn hafter hms' hnext
    exact htail

section Absent

variable {c f : Str} (h : controlCut c = none) {m m' : Metadata}
include h

/-- The first revision puts the header before the text. -/
theorem lines_first (hm : SingleLine m) :
    lines (universalNewlines (replaceDocumentControl c (header m))) = headed m ([] :: lines (universalNewlines c)) := by
  have hread : universalNewlines (replaceDocumentControl c (header m)) =
      replaceDocumentControl (universalNewlines c) (header m) := by
    have hblank : '\r' ∉ "\n\n".toList := by decide
    have hlast : (header m ++ "\n\n".toList).getLast? ≠ some '\r' := by
      have hblank : "\n\n".toList.getLast? = some '\n' := by decide
      rw [List.getLast?_append, hblank, Option.some_or]
      decide
    rw [replace_of_cut_none h, replace_of_cut_none (absent_universalNewlines h), universalNewlines_append (.inl hlast),
      universalNewlines_append (.inl (by rw [getLast_header]; decide)), universalNewlines_header hm,
      universalNewlines_of_notMem hblank]
  rw [hread, lines_replace_of_absent (hasMarker_of_absent (absent_universalNewlines h)) hm]
  rfl

theorem control_of_absent : ∀ l ∈ lines (universalNewlines c), isControl l = false :=
  fun l hl => isControl_eq_false (hasMarker_of_absent (absent_universalNewlines h) l hl)

theorem said_of_absent (hblank : ∀ l ∈ (lines (universalNewlines c)).takeWhile (!isLevelTwo ·), isBlank l = true) :
    outsideText c = said ((lines (universalNewlines c)).dropWhile (!isLevelTwo ·)) := by
  have hsplit := takeWhile_levelTwo (lines (universalNewlines c))
  have hcontrol : ∀ l ∈ (lines (universalNewlines c)).takeWhile (!isLevelTwo ·), isControl l = false :=
    fun l hl => control_of_absent h l ((List.takeWhile_sublist _).mem hl)
  rw [outsideText]
  nth_rewrite 1 [hsplit]
  rw [said_append_left hcontrol, filter_blank_eq_nil.mpr hblank, List.nil_append]

theorem keeps_first (hblank : ∀ l ∈ (lines (universalNewlines c)).takeWhile (!isLevelTwo ·), isBlank l = true)
    (hm : SingleLine m) : Keeps c (replaceDocumentControl c (header m)) := by
  have hkind : ∀ l ∈ [] :: (lines (universalNewlines c)).takeWhile (!isLevelTwo ·),
      isControl l = false ∧ isLevelOne l = false ∧ isLevelTwo l = false :=
    List.forall_mem_cons.mpr ⟨by decide, fun l hl => kind_of_isBlank (hblank l hl)⟩
  have hcount : ([] :: lines (universalNewlines c)).countP isControl = 0 := List.countP_eq_zero.mpr fun l hl => by
    rcases List.mem_cons.mp hl with rfl | hl
    · decide
    · rw [control_of_absent h l hl]
      exact Bool.false_ne_true
  refine ⟨?_, by rw [lines_first h hm, countP_headed, hcount]⟩
  rw [said_of_absent h hblank, outsideText, lines_first h hm, said, outside_headed]
  nth_rewrite 1 [takeWhile_levelTwo (lines (universalNewlines c))]
  rw [← List.cons_append, outside_rows hkind, (opens_dropWhile_levelTwo _).outside]
  rfl

/-- The second revision takes away what stands before the first section of the second level. -/
theorem keeps_later (hblank : ∀ l ∈ (lines (universalNewlines c)).takeWhile (!isLevelTwo ·), isBlank l = true)
    (hf : lines (universalNewlines f) = headed m ((lines (universalNewlines c)).dropWhile (!isLevelTwo ·))) : Keeps c f := by
  have hcount : ((lines (universalNewlines c)).dropWhile (!isLevelTwo ·)).countP isControl = 0 :=
    List.countP_eq_zero.mpr fun l hl => by
      rw [control_of_absent h l ((List.dropWhile_sublist _).mem hl)]
      exact Bool.false_ne_true
  refine ⟨?_, by rw [hf, countP_headed, hcount]⟩
  rw [outsideText, hf, (opens_dropWhile_levelTwo _).said_headed, said_of_absent h hblank]

/-- The lines that are not blank, in a text as it is given. -/
theorem filter_twice_iff (hm : SingleLine m) (hm' : SingleLine m') :
    nonBlankLines (replaceDocumentControl (replaceDocumentControl c (header m)) (header m')) =
      nonBlankLines (replaceDocumentControl c (header m')) ↔
    ∀ l ∈ (lines c).takeWhile (!isLevelTwo ·), isBlank l = true := by
  have hlines (m : Metadata) (hm : SingleLine m) :
      lines (replaceDocumentControl c (header m)) = headed m ([] :: lines c) :=
    lines_replace_of_absent (hasMarker_of_absent h) hm
  have hnil : isLevelTwo [] = false := by decide
  rw [nonBlankLines, nonBlankLines, lines_replace_headed (hlines m hm) hm', hlines m' hm', filter_headed,
    filter_headed m' (_ :: _), List.append_cancel_left_eq, List.dropWhile_cons, hnil, Bool.not_false, if_pos rfl,
    ← filter_blank_eq_nil]
  nth_rewrite 2 [takeWhile_levelTwo (lines c)]
  rw [← List.cons_append, List.filter_append, List.self_eq_append_left]
  rfl

end Absent

/-! ## Every text -/

theorem isBlank_of_subset {l c : Str} (h : ∀ x ∈ l, x ∈ c) (hc : isBlank c = true) : isBlank l = true :=
  List.all_eq_true.mpr fun x hx => List.all_eq_true.mp hc x (h x hx)

theorem isBlank_append {s t : Str} : isBlank (s ++ t) = true ↔ isBlank s = true ∧ isBlank t = true := by
  rw [isBlank, List.all_append, Bool.and_eq_true]
  rfl

theorem isBlank_above : ∀ {ls : List Str}, (∀ l ∈ ls, isBlank l = true) → isBlank (above ls) = true
  | [], _ => rfl
  | l :: ls, h => by
    rw [above_cons, isBlank_append]
    exact ⟨h l (.head _), isBlank_above fun x hx => h x (.tail _ hx)⟩

theorem isBlank_universalNewlines : ∀ {s : Str}, isBlank s = true → isBlank (universalNewlines s) = true
  | [], _ => rfl
  | x :: s, h => by
    obtain ⟨hx, hs⟩ := Bool.and_eq_true_iff.mp h
    have ih : isBlank (universalNewlines s) = true := isBlank_universalNewlines hs
    rw [universalNewlines]
    split
    · split
      · exact ih
      · exact ih
    · exact Bool.and_eq_true_iff.mpr ⟨hx, ih⟩

theorem isBlank_lines {s : Str} (h : isBlank s = true) : ∀ l ∈ lines s, isBlank l = true := fun _ hl =>
  isBlank_of_subset (fun _ hx => (isInfix_of_mem_split hl).subset hx) h

/-- A text that has only blank lines before a section has them when it is read. -/
theorem blank_universalNewlines {c : Str} (h : ∀ l ∈ (lines c).takeWhile (!isLevelTwo ·), isBlank l = true) :
    ∀ l ∈ (lines (universalNewlines c)).takeWhile (!isLevelTwo ·), isBlank l = true := by
  have hsplit := takeWhile_levelTwo (lines c)
  cases hdrop : (lines c).dropWhile (!isLevelTwo ·) with
  | nil =>
    rw [hdrop, List.append_nil] at hsplit
    rw [← hsplit] at h
    have hc : isBlank c = true := by
      rw [eq_above_lastLine c, isBlank_append]
      exact ⟨isBlank_above fun l hl => h l (List.mem_of_mem_dropLast hl), h _ (List.getLast_mem (lines_ne_nil c))⟩
    exact fun l hl => isBlank_lines (isBlank_universalNewlines hc) l ((List.takeWhile_sublist _).mem hl)
  | cons l ls =>
    have hmark : '\r' ∉ "## ".toList ∧ '\n' ∉ "## ".toList ∧ "## ".toList.getLast? ≠ some '\r' := by decide
    have hlevel : isLevelTwo l = true := by
      have := List.head?_dropWhile_not (!isLevelTwo ·) (lines c)
      rw [hdrop] at this
      simpa using this
    obtain ⟨z, rfl⟩ : "## ".toList <+: l := of_decide_eq_true hlevel
    rw [hdrop] at hsplit
    have htext := eq_above_below hsplit
    generalize (lines c).takeWhile (!isLevelTwo ·) = before at h htext
    -- the text from the heading on begins a line when it is read
    have hread : universalNewlines c =
        universalNewlines (above before) ++ ("## ".toList ++ universalNewlines (z ++ below ls)) := by
      have hhead : ("## ".toList ++ (z ++ below ls)).head? ≠ some '\n' := fun h => absurd (Option.some.inj h) (by decide)
      rw [htext, List.append_assoc, universalNewlines_append (.inr hhead), universalNewlines_append (.inl hmark.2.2),
        universalNewlines_of_notMem hmark.1]
    have hlast : lastLine (universalNewlines (above before)) = [] := by
      rcases List.eq_nil_or_concat before with rfl | ⟨ls', l', rfl⟩
      · rfl
      · have habove : above (ls'.concat l') = (above ls' ++ l') ++ ['\n'] := by
          rw [List.concat_eq_append, above_append, above_cons, above_nil, List.append_assoc]
        rw [habove, lastLine_universalNewlines]
    have hblank := isBlank_lines (isBlank_universalNewlines (isBlank_above h))
    obtain ⟨l', ls', hs, hl'⟩ := head_lines hmark.2.1 (List.prefix_append "## ".toList (universalNewlines (z ++ below ls)))
    have hfull : ∀ l ∈ fullLines (universalNewlines (above before)), (!isLevelTwo l) = true := fun l hl => by
      rw [(kind_of_isBlank (hblank l (List.mem_of_mem_dropLast hl))).2.2]
      rfl
    have hstop : ¬(!isLevelTwo l') = true := by
      rw [show isLevelTwo l' = true from decide_eq_true hl']
      exact Bool.false_ne_true
    rw [hread, Text.lines_append, hlast, List.nil_append, hs, List.takeWhile_append_of_pos hfull, List.takeWhile_cons,
      if_neg hstop, List.append_nil]
    exact fun l hl => hblank l (List.mem_of_mem_dropLast hl)

theorem Replaceable.keeps {c : Str} (hr : Replaceable c) {m : Metadata} {ms : List Metadata}
    (hms : ∀ x ∈ m :: ms, SingleLine x) : Keeps c (revisions c (m :: ms)) := by
  have hm := hms m (.head _)
  have hms' : ∀ x ∈ ms, SingleLine x := fun x hx => hms x (.tail _ hx)
  rw [Replaceable] at hr
  cases hcut : controlCut c with
  | none =>
    rw [hcut] at hr
    have hblank := blank_universalNewlines hr
    have hfirst := lines_first hcut hm
    cases ms with
    | nil => exact keeps_first hcut hblank hm
    | cons m₂ ms =>
      have hsecond := lines_next hfirst (hms' m₂ (.head _))
      obtain ⟨m', hlast⟩ := lines_passedOn (List.dropWhile_idempotent ..) (fun x hx => hms' x (.tail _ hx)) hsecond
      exact keeps_later hcut hblank hlast
  | some cut =>
    obtain ⟨before, taken, rest⟩ := cut
    rw [hcut] at hr
    obtain ⟨m', hm', hlast⟩ := read_passedOn hcut hm hms' (read_revised hcut hm)
    exact (keeps_iff_of_cut hcut hr.1 hm' hlast).mpr hr.2

/-- A revision of a revision differs from a revision in blank lines. -/
theorem Replaceable.nonBlankLines_eq {c : Str} (hr : Replaceable c) {m m' : Metadata} (hm : SingleLine m)
    (hm' : SingleLine m') :
    nonBlankLines (replaceDocumentControl (replaceDocumentControl c (header m)) (header m')) =
      nonBlankLines (replaceDocumentControl c (header m')) := by
  rw [Replaceable] at hr
  cases hcut : controlCut c with
  | none =>
    rw [hcut] at hr
    exact (filter_twice_iff hcut hm hm').mpr hr
  | some cut =>
    obtain ⟨before, taken, rest⟩ := cut
    have h := isCut_of_controlCut hcut
    rw [replace_of_cut hcut (header m), replace_of_cut (controlCut_header h.first h.follows hm), ← replace_of_cut hcut]

/-- A version with nothing filled in. -/
def draftVersion (version : Nat) : Metadata where
  artifactId := "wp".toList
  wpId := ⟨"wp".toList, by decide⟩
  title := "Report".toList
  phase := ⟨"concept".toList, concept_ok⟩
  projectSlug := "p".toList
  version := version
  status := .draft
  createdAt := []
  updatedAt := []
  author := []
  reviewer := []
  reviewNotes := []
  approvedAt := []
  locked := false
  supersedes := none
  changeRequests := []
  upstreamRefs := []
  statusHistory := []
  supersededBy := none
  artifactPath := none
  metadataPath := none

theorem singleLine_draftVersion (n : Nat) : SingleLine (draftVersion n) := by
  have htitle : Unbroken "Report".toList := by decide
  have hwp : Unbroken "wp".toList := by decide
  have hproject : Unbroken "p".toList := by decide
  have hphase : Unbroken "concept".toList := by decide
  exact ⟨htitle, hwp, hwp, hproject, hphase, unbroken_nil, unbroken_nil, unbroken_nil, unbroken_nil, nofun, nofun⟩

theorem replaceable_of_keeps {c : Str} (hk : ∀ ms, ms ≠ [] → (∀ m ∈ ms, SingleLine m) → Keeps c (revisions c ms))
    (hsame : ∀ m m', SingleLine m → SingleLine m' →
      nonBlankLines (replaceDocumentControl (replaceDocumentControl c (header m)) (header m')) =
        nonBlankLines (replaceDocumentControl c (header m'))) : Replaceable c := by
  have hm := singleLine_draftVersion
  have hone (n : Nat) : Keeps c (replaceDocumentControl c (header (draftVersion n))) :=
    hk [draftVersion n] (List.cons_ne_nil _ _) (List.forall_mem_singleton.mpr (hm n))
  rw [Replaceable]
  cases hcut : controlCut c with
  | none => exact (filter_twice_iff hcut (hm 1) (hm 2)).mp (hsame _ _ (hm 1) (hm 2))
  | some cut =>
    obtain ⟨before, taken, rest⟩ := cut
    have hne : controlLines (draftVersion 1) ≠ controlLines (draftVersion 2) := by decide
    have hleft : lastLine (universalNewlines before) = [] := by
      by_contra hleft
      exact not_keeps_of_left hcut hleft (hm 1) (hm 2) (read_revised hcut (hm 1)) (read_revised hcut (hm 2)) hne
        ⟨hone 1, hone 2⟩
    exact ⟨hleft, (keeps_iff_of_cut hcut hleft (hm 1) (read_revised hcut (hm 1))).mp (hone 1)⟩

end KCore.Artifacts
