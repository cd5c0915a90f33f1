import KCore.Impl.Artifacts.Render
import KCore.Lib.Newlines

/-!
# Replacing the Document Control section

`replace_document_control` puts the header in the place of the section that `controlCut`
cuts out, from the first marker to the next `\n## `, or before the text. On the lines of
a text it is `replaceLines` (`lines_replaceDocumentControl`). What is kept of a text over
revisions follows: see `replaceDocumentControl_keeps_iff`.
-/

namespace KCore.Artifacts

open Text

/-! ## The header -/

/-- A row of the Document Control table, without its newline. -/
def rowLine (field value : Str) : Str := "| ".toList ++ field ++ " | ".toList ++ value ++ " |".toList

/-- The lines below the heading. -/
def controlLines (m : Metadata) : List Str :=
  [rowLine "Field".toList "Value".toList, "| --- | --- |".toList, rowLine "Title".toList m.title,
    rowLine "Work Product ID".toList m.wpId.val, rowLine "Artifact ID".toList m.artifactId,
    rowLine "Version".toList (dec m.version), rowLine "Status".toList m.status.text,
    rowLine "Project".toList m.projectSlug, rowLine "Phase".toList m.phase.val, rowLine "Author".toList m.author,
    rowLine "Reviewer".toList m.reviewer, rowLine "Created".toList m.createdAt, rowLine "Updated".toList m.updatedAt,
    rowLine "Supersedes".toList ((m.supersedes.map VersionRef.artifactId).getD []),
    rowLine "Upstream References".toList (summarizeUpstream m.upstreamRefs)]

/-- The header of a version. -/
def header (m : Metadata) : Str := renderDocumentControl m m.upstreamRefs

/-- Metadata whose texts are on one line each. -/
structure SingleLine (m : Metadata) : Prop where
  title : Unbroken m.title
  wpId : Unbroken m.wpId.val
  artifactId : Unbroken m.artifactId
  projectSlug : Unbroken m.projectSlug
  phase : Unbroken m.phase.val
  author : Unbroken m.author
  reviewer : Unbroken m.reviewer
  createdAt : Unbroken m.createdAt
  updatedAt : Unbroken m.updatedAt
  supersedes : ∀ r ∈ m.supersedes, Unbroken r.artifactId
  upstreamRefs : ∀ r ∈ m.upstreamRefs, Unbroken r.artifactId ∧ Unbroken r.wpId ∧ Unbroken r.status

theorem controlRow_eq (field value : Str) : controlRow field value = rowLine field value ++ ['\n'] := by
  have h : " |\n".toList = " |".toList ++ ['\n'] := by decide
  have hrow : controlRow field value = "| ".toList ++ field ++ " | ".toList ++ value ++ (" |".toList ++ ['\n']) :=
    congrArg ("| ".toList ++ field ++ " | ".toList ++ value ++ ·) h
  exact hrow.trans (List.append_assoc _ _ _).symm

theorem newline_above : ∀ ls : List Str, '\n' :: above ls = below ls ++ ['\n']
  | [] => rfl
  | l :: ls => by
    rw [above_cons, newline_above ls, below_cons]
    simp

theorem header_eq (m : Metadata) : header m = controlMarker ++ below (controlLines m ++ [[]]) := by
  have hmarker : "## Document Control\n".toList = controlMarker ++ ['\n'] := by decide
  have hrule : "| --- | --- |\n".toList = "| --- | --- |".toList ++ ['\n'] := by decide
  have h : header m = controlMarker ++ (['\n'] ++ above (controlLines m)) := by
    unfold header renderDocumentControl
    generalize "## Document Control\n".toList = heading at *
    generalize "| --- | --- |\n".toList = rule at *
    simp only [controlRow_eq, hmarker, hrule, controlLines, above, List.flatMap_cons, List.flatMap_nil,
      List.append_assoc, List.append_nil]
  have hbelow : ['\n'] ++ above (controlLines m) = below (controlLines m ++ [[]]) := by
    rw [List.singleton_append, newline_above, below_append]
    rfl
  exact h.trans (congrArg (controlMarker ++ ·) hbelow)

theorem unbroken_rowLine {field value : Str} (hf : Unbroken field) (hv : Unbroken value) : Unbroken (rowLine field value) := by
  have h₁ : Unbroken "| ".toList := by decide
  have h₂ : Unbroken " | ".toList := by decide
  have h₃ : Unbroken " |".toList := by decide
  exact (((h₁.append hf).append h₂).append hv).append h₃

theorem unbroken_of_digits {s : Str} (h : ∀ c ∈ s, c.isDigit = true) : Unbroken s :=
  ⟨fun hn => absurd (h _ hn) (by decide), fun hr => absurd (h _ hr) (by decide)⟩

theorem unbroken_dec (n : Nat) : Unbroken (dec n) := unbroken_of_digits fun _ => isDigit_of_mem_dec

theorem unbroken_pad (w n : Nat) : Unbroken (pad w n) := unbroken_of_digits fun _ => isDigit_of_mem_pad

theorem unbroken_summarizeUpstream {refs : List UpstreamRef}
    (h : ∀ r ∈ refs, Unbroken r.artifactId ∧ Unbroken r.wpId ∧ Unbroken r.status) : Unbroken (summarizeUpstream refs) := by
  rw [summarizeUpstream]
  split
  · decide
  · refine unbroken_join (by decide) fun l hl => ?_
    obtain ⟨r, hr, rfl⟩ := List.mem_map.mp hl
    obtain ⟨hid, hwp, hstatus⟩ := h r hr
    have hversion : Unbroken (formatVersion r.version) := unbroken_pad 2 r.version
    have h₁ : Unbroken " (".toList := by decide
    have h₂ : Unbroken ", v".toList := by decide
    have h₃ : Unbroken ", ".toList := by decide
    have h₄ : Unbroken ")".toList := by decide
    exact (((((((hid.append h₁).append hwp).append h₂).append hversion).append h₃).append hstatus).append h₄)

theorem unbroken_status (st : Status) : Unbroken st.text := by cases st <;> decide

theorem unbroken_controlLines {m : Metadata} (h : SingleLine m) : ∀ l ∈ controlLines m, Unbroken l := by
  have hsupersedes : Unbroken ((m.supersedes.map VersionRef.artifactId).getD []) := by
    cases hm : m.supersedes with
    | none => exact unbroken_nil
    | some r => exact h.supersedes r hm
  have hrow {field value : Str} (hv : Unbroken value) (hf : Unbroken field) := unbroken_rowLine hf hv
  simp only [controlLines, List.forall_mem_cons]
  exact ⟨hrow (by decide) (by decide), by decide, hrow h.title (by decide), hrow h.wpId (by decide),
    hrow h.artifactId (by decide), hrow (unbroken_dec _) (by decide), hrow (unbroken_status _) (by decide),
    hrow h.projectSlug (by decide), hrow h.phase (by decide), hrow h.author (by decide), hrow h.reviewer (by decide),
    hrow h.createdAt (by decide), hrow h.updatedAt (by decide), hrow hsupersedes (by decide),
    hrow (unbroken_summarizeUpstream h.upstreamRefs) (by decide), nofun⟩

theorem newline_notMem_controlLines {m : Metadata} (h : SingleLine m) : ∀ l ∈ controlLines m, '\n' ∉ l :=
  fun l hl => (unbroken_controlLines h l hl).1

theorem cr_notMem_below {ls : List Str} (h : ∀ l ∈ ls, '\r' ∉ l) : '\r' ∉ below ls := by
  intro hr
  obtain ⟨l, hl, hr⟩ := List.mem_flatMap.mp hr
  exact (List.mem_cons.mp hr).elim (by decide) (h l hl)

/-- A header on single lines is read as it is written. -/
theorem universalNewlines_header {m : Metadata} (h : SingleLine m) : universalNewlines (header m) = header m := by
  refine universalNewlines_of_notMem ?_
  have hmarker : '\r' ∉ controlMarker := by decide
  rw [header_eq, List.mem_append, not_or]
  refine ⟨hmarker, cr_notMem_below fun l hl => ?_⟩
  rcases List.mem_append.mp hl with hl | hl
  · exact (unbroken_controlLines h l hl).2
  · rw [List.mem_singleton.mp hl]
    exact List.not_mem_nil

theorem lines_header {m : Metadata} (hm : SingleLine m) : lines (header m) = controlMarker :: (controlLines m ++ [[]]) := by
  have hmarker : '\n' ∉ controlMarker := by decide
  rw [header_eq, lines_below]
  intro x hx
  simp only [List.mem_cons, List.mem_append, List.not_mem_nil, or_false] at hx
  rcases hx with rfl | hx | rfl
  · exact hmarker
  · exact newline_notMem_controlLines hm x hx
  · exact List.not_mem_nil

/-- Every line below the heading begins with a bar. -/
theorem head_controlLines (m : Metadata) : ∀ l ∈ controlLines m, l.head? = some '|' := by
  have hrow (field value : Str) : (rowLine field value).head? = some '|' := rfl
  simp only [controlLines, List.forall_mem_cons, hrow, true_and]
  exact ⟨by decide, nofun⟩

/-! ## Lines -/

def hasMarker (l : Str) : Bool := (find controlMarker l).isSome

/-- The line begins a section of the second level. -/
def isLevelTwo (l : Str) : Bool := "## ".toList <+: l

/-- `replace_document_control` on lines, for a header with these lines. -/
def replaceLines (rows ls : List Str) : List Str :=
  match ls.dropWhile (!hasMarker ·) with
  | [] => controlMarker :: (rows ++ [] :: [] :: ls)
  | h :: t => ls.takeWhile (!hasMarker ·) ++
      (h.take ((find controlMarker h).getD 0) ++ controlMarker) :: (rows ++ [] :: t.dropWhile (!isLevelTwo ·))

theorem newline_notMem_controlMarker : '\n' ∉ controlMarker := by decide

theorem controlMarker_ne_nil : controlMarker ≠ [] := by decide

theorem find_eq_none_of_hasMarker {l : Str} (h : hasMarker l = false) : find controlMarker l = none :=
  Option.not_isSome_iff_eq_none.mp (Bool.eq_false_iff.mp h)

/-- A text in which a line has the marker, or none. -/
theorem marker_cases (c : Str) :
    ((lines c).dropWhile (!hasMarker ·) = [] ∧ ∀ l ∈ lines c, hasMarker l = false) ∨
    ∃ h t n, (lines c).dropWhile (!hasMarker ·) = h :: t ∧ lines c = (lines c).takeWhile (!hasMarker ·) ++ h :: t ∧
      find controlMarker h = some n ∧ ∀ l ∈ (lines c).takeWhile (!hasMarker ·), hasMarker l = false := by
  cases hdrop : (lines c).dropWhile (!hasMarker ·) with
  | nil => exact .inl ⟨rfl, fun l hl => by simpa using List.dropWhile_eq_nil_iff.mp hdrop l hl⟩
  | cons h t =>
    have hmarker : hasMarker h = true := by
      have := List.head?_dropWhile_not (!hasMarker ·) (lines c)
      rw [hdrop] at this
      simpa using this
    obtain ⟨n, hn⟩ := Option.isSome_iff_exists.mp hmarker
    refine .inr ⟨h, t, n, rfl, ?_, hn, fun l hl => by simpa using List.mem_takeWhile_imp hl⟩
    rw [← hdrop, List.takeWhile_append_dropWhile]

/-- The replacement in a text that is split at the marker. -/
theorem replaceDocumentControl_of_find {a b d : Str}
    (h : find controlMarker (a ++ (controlMarker ++ b)) = some a.length) :
    replaceDocumentControl (a ++ (controlMarker ++ b)) d =
      a ++ (d ++ (find "\n## ".toList b).elim [] b.drop) := by
  have htake : (a ++ (controlMarker ++ b)).take a.length = a := by simp
  have hdrop (k : Nat) : (a ++ (controlMarker ++ b)).drop (a.length + controlMarker.length + k) = b.drop k := by
    rw [Nat.add_assoc, List.drop_length_add_append, List.drop_length_add_append]
  have hzero := hdrop 0
  rw [Nat.add_zero, List.drop_zero] at hzero
  rw [replaceDocumentControl, h]
  simp only [hzero, htake]
  cases find "\n## ".toList b with
  | none => simp
  | some k => simp only [hdrop, Option.elim_some, List.append_assoc]

/-- Where no line has the marker, the header comes first. -/
theorem lines_replace_of_absent {c : Str} (hnone : ∀ l ∈ lines c, hasMarker l = false) {m : Metadata}
    (hm : SingleLine m) :
    lines (replaceDocumentControl c (header m)) = controlMarker :: (controlLines m ++ [] :: [] :: lines c) := by
  have hlines := @newline_notMem_lines c
  have hfind : find controlMarker c = none :=
    find_eq_none_of_lines newline_notMem_controlMarker controlMarker_ne_nil fun l hl =>
      find_eq_none_of_hasMarker (hnone l hl)
  obtain ⟨l, ls, hc⟩ := List.exists_cons_of_ne_nil (lines_ne_nil c)
  have hc' : c = l ++ below ls := by rw [← join_newline, ← hc, join_lines]
  rw [hc] at hlines ⊢
  have htext : replaceDocumentControl c (header m) =
      controlMarker ++ below (controlLines m ++ [] :: [] :: l :: ls) := by
    rw [replaceDocumentControl, hfind, header_eq, below_append, below_append]
    nth_rewrite 1 [hc']
    simp
  rw [htext, lines_below]
  intro x hx
  simp only [List.mem_cons, List.mem_append] at hx
  rcases hx with rfl | hx | rfl | rfl | hx
  · exact newline_notMem_controlMarker
  · exact newline_notMem_controlLines hm x hx
  · exact List.not_mem_nil
  · exact List.not_mem_nil
  · exact hlines x (List.mem_cons.mpr hx)

/-- The text after a replacement from the line `h` on, at its `n`-th character. -/
theorem replaceDocumentControl_of_split {c h : Str} {ls t : List Str} {n : Nat} (hsplit : lines c = ls ++ h :: t)
    (hbefore : ∀ l ∈ ls, hasMarker l = false) (hn : find controlMarker h = some n) (m : Metadata) :
    replaceDocumentControl c (header m) =
      above ls ++ (h.take n ++ controlMarker ++ below (controlLines m ++ [] :: t.dropWhile (!isLevelTwo ·))) := by
  obtain ⟨tail, htail, hlen⟩ := find_spec hn
  have hmem : ∀ x ∈ ls ++ h :: t, '\n' ∉ x := hsplit ▸ @newline_notMem_lines c
  have htailmem : '\n' ∉ tail := fun hx => hmem h (by simp) (htail ▸ by simp [hx])
  have hc : c = above ls ++ h.take n ++ (controlMarker ++ (tail ++ below t)) := by
    rw [eq_above_below hsplit, List.append_assoc, ← List.append_assoc controlMarker,
      ← List.append_assoc (h.take n), ← htail]
  have hfind : find controlMarker (above ls ++ h.take n ++ (controlMarker ++ (tail ++ below t))) =
      some (above ls ++ h.take n).length := by
    rw [← hc, eq_above_below hsplit, find_lines newline_notMem_controlMarker controlMarker_ne_nil
      (fun l hl => find_eq_none_of_hasMarker (hbefore l hl)) hn, List.length_append, hlen, Nat.add_comm]
  have hnext : "\n## ".toList = '\n' :: "## ".toList := by decide
  have hlevel : (fun l : Str => !isLevelTwo l) = fun l => decide ¬"## ".toList <+: l := by
    funext l
    rw [isLevelTwo, decide_not]
  have hrest := drop_find_newline (p := "## ".toList) (a := tail) (by decide) htailmem
    fun l (hl : l ∈ t) => hmem l (by simp [hl])
  rw [hc, replaceDocumentControl_of_find hfind, hnext, hrest, ← hlevel, header_eq, below_append, below_append]
  simp

theorem lines_replaceDocumentControl (c : Str) {m : Metadata} (hm : SingleLine m) :
    lines (replaceDocumentControl c (header m)) = replaceLines (controlLines m) (lines c) := by
  rw [replaceLines]
  rcases marker_cases c with ⟨hdrop, hnone⟩ | ⟨h, t, n, hdrop, hsplit, hn, hbefore⟩
  · rw [hdrop]
    exact lines_replace_of_absent hnone hm
  · have hmem : ∀ x ∈ (lines c).takeWhile (!hasMarker ·) ++ h :: t, '\n' ∉ x := hsplit ▸ @newline_notMem_lines c
    rw [replaceDocumentControl_of_split hsplit hbefore hn, lines_above_below, hdrop]
    dsimp only
    rw [hn]
    · rfl
    · intro x hx
      simp only [List.mem_cons, List.mem_append] at hx
      rcases hx with hx | rfl | hx | rfl | hx
      · exact hmem x (List.mem_append_left _ hx)
      · rw [List.mem_append, not_or]
        exact ⟨fun hx => hmem h (by simp) (List.mem_of_mem_take hx), newline_notMem_controlMarker⟩
      · exact newline_notMem_controlLines hm x hx
      · exact List.not_mem_nil
      · exact hmem x (by simp [(List.dropWhile_sublist _).mem hx])

/-! ## The section of a text -/

/-- The text before the first marker, the section from there to the next heading after a newline, and the text from that
newline on. -/
def controlCut (c : Str) : Option (Str × Str × Str) :=
  (find controlMarker c).map fun n =>
    let tail := c.drop (n + controlMarker.length)
    let k := (find "\n## ".toList tail).getD tail.length
    (c.take n, controlMarker ++ tail.take k, tail.drop k)

/-- What follows a section. -/
def Follows (rest : Str) : Prop := rest = [] ∨ ∃ t, rest = "\n## ".toList ++ t

structure IsCut (c before taken rest : Str) : Prop where
  text : c = before ++ (taken ++ rest)
  heading : ∃ t, taken = controlMarker ++ t
  first : find controlMarker (before ++ controlMarker) = some before.length
  follows : Follows rest

theorem controlCut_eq_none {c : Str} : controlCut c = none ↔ find controlMarker c = none := Option.map_eq_none_iff

theorem replace_of_cut_none {c : Str} (h : controlCut c = none) (d : Str) :
    replaceDocumentControl c d = d ++ "\n\n".toList ++ c := by
  rw [replaceDocumentControl, controlCut_eq_none.mp h]

/-- The cut of a text in which the marker stands first after `a`. -/
theorem controlCut_of_find {a t : Str} (h : find controlMarker (a ++ (controlMarker ++ t)) = some a.length) :
    controlCut (a ++ (controlMarker ++ t)) = some (a, controlMarker ++ t.take ((find "\n## ".toList t).getD t.length),
      t.drop ((find "\n## ".toList t).getD t.length)) := by
  have hdrop : (a ++ (controlMarker ++ t)).drop (a.length + controlMarker.length) = t := by
    rw [List.drop_length_add_append, List.drop_left]
  rw [controlCut, h, Option.map_some]
  simp only [hdrop, List.take_left]

theorem exists_of_cut {c before taken rest : Str} (h : controlCut c = some (before, taken, rest)) :
    ∃ t, c = before ++ (controlMarker ++ t) ∧ find controlMarker (before ++ (controlMarker ++ t)) = some before.length ∧
      taken = controlMarker ++ t.take ((find "\n## ".toList t).getD t.length) ∧
      rest = t.drop ((find "\n## ".toList t).getD t.length) := by
  obtain ⟨n, hn, -⟩ := Option.map_eq_some_iff.mp h
  obtain ⟨t, ht, hlen⟩ := find_spec hn
  have hfind : find controlMarker (c.take n ++ (controlMarker ++ t)) = some (c.take n).length := by rw [← ht, hn, hlen]
  have hcut := controlCut_of_find hfind
  rw [← ht, h, Option.some.injEq, Prod.mk.injEq, Prod.mk.injEq] at hcut
  obtain ⟨rfl, htaken, hrest⟩ := hcut
  exact ⟨t, ht, hfind, htaken, hrest⟩

theorem isCut_of_controlCut {c before taken rest : Str} (h : controlCut c = some (before, taken, rest)) :
    IsCut c before taken rest := by
  obtain ⟨t, htext, hfind, htaken, hrest⟩ := exists_of_cut h
  refine ⟨?_, ⟨_, htaken⟩, ?_, ?_⟩
  · rw [htaken, hrest, List.append_assoc, List.take_append_drop]
    exact htext
  · rw [← List.append_assoc] at hfind
    exact find_of_append hfind (by rw [List.length_append])
  · rw [hrest]
    cases hnext : find "\n## ".toList t with
    | none => exact .inl (List.drop_length ..)
    | some k =>
      obtain ⟨u, hu, hlen⟩ := find_spec hnext
      have hdrop := congrArg (List.drop k) hu
      rw [List.drop_left' hlen] at hdrop
      exact .inr ⟨u, hdrop⟩

/-- The header takes the place of the section. -/
theorem replace_of_cut {c before taken rest : Str} (h : controlCut c = some (before, taken, rest)) (d : Str) :
    replaceDocumentControl c d = before ++ (d ++ rest) := by
  obtain ⟨t, rfl, hfind, -, rfl⟩ := exists_of_cut h
  rw [replaceDocumentControl_of_find hfind]
  cases find "\n## ".toList t with
  | none => simp
  | some k => rfl

theorem head_lines {p s : Str} (hp : '\n' ∉ p) (h : p <+: s) : ∃ l ls, lines s = l :: ls ∧ p <+: l := by
  obtain ⟨l, ls, hs⟩ := List.exists_cons_of_ne_nil (lines_ne_nil s)
  have htext := eq_above_below (show lines s = [] ++ l :: ls from hs)
  rw [above_nil, List.nil_append] at htext
  rw [htext] at h
  exact ⟨l, ls, hs, (isPrefix_append_below hp).mp h⟩

/-- A header on single lines is the section of the text that it has been put in. -/
theorem controlCut_header {before rest : Str} (hfirst : find controlMarker (before ++ controlMarker) = some before.length)
    (hrest : Follows rest) {m : Metadata} (hm : SingleLine m) :
    controlCut (before ++ (header m ++ rest)) = some (before, header m, rest) := by
  have hfind (t : Str) : find controlMarker (before ++ (controlMarker ++ t)) = some before.length :=
    find_change (t := []) (by rwa [List.append_nil]) t
  have hnext : "\n## ".toList = '\n' :: "## ".toList := by decide
  have hmark : '\n' ∉ "## ".toList := by decide
  obtain ⟨ls, hls, hlevel, hmem⟩ : ∃ ls, rest = below ls ∧ ls.dropWhile (¬"## ".toList <+: ·) = ls ∧ ∀ l ∈ ls, '\n' ∉ l := by
    rcases hrest with rfl | ⟨t, rfl⟩
    · exact ⟨[], rfl, rfl, nofun⟩
    · refine ⟨lines ("## ".toList ++ t), ?_, ?_, newline_notMem_lines⟩
      · rw [below_lines, hnext]
        rfl
      · obtain ⟨l, ls, hs, hl⟩ := head_lines hmark (List.prefix_append "## ".toList t)
        rw [hs, List.dropWhile_cons_of_neg (by simpa using hl)]
  have hrows : ∀ l ∈ controlLines m ++ [[]], (decide ¬"## ".toList <+: l) = true := fun l hl => by
    rcases List.mem_append.mp hl with hl | hl
    · obtain ⟨l, rfl⟩ := List.head?_eq_some_iff.mp (head_controlLines m l hl)
      refine decide_eq_true fun h => ?_
      exact absurd (List.cons_prefix_cons.mp (show '#' :: "# ".toList <+: _ from h)).1 (by decide)
    · rw [List.mem_singleton.mp hl]
      decide
  have hunbroken : ∀ l ∈ controlLines m ++ [[]] ++ ls, '\n' ∉ l := fun l hl => by
    rcases List.mem_append.mp hl with hl | hl
    · rcases List.mem_append.mp hl with hl | hl
      · exact newline_notMem_controlLines hm l hl
      · rw [List.mem_singleton.mp hl]
        exact List.not_mem_nil
    · exact hmem l hl
  have hheader := header_eq m
  generalize controlLines m ++ [[]] = rows at hrows hunbroken hheader
  have hlen : (find "\n## ".toList (below (rows ++ ls))).getD (below (rows ++ ls)).length = (below rows).length := by
    have hnewline := find_newline hmark (a := []) (rows ++ ls) List.not_mem_nil hunbroken
    rw [List.dropWhile_append_of_pos hrows, List.takeWhile_append_of_pos hrows, hlevel, List.nil_append, ← hnext] at hnewline
    have htake := @List.takeWhile_append_dropWhile _ (fun l => decide ¬"## ".toList <+: l) ls
    rw [hlevel, List.append_left_eq_self] at htake
    rw [htake, List.append_nil, List.nil_append] at hnewline
    rw [hnewline]
    cases ls with
    | nil => rw [List.append_nil]; rfl
    | cons l ls => rfl
  have htext : before ++ (header m ++ rest) = before ++ (controlMarker ++ below (rows ++ ls)) := by
    rw [hheader, hls, below_append, List.append_assoc]
  rw [htext, controlCut_of_find (hfind _), hlen, below_append, List.take_left, List.drop_left, hheader, hls]

end KCore.Artifacts
