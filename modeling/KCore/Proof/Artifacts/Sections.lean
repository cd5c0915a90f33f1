import KCore.Proof.Artifacts.DocumentControl

/-!
# Sections of a document

A Document Control section goes from its heading to the next heading of the first or
second level. What a file says outside of these sections is taken of its lines as they are
read, where `\r` is a line break (`outsideText`); a cut splits it into what is said before
the section, in it and after it (`outsideText_around`).
-/

namespace KCore.Artifacts

open Text

/-- The heading of a Document Control section. -/
def isControl (l : Str) : Bool := l.rdropWhile isSpace = controlMarker

/-- The line begins a section of the first level. -/
def isLevelOne (l : Str) : Bool := "# ".toList <+: l

def isBlank (l : Str) : Bool := l.all isSpace

/-- The lines outside of Document Control sections, beginning inside of one or not. -/
def outside : Bool → List Str → List Str
  | _, [] => []
  | inside, l :: ls =>
    if isControl l then outside true ls
    else if isLevelOne l || isLevelTwo l then l :: outside false ls
    else if inside then outside true ls
    else l :: outside false ls

/-- What lines say outside of Document Control sections. -/
def said (ls : List Str) : List Str := (outside false ls).filter (!isBlank ·)

/-- What a file with this text says there. -/
def outsideText (s : Str) : List Str := said (lines (universalNewlines s))

/-! ## Kinds of lines -/

theorem isControl_eq_append {l : Str} (h : isControl l = true) : ∃ s, l = controlMarker ++ s := by
  obtain ⟨s, hs⟩ := List.rdropWhile_prefix isSpace l
  exact ⟨s, by rw [← hs, of_decide_eq_true h]⟩

theorem find_of_isControl {l : Str} (h : isControl l = true) : find controlMarker l = some 0 := by
  obtain ⟨s, rfl⟩ := isControl_eq_append h
  exact if_pos (List.prefix_append _ s)

theorem isControl_eq_false {l : Str} (h : hasMarker l = false) : isControl l = false := by
  by_contra hc
  rw [Bool.not_eq_false] at hc
  rw [hasMarker, find_of_isControl hc] at h
  cases h

theorem isLevelTwo_of_append {s : Str} : isLevelTwo (controlMarker ++ s) = true := by
  have h : "## ".toList <+: controlMarker := by decide
  exact decide_eq_true (h.trans (List.prefix_append _ s))

theorem isLevelTwo_of_isControl {l : Str} (h : isControl l = true) : isLevelTwo l = true := by
  obtain ⟨s, rfl⟩ := isControl_eq_append h
  exact isLevelTwo_of_append

/-- After other text the marker is no heading. -/
theorem isControl_append_marker (w : Str) : isControl (w ++ controlMarker) = decide (w = []) := by
  have hmarker : controlMarker = "## Document Contro".toList ++ ['l'] := by decide
  have hspace : ¬isSpace 'l' = true := by decide
  rw [isControl, hmarker, ← List.append_assoc, List.rdropWhile_concat_neg _ _ _ hspace]
  simp

/-- A line that begins with a bar, as those below the heading do. -/
theorem row_kind {l : Str} (h : l.head? = some '|') :
    isControl l = false ∧ isLevelOne l = false ∧ isLevelTwo l = false ∧ isBlank l = false := by
  obtain ⟨l, rfl⟩ := List.head?_eq_some_iff.mp h
  have hne {p : Str} (hp : p.head? = some '#') : ¬p <+: '|' :: l := by
    obtain ⟨p, rfl⟩ := List.head?_eq_some_iff.mp hp
    exact fun h => absurd (List.cons_prefix_cons.mp h).1 (by decide)
  have hcontrol : isControl ('|' :: l) = false := by
    by_contra hc
    obtain ⟨s, hs⟩ := isControl_eq_append (Bool.not_eq_false _ ▸ hc)
    exact hne rfl ⟨s, hs.symm⟩
  exact ⟨hcontrol, decide_eq_false (hne rfl), decide_eq_false (hne rfl), rfl⟩

theorem isBlank_eq_false_of_level {l : Str} (h : isLevelOne l = true ∨ isLevelTwo l = true) : isBlank l = false := by
  have hall {p : Str} (hp : p.head? = some '#') (hl : p <+: l) : isBlank l = false := by
    obtain ⟨p, rfl⟩ := List.head?_eq_some_iff.mp hp
    obtain ⟨t, rfl⟩ := hl
    rfl
  rcases h with h | h
  · exact hall rfl (of_decide_eq_true h)
  · exact hall rfl (of_decide_eq_true h)

/-! ## Outside of sections -/

theorem outside_control {l : Str} (h : isControl l = true) (b : Bool) (ls : List Str) :
    outside b (l :: ls) = outside true ls := by rw [outside, if_pos h]

theorem outside_append {ls : List Str} (h : ∀ l ∈ ls, isControl l = false) (ls' : List Str) :
    outside false (ls ++ ls') = ls ++ outside false ls' := by
  induction ls with
  | nil => rfl
  | cons l ls ih =>
    have ih := ih fun x hx => h x (.tail _ hx)
    simp only [List.cons_append, outside, h l (.head _), Bool.false_eq_true, ite_false, ih, ite_self]

theorem outside_eq_self {ls : List Str} (h : ∀ l ∈ ls, isControl l = false) : outside false ls = ls := by
  have houtside := outside_append h []
  rwa [List.append_nil, outside, List.append_nil] at houtside

/-- Below the heading, lines without headings say nothing. -/
theorem outside_rows {ls : List Str}
    (h : ∀ l ∈ ls, isControl l = false ∧ isLevelOne l = false ∧ isLevelTwo l = false) (ls' : List Str) :
    outside true (ls ++ ls') = outside true ls' := by
  induction ls with
  | nil => rfl
  | cons l ls ih =>
    obtain ⟨hc, h₁, h₂⟩ := h l (.head _)
    rw [List.cons_append, outside, hc, h₁, h₂]
    exact ih fun x hx => h x (.tail _ hx)

/-- The lines begin with a heading of the first or second level, if there are any. -/
def Opens (ls : List Str) : Prop := ∀ l ∈ ls.head?, (isLevelOne l || isLevelTwo l) = true

theorem opens_nil : Opens [] := nofun

theorem opens_dropWhile {q : Str → Bool} (h : ∀ l, q l = false → (isLevelOne l || isLevelTwo l) = true)
    (ls : List Str) : Opens (ls.dropWhile q) := by
  intro l hl
  have hhead := List.head?_dropWhile_not q ls
  rw [hl] at hhead
  exact h l (by simpa using hhead)

theorem opens_dropWhile_levelTwo (ls : List Str) : Opens (ls.dropWhile (!isLevelTwo ·)) :=
  opens_dropWhile (fun l hl => by
    rw [Bool.not_eq_false'] at hl
    rw [hl, Bool.or_true]) ls

theorem Opens.outside {ls : List Str} (h : Opens ls) (b : Bool) : outside b ls = outside false ls := by
  cases ls with
  | nil => rfl
  | cons l ls =>
    have hl : (isLevelOne l || isLevelTwo l) = true := h l rfl
    simp only [KCore.Artifacts.outside, hl, ite_true]

theorem Opens.outside_append {ls : List Str} (h : Opens ls) (b : Bool) (xs : List Str) :
    KCore.Artifacts.outside b (xs ++ ls) = KCore.Artifacts.outside b xs ++ KCore.Artifacts.outside false ls := by
  induction xs generalizing b with
  | nil => exact h.outside b
  | cons x xs ih =>
    simp only [List.cons_append, KCore.Artifacts.outside, ih]
    split
    · rfl
    · split
      · rfl
      · split <;> rfl

/-- What lines say before a heading and from it on. -/
theorem Opens.said_append {ls : List Str} (h : Opens ls) (xs : List Str) : said (xs ++ ls) = said xs ++ said ls := by
  rw [said, h.outside_append, List.filter_append]
  rfl

theorem said_append_left {ls : List Str} (h : ∀ l ∈ ls, isControl l = false) (xs : List Str) :
    said (ls ++ xs) = ls.filter (!isBlank ·) ++ said xs := by
  rw [said, outside_append h, List.filter_append]
  rfl

theorem kind_of_isBlank {l : Str} (h : isBlank l = true) :
    isControl l = false ∧ isLevelOne l = false ∧ isLevelTwo l = false := by
  have hlevel : ¬(isLevelOne l = true ∨ isLevelTwo l = true) := fun hl =>
    Bool.false_ne_true ((isBlank_eq_false_of_level hl).symm.trans h)
  rw [not_or, Bool.not_eq_true, Bool.not_eq_true] at hlevel
  refine ⟨?_, hlevel⟩
  by_contra hc
  exact Bool.false_ne_true (hlevel.2.symm.trans (isLevelTwo_of_isControl (Bool.not_eq_false _ ▸ hc)))

theorem filter_blank_eq_nil {ls : List Str} : ls.filter (!isBlank ·) = [] ↔ ∀ l ∈ ls, isBlank l = true := by
  simp [List.filter_eq_nil_iff]

theorem said_append_blank {ls : List Str} (h : ∀ l ∈ ls, isBlank l = true) (xs : List Str) :
    said (xs ++ ls) = said xs := by
  have hkind : ∀ l ∈ ls, isControl l = false ∧ isLevelOne l = false ∧ isLevelTwo l = false :=
    fun l hl => kind_of_isBlank (h l hl)
  have hblank (b : Bool) : (outside b ls).filter (!isBlank ·) = [] := by
    cases b with
    | true =>
      have hrows := outside_rows hkind []
      rw [List.append_nil] at hrows
      rw [hrows]
      rfl
    | false => rwa [outside_eq_self fun l hl => (hkind l hl).1, filter_blank_eq_nil]
  have hxs (b : Bool) : (outside b (xs ++ ls)).filter (!isBlank ·) = (outside b xs).filter (!isBlank ·) := by
    induction xs generalizing b with
    | nil => exact hblank b
    | cons x xs ih =>
      simp only [List.cons_append, outside]
      split
      · exact ih true
      · split
        · rw [List.filter_cons, List.filter_cons, ih]
        · split
          · exact ih true
          · rw [List.filter_cons, List.filter_cons, ih]
  exact hxs false

/-- Lines from a heading on say nothing where all their headings are the section's. -/
theorem Opens.said_eq_nil_iff {ls : List Str} (h : Opens ls) :
    said ls = [] ↔ ∀ l ∈ ls, isLevelOne l = true ∨ isLevelTwo l = true → isControl l = true := by
  rw [said, ← h.outside true]
  clear h
  induction ls with
  | nil => simp [KCore.Artifacts.outside]
  | cons l ls ih =>
    rw [List.forall_mem_cons, KCore.Artifacts.outside]
    cases hc : isControl l with
    | true => simpa using ih
    | false =>
      by_cases hl : isLevelOne l = true ∨ isLevelTwo l = true
      · rw [if_neg Bool.false_ne_true, if_pos (by rwa [Bool.or_eq_true]), List.filter_cons, isBlank_eq_false_of_level hl]
        simp [hl]
      · rw [if_neg Bool.false_ne_true, if_neg (by rwa [Bool.or_eq_true]), if_pos rfl, ih]
        simp [hl]

/-! ## Lines under a header -/

/-- The lines of a header, and others after it. -/
def headed (m : Metadata) (after : List Str) : List Str := controlMarker :: (controlLines m ++ [] :: after)

theorem isControl_controlMarker : isControl controlMarker = true := by decide

theorem lines_header_eq {m : Metadata} (hm : SingleLine m) : lines (header m) = headed m [] := lines_header hm

theorem kind_of_mem_rows {m : Metadata} : ∀ l ∈ controlLines m ++ [[]],
    isControl l = false ∧ isLevelOne l = false ∧ isLevelTwo l = false := by
  intro l hl
  rcases List.mem_append.mp hl with hl | hl
  · obtain ⟨hc, h₁, h₂, -⟩ := row_kind (head_controlLines m l hl)
    exact ⟨hc, h₁, h₂⟩
  · obtain rfl := List.mem_singleton.mp hl
    decide

theorem headed_eq (m : Metadata) (after : List Str) :
    headed m after = controlMarker :: ((controlLines m ++ [[]]) ++ after) := by
  rw [headed, List.append_assoc, List.singleton_append]

theorem outside_headed (m : Metadata) (after : List Str) : outside false (headed m after) = outside true after := by
  rw [headed_eq, outside_control isControl_controlMarker, outside_rows kind_of_mem_rows]

theorem Opens.said_headed {after : List Str} (h : Opens after) (m : Metadata) : said (headed m after) = said after := by
  rw [said, outside_headed, h.outside true]
  rfl

theorem countP_headed (m : Metadata) (after : List Str) :
    (headed m after).countP isControl = 1 + after.countP isControl := by
  have hrows : (controlLines m ++ [[]]).countP isControl = 0 :=
    List.countP_eq_zero.mpr fun l hl => by rw [(kind_of_mem_rows l hl).1]; exact Bool.false_ne_true
  rw [headed_eq, List.countP_cons_of_pos isControl_controlMarker, List.countP_append, hrows]
  omega

/-! ## Around a section -/

theorem marker_head : controlMarker.head? = some '#' := by decide

theorem head_header (m : Metadata) : (header m).head? = some '#' := by
  rw [header_eq, List.head?_append, marker_head]
  rfl

theorem getLast_header (m : Metadata) : (header m).getLast? = some '\n' := by
  rw [header_eq, below_append, ← List.append_assoc, List.getLast?_append]
  rfl

theorem Follows.universalNewlines {r : Str} (h : Follows r) : Follows (universalNewlines r) := by
  have hnext : '\r' ∉ "\n## ".toList := by decide
  rcases h with rfl | ⟨t, rfl⟩
  · exact .inl rfl
  · refine .inr ⟨Text.universalNewlines t, ?_⟩
    have hlast : "\n## ".toList.getLast? ≠ some '\r' := by decide
    rw [universalNewlines_append (.inl hlast), universalNewlines_of_notMem hnext]

/-- The lines after the newline that a rest begins with. -/
def restLines (r : Str) : List Str := (lines (universalNewlines r)).tail

theorem lines_newline (t : Str) : lines ('\n' :: t) = [] :: lines t := lines_append_newline [] t

theorem next_eq (t : Str) : "\n## ".toList ++ t = '\n' :: ("## ".toList ++ t) := by
  have hnext : "\n## ".toList = '\n' :: "## ".toList := by decide
  rw [hnext, List.cons_append]

theorem Follows.lines_eq {r : Str} (h : Follows r) : lines r = [] :: (lines r).tail := by
  rcases h with rfl | ⟨t, rfl⟩
  · rfl
  · rw [next_eq, lines_newline, List.tail_cons]

/-- What follows begins a line of its own. -/
theorem Follows.lines_append {r : Str} (h : Follows r) (x : Str) : lines (x ++ r) = lines x ++ (lines r).tail := by
  rcases h with rfl | ⟨t, rfl⟩
  · rw [List.append_nil]
    exact (List.append_nil _).symm
  · rw [next_eq, lines_append_newline, lines_newline, List.tail_cons]

theorem Follows.opens {r : Str} (h : Follows r) : Opens (lines r).tail := by
  rcases h with rfl | ⟨t, rfl⟩
  · exact opens_nil
  · have hmark : '\n' ∉ "## ".toList := by decide
    obtain ⟨l, ls, hs, hl⟩ := head_lines hmark (List.prefix_append "## ".toList t)
    rw [next_eq, lines_newline, List.tail_cons, hs]
    intro l' hl'
    obtain rfl := Option.some.inj hl'
    rw [show isLevelTwo l = true from decide_eq_true hl, Bool.or_true]

theorem lines_append_follows (b : Str) {r : Str} (h : Follows r) (y : Str) :
    lines (b ++ (y ++ r)) = fullLines b ++ (lines (lastLine b ++ y) ++ (lines r).tail) := by
  rw [Text.lines_append, ← List.append_assoc, h.lines_append]

/-- What a text says before what follows a section and from there on: a `\r` between the two makes no difference. -/
theorem said_follows {r : Str} (h : Follows r) (b y : Str) :
    said (lines (b ++ universalNewlines (y ++ r))) = said (lines (b ++ universalNewlines y)) ++ said (restLines r) := by
  by_cases hy : y.getLast? = some '\r' ∧ r.head? = some '\n'
  · obtain ⟨y', rfl⟩ := List.getLast?_eq_some_iff.mp hy.1
    obtain ⟨t, rfl⟩ := List.head?_eq_some_iff.mp hy.2
    have ht : universalNewlines ('\n' :: t) = '\n' :: universalNewlines t := universalNewlines_cons (by decide) t
    have hopens := h.universalNewlines.opens
    have hblank : ∀ l ∈ lines [], isBlank l = true := by decide
    rw [restLines]
    rw [ht, lines_newline, List.tail_cons] at hopens ⊢
    rw [List.append_assoc, List.singleton_append, universalNewlines_crlf, universalNewlines_concat_cr,
      ← List.append_assoc, ← List.append_assoc, lines_append_newline, lines_append_newline, hopens.said_append,
      said_append_blank hblank]
  · rw [universalNewlines_append (not_and_or.mp hy), ← List.append_assoc, h.universalNewlines.lines_append,
      h.universalNewlines.opens.said_append]
    rfl

theorem control_fullLines {b : Str} (hb : find controlMarker (b ++ controlMarker) = some b.length) :
    ∀ l ∈ fullLines (universalNewlines b), isControl l = false := by
  have hmarker : '\r' ∉ controlMarker := by decide
  intro l hl
  refine isControl_eq_false ?_
  rw [hasMarker, find_fullLines newline_notMem_controlMarker controlMarker_ne_nil
    (find_universalNewlines newline_notMem_controlMarker hmarker hb) l hl]
  rfl

/-- What a text says before the line of its first marker, from there to what follows, and from there on. -/
theorem outsideText_around {b y r : Str} (hb : find controlMarker (b ++ controlMarker) = some b.length)
    (hy : y.head? = some '#') (hr : Follows r) :
    outsideText (b ++ (y ++ r)) = (fullLines (universalNewlines b)).filter (!isBlank ·) ++
      (said (lines (lastLine (universalNewlines b) ++ universalNewlines y)) ++ said (restLines r)) := by
  have hhead : (y ++ r).head? ≠ some '\n' := by
    obtain ⟨y', rfl⟩ := List.head?_eq_some_iff.mp hy
    exact fun h => absurd (Option.some.inj h) (by decide)
  rw [outsideText, universalNewlines_append (.inr hhead), said_follows hr, Text.lines_append,
    said_append_left (control_fullLines hb), List.append_assoc]

section Cut

variable {c before taken rest : Str} (h : controlCut c = some (before, taken, rest))
include h

theorem head_taken : taken.head? = some '#' := by
  obtain ⟨t, rfl⟩ := (isCut_of_controlCut h).heading
  rw [List.head?_append, marker_head]
  rfl

theorem outsideText_cut : outsideText c = (fullLines (universalNewlines before)).filter (!isBlank ·) ++
    (said (lines (lastLine (universalNewlines before) ++ universalNewlines taken)) ++ said (restLines rest)) := by
  have hcut := isCut_of_controlCut h
  rw [hcut.text, outsideText_around hcut.first (head_taken h) hcut.follows]

/-- A section that is cut out begins with a heading of the second level. -/
theorem opens_taken : Opens (lines (universalNewlines taken)) := by
  have hmarker : '\r' ∉ controlMarker := by decide
  have hlast : controlMarker.getLast? ≠ some '\r' := by decide
  obtain ⟨t, rfl⟩ := (isCut_of_controlCut h).heading
  obtain ⟨l, ls, hs, ⟨s, rfl⟩⟩ :=
    head_lines newline_notMem_controlMarker (List.prefix_append controlMarker (universalNewlines t))
  rw [universalNewlines_append (.inl hlast), universalNewlines_of_notMem hmarker, hs]
  intro l hl
  obtain rfl := Option.some.inj hl
  rw [isLevelTwo_of_append, Bool.or_true]

end Cut

end KCore.Artifacts
