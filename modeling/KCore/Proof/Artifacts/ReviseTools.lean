import KCore.Impl.Artifacts.ReviseTools
import KCore.Proof.Artifacts.Review
import KCore.Proof.Artifacts.Revise

/-!
# What a revision without a document keeps

A revision puts the header in the place of the section that it takes out of its content;
what the text says outside of Document Control stays the same just where the two say the
same there (`outsideText_replace_eq_iff`), as for a section with a heading of its own and a
header on single lines (`Cuttable.kept`). `revision_keeps` is when `revise_hara` and
`revise_fsc` keep the previous text, or the answer.
-/

namespace KCore.Artifacts.ReviseTools

open Text

/-! ## Texts -/

/-- The lines before the first heading of the first or second level. -/
def opening (c : Str) : List Str := (lines (universalNewlines c)).takeWhile fun l => !(isLevelOne l || isLevelTwo l)

/-- The header says what the section said that it takes the place of; where there was none, the header with the
beginning of the text below it says what that beginning said. -/
def Kept (m : Metadata) (c : Str) : Prop :=
  match controlCut c with
  | none => said (lines (universalNewlines (header m)) ++ [] :: opening c) = said (opening c)
  | some (before, taken, _) => said (lines (lastLine (universalNewlines before) ++ universalNewlines (header m))) =
      said (lines (lastLine (universalNewlines before) ++ universalNewlines taken))

/-- A header that comes before a text. -/
theorem outsideText_first (m : Metadata) (c : Str) : outsideText (header m ++ "\n\n".toList ++ c) =
    said (lines (universalNewlines (header m)) ++ [] :: lines (universalNewlines c)) := by
  have hblank : "\n\n".toList = ['\n', '\n'] := by decide
  have hlast : (header m).getLast? ≠ some '\r' := by
    rw [getLast_header]
    decide
  have hnewline (t : Str) : universalNewlines ('\n' :: t) = '\n' :: universalNewlines t := universalNewlines_cons (by decide) t
  rw [outsideText, hblank, List.append_assoc, universalNewlines_append (.inl hlast), List.cons_append,
    List.singleton_append, hnewline, hnewline, lines_append_newline, lines_newline]

/-- What the text says outside of Document Control stays the same just where the section and the header say the same. -/
theorem outsideText_replace_eq_iff (m : Metadata) (c : Str) :
    outsideText (replaceDocumentControl c (header m)) = outsideText c ↔ Kept m c := by
  rw [Kept]
  cases hcut : controlCut c with
  | none =>
    have hopens : Opens ((lines (universalNewlines c)).dropWhile fun l => !(isLevelOne l || isLevelTwo l)) :=
      opens_dropWhile (fun l hl => by rwa [Bool.not_eq_false'] at hl) _
    have hlines : lines (universalNewlines c) =
        opening c ++ (lines (universalNewlines c)).dropWhile fun l => !(isLevelOne l || isLevelTwo l) :=
      List.takeWhile_append_dropWhile.symm
    rw [replace_of_cut_none hcut, outsideText_first, outsideText, hlines, ← List.cons_append, ← List.append_assoc,
      hopens.said_append, hopens.said_append, List.append_left_inj]
  | some cut =>
    obtain ⟨before, taken, rest⟩ := cut
    have h := isCut_of_controlCut hcut
    rw [replace_of_cut hcut, outsideText_around h.first (head_header m) h.follows, outsideText_cut hcut,
      List.append_right_inj, List.append_left_inj]

/-- The section begins its line and holds no heading of the first two levels but its own; or there is none, and the text
begins with a heading. -/
def Cuttable (c : Str) : Prop :=
  match controlCut c with
  | none => ∀ l ∈ opening c, isBlank l = true
  | some (before, taken, _) => lastLine (universalNewlines before) = [] ∧
      ∀ l ∈ lines (universalNewlines taken), isLevelOne l = true ∨ isLevelTwo l = true → isControl l = true

theorem said_header {m : Metadata} (hm : SingleLine m) : said (lines (header m)) = [] := by
  rw [lines_header_eq hm, opens_nil.said_headed]
  rfl

theorem Cuttable.kept {m : Metadata} (hm : SingleLine m) {c : Str} (h : Cuttable c) : Kept m c := by
  rw [Cuttable] at h
  rw [Kept, universalNewlines_header hm]
  cases hcut : controlCut c with
  | none =>
    rw [hcut] at h
    have hblank : ∀ x ∈ [] :: opening c, isBlank x = true := List.forall_mem_cons.mpr ⟨rfl, h⟩
    have hopening : said (opening c) = said [] := said_append_blank h []
    exact (said_append_blank hblank _).trans ((said_header hm).trans hopening.symm)
  | some cut =>
    obtain ⟨before, taken, rest⟩ := cut
    rw [hcut] at h
    have htaken : said (lines (universalNewlines taken)) = [] := (opens_taken hcut).said_eq_nil_iff.mpr h.2
    dsimp only
    rw [h.1, List.nil_append, List.nil_append, said_header hm, htaken]

/-! ## One call -/

/-- The text of a version's markdown file. -/
def markdownOf (s : Store) (m : Metadata) : Option Str :=
  match s.get? m.mdPath with
  | some (.markdown text) => some text
  | _ => none

theorem readArtifactContent_eq {m : Metadata} (hm : Filed m) (s : Store) :
    readArtifactContent s m = universalNewlines ((markdownOf s m).getD []) := by
  simp only [readArtifactContent, markdownOf, hm.md, Option.getD_some]
  split <;> simp_all

/-- The new version of an artifact says outside of Document Control what the previous one says. -/
def SaysPrevious (s : Store) (a : Metadata) (text : Str) : Prop := ∃ t ∈ markdownOf s a, outsideText text = outsideText t

/-- A new version of an artifact says outside of Document Control what the previous one or the answer says, and is not
empty there unless the previous one was. -/
def Revised (s : Store) (a : Metadata) (given : Option Str) (s' : Store) : Prop :=
  ∃ b text, (∀ g, getLatestById g s' a.artifactId none = some b) ∧ b.version = a.version + 1 ∧
    markdownOf s' b = some text ∧
    (SaysPrevious s a text ∨ ∃ r ∈ given, r ≠ [] ∧ outsideText text = outsideText r) ∧
    (outsideText text = [] → ∀ t ∈ markdownOf s a, outsideText t = [])

/-- The content of the new version. -/
def contentOf (previous given : Option Str) (readable : Bool) : Str :=
  given.getD (if readable then universalNewlines (previous.getD []) else [])

/-- The header takes the place of a section that says the same, in a content that says what the previous text says, or in
an answer that is not blank and empty only if the previous text is. -/
structure Safe (b : Metadata) (previous given : Option Str) (readable : Bool) : Prop where
  kept : Kept b (contentOf previous given readable)
  content : (∃ t ∈ previous, outsideText (contentOf previous given readable) = outsideText t) ∨
    ∃ r ∈ given, r ≠ [] ∧ (outsideText r = [] → ∀ t ∈ previous, outsideText t = [])

/-- The store after a call on an artifact, without a document. -/
theorem reviseTool_eq (c : Concept) (p : Platform) {s : Store} {data : Values} {id : Str} {a : Metadata}
    (hid : CoreTools.firstOf data ["artifact_id".toList, "text".toList] = .text id) (hne : id ≠ [])
    (hdocument : (data.value "revised_document".toList).truthy = false)
    (ha : getLatestById p.env.listing s id none = some a) (hfiled : Filed a) :
    (reviseTool c p s data).1 = reviseWith id s
      (contentOf (markdownOf s a) (answer c p (ensureList (data.value "change_requests".toList).raw) (currentContent p s a))
        p.readable) ⟨p.env, .list (ensureList (data.value "change_requests".toList).raw), some a.author⟩ := by
  have hcurrent : currentContent p s a = if p.readable then universalNewlines ((markdownOf s a).getD []) else [] := by
    rw [currentContent, readArtifactContent_eq hfiled]
  have htruthy : (Value.text id).truthy = true := decide_eq_true hne
  rw [reviseTool, hid]
  simp only [htruthy, ite_true, ha, newContent, hdocument, Bool.false_eq_true, ite_false, reviseWith, contentOf]
  rw [← hcurrent]
  split <;> rename_i heq <;> rw [heq]

/-- What a text says under the header of a version: where its section says what the header says, the version keeps the
previous text or the answer just where the content is safe; elsewhere only if it says what the previous text says. -/
theorem kept_cases (b : Metadata) {s : Store} {a : Metadata} (given : Option Str) (readable : Bool) {text : Str}
    (htext : text = replaceDocumentControl (contentOf (markdownOf s a) given readable) (header b)) :
    let kept := (SaysPrevious s a text ∨ ∃ r ∈ given, r ≠ [] ∧ outsideText text = outsideText r) ∧
      (outsideText text = [] → ∀ t ∈ markdownOf s a, outsideText t = [])
    (Safe b (markdownOf s a) given readable → kept) ∧
      (kept → Safe b (markdownOf s a) given readable ∨
        ¬Kept b (contentOf (markdownOf s a) given readable) ∧ SaysPrevious s a text) := by
  intro kept
  have hiff := outsideText_replace_eq_iff b (contentOf (markdownOf s a) given readable)
  rw [← htext] at hiff
  have hgiven : ∀ r ∈ given, contentOf (markdownOf s a) given readable = r := by
    rintro r rfl
    rfl
  constructor
  · rintro ⟨hkept, hcontent⟩
    have hsame := hiff.mpr hkept
    rcases hcontent with ⟨t, ht, hprevious⟩ | ⟨r, hr, hne, hempty⟩
    · refine ⟨.inl ⟨t, ht, hsame.trans hprevious⟩, fun hnil t' ht' => ?_⟩
      obtain rfl := Option.some.inj (ht.symm.trans ht')
      rw [← hprevious, ← hsame, hnil]
    · rw [hgiven r hr] at hsame
      exact ⟨.inr ⟨r, hr, hne, hsame⟩, fun hnil => hempty (hsame.symm.trans hnil)⟩
  · rintro ⟨hsaid, hempty⟩
    by_cases hkept : Kept b (contentOf (markdownOf s a) given readable)
    · have hsame := hiff.mpr hkept
      refine .inl ⟨hkept, ?_⟩
      rcases hsaid with ⟨t, ht, hprevious⟩ | ⟨r, hr, hne, -⟩
      · exact .inl ⟨t, ht, hsame.symm.trans hprevious⟩
      · rw [hgiven r hr] at hsame
        exact .inr ⟨r, hr, hne, fun hnil => hempty (hsame.trans hnil)⟩
    · refine .inr ⟨hkept, hsaid.resolve_right ?_⟩
      rintro ⟨r, hr, -, hsame⟩
      exact hkept (hiff.mp (by rw [hsame, hgiven r hr]))

/-- The new version, and the text of its file. -/
theorem Refines.latest_reviseWith {s : Store} {L : Ledger Str Metadata} (hR : Refines s L) {g : Listing} {id : Str}
    {a : Metadata} (ha : getLatestById g s id none = some a) (content : Str) (r : Revision) :
    a.artifactId = id ∧ (∀ g, getLatestById g (reviseWith id s content r) id none = some (r.next a)) ∧
      markdownOf (reviseWith id s content r) (r.next a) = some (replaceDocumentControl content (header (r.next a))) ∧
      reviseWith id s content r ≠ s := by
  have hlatest := ha
  rw [hR.latest] at hlatest
  obtain ⟨l, hL⟩ := List.getLast?_eq_some_iff.mp hlatest
  obtain ⟨rfl, -⟩ := hR.filed id a (by rw [hL]; simp)
  obtain ⟨L', l', hR', hL'⟩ := hR.revise hL content r
  have hnew (g : Listing) : getLatestById g (reviseWith a.artifactId s content r) a.artifactId none = some (r.next a) := by
    rw [hR'.latest, hL', List.getLast?_concat]
  refine ⟨rfl, hnew, by rw [markdownOf, hR.get?_reviseWith hL content r], fun hsame => ?_⟩
  have hversion := hnew g
  rw [hsame, ha] at hversion
  have hnext : (r.next a).version = a.version + 1 := rfl
  rw [← Option.some.inj hversion] at hnext
  omega

/-- The latest version of an artifact says what it said before. -/
def Restored (s : Store) (a : Metadata) (s' : Store) : Prop :=
  ∃ b text, (∀ g, getLatestById g s' a.artifactId none = some b) ∧ markdownOf s' b = some text ∧ SaysPrevious s a text

theorem Refines.revised {s : Store} {L : Ledger Str Metadata} (hR : Refines s L) {g : Listing} {id : Str}
    {a : Metadata} (ha : getLatestById g s id none = some a) (given : Option Str) (readable : Bool) (r : Revision) :
    let content := contentOf (markdownOf s a) given readable
    (Safe (r.next a) (markdownOf s a) given readable → Revised s a given (reviseWith id s content r)) ∧
      (reviseWith id s content r = s ∨ Revised s a given (reviseWith id s content r) →
        Safe (r.next a) (markdownOf s a) given readable ∨
          ¬Kept (r.next a) content ∧ Restored s a (reviseWith id s content r)) := by
  intro content
  obtain ⟨rfl, hnew, hmarkdown, hchanged⟩ := Refines.latest_reviseWith hR ha content r
  obtain ⟨hsafe, hkept⟩ := kept_cases (r.next a) given readable (s := s) (a := a) rfl
  constructor
  · exact fun h => ⟨r.next a, _, hnew, rfl, hmarkdown, hsafe h⟩
  · intro h
    obtain ⟨b, text, hb, -, htext, hrevised⟩ := h.resolve_left hchanged
    obtain rfl : r.next a = b := Option.some.inj ((hnew g).symm.trans (hb g))
    obtain rfl : _ = text := Option.some.inj (hmarkdown.symm.trans htext)
    exact (hkept hrevised).imp_right fun ⟨hnot, hsaid⟩ => ⟨hnot, r.next a, _, hnew, hmarkdown, hsaid⟩

/-- A revision without a document keeps the previous text, or takes a non-blank answer, and empties no document, where it
is safe; and otherwise only where its content loses text and what is left says just what the previous text says. -/
theorem revision_keeps {cs : List Call} (h : Machine.Along step Fresh Dict.empty cs) (c : Concept) (p : Platform)
    {data : Values} {id : Str} (hid : CoreTools.firstOf data ["artifact_id".toList, "text".toList] = .text id)
    (hdocument : (data.value "revised_document".toList).truthy = false) {a : Metadata}
    (ha : getLatestById p.env.listing (Machine.run step Dict.empty cs) id none = some a) :
    let s := Machine.run step Dict.empty cs
    let s' := (reviseTool c p s data).1
    let changes := ensureList (data.value "change_requests".toList).raw
    let given := answer c p changes (currentContent p s a)
    let b := Revision.next ⟨p.env, .list changes, some a.author⟩ a
    (Safe b (markdownOf s a) given p.readable → s' = s ∨ Revised s a given s') ∧
      (s' = s ∨ Revised s a given s' → Safe b (markdownOf s a) given p.readable ∨
        ¬Kept b (contentOf (markdownOf s a) given p.readable) ∧ Restored s a s') := by
  have hR := run_refines h
  intro s s' changes given b
  have hlatest := ha
  rw [hR.latest] at hlatest
  obtain ⟨hid', hfiled⟩ := hR.filed id a (List.mem_of_getLast? hlatest)
  have hs' : s' = _ := reviseTool_eq c p hid (hid' ▸ hfiled.id) hdocument ha hfiled
  obtain ⟨hsafe, hrevised⟩ := Refines.revised hR ha given p.readable ⟨p.env, .list changes, some a.author⟩
  rw [hs']
  exact ⟨fun h => .inr (hsafe h), hrevised⟩

/-- The metadata of the sample item. -/
def itemMetadata : Metadata :=
  (generate sampleEnv Dict.empty "Door Lock".toList conceptPhase itemDefinitionWp "Item Definition".toList [] [] []
    "# Item".toList).2

theorem singleLine_itemMetadata : SingleLine itemMetadata :=
  ⟨by decide, by decide, by decide, by decide, by decide, by decide, by decide, by decide, by decide, nofun, nofun⟩

theorem latest_generateItem :
    getLatestById .id (Machine.run step Dict.empty [generateItem]) generateItem.artifactId none = some itemMetadata := by
  decide +kernel

theorem fresh_generateItem : Machine.Along step Fresh Dict.empty [generateItem] := by
  decide +kernel

theorem filed_itemMetadata : Filed itemMetadata :=
  (run_refines fresh_generateItem).filed _ itemMetadata (List.mem_of_getLast? (by
    rw [← (run_refines fresh_generateItem).latest .id]
    exact latest_generateItem)) |>.2

/-- The artifact's id alone. -/
def itemInput : Values := Dict.empty.set "artifact_id".toList (.text generateItem.artifactId)

theorem singleLine_next_itemMetadata {r : Revision} (hr : r.author = some itemMetadata.author) :
    SingleLine (r.next itemMetadata) :=
  singleLine_itemMetadata.next filed_itemMetadata fun author hauthor => by
    rw [hr] at hauthor
    exact Option.some.inj hauthor ▸ singleLine_itemMetadata.author

theorem markdown_generateItem :
    markdownOf (Machine.run step Dict.empty [generateItem]) itemMetadata = some "# Item".toList := by
  decide +kernel

/-- With a file that can be read, the item's text is kept. -/
theorem revision_keeps_item :
    let s := Machine.run step Dict.empty [generateItem]
    let s' := (reviseTool .hara ⟨sampleEnv, true, fun _ => none⟩ s itemInput).1
    s' = s ∨ Revised s itemMetadata none s' := by
  have hid : CoreTools.firstOf itemInput ["artifact_id".toList, "text".toList] = .text generateItem.artifactId := by
    decide +kernel
  have hcontent : contentOf (markdownOf (Machine.run step Dict.empty [generateItem]) itemMetadata) none true =
      "# Item".toList := by
    rw [markdown_generateItem]
    decide +kernel
  refine (revision_keeps fresh_generateItem .hara ⟨sampleEnv, true, fun _ => none⟩ hid (by decide +kernel)
    latest_generateItem).1 ⟨?_, .inl ⟨"# Item".toList, markdown_generateItem, ?_⟩⟩
  · refine hcontent ▸ Cuttable.kept (singleLine_next_itemMetadata rfl) ?_
    have hcut : controlCut "# Item".toList = none := by decide +kernel
    have hopening : opening "# Item".toList = [] := by decide +kernel
    rw [Cuttable, hcut]
    dsimp only
    rw [hopening]
    exact fun l hl => absurd hl List.not_mem_nil
  · exact congrArg outsideText hcontent

/-- With one that cannot, the new version is empty. -/
theorem unreadable_file_empties :
    let s := Machine.run step Dict.empty [generateItem]
    let s' := (reviseTool .hara ⟨sampleEnv, false, fun _ => none⟩ s itemInput).1
    ¬(s' = s ∨ Revised s itemMetadata none s') := by
  have hid : CoreTools.firstOf itemInput ["artifact_id".toList, "text".toList] = .text generateItem.artifactId := by
    decide +kernel
  intro s s' h
  have hs' := reviseTool_eq .hara ⟨sampleEnv, false, fun _ => none⟩ hid (by decide +kernel) (by decide +kernel)
    latest_generateItem filed_itemMetadata
  rw [show s' = _ from hs'] at h
  have hcuttable : Cuttable [] := by
    have hcut : controlCut [] = none := by decide
    have hblank : ∀ l ∈ opening [], isBlank l = true := by decide
    rw [Cuttable, hcut]
    exact hblank
  have hempty : Kept (Revision.next ⟨sampleEnv, .list (ensureList (itemInput.value "change_requests".toList).raw),
      some itemMetadata.author⟩ itemMetadata) [] := hcuttable.kept (singleLine_next_itemMetadata rfl)
  rcases (Refines.revised (run_refines fresh_generateItem) latest_generateItem none false _).2 h with hsafe | ⟨hnot, -⟩
  · rcases hsafe.content with ⟨t, ht, hequal⟩ | ⟨r, hr, -⟩
    · rw [markdown_generateItem] at ht
      obtain rfl := Option.some.inj ht
      exact absurd hequal (by decide +kernel)
    · cases hr
  · exact hnot hempty

end KCore.Artifacts.ReviseTools
