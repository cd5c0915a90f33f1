import Mathlib.Data.List.Chain
import KCore.Impl.Artifacts.Store

/-!
# Names of the artifact store

A slug is its own slug (`normalizeProjectSlug_idem`), so every version of an
artifact is kept in the directory of the first. A file's name determines the
artifact id and the version it was built from (`buildPaths_json_inj`,
`buildPaths_md_inj`), and whether it is a markdown or a sidecar.
-/

namespace KCore.Artifacts

open Text

/-! ## Slugs -/

/-- What `slugify` gives: runs of `[a-z0-9]` with single underscores between them. -/
structure IsSlug (s : Str) : Prop where
  ne : s ≠ []
  chars : ∀ c ∈ s, isSlugChar c = true ∨ c = '_'
  single : s.IsChain fun c d => c = '_' → d ≠ '_'
  head : ∀ c ∈ s.head?, c ≠ '_'
  last : ∀ c ∈ s.getLast?, c ≠ '_'

theorem isSlugChar_underscore : isSlugChar '_' = false := by decide

theorem isSlugChar_toNat {c : Char} (h : isSlugChar c = true) :
    97 ≤ c.toNat ∧ c.toNat ≤ 122 ∨ 48 ≤ c.toNat ∧ c.toNat ≤ 57 := by
  simpa [isSlugChar, Char.le_def, UInt32.le_iff_toNat_le] using h

theorem subRuns_chars : ∀ (b : Bool) (s : Str), ∀ c ∈ subRuns b s, isSlugChar c = true ∨ c = '_'
  | _, [], c, h => by simp [subRuns] at h
  | b, d :: s, c, h => by
    by_cases hd : isSlugChar d
    · simp only [subRuns, hd, ↓reduceIte, List.mem_cons] at h
      rcases h with rfl | h
      · exact .inl hd
      · exact subRuns_chars false s c h
    · cases b with
      | true => exact subRuns_chars true s c (by simpa [subRuns, hd] using h)
      | false =>
        simp only [subRuns, hd, Bool.false_eq_true, ↓reduceIte, List.mem_cons] at h
        exact h.elim .inr (subRuns_chars true s c)

/-- After a replaced run comes no second underscore. -/
theorem subRuns_single : ∀ (b : Bool) (s : Str), (subRuns b s).IsChain (fun c d => c = '_' → d ≠ '_') ∧
    (b = true → ∀ c ∈ (subRuns b s).head?, c ≠ '_')
  | b, [] => by simp [subRuns]
  | b, d :: s => by
    obtain ⟨h₀, -⟩ := subRuns_single false s
    obtain ⟨h₁, h₁'⟩ := subRuns_single true s
    by_cases hd : isSlugChar d
    · have hu : d ≠ '_' := by rintro rfl; simp [isSlugChar_underscore] at hd
      simp only [subRuns, hd, ↓reduceIte, List.isChain_cons, List.head?_cons, Option.mem_some_iff]
      exact ⟨⟨fun _ _ h => absurd h hu, h₀⟩, fun _ c hc => hc ▸ hu⟩
    · cases b with
      | true =>
        simp only [subRuns, hd, Bool.false_eq_true, ↓reduceIte]
        exact ⟨h₁, fun _ => h₁' rfl⟩
      | false =>
        simp only [subRuns, hd, Bool.false_eq_true, ↓reduceIte, List.isChain_cons, false_implies, and_true]
        exact ⟨fun c hc _ => h₁' rfl c hc, h₁⟩

theorem isSlug_unnamed : IsSlug "unnamed".toList :=
  ⟨by decide, by decide, by decide, by decide, by decide⟩

theorem isSlug_slugify (s : Str) : IsSlug (slugify s) := by
  unfold slugify
  dsimp only
  set t := subRuns false (lower (strip s)) with ht
  split
  · exact isSlug_unnamed
  · rename_i hne
    have hin := stripBy_isInfix (· == '_') t
    refine ⟨hne, fun c hc => subRuns_chars _ _ c (hin.subset hc), ?_, fun c hc => ?_, fun c hc => ?_⟩
    · obtain ⟨a, b, hab⟩ := hin
      have h := (subRuns_single false (lower (strip s))).1
      rw [← ht, ← hab] at h
      exact h.left_of_append.right_of_append
    · simpa using stripBy_head c hc
    · simpa using stripBy_last c hc

theorem lowerChar_of_isSlug {c : Char} (h : isSlugChar c = true ∨ c = '_') : lowerChar c = [c] := by
  rcases h with h | rfl
  · have hn := isSlugChar_toNat h
    have h₁ : ¬('A' ≤ c ∧ c ≤ 'Z') := by
      simp only [Char.le_def, UInt32.le_iff_toNat_le]
      change ¬(65 ≤ c.toNat ∧ c.toNat ≤ 90)
      omega
    have h₂ : c ≠ '\u212A' := by rintro rfl; revert h; decide
    have h₃ : c ≠ '\u0130' := by rintro rfl; revert h; decide
    simp only [lowerChar, h₁, h₂, h₃, ↓reduceIte]
  · decide

theorem subRuns_of_single : ∀ (b : Bool) (s : Str), (∀ c ∈ s, isSlugChar c = true ∨ c = '_') →
    s.IsChain (fun c d => c = '_' → d ≠ '_') → (b = true → ∀ c ∈ s.head?, c ≠ '_') → subRuns b s = s
  | _, [], _, _, _ => rfl
  | b, d :: s, hc, hds, hb => by
    have hcs : ∀ c ∈ s, isSlugChar c = true ∨ c = '_' := fun c h => hc c (.tail _ h)
    obtain ⟨hd, hs⟩ := List.isChain_cons.mp hds
    rcases hc d (.head _) with h | rfl
    · simp only [subRuns, h, ↓reduceIte]
      rw [subRuns_of_single false s hcs hs (by simp)]
    · cases b with
      | true => exact absurd rfl (hb rfl '_' rfl)
      | false =>
        simp only [subRuns, isSlugChar_underscore, Bool.false_eq_true, ↓reduceIte]
        rw [subRuns_of_single true s hcs hs fun _ c h => hd c h rfl]

theorem isSpace_of_isSlug {c : Char} (h : isSlugChar c = true ∨ c = '_') : isSpace c = false := by
  have hn : 48 ≤ c.toNat ∧ c.toNat ≤ 122 := by
    rcases h with h | rfl
    · have := isSlugChar_toNat h
      omega
    · decide
  simp only [isSpace, Bool.or_eq_false_iff, Bool.and_eq_false_iff, decide_eq_false_iff_not, beq_eq_false_iff_ne]
  omega

theorem IsSlug.slugify_eq {s : Str} (h : IsSlug s) : slugify s = s := by
  have hstrip : strip s = s :=
    stripBy_eq_self (fun c hc => isSpace_of_isSlug (h.chars c (List.mem_of_mem_head? hc)))
      (fun c hc => isSpace_of_isSlug (h.chars c (List.mem_of_mem_getLast? hc)))
  have hlower : lower s = s := by
    rw [lower, List.flatMap_congr fun c hc => lowerChar_of_isSlug (h.chars c hc)]
    exact List.flatMap_singleton' s
  have hends : stripChar '_' s = s :=
    stripBy_eq_self (fun c hc => by simpa using h.head c hc) (fun c hc => by simpa using h.last c hc)
  rw [slugify, hstrip, hlower, subRuns_of_single false s h.chars h.single (by simp), hends, if_neg h.ne]

theorem isSlug_normalizeProjectSlug (s : Str) : IsSlug (normalizeProjectSlug s) := by
  unfold normalizeProjectSlug
  split
  · exact ⟨by decide, by decide, by decide, by decide, by decide⟩
  · exact isSlug_slugify s

theorem IsSlug.normalizeProjectSlug_eq {s : Str} (h : IsSlug s) : normalizeProjectSlug s = s := by
  rw [normalizeProjectSlug, if_neg h.ne, h.slugify_eq]

@[simp] theorem normalizeProjectSlug_idem (s : Str) :
    normalizeProjectSlug (normalizeProjectSlug s) = normalizeProjectSlug s :=
  (isSlug_normalizeProjectSlug s).normalizeProjectSlug_eq

/-! ## Paths -/

/-- The sidecar of a version. -/
def Metadata.jsonPath (m : Metadata) : Path :=
  (buildPaths m.projectSlug m.phase m.wpId m.artifactId m.version).2

/-- The markdown of a version. -/
def Metadata.mdPath (m : Metadata) : Path :=
  (buildPaths m.projectSlug m.phase m.wpId m.artifactId m.version).1

/-- A path that `buildPaths` gives for artifact `i`. -/
def Owns (i : Str) (p : Path) : Prop :=
  ∃ slug phase wp v, p = (buildPaths slug phase wp i v).1 ∨ p = (buildPaths slug phase wp i v).2

theorem fileName_inj {i j ext : Str} {v w : Nat}
    (h : i ++ "_v".toList ++ formatVersion v ++ ext = j ++ "_v".toList ++ formatVersion w ++ ext) :
    i = j ∧ v = w := by
  have h : (i ++ ['_']) ++ 'v' :: formatVersion v = (j ++ ['_']) ++ 'v' :: formatVersion w := by
    simpa using List.append_cancel_right h
  obtain ⟨h₁, h₂⟩ := append_run_inj (p := Char.isDigit) (by decide)
    (fun _ => isDigit_of_mem_pad) (fun _ => isDigit_of_mem_pad) h
  exact ⟨List.append_cancel_right h₁, pad_injective 2 h₂⟩

theorem buildPaths_json_inj {slug slug' : Str} {phase phase' wp wp' : Name} {i j : Str} {v w : Nat}
    (h : (buildPaths slug phase wp i v).2 = (buildPaths slug' phase' wp' j w).2) : i = j ∧ v = w :=
  fileName_inj (congrArg Path.name h)

theorem buildPaths_md_inj {slug slug' : Str} {phase phase' wp wp' : Name} {i j : Str} {v w : Nat}
    (h : (buildPaths slug phase wp i v).1 = (buildPaths slug' phase' wp' j w).1) : i = j ∧ v = w :=
  fileName_inj (congrArg Path.name h)

theorem buildPaths_md_ne_json {slug slug' : Str} {phase phase' wp wp' : Name} {i j : Str} {v w : Nat} :
    (buildPaths slug phase wp i v).1 ≠ (buildPaths slug' phase' wp' j w).2 := by
  intro h
  have := congrArg (fun p : Path => p.name.getLast?) h
  simp only [buildPaths, List.getLast?_append] at this
  exact absurd this (by simp)

/-- A file belongs to one artifact. -/
theorem Owns.unique {i j : Str} {p : Path} (hi : Owns i p) (hj : Owns j p) : i = j := by
  obtain ⟨slug, phase, wp, v, hi⟩ := hi
  obtain ⟨slug', phase', wp', w, hj⟩ := hj
  rcases hi with hi | hi <;> rcases hj with hj | hj
  · exact (buildPaths_md_inj (hi.symm.trans hj)).1
  · exact absurd (hi.symm.trans hj) buildPaths_md_ne_json
  · exact absurd (hj.symm.trans hi) buildPaths_md_ne_json
  · exact (buildPaths_json_inj (hi.symm.trans hj)).1

theorem isSidecarName_append {name : Str} (h : "_v".toList <:+: name) :
    isSidecarName (name ++ ".json".toList) = true := by
  have hl : (name ++ ".json".toList).length - 5 = name.length := by simp
  rw [isSidecarName, hl, List.take_left, Bool.and_eq_true, decide_eq_true_eq, decide_eq_true_eq]
  exact ⟨List.suffix_append _ _, h⟩

theorem isSidecarName_json (slug : Str) (phase wp : Name) (i : Str) (v : Nat) :
    isSidecarName (buildPaths slug phase wp i v).2.name = true :=
  isSidecarName_append ⟨i, formatVersion v, rfl⟩

end KCore.Artifacts
