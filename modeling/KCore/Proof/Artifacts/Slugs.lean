import KCore.Impl.Artifacts.Generators
import KCore.Proof.Artifacts.Naming

/-!
# Project folders

A slug is made of words of `[a-z0-9]` with single underscores between them
(`IsSlug.slugForm`), so it is one component of a path, and normalising it again does not
change it. `project_slug_stable` is what follows for the folder of a project: the slug
that the working memory or a version's metadata keeps names the folder it was made for.
-/

namespace KCore.Artifacts

open Text

/-- `[a-z0-9]+(_[a-z0-9]+)*`. -/
def SlugForm (s : Str) : Prop :=
  ∃ words : List Str, words ≠ [] ∧ (∀ w ∈ words, w ≠ [] ∧ ∀ c ∈ w, isSlugChar c = true) ∧ s = join ['_'] words

/-! ## The words of a slug -/

theorem IsSlug.isSlugChar_head {c : Char} {s : Str} (h : IsSlug (c :: s)) : isSlugChar c = true :=
  (h.chars c (.head _)).resolve_right (h.head c rfl)

theorem IsSlug.tail {c d : Char} {s : Str} (h : IsSlug (c :: d :: s)) (hd : d ≠ '_') : IsSlug (d :: s) where
  ne := by simp
  chars := fun x hx => h.chars x (.tail _ hx)
  single := h.single.tail
  head := fun x hx => by rwa [← Option.some.inj hx]
  last := fun x hx => h.last x (by rwa [List.getLast?_cons_cons])

/-- After an underscore comes another word. -/
theorem IsSlug.next {c : Char} {s : Str} (h : IsSlug (c :: '_' :: s)) : IsSlug s := by
  have hs := List.isChain_cons.mp h.single.tail
  refine ⟨?_, fun x hx => h.chars x (.tail _ (.tail _ hx)), hs.2, fun x hx => hs.1 x hx rfl, fun x hx => ?_⟩
  · rintro rfl
    exact h.last '_' rfl rfl
  · apply h.last x
    cases s with
    | nil => cases hx
    | cons d s => rwa [List.getLast?_cons_cons, List.getLast?_cons_cons]

theorem IsSlug.slugForm : ∀ {s : Str}, IsSlug s → SlugForm s
  | [], h => absurd rfl h.ne
  | [c], h => ⟨[[c]], by simp, by simpa using h.isSlugChar_head, by simp⟩
  | c :: d :: s, h => by
    have hc := h.isSlugChar_head
    by_cases hd : d = '_'
    · subst hd
      obtain ⟨words, hne, hok, hs⟩ := h.next.slugForm
      refine ⟨[c] :: words, by simp, ?_, ?_⟩
      · simpa [hc] using hok
      · obtain ⟨w, ws, rfl⟩ := List.exists_cons_of_ne_nil hne
        rw [join_cons_cons, ← hs]
        rfl
    · obtain ⟨words, hne, hok, hs⟩ := (h.tail hd).slugForm
      obtain ⟨w, ws, rfl⟩ := List.exists_cons_of_ne_nil hne
      refine ⟨(c :: w) :: ws, by simp, ?_, ?_⟩
      · simp only [List.mem_cons, forall_eq_or_imp] at hok ⊢
        exact ⟨⟨by simp, hc, hok.1.2⟩, hok.2⟩
      · rw [hs]
        cases ws with
        | nil => simp
        | cons v vs => simp [join_cons_cons]

/-- A slug is one component of a path. -/
def IsSlug.name {s : Str} (h : IsSlug s) : Name where
  val := s
  ok := by
    have hchar (c : Char) (hc : isSlugChar c = false) (hu : c ≠ '_') : c ∉ s := fun hm =>
      (h.chars c hm).elim (by simp [hc]) hu
    have hdot := hchar '.' (by decide) (by decide)
    refine ⟨h.ne, hchar '/' (by decide) (by decide), ?_, ?_⟩
    · rintro rfl
      exact hdot (by decide)
    · rintro rfl
      exact hdot (by decide)

/-! ## What is stored -/

theorem isSlug_defaultProjectSlug : IsSlug defaultProjectSlug :=
  ⟨by decide, by decide, by decide, by decide, by decide⟩

/-- The project that a tool's input names. -/
def providedSlug (data : Values) : Value :=
  if (data.value "project_slug".toList).truthy then data.value "project_slug".toList else data.value "project".toList

theorem getProjectSlug_of_provided (cfg : Config) {data : Values} (memory : Values)
    (h : (providedSlug data).truthy = true) :
    getProjectSlug cfg data memory = (normalizeProjectSlug (providedSlug data).str,
      memory.set projectSlugKey (.text (normalizeProjectSlug (providedSlug data).str))) := by
  rw [getProjectSlug]
  exact if_pos h

theorem getProjectSlug_of_memory (cfg : Config) {data memory : Values} (h : (providedSlug data).truthy = false)
    (hm : (memory.value projectSlugKey).truthy = true) :
    getProjectSlug cfg data memory = (normalizeProjectSlug (memory.value projectSlugKey).str, memory) := by
  rw [getProjectSlug, if_neg (by rw [Bool.not_eq_true]; exact h), if_pos hm]

/-- Without either the configuration gives the slug, and the memory stays as it is. -/
theorem getProjectSlug_of_config (cfg : Config) {data memory : Values} (h : (providedSlug data).truthy = false)
    (hm : (memory.value projectSlugKey).truthy = false) :
    IsSlug (getProjectSlug cfg data memory).1 ∧ (getProjectSlug cfg data memory).2 = memory := by
  rw [getProjectSlug, if_neg (by rw [Bool.not_eq_true]; exact h), if_neg (by rw [hm]; decide)]
  have hsettings : IsSlug (if cfg.settingsSlug.truthy then (normalizeProjectSlug cfg.settingsSlug.str, memory)
      else (defaultProjectSlug, memory)).1 ∧ (if cfg.settingsSlug.truthy then
        (normalizeProjectSlug cfg.settingsSlug.str, memory) else (defaultProjectSlug, memory)).2 = memory := by
    split
    · exact ⟨isSlug_normalizeProjectSlug _, rfl⟩
    · exact ⟨isSlug_defaultProjectSlug, rfl⟩
  cases cfg.envSlug with
  | none => simpa only using hsettings
  | some s =>
    cases s with
    | nil => simpa only using hsettings
    | cons c cs =>
      dsimp only
      exact ⟨isSlug_normalizeProjectSlug (c :: cs), rfl⟩

theorem isSlug_getProjectSlug (cfg : Config) (data memory : Values) : IsSlug (getProjectSlug cfg data memory).1 := by
  cases h : (providedSlug data).truthy with
  | true =>
    rw [getProjectSlug_of_provided cfg memory h]
    exact isSlug_normalizeProjectSlug _
  | false =>
    cases hm : (memory.value projectSlugKey).truthy with
    | true =>
      rw [getProjectSlug_of_memory cfg h hm]
      exact isSlug_normalizeProjectSlug _
    | false => exact (getProjectSlug_of_config cfg h hm).1

/-- What an operation leaves in the working memory names the project that it worked in. -/
theorem getProjectSlug_memory (cfg cfg' : Config) {data data' memory : Values} (h' : (providedSlug data').truthy = false)
    (hm' : ((getProjectSlug cfg data memory).2.value projectSlugKey).truthy = true) :
    (getProjectSlug cfg' data' (getProjectSlug cfg data memory).2).1 = (getProjectSlug cfg data memory).1 := by
  rw [getProjectSlug_of_memory cfg' h' hm']
  show normalizeProjectSlug _ = _
  cases h : (providedSlug data).truthy with
  | true =>
    rw [getProjectSlug_of_provided cfg memory h, Values.value, Dict.get?_set_self, Option.getD_some]
    exact normalizeProjectSlug_idem _
  | false =>
    cases hm : (memory.value projectSlugKey).truthy with
    | true => rw [getProjectSlug_of_memory cfg h hm]
    | false =>
      rw [(getProjectSlug_of_config cfg h hm).2, hm] at hm'
      cases hm'

theorem projectRoot_of_isSlug {s : Str} (h : IsSlug s) : projectRoot s = [s] := by
  rw [projectRoot, h.normalizeProjectSlug_eq]

/-- The metadata of a new artifact keeps the slug that the generator works with. -/
theorem Generator.projectSlug_metadata (g : Generator) (env : Env) (project author : Str) (data : Values)
    (refs : List UpstreamRef) : (g.metadata env project author data refs).projectSlug = normalizeProjectSlug project :=
  rfl

/-- Slugs have the form of one, and are slugs of themselves; a project's folder is a child of the workspace root; and
a slug that is stored names the folder it was made for. -/
theorem project_slug_stable :
    (∀ value : Str, SlugForm (slugify value) ∧ slugify (slugify value) = slugify value ∧
      normalizeProjectSlug (normalizeProjectSlug value) = normalizeProjectSlug value ∧
      (∃ folder : Name, projectRoot value = [folder.val]) ∧
      projectRoot (normalizeProjectSlug value) = projectRoot value) ∧
    ∀ (cfg : Config) (data memory : Values),
      let slug := (getProjectSlug cfg data memory).1
      let memory' := (getProjectSlug cfg data memory).2
      projectRoot slug = [slug] ∧
      (∀ (cfg' : Config) (data' : Values), (providedSlug data').truthy = false →
        (memory'.value projectSlugKey).truthy = true → (getProjectSlug cfg' data' memory').1 = slug) ∧
      ∀ (g : Generator) (env : Env) (author : Str) (refs : List UpstreamRef),
        (g.metadata env slug author data refs).projectSlug = slug := by
  refine ⟨fun value => ⟨(isSlug_slugify value).slugForm, (isSlug_slugify value).slugify_eq,
    normalizeProjectSlug_idem value, ⟨(isSlug_normalizeProjectSlug value).name, rfl⟩, ?_⟩,
    fun cfg data memory => ⟨projectRoot_of_isSlug (isSlug_getProjectSlug cfg data memory),
      fun cfg' data' h' hm' => getProjectSlug_memory cfg cfg' h' hm', fun g env author refs => ?_⟩⟩
  · rw [projectRoot, normalizeProjectSlug_idem, projectRoot]
  · rw [g.projectSlug_metadata]
    exact (isSlug_getProjectSlug cfg data memory).normalizeProjectSlug_eq

end KCore.Artifacts
