import KCore.Lib.FormatString

/-!
# Formatting

`string.Formatter`'s `vformat`: the format spec of a field is itself a format
string, in which the same values are looked up. `Levels Q d t` says that `Q`
holds of the pieces of `t` and of those of each format spec in it; taking a
placeholder out of the text is followed through every level
(`Levels.remove`, `Levels.of_remove`), and changes no text that is formatted
(`vformat_remove`) where only fields go.
-/

namespace FormatString

open Text

variable {V : Type*}

/-! ## Levels -/

/-- `Q` holds of the pieces of `t`, and of those of the format specs in it, down to the level that is formatted. -/
def Levels (Q : List Piece → Prop) : Nat → Str → Prop
  | 0, _ => True
  | d + 1, t =>
    match parse t with
    | none => False
    | some ps => Q ps ∧ ∀ f ∈ fields ps, Levels Q d f.formatSpec

instance decidableLevels {Q : List Piece → Prop} [DecidablePred Q] : ∀ d t, Decidable (Levels Q d t)
  | 0, _ => isTrue trivial
  | d + 1, t =>
    match h : parse t with
    | none => isFalse fun hl => by rw [Levels, h] at hl; exact hl
    | some ps =>
      have := fun f : Field => decidableLevels (Q := Q) d f.formatSpec
      decidable_of_iff (Q ps ∧ ∀ f ∈ fields ps, Levels Q d f.formatSpec) (by rw [Levels, h])

variable {Q Q' : List Piece → Prop} {d : Nat} {t m : Str}

theorem levels_succ : Levels Q (d + 1) t ↔ ∃ ps, parse t = some ps ∧ Q ps ∧ ∀ f ∈ fields ps, Levels Q d f.formatSpec := by
  rw [Levels]
  cases parse t with
  | none => simp
  | some ps => simp

theorem levels_nil (h : Q []) : ∀ d, Levels Q d []
  | 0 => trivial
  | _ + 1 => levels_succ.mpr ⟨[], rfl, h, fun _ hf => absurd hf List.not_mem_nil⟩

theorem Levels.mono (h : ∀ ps, Q ps → Q' ps) : ∀ {d : Nat} {t : Str}, Levels Q d t → Levels Q' d t
  | 0, _, _ => trivial
  | d + 1, t, hl => by
    obtain ⟨ps, hp, hq, hf⟩ := levels_succ.mp hl
    exact levels_succ.mpr ⟨ps, hp, h ps hq, fun f hm => (hf f hm).mono h⟩

theorem Levels.and : ∀ {d : Nat} {t : Str}, Levels Q d t → Levels Q' d t → Levels (fun ps => Q ps ∧ Q' ps) d t
  | 0, _, _, _ => trivial
  | d + 1, t, h, h' => by
    obtain ⟨ps, hp, hq, hf⟩ := levels_succ.mp h
    obtain ⟨ps', hp', hq', hf'⟩ := levels_succ.mp h'
    obtain rfl := Option.some.inj (hp.symm.trans hp')
    exact levels_succ.mpr ⟨ps, hp, ⟨hq, hq'⟩, fun f hm => (hf f hm).and (hf' f hm)⟩

/-- The names are single words. -/
def Words (ps : List Piece) : Prop := ∀ f ∈ fields ps, Word f.name

instance : DecidablePred Words := fun ps => inferInstanceAs (Decidable (∀ f ∈ fields ps, Word f.name))

@[simp] theorem formatSpec_mapSpec (m : Str) (f : Field) : (f.mapSpec (remove m)).formatSpec = remove m f.formatSpec := by
  obtain ⟨n, cv, sp⟩ := f
  cases sp <;> rfl

/-- What taking `{m}` out keeps, level by level. -/
theorem Levels.remove (hm : IsName m) (hnil : Q' []) (h : ∀ ps, Words ps → Q ps → Q' (drop m ps)) :
    ∀ {d : Nat} {t : Str}, Levels Words d t → Levels Q d t → Levels Q' d (remove m t)
  | 0, _, _, _ => trivial
  | d + 1, t, hw, hl => by
    obtain ⟨ps, hp, hq, hf⟩ := levels_succ.mp hl
    obtain ⟨ps', hp', hw, hfw⟩ := levels_succ.mp hw
    obtain rfl := Option.some.inj (hp.symm.trans hp')
    refine levels_succ.mpr ⟨drop m ps, parse_remove hm hp hw, h ps hw hq, fun f hmf => ?_⟩
    obtain rfl | ⟨g, hg, -, rfl⟩ := mem_fields_drop hmf
    · exact levels_nil hnil d
    · rw [formatSpec_mapSpec]
      exact (hfw g hg).remove hm hnil h (hf g hg)

/-- What was so before `{m}` was taken out, level by level. -/
theorem Levels.of_remove {P : List Piece → Prop} (hm : IsName m) (hnil : Q []) (hP : ∀ ps, P ps → Words ps)
    (h : ∀ ps, P ps → Q' (drop m ps) → Q ps) :
    ∀ {d : Nat} {t : Str}, Levels P d t → Levels Q' d (FormatString.remove m t) → Levels Q d t
  | 0, _, _, _ => trivial
  | d + 1, t, hw, hl => by
    obtain ⟨ps, hp, hw, hfw⟩ := levels_succ.mp hw
    obtain ⟨ps', hp', hq, hf⟩ := levels_succ.mp hl
    obtain rfl := Option.some.inj ((parse_remove hm hp (hP ps hw)).symm.trans hp')
    refine levels_succ.mpr ⟨ps, hp, h ps hw hq, fun f hmf => ?_⟩
    by_cases hb : f = .bare m
    · rw [hb]
      exact levels_nil hnil d
    · have := hf _ (mapSpec_mem_drop hb hmf)
      rw [formatSpec_mapSpec] at this
      exact (hfw f hmf).of_remove hm hnil hP h this

/-! ## Placeholders -/

/-- The names that are looked up when `t` is formatted. -/
def placeholders : Nat → Str → List Str
  | 0, _ => []
  | d + 1, t => (fields ((parse t).getD [])).flatMap fun f => f.name :: placeholders d f.formatSpec

theorem placeholders_succ {ps : List Piece} (h : parse t = some ps) :
    placeholders (d + 1) t = (fields ps).flatMap fun f => f.name :: placeholders d f.formatSpec := by
  rw [placeholders, h, Option.getD_some]

theorem notMem_placeholders {n : Str} : ∀ {d : Nat} {t : Str}, Levels Words d t →
    (n ∉ placeholders d t ↔ Levels (fun ps => ∀ f ∈ fields ps, f.name ≠ n) d t)
  | 0, _, _ => iff_of_true List.not_mem_nil trivial
  | d + 1, t, hw => by
    obtain ⟨ps, hp, -, hf⟩ := levels_succ.mp hw
    rw [placeholders_succ hp, levels_succ]
    simp only [List.mem_flatMap, List.mem_cons, not_exists, not_and, not_or]
    constructor
    · exact fun h => ⟨ps, hp, fun f hm => (h f hm).1 ∘ Eq.symm, fun f hm => (notMem_placeholders (hf f hm)).mp (h f hm).2⟩
    · rintro ⟨ps', hp', hq, hl⟩ f hm
      obtain rfl := Option.some.inj (hp.symm.trans hp')
      exact ⟨(hq f hm).symm, (notMem_placeholders (hf f hm)).mpr (hl f hm)⟩

theorem words_remove (hm : IsName m) (hw : Levels Words d t) : Levels Words d (remove m t) := by
  refine hw.remove hm (fun _ h => absurd h List.not_mem_nil) (fun ps hw _ f hf => ?_) hw
  obtain rfl | ⟨g, hg, -, rfl⟩ := mem_fields_drop hf
  · exact fun c hc => absurd hc List.not_mem_nil
  · exact hw g hg

/-- Only the name `m` can be lost. -/
theorem mem_placeholders_remove (hm : IsName m) (hw : Levels Words d t) {n : Str} (hn : n ≠ m)
    (h : n ∈ placeholders d t) : n ∈ placeholders d (remove m t) := by
  by_contra hc
  refine absurd h ((notMem_placeholders hw).mpr ?_)
  refine hw.of_remove hm (fun _ h => absurd h List.not_mem_nil) (fun _ h => h) (fun ps _ hq f hf => ?_)
    ((notMem_placeholders (words_remove hm hw)).mp hc)
  by_cases hb : f = .bare m
  · rw [hb]
    exact hn.symm
  · exact hq (f.mapSpec (remove m)) (mapSpec_mem_drop hb hf)

/-- Every field named `n` is `{n}`, with no conversion and no format spec. -/
def BareAt (n : Str) (ps : List Piece) : Prop := ∀ f ∈ fields ps, f.name = n → f = .bare n

instance (n : Str) : DecidablePred (BareAt n) := fun ps => inferInstanceAs (Decidable (∀ f ∈ fields ps, f.name = n → f = .bare n))

theorem bareAt_remove (hm : IsName m) (hw : Levels Words d t) {n : Str} :
    Levels (BareAt n) d t ↔ Levels (BareAt n) d (remove m t) := by
  constructor
  · refine hw.remove hm (fun _ h => absurd h List.not_mem_nil) fun ps _ hb f hf hn => ?_
    obtain rfl | ⟨g, hg, -, rfl⟩ := mem_fields_drop hf
    · rw [← hn]
      rfl
    · rw [hb g hg hn]
      rfl
  · refine hw.of_remove hm (fun _ h => absurd h List.not_mem_nil) (fun _ h => h) fun ps _ hb f hf hn => ?_
    by_cases hfm : f = .bare m
    · rw [hfm] at hn ⊢
      rw [← hn]
      rfl
    · have := hb _ (mapSpec_mem_drop hfm hf) hn
      obtain ⟨n', cv, sp⟩ := f
      simp only [Field.mapSpec, Field.bare, Field.mk.injEq, Option.map_eq_none_iff] at this ⊢
      exact this

/-! ## Literal text -/

/-- The literal text, without the fields that are `gone`; `none` stands for every other field. -/
def literalText (gone : Str → Bool) (ps : List Piece) : List (Option Char) := ps.filterMap fun
  | .lit c => some (some c)
  | .field f => if gone f.name then none else some none

/-- `{m}` is nowhere in the literal text that is left without the fields that are `gone`. -/
def Unquoted (m : Str) (gone : Str → Bool) (ps : List Piece) : Prop := ¬(placeholder m).map some <:+: literalText gone ps

instance (m : Str) (gone : Str → Bool) : DecidablePred (Unquoted m gone) := fun _ =>
  inferInstanceAs (Decidable (¬_))

theorem isPrefix_literalText : ∀ {n : Str} {ps : List Piece},
    n.map some <+: literalText (fun _ => false) ps → n.map .lit <+: ps
  | [], ps, _ => List.nil_prefix
  | c :: n, [], h => by simp [literalText] at h
  | c :: n, .field f :: ps, h => by
    have := (List.cons_prefix_cons.mp h).1
    cases this
  | c :: n, .lit x :: ps, h => by
    obtain ⟨hc, h⟩ := List.cons_prefix_cons.mp h
    exact List.cons_prefix_cons.mpr ⟨congrArg Piece.lit (Option.some.inj hc), isPrefix_literalText h⟩

theorem literal_eq (m : Str) : literal m = (placeholder m).map .lit := by simp [literal, placeholder]

/-- Where no field is gone, the literal `{m}` is one of the pieces. -/
theorem literal_isInfix : ∀ {ps : List Piece},
    (placeholder m).map some <:+: literalText (fun _ => false) ps → literal m <:+: ps
  | [], h => by
    have := List.infix_nil.mp h
    cases this
  | p :: ps, h => by
    have hc : literalText (fun _ => false) (p :: ps) =
        (match p with | .lit c => some c | .field _ => none) :: literalText (fun _ => false) ps := by
      cases p <;> rfl
    have hp : (placeholder m).map some <+: literalText (fun _ => false) (p :: ps) → literal m <+: p :: ps := by
      rw [literal_eq]
      exact isPrefix_literalText
    rw [hc] at h hp
    rw [List.infix_cons_iff] at h ⊢
    exact h.imp hp literal_isInfix

theorem literalText_lits (gone : Str → Bool) : ∀ n : Str, literalText gone (n.map .lit) = n.map some
  | [] => rfl
  | c :: n => congrArg (some c :: ·) (literalText_lits gone n)

theorem Unquoted.not_literal {gone : Str → Bool} {ps : List Piece} (h : Unquoted m gone ps) : ¬literal m <:+: ps := by
  rintro ⟨a, b, rfl⟩
  refine h ⟨literalText gone a, literalText gone b, ?_⟩
  rw [literal_eq, ← literalText_lits gone]
  simp only [literalText, List.filterMap_append]

/-- The fields that go are gone from the literal text. -/
theorem literalText_drop {gone gone' : Str → Bool} (hg : gone m = true) (h : ∀ n, n ≠ m → gone' n = gone n)
    {ps : List Piece} (hb : BareAt m ps) (hl : ¬literal m <:+: ps) : literalText gone' (drop m ps) = literalText gone ps := by
  rw [drop_eq_filterMap hl, literalText, List.filterMap_filterMap, literalText]
  refine List.filterMap_congr fun p hp => ?_
  cases p with
  | lit c => rfl
  | field f =>
    by_cases hf : f.name = m
    · have := hb f (mem_fields.mpr hp) hf
      simp [cut, this, Field.bare, hg]
    · have hne : f ≠ .bare m := fun e => hf (by rw [e]; rfl)
      simp only [cut_field hne, Option.bind_some, Field.mapSpec, h _ hf]

/-- A literal `{m}`, at any level, leaves a placeholder without a name. -/
theorem nil_mem_placeholders_remove (hm : IsName m) (hw : Levels Words d t) (h : ¬Levels (¬literal m <:+: ·) d t) :
    [] ∈ placeholders d (remove m t) := by
  by_contra hc
  refine h (hw.of_remove hm (fun h => ?_) (fun _ h => h) (fun ps _ hq hl => ?_)
    ((notMem_placeholders (words_remove hm hw)).mp hc))
  · have := List.infix_nil.mp h
    cases this
  · exact hq (.bare []) (mem_fields.mpr (bare_nil_mem_drop hl)) rfl

/-- Where no literal `{m}` stands, `m` is lost and no name is new. -/
theorem mem_placeholders_of_remove (hm : IsName m) (hw : Levels Words d t) (hb : Levels (BareAt m) d t)
    (hl : Levels (¬literal m <:+: ·) d t) {n : Str} (h : n ∈ placeholders d (remove m t)) :
    n ≠ m ∧ n ∈ placeholders d t := by
  have lost : ∀ {Q : List Piece → Prop}, (∀ ps, BareAt m ps → Q ps → ∀ f ∈ fields ps, f ≠ .bare m → f.name ≠ n) →
      ¬Levels Q d t := by
    intro Q hQ hq
    refine (notMem_placeholders (words_remove hm hw)).mpr (hw.remove hm (fun _ h => absurd h List.not_mem_nil)
      (fun ps _ ⟨⟨hb, hl⟩, hq⟩ f hf => ?_) ((hb.and hl).and hq)) h
    obtain ⟨g, hg, hne, rfl⟩ := mem_fields_drop_of_not hl hf
    exact hQ ps hb hq g hg hne
  constructor
  · rintro rfl
    exact lost (Q := fun _ => True) (fun ps hb _ f hf hne hn => hne (hb f hf hn)) (hw.mono fun _ _ => trivial)
  · by_contra hn
    exact lost (fun ps _ hq f hf _ => hq f hf) ((notMem_placeholders hw).mp hn)

/-- The literal text, level by level, as the fields `{m'}` go. -/
theorem unquoted_remove {m' : Str} (hm : IsName m') {gone gone' : Str → Bool} (hg : gone m' = true)
    (h : ∀ n, n ≠ m' → gone' n = gone n) (hw : Levels Words d t) (hb : Levels (BareAt m') d t)
    (hl : Levels (¬literal m' <:+: ·) d t) :
    Levels (Unquoted m gone) d t ↔ Levels (Unquoted m gone') d (remove m' t) := by
  have hnil : ∀ g, Unquoted m g [] := fun g h => by
    have := List.infix_nil.mp h
    cases this
  constructor
  · intro hu
    refine hw.remove hm (hnil _) (fun ps _ ⟨⟨hb, hl⟩, hu⟩ => ?_) ((hb.and hl).and hu)
    rw [Unquoted, literalText_drop hg h hb hl]
    exact hu
  · refine ((hw.and hb).and hl).of_remove hm (hnil _) (fun _ h => h.1.1) fun ps ⟨⟨_, hb⟩, hl⟩ hu => ?_
    rw [Unquoted, literalText_drop hg h hb hl] at hu
    exact hu

/-! ## Formatted text -/

/-- The text of pieces whose fields render as `r` says. -/
def formatPieces (r : Field → Option Str) : List Piece → Option Str
  | [] => some []
  | .lit c :: ps => (formatPieces r ps).map (c :: ·)
  | .field f :: ps => (r f).bind fun s => (formatPieces r ps).map (s ++ ·)

/-- `Formatter._vformat`, `none` where it raises: `get` finds the value of a field and `render` converts and
formats it; a field whose name is `absent` renders as nothing. -/
def vformat (render : V → Option Char → Str → Option Str) (get : Str → Option V) (absent : Str → Bool) :
    Nat → Str → Option Str
  | 0, _ => none
  | d + 1, t => (parse t).bind <| formatPieces fun f =>
    if absent f.name then some []
    else (get f.name).bind fun v => (vformat render get absent d f.formatSpec).bind (render v f.conversion)

variable {render : V → Option Char → Str → Option Str} {get get' : Str → Option V} {absent absent' : Str → Bool}

theorem formatPieces_congr {r r' : Field → Option Str} : ∀ {ps : List Piece}, (∀ f ∈ fields ps, r f = r' f) →
    formatPieces r ps = formatPieces r' ps
  | [], _ => rfl
  | .lit c :: ps, h => congrArg (Option.map (c :: ·)) (formatPieces_congr h)
  | .field f :: ps, h => by
    rw [formatPieces, formatPieces, h f (.head _), formatPieces_congr fun g hg => h g (.tail _ hg)]

/-- The text depends only on the names that are looked up. -/
theorem vformat_congr : ∀ {d : Nat} {t : Str}, (∀ n ∈ placeholders d t, absent n = absent' n ∧ get n = get' n) →
    vformat render get absent d t = vformat render get' absent' d t
  | 0, _, _ => rfl
  | d + 1, t, h => by
    rw [vformat, vformat]
    cases hp : parse t with
    | none => rfl
    | some ps =>
      rw [placeholders_succ hp] at h
      refine formatPieces_congr fun f hf => ?_
      have hn := h f.name (List.mem_flatMap.mpr ⟨f, hf, .head _⟩)
      rw [hn.1, hn.2, vformat_congr fun n hn => h n (List.mem_flatMap.mpr ⟨f, hf, .tail _ hn⟩)]

theorem formatPieces_filterMap {r r' : Field → Option Str} (hm : r (.bare m) = some []) :
    ∀ {ps : List Piece}, (∀ f ∈ fields ps, f ≠ .bare m → r f = r' (f.mapSpec (remove m))) →
      formatPieces r' (ps.filterMap (cut m)) = formatPieces r ps
  | [], _ => rfl
  | .lit c :: ps, h => congrArg (Option.map (c :: ·)) (formatPieces_filterMap hm h)
  | .field f :: ps, h => by
    have ih := formatPieces_filterMap hm fun g hg => h g (.tail _ hg)
    by_cases hf : f = .bare m
    · rw [List.filterMap_cons_none (cut_bare hf), ih, formatPieces, hf, hm]
      simp
    · rw [List.filterMap_cons_some (cut_field hf), formatPieces, formatPieces, ih, h f (.head _) hf]

/-- Where only fields go, and these render as nothing, the text is the same. -/
theorem vformat_remove (hm : IsName m) (ha : absent m = true) : ∀ {d : Nat} {t : Str}, Levels Words d t →
    Levels (¬literal m <:+: ·) d t → vformat render get absent d (remove m t) = vformat render get absent d t
  | 0, _, _, _ => rfl
  | d + 1, t, hw, hl => by
    obtain ⟨ps, hp, hw, hfw⟩ := levels_succ.mp hw
    obtain ⟨ps', hp', hl, hf⟩ := levels_succ.mp hl
    obtain rfl := Option.some.inj (hp.symm.trans hp')
    rw [vformat, vformat, parse_remove hm hp hw, hp, drop_eq_filterMap hl]
    refine formatPieces_filterMap (by simp [Field.bare, ha]) fun f hmf _ => ?_
    rw [formatSpec_mapSpec, vformat_remove hm ha (hfw f hmf) (hf f hmf)]
    rfl

end FormatString
