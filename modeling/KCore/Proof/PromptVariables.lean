import KCore.Impl.Utils
import Mathlib.Data.List.Dedup
import Mathlib.Tactic.Tauto

/-!
# Prompt variables and placeholders

`match_prompt_variables` finds the placeholders with the formatter's parser and
takes them out by text replacement. `Removable` is when the two agree: each
placeholder without a variable is written `{name}`, and `{name}` stands nowhere
else in the template. One replacement keeps that (`Removable.step`) and changes
nothing that is formatted, so all of them do, in any order;
`match_prompt_variables_iff` says that they go wrong otherwise.
-/

namespace KCore

open Text FormatString

variable {V : Type*}

/-- The levels that are formatted: the template, its format specs, and theirs. -/
def depth : Nat := 3

/-- langchain's `input_variables`: of a text that can be parsed, the names of its fields. -/
structure IsFString (inputVariables : Str → Option (List Str)) : Prop where
  parses {t : Str} {vs : List Str} (h : inputVariables t = some vs) :
    ∃ ps, parse t = some ps ∧ ∀ n, n ∈ vs ↔ ∃ f ∈ fields ps, f.name = n

/-- A template whose fields have names; attributes and indices are not looked at. -/
def Template (t : Str) : Prop := Levels (fun ps => ∀ f ∈ fields ps, IsName f.name) depth t

instance (t : Str) : Decidable (Template t) := decidableLevels _ _

/-- `get_field` for a name: a number or no name at all is a positional argument, and there are none. -/
def getField (isDecimal : Char → Bool) (vars : Dict Str V) (name : Str) : Option V :=
  if name.all isDecimal then none else vars.get? name

/-- What comes back fits together, and gives the text of the template without the placeholders that had no variable. -/
structure Matches (isDecimal : Char → Bool) (render : V → Option Char → Str → Option Str) (vars vars' : Dict Str V)
    (template template' : Str) : Prop where
  placeholders (n : Str) : n ∈ placeholders depth template' ↔ n ∈ vars'.keys
  unchanged {n : Str} {v : V} : vars'.get? n = some v → vars.get? n = some v
  text : vformat render (getField isDecimal vars') (fun _ => false) depth template' =
    vformat render (getField isDecimal vars) (fun n => n ∉ vars.keys) depth template

/-- The text `{m}` of a placeholder without a variable is found where the placeholder is, and nowhere else. -/
structure Removable (keys vs : List Str) (t : Str) : Prop where
  nested : ∀ n ∈ placeholders depth t, n ∈ vs
  bare : ∀ m ∈ vs, m ∉ keys → Levels (BareAt m) depth t
  unquoted : ∀ m ∈ vs, m ∉ keys → Levels (Unquoted m fun n => n ∈ vs ∧ n ∉ keys ∧ n ≠ m) depth t

/-! ## The loop -/

theorem Template.words {t : Str} (h : Template t) : Levels Words depth t :=
  h.mono fun _ hp f hf => (hp f hf).2

/-- The two halves of the loop. -/
theorem foldl_mismatches (vs : List Str) : ∀ (rs : List Str) (d : Dict Str V) (t : Str),
    rs.foldl (fun r m => (if m ∈ r.1.keys then r.1.erase m else r.1,
      if m ∈ vs then replace ("\x7b".toList ++ m ++ "\x7d".toList) [] r.2 else r.2)) (d, t) =
    (rs.foldl (fun d m => d.erase m) d, (rs.filter (· ∈ vs)).foldl (fun t m => remove m t) t)
  | [], _, _ => rfl
  | r :: rs, d, t => by
    have he : (if r ∈ d.keys then d.erase r else d) = d.erase r := by
      split
      · rfl
      · rename_i h
        ext1
        refine (List.filter_eq_self.mpr fun e he => ?_).symm
        exact decide_eq_true fun e' => h (e' ▸ List.mem_map_of_mem he)
    rw [List.foldl_cons, foldl_mismatches vs rs, List.foldl_cons, he, List.filter_cons]
    by_cases hr : r ∈ vs
    · rw [if_pos hr, if_pos (decide_eq_true hr), List.foldl_cons]
      rfl
    · rw [if_neg hr, if_neg (by simpa using hr)]

theorem get?_foldl_erase (k : Str) : ∀ (rs : List Str) (d : Dict Str V),
    (rs.foldl (fun d m => d.erase m) d).get? k = if k ∈ rs then none else d.get? k
  | [], _ => rfl
  | r :: rs, d => by
    rw [List.foldl_cons, get?_foldl_erase k rs, Dict.get?_erase]
    by_cases hk : k ∈ rs
    · rw [if_pos hk, if_pos (.tail _ hk)]
    · by_cases he : k = r
      · rw [if_neg hk, if_pos he, if_pos (he ▸ .head _)]
      · rw [if_neg hk, if_neg he, if_neg (by simp [he, hk])]

/-! ## One placeholder, and all of them -/

theorem Template.plain {vs : List Str} {t : Str} (h : Template t) (hv : ∀ n ∈ vs, n ∈ placeholders depth t) :
    ∀ n ∈ vs, IsName n := by
  intro n hn
  by_contra hp
  refine (notMem_placeholders h.words).mpr (h.mono fun ps hps f hf (e : f.name = n) => hp (e ▸ hps f hf)) (hv n hn)

/-- The names of the fields of the template itself are looked up first. -/
theorem mem_placeholders_of_field {n t : Str} {ps : List Piece} (hp : parse t = some ps)
    (h : ∃ f ∈ fields ps, f.name = n) : n ∈ placeholders depth t := by
  obtain ⟨f, hf, rfl⟩ := h
  rw [depth, placeholders_succ hp]
  exact List.mem_flatMap.mpr ⟨f, hf, .head _⟩

section

variable {gone : Str → Str → Bool} {ms : List Str} {t : Str}

/-- What the removals before keep for those still to come, `ms`. -/
structure Clean (gone : Str → Str → Bool) (ms : List Str) (t : Str) : Prop where
  words : Levels Words depth t
  bare : ∀ m ∈ ms, Levels (BareAt m) depth t
  unquoted : ∀ m ∈ ms, Levels (Unquoted m (gone m)) depth t

theorem Clean.literal (h : Clean gone ms t) {m : Str} (hm : m ∈ ms) : Levels (¬literal m <:+: ·) depth t :=
  (h.unquoted m hm).mono fun _ hu => hu.not_literal

/-- One placeholder goes, and the others can go after it. -/
theorem Clean.remove {m : Str} (hpl : IsName m) (hg : ∀ n ∈ ms, gone n m = true) (h : Clean gone (m :: ms) t) :
    Clean gone ms (remove m t) where
  words := words_remove hpl h.words
  bare n hn := (bareAt_remove hpl h.words).mp (h.bare n (.tail _ hn))
  unquoted n hn := (unquoted_remove hpl (hg n hn) (fun _ _ => rfl) h.words (h.bare m (.head _))
    (h.literal (.head _))).mp (h.unquoted n (.tail _ hn))

variable (gone) (render : V → Option Char → Str → Option Str) (get : Str → Option V) (absent : Str → Bool)

/-- All placeholders of `ms` go, and nothing else does. -/
theorem Clean.removeAll : ∀ {ms : List Str} {t : Str}, (∀ m ∈ ms, IsName m) → ms.Nodup → (∀ m ∈ ms, absent m = true) →
    (∀ m ∈ ms, ∀ n ∈ ms, m ≠ n → gone n m = true) → Clean gone ms t →
    (∀ n, n ∈ placeholders depth (ms.foldl (fun t m => FormatString.remove m t) t) ↔ n ∈ placeholders depth t ∧ n ∉ ms) ∧
      vformat render get absent depth (ms.foldl (fun t m => FormatString.remove m t) t) = vformat render get absent depth t
  | [], t, _, _, _, _, _ => by simp
  | m :: ms, t, hpl, hnd, ha, hg, h => by
    obtain ⟨hm, hnd⟩ := List.nodup_cons.mp hnd
    have hpm := hpl m (.head _)
    have hstep := h.remove hpm fun n hn => hg m (.head _) n (.tail _ hn) fun e => hm (e ▸ hn)
    obtain ⟨ih₁, ih₂⟩ := Clean.removeAll (fun n hn => hpl n (.tail _ hn)) hnd (fun n hn => ha n (.tail _ hn))
      (fun a ha b hb => hg a (.tail _ ha) b (.tail _ hb)) hstep
    rw [List.foldl_cons]
    refine ⟨fun n => ?_, ih₂.trans (vformat_remove hpm (ha m (.head _)) h.words (h.literal (.head _)))⟩
    rw [ih₁, List.mem_cons, not_or]
    constructor
    · rintro ⟨hn, hms⟩
      obtain ⟨hne, hn⟩ := mem_placeholders_of_remove hpm h.words (h.bare m (.head _)) (h.literal (.head _)) hn
      exact ⟨hn, hne, hms⟩
    · rintro ⟨hn, hne, hms⟩
      exact ⟨mem_placeholders_remove hpm h.words hne hn, hms⟩

end

/-! ## What goes wrong stays wrong -/

theorem words_removeAll : ∀ {ms : List Str} {t : Str}, (∀ m ∈ ms, IsName m) → Levels Words depth t →
    Levels Words depth (ms.foldl (fun t m => remove m t) t)
  | [], _, _, h => h
  | m :: ms, t, hpl, h => by
    rw [List.foldl_cons]
    exact words_removeAll (fun n hn => hpl n (.tail _ hn)) (words_remove (hpl m (.head _)) h)

/-- A name that is not taken out is still looked up. -/
theorem mem_placeholders_removeAll {n : Str} : ∀ {ms : List Str} {t : Str}, (∀ m ∈ ms, IsName m) → Levels Words depth t →
    n ∉ ms → n ∈ placeholders depth t → n ∈ placeholders depth (ms.foldl (fun t m => remove m t) t)
  | [], _, _, _, _, h => h
  | m :: ms, t, hpl, hw, hn, h => by
    simp only [List.mem_cons, not_or] at hn
    have hpm := hpl m (.head _)
    have hpl' : ∀ a ∈ ms, IsName a := fun a ha => hpl a (.tail _ ha)
    rw [List.foldl_cons]
    exact mem_placeholders_removeAll hpl' (words_remove hpm hw) hn.2
      (mem_placeholders_remove hpm hw hn.1 h)

/-- A field with a conversion or a format spec is never taken out. -/
theorem bareAt_removeAll {n : Str} : ∀ {ms : List Str} {t : Str}, (∀ m ∈ ms, IsName m) → Levels Words depth t →
    (Levels (BareAt n) depth t ↔ Levels (BareAt n) depth (ms.foldl (fun t m => remove m t) t))
  | [], _, _, _ => Iff.rfl
  | m :: ms, t, hpl, hw => by
    have hpm := hpl m (.head _)
    have hpl' : ∀ a ∈ ms, IsName a := fun a ha => hpl a (.tail _ ha)
    rw [List.foldl_cons, bareAt_remove hpm hw]
    exact bareAt_removeAll hpl' (words_remove hpm hw)

/-- A literal `{m}` that appears once the fields `ms` are gone leaves a placeholder without a name. -/
theorem nil_mem_placeholders_removeAll {m : Str} (hpm : IsName m) : ∀ {ms : List Str} {t : Str}, (∀ n ∈ ms, IsName n) →
    ms.Nodup → Levels Words depth t → (∀ n ∈ ms, Levels (BareAt n) depth t) →
    ¬Levels (Unquoted m fun n => n ∈ ms) depth t →
      [] ∈ placeholders depth (remove m (ms.foldl (fun t m => remove m t) t))
  | [], t, _, _, hw, _, h => by
    refine nil_mem_placeholders_remove hpm hw fun hl => h (hl.mono fun ps hl hi => hl (literal_isInfix ?_))
    simpa using hi
  | n :: ms, t, hpl, hnd, hw, hb, h => by
    obtain ⟨hn, hnd⟩ := List.nodup_cons.mp hnd
    have hpn := hpl n (.head _)
    have hpl' : ∀ a ∈ ms, IsName a := fun a ha => hpl a (.tail _ ha)
    have hw' := words_remove hpn hw
    rw [List.foldl_cons]
    by_cases hl : Levels (¬literal n <:+: ·) depth t
    · refine nil_mem_placeholders_removeAll hpm hpl' hnd hw'
        (fun a ha => (bareAt_remove hpn hw).mp (hb a (.tail _ ha))) fun hu => h ?_
      refine (unquoted_remove hpn (by simp) (fun a ha => ?_) hw (hb n (.head _)) hl).mpr hu
      simp [ha]
    · have hnil := mem_placeholders_removeAll hpl' hw' (fun h => (hpl' [] h).1 rfl) (nil_mem_placeholders_remove hpn hw hl)
      exact mem_placeholders_remove hpm (words_removeAll hpl' hw') (fun e => hpm.1 e.symm) hnil

/-! ## When the result fits the template -/

section

variable {inputVariables : Str → Option (List Str)} {order : List Str → List Str} {vars : Dict Str V} {t : Str} {vs : List Str}

/-- The placeholders without a variable, in the order they are taken out. -/
def absentees (order : List Str → List Str) (vars : Dict Str V) (vs : List Str) : List Str :=
  (order (vars.keys.filter (· ∉ vs) ++ vs.dedup.filter (· ∉ vars.keys))).filter (· ∈ vs)

theorem mem_absentees (ho : ∀ l, (order l).Perm l) {n : Str} : n ∈ absentees order vars vs ↔ n ∈ vs ∧ n ∉ vars.keys := by
  simp only [absentees, List.mem_filter, (ho _).mem_iff, List.mem_append, List.mem_dedup, decide_eq_true_eq]
  tauto

theorem nodup_absentees (ho : ∀ l, (order l).Perm l) : (absentees order vars vs).Nodup := by
  refine ((ho _).nodup_iff.mpr (List.Nodup.append (vars.nodup.filter _) ((List.nodup_dedup vs).filter _) ?_)).filter _
  intro n hn hn'
  simp only [List.mem_filter, List.mem_dedup, decide_eq_true_eq] at hn hn'
  exact hn.2 hn'.1

/-- What is returned: the variables that are placeholders, and the template with the others taken out. -/
theorem matchPromptVariables_spec (ho : ∀ l, (order l).Perm l) (hv : inputVariables t = some vs) :
    ∃ vars', matchPromptVariables inputVariables order vars t =
        some (vars', (absentees order vars vs).foldl (fun t m => remove m t) t) ∧
      ∀ n, vars'.get? n = if n ∈ vs then vars.get? n else none := by
  rw [matchPromptVariables, hv, Option.map_some, foldl_mismatches]
  refine ⟨_, rfl, fun n => ?_⟩
  rw [get?_foldl_erase]
  simp only [(ho _).mem_iff, List.mem_append, List.mem_filter, List.mem_dedup, decide_eq_true_eq]
  by_cases hn : n ∈ vs
  · by_cases hk : n ∈ vars.keys
    · simp [hn, hk]
    · simp [hn, hk, Dict.get?_eq_none.mpr hk]
  · by_cases hk : n ∈ vars.keys
    · simp [hn, hk]
    · simp [hn, hk, Dict.get?_eq_none.mpr hk]

/-- `m` last, the others as they are. -/
def last (m : Str) (l : List Str) : List Str := if m ∈ l then l.erase m ++ [m] else l

theorem last_perm (m : Str) (l : List Str) : (last m l).Perm l := by
  unfold last
  split
  · rename_i hm
    exact (List.perm_append_singleton m _).trans (List.perm_cons_erase hm).symm
  · exact List.Perm.refl l

theorem absentees_last {m : Str} (hm : m ∈ vs) (hk : m ∉ vars.keys) : ∃ ms, absentees (last m) vars vs = ms ++ [m] := by
  have hl : m ∈ vars.keys.filter (· ∉ vs) ++ vs.dedup.filter (· ∉ vars.keys) := by
    simp [hm, hk]
  exact ⟨_, by rw [absentees, last, if_pos hl, List.filter_append, List.filter_singleton, decide_eq_true hm]; rfl⟩

end

/-- The variables and the template that come back fit the ones that were given, whatever the order of the set,
exactly when each `{name}` without a variable can be told from the rest of the text. -/
theorem match_prompt_variables_iff {inputVariables : Str → Option (List Str)} (hL : IsFString inputVariables)
    (isDecimal : Char → Bool) (render : V → Option Char → Str → Option Str) {t : Str} (ht : Template t) {vs : List Str}
    (hv : inputVariables t = some vs) (vars : Dict Str V) :
    (∀ order : List Str → List Str, (∀ l, (order l).Perm l) → ∃ vars' t',
      matchPromptVariables inputVariables order vars t = some (vars', t') ∧ Matches isDecimal render vars vars' t t') ↔
    Removable vars.keys vs t := by
  obtain ⟨ps, hp, hnames⟩ := hL.parses hv
  have hvs : ∀ n ∈ vs, n ∈ placeholders depth t := fun n hn => mem_placeholders_of_field hp ((hnames n).mp hn)
  have hpl := ht.plain hvs
  constructor
  · intro h
    -- what a name that is left over says of every order
    have keys : ∀ order : List Str → List Str, (∀ l, (order l).Perm l) →
        ∀ n ∈ placeholders depth ((absentees order vars vs).foldl (fun t m => remove m t) t), n ∈ vs ∧ n ∈ vars.keys := by
      intro order ho n hn
      obtain ⟨vars', he, hg⟩ := matchPromptVariables_spec ho hv
      obtain ⟨vars'', t', he', hm⟩ := h order ho
      obtain ⟨rfl, rfl⟩ := Prod.mk.inj (Option.some.inj (he.symm.trans he'))
      obtain ⟨v, hv⟩ := Dict.mem_iff_get?.mp ((hm.placeholders n).mp hn)
      rw [hg] at hv
      split at hv
      · rename_i hn
        exact ⟨hn, Dict.mem_iff_get?.mpr ⟨v, hv⟩⟩
      · cases hv
    have ha : ∀ order : List Str → List Str, (∀ l, (order l).Perm l) → ∀ m ∈ absentees order vars vs, IsName m :=
      fun order ho m hm => hpl m ((mem_absentees ho).mp hm).1
    have hid : ∀ l : List Str, (id l).Perm l := fun l => List.Perm.refl l
    -- a field with a conversion or a format spec stays, and so does its name
    have hbare : ∀ m ∈ vs, m ∉ vars.keys → Levels (BareAt m) depth t := by
      intro m hm hk
      by_contra hb
      refine hk (keys id hid m ?_).2
      by_contra hn
      have hl := (notMem_placeholders (words_removeAll (ha id hid) ht.words)).mp hn
      exact hb ((bareAt_removeAll (ha id hid) ht.words).mpr (hl.mono fun ps hq f hf e => absurd e (hq f hf)))
    refine ⟨fun n hn => ?_, hbare, fun m hm hk => ?_⟩
    · by_contra hns
      exact hns (keys id hid n (mem_placeholders_removeAll (ha id hid) ht.words
        (fun hn => hns ((mem_absentees hid).mp hn).1) hn)).1
    · by_contra hu
      obtain ⟨ms, hms⟩ := absentees_last hm hk
      have ho := last_perm m
      have hnd : (absentees (last m) vars vs).Nodup := nodup_absentees ho
      rw [hms] at hnd
      have hmem : ∀ n, n ∈ ms ↔ n ∈ vs ∧ n ∉ vars.keys ∧ n ≠ m := by
        intro n
        have hn : n ∈ absentees (last m) vars vs ↔ n ∈ vs ∧ n ∉ vars.keys := mem_absentees ho
        rw [hms] at hn
        have hne : n ∈ ms → n ≠ m := fun hn e => (List.nodup_append.mp hnd).2.2 n hn m (.head _) e
        rw [List.mem_append, List.mem_singleton] at hn
        constructor
        · exact fun h => ⟨(hn.mp (.inl h)).1, (hn.mp (.inl h)).2, hne h⟩
        · exact fun ⟨h₁, h₂, h₃⟩ => (hn.mpr ⟨h₁, h₂⟩).resolve_right h₃
      have hgone : (fun n => decide (n ∈ vs ∧ n ∉ vars.keys ∧ n ≠ m)) = fun n => decide (n ∈ ms) := by
        funext n
        rw [decide_eq_decide, hmem]
      rw [hgone] at hu
      have hnil := nil_mem_placeholders_removeAll (hpl m hm) (fun n hn => hpl n ((hmem n).mp hn).1)
        (List.nodup_append.mp hnd).1 ht.words (fun n hn => hbare n ((hmem n).mp hn).1 ((hmem n).mp hn).2.1) hu
      have := keys (last m) ho [] (by rw [hms, List.foldl_append]; exact hnil)
      exact (hpl [] this.1).1 rfl
  · intro h order ho
    obtain ⟨vars', he, hg⟩ := matchPromptVariables_spec ho hv
    refine ⟨vars', _, he, ?_⟩
    have hab : ∀ m, m ∈ absentees order vars vs ↔ m ∈ vs ∧ m ∉ vars.keys := fun m => mem_absentees ho
    obtain ⟨hph, htext⟩ := Clean.removeAll (fun m n => n ∈ vs ∧ n ∉ vars.keys ∧ n ≠ m) render
      (getField isDecimal vars) (fun n => n ∉ vars.keys)
      (fun m hm => hpl m ((hab m).mp hm).1) (nodup_absentees ho) (fun m hm => by simpa using ((hab m).mp hm).2)
      (fun m hm n _ hne => by simpa [hne] using (hab m).mp hm)
      ⟨ht.words, fun m hm => h.bare m ((hab m).mp hm).1 ((hab m).mp hm).2,
        fun m hm => h.unquoted m ((hab m).mp hm).1 ((hab m).mp hm).2⟩
    have hleft : ∀ n, n ∈ placeholders depth ((absentees order vars vs).foldl (fun t m => remove m t) t) ↔
        n ∈ vs ∧ n ∈ vars.keys := by
      intro n
      rw [hph, hab]
      refine ⟨fun ⟨hn, hna⟩ => ⟨h.nested n hn, ?_⟩, fun ⟨hn, hk⟩ => ⟨hvs n hn, fun hna => hna.2 hk⟩⟩
      by_contra hk
      exact hna ⟨h.nested n hn, hk⟩
    refine ⟨fun n => ?_, fun {n v} hn => ?_, ?_⟩
    · simp only [hleft, ← Dict.mem_def, Dict.mem_iff_get?, hg]
      by_cases hn : n ∈ vs <;> simp [hn]
    · rw [hg] at hn
      split at hn
      · exact hn
      · cases hn
    · rw [← htext]
      refine vformat_congr fun n hn => ?_
      obtain ⟨hn, hk⟩ := (hleft n).mp hn
      refine ⟨by simpa using hk, ?_⟩
      rw [getField, getField, hg, if_pos hn]

/-- The names of the fields, if there is no field `stop`. -/
def fieldNames (t : Str) : Option (List Str) :=
  (parse t).bind fun ps =>
    let names := ((fields ps).map Field.name).dedup
    if "stop".toList ∈ names then none else some names

theorem fieldNames_isFString : IsFString fieldNames where
  parses {t vs} h := by
    rw [fieldNames] at h
    obtain ⟨ps, hp, h⟩ := Option.bind_eq_some_iff.mp h
    refine ⟨ps, hp, fun n => ?_⟩
    dsimp only at h
    split at h
    · cases h
    · rw [← Option.some.inj h, List.mem_dedup, List.mem_map]

/-- `str.format` of texts, without conversions and format specs. -/
def plainText (v : Str) (conversion : Option Char) (spec : Str) : Option Str :=
  if conversion = none ∧ spec = [] then some v else none

/-- `{a}` is filled, `{b}` goes, and the braces around the rest stay. -/
theorem match_prompt_variables_iff_json : ∃ vars' t',
    matchPromptVariables fieldNames id (Dict.empty.set ['a'] ['1']) "\x7b\x7b\x7ba\x7d\x7bb\x7d\x7d\x7d".toList =
      some (vars', t') ∧
    Matches Char.isDigit plainText (Dict.empty.set ['a'] ['1']) vars' "\x7b\x7b\x7ba\x7d\x7bb\x7d\x7d\x7d".toList t' :=
  (match_prompt_variables_iff fieldNames_isFString Char.isDigit plainText (by decide)
    (show fieldNames _ = some [['a'], ['b']] by decide) _).mpr ⟨by decide, by decide, by decide⟩
    id fun _ => .refl _

/-- `{{a}} {a}` without a variable `a`: the escaped braces lose what is between them, and are a field themselves. -/
theorem quoted_placeholder_lost : Template "\x7b\x7ba\x7d\x7d \x7ba\x7d".toList ∧
    fieldNames "\x7b\x7ba\x7d\x7d \x7ba\x7d".toList = some [['a']] ∧
    matchPromptVariables fieldNames id (Dict.empty : Dict Str Str) "\x7b\x7ba\x7d\x7d \x7ba\x7d".toList =
      some (Dict.empty, "\x7b\x7d ".toList) ∧
    ¬Matches Char.isDigit plainText (Dict.empty : Dict Str Str) Dict.empty "\x7b\x7ba\x7d\x7d \x7ba\x7d".toList
      "\x7b\x7d ".toList := by
  refine ⟨by decide, by decide, by decide, fun h => ?_⟩
  exact absurd ((h.placeholders []).mp (by decide)) (by decide)

end KCore
