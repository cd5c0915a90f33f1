import KCore.Impl.Utils

/-!
# Reading a serialised object back (`parse_json`)

The five replacements of `parse_json` run over the whole text. None of the first
four finds anything in a serialisation whose strings are free of what they look
for (`cleaned_dumps`); the last one, `"}}"` to `"}"`, also meets the brackets of
nested objects. What it takes away can be completed again exactly if the text
has two of them together only at its very end (`squeezed_iff`), that is if the
objects that end an object all lie on one path from the root (`tight_dumps`).
`parseJson_dumps_iff` is the result for the function.
-/

namespace KCore

open Text Json

/-- A text with nothing for the cleaner to replace. -/
def Plain (s : Str) : Prop := ∀ kv ∈ replaces, ¬kv.1 <:+: s

instance (s : Str) : Decidable (Plain s) := inferInstanceAs (Decidable (∀ kv ∈ replaces, ¬kv.1 <:+: s))

/-! ## Escaped strings -/

theorem isPrefix_of_escape : ∀ {p s : Str}, '\\' ∉ p → p <+: escape s → p <+: s
  | [], _, _, _ => List.nil_prefix
  | x :: p, [], _, h => by simp [escape] at h
  | x :: p, c :: s, hp, h => by
    rw [escape_cons] at h
    rcases escChar_head c with ⟨hc, -, -⟩ | ⟨d, r, hc, -⟩
    · rw [hc, List.singleton_append, List.cons_prefix_cons] at h
      rw [List.cons_prefix_cons]
      exact ⟨h.1, isPrefix_of_escape (fun hm => hp (.tail _ hm)) h.2⟩
    · rw [hc, List.cons_append, List.cons_prefix_cons] at h
      exact absurd (h.1 ▸ .head _) hp

/-- A pattern with no backslash that begins outside escape sequences. -/
theorem isInfix_of_escape {x : Char} {p : Str} (hx : x ∉ escCodes) (hp : '\\' ∉ x :: p) :
    ∀ {s : Str}, x :: p <:+: escape s → x :: p <:+: s
  | [], h => h
  | c :: s, h => by
    have hpre := isPrefix_of_escape (s := c :: s) hp
    rw [escape_cons] at h hpre
    rw [List.infix_cons_iff]
    rcases escChar_head c with ⟨hc, -, -⟩ | ⟨d, r, hc, -, hr⟩
    · rw [hc, List.singleton_append] at h hpre
      exact (List.infix_cons_iff.mp h).imp hpre (isInfix_of_escape hx hp)
    · rw [hc, List.cons_append, List.infix_cons_iff] at h
      rcases h with h | h
      · exact absurd ((List.cons_prefix_cons.mp h).1 ▸ .head _) hp
      · rw [isInfix_append_of_head fun hm => hx (hr x hm)] at h
        exact .inr (isInfix_of_escape hx hp h)

theorem isInfix_escUnit {y : Char} (hy : y ∉ escCodes) (n : Nat) {t : Str} (h : ['\\', y] <:+: escUnit n ++ t) :
    ['\\', y] <:+: t := by
  have hu : y ≠ 'u' := by
    rintro rfl
    exact hy (by decide)
  simpa [escUnit, List.infix_cons_iff, List.cons_prefix_cons, (digitChar_ne _).1.symm, hu] using h

/-- A backslash pattern. -/
theorem isInfix_of_escape_backslash {y : Char} (hy : y ∉ escCodes) :
    ∀ {s : Str}, ['\\', y] <:+: escape s → ['\\', y] <:+: s
  | [], h => h
  | c :: s, h => by
    have hyb : '\\' ∉ [y] := fun hm => hy (List.mem_singleton.mp hm ▸ (by decide))
    have ih := isInfix_of_escape_backslash hy (s := s)
    rw [escape_cons] at h
    rw [List.infix_cons_iff]
    rcases escChar_cases c with ⟨hc, -, hb⟩ | ⟨e, he, rfl, hc⟩ | ⟨n, hc⟩ | ⟨n, m, hc⟩
    · rw [hc, List.singleton_append, List.infix_cons_iff, List.cons_prefix_cons] at h
      exact .inr (ih (h.resolve_left fun h => hb h.1.symm))
    · obtain ⟨-, -, hb, hm⟩ := escTable_ok e he
      rw [hc] at h
      simp only [List.cons_append, List.nil_append, List.infix_cons_iff, List.cons_prefix_cons, true_and,
        List.nil_prefix, and_true] at h
      rcases h with h | ⟨h, hs⟩ | h
      · exact absurd (h ▸ hm) hy
      · exact .inl (List.cons_prefix_cons.mpr ⟨(hb h.symm).symm, isPrefix_of_escape hyb hs⟩)
      · exact .inr (ih h)
    · exact .inr (ih (isInfix_escUnit hy n (hc ▸ h)))
    · rw [hc, List.append_assoc] at h
      exact .inr (ih (isInfix_escUnit hy m (isInfix_escUnit hy n h)))

/-- Escaping brings in nothing for the cleaner to replace. -/
theorem plain_escape {s : Str} (h : Plain s) : Plain (escape s) := by
  simp only [Plain, replaces, List.forall_mem_cons] at h ⊢
  obtain ⟨h1, h2, h3, h4, h5, -⟩ := h
  exact ⟨fun h => h1 (isInfix_of_escape_backslash (by decide) h),
    fun h => h2 (isInfix_of_escape_backslash (by decide) h),
    fun h => h3 (isInfix_of_escape (by decide) (by decide) h),
    fun h => h4 (isInfix_of_escape (by decide) (by decide) h),
    fun h => h5 (isInfix_of_escape (by decide) (by decide) h), by simp⟩

/-! ## Patterns in a serialisation -/

variable {N : Type*} [Numeral N]

/-- What the first four patterns have in common: a serialisation's own characters, apart from the opening
brace, are not in them, and they are not in its own words. -/
structure Pattern (p : Str) : Prop where
  ne : p ≠ []
  seps : ∀ c ∈ "\",: []\x7d".toList, c ∉ p
  head : ∀ x ∈ p.head?, x ∉ "0123456789+-.e".toList
  words : ∀ w ∈ ["null".toList, "true".toList, "false".toList, "\x7b".toList], ¬p <:+: w

namespace Pattern

variable {p : Str}

theorem append_cons (h : Pattern p) {c : Char} (hc : c ∈ "\",: []\x7d".toList) {a b : Str} :
    ¬p <:+: a ++ c :: b ↔ ¬p <:+: a ∧ ¬p <:+: b := by
  rw [isInfix_append_cons (h.seps c hc) h.ne, not_or]

theorem cons (h : Pattern p) {c : Char} (hc : c ∈ "\",: []\x7d".toList) {b : Str} : ¬p <:+: c :: b ↔ ¬p <:+: b := by
  have := h.append_cons hc (a := []) (b := b)
  simpa [List.infix_nil, h.ne] using this

theorem quote (h : Pattern p) {s : Str} (hs : ¬p <:+: escape s) {b : Str} :
    ¬p <:+: Json.quote s ++ b ↔ ¬p <:+: b := by
  rw [Json.quote, List.cons_append, h.cons (by decide), List.append_assoc, List.singleton_append,
    h.append_cons (by decide)]
  exact and_iff_right hs

theorem join (h : Pattern p) : ∀ {ls : List Str}, (∀ a ∈ ls, ¬p <:+: a) → ¬p <:+: Text.join ", ".toList ls
  | [], _ => by simp [List.infix_nil, h.ne]
  | [a], hl => by simpa using hl a (.head _)
  | a :: b :: ls, hl => by
    have hj : ¬p <:+: Text.join ", ".toList (b :: ls) := h.join fun c hc => hl c (.tail _ hc)
    rw [join_cons_cons, show ", ".toList ++ Text.join ", ".toList (b :: ls) =
      ',' :: ' ' :: Text.join ", ".toList (b :: ls) from rfl, h.append_cons (by decide), h.cons (by decide)]
    exact ⟨hl a (.head _), hj⟩

mutual

theorem dumps (h : Pattern p) (he : ∀ s, Plain s → ¬p <:+: escape s) : ∀ {v : Json N}, Strings Plain v →
    ¬p <:+: Json.dumps v
  | .null, _ => h.words "null".toList (by decide)
  | .bool true, _ => h.words "true".toList (by decide)
  | .bool false, _ => h.words "false".toList (by decide)
  | .num n, _ => fun hn => by
    obtain ⟨x, p, rfl⟩ := List.exists_cons_of_ne_nil h.ne
    exact h.head x rfl (Numeral.chars n x (hn.subset (.head _)))
  | .str s, hs => by
    have := (h.quote (he s hs) (b := [])).mpr (by simp [List.infix_nil, h.ne])
    rwa [List.append_nil] at this
  | .arr vs, hs => by
    rw [Json.dumps_arr, h.cons (by decide), h.append_cons (by decide)]
    exact ⟨h.join (items h he hs), by simp [List.infix_nil, h.ne]⟩
  | .obj es, hs => by
    rw [Json.dumps_obj, ← List.cons_append, h.append_cons (by decide)]
    refine ⟨?_, by simp [List.infix_nil, h.ne]⟩
    cases es with
    | nil => exact h.words "\x7b".toList (by decide)
    | cons e es =>
      -- the quote of the first key follows the brace
      have hj := h.join (entries h he hs)
      rw [Json.dumpsEntries, join_cons, List.append_assoc, Json.quote, List.cons_append, h.cons (by decide)] at hj
      rw [Json.dumpsEntries, join_cons, List.append_assoc, Json.quote, List.cons_append, ← List.singleton_append,
        h.append_cons (by decide)]
      exact ⟨h.words _ (by decide), hj⟩

theorem items (h : Pattern p) (he : ∀ s, Plain s → ¬p <:+: escape s) : ∀ {vs : List (Json N)},
    StringsItems Plain vs → ∀ a ∈ dumpsItems vs, ¬p <:+: a
  | v :: vs, hs, a, ha => by
    rcases List.mem_cons.mp ha with rfl | ha
    · exact dumps h he hs.1
    · exact items h he hs.2 a ha

theorem entries (h : Pattern p) (he : ∀ s, Plain s → ¬p <:+: escape s) : ∀ {es : List (Str × Json N)},
    StringsEntries Plain es → ∀ a ∈ dumpsEntries es, ¬p <:+: a
  | (k, v) :: es, hs, a, ha => by
    rcases List.mem_cons.mp ha with rfl | ha
    · rw [h.quote (he k hs.1), show ": ".toList ++ Json.dumps v = ':' :: ' ' :: Json.dumps v from rfl,
        h.cons (by decide), h.cons (by decide)]
      exact dumps h he hs.2.1
    · exact entries h he hs.2.2 a ha

end

end Pattern

/-- The patterns that a serialisation of plain strings does not hold. -/
theorem pattern_free {v : Json N} (hv : Strings Plain v) :
    ¬"\\_".toList <:+: dumps v ∧ ¬"\\-".toList <:+: dumps v ∧ ¬"None".toList <:+: dumps v ∧
      ¬"\x7b\x7b".toList <:+: dumps v := by
  have he (p : Str) (hp : p ∈ replaces.map Prod.fst) (s : Str) (hs : Plain s) : ¬p <:+: escape s := by
    obtain ⟨kv, hkv, rfl⟩ := List.mem_map.mp hp
    exact plain_escape hs kv hkv
  exact ⟨Pattern.dumps ⟨by decide, by decide, by decide, by decide⟩ (he _ (by decide)) hv,
    Pattern.dumps ⟨by decide, by decide, by decide, by decide⟩ (he _ (by decide)) hv,
    Pattern.dumps ⟨by decide, by decide, by decide, by decide⟩ (he _ (by decide)) hv,
    Pattern.dumps ⟨by decide, by decide, by decide, by decide⟩ (he _ (by decide)) hv⟩

/-! ## Closing braces -/

/-- `"}}"`. -/
def braces : Str := ['\x7d', '\x7d']

/-- Two closing braces stand together only at the end, with nothing but closing braces after them. -/
def Tight (t : Str) : Prop := ∀ a b, t = a ++ (braces ++ b) → ∀ c ∈ b, c = '\x7d'

theorem free_append_cons {a b : Str} {c : Char} (hc : c ≠ '\x7d') :
    ¬braces <:+: a ++ c :: b ↔ ¬braces <:+: a ∧ ¬braces <:+: b := by
  rw [isInfix_append_cons (by simpa [braces] using hc) (by decide), not_or]

theorem free_cons {b : Str} {c : Char} (hc : c ≠ '\x7d') : ¬braces <:+: c :: b ↔ ¬braces <:+: b := by
  simpa [braces, List.infix_nil] using free_append_cons (a := []) (b := b) hc

theorem tight_replicate (n : Nat) : Tight (List.replicate n '\x7d') := fun a b hab c hc => by
  have : c ∈ List.replicate n '\x7d' := hab ▸ by simp [hc]
  exact (List.mem_replicate.mp this).2

/-- Text before another character has no two braces together. -/
theorem tight_append_cons {a b : Str} {c : Char} (hc : c ≠ '\x7d') :
    Tight (a ++ c :: b) ↔ ¬braces <:+: a ∧ Tight b := by
  constructor
  · refine fun h => ⟨?_, fun x y hxy => h (a ++ c :: x) y (by rw [hxy]; simp)⟩
    rintro ⟨x, y, rfl⟩
    exact hc (h x (y ++ c :: b) (by simp) c (by simp))
  · rintro ⟨ha, hb⟩ x y hxy d hd
    rcases List.append_eq_append_iff.mp hxy with ⟨u, rfl, hu⟩ | ⟨u, rfl, hu⟩
    · -- the two braces begin at the character or after it
      cases u with
      | nil => simp [braces, hc] at hu
      | cons e u => exact hb u y (List.cons.inj hu).2 d hd
    · -- the two braces begin before it
      match u, hu with
      | [], hu => simp [braces, Ne.symm hc] at hu
      | [e], hu => simp [braces, Ne.symm hc] at hu
      | e :: e' :: u, hu =>
        simp only [braces, List.cons_append, List.cons.injEq, List.nil_append] at hu
        obtain ⟨rfl, rfl, -⟩ := hu
        exact absurd ⟨x, u, by simp [braces]⟩ ha

theorem tight_cons {b : Str} {c : Char} (hc : c ≠ '\x7d') : Tight (c :: b) ↔ Tight b := by
  simpa [braces, List.infix_nil] using tight_append_cons (a := []) (b := b) hc

/-! ## Nested objects -/

def isObj : Json N → Bool
  | .obj _ => true
  | _ => false

mutual

/-- Somewhere in the value an object is the last value of an object. -/
def doubled : Json N → Bool
  | .arr vs => doubledItems vs
  | .obj es => doubledEntries es
  | .null | .bool _ | .num _ | .str _ => false

def doubledItems : List (Json N) → Bool
  | [] => false
  | v :: vs => doubled v || doubledItems vs

def doubledEntries : List (Str × Json N) → Bool
  | [] => false
  | [(_, v)] => doubled v || isObj v
  | (_, v) :: e :: es => doubled v || doubledEntries (e :: es)

end

mutual

/-- An object is the last value of an object only on the path of last values from the root. -/
def spine : Json N → Bool
  | .obj es => spineEntries es
  | .arr vs => !doubledItems vs
  | .null | .bool _ | .num _ | .str _ => true

def spineEntries : List (Str × Json N) → Bool
  | [] => true
  | [(_, v)] => spine v
  | (_, v) :: e :: es => !doubled v && spineEntries (e :: es)

end

omit [Numeral N] in
theorem spine_of_not_isObj {v : Json N} (h : isObj v = false) : spine v = !doubled v := by
  cases v with
  | obj es => cases h
  | _ => rfl

/-- A value that is no object ends in another character than a brace. -/
theorem dumps_last {v : Json N} (h : isObj v = false) : ∃ t c, dumps v = t ++ [c] ∧ c ≠ '\x7d' := by
  cases v with
  | null => exact ⟨"nul".toList, 'l', rfl, by decide⟩
  | bool b =>
    cases b with
    | false => exact ⟨"fals".toList, 'e', rfl, by decide⟩
    | true => exact ⟨"tru".toList, 'e', rfl, by decide⟩
  | num n =>
    have hl := List.dropLast_concat_getLast (Numeral.ne_nil n)
    refine ⟨_, _, hl.symm, fun hc => ?_⟩
    have := Numeral.chars n _ (List.getLast_mem (Numeral.ne_nil n))
    rw [hc] at this
    exact absurd this (by decide)
  | str s => exact ⟨'"' :: escape s, '"', rfl, by decide⟩
  | arr vs => exact ⟨'[' :: join ", ".toList (dumpsItems vs), ']', rfl, by decide⟩
  | obj es => cases h

theorem free_escape {s : Str} (h : Plain s) : ¬braces <:+: escape s :=
  plain_escape h (braces, ['\x7d']) (by decide)

/-- The text of an entry. -/
theorem free_entry {k : Str} (hk : Plain k) (v : Json N) (r : Str) :
    ¬braces <:+: quote k ++ (": ".toList ++ dumps v) ++ r ↔ ¬braces <:+: dumps v ++ r := by
  rw [quote, List.append_assoc, List.cons_append, free_cons (by decide), List.append_assoc, List.singleton_append,
    free_append_cons (by decide), and_iff_right (free_escape hk)]
  exact (free_cons (by decide)).trans (free_cons (by decide))

theorem tight_entry {k : Str} (hk : Plain k) (v : Json N) (r : Str) :
    Tight (quote k ++ (": ".toList ++ dumps v) ++ r) ↔ Tight (dumps v ++ r) := by
  rw [quote, List.append_assoc, List.cons_append, tight_cons (by decide), List.append_assoc, List.singleton_append,
    tight_append_cons (by decide), and_iff_right (free_escape hk)]
  exact (tight_cons (by decide)).trans (tight_cons (by decide))

theorem not_free_obj (es : List (Str × Json N)) : braces <:+: dumps (.obj es) ++ ['\x7d'] :=
  ⟨'\x7b' :: join ", ".toList (dumpsEntries es), [], by simp [dumps_obj, braces]⟩

theorem free_braces_nil : ¬braces <:+: [] := by decide

mutual

theorem free_dumps : ∀ {v : Json N}, Strings Plain v → (¬braces <:+: dumps v ↔ doubled v = false)
  | .null, _ => iff_of_true (show ¬braces <:+: "null".toList by decide) rfl
  | .bool true, _ => iff_of_true (show ¬braces <:+: "true".toList by decide) rfl
  | .bool false, _ => iff_of_true (show ¬braces <:+: "false".toList by decide) rfl
  | .num n, _ => iff_of_true (fun hn => absurd (Numeral.chars n '\x7d' (hn.subset (.head _))) (by decide)) rfl
  | .str s, hs => by
    rw [dumps_str, quote, free_cons (by decide), free_append_cons (by decide)]
    exact iff_of_true ⟨free_escape hs, free_braces_nil⟩ rfl
  | .arr vs, hs => by
    rw [dumps_arr, free_cons (by decide), free_append_cons (by decide), doubled, free_items hs]
    exact and_iff_left free_braces_nil
  | .obj es, hs => by
    rw [dumps_obj, free_cons (by decide), doubled]
    exact free_entries hs

theorem free_items : ∀ {vs : List (Json N)}, StringsItems Plain vs →
    (¬braces <:+: join ", ".toList (dumpsItems vs) ↔ doubledItems vs = false)
  | [], _ => iff_of_true free_braces_nil rfl
  | [v], hs => by
    rw [dumpsItems, dumpsItems, join_singleton, free_dumps hs.1]
    simp [doubledItems]
  | v :: w :: vs, hs => by
    have ih : ¬braces <:+: join ", ".toList (dumpsItems (w :: vs)) ↔ doubledItems (w :: vs) = false := free_items hs.2
    rw [dumpsItems, dumpsItems, join_cons_cons, doubledItems, Bool.or_eq_false_iff, ← free_dumps hs.1, ← ih, dumpsItems]
    exact (free_append_cons (by decide)).trans (and_congr_right fun _ => free_cons (by decide))

theorem free_entries : ∀ {es : List (Str × Json N)}, StringsEntries Plain es →
    (¬braces <:+: join ", ".toList (dumpsEntries es) ++ ['\x7d'] ↔ doubledEntries es = false)
  | [], _ => iff_of_true (show ¬braces <:+: ['\x7d'] by decide) rfl
  | [(k, v)], hs => by
    rw [dumpsEntries, dumpsEntries, join_singleton, free_entry hs.1, doubledEntries, Bool.or_eq_false_iff,
      ← free_dumps hs.2.1]
    cases hv : isObj v with
    | true =>
      cases v with
      | obj es => exact iff_of_false (fun h => h (not_free_obj es)) (by simp)
      | _ => cases hv
    | false =>
      obtain ⟨t, c, ht, hc⟩ := dumps_last hv
      rw [ht, List.append_assoc, List.singleton_append, free_append_cons hc, free_append_cons hc]
      simp [braces, List.infix_cons_iff]
  | (k, v) :: e :: es, hs => by
    have ih : ¬braces <:+: join ", ".toList (dumpsEntries (e :: es)) ++ ['\x7d'] ↔ doubledEntries (e :: es) = false :=
      free_entries hs.2.2
    rw [dumpsEntries, dumpsEntries, join_cons_cons, doubledEntries, Bool.or_eq_false_iff, ← free_dumps hs.2.1, ← ih,
      List.append_assoc, free_entry hs.1, dumpsEntries]
    exact (free_append_cons (by decide)).trans (and_congr_right fun _ => free_cons (by decide))

end

theorem tight_scalar {v : Json N} (hv : isObj v = false) (n : Nat) (hs : Strings Plain v) :
    Tight (dumps v ++ List.replicate n '\x7d') ↔ spine v = true := by
  obtain ⟨t, c, ht, hc⟩ := dumps_last hv
  rw [spine_of_not_isObj hv, Bool.not_eq_true', ← free_dumps hs, ht, List.append_assoc, List.singleton_append,
    tight_append_cons hc, free_append_cons hc]
  exact ⟨fun h => ⟨h.1, free_braces_nil⟩, fun h => ⟨h.1, tight_replicate n⟩⟩

mutual

/-- A serialisation, and closing braces after it. -/
theorem tight_dumps : ∀ {v : Json N} (n : Nat), Strings Plain v →
    (Tight (dumps v ++ List.replicate n '\x7d') ↔ spine v = true)
  | .obj es, n, hs => by
    rw [dumps_obj, List.cons_append, tight_cons (by decide), List.append_assoc, List.singleton_append,
      ← List.replicate_succ, tight_entries n hs, spine]
  | .null, n, hs => tight_scalar rfl n hs
  | .bool b, n, hs => tight_scalar rfl n hs
  | .num k, n, hs => tight_scalar rfl n hs
  | .str s, n, hs => tight_scalar rfl n hs
  | .arr vs, n, hs => tight_scalar rfl n hs

theorem tight_entries : ∀ {es : List (Str × Json N)} (n : Nat), StringsEntries Plain es →
    (Tight (join ", ".toList (dumpsEntries es) ++ List.replicate (n + 1) '\x7d') ↔ spineEntries es = true)
  | [], n, _ => iff_of_true (tight_replicate (n + 1)) rfl
  | [(k, v)], n, hs => by
    rw [dumpsEntries, dumpsEntries, join_singleton, tight_entry hs.1, tight_dumps (n + 1) hs.2.1, spineEntries]
  | (k, v) :: e :: es, n, hs => by
    have ih : Tight (join ", ".toList (dumpsEntries (e :: es)) ++ List.replicate (n + 1) '\x7d') ↔
        spineEntries (e :: es) = true := tight_entries n hs.2.2
    rw [dumpsEntries, dumpsEntries, join_cons_cons, spineEntries, Bool.and_eq_true, Bool.not_eq_true',
      ← free_dumps hs.2.1, ← ih, List.append_assoc, tight_entry hs.1, dumpsEntries]
    exact (tight_append_cons (by decide)).trans (and_congr_right fun _ => tight_cons (by decide))

end

/-! ## The last replacement -/

/-- The last replacement of the cleaner. -/
def squeezed (t : Str) : Str := replace braces ['\x7d'] t

theorem squeezed_braces (b : Str) : squeezed ('\x7d' :: '\x7d' :: b) = '\x7d' :: squeezed b := by
  have : braces <+: '\x7d' :: '\x7d' :: b := ⟨b, rfl⟩
  simp only [squeezed, replace, replaceFrom, this, ite_true]
  rfl

theorem squeezed_cons {c : Char} {b : Str} (h : ¬braces <+: c :: b) : squeezed (c :: b) = c :: squeezed b := by
  simp only [squeezed, replace, replaceFrom, h, ite_false]

/-- A text, two braces at a time. -/
theorem braces_induction {P : Str → Prop} (hnil : P []) (hbraces : ∀ b, P b → P ('\x7d' :: '\x7d' :: b))
    (hcons : ∀ c b, ¬braces <+: c :: b → P b → P (c :: b)) : ∀ t, P t
  | [] => hnil
  | [c] => hcons c [] (by simp [braces, List.cons_prefix_cons]) hnil
  | c :: d :: b => by
    by_cases h : braces <+: c :: d :: b
    · simp only [braces, List.cons_prefix_cons] at h
      obtain ⟨rfl, rfl, -⟩ := h
      exact hbraces b (braces_induction hnil hbraces hcons b)
    · exact hcons c (d :: b) h (braces_induction hnil hbraces hcons (d :: b))

/-- Past braces that were taken away, only braces may follow. -/
theorem all_braces_of_squeezed : ∀ (t : Str) (k : Nat) (u : Str),
    squeezed t ++ u = List.replicate (k + 1) '\x7d' ++ t → ∀ c ∈ t, c = '\x7d' := by
  refine braces_induction (fun k u _ c hc => absurd hc List.not_mem_nil) (fun b ih k u h => ?_)
    (fun c b hcb ih k u h => ?_)
  · rw [squeezed_braces, List.replicate_succ, List.cons_append, List.cons_append, List.cons.injEq] at h
    have hb := ih (k + 1) u (by
      rw [h.2, List.replicate_succ', List.replicate_succ']
      simp)
    simpa using hb
  · rw [squeezed_cons hcb, List.replicate_succ, List.cons_append, List.cons_append, List.cons.injEq] at h
    obtain ⟨rfl, h⟩ := h
    have hb := ih k u (by rw [h, List.replicate_succ']; simp)
    simpa using hb

theorem tight_of_squeezed : ∀ (t u : Str), squeezed t ++ u = t → Tight t := by
  refine braces_induction (fun u _ => tight_replicate 0) (fun b _ u hu => ?_) (fun c b hcb ih u hu => ?_)
  · rw [squeezed_braces, List.cons_append, List.cons.injEq] at hu
    have hb := all_braces_of_squeezed b 0 u hu.2
    rw [show '\x7d' :: '\x7d' :: b = List.replicate (b.length + 2) '\x7d' by
      rw [List.replicate_succ, List.replicate_succ, ← List.eq_replicate_of_mem hb]]
    exact tight_replicate _
  · rw [squeezed_cons hcb] at hu
    intro x y hxy
    cases x with
    | nil => exact absurd ⟨y, hxy.symm⟩ hcb
    | cons d x => exact ih u (List.cons.inj hu).2 x y (List.cons.inj hxy).2

/-- Of a tight text the last replacement takes away closing braces at the end. -/
theorem squeezed_of_tight : ∀ t : Str, Tight t → ∃ u, squeezed t ++ u = t ∧ ∀ c ∈ u, c = '\x7d' := by
  refine braces_induction (fun _ => ⟨[], rfl, by simp⟩) (fun b ih h => ?_) (fun c b hcb ih h => ?_)
  · have hb := h [] b rfl
    obtain ⟨u, hu, hc⟩ := ih (List.eq_replicate_of_mem hb ▸ tight_replicate _)
    refine ⟨u ++ ['\x7d'], ?_, fun c h => (List.mem_append.mp h).elim (hc c) List.mem_singleton.mp⟩
    rw [squeezed_braces, List.cons_append, ← List.append_assoc, hu, List.eq_replicate_of_mem hb,
      ← List.replicate_succ', List.replicate_succ]
  · obtain ⟨u, hu, hc⟩ := ih fun x y hxy => h (c :: x) y (by rw [hxy, List.cons_append])
    exact ⟨u, by rw [squeezed_cons hcb, List.cons_append, hu], hc⟩

/-! ## The function -/

/-- What is assumed of the parser: it gives back an object from its serialisation, also with closing
brackets missing at the end. -/
def Completes (parse : Str → Option (Json N)) : Prop :=
  ∀ (es : List (Str × Json N)) (t u : Str), WF (.obj es) → Closers u → t ++ u = dumps (.obj es) →
    parse t = some (.obj es)

/-- The cleaner on a serialised object and text before it. -/
theorem cleaned_dumps {es : List (Str × Json N)} (hs : Strings Plain (.obj es)) {pre : Str} (hp : '\x7b' ∉ pre) :
    ∃ pre', '\x7b' ∉ pre' ∧ cleaned (pre ++ dumps (.obj es)) = pre' ++ squeezed (dumps (.obj es)) := by
  obtain ⟨h1, h2, h3, h4⟩ := pattern_free hs
  obtain ⟨t, ht⟩ : ∃ t, dumps (.obj es) = '\x7b' :: t := ⟨_, rfl⟩
  rw [ht] at h1 h2 h3 h4 ⊢
  have skip {old new pre : Str} (ho : old ≠ []) (hc : '\x7b' ∉ old) (h : ¬old <:+: '\x7b' :: t) :
      replace old new (pre ++ '\x7b' :: t) = replace old new pre ++ '\x7b' :: t := by
    rw [replace_append_cons hc ho, replace_eq_self fun hi => h (List.infix_cons_iff.mpr (.inr hi))]
  have keep (old new : Str) {pre : Str} (hp : '\x7b' ∉ pre) (hn : '\x7b' ∉ new) : '\x7b' ∉ replace old new pre :=
    fun h => (mem_replace h).elim hp hn
  have hp1 := keep "\\_".toList "_".toList hp (by decide)
  have hp2 := keep "\\-".toList "-".toList hp1 (by decide)
  have hp3 := keep "None".toList "null".toList hp2 (by decide)
  refine ⟨_, keep braces ['\x7d'] hp3 (by decide), ?_⟩
  simp only [cleaned, replaces, List.foldl_cons, List.foldl_nil]
  rw [skip (by decide) (by decide) h1, skip (by decide) (by decide) h2, skip (by decide) (by decide) h3,
    @replace_eq_self "\x7b\x7b".toList _ _ fun hi =>
      h4 ((isInfix_append_of_head (x := '\x7b') (p := ['\x7b']) hp3).mp hi),
    show "\x7d\x7d".toList = braces from rfl, replace_append_cons (by decide) (by decide), squeezed,
    show '\x7b' :: t = [] ++ '\x7b' :: t from rfl, replace_append_cons (by decide) (by decide)]
  rfl

/-- The text that the parser is given. -/
theorem parseJson_dumps {es : List (Str × Json N)} (hs : Strings Plain (.obj es)) {pre : Str} (hp : '\x7b' ∉ pre)
    (parse : Str → Option (Json N)) :
    parseJson parse (pre ++ dumps (.obj es)) = parse (squeezed (dumps (.obj es))) := by
  obtain ⟨pre', hp', hc⟩ := cleaned_dumps hs hp
  obtain ⟨t, ht⟩ : ∃ t, squeezed (dumps (.obj es)) = '\x7b' :: t :=
    ⟨_, squeezed_cons (b := join ", ".toList (dumpsEntries es) ++ ['\x7d']) (by simp [braces, List.cons_prefix_cons])⟩
  rw [parseJson, hc, ht, show "\x7b".toList = ['\x7b'] from rfl, find_append_cons hp']
  simp

/-- There are such parsers: what they must return is determined by the text. -/
theorem exists_completes (t : Str) (h : ∀ (es : List (Str × Json N)) (u : Str), WF (.obj es) → Closers u →
    t ++ u ≠ dumps (.obj es)) : ∃ parse : Str → Option (Json N), Completes parse ∧ parse t = none := by
  classical
  let parse (t : Str) : Option (Json N) :=
    if h : ∃ es : List (Str × Json N), WF (.obj es) ∧ ∃ u, Closers u ∧ t ++ u = dumps (.obj es) then
      some (.obj h.choose) else none
  refine ⟨parse, fun es t u hw hu htu => ?_, dif_neg ?_⟩
  · have hex : ∃ es : List (Str × Json N), WF (.obj es) ∧ ∃ u, Closers u ∧ t ++ u = dumps (.obj es) :=
      ⟨es, hw, u, hu, htu⟩
    obtain ⟨-, u', hu', htu'⟩ := hex.choose_spec
    have : parse t = some (.obj hex.choose) := dif_pos hex
    rw [this, eq_of_closers hu' hu htu' htu]
  · rintro ⟨es, hw, u, hu, htu⟩
    exact h es u hw hu htu

/-- `parse_json` gives back every serialised object, with any text free of braces before it, exactly if
in the object no other object ends an object than on the path of last values from the root. -/
theorem parseJson_dumps_iff {es : List (Str × Json N)} (hw : WF (.obj es)) (hs : Strings Plain (.obj es))
    {pre : Str} (hp : '\x7b' ∉ pre) :
    (∀ parse, Completes parse → parseJson parse (pre ++ dumps (.obj es)) = some (.obj es)) ↔
      spine (.obj es) = true := by
  have htight : Tight (dumps (.obj es)) ↔ spine (.obj es) = true := by
    have := tight_dumps 0 hs
    rwa [List.replicate_zero, List.append_nil] at this
  simp only [parseJson_dumps hs hp]
  constructor
  · intro h
    by_contra hsp
    have hne (u : Str) : squeezed (dumps (.obj es)) ++ u ≠ dumps (.obj es) := fun hu =>
      hsp (htight.mp (tight_of_squeezed _ u hu))
    by_cases hex : ∃ es' : List (Str × Json N), WF (.obj es') ∧ ∃ u, Closers u ∧
        squeezed (dumps (.obj es)) ++ u = dumps (.obj es')
    · -- every such parser reads another object
      obtain ⟨es', hw', u, hu, heq⟩ := hex
      obtain ⟨parse, hparse, -⟩ := exists_completes (N := N) [] fun es u _ hu he => by
        have := hu '\x7b' (by rw [← List.nil_append u, he]; exact .head _)
        exact absurd this (by decide)
      have := (hparse es' _ u hw' hu heq).symm.trans (h parse hparse)
      rw [Option.some.injEq] at this
      exact hne u (this ▸ heq)
    · -- the text is no object's, and some such parser refuses it
      obtain ⟨parse, hparse, hnone⟩ := exists_completes (squeezed (dumps (.obj es))) fun es' u hw' hu he =>
        hex ⟨es', hw', u, hu, he⟩
      have := h parse hparse
      rw [hnone] at this
      cases this
  · intro hsp parse hparse
    obtain ⟨u, hu, hc⟩ := squeezed_of_tight _ (htight.mpr hsp)
    exact hparse es _ u hw (fun c h => .inl (hc c h)) hu

/-- `{"a": {"b": 1}}` is read back by a parser that completes texts. -/
theorem parseJson_nested_once : ∃ parse : Str → Option (Json Nat), Completes parse ∧
    parseJson parse ("Action: ".toList ++ dumps (.obj [("a".toList, .obj [("b".toList, .num 1)])])) =
      some (.obj [("a".toList, .obj [("b".toList, .num 1)])]) := by
  obtain ⟨parse, hparse, -⟩ := exists_completes (N := Nat) "x".toList fun es u _ _ h =>
    absurd (List.cons.inj h).1 (by decide)
  refine ⟨parse, hparse, ?_⟩
  have hs : Strings Plain (.obj [("a".toList, .obj [("b".toList, .num (1 : Nat))])]) := by
    simp only [Strings, StringsEntries]
    decide
  exact (parseJson_dumps_iff (by simp [WF, WFEntries]) hs (by decide)).mpr (by decide) parse hparse

/-- `{"a": {"b": {"c": 1}}, "d": 2}`, and what is read in its place. -/
theorem parseJson_nested_twice :
    let es : List (Str × Json Nat) :=
      [("a".toList, .obj [("b".toList, .obj [("c".toList, .num 1)])]), ("d".toList, .num 2)]
    WF (.obj es) ∧ Strings Plain (.obj es) ∧ (∃ parse : Str → Option (Json Nat), Completes parse) ∧
      ∀ parse, Completes parse → parseJson parse (dumps (.obj es)) ≠ some (.obj es) ∧
        parseJson parse (dumps (.obj es)) =
          some (.obj [("a".toList, .obj [("b".toList, .obj [("c".toList, .num 1)]), ("d".toList, .num 2)])]) := by
  intro es
  have hw : WF (.obj es) := by simp [es, WF, WFEntries]
  have hs : Strings Plain (.obj es) := by simp only [es, Strings, StringsEntries]; decide
  refine ⟨hw, hs, ?_, fun parse hparse => ?_⟩
  · obtain ⟨parse, hparse, -⟩ := exists_completes (N := Nat) "x".toList fun es u _ _ h => by
      exact absurd (List.cons.inj h).1 (by decide)
    exact ⟨parse, hparse⟩
  · have hread : parseJson parse (dumps (.obj es)) =
        some (.obj [("a".toList, .obj [("b".toList, .obj [("c".toList, .num 1)]), ("d".toList, .num 2)])]) :=
      (parseJson_dumps hs (List.not_mem_nil (a := '\x7b')) parse).trans
        (hparse _ _ ['\x7d'] (by simp [WF, WFEntries]) (by simp [Closers]) (by decide))
    exact ⟨by rw [hread]; simp [es], hread⟩

end KCore
