import KCore.Lib.Text

/-!
# Format strings

The format strings of Python's `str.format`, as `string.Formatter().parse` reads
them: literal text, in which a brace is written twice, and replacement fields
`{name!conversion:spec}`. A format string is read as a list of pieces (`parse`), and
the pieces can be written back: `parse_eq_some` says that a text is read as
`ps` exactly if it is what `ps` are written as, and each of them is one that can
be written. `replace_write` then says what becomes of the pieces when the text
`{m}` is taken out of the string.
-/

namespace FormatString

open Text

/-! ## Pieces -/

/-- A replacement field: its name, conversion and format spec, as they are written. -/
structure Field where
  name : Str
  conversion : Option Char
  spec : Option Str
deriving DecidableEq

/-- A character of literal text, or a field. -/
inductive Piece where
  | lit (c : Char)
  | field (f : Field)
deriving DecidableEq

namespace Field

/-- `{name}`. -/
def bare (name : Str) : Field := ⟨name, none, none⟩

/-- The format spec that the formatter is handed: `''` where none is written. -/
def formatSpec (f : Field) : Str := f.spec.getD []

def write (f : Field) : Str :=
  '\x7b' :: (f.name ++ (f.conversion.elim [] (['!', ·]) ++ (f.spec.elim [] (':' :: ·) ++ ['\x7d'])))

def mapSpec (g : Str → Str) (f : Field) : Field := { f with spec := f.spec.map g }

end Field

def Piece.write : Piece → Str
  | .lit c => if c = '\x7b' ∨ c = '\x7d' then [c, c] else [c]
  | .field f => f.write

def write (ps : List Piece) : Str := ps.flatMap Piece.write

def fields (ps : List Piece) : List Field := ps.filterMap fun
  | .lit _ => none
  | .field f => some f

/-! ## The parser -/

/-- The name of a field, the character that ends it, and what comes after; in an index
`[…]` every character is part of it. -/
def scanName : Bool → Str → Option (Str × Char × Str)
  | _, [] => none
  | true, c :: t => (scanName (c != ']') t).map fun r => (c :: r.1, r.2)
  | false, c :: t =>
    if c = '\x7b' then none
    else if c = '\x7d' ∨ c = ':' ∨ c = '!' then some ([], c, t)
    else (scanName (c == '[') t).map fun r => (c :: r.1, r.2)

/-- The format spec, up to the brace that closes the field, with `k` braces open in it. -/
def scanSpec : Nat → Str → Option (Str × Str)
  | _, [] => none
  | k, c :: t =>
    if c = '\x7b' then (scanSpec (k + 1) t).map fun r => (c :: r.1, r.2)
    else if c = '\x7d' then
      if k = 0 then some ([], t) else (scanSpec (k - 1) t).map fun r => (c :: r.1, r.2)
    else (scanSpec k t).map fun r => (c :: r.1, r.2)

/-- What stands behind the name and, if there is one, the conversion. -/
def scanEnd (name : Str) (conversion : Option Char) (c : Char) (t : Str) : Option (Field × Str) :=
  if c = '\x7d' then some (⟨name, conversion, none⟩, t)
  else if c = ':' then (scanSpec 0 t).map fun r => (⟨name, conversion, some r.1⟩, r.2)
  else none

/-- `parse_field`, behind the opening brace. -/
def parseField (t : Str) : Option (Field × Str) :=
  match scanName false t with
  | none => none
  | some (name, c, t) =>
    if c = '!' then
      match t with
      | conversion :: c :: t => scanEnd name (some conversion) c t
      | _ => none
    else scanEnd name none c t

/-- `MarkupIterator_next`, until the end of the text. -/
def parseFrom : Nat → Str → Option (List Piece)
  | _, [] => some []
  | 0, _ => none
  | n + 1, c :: t =>
    if c = '\x7b' ∨ c = '\x7d' then
      match t with
      | [] => none
      | d :: t' =>
        if d = c then (parseFrom n t').map (.lit c :: ·)
        else if c = '\x7d' then none
        else
          match parseField t with
          | none => none
          | some (f, t) => (parseFrom n t).map (.field f :: ·)
    else (parseFrom n t).map (.lit c :: ·)

/-- `Formatter().parse(t)`, `none` where it raises. -/
def parse (t : Str) : Option (List Piece) := parseFrom t.length t

/-! ## Fields that can be written -/

/-- A name, from in or out of an index, that ends out of one. -/
def nameOk : Bool → Str → Bool
  | b, [] => !b
  | true, c :: n => nameOk (c != ']') n
  | false, c :: n => !(c = '\x7b' ∨ c = '\x7d' ∨ c = ':' ∨ c = '!') && nameOk (c == '[') n

/-- The braces that are open after `s`, with `k` open before it; `none` where one too many is closed. -/
def opened : Nat → Str → Option Nat
  | k, [] => some k
  | k, c :: s =>
    if c = '\x7b' then opened (k + 1) s
    else if c = '\x7d' then
      if k = 0 then none else opened (k - 1) s
    else opened k s

/-- The braces of `s` match. -/
def Balanced (s : Str) : Prop := opened 0 s = some 0

instance (s : Str) : Decidable (Balanced s) := inferInstanceAs (Decidable (_ = _))

structure Field.Ok (f : Field) : Prop where
  name : nameOk false f.name = true
  spec : ∀ s ∈ f.spec, Balanced s

def Ok (ps : List Piece) : Prop := ∀ f ∈ fields ps, f.Ok

@[simp] theorem write_nil : write [] = [] := rfl

@[simp] theorem write_cons (p : Piece) (ps : List Piece) : write (p :: ps) = p.write ++ write ps := List.flatMap_cons

@[simp] theorem fields_lit (c : Char) (ps : List Piece) : fields (.lit c :: ps) = fields ps := rfl

@[simp] theorem fields_field (f : Field) (ps : List Piece) : fields (.field f :: ps) = f :: fields ps := rfl

theorem mem_fields {f : Field} {ps : List Piece} : f ∈ fields ps ↔ .field f ∈ ps := by
  simp only [fields, List.mem_filterMap]
  constructor
  · rintro ⟨p, hp, h⟩
    cases p with
    | lit c => simp at h
    | field f' => simp only [Option.some.injEq] at h; exact h ▸ hp
  · exact fun h => ⟨_, h, rfl⟩

theorem ok_lit {c : Char} {ps : List Piece} : Ok (.lit c :: ps) ↔ Ok ps := Iff.rfl

theorem ok_field {f : Field} {ps : List Piece} : Ok (.field f :: ps) ↔ f.Ok ∧ Ok ps := List.forall_mem_cons

/-! ## What the parser reads is what is written -/

/-- The characters that end a name. -/
def Ends (c : Char) : Prop := c = '\x7d' ∨ c = ':' ∨ c = '!'

theorem Ends.ne {c : Char} (h : Ends c) : c ≠ '\x7b' := by
  obtain rfl | rfl | rfl := h <;> decide

theorem scanName_append {c : Char} {r : Str} (hc : Ends c) : ∀ {b : Bool} {n : Str}, nameOk b n = true →
    scanName b (n ++ c :: r) = some (n, c, r)
  | false, [], _ => by
    simp only [List.nil_append, scanName, if_neg hc.ne]
    exact if_pos hc
  | true, y :: n, h => by
    rw [nameOk] at h
    rw [List.cons_append, scanName, scanName_append hc h, Option.map_some]
  | false, y :: n, h => by
    simp only [nameOk, Bool.and_eq_true, Bool.not_eq_true', decide_eq_false_iff_not, not_or] at h
    obtain ⟨⟨hb, he⟩, hn⟩ := h
    rw [List.cons_append, scanName, if_neg hb, if_neg (by simpa using he), scanName_append hc hn, Option.map_some]

theorem scanName_sound : ∀ {b : Bool} {t n r : Str} {c : Char}, scanName b t = some (n, c, r) →
    t = n ++ c :: r ∧ nameOk b n = true ∧ Ends c
  | true, x :: t, n, r, c, h => by
    simp only [scanName, Option.map_eq_some_iff, Prod.mk.injEq, Prod.exists] at h
    obtain ⟨n, c, r, h, rfl, rfl, rfl⟩ := h
    obtain ⟨rfl, hn, hc⟩ := scanName_sound h
    exact ⟨rfl, hn, hc⟩
  | false, x :: t, n, r, c, h => by
    rw [scanName] at h
    split at h
    · cases h
    · rename_i hb
      split at h
      · rename_i hx
        simp only [Option.some.injEq, Prod.mk.injEq] at h
        obtain ⟨rfl, rfl, rfl⟩ := h
        exact ⟨rfl, rfl, hx⟩
      · rename_i hx
        simp only [Option.map_eq_some_iff, Prod.mk.injEq, Prod.exists] at h
        obtain ⟨n, c, r, h, rfl, rfl, rfl⟩ := h
        obtain ⟨rfl, hn, hc⟩ := scanName_sound h
        exact ⟨rfl, by simp [nameOk, hb, hx, hn], hc⟩

theorem scanSpec_append {r : Str} : ∀ {k : Nat} {s : Str}, opened k s = some 0 →
    scanSpec k (s ++ '\x7d' :: r) = some (s, r)
  | k, [], h => by
    cases Option.some.inj h
    rfl
  | k, c :: s, h => by
    rw [opened] at h
    rw [List.cons_append, scanSpec]
    split
    · rename_i hc
      rw [if_pos hc] at h
      rw [scanSpec_append h, Option.map_some]
    · rename_i hc
      rw [if_neg hc] at h
      split
      · rename_i hd
        rw [if_pos hd] at h
        split at h
        · cases h
        · rename_i hk
          rw [if_neg hk, scanSpec_append h, Option.map_some]
      · rename_i hd
        rw [if_neg hd] at h
        rw [scanSpec_append h, Option.map_some]

theorem scanSpec_sound : ∀ {k : Nat} {t s r : Str}, scanSpec k t = some (s, r) →
    t = s ++ '\x7d' :: r ∧ opened k s = some 0
  | k, c :: t, s, r, h => by
    rw [scanSpec] at h
    split at h
    · rename_i hc
      simp only [Option.map_eq_some_iff, Prod.mk.injEq, Prod.exists] at h
      obtain ⟨s, r, h, rfl, rfl⟩ := h
      obtain ⟨rfl, hs⟩ := scanSpec_sound h
      exact ⟨rfl, by rw [opened, if_pos hc, hs]⟩
    · rename_i hc
      split at h
      · rename_i hd
        split at h
        · rename_i hk
          simp only [Option.some.injEq, Prod.mk.injEq] at h
          obtain ⟨rfl, rfl⟩ := h
          exact ⟨by rw [hd, List.nil_append], by rw [hk, opened]⟩
        · rename_i hk
          simp only [Option.map_eq_some_iff, Prod.mk.injEq, Prod.exists] at h
          obtain ⟨s, r, h, rfl, rfl⟩ := h
          obtain ⟨rfl, hs⟩ := scanSpec_sound h
          exact ⟨rfl, by rw [opened, if_neg hc, if_pos hd, if_neg hk, hs]⟩
      · rename_i hd
        simp only [Option.map_eq_some_iff, Prod.mk.injEq, Prod.exists] at h
        obtain ⟨s, r, h, rfl, rfl⟩ := h
        obtain ⟨rfl, hs⟩ := scanSpec_sound h
        exact ⟨rfl, by rw [opened, if_neg hc, if_neg hd, hs]⟩

/-- The characters of the field behind its opening brace. -/
theorem parseField_write {f : Field} (hf : f.Ok) (r : Str) : ∀ {t}, '\x7b' :: t = f.write ++ r → parseField t = some (f, r) := by
  obtain ⟨n, cv, sp⟩ := f
  intro t ht
  simp only [Field.write, List.cons_append, List.cons.injEq, true_and, List.append_assoc] at ht
  subst ht
  have hn := hf.name
  cases cv with
  | none =>
    cases sp with
    | none => simp [parseField, scanName_append (.inl rfl) hn, scanEnd]
    | some s =>
      have hs : opened 0 s = some 0 := hf.spec s rfl
      simp [parseField, scanName_append (.inr (.inl rfl)) hn, scanEnd, scanSpec_append hs]
  | some c =>
    cases sp with
    | none => simp [parseField, scanName_append (.inr (.inr rfl)) hn, scanEnd]
    | some s =>
      have hs : opened 0 s = some 0 := hf.spec s rfl
      simp [parseField, scanName_append (.inr (.inr rfl)) hn, scanEnd, scanSpec_append hs]

theorem scanEnd_sound {n : Str} {cv : Option Char} {c : Char} {t r : Str} {f : Field}
    (h : scanEnd n cv c t = some (f, r)) : f.name = n ∧ f.conversion = cv ∧ (∀ s ∈ f.spec, Balanced s) ∧
      c :: t = f.spec.elim [] (':' :: ·) ++ '\x7d' :: r := by
  rw [scanEnd] at h
  split at h
  · rename_i hc
    simp only [Option.some.injEq, Prod.mk.injEq] at h
    obtain ⟨rfl, rfl⟩ := h
    simp [hc]
  · split at h
    · rename_i hc
      simp only [Option.map_eq_some_iff, Prod.mk.injEq, Prod.exists] at h
      obtain ⟨s, r, h, rfl, rfl⟩ := h
      obtain ⟨rfl, hs⟩ := scanSpec_sound h
      exact ⟨rfl, rfl, fun _ e => Option.some.inj e ▸ hs, by simp [hc]⟩
    · cases h

theorem parseField_sound {t r : Str} {f : Field} (h : parseField t = some (f, r)) : f.Ok ∧ '\x7b' :: t = f.write ++ r := by
  rw [parseField] at h
  split at h
  · cases h
  · rename_i n c t' hs
    obtain ⟨rfl, hn, hc⟩ := scanName_sound hs
    split at h
    · rename_i he
      split at h
      · rename_i cv d t
        obtain ⟨rfl, hv, hsp, ht⟩ := scanEnd_sound h
        refine ⟨⟨hn, hsp⟩, ?_⟩
        simp [Field.write, hv, he, ht]
      · cases h
    · obtain ⟨rfl, hv, hsp, ht⟩ := scanEnd_sound h
      refine ⟨⟨hn, hsp⟩, ?_⟩
      simp [Field.write, hv, ht]

theorem Field.write_append (f : Field) (r : Str) : ∃ d t, f.write ++ r = '\x7b' :: d :: t ∧ (f.Ok → d ≠ '\x7b') := by
  obtain ⟨n, cv, sp⟩ := f
  cases n with
  | cons x n =>
    refine ⟨x, _, rfl, fun h => ?_⟩
    have := h.name
    simp only [nameOk, Bool.and_eq_true, Bool.not_eq_true', decide_eq_false_iff_not, not_or] at this
    exact this.1.1
  | nil => cases cv <;> cases sp <;> exact ⟨_, _, rfl, fun _ => by decide⟩

theorem parseFrom_write : ∀ {n : Nat} {ps : List Piece}, Ok ps → (write ps).length ≤ n → parseFrom n (write ps) = some ps
  | n, [], _, _ => by cases n <;> rfl
  | 0, .lit c :: ps, _, hl => by
    rw [write_cons, Piece.write] at hl
    split at hl <;> simp at hl
  | 0, .field f :: ps, _, hl => by
    obtain ⟨d, t, ht, -⟩ := f.write_append (write ps)
    rw [write_cons, Piece.write, ht] at hl
    simp at hl
  | n + 1, .lit c :: ps, h, hl => by
    rw [write_cons, Piece.write] at hl ⊢
    by_cases hc : c = '\x7b' ∨ c = '\x7d'
    · rw [if_pos hc] at hl ⊢
      simp only [List.cons_append, List.nil_append, List.length_cons] at hl
      simp [parseFrom, hc, parseFrom_write (ok_lit.mp h) (show (write ps).length ≤ n by omega)]
    · rw [if_neg hc] at hl ⊢
      simp only [List.cons_append, List.nil_append, List.length_cons] at hl
      simp [parseFrom, hc, parseFrom_write (ok_lit.mp h) (show (write ps).length ≤ n by omega)]
  | n + 1, .field f :: ps, h, hl => by
    obtain ⟨hf, hps⟩ := ok_field.mp h
    obtain ⟨d, t, ht, hd⟩ := f.write_append (write ps)
    have hlt : (write ps).length ≤ n := by
      rw [write_cons, Piece.write, List.length_append] at hl
      have : 0 < f.write.length := List.length_pos_of_mem (.head _)
      omega
    rw [write_cons, Piece.write, ht, parseFrom, if_pos (.inl rfl)]
    simp only [if_neg (hd hf), Char.reduceEq, if_false, parseField_write hf (write ps) ht.symm,
      parseFrom_write hps hlt, Option.map_some]

theorem parseFrom_sound : ∀ {n : Nat} {t : Str} {ps : List Piece}, parseFrom n t = some ps → Ok ps ∧ write ps = t
  | n, [], ps, h => by
    cases n <;> cases Option.some.inj h <;> exact ⟨List.forall_mem_nil _, rfl⟩
  | n + 1, c :: t, ps, h => by
    simp only [parseFrom.eq_def (n + 1) (c :: t)] at h
    split at h
    · rename_i hc
      split at h
      · cases h
      · rename_i d t
        split at h
        · rename_i hd
          obtain ⟨ps, hps, rfl⟩ := Option.map_eq_some_iff.mp h
          obtain ⟨ho, rfl⟩ := parseFrom_sound hps
          exact ⟨ho, by simp [Piece.write, hc, hd]⟩
        · split at h
          · cases h
          · rename_i hne
            have hb : c = '\x7b' := hc.resolve_right hne
            split at h
            · cases h
            · rename_i f r hf
              obtain ⟨ps, hps, rfl⟩ := Option.map_eq_some_iff.mp h
              obtain ⟨ho, rfl⟩ := parseFrom_sound hps
              obtain ⟨hf, he⟩ := parseField_sound hf
              exact ⟨ok_field.mpr ⟨hf, ho⟩, by rw [write_cons, Piece.write, ← he, hb]⟩
    · rename_i hc
      obtain ⟨ps, hps, rfl⟩ := Option.map_eq_some_iff.mp h
      obtain ⟨ho, rfl⟩ := parseFrom_sound hps
      exact ⟨ho, by simp [Piece.write, hc]⟩

/-- A text is read as the pieces it is written from, and as no others. -/
theorem parse_eq_some {t : Str} {ps : List Piece} : parse t = some ps ↔ Ok ps ∧ write ps = t := by
  constructor
  · exact parseFrom_sound
  · rintro ⟨h, rfl⟩
    exact parseFrom_write h le_rfl

theorem parse_write {ps : List Piece} (h : Ok ps) : parse (write ps) = some ps := parse_eq_some.mpr ⟨h, rfl⟩

example : parse "a\x7b\x7bb\x7bx!r:>\x7bw\x7d\x7d".toList = some [.lit 'a', .lit '\x7b', .lit 'b',
    .field ⟨['x'], some 'r', some ">\x7bw\x7d".toList⟩] := by decide

/-! ## Taking a placeholder out of the text -/

/-- `"{" + m + "}"`. -/
def placeholder (m : Str) : Str := '\x7b' :: (m ++ ['\x7d'])

/-- `t.replace("{" + m + "}", "")`. -/
def remove (m t : Str) : Str := replace (placeholder m) [] t

/-- A text in which nothing of a field's syntax is found. -/
def Word (m : Str) : Prop := ∀ c ∈ m, c ∉ ['\x7b', '\x7d', ':', '!', '.', '[']

/-- A name that stands for itself: it has no attribute and no index. -/
def IsName (m : Str) : Prop := m ≠ [] ∧ Word m

instance (m : Str) : Decidable (Word m) := inferInstanceAs (Decidable (∀ c ∈ m, _))

instance (m : Str) : Decidable (IsName m) := inferInstanceAs (Decidable (_ ∧ _))

/-- The literal text `{m}`. -/
def literal (m : Str) : List Piece := .lit '\x7b' :: (m.map .lit ++ [.lit '\x7d'])

/-- What is left of a piece that is not part of a literal `{m}`. -/
def cut (m : Str) : Piece → Option Piece
  | .lit c => some (.lit c)
  | .field f => if f = .bare m then none else some (.field (f.mapSpec (remove m)))

/-- What is left of `ps` past its first `skip` pieces: the field `{m}` goes, and so does a literal `{m}`, all
but one brace on each side. -/
def dropFrom (m : Str) : Nat → List Piece → List Piece
  | _, [] => []
  | skip + 1, _ :: ps => dropFrom m skip ps
  | 0, p :: ps =>
    if literal m <+: p :: ps then .field (.bare []) :: dropFrom m (m.length + 1) ps
    else (cut m p).toList ++ dropFrom m 0 ps

def drop (m : Str) (ps : List Piece) : List Piece := dropFrom m 0 ps

theorem Word.notMem {m : Str} (hm : Word m) {c : Char} (h : c ∈ ['\x7b', '\x7d', ':', '!', '.', '['] := by decide) :
    c ∉ m := fun hc => hm c hc h

theorem opened_append {a s : Str} (ha : Word a) : ∀ k, opened k (a ++ s) = opened k s := by
  intro k
  induction a with
  | nil => rfl
  | cons c a ih =>
    have hc := ha c (.head _)
    simp only [List.mem_cons, not_or] at hc
    rw [List.cons_append, opened, if_neg hc.1, if_neg hc.2.1, ih fun x hx => ha x (.tail _ hx)]

theorem opened_placeholder {m s : Str} (hm : Word m) (k : Nat) : opened k (placeholder m ++ s) = opened k s := by
  rw [placeholder, List.cons_append, opened, if_pos rfl, List.append_assoc, opened_append hm]
  rfl

/-- A name is all that stands before the character that ends it. -/
theorem eq_of_isPrefix {c : Char} {r : Str} : ∀ {m n : Str}, c ∉ m → '\x7d' ∉ n → m ++ ['\x7d'] <+: n ++ c :: r →
    m = n ∧ c = '\x7d'
  | [], [], _, _, h => ⟨rfl, (List.cons_prefix_cons.mp h).1.symm⟩
  | [], x :: n, _, hn, h => absurd ((List.cons_prefix_cons.mp h).1 ▸ .head _) hn
  | y :: m, [], hm, _, h => absurd ((List.cons_prefix_cons.mp h).1 ▸ .head _) hm
  | y :: m, x :: n, hm, hn, h => by
    have h := List.cons_prefix_cons.mp h
    obtain ⟨rfl, hc⟩ := eq_of_isPrefix (fun hc => hm (.tail _ hc)) (fun hc => hn (.tail _ hc)) h.2
    exact ⟨by rw [h.1], hc⟩

section

variable {m : Str} (hm : IsName m)

include hm

theorem IsName.of_isPrefix {d : Char} {t : Str} (h : placeholder m <+: '\x7b' :: d :: t) : d ∈ m := by
  obtain ⟨x, n, rfl⟩ := List.exists_cons_of_ne_nil hm.1
  simp only [placeholder, List.cons_append, List.cons_prefix_cons, true_and] at h
  exact h.1 ▸ .head _

omit hm in
theorem remove_brace {c : Char} {t : Str} (h : ¬placeholder m <+: c :: t) : remove m (c :: t) = c :: remove m t :=
  replace_cons h

omit hm in
theorem remove_cons {c : Char} {t : Str} (hc : c ≠ '\x7b') : remove m (c :: t) = c :: remove m t :=
  replace_cons fun h => hc (List.cons_prefix_cons.mp h).1.symm

omit hm in
theorem remove_placeholder (t : Str) : remove m (placeholder m ++ t) = remove m t :=
  replace_match (List.cons_ne_nil _ _)

/-- A format spec is searched on its own, and its braces still match. -/
theorem remove_spec (r : Str) : ∀ {k : Nat} {s : Str}, opened k s = some 0 →
    remove m (s ++ '\x7d' :: r) = remove m s ++ '\x7d' :: remove m r ∧ opened k (remove m s) = some 0
  | k, [], h => ⟨remove_cons (by decide), h⟩
  | k, c :: s, h => by
    by_cases hc : c = '\x7b'
    · subst hc
      by_cases hp : placeholder m <+: '\x7b' :: s
      · obtain ⟨s', hs'⟩ := hp
        have hlt : s'.length < s.length + 1 := by
          have := congrArg List.length hs'
          simp only [placeholder, List.length_append, List.length_cons] at this
          omega
        rw [← hs', opened_placeholder hm.2] at h
        rw [← hs', List.append_assoc, remove_placeholder, remove_placeholder]
        exact remove_spec r h
      · have hp' : ¬placeholder m <+: '\x7b' :: (s ++ '\x7d' :: r) := by
          intro hq
          have hq := (List.cons_prefix_cons.mp hq).2
          have hms : m <+: s :=
            (isPrefix_append_cons (hm.2.notMem (by decide))).mp ((List.prefix_append m _).trans hq)
          obtain ⟨u, rfl⟩ := hms
          cases u with
          | nil =>
            rw [List.append_nil, opened, if_pos rfl, ← List.append_nil m, opened_append hm.2] at h
            cases h
          | cons d u =>
            rw [List.append_assoc, List.prefix_append_right_inj] at hq
            obtain rfl := (List.cons_prefix_cons.mp hq).1
            exact hp (List.cons_prefix_cons.mpr ⟨rfl, (List.prefix_append_right_inj m).mpr ⟨u, rfl⟩⟩)
        rw [opened, if_pos rfl] at h
        obtain ⟨h₁, h₂⟩ := remove_spec r h
        rw [List.cons_append, remove_brace hp', h₁, remove_brace hp]
        exact ⟨rfl, by rw [opened, if_pos rfl, h₂]⟩
    · rw [opened, if_neg hc] at h
      rw [List.cons_append, remove_cons hc, remove_cons hc, opened, if_neg hc]
      split at h
      · rename_i hd
        rw [if_pos hd]
        split at h
        · cases h
        · rename_i hk
          rw [if_neg hk]
          obtain ⟨h₁, h₂⟩ := remove_spec r h
          exact ⟨by rw [h₁, List.cons_append], h₂⟩
      · rename_i hd
        rw [if_neg hd]
        obtain ⟨h₁, h₂⟩ := remove_spec r h
        exact ⟨by rw [h₁, List.cons_append], h₂⟩
termination_by _ s => s.length

/-- A field other than `{m}` stays, with `{m}` taken out of its format spec. -/
theorem remove_field {f : Field} (hf : f.Ok) (hn : Word f.name) (hne : f ≠ .bare m) (r : Str) :
    remove m (f.write ++ r) = (f.mapSpec (remove m)).write ++ remove m r := by
  obtain ⟨n, cv, sp⟩ := f
  have hb : '\x7b' ∉ n := hn.notMem
  have hd : '\x7d' ∉ n := hn.notMem
  -- what stands behind the name, up to the next text that may hold `{m}`
  have head : ∀ {c : Char} {t : Str}, c ∈ ['\x7d', ':', '!'] → (n ≠ m ∨ c ≠ '\x7d') →
      remove m ('\x7b' :: (n ++ c :: t)) = '\x7b' :: (n ++ c :: remove m t) := by
    intro c t hc h
    have hcm : c ∉ m ∧ c ≠ '\x7b' := by
      simp only [List.mem_cons, List.not_mem_nil, or_false] at hc
      obtain rfl | rfl | rfl := hc <;> exact ⟨hm.2.notMem, by decide⟩
    rw [remove_brace fun hp => ?_]
    · rw [remove, placeholder, replace_append_of_head hb, ← placeholder, ← remove, remove_cons hcm.2]
    · obtain ⟨rfl, hc'⟩ := eq_of_isPrefix hcm.1 hd (List.cons_prefix_cons.mp hp).2
      exact h.elim (absurd rfl) (absurd hc')
  cases cv with
  | none =>
    cases sp with
    | none =>
      have : n ≠ m := fun h => hne (by rw [h]; rfl)
      simpa [Field.write, Field.mapSpec] using head (t := r) (by decide) (.inl this)
    | some s =>
      have h := head (t := s ++ '\x7d' :: r) (c := ':') (by decide) (.inr (by decide))
      rw [(remove_spec hm r (hf.spec s rfl)).1] at h
      simpa [Field.write, Field.mapSpec] using h
  | some c =>
    have hc : ∀ {d : Char} {t : Str}, d ∈ ['\x7d', ':'] → remove m (c :: d :: t) = c :: remove m (d :: t) := by
      intro d t hd
      refine remove_brace fun hp => ?_
      obtain rfl : '\x7b' = c := (List.cons_prefix_cons.mp hp).1
      have := hm.of_isPrefix hp
      simp only [List.mem_cons, List.not_mem_nil, or_false] at hd
      obtain rfl | rfl := hd <;> exact hm.2.notMem (by decide) this
    cases sp with
    | none =>
      have h := head (t := c :: '\x7d' :: r) (c := '!') (by decide) (.inr (by decide))
      rw [hc (by decide), remove_cons (c := '\x7d') (by decide)] at h
      simpa [Field.write, Field.mapSpec] using h
    | some s =>
      have h := head (t := c :: ':' :: (s ++ '\x7d' :: r)) (c := '!') (by decide) (.inr (by decide))
      rw [hc (by decide), remove_cons (c := ':') (by decide), (remove_spec hm r (hf.spec s rfl)).1] at h
      simpa [Field.write, Field.mapSpec] using h

omit hm in
/-- A literal `{m}` in the text is one among the pieces. -/
theorem literal_of_isPrefix : ∀ {n : Str} {ps : List Piece}, Word n → n ++ ['\x7d'] <+: write ps →
    n.map Piece.lit ++ [.lit '\x7d'] <+: ps
  | n, [], _, h => by
    cases n <;> simp at h
  | n, .field f :: ps, hn, h => by
    obtain ⟨d, t, ht, -⟩ := f.write_append (write ps)
    rw [write_cons, Piece.write, ht] at h
    cases n with
    | nil => simp at h
    | cons x n => exact absurd ((List.cons_prefix_cons.mp h).1 ▸ .head _) (hn.notMem (c := '\x7b'))
  | [], .lit c :: ps, _, h => by
    have : c = '\x7d' := by
      rw [write_cons, Piece.write] at h
      split at h <;> exact (List.cons_prefix_cons.mp h).1.symm
    simp [this]
  | x :: n, .lit c :: ps, hn, h => by
    have hx := hn x (.head _)
    simp only [List.mem_cons, not_or] at hx
    rw [write_cons, Piece.write] at h
    split at h
    · rename_i hc
      have := (List.cons_prefix_cons.mp h).1
      exact absurd (this ▸ hc) (by simp [hx.1, hx.2.1])
    · have h := List.cons_prefix_cons.mp h
      exact List.cons_prefix_cons.mpr ⟨by rw [h.1], literal_of_isPrefix (fun c hc => hn c (.tail _ hc)) h.2⟩

omit hm in
theorem dropFrom_append (ps : List Piece) : ∀ a : List Piece, dropFrom m a.length (a ++ ps) = drop m ps
  | [] => rfl
  | _ :: a => dropFrom_append ps a

omit hm in
theorem drop_literal (ps : List Piece) : drop m (literal m ++ ps) = .field (.bare []) :: drop m ps := by
  have hl : (m.map Piece.lit ++ [Piece.lit '\x7d']).length = m.length + 1 := by simp
  rw [drop, literal, List.cons_append, dropFrom, ← List.cons_append, ← literal, if_pos (List.prefix_append _ ps), ← hl,
    dropFrom_append]

omit hm in
theorem drop_cons {p : Piece} {ps : List Piece} (h : ¬literal m <+: p :: ps) :
    drop m (p :: ps) = (cut m p).toList ++ drop m ps := by
  rw [drop, dropFrom, if_neg h, ← drop]

omit hm in
theorem write_lits : ∀ {n : Str} (ps : List Piece), Word n → write (n.map .lit ++ ps) = n ++ write ps
  | [], _, _ => rfl
  | c :: n, ps, h => by
    have hc := h c (.head _)
    simp only [List.mem_cons, not_or] at hc
    rw [List.map_cons, List.cons_append, write_cons, write_lits ps fun x hx => h x (.tail _ hx), Piece.write,
      if_neg (by simp [hc.1, hc.2.1]), List.cons_append, List.nil_append, List.cons_append]

omit hm in
/-- The pieces from the left: a literal `{m}`, or a piece that is not part of one. -/
@[elab_as_elim]
theorem drop_induction {P : List Piece → Prop} (nil : P []) (literal : ∀ ps, P ps → P (literal m ++ ps))
    (cons : ∀ p ps, ¬FormatString.literal m <+: p :: ps → P ps → P (p :: ps)) : ∀ ps, P ps
  | [] => nil
  | p :: ps => by
    by_cases h : FormatString.literal m <+: p :: ps
    · obtain ⟨ps', hps⟩ := h
      have hlt : ps'.length < ps.length + 1 := by
        have := congrArg List.length hps
        simp only [FormatString.literal, List.length_append, List.length_cons] at this
        omega
      exact hps ▸ literal ps' (drop_induction nil literal cons ps')
    · exact cons p ps h (drop_induction nil literal cons ps)
termination_by ps => ps.length

omit hm in
theorem fields_append_literal (ps : List Piece) : fields (literal m ++ ps) = fields ps := by
  have : ∀ n : Str, fields (n.map .lit ++ .lit '\x7d' :: ps) = fields ps := fun n => by
    induction n with
    | nil => rfl
    | cons c n ih => exact ih
  rw [literal, List.cons_append, fields_lit, List.append_assoc]
  exact this m

/-- What a format string is without the text `{m}`. -/
theorem remove_write {ps : List Piece} : Ok ps → (∀ f ∈ fields ps, Word f.name) →
    remove m (write ps) = write (drop m ps) := by
  induction ps using drop_induction (m := m) with
  | nil => exact fun _ _ => rfl
  | literal ps ih =>
    intro ho hw
    rw [Ok, fields_append_literal] at ho
    rw [fields_append_literal] at hw
    have hwr : write (literal m ++ ps) = '\x7b' :: (placeholder m ++ '\x7d' :: write ps) := by
      simp [literal, placeholder, Piece.write, write_lits _ hm.2]
    rw [hwr, drop_literal, remove_brace fun hp => ?_, remove_placeholder, remove_cons (c := '\x7d') (by decide),
      ih ho hw, write_cons]
    · rfl
    · exact hm.2.notMem (by decide) (hm.of_isPrefix hp)
  | cons p ps hl ih =>
    intro ho hw
    rw [drop_cons hl]
    cases p with
    | lit c =>
      have ih := ih (ok_lit.mp ho) hw
      rw [write_cons, cut, Option.toList_some, List.singleton_append, write_cons, Piece.write]
      split
      · rename_i hc
        obtain rfl | rfl := hc
        · rw [List.cons_append, List.cons_append, List.nil_append, remove_brace fun hp => ?_,
            remove_brace fun hp => ?_, ih]
          · rfl
          · have := literal_of_isPrefix hm.2 (List.cons_prefix_cons.mp hp).2
            exact hl (List.cons_prefix_cons.mpr ⟨rfl, this⟩)
          · exact hm.2.notMem (by decide) (hm.of_isPrefix hp)
        · rw [List.cons_append, List.cons_append, List.nil_append, remove_cons (by decide), remove_cons (by decide), ih]
          rfl
      · rename_i hc
        rw [List.cons_append, List.nil_append, remove_cons fun h => hc (.inl h), ih]
        rfl
    | field f =>
      obtain ⟨hf, ho⟩ := ok_field.mp ho
      have ih := ih ho fun f hf => hw f (.tail _ hf)
      rw [write_cons, Piece.write, cut]
      split
      · rename_i he
        rw [he, Option.toList_none, List.nil_append, ← ih]
        exact remove_placeholder (write ps)
      · rename_i he
        rw [remove_field hm hf (hw f (.head _)) he, Option.toList_some, List.singleton_append, write_cons, ih]
        rfl

omit hm in
/-- Where no literal `{m}` stands, only the fields `{m}` go. -/
theorem drop_eq_filterMap : ∀ {ps : List Piece}, ¬literal m <:+: ps → drop m ps = ps.filterMap (cut m)
  | [], _ => rfl
  | p :: ps, h => by
    rw [List.infix_cons_iff, not_or] at h
    rw [drop_cons h.1, drop_eq_filterMap h.2, List.filterMap_cons]
    cases cut m p <;> rfl

omit hm in
/-- A literal `{m}` leaves a field without a name. -/
theorem bare_nil_mem_drop : ∀ {ps : List Piece}, literal m <:+: ps → .field (.bare []) ∈ drop m ps
  | [], h => by
    have := List.infix_nil.mp h
    cases this
  | p :: ps, h => by
    by_cases hp : literal m <+: p :: ps
    · obtain ⟨ps', hps⟩ := hp
      rw [← hps, drop_literal]
      exact .head _
    · rw [drop_cons hp]
      exact List.mem_append_right _ (bare_nil_mem_drop ((List.infix_cons_iff.mp h).resolve_left hp))

omit hm in
theorem cut_field {f : Field} (h : f ≠ .bare m) : cut m (.field f) = some (.field (f.mapSpec (remove m))) := if_neg h

omit hm in
theorem cut_bare {f : Field} (h : f = .bare m) : cut m (.field f) = none := if_pos h

omit hm in
theorem mem_fields_drop_of_not {f : Field} {ps : List Piece} (hl : ¬literal m <:+: ps) (h : f ∈ fields (drop m ps)) :
    ∃ g ∈ fields ps, g ≠ .bare m ∧ f = g.mapSpec (remove m) := by
  rw [drop_eq_filterMap hl, mem_fields, List.mem_filterMap] at h
  obtain ⟨p, hp, h⟩ := h
  cases p with
  | lit c => cases h
  | field g =>
    by_cases hg : g = .bare m
    · rw [cut_bare hg] at h
      cases h
    · rw [cut_field hg] at h
      exact ⟨g, mem_fields.mpr hp, hg, (Piece.field.inj (Option.some.inj h)).symm⟩

omit hm in
/-- The fields that are left. -/
theorem mem_fields_drop {f : Field} {ps : List Piece} : f ∈ fields (drop m ps) →
    f = .bare [] ∨ ∃ g ∈ fields ps, g ≠ .bare m ∧ f = g.mapSpec (remove m) := by
  induction ps using drop_induction (m := m) with
  | nil => exact fun h => absurd h List.not_mem_nil
  | literal ps ih =>
    rw [drop_literal, fields_field, fields_append_literal, List.mem_cons]
    exact Or.rec .inl ih
  | cons p ps hl ih =>
    rw [drop_cons hl]
    cases p with
    | lit c => exact ih
    | field g =>
      by_cases hg : g = .bare m
      · rw [cut, if_pos hg, Option.toList_none, List.nil_append, fields_field]
        exact fun h => (ih h).imp_right fun ⟨g', hm, h⟩ => ⟨g', .tail _ hm, h⟩
      · rw [cut_field hg, Option.toList_some, List.singleton_append, fields_field, fields_field, List.mem_cons]
        rintro (rfl | h)
        · exact .inr ⟨g, .head _, hg, rfl⟩
        · exact (ih h).imp_right fun ⟨g', hm, h⟩ => ⟨g', .tail _ hm, h⟩

omit hm in
/-- A field other than `{m}` is left, its format spec searched too. -/
theorem mapSpec_mem_drop {f : Field} (hf : f ≠ .bare m) {ps : List Piece} : f ∈ fields ps →
    f.mapSpec (remove m) ∈ fields (drop m ps) := by
  induction ps using drop_induction (m := m) with
  | nil => exact fun h => absurd h List.not_mem_nil
  | literal ps ih =>
    rw [drop_literal, fields_field, fields_append_literal]
    exact fun h => .tail _ (ih h)
  | cons p ps hl ih =>
    rw [drop_cons hl]
    cases p with
    | lit c => exact ih
    | field g =>
      rw [fields_field, List.mem_cons]
      rintro (rfl | h)
      · rw [cut_field hf]
        exact .head _
      · by_cases hg : g = .bare m
        · rw [cut, if_pos hg]
          exact ih h
        · rw [cut_field hg]
          exact .tail _ (ih h)

theorem ok_drop {ps : List Piece} (h : Ok ps) : Ok (drop m ps) := by
  intro f hf
  obtain rfl | ⟨g, hg, -, rfl⟩ := mem_fields_drop hf
  · exact ⟨rfl, fun s hs => by cases hs⟩
  · refine ⟨(h g hg).name, fun s hs => ?_⟩
    obtain ⟨s', hs', rfl⟩ := Option.map_eq_some_iff.mp hs
    exact (remove_spec hm [] ((h g hg).spec s' hs')).2

theorem parse_remove {t : Str} {ps : List Piece} (h : parse t = some ps) (hw : ∀ f ∈ fields ps, Word f.name) :
    parse (remove m t) = some (drop m ps) := by
  obtain ⟨ho, rfl⟩ := parse_eq_some.mp h
  rw [remove_write hm ho hw, parse_write (ok_drop hm ho)]

end

end FormatString
