import KCore.Lib.JsonIndent

/-!
# Python values as JSON

`dump` is `json.dump` with an indentation of 4, for any Python value: the text that it has
written when it returns or raises. The values of a JSON text are written whole
(`dump_ofJson`). What is written of a dictionary that does not get written whole, or of one
that does up to any place before its end, leaves its first bracket open
(`unclosed_of_isPrefix`).
-/

open Text

namespace Py

/-- A key of a dictionary; `object` is one that JSON has no key for. -/
inductive Key (N : Type*)
  | str (s : Str)
  | num (n : N)
  | bool (b : Bool)
  | null
  | object
  deriving DecidableEq

/-- A value; `object` is one that cannot be serialised. -/
inductive Value (N : Type*)
  | null
  | bool (b : Bool)
  | num (n : N)
  | str (s : Str)
  | arr (vs : List (Value N))
  | tuple (vs : List (Value N))
  | obj (es : List (Key N × Value N))
  | object

variable {N : Type*}

mutual

/-- What `json.load` gives for a JSON value. -/
def ofJson : Json N → Value N
  | .null => .null
  | .bool b => .bool b
  | .num n => .num n
  | .str s => .str s
  | .arr vs => .arr (ofItems vs)
  | .obj es => .obj (ofEntries es)

def ofItems : List (Json N) → List (Value N)
  | [] => []
  | v :: vs => ofJson v :: ofItems vs

def ofEntries : List (Str × Json N) → List (Key N × Value N)
  | [] => []
  | (k, v) :: es => (.str k, ofJson v) :: ofEntries es

end

section
variable [Numeral N]

/-- The text of a key, `none` where it raises. -/
def Key.text : Key N → Option Str
  | .str s => some s
  | .num n => some (Numeral.repr n)
  | .bool true => some "true".toList
  | .bool false => some "false".toList
  | .null => some "null".toList
  | .object => none

/-- What stands between two parts of a container. -/
def separator (level : ℕ) (isFirst : Bool) : Str := if isFirst then [] else ',' :: Json.newline 4 level

/-- A container around the text of its parts, which may break off. -/
def container (level : ℕ) (opening closing : Char) (empty : Bool) (parts : Str × Bool) : Str × Bool :=
  if empty then ([opening, closing], true)
  else
    (opening :: (Json.newline 4 (level + 1) ++ (parts.1 ++ if parts.2 then Json.newline 4 level ++ [closing] else [])),
      parts.2)

mutual

/-- The text that is written of a value, and whether that is all of it. -/
def dump (level : ℕ) : Value N → Str × Bool
  | .null => ("null".toList, true)
  | .bool true => ("true".toList, true)
  | .bool false => ("false".toList, true)
  | .num n => (Numeral.repr n, true)
  | .str s => (Json.quote s, true)
  | .arr vs | .tuple vs => container level '[' ']' vs.isEmpty (dumpItems (level + 1) true vs)
  | .obj es => container level '\x7b' '\x7d' es.isEmpty (dumpEntries (level + 1) true es)
  | .object => ([], false)

def dumpItems (level : ℕ) (isFirst : Bool) : List (Value N) → Str × Bool
  | [] => ([], true)
  | v :: vs =>
    let (t, ok) := dump level v
    let (r, ok') := if ok then dumpItems level false vs else ([], false)
    (separator level isFirst ++ (t ++ r), ok')

/-- A key is looked at before the separator is written. -/
def dumpEntries (level : ℕ) (isFirst : Bool) : List (Key N × Value N) → Str × Bool
  | [] => ([], true)
  | (k, v) :: es =>
    match k.text with
    | none => ([], false)
    | some key =>
      let (t, ok) := dump level v
      let (r, ok') := if ok then dumpEntries level false es else ([], false)
      (separator level isFirst ++ (Json.quote key ++ (": ".toList ++ (t ++ r))), ok')

end

theorem dump_arr (level : ℕ) (vs : List (Value N)) :
    dump level (.arr vs) = container level '[' ']' vs.isEmpty (dumpItems (level + 1) true vs) := rfl

theorem dump_obj (level : ℕ) (es : List (Key N × Value N)) :
    dump level (.obj es) = container level '\x7b' '\x7d' es.isEmpty (dumpEntries (level + 1) true es) := rfl

/-! ## JSON values -/

/-- A container of parts that are written whole. -/
theorem container_eq (level : ℕ) (opening closing : Char) (x : Str) (parts : List Str) :
    container level opening closing false
      (x ++ parts.flatMap (',' :: Json.newline 4 (level + 1) ++ ·), true) =
        (Json.indentedBy 4 level opening closing (x :: parts), true) := by
  have hjoin := Json.join_append_cons (',' :: Json.newline 4 (level + 1)) x parts []
  rw [List.nil_append, List.flatMap_nil, List.nil_append] at hjoin
  rw [container, Json.indentedBy, hjoin]
  rfl

mutual

/-- A JSON value is written whole. -/
theorem dump_ofJson (level : ℕ) : ∀ v : Json N, dump level (ofJson v) = (Json.dumpsIndent level v, true)
  | .null | .bool true | .bool false | .num _ | .str _ => rfl
  | .arr [] | .obj [] => rfl
  | .arr (v :: vs) => by
    rw [ofJson, ofItems, dump_arr, dumpItems, dump_ofJson (level + 1) v]
    dsimp only
    rw [if_pos rfl, dumpItems_ofItems (level + 1) vs]
    exact container_eq level '[' ']' (Json.dumpsIndent (level + 1) v) (Json.indentItems (level + 1) vs)
  | .obj ((k, v) :: es) => by
    rw [ofJson, ofEntries, dump_obj, dumpEntries, dump_ofJson (level + 1) v]
    dsimp only [Key.text]
    rw [if_pos rfl, dumpEntries_ofEntries (level + 1) es]
    have h := container_eq level '\x7b' '\x7d' (Json.quote k ++ (": ".toList ++ Json.dumpsIndent (level + 1) v))
      (Json.indentEntries (level + 1) es)
    simp only [List.append_assoc] at h
    exact h

theorem dumpItems_ofItems (level : ℕ) : ∀ vs : List (Json N), dumpItems level false (ofItems vs) =
    ((Json.indentItems level vs).flatMap (',' :: Json.newline 4 level ++ ·), true)
  | [] => rfl
  | v :: vs => by
    rw [ofItems, dumpItems, dump_ofJson level v]
    dsimp only
    rw [if_pos rfl, dumpItems_ofItems level vs]
    simp [separator, Json.indentItems]

theorem dumpEntries_ofEntries (level : ℕ) : ∀ es : List (Str × Json N), dumpEntries level false (ofEntries es) =
    ((Json.indentEntries level es).flatMap (',' :: Json.newline 4 level ++ ·), true)
  | [] => rfl
  | (k, v) :: es => by
    rw [ofEntries, dumpEntries, dump_ofJson level v]
    dsimp only [Key.text]
    rw [if_pos rfl, dumpEntries_ofEntries level es]
    simp [separator, Json.indentEntries]

end

/-! ## Open brackets -/

open Json (Mode scan scanChar scan_append scan_plain scan_quote marks)

/-- A scan above other brackets. -/
theorem scanChar_frame {s s' : List Char × Mode} {c : Char} (h : scanChar s c = some s') (base : List Char) :
    scanChar (s.1 ++ base, s.2) c = some (s'.1 ++ base, s'.2) := by
  obtain ⟨st, m⟩ := s
  cases m with
  | esc =>
    cases h
    rfl
  | str =>
    cases h
    rfl
  | out =>
    simp only [scanChar] at h ⊢
    by_cases hq : c = '"'
    · rw [if_pos hq] at h ⊢
      cases h
      rfl
    rw [if_neg hq] at h ⊢
    by_cases ho : c = '\x7b'
    · rw [if_pos ho] at h ⊢
      cases h
      rfl
    rw [if_neg ho] at h ⊢
    by_cases hb : c = '['
    · rw [if_pos hb] at h ⊢
      cases h
      rfl
    rw [if_neg hb] at h ⊢
    by_cases hc : c = '\x7d' ∨ c = ']'
    · rw [if_pos hc] at h ⊢
      cases st with
      | nil => cases h
      | cons d st =>
        by_cases hd : some d = some c
        · rw [List.head?_cons, if_pos hd] at h
          rw [List.cons_append, List.head?_cons, if_pos hd]
          cases h
          rfl
        · rw [List.head?_cons, if_neg hd] at h
          cases h
    · rw [if_neg hc] at h ⊢
      cases h
      rfl

theorem scan_frame : ∀ {t : Str} {s s' : List Char × Mode}, scan s t = some s' → ∀ base : List Char,
    scan (s.1 ++ base, s.2) t = some (s'.1 ++ base, s'.2)
  | [], _, _, h, _ => by
    cases h
    rfl
  | c :: t, s, s', h, base => by
    obtain ⟨s₁, h₁, h₂⟩ := Option.bind_eq_some_iff.mp h
    rw [scan, scanChar_frame h₁ base, Option.bind_some]
    exact scan_frame h₂ base

/-- A text closes what it opens. -/
def Balanced (t : Str) : Prop := scan ([], .out) t = some ([], .out)

/-- A text closes nothing but what it opens. -/
def Scans (t : Str) : Prop := (scan ([], .out) t).isSome = true

theorem Balanced.scans {t : Str} (h : Balanced t) : Scans t := by
  rw [Scans, h]
  rfl

theorem Balanced.append {t u : Str} (ht : Balanced t) (hu : Balanced u) : Balanced (t ++ u) := by
  rw [Balanced, scan_append, ht]
  exact hu

theorem Balanced.scans_append {t u : Str} (ht : Balanced t) (hu : Scans u) : Scans (t ++ u) := by
  rw [Scans, scan_append, ht]
  exact hu

theorem balanced_plain {t : Str} (h : ∀ c ∈ t, c ∉ marks) : Balanced t := scan_plain [] h

theorem Scans.of_isPrefix {t p : Str} (h : Scans t) (hp : p <+: t) : Scans p := by
  obtain ⟨r, rfl⟩ := hp
  rw [Scans, scan_append] at h
  rw [Scans]
  cases hs : scan ([], .out) p with
  | none => simp [hs] at h
  | some s => rfl

/-- A text after an opening bracket. -/
theorem scan_opening {o c : Char} (hoc : o = '[' ∧ c = ']' ∨ o = '\x7b' ∧ c = '\x7d') (t : Str) :
    scan ([], .out) (o :: t) = scan ([c], .out) t := by
  rcases hoc with ⟨rfl, rfl⟩ | ⟨rfl, rfl⟩ <;> rfl

theorem Scans.opening {o c : Char} (hoc : o = '[' ∧ c = ']' ∨ o = '\x7b' ∧ c = '\x7d') {t : Str} (h : Scans t) :
    Scans (o :: t) ∧ ¬Balanced (o :: t) := by
  obtain ⟨s, hs⟩ := Option.isSome_iff_exists.mp h
  have hframe := scan_frame hs [c]
  rw [Scans, Balanced, scan_opening hoc]
  rw [show scan ([c], .out) t = some (s.1 ++ [c], s.2) from hframe]
  exact ⟨rfl, by simp⟩

theorem Balanced.closing {o c : Char} (hoc : o = '[' ∧ c = ']' ∨ o = '\x7b' ∧ c = '\x7d') {t : Str} (h : Balanced t) :
    Balanced (o :: (t ++ [c])) := by
  rw [Balanced, scan_opening hoc, scan_append, show scan ([c], .out) t = some ([c], .out) from scan_frame h [c]]
  rcases hoc with ⟨rfl, rfl⟩ | ⟨rfl, rfl⟩ <;> rfl

theorem balanced_newline (level : ℕ) : Balanced (Json.newline 4 level) := balanced_plain fun c hc => by
  rcases List.mem_cons.mp hc with rfl | hc
  · decide
  · rw [(List.mem_replicate.mp hc).2]
    decide

theorem balanced_separator (level : ℕ) (isFirst : Bool) : Balanced (separator level isFirst) := by
  cases isFirst with
  | true => rfl
  | false => exact (balanced_plain (t := [',']) (by decide)).append (balanced_newline level)

/-- What is written scans, and is balanced where it is all. -/
def Sound (r : Str × Bool) : Prop := Scans r.1 ∧ (r.2 = true → Balanced r.1)

theorem Sound.of_balanced {r : Str × Bool} (h : Balanced r.1) : Sound r := ⟨h.scans, fun _ => h⟩

theorem sound_nil (ok : Bool) : Sound ([], ok) := .of_balanced rfl

/-- A text after one that is balanced. -/
theorem Sound.append {t : Str} {r : Str × Bool} (ht : Balanced t) (hr : Sound r) : Sound (t ++ r.1, r.2) :=
  ⟨ht.scans_append hr.1, fun h => ht.append (hr.2 h)⟩

/-- A text, and another one where the first is all. -/
theorem Sound.bind {r r' : Str × Bool} (hr : Sound r) (hr' : Sound r') :
    Sound (r.1 ++ (if r.2 then r' else ([], false)).1, (if r.2 then r' else ([], false)).2) := by
  obtain ⟨t, ok⟩ := r
  cases ok with
  | true => exact Sound.append (hr.2 rfl) hr'
  | false =>
    show Sound (t ++ [], false)
    rw [List.append_nil]
    exact ⟨hr.1, fun h => by cases h⟩

/-- A container without its closing bracket, where that has been written. -/
theorem container_split (o c : Char) (level : ℕ) (empty : Bool) {parts : Str × Bool} (h : Sound parts) :
    ∃ body, Scans body ∧ ((container level o c empty parts).2 = true → Balanced body) ∧
      (container level o c empty parts).1 = o :: (body ++ if (container level o c empty parts).2 then [c] else []) := by
  cases empty with
  | true => exact ⟨[], rfl, fun _ => rfl, rfl⟩
  | false =>
    obtain ⟨t, ok⟩ := parts
    cases ok with
    | true =>
      have hb : Balanced (Json.newline 4 (level + 1) ++ (t ++ Json.newline 4 level)) :=
        (balanced_newline (level + 1)).append ((h.2 rfl).append (balanced_newline level))
      exact ⟨_, hb.scans, fun _ => hb, by simp [container]⟩
    | false =>
      refine ⟨Json.newline 4 (level + 1) ++ t, (balanced_newline (level + 1)).scans_append h.1, fun h => ?_, ?_⟩
      · cases h
      · simp [container]

theorem sound_container {o c : Char} (hoc : o = '[' ∧ c = ']' ∨ o = '\x7b' ∧ c = '\x7d') (level : ℕ) (empty : Bool)
    {parts : Str × Bool} (h : Sound parts) : Sound (container level o c empty parts) := by
  obtain ⟨body, hs, hb, heq⟩ := container_split o c level empty h
  rw [Sound, heq]
  cases hok : (container level o c empty parts).2 with
  | true =>
    rw [if_pos rfl]
    exact ⟨((hb hok).closing hoc).scans, fun _ => (hb hok).closing hoc⟩
  | false =>
    rw [if_neg Bool.false_ne_true, List.append_nil]
    exact ⟨(hs.opening hoc).1, fun h => by cases h⟩

mutual

theorem sound_dump (level : ℕ) : ∀ v : Value N, Sound (dump level v)
  | .null => .of_balanced (show Balanced "null".toList from balanced_plain (by decide))
  | .bool true => .of_balanced (show Balanced "true".toList from balanced_plain (by decide))
  | .bool false => .of_balanced (show Balanced "false".toList from balanced_plain (by decide))
  | .num n => .of_balanced (balanced_plain fun c hc => Json.numeral_not_mark c (Numeral.chars n c hc))
  | .str s => .of_balanced (scan_quote [] s)
  | .arr vs => sound_container (.inl ⟨rfl, rfl⟩) level _ (sound_dumpItems (level + 1) true vs)
  | .tuple vs => sound_container (.inl ⟨rfl, rfl⟩) level _ (sound_dumpItems (level + 1) true vs)
  | .obj es => sound_container (.inr ⟨rfl, rfl⟩) level _ (sound_dumpEntries (level + 1) true es)
  | .object => sound_nil false

theorem sound_dumpItems (level : ℕ) (isFirst : Bool) : ∀ vs : List (Value N), Sound (dumpItems level isFirst vs)
  | [] => sound_nil true
  | v :: vs =>
    Sound.append (balanced_separator level isFirst) ((sound_dump level v).bind (sound_dumpItems level false vs))

theorem sound_dumpEntries (level : ℕ) (isFirst : Bool) :
    ∀ es : List (Key N × Value N), Sound (dumpEntries level isFirst es)
  | [] => sound_nil true
  | (k, v) :: es => by
    rw [dumpEntries]
    cases k.text with
    | none => exact sound_nil false
    | some key =>
      have hbind := (sound_dump level v).bind (sound_dumpEntries level false es)
      have hkey : Balanced (Json.quote key ++ ": ".toList) :=
        Balanced.append (scan_quote [] key) (balanced_plain (by decide))
      have h := Sound.append (balanced_separator level isFirst) (Sound.append hkey hbind)
      simp only [List.append_assoc] at h
      exact h

end

/-- What was written of a dictionary before its end leaves its bracket open, if anything was. -/
theorem unclosed_of_isPrefix (level : ℕ) {es : List (Key N × Value N)} {p : Str}
    (hp : p <+: (dump level (.obj es)).1) (h : (dump level (.obj es)).2 = true → p ≠ (dump level (.obj es)).1) :
    p = [] ∨ ¬Balanced p := by
  have hsplit := container_split '\x7b' '\x7d' level es.isEmpty (sound_dumpEntries (level + 1) true es)
  obtain ⟨body, hs, -, heq⟩ := hsplit
  have heq : (dump level (.obj es)).1 = '\x7b' :: (body ++ if (dump level (.obj es)).2 then ['\x7d'] else []) := heq
  rw [heq] at hp h
  cases p with
  | nil => exact .inl rfl
  | cons x p =>
    obtain ⟨rfl, hp⟩ := List.cons_prefix_cons.mp hp
    have hbody : p <+: body := by
      cases hok : (dump level (.obj es)).2 with
      | true =>
        rw [hok] at hp h
        refine (List.prefix_concat_iff.mp (by simpa using hp)).resolve_left fun hall => h rfl ?_
        rw [hall]
        rfl
      | false => simpa [hok] using hp
    exact .inr ((hs.of_isPrefix hbody).opening (.inr ⟨rfl, rfl⟩)).2

end

end Py
