import KCore.Lib.PyJson

/-!
# Reading JSON texts

`Reader` is what `json.load` does for a program that reads back what it has written:
it gives the value of a serialisation, and refuses a text with a bracket or a string left
open. `Reader.canonical` is one. The spaces of an indented serialisation do not matter for what it
says (`respace_dumpsIndent`), so it determines the value (`dumpsIndent_injective`).
-/

open Text

namespace Json

variable {N : Type*} [Numeral N]

/-! ## Spaces -/

/-- A text without line breaks and indentation: one space after each comma and colon outside strings. -/
def respace : Mode → Str → Str
  | _, [] => []
  | .esc, c :: t => c :: respace .str t
  | .str, c :: t => c :: respace (if c = '\\' then .esc else if c = '"' then .out else .str) t
  | .out, c :: t =>
    if c = '"' then c :: respace .str t
    else if c = '\n' ∨ c = ' ' then respace .out t
    else if c = ',' ∨ c = ':' then c :: ' ' :: respace .out t
    else c :: respace .out t

/-- The characters that matter to `respace` outside strings. -/
def spacing : List Char := ['"', '\n', ' ', ',', ':']

theorem respace_plain (r : Str) : ∀ {t : Str}, (∀ c ∈ t, c ∉ spacing) → respace .out (t ++ r) = t ++ respace .out r
  | [], _ => rfl
  | c :: t, h => by
    have hc := h c (.head _)
    simp only [spacing, List.mem_cons, List.not_mem_nil, or_false, not_or] at hc
    simp only [List.cons_append, respace, hc, or_self, ite_false]
    rw [respace_plain r fun d hd => h d (.tail _ hd)]

theorem respace_newline (width level : ℕ) (r : Str) : respace .out (newline width level ++ r) = respace .out r := by
  have hspaces (n : ℕ) : respace .out (List.replicate n ' ' ++ r) = respace .out r := by
    induction n with
    | zero => rfl
    | succ n ih => exact ih
  exact hspaces (width * level)

theorem respace_escUnit (n : ℕ) (r : Str) : respace .str (escUnit n ++ r) = escUnit n ++ respace .str r := by
  simp only [escUnit, List.cons_append, List.nil_append, respace, digitChar_ne, ite_true, ite_false]

theorem respace_escape (r : Str) : ∀ s : Str, respace .str (escape s ++ r) = escape s ++ respace .str r
  | [] => rfl
  | c :: s => by
    have hc (r : Str) : respace .str (escChar c ++ r) = escChar c ++ respace .str r := by
      rcases escChar_cases c with ⟨h, hq, hb⟩ | ⟨e, -, -, h⟩ | ⟨n, h⟩ | ⟨n, m, h⟩
      · simp only [h, List.singleton_append, respace, hq, hb, ite_false]
      · simp only [h, List.cons_append, List.nil_append, respace, ite_true]
      · rw [h, respace_escUnit]
      · rw [h, List.append_assoc, respace_escUnit, respace_escUnit, List.append_assoc]
    rw [escape_cons, List.append_assoc, hc, respace_escape r s, List.append_assoc]

theorem respace_quote (s r : Str) : respace .out (quote s ++ r) = quote s ++ respace .out r := by
  have h : respace .str (escape s ++ ('"' :: r)) = escape s ++ ('"' :: respace .out r) := by
    rw [respace_escape]
    rfl
  simpa [quote, respace] using h

theorem numeral_not_spacing : ∀ c ∈ "0123456789+-.e".toList, c ∉ spacing := by decide

/-- A separator and what comes after it. -/
theorem respace_separator (level : ℕ) (t : Str) :
    respace .out (',' :: newline 4 level ++ t) = ", ".toList ++ respace .out t := by
  have h : respace .out (',' :: (newline 4 level ++ t)) = ',' :: ' ' :: respace .out (newline 4 level ++ t) := rfl
  rw [List.cons_append, h, respace_newline]
  rfl

/-- Parts between brackets, the first one after a line break. -/
theorem respace_indented {o c : Char} (ho : o ∉ spacing) (hc : c ∉ spacing) (level : ℕ) {x y : Str}
    {parts parts' : List Str} (hx : ∀ r, respace .out (x ++ r) = y ++ respace .out r)
    (hparts : ∀ r, respace .out (parts.flatMap (',' :: newline 4 (level + 1) ++ ·) ++ r) =
      parts'.flatMap (", ".toList ++ ·) ++ respace .out r) (r : Str) :
    respace .out (indentedBy 4 level o c (x :: parts) ++ r) =
      o :: (join ", ".toList (y :: parts') ++ [c]) ++ respace .out r := by
  have hsingle {d : Char} (hd : d ∉ spacing) (r : Str) : respace .out (d :: r) = d :: respace .out r :=
    respace_plain r (t := [d]) fun x hx => List.mem_singleton.mp hx ▸ hd
  have hjoin := join_append_cons (',' :: newline 4 (level + 1)) x parts []
  have hjoin' := join_append_cons ", ".toList y parts' []
  rw [List.nil_append, List.flatMap_nil, List.nil_append] at hjoin hjoin'
  rw [indentedBy, if_neg (by simp), hjoin, hjoin']
  simp only [List.cons_append, List.append_assoc, List.nil_append] at hparts ⊢
  rw [hsingle ho, respace_newline, hx, hparts, respace_newline, hsingle hc]

mutual

theorem respace_dumpsIndent (level : ℕ) : ∀ (v : Json N) (r : Str),
    respace .out (dumpsIndent level v ++ r) = dumps v ++ respace .out r
  | .null, r => respace_plain r (t := "null".toList) (by decide)
  | .bool true, r => respace_plain r (t := "true".toList) (by decide)
  | .bool false, r => respace_plain r (t := "false".toList) (by decide)
  | .num n, r => respace_plain r fun c hc => numeral_not_spacing c (Numeral.chars n c hc)
  | .str s, r => respace_quote s r
  | .arr [], r => respace_plain r (t := ['[', ']']) (by decide)
  | .obj [], r => respace_plain r (t := ['\x7b', '\x7d']) (by decide)
  | .arr (v :: vs), r =>
    respace_indented (by decide) (by decide) level (respace_dumpsIndent (level + 1) v)
      (respace_indentItems (level + 1) vs) r
  | .obj ((k, v) :: es), r => by
    refine respace_indented (by decide) (by decide) level (fun r => ?_) (respace_indentEntries (level + 1) es) r
    simp only [List.append_assoc]
    rw [respace_quote, show respace .out (": ".toList ++ (dumpsIndent (level + 1) v ++ r)) =
      ": ".toList ++ respace .out (dumpsIndent (level + 1) v ++ r) from rfl, respace_dumpsIndent (level + 1) v r]

theorem respace_indentItems (level : ℕ) : ∀ (vs : List (Json N)) (r : Str),
    respace .out ((indentItems level vs).flatMap (',' :: newline 4 level ++ ·) ++ r) =
      (dumpsItems vs).flatMap (", ".toList ++ ·) ++ respace .out r
  | [], _ => rfl
  | v :: vs, r => by
    rw [indentItems, dumpsItems, List.flatMap_cons, List.flatMap_cons, List.append_assoc, List.append_assoc,
      respace_separator, respace_dumpsIndent level v, respace_indentItems level vs r]
    simp only [List.append_assoc]

theorem respace_indentEntries (level : ℕ) : ∀ (es : List (Str × Json N)) (r : Str),
    respace .out ((indentEntries level es).flatMap (',' :: newline 4 level ++ ·) ++ r) =
      (dumpsEntries es).flatMap (", ".toList ++ ·) ++ respace .out r
  | [], _ => rfl
  | (k, v) :: es, r => by
    rw [indentEntries, dumpsEntries, List.flatMap_cons, List.flatMap_cons]
    simp only [List.append_assoc]
    rw [respace_separator, respace_quote, show respace .out (": ".toList ++ (dumpsIndent level v ++ _)) =
      ": ".toList ++ respace .out (dumpsIndent level v ++ _) from rfl, respace_dumpsIndent level v,
      respace_indentEntries level es r]

end

/-- An indented serialisation determines the value. -/
theorem dumpsIndent_injective {v w : Json N} (h : dumpsIndent 0 v = dumpsIndent 0 w) : v = w := by
  have hv := respace_dumpsIndent 0 v []
  have hw := respace_dumpsIndent 0 w []
  rw [h, hw] at hv
  have hnil : Delim (respace .out []) := fun _ hc => by cases hc
  exact (dumps_append_inj v w hnil hnil hv.symm).1

theorem dumpsIndent_ne_nil (v : Json N) : dumpsIndent 0 v ≠ [] := by
  intro h
  have hv := respace_dumpsIndent 0 v []
  obtain ⟨c, t, hc, -⟩ := dumps_head v
  rw [h, hc] at hv
  cases hv

theorem balanced_dumpsIndent (v : Json N) : Py.Balanced (dumpsIndent 0 v) := by
  have h := (Py.sound_dump 0 (Py.ofJson v)).2
  rw [Py.dump_ofJson] at h
  exact h rfl

/-! ## Readers -/

/-- What a program relies on of `json.load`. -/
structure Reader (N : Type*) [Numeral N] where
  loads : Str → Option (Json N)
  loads_dumpsIndent (v : Json N) : v.WF → loads (dumpsIndent 0 v) = some v
  /-- Of two entries with one key the later one is kept. -/
  wf {t : Str} {v : Json N} : loads t = some v → v.WF
  loads_nil : loads [] = none
  balanced {t : Str} {v : Json N} : loads t = some v → Py.Balanced t

open Classical in
/-- The reader that reads serialisations only. -/
noncomputable def Reader.canonical : Reader N where
  loads t := if h : ∃ v : Json N, v.WF ∧ dumpsIndent 0 v = t then some h.choose else none
  loads_dumpsIndent v hv := by
    have h : ∃ w : Json N, w.WF ∧ dumpsIndent 0 w = dumpsIndent 0 v := ⟨v, hv, rfl⟩
    rw [dif_pos h, dumpsIndent_injective h.choose_spec.2]
  wf {t v} h := by
    split at h
    · rename_i hex
      cases h
      exact hex.choose_spec.1
    · cases h
  loads_nil := dif_neg fun ⟨v, _, h⟩ => dumpsIndent_ne_nil v h
  balanced {t v} h := by
    split at h
    · rename_i hex
      rw [← hex.choose_spec.2]
      exact balanced_dumpsIndent _
    · cases h

end Json
