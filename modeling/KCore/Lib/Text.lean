import Mathlib.Data.List.DropRight
import Mathlib.Data.List.Infix
import Mathlib.Data.List.TakeWhile

/-!
# Text as Python has it

A text is the list of its code points; the functions are those of `str`:
`strip`, `split`, `join`, `find`, `replace`, `startswith` (`<+:`), `in`
(`<:+:`) and the decimal formats `{n}` (`dec`) and `{n:0wd}` (`pad`).
-/

namespace Text

/-- A text: its code points, in order. -/
abbrev Str := List Char

instance lawfulBEqStr : LawfulBEq Str := inferInstance

-- decided on the characters of the text, not on all there are
instance (priority := high) decidableForallStr {P : Char → Prop} [DecidablePred P] (s : Str) : Decidable (∀ c ∈ s, P c) :=
  List.decidableBAll P s

instance (priority := high) decidableForallChar {P : Char → Prop} [DecidablePred P] (o : Option Char) : Decidable (∀ c ∈ o, P c) :=
  Option.decidableForallMem o

/-! ## White space -/

/-- `c.isspace()`, which `strip` and the `\s` of regular expressions share. -/
def isSpace (c : Char) : Bool :=
  let n := c.toNat
  (9 ≤ n && n ≤ 13) || (28 ≤ n && n ≤ 32) || n == 0x85 || n == 0xA0 || n == 0x1680 ||
    (0x2000 ≤ n && n ≤ 0x200A) || n == 0x2028 || n == 0x2029 || n == 0x202F || n == 0x205F || n == 0x3000

/-- `s` without the characters of `p` at its two ends. -/
def stripBy (p : Char → Bool) (s : Str) : Str := (s.dropWhile p).rdropWhile p

/-- `s.strip()`. -/
def strip (s : Str) : Str := stripBy isSpace s

/-- `s.strip(c)`. -/
def stripChar (c : Char) (s : Str) : Str := stripBy (· == c) s

/-- `c.lower()`, as far as letters `a`–`z` come out of it: besides `A`–`Z` only the Kelvin sign and
the dotted capital I have a lower case with one of them. -/
def lowerChar (c : Char) : Str :=
  if 'A' ≤ c ∧ c ≤ 'Z' then [c.toLower]
  else if c = '\u212A' then ['k']
  else if c = '\u0130' then ['i', '\u0307']
  else [c]

/-- `s.lower()`, for a search of words in `a`–`z`. -/
def lower (s : Str) : Str := s.flatMap lowerChar

/-- `sep.join(ls)`. -/
def join (sep : Str) (ls : List Str) : Str := sep.intercalate ls

/-- `s.split(c)`. -/
def split (c : Char) (s : Str) : List Str := s.splitOn c

/-- `s.split(c, 1)[0]`. -/
def before (c : Char) (s : Str) : Str := s.takeWhile (· != c)

/-- `s.split(c, 1)[-1]`. -/
def after (c : Char) (s : Str) : Str := if c ∈ s then (s.dropWhile (· != c)).tail else s

/-- A text with no character of `p` at its two ends is not changed. -/
theorem stripBy_eq_self {p : Char → Bool} {s : Str} (hh : ∀ c ∈ s.head?, p c = false)
    (hl : ∀ c ∈ s.getLast?, p c = false) : stripBy p s = s := by
  have hd : s.dropWhile p = s := by
    cases s with
    | nil => rfl
    | cons c s => simp [hh c rfl]
  rw [stripBy, hd, List.rdropWhile_eq_self_iff]
  intro hs
  simp [hl _ (List.getLast?_eq_some_getLast hs)]

theorem stripBy_head {p : Char → Bool} {s : Str} : ∀ c ∈ (stripBy p s).head?, p c = false := by
  intro c hc
  obtain ⟨t, ht⟩ := List.rdropWhile_prefix p (s.dropWhile p)
  change stripBy p s ++ t = _ at ht
  cases hs : stripBy p s with
  | nil => simp [hs] at hc
  | cons d u =>
    obtain rfl : d = c := by simpa [hs] using hc
    rw [hs] at ht
    have := List.head?_dropWhile_not p s
    rw [← ht] at this
    simpa using this

theorem stripBy_last {p : Char → Bool} {s : Str} : ∀ c ∈ (stripBy p s).getLast?, p c = false := by
  intro c hc
  have hne : stripBy p s ≠ [] := by rintro h; simp [h] at hc
  have := List.rdropWhile_last_not p (s.dropWhile p) hne
  rw [List.getLast?_eq_some_getLast hne, Option.mem_some_iff] at hc
  simpa [stripBy, ← hc] using this

theorem stripBy_isInfix (p : Char → Bool) (s : Str) : stripBy p s <:+: s :=
  (List.rdropWhile_prefix p _).isInfix.trans (List.dropWhile_suffix p).isInfix

/-- What stands between two runs of `p`, and neither begins nor ends with one. -/
theorem stripBy_append {p : Char → Bool} {a t b : Str} (ha : ∀ c ∈ a, p c = true) (hb : ∀ c ∈ b, p c = true)
    (hne : t ≠ []) (hh : ∀ c ∈ t.head?, p c = false) (hl : ∀ c ∈ t.getLast?, p c = false) :
    stripBy p (a ++ t ++ b) = t := by
  have hd : (a ++ t ++ b).dropWhile p = t ++ b := by
    rw [List.append_assoc, List.dropWhile_append_of_pos ha]
    obtain ⟨c, t, rfl⟩ := List.exists_cons_of_ne_nil hne
    simp [hh c rfl]
  have hr : ∀ b : Str, (∀ c ∈ b, p c = true) → (t ++ b).rdropWhile p = t := by
    intro b hb
    induction b using List.reverseRecOn with
    | nil =>
      rw [List.append_nil, List.rdropWhile_eq_self_iff]
      intro ht
      simp [hl _ (List.getLast?_eq_some_getLast ht)]
    | append_singleton b c ih =>
      rw [← List.append_assoc, List.rdropWhile_concat_pos _ _ _ (hb c (by simp))]
      exact ih fun x hx => hb x (by simp [hx])
  rw [stripBy, hd, hr b hb]

theorem stripBy_cons {p : Char → Bool} {c : Char} {s : Str} (hc : p c = true) :
    stripBy p (c :: s) = stripBy p s := by
  rw [stripBy, List.dropWhile_cons_of_pos hc, stripBy]

theorem stripBy_concat {p : Char → Bool} {c : Char} {s : Str} (hc : p c = true) :
    stripBy p (s ++ [c]) = stripBy p s := by
  simp only [stripBy, List.dropWhile_append]
  split
  · rename_i h
    rw [List.isEmpty_iff] at h
    simp [h, hc]
  · rw [List.rdropWhile_concat_pos _ _ _ hc]

/-! ## Joined parts -/

@[simp] theorem join_nil (sep : Str) : join sep [] = [] := rfl

@[simp] theorem join_singleton (sep a : Str) : join sep [a] = a := by simp [join, List.intercalate]

@[simp] theorem join_cons_cons (sep a b : Str) (ls : List Str) :
    join sep (a :: b :: ls) = a ++ (sep ++ join sep (b :: ls)) := by
  simp [join, List.intercalate]

theorem join_head {sep c : Str} {cs : List Str} (hne : c ≠ []) : (join sep (c :: cs)).head? = c.head? := by
  obtain ⟨x, c, rfl⟩ := List.exists_cons_of_ne_nil hne
  cases cs with
  | nil => simp
  | cons d cs => simp

theorem join_last {sep : Str} : ∀ {cs : List Str} {c : Str}, cs.getLast? = some c → c ≠ [] →
    (join sep cs).getLast? = c.getLast?
  | [a], c, h, _ => by
    obtain rfl : a = c := by simpa using h
    rw [join_singleton]
  | a :: b :: cs, c, h, hne => by
    have ih := @join_last sep (b :: cs) c (by simpa using h) hne
    have hj : join sep (b :: cs) ≠ [] := by
      intro hj
      rw [hj, List.getLast?_nil, eq_comm, List.getLast?_eq_none_iff] at ih
      exact hne ih
    rw [join_cons_cons, ← List.append_assoc, List.getLast?_append_of_ne_nil _ hj, ih]

theorem split_join {c : Char} {ls : List Str} (hne : ls ≠ []) (hc : ∀ l ∈ ls, c ∉ l) :
    split c (join [c] ls) = ls :=
  List.splitOn_intercalate c hc hne

theorem isInfix_join {sep l : Str} : ∀ {ls : List Str}, l ∈ ls → l <:+: join sep ls
  | [a], h => by rw [List.mem_singleton.mp h, join_singleton]
  | a :: b :: ls, h => by
    rw [join_cons_cons]
    rcases List.mem_cons.mp h with rfl | h
    · exact (List.prefix_append l _).isInfix
    · have hl : l <:+: join sep (b :: ls) := isInfix_join h
      exact hl.trans ⟨a ++ sep, [], by simp⟩

theorem isInfix_of_mem_split {c : Char} {s l : Str} (h : l ∈ split c s) : l <:+: s := by
  have hs : join [c] (split c s) = s := List.intercalate_splitOn c
  have hl : l <:+: join [c] (split c s) := isInfix_join h
  rwa [hs] at hl

theorem length_split (c : Char) : ∀ s : Str, (split c s).length = s.count c + 1
  | [] => by simp [split]
  | x :: s => by
    rw [split, List.splitOn_cons_eq_if_modifyHead, ← split]
    by_cases hx : x = c
    · simp [hx, length_split c s]
    · simp [hx, length_split c s]

theorem notMem_of_mem_split {c : Char} : ∀ {s l : Str}, l ∈ split c s → c ∉ l
  | [], l, h => by
    obtain rfl : l = [] := by simpa [split] using h
    exact List.not_mem_nil
  | x :: s, l, h => by
    rw [split, List.splitOn_cons_eq_if_modifyHead, ← split] at h
    by_cases hx : x = c
    · rw [if_pos (beq_iff_eq.mpr hx), List.mem_cons] at h
      rcases h with rfl | h
      · exact List.not_mem_nil
      · exact notMem_of_mem_split h
    · rw [if_neg (mt beq_iff_eq.mp hx)] at h
      have ih {l : Str} (h : l ∈ split c s) : c ∉ l := notMem_of_mem_split h
      cases hs : split c s with
      | nil =>
        rw [hs] at h
        cases h
      | cons a ls =>
        rw [hs, List.modifyHead_cons, List.mem_cons] at h
        rcases h with rfl | h
        · exact List.not_mem_cons_of_ne_of_not_mem (Ne.symm hx) (ih (hs ▸ .head _))
        · exact ih (hs ▸ .tail _ h)

/-! ## Search and replacement -/

/-- `re.search`, for a matcher of texts at their beginning: the leftmost match. -/
def search {α : Type*} (m : Str → Option α) : Str → Option α
  | [] => m []
  | c :: s => (m (c :: s)).or (search m s)

/-- `s.find(pat)`, `none` for `-1`. -/
def find (pat : Str) : Str → Option Nat
  | [] => if pat = [] then some 0 else none
  | c :: s => if pat <+: c :: s then some 0 else (find pat s).map (· + 1)

/-- `s.replace(old, new)` past the first `skip` characters, which the last match covers. -/
def replaceFrom (old new : Str) : Nat → Str → Str
  | _, [] => []
  | skip + 1, _ :: s => replaceFrom old new skip s
  | 0, c :: s =>
    if old <+: c :: s then new ++ replaceFrom old new (old.length - 1) s
    else c :: replaceFrom old new 0 s

/-- `s.replace(old, new)`, for a non-empty `old`: every match from the left, none overlapping. -/
def replace (old new s : Str) : Str := replaceFrom old new 0 s

theorem isPrefix_append_cons {c : Char} {b : Str} : ∀ {p a : Str}, c ∉ p → (p <+: a ++ c :: b ↔ p <+: a)
  | [], a, _ => by simp
  | x :: p, [], hc => by
    simp only [List.nil_append, List.cons_prefix_cons, List.prefix_nil, reduceCtorEq, iff_false, not_and]
    rintro rfl
    exact absurd (.head _) hc
  | x :: p, y :: a, hc => by
    simp only [List.cons_append, List.cons_prefix_cons, isPrefix_append_cons fun h => hc (.tail _ h)]

/-- A text that cannot hold `c` is found on one side of a `c`. -/
theorem isInfix_append_cons {c : Char} {p b : Str} (hc : c ∉ p) (hp : p ≠ []) :
    ∀ {a : Str}, p <:+: a ++ c :: b ↔ p <:+: a ∨ p <:+: b
  | [] => by
    obtain ⟨x, p, rfl⟩ := List.exists_cons_of_ne_nil hp
    have : c ≠ x := fun h => hc (h ▸ .head _)
    simp [List.infix_cons_iff, List.cons_prefix_cons, this.symm]
  | y :: a => by
    simp only [List.cons_append, List.infix_cons_iff, isInfix_append_cons hc hp]
    rw [← List.cons_append, isPrefix_append_cons hc, or_assoc]

/-- A text that begins with a character outside `a` is not found across `a`. -/
theorem isInfix_append_of_head {x : Char} {p b : Str} : ∀ {a : Str}, x ∉ a →
    (x :: p <:+: a ++ b ↔ x :: p <:+: b)
  | [], _ => by simp
  | y :: a, h => by
    simp only [List.mem_cons, not_or] at h
    simp [List.infix_cons_iff, List.cons_prefix_cons, h.1, isInfix_append_of_head h.2]

theorem replace_eq_self {old new : Str} : ∀ {s : Str}, ¬old <:+: s → replace old new s = s
  | [], _ => rfl
  | c :: s, h => by
    rw [List.infix_cons_iff, not_or] at h
    rw [replace, replaceFrom, if_neg h.1, ← replace, replace_eq_self h.2]

theorem replaceFrom_append {old new s : Str} : ∀ a : Str, replaceFrom old new a.length (a ++ s) = replace old new s
  | [] => rfl
  | _ :: a => replaceFrom_append a

theorem replace_match {old new s : Str} (ho : old ≠ []) : replace old new (old ++ s) = new ++ replace old new s := by
  obtain ⟨c, o, rfl⟩ := List.exists_cons_of_ne_nil ho
  rw [replace, List.cons_append, replaceFrom, ← List.cons_append, if_pos (List.prefix_append _ _), List.length_cons,
    Nat.add_sub_cancel, replaceFrom_append]

theorem replace_cons {old new s : Str} {c : Char} (h : ¬old <+: c :: s) :
    replace old new (c :: s) = c :: replace old new s := by
  rw [replace, replaceFrom, if_neg h, ← replace]

/-- A text that begins with a character outside `a` is not found in `a`. -/
theorem replace_append_of_head {x : Char} {p new s : Str} : ∀ {a : Str}, x ∉ a →
    replace (x :: p) new (a ++ s) = a ++ replace (x :: p) new s
  | [], _ => rfl
  | c :: a, h => by
    simp only [List.mem_cons, not_or] at h
    rw [List.cons_append, replace_cons (fun hp => h.1 (List.cons_prefix_cons.mp hp).1), replace_append_of_head h.2,
      List.cons_append]

theorem replaceFrom_append_cons {old new b : Str} {c : Char} (hc : c ∉ old) (ho : old ≠ []) :
    ∀ {k : Nat} {a : Str}, k ≤ a.length →
      replaceFrom old new k (a ++ c :: b) = replaceFrom old new k a ++ c :: replaceFrom old new 0 b
  | 0, [], _ => by
    have : ¬old <+: c :: b := fun h => by
      have := (isPrefix_append_cons (a := []) hc).mp h
      exact ho (List.prefix_nil.mp this)
    simp [replaceFrom, this]
  | 0, x :: a, _ => by
    simp only [List.cons_append, replaceFrom]
    simp only [← List.cons_append, isPrefix_append_cons hc]
    split
    · rename_i h
      have hl := h.length_le
      rw [List.length_cons] at hl
      rw [replaceFrom_append_cons hc ho (by omega), List.append_assoc]
    · rw [replaceFrom_append_cons hc ho (Nat.zero_le _), List.cons_append]
  | k + 1, x :: a, h => by
    simp only [List.cons_append, replaceFrom]
    exact replaceFrom_append_cons hc ho (by simpa using h)

/-- No match goes over a character that the text looked for cannot hold. -/
theorem replace_append_cons {old new a b : Str} {c : Char} (hc : c ∉ old) (ho : old ≠ []) :
    replace old new (a ++ c :: b) = replace old new a ++ c :: replace old new b :=
  replaceFrom_append_cons hc ho (Nat.zero_le _)

theorem mem_replaceFrom {old new : Str} {x : Char} : ∀ {k : Nat} {s : Str}, x ∈ replaceFrom old new k s →
    x ∈ s ∨ x ∈ new
  | _, [], h => by simp [replaceFrom] at h
  | k + 1, y :: s, h => by
    rw [replaceFrom] at h
    exact (mem_replaceFrom h).imp_left (List.mem_cons_of_mem y)
  | 0, c :: s, h => by
    rw [replaceFrom] at h
    split at h
    · rcases List.mem_append.mp h with h | h
      · exact .inr h
      · exact (mem_replaceFrom h).imp_left (List.mem_cons_of_mem _)
    · rcases List.mem_cons.mp h with rfl | h
      · exact .inl (.head _)
      · exact (mem_replaceFrom h).imp_left (List.mem_cons_of_mem _)

theorem mem_replace {old new s : Str} {x : Char} (h : x ∈ replace old new s) : x ∈ s ∨ x ∈ new := mem_replaceFrom h

theorem find_append_cons {c : Char} {b : Str} : ∀ {a : Str}, c ∉ a → find [c] (a ++ c :: b) = some a.length
  | [], _ => by simp [find]
  | x :: a, h => by
    simp only [List.mem_cons, not_or] at h
    simp [find, List.cons_prefix_cons, h.1, find_append_cons h.2]

/-! ## Decimal numbers -/

/-- `f"{n}"`. -/
def dec (n : Nat) : Str := Nat.toDigits 10 n

/-- `f"{n:0wd}"`. -/
def pad (w n : Nat) : Str := List.replicate (w - (dec n).length) '0' ++ dec n

theorem isDigit_of_mem_dec {n : Nat} {c : Char} (h : c ∈ dec n) : c.isDigit = true :=
  Nat.isDigit_of_mem_toDigits (by decide) (by decide) h

theorem isDigit_of_mem_pad {w n : Nat} {c : Char} (h : c ∈ pad w n) : c.isDigit = true := by
  rcases List.mem_append.mp h with h | h
  · rw [(List.mem_replicate.mp h).2]; rfl
  · exact isDigit_of_mem_dec h

/-- The number that a padded decimal reads. -/
theorem ofDigitChars_pad (w n : Nat) : Nat.ofDigitChars 10 (pad w n) 0 = n := by
  rw [pad, Nat.ofDigitChars_append, Nat.ofDigitChars_replicate_zero, dec, Nat.mul_zero,
    Nat.ofDigitChars_ten_toDigits]

theorem pad_injective (w : Nat) : Function.Injective (pad w) := fun m n h => by
  rw [← ofDigitChars_pad w m, ← ofDigitChars_pad w n, h]

/-- Two texts that end in a character outside `p` and a run of `p` agree part by part. -/
theorem append_run_inj {p : Char → Bool} {a b d e : Str} {c : Char} (hc : p c = false)
    (hd : ∀ x ∈ d, p x = true) (he : ∀ x ∈ e, p x = true) (h : a ++ c :: d = b ++ c :: e) :
    a = b ∧ d = e := by
  have run (a d : Str) (hd : ∀ x ∈ d, p x = true) : (a ++ c :: d).reverse.takeWhile p = d.reverse := by
    rw [List.reverse_append, List.reverse_cons, List.append_assoc,
      List.takeWhile_append_of_pos (by simpa using hd)]
    simp [hc]
  have hde : d = e := by
    rw [← List.reverse_inj, ← run a d hd, ← run b e he, h]
  subst hde
  exact ⟨List.append_cancel_right h, rfl⟩

end Text
