import KCore.Lib.Text

/-!
# JSON values and their serialisation

`dumps` is `json.dumps` with its default settings: `", "` and `": "` between
the parts, and every character outside printable ASCII escaped. The numbers are
those of a type `N` that has a `repr` (`Numeral`). The serialisation of a value
determines the value (`dumps_append_inj`), also when brackets that only close are cut
off at its end (`eq_of_closers`): a scan of the text knows which are missing
(`scan_dumps`).
-/

open Text

/-- Numbers with a `repr` of their own. -/
class Numeral (N : Type*) where
  repr : N → Str
  inj : Function.Injective repr
  ne_nil : ∀ n, repr n ≠ []
  chars : ∀ n, ∀ c ∈ repr n, c ∈ "0123456789+-.e".toList

theorem numeral_of_isDigit {c : Char} (h : c.isDigit = true) : c ∈ "0123456789+-.e".toList := by
  have hall : ∀ d < 10, Char.ofNat (48 + d) ∈ "0123456789+-.e".toList := by decide
  simp only [Char.isDigit, Bool.and_eq_true, decide_eq_true_eq, UInt32.le_iff_toNat_le] at h
  have h48 : 48 ≤ c.toNat := h.1
  have h57 : c.toNat ≤ 57 := h.2
  have := hall (c.toNat - 48) (by omega)
  rwa [Nat.add_sub_cancel' h48, Char.ofNat_toNat] at this

instance : Numeral Nat where
  repr := dec
  inj := fun m n h => by
    have := congrArg (Nat.ofDigitChars 10 · 0) h
    simpa [dec] using this
  ne_nil := fun _ => Nat.toDigits_ne_nil
  chars := fun _ _ hc => numeral_of_isDigit (isDigit_of_mem_dec hc)

/-- A JSON value; an object lists its entries in order. -/
inductive Json (N : Type*)
  | null
  | bool (b : Bool)
  | num (n : N)
  | str (s : Str)
  | arr (vs : List (Json N))
  | obj (es : List (Str × Json N))

namespace Json

variable {N : Type*}

/-! ## Strings -/

/-- `\uXXXX` of a code unit. -/
def escUnit (n : Nat) : Str :=
  ['\\', 'u', (n / 4096 % 16).digitChar, (n / 256 % 16).digitChar, (n / 16 % 16).digitChar, (n % 16).digitChar]

/-- The characters with an escape of one letter. -/
def escTable : List (Char × Char) :=
  [('"', '"'), ('\\', '\\'), ('\n', 'n'), ('\r', 'r'), ('\t', 't'), ('\x0c', 'f'), ('\x08', 'b')]

/-- A character of a string, as `ensure_ascii` writes it. -/
def escChar (c : Char) : Str :=
  match escTable.find? (·.1 = c) with
  | some e => ['\\', e.2]
  | none =>
    if 0x20 ≤ c.toNat ∧ c.toNat ≤ 0x7e then [c]
    else if c.toNat < 0x10000 then escUnit c.toNat
    else
      -- a surrogate pair
      escUnit (0xd800 + (c.toNat - 0x10000) / 1024) ++ escUnit (0xdc00 + (c.toNat - 0x10000) % 1024)

def escape (s : Str) : Str := s.flatMap escChar

def quote (s : Str) : Str := '"' :: (escape s ++ ['"'])

/-! ## Values -/

section
variable [Numeral N]

mutual

/-- `json.dumps(v)`. -/
def dumps : Json N → Str
  | null => "null".toList
  | bool true => "true".toList
  | bool false => "false".toList
  | num n => Numeral.repr n
  | str s => quote s
  | arr vs => '[' :: (join ", ".toList (dumpsItems vs) ++ [']'])
  | obj es => '{' :: (join ", ".toList (dumpsEntries es) ++ ['}'])

def dumpsItems : List (Json N) → List Str
  | [] => []
  | v :: vs => dumps v :: dumpsItems vs

def dumpsEntries : List (Str × Json N) → List Str
  | [] => []
  | (k, v) :: es => (quote k ++ (": ".toList ++ dumps v)) :: dumpsEntries es

end

/-- The parts of a container on lines of their own, `level` deep, or none. -/
def indented (level : Nat) (opening closing : Char) (parts : List Str) : Str :=
  if parts = [] then [opening, closing]
  else
    let newline := '\n' :: List.replicate (4 * level) ' '
    let inner := '\n' :: List.replicate (4 * (level + 1)) ' '
    opening :: (inner ++ (join (',' :: inner) parts ++ (newline ++ [closing])))

mutual

/-- `json.dumps(v, indent=4)`, at a depth of `level`. -/
def dumpsIndent (level : Nat) : Json N → Str
  | null => "null".toList
  | bool true => "true".toList
  | bool false => "false".toList
  | num n => Numeral.repr n
  | str s => quote s
  | arr vs => indented level '[' ']' (indentItems (level + 1) vs)
  | obj es => indented level '\x7b' '\x7d' (indentEntries (level + 1) es)

def indentItems (level : Nat) : List (Json N) → List Str
  | [] => []
  | v :: vs => dumpsIndent level v :: indentItems level vs

def indentEntries (level : Nat) : List (Str × Json N) → List Str
  | [] => []
  | (k, v) :: es => (quote k ++ (": ".toList ++ dumpsIndent level v)) :: indentEntries level es

end
end

mutual

/-- Every object has distinct keys, as a `dict` has. -/
def WF : Json N → Prop
  | null | bool _ | num _ | str _ => True
  | arr vs => WFItems vs
  | obj es => (es.map Prod.fst).Nodup ∧ WFEntries es

def WFItems : List (Json N) → Prop
  | [] => True
  | v :: vs => WF v ∧ WFItems vs

def WFEntries : List (Str × Json N) → Prop
  | [] => True
  | (_, v) :: es => WF v ∧ WFEntries es

end

theorem wfEntries_iff {es : List (Str × Json N)} : WFEntries es ↔ ∀ e ∈ es, e.2.WF := by
  induction es with
  | nil => exact iff_of_true trivial fun _ he => absurd he List.not_mem_nil
  | cons e es ih => rw [WFEntries, ih, List.forall_mem_cons]

mutual

/-- Every string and every key meets `p`. -/
def Strings (p : Str → Prop) : Json N → Prop
  | null | bool _ | num _ => True
  | str s => p s
  | arr vs => StringsItems p vs
  | obj es => StringsEntries p es

def StringsItems (p : Str → Prop) : List (Json N) → Prop
  | [] => True
  | v :: vs => Strings p v ∧ StringsItems p vs

def StringsEntries (p : Str → Prop) : List (Str × Json N) → Prop
  | [] => True
  | (k, v) :: es => p k ∧ Strings p v ∧ StringsEntries p es

end

/-! ## Reading strings back -/

/-- The value of a hexadecimal digit. -/
def hexVal (c : Char) : Nat := if c.isDigit then c.toNat - 48 else c.toNat - 87

def hexVal4 (a b c d : Char) : Nat := 4096 * hexVal a + 256 * hexVal b + 16 * hexVal c + hexVal d

/-- The character of a one-letter escape. -/
def codeChar (d : Char) : Char := ((escTable.find? (·.2 = d)).map Prod.fst).getD d

/-- The code unit at the front of a text, past its `\u`. -/
def readUnit : Str → Option (Nat × Str)
  | a :: b :: c :: d :: r => some (hexVal4 a b c d, r)
  | _ => none

/-- The first character that an escaped text stands for, and the text after it. -/
def unescape : Str → Option (Char × Str)
  | [] => none
  | c :: r =>
    if c ≠ '\\' then some (c, r)
    else if r.head? ≠ some 'u' then r.head?.map fun d => (codeChar d, r.tail)
    else (readUnit r.tail).bind fun (n, r) =>
      if 0xd800 ≤ n ∧ n < 0xdc00 then
        (readUnit (r.drop 2)).map fun (m, r) => (Char.ofNat (0x10000 + 1024 * (n - 0xd800) + (m - 0xdc00)), r)
      else some (Char.ofNat n, r)

theorem hexVal_digitChar : ∀ d < 16, hexVal (Nat.digitChar d) = d := by decide

theorem readUnit_escUnit {n : Nat} (h : n < 0x10000) (r : Str) :
    readUnit ((escUnit n).drop 2 ++ r) = some (n, r) := by
  simp only [escUnit, List.drop_succ_cons, List.drop_zero, List.cons_append, List.nil_append, readUnit, hexVal4,
    hexVal_digitChar _ (Nat.mod_lt _ (by decide : 0 < 16)), Option.some.injEq, Prod.mk.injEq, and_true]
  omega

theorem unescape_escUnit {n : Nat} (h : n < 0x10000) (r : Str) : unescape (escUnit n ++ r) =
    if 0xd800 ≤ n ∧ n < 0xdc00 then
      (readUnit (r.drop 2)).map fun (m, r) => (Char.ofNat (0x10000 + 1024 * (n - 0xd800) + (m - 0xdc00)), r)
    else some (Char.ofNat n, r) := by
  have hr := readUnit_escUnit h r
  rw [unescape.eq_def]
  simp only [escUnit, List.drop_succ_cons, List.drop_zero, List.cons_append, List.nil_append] at hr ⊢
  simp only [List.head?_cons, List.tail_cons, hr, ne_eq, not_true_eq_false, ite_false, Option.bind_some]

theorem toNat_not_surrogate (c : Char) : c.toNat < 0xd800 ∨ 0xdfff < c.toNat ∧ c.toNat < 0x110000 := c.valid

/-- The characters of an escape sequence. -/
def escCodes : Str := "\"\\nrtfbu0123456789abcdef".toList

theorem escTable_ok : ∀ e ∈ escTable, e.2 ≠ 'u' ∧ codeChar e.2 = e.1 ∧ (e.2 = '\\' → e.1 = '\\') ∧
    e.2 ∈ escCodes := by decide

theorem unescape_escChar (c : Char) (r : Str) : unescape (escChar c ++ r) = some (c, r) := by
  have hs := toNat_not_surrogate c
  unfold escChar
  cases h : escTable.find? (·.1 = c) with
  | some e =>
    obtain ⟨hu, hc, -⟩ := escTable_ok e (List.mem_of_find?_eq_some h)
    have he : e.1 = c := by simpa using List.find?_some h
    simp only [List.cons_append, List.nil_append, unescape, List.head?_cons, List.tail_cons, ne_eq,
      not_true_eq_false, ite_false, Option.some.injEq, hu, not_false_eq_true, ite_true, Option.map_some, hc, he]
  | none =>
    dsimp only
    by_cases h8 : 0x20 ≤ c.toNat ∧ c.toNat ≤ 0x7e
    · have hb : c ≠ '\\' := by rintro rfl; exact absurd h (by decide)
      simp only [h8, and_self, ite_true, List.singleton_append, unescape, ne_eq, hb, not_false_eq_true]
    rw [if_neg h8]
    by_cases h9 : c.toNat < 0x10000
    · rw [if_pos h9, unescape_escUnit h9, if_neg (by omega), Char.ofNat_toNat]
    · rw [if_neg h9, List.append_assoc, unescape_escUnit (by omega), if_pos (by omega),
        show (escUnit _ ++ r).drop 2 = (escUnit _).drop 2 ++ r from rfl, readUnit_escUnit (by omega),
        Option.map_some]
      dsimp only
      rw [show 0x10000 + 1024 * (0xd800 + (c.toNat - 0x10000) / 1024 - 0xd800) +
        (0xdc00 + (c.toNat - 0x10000) % 1024 - 0xdc00) = c.toNat by omega, Char.ofNat_toNat]

theorem digitChar_mem_escCodes (n : Nat) : (n % 16).digitChar ∈ escCodes := by
  have h : ∀ d < 16, Nat.digitChar d ∈ escCodes := by decide
  exact h (n % 16) (Nat.mod_lt n (by decide))

theorem digitChar_ne (n : Nat) : (n % 16).digitChar ≠ '\\' ∧ (n % 16).digitChar ≠ '"' := by
  have h : ∀ d < 16, Nat.digitChar d ≠ '\\' ∧ Nat.digitChar d ≠ '"' := by decide
  exact h (n % 16) (Nat.mod_lt n (by decide))

theorem mem_escUnit {n : Nat} {x : Char} (hx : x ∈ escUnit n) : x ∈ escCodes := by
  simp only [escUnit, List.mem_cons, List.not_mem_nil, or_false] at hx
  rcases hx with rfl | rfl | rfl | rfl | rfl | rfl
  · decide
  · decide
  all_goals exact digitChar_mem_escCodes _

/-- An escaped character is itself, or a short escape, or one or two code units. -/
theorem escChar_cases (c : Char) : escChar c = [c] ∧ c ≠ '"' ∧ c ≠ '\\' ∨
    (∃ e ∈ escTable, e.1 = c ∧ escChar c = ['\\', e.2]) ∨
    (∃ n, escChar c = escUnit n) ∨ ∃ n m, escChar c = escUnit n ++ escUnit m := by
  unfold escChar
  cases h : escTable.find? (·.1 = c) with
  | some e => exact .inr (.inl ⟨e, List.mem_of_find?_eq_some h, by simpa using List.find?_some h, rfl⟩)
  | none =>
    dsimp only
    by_cases h8 : 0x20 ≤ c.toNat ∧ c.toNat ≤ 0x7e
    · rw [if_pos h8]
      exact .inl ⟨rfl, by rintro rfl; exact absurd h (by decide), by rintro rfl; exact absurd h (by decide)⟩
    rw [if_neg h8]
    by_cases h9 : c.toNat < 0x10000
    · rw [if_pos h9]
      exact .inr (.inr (.inl ⟨_, rfl⟩))
    · rw [if_neg h9]
      exact .inr (.inr (.inr ⟨_, _, rfl⟩))

/-- An escaped character is itself, or a backslash and codes. -/
theorem escChar_head (c : Char) : escChar c = [c] ∧ c ≠ '"' ∧ c ≠ '\\' ∨
    ∃ d r, escChar c = '\\' :: d :: r ∧ (d = '\\' → c = '\\' ∧ r = []) ∧ ∀ x ∈ d :: r, x ∈ escCodes := by
  rcases escChar_cases c with h | ⟨e, he, rfl, h⟩ | ⟨n, h⟩ | ⟨n, m, h⟩
  · exact .inl h
  · obtain ⟨-, -, hb, hm⟩ := escTable_ok e he
    exact .inr ⟨e.2, [], h, fun hd => ⟨hb hd, rfl⟩, fun x hx => List.mem_singleton.mp hx ▸ hm⟩
  · exact .inr ⟨'u', (escUnit n).drop 2, h, fun h => absurd h (by decide),
      fun x hx => mem_escUnit (List.mem_cons_of_mem '\\' hx)⟩
  · refine .inr ⟨'u', (escUnit n).drop 2 ++ escUnit m, h, fun h => absurd h (by decide), fun x hx => ?_⟩
    rw [← List.cons_append] at hx
    rcases List.mem_append.mp hx with hx | hx
    · exact mem_escUnit (List.mem_cons_of_mem '\\' hx)
    · exact mem_escUnit hx

theorem escape_cons (c : Char) (s : Str) : escape (c :: s) = escChar c ++ escape s := List.flatMap_cons ..

theorem escChar_ne_quote (c : Char) (r : Str) (t : Str) : escChar c ++ r ≠ '"' :: t := by
  rcases escChar_head c with ⟨h, hq, -⟩ | ⟨d, u, h, -⟩
  · simp [h, hq]
  · simp [h]

/-- A string and what comes after it, read back. -/
theorem escape_inj : ∀ {s s' r r' : Str}, escape s ++ '"' :: r = escape s' ++ '"' :: r' → s = s' ∧ r = r'
  | [], [], r, r', h => ⟨rfl, by simpa [escape] using h⟩
  | [], c :: s', r, r', h => by
    rw [escape_cons, List.append_assoc] at h
    exact absurd h.symm (escChar_ne_quote c _ _)
  | c :: s, [], r, r', h => by
    rw [escape_cons, List.append_assoc] at h
    exact absurd h (escChar_ne_quote c _ _)
  | c :: s, d :: s', r, r', h => by
    rw [escape_cons, escape_cons, List.append_assoc, List.append_assoc] at h
    have hu := congrArg unescape h
    simp only [unescape_escChar, Option.some.injEq, Prod.mk.injEq] at hu
    obtain ⟨rfl, hu⟩ := hu
    obtain ⟨rfl, hr⟩ := escape_inj hu
    exact ⟨rfl, hr⟩

theorem quote_inj {s s' r r' : Str} (h : quote s ++ r = quote s' ++ r') : s = s' ∧ r = r' := by
  simp only [quote, List.cons_append, List.append_assoc, List.nil_append, List.cons.injEq, true_and] at h
  exact escape_inj h

/-! ## Reading values back -/

section
variable [Numeral N]

/-- What may follow a value. -/
def Delim (r : Str) : Prop := ∀ c ∈ r.head?, c = ',' ∨ c = ']' ∨ c = '}'

theorem delim_cons {c : Char} (h : c = ',' ∨ c = ']' ∨ c = '}') (r : Str) : Delim (c :: r) := fun _ hd =>
  Option.some.inj hd ▸ h

/-- The parts after the first, with the separators before them. -/
def tail : List Str → Str
  | [] => []
  | a :: ls => ", ".toList ++ join ", ".toList (a :: ls)

theorem join_cons (a : Str) (ls : List Str) : join ", ".toList (a :: ls) = a ++ tail ls := by
  cases ls <;> simp [tail]

theorem delim_tail {c : Char} (h : c = ',' ∨ c = ']' ∨ c = '}') (ls : List Str) (r : Str) :
    Delim (tail ls ++ c :: r) := by
  cases ls with
  | nil => exact delim_cons h r
  | cons a ls => exact delim_cons (.inl rfl) _

/-- Which constructor a value is of. -/
def kind : Json N → Nat
  | null => 0
  | bool _ => 1
  | num _ => 2
  | str _ => 3
  | arr _ => 4
  | obj _ => 5

/-- The constructor that a first character tells of, 6 if none. -/
def headKind (c : Char) : Nat :=
  if c = 'n' then 0
  else if c = 't' ∨ c = 'f' then 1
  else if c ∈ "0123456789+-.e".toList then 2
  else if c = '"' then 3
  else if c = '[' then 4
  else if c = '\x7b' then 5
  else 6

theorem headKind_numeral : ∀ c ∈ "0123456789+-.e".toList, headKind c = 2 := by decide

theorem dumps_str (s : Str) : dumps (str s : Json N) = quote s := rfl

theorem dumps_arr (vs : List (Json N)) : dumps (arr vs) = '[' :: (join ", ".toList (dumpsItems vs) ++ [']']) := rfl

theorem dumps_obj (es : List (Str × Json N)) :
    dumps (obj es) = '\x7b' :: (join ", ".toList (dumpsEntries es) ++ ['\x7d']) := rfl

theorem dumps_head (v : Json N) : ∃ c t, dumps v = c :: t ∧ headKind c = kind v := by
  cases v with
  | null => exact ⟨'n', _, rfl, rfl⟩
  | bool b => cases b <;> exact ⟨_, _, rfl, rfl⟩
  | str s => exact ⟨'"', _, rfl, rfl⟩
  | arr vs => exact ⟨'[', _, rfl, rfl⟩
  | obj es => exact ⟨'\x7b', _, rfl, rfl⟩
  | num n =>
    cases h : Numeral.repr n with
    | nil => exact absurd h (Numeral.ne_nil n)
    | cons c t => exact ⟨c, t, h, headKind_numeral c (Numeral.chars n c (by rw [h]; exact .head _))⟩

theorem kind_eq {v v' : Json N} {r r' : Str} (h : dumps v ++ r = dumps v' ++ r') : kind v = kind v' := by
  obtain ⟨c, t, hc, hk⟩ := dumps_head v
  obtain ⟨c', t', hc', hk'⟩ := dumps_head v'
  rw [hc, hc'] at h
  rw [← hk, ← hk', (List.cons.inj h).1]

/-- A closing bracket begins no value. -/
theorem dumps_ne_cons {c : Char} (hc : headKind c = 6) (v : Json N) (r t : Str) : dumps v ++ r ≠ c :: t := by
  obtain ⟨d, u, hd, hk⟩ := dumps_head v
  rw [hd]
  intro h
  rw [(List.cons.inj h).1, hc] at hk
  cases v <;> simp [kind] at hk

theorem repr_inj {n n' : N} {r r' : Str} (hr : Delim r) (hr' : Delim r')
    (h : Numeral.repr n ++ r = Numeral.repr n' ++ r') : n = n' ∧ r = r' := by
  have hstop {r : Str} (hr : Delim r) : r.takeWhile (· ∈ "0123456789+-.e".toList) = [] := by
    cases r with
    | nil => rfl
    | cons c r =>
      rw [List.takeWhile_cons_of_neg]
      rcases hr c rfl with rfl | rfl | rfl <;> decide
  have hrun (n : N) {r : Str} (hr : Delim r) :
      (Numeral.repr n ++ r).takeWhile (· ∈ "0123456789+-.e".toList) = Numeral.repr n := by
    rw [List.takeWhile_append_of_pos (fun c hc => decide_eq_true (Numeral.chars n c hc)), hstop hr, List.append_nil]
  have hn : Numeral.repr n = Numeral.repr n' := by rw [← hrun n hr, h, hrun n' hr']
  exact ⟨Numeral.inj hn, by rw [hn] at h; exact List.append_cancel_left h⟩

mutual

/-- A value and what comes after it, read back. -/
theorem dumps_append_inj : ∀ (v v' : Json N) {r r' : Str}, Delim r → Delim r' → dumps v ++ r = dumps v' ++ r' →
    v = v' ∧ r = r'
  | null, v', r, r', _, _, h => by
    cases v' with
    | null => exact ⟨rfl, List.append_cancel_left h⟩
    | _ => exact absurd (kind_eq h) (by simp [kind])
  | bool b, v', r, r', _, _, h => by
    cases v' with
    | bool b' =>
      have htrue (s : Str) : dumps (bool true : Json N) ++ s = 't' :: ("rue".toList ++ s) := rfl
      have hfalse (s : Str) : dumps (bool false : Json N) ++ s = 'f' :: ("alse".toList ++ s) := rfl
      cases b <;> cases b'
      · exact ⟨rfl, List.append_cancel_left h⟩
      · rw [hfalse, htrue] at h
        exact absurd (List.cons.inj h).1 (by decide)
      · rw [htrue, hfalse] at h
        exact absurd (List.cons.inj h).1 (by decide)
      · exact ⟨rfl, List.append_cancel_left h⟩
    | _ => exact absurd (kind_eq h) (by simp [kind])
  | num n, v', r, r', hr, hr', h => by
    cases v' with
    | num n' =>
      obtain ⟨rfl, hrr⟩ := repr_inj hr hr' h
      exact ⟨rfl, hrr⟩
    | _ => exact absurd (kind_eq h) (by simp [kind])
  | str s, v', r, r', _, _, h => by
    cases v' with
    | str s' =>
      obtain ⟨rfl, hrr⟩ := quote_inj h
      exact ⟨rfl, hrr⟩
    | _ => exact absurd (kind_eq h) (by simp [kind])
  | arr vs, v', r, r', _, _, h => by
    cases v' with
    | arr vs' =>
      simp only [dumps_arr, List.cons_append, List.append_assoc, List.nil_append, List.cons.injEq, true_and] at h
      obtain ⟨rfl, hrr⟩ := items_inj vs vs' h
      exact ⟨rfl, hrr⟩
    | _ => exact absurd (kind_eq h) (by simp [kind])
  | obj es, v', r, r', _, _, h => by
    cases v' with
    | obj es' =>
      simp only [dumps_obj, List.cons_append, List.append_assoc, List.nil_append, List.cons.injEq, true_and] at h
      obtain ⟨rfl, hrr⟩ := entries_inj es es' h
      exact ⟨rfl, hrr⟩
    | _ => exact absurd (kind_eq h) (by simp [kind])

theorem items_inj : ∀ (vs vs' : List (Json N)) {r r' : Str},
    join ", ".toList (dumpsItems vs) ++ ']' :: r = join ", ".toList (dumpsItems vs') ++ ']' :: r' →
      vs = vs' ∧ r = r'
  | [], [], r, r', h => ⟨rfl, by simpa [dumpsItems] using h⟩
  | [], v :: vs, r, r', h => by
    simp only [dumpsItems, join_cons, List.append_assoc] at h
    exact absurd h.symm (dumps_ne_cons (by decide) v _ _)
  | v :: vs, [], r, r', h => by
    simp only [dumpsItems, join_cons, List.append_assoc] at h
    exact absurd h (dumps_ne_cons (by decide) v _ _)
  | v :: vs, v' :: vs', r, r', h => by
    simp only [dumpsItems, join_cons, List.append_assoc] at h
    obtain ⟨rfl, ht⟩ := dumps_append_inj v v' (delim_tail (by decide) _ _) (delim_tail (by decide) _ _) h
    cases vs with
    | nil =>
      cases vs' with
      | nil => exact ⟨rfl, by simpa [dumpsItems, tail] using ht⟩
      | cons w ws => simp [dumpsItems, tail] at ht
    | cons w ws =>
      cases vs' with
      | nil => simp [dumpsItems, tail] at ht
      | cons w' ws' =>
        simp only [dumpsItems, tail, List.append_assoc] at ht
        obtain ⟨hvs, hr⟩ := items_inj (w :: ws) (w' :: ws') (List.append_cancel_left ht)
        exact ⟨by rw [hvs], hr⟩

theorem entries_inj : ∀ (es es' : List (Str × Json N)) {r r' : Str},
    join ", ".toList (dumpsEntries es) ++ '\x7d' :: r = join ", ".toList (dumpsEntries es') ++ '\x7d' :: r' →
      es = es' ∧ r = r'
  | [], [], r, r', h => ⟨rfl, by simpa [dumpsEntries] using h⟩
  | [], (k, v) :: es, r, r', h => by
    simp only [dumpsEntries, join_cons, quote, List.cons_append, join_nil, List.nil_append] at h
    exact absurd (List.cons.inj h).1 (by decide)
  | (k, v) :: es, [], r, r', h => by
    simp only [dumpsEntries, join_cons, quote, List.cons_append, join_nil, List.nil_append] at h
    exact absurd (List.cons.inj h).1 (by decide)
  | (k, v) :: es, (k', v') :: es', r, r', h => by
    simp only [dumpsEntries, join_cons, List.append_assoc] at h
    obtain ⟨rfl, hk⟩ := quote_inj h
    obtain ⟨rfl, ht⟩ := dumps_append_inj v v' (delim_tail (by decide) _ _) (delim_tail (by decide) _ _)
      (List.append_cancel_left hk)
    cases es with
    | nil =>
      cases es' with
      | nil => exact ⟨rfl, by simpa [dumpsEntries, tail] using ht⟩
      | cons w ws => simp [dumpsEntries, tail] at ht
    | cons e es =>
      cases es' with
      | nil => simp [dumpsEntries, tail] at ht
      | cons e' es' =>
        simp only [dumpsEntries, tail, List.append_assoc] at ht
        obtain ⟨hes, hr⟩ := entries_inj (e :: es) (e' :: es') (List.append_cancel_left ht)
        exact ⟨by rw [hes], hr⟩

end

/-! ## Closing brackets -/

/-- Where a scan of a text is: outside a string, in one, or past a backslash in one. -/
inductive Mode
  | out
  | str
  | esc
  deriving DecidableEq

/-- One character of a scan that keeps the brackets still to close; `none` where one does not match. -/
def scanChar : List Char × Mode → Char → Option (List Char × Mode)
  | (st, .esc), _ => some (st, .str)
  | (st, .str), c => some (st, if c = '\\' then .esc else if c = '"' then .out else .str)
  | (st, .out), c =>
    if c = '"' then some (st, .str)
    else if c = '\x7b' then some ('\x7d' :: st, .out)
    else if c = '[' then some (']' :: st, .out)
    else if c = '\x7d' ∨ c = ']' then if st.head? = some c then some (st.tail, .out) else none
    else some (st, .out)

def scan (s : List Char × Mode) : Str → Option (List Char × Mode)
  | [] => some s
  | c :: t => (scanChar s c).bind fun s => scan s t

theorem scan_append (s : List Char × Mode) : ∀ t u : Str, scan s (t ++ u) = (scan s t).bind fun s => scan s u
  | [], u => rfl
  | c :: t, u => by
    simp only [List.cons_append, scan, Option.bind_assoc]
    congr 1
    exact funext fun s => scan_append s t u

theorem scan_escUnit (st : List Char) (n : Nat) : scan (st, .str) (escUnit n) = some (st, .str) := by
  simp only [escUnit, scan, scanChar, digitChar_ne, ite_true, ite_false, Option.bind_some]

theorem scan_escape (st : List Char) : ∀ s : Str, scan (st, .str) (escape s) = some (st, .str)
  | [] => rfl
  | c :: s => by
    have hc : scan (st, .str) (escChar c) = some (st, .str) := by
      rcases escChar_cases c with ⟨h, hq, hb⟩ | ⟨e, -, -, h⟩ | ⟨n, h⟩ | ⟨n, m, h⟩
      · simp only [h, scan, scanChar, hq, hb, ite_false, Option.bind_some]
      · simp only [h, scan, scanChar, ite_true, Option.bind_some]
      · rw [h, scan_escUnit]
      · rw [h, scan_append, scan_escUnit, Option.bind_some, scan_escUnit]
    rw [escape_cons, scan_append, hc, Option.bind_some, scan_escape st s]

theorem scan_quote (st : List Char) (s : Str) : scan (st, .out) (quote s) = some (st, .out) := by
  have : scan (st, .str) (escape s ++ ['"']) = some (st, .out) := by
    rw [scan_append, scan_escape]
    rfl
  simpa only [quote, scan, scanChar, ite_true, Option.bind_some] using this

/-- The characters that a scan outside strings looks for. -/
def marks : List Char := ['"', '[', ']', '\x7b', '\x7d']

theorem scanChar_plain (st : List Char) {c : Char} (h : c ∉ marks) : scanChar (st, .out) c = some (st, .out) := by
  simp only [marks, List.mem_cons, List.not_mem_nil, or_false, not_or] at h
  simp only [scanChar, h, ite_false, or_self]

theorem scan_plain (st : List Char) : ∀ {t : Str}, (∀ c ∈ t, c ∉ marks) → scan (st, .out) t = some (st, .out)
  | [], _ => rfl
  | c :: t, h => by
    rw [scan, scanChar_plain st (h c (.head _)), Option.bind_some, scan_plain st fun d hd => h d (.tail _ hd)]

theorem numeral_not_mark : ∀ c ∈ "0123456789+-.e".toList, c ∉ marks := by decide

/-- Parts and separators that each leave a scan where it is. -/
theorem scan_join (st : List Char) : ∀ ls : List Str, (∀ a ∈ ls, scan (st, .out) a = some (st, .out)) →
    scan (st, .out) (join ", ".toList ls) = some (st, .out)
  | [], _ => rfl
  | [a], h => by
    rw [join_singleton]
    exact h a (.head _)
  | a :: b :: ls, h => by
    rw [join_cons_cons, scan_append, h a (.head _), Option.bind_some, scan_append,
      scan_plain st (show ∀ c ∈ ", ".toList, c ∉ marks by decide), Option.bind_some,
      scan_join st (b :: ls) fun a ha => h a (.tail _ ha)]

mutual

/-- A value closes what it opens. -/
theorem scan_dumps : ∀ (v : Json N) (st : List Char), scan (st, .out) (dumps v) = some (st, .out)
  | null, st => scan_plain st (show ∀ c ∈ "null".toList, c ∉ marks by decide)
  | bool true, st => scan_plain st (show ∀ c ∈ "true".toList, c ∉ marks by decide)
  | bool false, st => scan_plain st (show ∀ c ∈ "false".toList, c ∉ marks by decide)
  | num n, st => scan_plain st fun c hc => numeral_not_mark c (Numeral.chars n c hc)
  | str s, st => scan_quote st s
  | arr vs, st => by
    have hj := scan_join (']' :: st) (dumpsItems vs) (scan_items vs (']' :: st))
    rw [dumps_arr, scan, show scanChar (st, .out) '[' = some (']' :: st, .out) from rfl, Option.bind_some,
      scan_append, hj]
    rfl
  | obj es, st => by
    have hj := scan_join ('\x7d' :: st) (dumpsEntries es) (scan_entries es ('\x7d' :: st))
    rw [dumps_obj, scan, show scanChar (st, .out) '\x7b' = some ('\x7d' :: st, .out) from rfl, Option.bind_some,
      scan_append, hj]
    rfl

theorem scan_items : ∀ (vs : List (Json N)) (st : List Char), ∀ a ∈ dumpsItems vs,
    scan (st, .out) a = some (st, .out)
  | v :: vs, st, a, ha => by
    rcases List.mem_cons.mp ha with rfl | ha
    · exact scan_dumps v st
    · exact scan_items vs st a ha

theorem scan_entries : ∀ (es : List (Str × Json N)) (st : List Char), ∀ a ∈ dumpsEntries es,
    scan (st, .out) a = some (st, .out)
  | (k, v) :: es, st, a, ha => by
    rcases List.mem_cons.mp ha with rfl | ha
    · rw [scan_append, scan_quote, Option.bind_some, scan_append,
        scan_plain st (show ∀ c ∈ ": ".toList, c ∉ marks by decide), Option.bind_some, scan_dumps v st]
    · exact scan_entries es st a ha

end

/-- Closing brackets only. -/
def Closers (u : Str) : Prop := ∀ c ∈ u, c = '\x7d' ∨ c = ']'

theorem scan_closers_str (st : List Char) : ∀ {u : Str}, Closers u → scan (st, .str) u = some (st, .str)
  | [], _ => rfl
  | c :: u, h => by
    have hc : scanChar (st, .str) c = some (st, .str) := by
      rcases h c (.head _) with rfl | rfl <;> rfl
    rw [scan, hc, Option.bind_some, scan_closers_str st fun d hd => h d (.tail _ hd)]

/-- The closing brackets that end a text are those its scan keeps. -/
theorem eq_of_scan_closers : ∀ {u : Str} {st : List Char}, Closers u → scan (st, .out) u = some ([], .out) → u = st
  | [], st, _, h => by simpa [scan] using h.symm
  | c :: u, st, hu, h => by
    have hc : scanChar (st, .out) c = if st.head? = some c then some (st.tail, .out) else none := by
      rcases hu c (.head _) with rfl | rfl <;> rfl
    rw [scan, hc] at h
    split at h
    · rename_i hst
      cases st with
      | nil => cases hst
      | cons d st =>
        rw [eq_of_scan_closers (fun d hd => hu d (.tail _ hd)) h]
        simpa using hst.symm
    · cases h

/-- A text completed by closing brackets is completed in one way. -/
theorem eq_of_closers {v v' : Json N} {t u u' : Str} (hu : Closers u) (hu' : Closers u') (h : t ++ u = dumps v)
    (h' : t ++ u' = dumps v') : v = v' := by
  have read {v : Json N} {u : Str} (hu : Closers u) (h : t ++ u = dumps v) : scan ([], .out) t = some (u, .out) := by
    have hs := scan_dumps v []
    rw [← h, scan_append] at hs
    cases ht : scan ([], .out) t with
    | none => simp [ht] at hs
    | some s =>
      obtain ⟨st, m⟩ := s
      rw [ht, Option.bind_some] at hs
      cases m with
      | out => rw [eq_of_scan_closers hu hs]
      | str => simp [scan_closers_str st hu] at hs
      | esc =>
        cases u with
        | nil => simp [scan] at hs
        | cons c u =>
          rw [scan, scanChar, Option.bind_some, scan_closers_str st fun d hd => hu d (.tail _ hd)] at hs
          simp at hs
  have huu : u = u' := by
    have := (read hu h).symm.trans (read hu' h')
    simpa using this
  subst huu
  have hv : dumps v ++ [] = dumps v' ++ [] := by rw [← h, ← h']
  exact (dumps_append_inj v v' (fun _ hd => by simp at hd) (fun _ hd => by simp at hd) hv).1

end

end Json
